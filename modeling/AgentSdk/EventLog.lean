import AgentSdk.Event
import AgentSdk.Lib.Trail
import Mathlib.Data.List.Perm.Subperm
/-!
# The event log as the conversation sees it

`EventLog` in memory: the events in index order, with distinct ids (`append`
refuses a second event of one id). The files behind it are modelled in
`EventStore`. `pathToRoot` is the walk of `EventLog.path_to_root`.
-/

namespace AgentSdk
open Lib

structure EventLog where
  events : List Event := []
  idsNodup : (events.map Event.id).Nodup := by first | exact List.nodup_nil | decide
deriving DecidableEq

/-- The `ValueError`s of the log and of the conversation tree. -/
inductive ValueError where
  | idExists (id : EventID)
  | parentMissing (parent : EventID) (id : EventID)
  | cycle
  | unknownEvent (id : EventID)
deriving DecidableEq, Repr

namespace EventLog

def ids (log : EventLog) : List EventID := log.events.map Event.id

def getIndex (log : EventLog) (id : EventID) : Option Nat := log.ids.idxOf? id

def getId (log : EventLog) (idx : Nat) : Option EventID := log.ids[idx]?

/-- `_effective_parent_id`: an event without a parent in the log continues the
linear chain, whether it is legacy or its parent's file was lost. -/
def effectiveParentId (log : EventLog) (idx : Nat) (e : Event) : Option EventID :=
  if e.parentId = some rootParentId then none
  else
    match e.parentId.filter (· ∈ log.ids) with
    | some p => some p
    | none => if idx = 0 then none else log.getId (idx - 1)

/-- The event of an id and its effective parent. -/
def next (log : EventLog) (id : EventID) : Option (Event × Option EventID) := do
  let idx ← log.getIndex id
  let e ← log.events[idx]?
  return (e, log.effectiveParentId idx e)

/-- `path_to_root` without a limit: root first. -/
def pathToRoot (log : EventLog) (leaf : Option EventID) : Except ValueError (List Event) :=
  match walk log.next (log.events.length + 1) [] leaf with
  | some chain => .ok chain.reverse
  | none => .error .cycle

/-- `append`. The index it returns is the length before. -/
def append (log : EventLog) (e : Event) : Except ValueError EventLog :=
  if h : e.id ∈ log.ids then .error (.idExists e.id)
  else
    match e.parentId.filter (fun p => p ≠ rootParentId ∧ p ∉ log.ids) with
    | some p => .error (.parentMissing p e.id)
    | none => .ok {
        events := log.events ++ [e]
        idsNodup := by
          rw [List.map_append, List.nodup_append]
          refine ⟨log.idsNodup, by simp, ?_⟩
          rintro x hx y hy rfl
          simp only [List.map_cons, List.map_nil, List.mem_singleton] at hy
          exact h (hy ▸ hx) }

/-! ## Lookups -/

theorem mem_ids {log : EventLog} {id : EventID} : id ∈ log.ids ↔ ∃ e ∈ log.events, e.id = id := by
  simp [ids]

theorem getIndex_eq_some {log : EventLog} {id : EventID} {i : Nat} :
    log.getIndex id = some i ↔ ∃ e, log.events[i]? = some e ∧ e.id = id := by
  have hget : ∀ j (hj : j < log.ids.length), log.ids[j] = id ↔ ∃ e, log.events[j]? = some e ∧ e.id = id := by
    intro j hj
    have hj' : j < log.events.length := by simpa [ids] using hj
    simp [ids, List.getElem?_eq_getElem hj']
  rw [getIndex, List.idxOf?_eq_some_iff]
  constructor
  · rintro ⟨h, he, -⟩
    exact (hget i h).1 (by simpa using he)
  · rintro ⟨e, hi, he⟩
    have h : i < log.ids.length := by
      obtain ⟨h, -⟩ := List.getElem?_eq_some_iff.1 hi
      simpa [ids] using h
    refine ⟨h, by simpa using (hget i h).2 ⟨e, hi, he⟩, fun j hj hne => ?_⟩
    have heq : log.ids[j] = log.ids[i] := by
      rw [(hget i h).2 ⟨e, hi, he⟩]
      simpa using hne
    have := (List.Nodup.getElem_inj_iff (show log.ids.Nodup from log.idsNodup)).1 heq
    omega

theorem next_eq_some {log : EventLog} {id : EventID} {e : Event} {p : Option EventID} :
    log.next id = some (e, p) ↔
      ∃ i, log.events[i]? = some e ∧ e.id = id ∧ p = log.effectiveParentId i e := by
  simp only [next, bind, Option.bind_eq_some_iff, pure, Option.some.injEq, Prod.mk.injEq]
  constructor
  · rintro ⟨i, hi, e', he', rfl, rfl⟩
    obtain ⟨e'', he'', hid⟩ := getIndex_eq_some.1 hi
    rw [he'] at he''
    cases he''
    exact ⟨i, he', hid, rfl⟩
  · rintro ⟨i, he, hid, rfl⟩
    exact ⟨i, getIndex_eq_some.2 ⟨e, he, hid⟩, e, he, rfl, rfl⟩

theorem next_isSome {log : EventLog} {id : EventID} : (log.next id).isSome ↔ id ∈ log.ids := by
  rw [Option.isSome_iff_exists, mem_ids]
  constructor
  · rintro ⟨⟨e, p⟩, h⟩
    obtain ⟨i, hi, hid, -⟩ := next_eq_some.1 h
    exact ⟨e, List.mem_of_getElem? hi, hid⟩
  · rintro ⟨e, he, hid⟩
    obtain ⟨i, hi⟩ := List.getElem?_of_mem he
    exact ⟨_, next_eq_some.2 ⟨i, hi, hid, rfl⟩⟩

/-- `next` is keyed by the event id. -/
theorem next_key {log : EventLog} : ∀ v b p, log.next v = some (b, p) → b.id = v := by
  intro v b p h
  obtain ⟨_, _, hid, _⟩ := next_eq_some.1 h
  exact hid

/-! ## Branches -/

/-- `l` is the branch from the root to `leaf`. -/
def Branch (log : EventLog) (leaf : Option EventID) (l : List Event) : Prop := Trail log.next leaf l

theorem Branch.subset {log : EventLog} {leaf : Option EventID} {l : List Event} (h : log.Branch leaf l) :
    l ⊆ log.events := by
  unfold Branch at h
  induction h with
  | root => simp
  | node hn _ ih =>
    obtain ⟨i, hi, -, -⟩ := next_eq_some.1 hn
    simpa [List.append_subset] using ⟨ih, List.mem_of_getElem? hi⟩

theorem Branch.length_le {log : EventLog} {leaf : Option EventID} {l : List Event} (h : log.Branch leaf l) :
    l.length ≤ log.events.length := by
  have hs : l.map Event.id ⊆ log.ids := List.map_subset _ h.subset
  simpa [ids] using (List.subperm_of_subset (Trail.nodup next_key h) hs).length_le

/-- `path_to_root` returns the branch. -/
theorem Branch.pathToRoot {log : EventLog} {leaf : Option EventID} {l : List Event} (h : log.Branch leaf l) :
    log.pathToRoot leaf = .ok l := by
  rw [EventLog.pathToRoot,
    walk_of_trail next_key h _ [] (Nat.lt_succ_of_le h.length_le) (by simp)]
  simp

/-- Explicit parents precede their children: what `append` checks. -/
def WellFormed (log : EventLog) : Prop :=
  ∀ i e, log.events[i]? = some e → ∀ p, e.parentId = some p →
    p = rootParentId ∨ ∃ j < i, log.getId j = some p

theorem exists_of_getId {log : EventLog} {i : Nat} {p : EventID} (h : log.getId i = some p) :
    ∃ f, log.events[i]? = some f ∧ f.id = p := by
  rwa [getId, ids, List.getElem?_map, Option.map_eq_some_iff] at h

theorem getId_mem {log : EventLog} {i : Nat} {id : EventID} (h : log.getId i = some id) : id ∈ log.ids :=
  List.mem_of_getElem? h

/-- In a well-formed log the effective parent sits at a smaller index. -/
theorem effectiveParentId_lt {log : EventLog} (hw : log.WellFormed) {i : Nat} {e : Event}
    (hi : log.events[i]? = some e) {p : EventID} (hp : log.effectiveParentId i e = some p) :
    ∃ j < i, log.getId j = some p := by
  unfold effectiveParentId at hp
  split at hp
  · cases hp
  · rename_i hroot
    split at hp
    · rename_i q hq
      cases hp
      rw [Option.filter_eq_some_iff] at hq
      rcases hw i e hi p hq.1 with rfl | h
      · exact absurd hq.1 hroot
      · exact h
    · split at hp
      · cases hp
      · exact ⟨i - 1, by omega, hp⟩

/-- Every event of a well-formed log heads a branch. -/
theorem WellFormed.exists_branch {log : EventLog} (hw : log.WellFormed) {id : EventID} (h : id ∈ log.ids) :
    ∃ l, log.Branch (some id) l := by
  refine Trail.exists_of_rank (fun v => (log.getIndex v).getD 0) ?_ id (next_isSome.2 h)
  intro v b p hn
  obtain ⟨i, hi, hid, hp⟩ := next_eq_some.1 hn
  obtain ⟨j, hj, hjp⟩ := effectiveParentId_lt hw hi hp.symm
  have hv : log.getIndex v = some i := getIndex_eq_some.2 ⟨b, hi, hid⟩
  have hpj : log.getIndex p = some j := by
    rw [getId, ids, List.getElem?_map, Option.map_eq_some_iff] at hjp
    exact getIndex_eq_some.2 hjp
  exact ⟨by simpa [hv, hpj] using hj, next_isSome.2 (getId_mem hjp)⟩

/-! ## What append does -/

theorem append_ok {log log' : EventLog} {e : Event} (h : log.append e = .ok log') :
    e.id ∉ log.ids ∧ log'.events = log.events ++ [e] ∧
      ∀ p, e.parentId = some p → p = rootParentId ∨ p ∈ log.ids := by
  unfold append at h
  split at h
  · cases h
  · rename_i hid
    split at h
    · cases h
    · rename_i hp
      cases h
      refine ⟨hid, rfl, fun p hpe => ?_⟩
      rw [Option.filter_eq_none_iff] at hp
      have := hp p hpe
      simp only [decide_eq_true_eq, not_and, Decidable.not_not] at this
      by_cases hr : p = rootParentId
      · exact .inl hr
      · exact .inr (this hr)

theorem append_eq {log : EventLog} {e : Event} (hid : e.id ∉ log.ids)
    (hp : ∀ p, e.parentId = some p → p = rootParentId ∨ p ∈ log.ids) :
    ∃ log', log.append e = .ok log' := by
  have hf : e.parentId.filter (fun p => p ≠ rootParentId ∧ p ∉ log.ids) = none := by
    rw [Option.filter_eq_none_iff]
    intro p hpe
    simp only [decide_eq_true_eq, not_and, Decidable.not_not]
    exact fun hr => (hp p hpe).resolve_left hr
  unfold append
  rw [dif_neg hid]
  split
  · rename_i q hq
    rw [hf] at hq
    cases hq
  · exact ⟨_, rfl⟩

section Appended
variable {log log' : EventLog} {e : Event}

theorem ids_append (h : log.append e = .ok log') : log'.ids = log.ids ++ [e.id] := by
  simp [ids, (append_ok h).2.1]

theorem WellFormed.append (hw : log.WellFormed) (h : log.append e = .ok log') : log'.WellFormed := by
  obtain ⟨_, hev, hpar⟩ := append_ok h
  have hids := ids_append h
  intro i b hi p hp
  rw [hev] at hi
  rcases Nat.lt_or_ge i log.events.length with hlt | hge
  · rw [List.getElem?_append_left hlt] at hi
    rcases hw i b hi p hp with hr | ⟨j, hj, hjp⟩
    · exact .inl hr
    · refine .inr ⟨j, hj, ?_⟩
      rw [getId, hids, List.getElem?_append_left (by simp [ids]; omega)]
      exact hjp
  · have hi0 : i = log.events.length ∧ b = e := by
      rw [List.getElem?_append_right hge] at hi
      have := List.getElem?_eq_some_iff.1 hi
      obtain ⟨h1, h2⟩ := this
      simp only [List.length_singleton, Nat.lt_one_iff] at h1
      refine ⟨by omega, ?_⟩
      simpa [h1] using h2.symm
    obtain ⟨rfl, rfl⟩ := hi0
    rcases hpar p hp with hr | hm
    · exact .inl hr
    · obtain ⟨j, hj⟩ := List.getElem?_of_mem hm
      have hlt : j < log.ids.length := (List.getElem?_eq_some_iff.1 hj).1
      refine .inr ⟨j, by simpa [ids] using hlt, ?_⟩
      rw [getId, hids, List.getElem?_append_left hlt]
      exact hj

/-- Appending keeps the effective parents of the events already there. -/
theorem next_append (hw : log.WellFormed) (h : log.append e = .ok log') :
    ∀ v b p, log.next v = some (b, p) → log'.next v = some (b, p) := by
  obtain ⟨_, hev, _⟩ := append_ok h
  have hids := ids_append h
  intro v b p hn
  obtain ⟨i, hi, hid, rfl⟩ := next_eq_some.1 hn
  have hlt : i < log.events.length := (List.getElem?_eq_some_iff.1 hi).1
  refine next_eq_some.2 ⟨i, by rw [hev, List.getElem?_append_left hlt]; exact hi, hid, ?_⟩
  have hgid : ∀ j, j < i → log'.getId j = log.getId j := by
    intro j hj
    rw [getId, getId, hids, List.getElem?_append_left (by simp [ids]; omega)]
  have hmem : ∀ q, b.parentId = some q → b.parentId ≠ some rootParentId → (q ∈ log'.ids ↔ q ∈ log.ids) := by
    intro q hq hr
    rcases hw i b hi q hq with rfl | ⟨j, -, hj⟩
    · exact absurd hq hr
    · simp [hids, getId_mem hj]
  unfold effectiveParentId
  split
  · rfl
  · rename_i hr
    have hf : b.parentId.filter (· ∈ log'.ids) = b.parentId.filter (· ∈ log.ids) := by
      cases hp : b.parentId with
      | none => rfl
      | some q => simp [Option.filter, hmem q hp hr]
    rw [hf]
    cases b.parentId.filter (· ∈ log.ids) with
    | some q => rfl
    | none =>
      by_cases h0 : i = 0
      · simp [h0]
      · simp [h0, hgid (i - 1) (by omega)]

theorem Branch.append (hw : log.WellFormed) (h : log.append e = .ok log') {leaf : Option EventID}
    {l : List Event} (hb : log.Branch leaf l) : log'.Branch leaf l :=
  Trail.mono (next_append hw h) hb

/-- The branch of the appended event: that of its parent, and the event. -/
theorem Branch.snoc (hw : log.WellFormed) (h : log.append e = .ok log') {leaf : Option EventID} {l : List Event}
    (hb : log.Branch leaf l) (hl : leaf ≠ some rootParentId)
    (hp : e.parentId = leaf ∧ (leaf = none → log.events = []) ∨ e.parentId = some rootParentId ∧ leaf = none) :
    log'.Branch (some e.id) (l ++ [e]) := by
  obtain ⟨_, hev, hpar⟩ := append_ok h
  have hids := ids_append h
  refine Trail.node (next_eq_some.2 ⟨log.events.length, by simp [hev], rfl, rfl⟩) ?_
  have heff : log'.effectiveParentId log.events.length e = leaf := by
    unfold effectiveParentId
    rcases hp with ⟨hp, hnil⟩ | ⟨hp, rfl⟩
    · rw [hp, if_neg hl]
      cases leaf with
      | none => simp [hnil rfl]
      | some q =>
        have hq : q ∈ log'.ids := by
          rcases hpar q hp with rfl | hq
          · exact absurd rfl hl
          · simp [hids, hq]
        simp [Option.filter, hq]
    · rw [if_pos hp]
  rw [heff]
  exact hb.append hw h

/-- A branch of the log after the append is one from before, or the new one. -/
theorem Branch.of_append (hw : log.WellFormed) (h : log.append e = .ok log')
    (hnone : e.parentId = none → log.events = []) {leaf : Option EventID} {l : List Event}
    (hb : log'.Branch leaf l) : log.Branch leaf l ∨
      ∃ l₀, log.Branch (e.parentId.filter (· ≠ rootParentId)) l₀ ∧ l = l₀ ++ [e] := by
  cases leaf with
  | none =>
    rw [Branch, Trail.none_iff] at hb
    exact .inl (hb ▸ .root)
  | some v =>
    have hv : v ∈ log'.ids := by
      obtain ⟨_, _, _, hn, -, -⟩ := Trail.some_iff.1 hb
      exact next_isSome.1 (by rw [hn]; rfl)
    rw [ids_append h, List.mem_append, List.mem_singleton] at hv
    rcases hv with hv | rfl
    · obtain ⟨l', hl'⟩ := hw.exists_branch hv
      rw [Trail.unique hb (hl'.append hw h)]
      exact .inl hl'
    · refine .inr ?_
      have hpar := (append_ok h).2.2
      have hsnoc : ∀ {l₀}, log.Branch (e.parentId.filter (· ≠ rootParentId)) l₀ →
          log'.Branch (some e.id) (l₀ ++ [e]) := by
        intro l₀ hl₀
        refine hl₀.snoc hw h (by simp [Option.filter_eq_some_iff]) ?_
        cases hp : e.parentId with
        | none => exact .inl ⟨rfl, fun _ => hnone hp⟩
        | some p =>
          by_cases hr : p = rootParentId
          · exact .inr ⟨by rw [hr], by simp [Option.filter, hr]⟩
          · exact .inl ⟨by simp [Option.filter, hr], by simp [Option.filter, hr]⟩
      have hex : ∃ l₀, log.Branch (e.parentId.filter (· ≠ rootParentId)) l₀ := by
        cases hp : e.parentId.filter (· ≠ rootParentId) with
        | none => exact ⟨[], .root⟩
        | some p =>
          rw [Option.filter_eq_some_iff] at hp
          exact hw.exists_branch ((hpar p hp.1).resolve_left (by simpa using hp.2))
      obtain ⟨l₀, hl₀⟩ := hex
      exact ⟨l₀, hl₀, Trail.unique hb (hsnoc hl₀)⟩

end Appended

end EventLog

end AgentSdk
