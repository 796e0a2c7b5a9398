import AgentSdk.Fork
/-!
# Branches over lost event files

When event files are lost, `path_to_root` bridges from an event to the one that
stands before it in the log. That is its branch only where no other branch lies
between.
-/

namespace AgentSdk
open Lib

namespace EventLog

/-- The id that stands before an event in the log. -/
def previous (log : EventLog) (id : EventID) : Option EventID :=
  match log.getIndex id with
  | none | some 0 => none
  | some (idx + 1) => log.getId idx

def survivors (lost : List EventID) (branch : List Event) : List Event := branch.filter (·.id ∉ lost)

/-- After the loss, the walk from `leaf` ends, visits nothing twice and gives the
events of the branch that are left, in their order. -/
def KeepsBranch (log : EventLog) (lost : List EventID) (leaf : EventID) : Prop :=
  ∃ before after, log.pathToRoot (some leaf) = .ok before ∧ (log.without lost).pathToRoot (some leaf) = .ok after ∧
    (after.map Event.id).Nodup ∧ after = survivors lost before

/-- An event of the branch whose parent there was lost has its nearest ancestor
that is left, if any, directly before it among the events that are left. -/
def Bridged (log : EventLog) (lost : List EventID) (leaf : EventID) : Prop :=
  ∀ pre p e post, log.Branch (some leaf) (pre ++ p :: e :: post) → p.id ∈ lost → e.id ∉ lost →
    (log.without lost).previous e.id = (survivors lost pre).getLast?.map Event.id

/-! ## The event before -/

section Split
variable {log : EventLog} {e : Event} {pre post : List Event}

theorem getIndex_split (h : log.events = pre ++ e :: post) : log.getIndex e.id = some pre.length :=
  getIndex_eq_some.2 ⟨e, by simp [h], rfl⟩

theorem previous_split (h : log.events = pre ++ e :: post) : log.previous e.id = pre.getLast?.map Event.id := by
  unfold previous
  rw [getIndex_split h]
  rcases List.eq_nil_or_concat pre with rfl | ⟨pre, x, rfl⟩
  · rfl
  · simp [getId, ids, h]

/-- The effective parent of an event, by what stands before it. -/
theorem effectiveParentId_split (h : log.events = pre ++ e :: post) :
    log.effectiveParentId pre.length e =
      if e.parentId = some rootParentId then none
      else (e.parentId.filter (· ∈ log.ids)).or (log.previous e.id) := by
  rw [previous_split h, effectiveParentId]
  split
  · rfl
  · cases e.parentId.filter (· ∈ log.ids) with
    | some p => rfl
    | none =>
      rcases List.eq_nil_or_concat pre with rfl | ⟨pre, x, rfl⟩
      · rfl
      · simp [getId, ids, h]

theorem next_split (h : log.events = pre ++ e :: post) :
    log.next e.id = some (e, log.effectiveParentId pre.length e) :=
  next_eq_some.2 ⟨pre.length, by simp [h], rfl, rfl⟩

end Split

/-! ## One event over a loss -/

section Loss
variable {log : EventLog} {lost : List EventID}

theorem mem_ids_without {id : EventID} : id ∈ (log.without lost).ids ↔ id ∈ log.ids ∧ id ∉ lost := by
  simp only [mem_ids, without, List.mem_filter, decide_eq_true_eq]
  constructor
  · rintro ⟨e, ⟨he, hl⟩, rfl⟩
    exact ⟨⟨e, he, rfl⟩, hl⟩
  · rintro ⟨⟨e, he, rfl⟩, hl⟩
    exact ⟨e, ⟨he, hl⟩, rfl⟩

/-- An event whose effective parent was lost is bridged. -/
theorem next_without {e : Event} {p : Option EventID} (hkept : e.id ∉ lost) (hn : log.next e.id = some (e, p)) :
    (log.without lost).next e.id =
      some (e, p.bind fun q => if q ∈ lost then (log.without lost).previous e.id else some q) := by
  obtain ⟨i, hi, -, hp⟩ := next_eq_some.1 hn
  obtain ⟨pre, post, hev⟩ := List.append_of_mem (List.mem_of_getElem? hi)
  have hev' : (log.without lost).events = survivors lost pre ++ e :: survivors lost post := by
    simp [without, survivors, hev, hkept]
  have heff : p = log.effectiveParentId pre.length e := by
    rw [next_split hev] at hn
    cases hn
    rfl
  rw [next_split hev', heff, effectiveParentId_split hev, effectiveParentId_split hev']
  split
  · rfl
  · cases hpar : e.parentId.filter (· ∈ log.ids) with
    | some q =>
      obtain ⟨hq, hmem⟩ := Option.filter_eq_some_iff.1 hpar
      have hmem := of_decide_eq_true hmem
      by_cases hlost : q ∈ lost
      · simp [hq, Option.filter, mem_ids_without, hlost]
      · simp [hq, Option.filter, mem_ids_without, hlost, hmem]
    | none =>
      have hnone : e.parentId.filter (· ∈ (log.without lost).ids) = none := by
        refine Option.filter_eq_none_iff.2 fun q hq => ?_
        have hnot := Option.filter_eq_none_iff.1 hpar q hq
        simp only [decide_eq_true_eq] at hnot ⊢
        exact fun hmem => hnot (mem_ids_without.1 hmem).1
      rw [hnone, Option.none_or, Option.none_or, previous_split hev, previous_split hev']
      rcases List.eq_nil_or_concat pre with rfl | ⟨pre, x, rfl⟩
      · rfl
      · by_cases hlost : x.id ∈ lost <;> simp [survivors, hlost]

/-! ## The branch over a loss -/

theorem Branch.without {o : Option EventID} {l : List Event} (h : log.Branch o l)
    (hbridged : ∀ pre p e post, l = pre ++ p :: e :: post → p.id ∈ lost → e.id ∉ lost →
      (log.without lost).previous e.id = (survivors lost pre).getLast?.map Event.id) :
    (log.without lost).Branch ((survivors lost l).getLast?.map Event.id) (survivors lost l) := by
  unfold Branch at h
  induction h with
  | root => exact .root
  | @node v b p l hn ht ih =>
    have ih := ih fun pre q e post hl => hbridged pre q e (post ++ [b]) (by simp [hl])
    have hv : b.id = v := next_key _ _ _ hn
    rw [survivors, List.filter_append, ← survivors]
    by_cases hlost : b.id ∈ lost
    · simpa [hlost] using ih
    · have hp : (p.bind fun q => if q ∈ lost then (log.without lost).previous b.id else some q) =
          (survivors lost l).getLast?.map Event.id := by
        have hstart := Trail.start_eq next_key ht
        rcases List.eq_nil_or_concat l with rfl | ⟨pre, c, rfl⟩
        · rw [hstart]
          rfl
        · rw [List.concat_eq_append] at hstart hbridged ⊢
          by_cases hc : c.id ∈ lost
          · have hbridge := hbridged pre c b [] (by simp) hc hlost
            simp [hstart, survivors, hc, hbridge]
          · simp [hstart, survivors, hc]
      have hnext := next_without hlost (hv ▸ hn)
      rw [hp] at hnext
      have htrail := Trail.node hnext ih
      simpa [hlost, Branch] using htrail

/-- A walk that gives the branch that is left has bridged to the nearest ancestors. -/
theorem bridged_of_branch {leaf : EventID} {before : List Event} (hbefore : log.Branch (some leaf) before)
    (hafter : (log.without lost).Branch (some leaf) (survivors lost before)) : log.Bridged lost leaf := by
  intro pre p e post hb hp he
  have hsplit : survivors lost before = survivors lost pre ++ e :: survivors lost post := by
    rw [Trail.unique hbefore hb]
    simp [survivors, hp, he]
  rw [hsplit] at hafter
  obtain ⟨v, q, hn, ht⟩ := Trail.split hafter
  have hparent : pre ++ p :: e :: post = (pre ++ [p]) ++ e :: post := by simp
  rw [hparent] at hb
  obtain ⟨w, r, hn', ht'⟩ := Trail.split hb
  have hr := Trail.start_eq next_key ht'
  rw [List.getLast?_concat, Option.map_some] at hr
  have hnext := next_without he ((next_key _ _ _ hn').symm ▸ hn')
  rw [(next_key _ _ _ hn).symm, hnext, hr] at hn
  simp only [Option.bind_some, if_pos hp, Option.some.injEq, Prod.mk.injEq, true_and] at hn
  rw [hn]
  exact Trail.start_eq next_key ht

theorem Branch.of_pathToRoot (hr : log.Rooted) {leaf : EventID} (hleaf : leaf ∈ log.ids) {l : List Event}
    (h : log.pathToRoot (some leaf) = .ok l) : log.Branch (some leaf) l := by
  obtain ⟨l', hl'⟩ := hr.exists_branch hleaf
  rw [hl'.pathToRoot] at h
  cases h
  exact hl'

theorem Rooted.keepsBranch_iff (hr : log.Rooted) {leaf : EventID} (hleaf : leaf ∈ log.ids) (hkept : leaf ∉ lost) :
    log.KeepsBranch lost leaf ↔ log.Bridged lost leaf := by
  obtain ⟨before, hbefore⟩ := hr.exists_branch hleaf
  constructor
  · rintro ⟨before', after, hb, ha, -, rfl⟩
    rw [hbefore.pathToRoot] at hb
    cases hb
    exact bridged_of_branch hbefore (.of_pathToRoot (hr.without lost) (mem_ids_without.2 ⟨hleaf, hkept⟩) ha)
  · intro hbridged
    have hafter := hbefore.without fun pre p e post hl => hbridged pre p e post (hl ▸ hbefore)
    have hlast : (survivors lost before).getLast?.map Event.id = some leaf := by
      obtain ⟨e, p, l, hn, -, rfl⟩ := Trail.some_iff.1 hbefore
      have he := next_key _ _ _ hn
      simp [survivors, he, hkept]
    rw [hlast] at hafter
    exact ⟨before, _, hbefore.pathToRoot, hafter.pathToRoot, hafter.ids_nodup, rfl⟩

end Loss

end EventLog

namespace ConversationState

/-- Whatever is lost besides the leaf, the walk from it ends and visits nothing twice. -/
theorem Navigable.pathToRoot_lost {s : ConversationState} (hs : s.Navigable) {lost : List EventID} {leaf : EventID}
    (hleaf : leaf ∈ s.events.ids) (hkept : leaf ∉ lost) :
    ∃ l, (s.events.without lost).pathToRoot (some leaf) = .ok l ∧ (l.map Event.id).Nodup := by
  obtain ⟨l, hl⟩ := (hs.log.without lost).exists_branch (EventLog.mem_ids_without.2 ⟨hleaf, hkept⟩)
  exact ⟨l, hl.pathToRoot, hl.ids_nodup⟩

/-- The walk always ends, and it gives the branch that is left exactly where the
event before each hole is on that branch. -/
theorem keepsBranch_of_reaches {init s : ConversationState} (hinit : init.Legacy)
    (h : Reaches TreeOp.step TreeOp.Fresh init s) {lost : List EventID} {leaf : EventID}
    (hleaf : leaf ∈ s.events.ids) (hkept : leaf ∉ lost) :
    (∃ l, (s.events.without lost).pathToRoot (some leaf) = .ok l ∧ (l.map Event.id).Nodup) ∧
      (s.events.KeepsBranch lost leaf ↔ s.events.Bridged lost leaf) :=
  have hs := navigable_of_reaches hinit h
  ⟨hs.pathToRoot_lost hleaf hkept, hs.log.keepsBranch_iff hleaf hkept⟩

/-! ## One branch, and two -/

private def note (id : EventID) (h : id ≠ rootParentId := by exact ne_rootParentId trivial) : Event :=
  { id, notRoot := h, body := .message (.ofUser [id]) }

private def oneBranch : List TreeOp := [.append (note "e0"), .append (note "e1"), .append (note "e2")]

/-- `e2` stands between `e1` and its child `e3` on the other branch. -/
private def twoBranches : List TreeOp :=
  [.append (note "e0"), .append (note "e1"), .navigate (some "e0"), .append (note "e2"), .navigate (some "e1"),
    .append (note "e3")]

private def stateAfter (ops : List TreeOp) : ConversationState := (execAllowed TreeOp.step TreeOp.Fresh {} ops).getD {}

private theorem reaches_stateAfter {ops : List TreeOp} (h : (execAllowed TreeOp.step TreeOp.Fresh {} ops).isSome) :
    Reaches TreeOp.step TreeOp.Fresh {} (stateAfter ops) := by
  obtain ⟨s, hs⟩ := Option.isSome_iff_exists.1 h
  rw [stateAfter, hs]
  exact reaches_of_execAllowed .init hs

private theorem legacy_new : ConversationState.Legacy {} := ⟨by simp, rfl⟩

theorem keepsBranch_oneBranch : (stateAfter oneBranch).events.KeepsBranch ["e1"] "e2" ∧
    (stateAfter oneBranch).events.Bridged ["e1"] "e2" := by
  have hkeeps : (stateAfter oneBranch).events.KeepsBranch ["e1"] "e2" :=
    ⟨(stateAfter oneBranch).events.events, (stateAfter oneBranch).events.events.filter (·.id ≠ "e1"), by decide +kernel,
      by decide +kernel, by decide +kernel, by decide +kernel⟩
  exact ⟨hkeeps, (keepsBranch_of_reaches legacy_new (reaches_stateAfter (by decide +kernel)) (by decide +kernel)
    (by decide +kernel)).2.1 hkeeps⟩

/-- The walk goes over to the other branch. -/
theorem path_crosses_branches : ¬ ∀ (s : ConversationState), Reaches TreeOp.step TreeOp.Fresh {} s →
    ∀ (lost : List EventID) (leaf : EventID), leaf ∈ s.events.ids → leaf ∉ lost → s.events.KeepsBranch lost leaf := by
  intro h
  obtain ⟨before, after, hb, ha, -, rfl⟩ := h (stateAfter twoBranches) (reaches_stateAfter (by decide +kernel)) ["e1"] "e3"
    (by decide +kernel) (by decide +kernel)
  have hpath : ((stateAfter twoBranches).events.without ["e1"]).pathToRoot (some "e3") =
      .ok ((stateAfter twoBranches).events.events.filter (·.id ≠ "e1")) := by
    decide +kernel
  have hbranch : (stateAfter twoBranches).events.pathToRoot (some "e3") =
      .ok ((stateAfter twoBranches).events.events.filter (·.id ≠ "e2")) := by
    decide +kernel
  rw [hbranch] at hb
  cases hb
  rw [hpath] at ha
  have hids := congrArg (List.map Event.id) (Except.ok.inj ha)
  revert hids
  decide +kernel

end ConversationState

end AgentSdk
