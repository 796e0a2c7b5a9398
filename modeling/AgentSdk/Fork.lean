import AgentSdk.Lib.Result
import AgentSdk.Lib.Runs
import AgentSdk.Session
/-!
# Forking a conversation

`LocalConversation.fork` copies the log, or one branch of it, into a new
conversation. The logs it meets are those of the conversation tree: legacy
events without parents, branches made by navigation, event files that were
lost, and a system prompt that `init_state` created again at the end.
-/

namespace AgentSdk
open Lib

/-! ## Copying -/

/-- `_copy_event_for_fork`: a copy whose parent was lost hangs off the event
that the source's own walk bridges to. -/
def copyEventForFork (source : EventLog) (e : Event) : Event :=
  match e.parentId with
  | none => e
  | some p =>
    if p = rootParentId ∨ p ∈ source.ids then e
    else { e with parentId := source.effectiveParentId ((source.getIndex e.id).getD 0) e }

def copyEvents (source : EventLog) : EventLog → List Event → Except ValueError EventLog
  | log, [] => .ok log
  | log, e :: es => log.append (copyEventForFork source e) >>= fun log => copyEvents source log es

namespace ConversationState

/-- The copied log under the HEAD of the source, or under the branch point. -/
def forked (s : ConversationState) (fromEventId : Option EventID) (log : EventLog) : ConversationState where
  events := log
  leafEventId := fromEventId <|> s.leafEventId
  headIsEmpty := if fromEventId = none then s.headIsEmpty else false

/-- One branch, root first, or the whole log. -/
def sourceEvents (s : ConversationState) : Option EventID → Except ValueError (List Event)
  | some id => s.events.pathToRoot (some id)
  | none => .ok s.events.events

/-- `fork`: the source, which is only read, and the new conversation. -/
def fork (s : ConversationState) (fromEventId : Option EventID) :
    Except ValueError (ConversationState × ConversationState) :=
  match fromEventId.filter (· ∉ s.events.ids) with
  | some unknown => .error (.unknownEvent unknown)
  | none => do
    let sourceEvents ← s.sourceEvents fromEventId
    let log ← copyEvents s.events {} sourceEvents
    let fork ← (s.forked fromEventId log).rebuildView
    return (s, fork)

end ConversationState

/-! ## The logs of a conversation -/

def Event.isSystemPrompt (e : Event) : Bool :=
  match e.body with
  | .systemPrompt _ _ => true
  | _ => false

def initStatePrefixScanWindow : Nat := 3

inductive InitError where
  | assertion
  | value (e : ValueError)
deriving DecidableEq

/-- What the first event says about a prompt that is not in the prefix: it is
in the log all the same, it was lost, or there never was one. -/
inductive PromptLookup where
  | present
  | lost (id : EventID) (notRoot : id ≠ rootParentId)
  | absent

namespace ConversationState

def withHead (s : ConversationState) (leaf : Option EventID) (headIsEmpty : Bool) : ConversationState :=
  { s with leafEventId := leaf, headIsEmpty }

def lookupPrompt (s : ConversationState) : PromptLookup :=
  match s.events.events.head?.bind Event.parentId with
  | none => .absent
  | some p =>
    if (s.events.events.find? (·.id = p)).any Event.isSystemPrompt then .present
    else if h : p ∉ s.events.ids ∧ p ≠ rootParentId then .lost p h.2
    else .absent

/-- The re-created prompt is an explicit root, and HEAD stays where it was. -/
def restorePrompt (s : ConversationState) (id : EventID) (notRoot : id ≠ rootParentId) (prompt : EventBody) :
    Except ValueError ConversationState := do
  let head := s.resolveActiveLeaf.filter (· ∈ s.events.ids)
  let t ← s.appendEvent { id, parentId := some rootParentId, body := prompt, notRoot }
  (t.withHead head s.headIsEmpty).rebuildView

/-- `Agent.init_state`. -/
def initState (s : ConversationState) (new : NewId) (systemPrompt : String) (dynamicContext : Option String) :
    Except InitError ConversationState :=
  let prefixEvents := s.events.events.take initStatePrefixScanWindow
  let prompt := EventBody.systemPrompt systemPrompt dynamicContext
  if prefixEvents.any Event.isSystemPrompt then .ok s
  else if prefixEvents.any Event.isUserMessage then
    match s.lookupPrompt with
    | .present => .ok s
    | .lost id notRoot => (s.restorePrompt id notRoot prompt).mapError .value
    | .absent => .error .assertion
  else (s.appendEvent (new.event prompt)).mapError .value

end ConversationState

/-- The log without the events whose files were lost. -/
def EventLog.without (log : EventLog) (lost : List EventID) : EventLog where
  events := log.events.filter (·.id ∉ lost)
  idsNodup := log.idsNodup.sublist (List.filter_sublist.map _)

/-- What happens to the tree of a conversation. A restart finds whatever HEAD
was stored and the events whose files are still there. -/
inductive TreeOp where
  | append (e : Event)
  | navigate (id : Option EventID)
  | restart (lost : List EventID) (leaf : Option EventID) (headIsEmpty : Bool)
  | initState (new : NewId) (systemPrompt : String) (dynamicContext : Option String)

namespace TreeOp

def step (s : ConversationState) : TreeOp → Option ConversationState
  | append e => (s.appendEvent e).toOption
  | navigate id => (s.navigateTo id).toOption
  | restart lost leaf headIsEmpty =>
    (ConversationState.resume (s.withHead leaf headIsEmpty) (s.events.without lost)).toOption
  | initState new systemPrompt dynamicContext => (s.initState new systemPrompt dynamicContext).toOption

/-- Generated ids are new: no event of the log names one as its parent. -/
def Fresh (s : ConversationState) : TreeOp → Prop
  | append e => ∀ x ∈ s.events.events, x.parentId ≠ some e.id
  | initState new _ _ => ∀ x ∈ s.events.events, x.parentId ≠ some new.id
  | _ => True

instance Fresh.decidable (s : ConversationState) : (op : TreeOp) → Decidable (Fresh s op)
  | append e => inferInstanceAs (Decidable (∀ x ∈ s.events.events, x.parentId ≠ some e.id))
  | initState new _ _ => inferInstanceAs (Decidable (∀ x ∈ s.events.events, x.parentId ≠ some new.id))
  | navigate _ | restart _ _ _ => inferInstanceAs (Decidable True)

end TreeOp

/-- A conversation from before the tree, or an empty one. -/
structure ConversationState.Legacy (s : ConversationState) : Prop where
  parents : ∀ e ∈ s.events.events, e.parentId = none
  leaf : s.leafEventId = none

/-! ## Every event heads a branch -/

/-- An event whose child stands before it in the log is an explicit root, and
no event is its own parent. -/
structure EventLog.Rooted (log : EventLog) : Prop where
  behind : log.events.Pairwise fun e f => e.parentId = some f.id → f.parentId = some rootParentId
  noLoop : ∀ e ∈ log.events, e.parentId ≠ some e.id

namespace EventLog
variable {log log' : EventLog} {e : Event}

/-- An effective parent is named by the event, or is its neighbour. -/
theorem effectiveParentId_cases {i : Nat} {p : EventID} (h : log.effectiveParentId i e = some p) :
    e.parentId = some p ∧ p ∈ log.ids ∨ i ≠ 0 ∧ log.getId (i - 1) = some p := by
  unfold EventLog.effectiveParentId at h
  split at h
  · cases h
  · split at h
    · rename_i q hq
      cases h
      rw [Option.filter_eq_some_iff] at hq
      exact .inl ⟨hq.1, of_decide_eq_true hq.2⟩
    · split at h
      · cases h
      · exact .inr ⟨‹_›, h⟩

/-- The effective parent is an earlier event or an explicit root. -/
theorem Rooted.effectiveParentId (hr : log.Rooted) {i : Nat} (hi : log.events[i]? = some e) {p : EventID}
    (hp : log.effectiveParentId i e = some p) :
    ∃ j f, log.events[j]? = some f ∧ f.id = p ∧ (j < i ∨ f.parentId = some rootParentId) := by
  rcases effectiveParentId_cases hp with ⟨hpar, hmem⟩ | ⟨hpos, hprev⟩
  · obtain ⟨f, hf, rfl⟩ := mem_ids.1 hmem
    obtain ⟨j, hj⟩ := List.getElem?_of_mem hf
    refine ⟨j, f, hj, rfl, ?_⟩
    rcases Nat.lt_trichotomy j i with hlt | rfl | hgt
    · exact .inl hlt
    · rw [hi] at hj
      cases hj
      exact absurd hpar (hr.noLoop e hf)
    · obtain ⟨hilt, rfl⟩ := List.getElem?_eq_some_iff.1 hi
      obtain ⟨hjlt, rfl⟩ := List.getElem?_eq_some_iff.1 hj
      exact .inr (List.pairwise_iff_getElem.1 hr.behind i j hilt hjlt hgt hpar)
  · obtain ⟨f, hf, rfl⟩ := exists_of_getId hprev
    exact ⟨i - 1, f, hf, rfl, .inl (by omega)⟩

/-- Explicit roots rank lowest, other events by their place. -/
def rank (log : EventLog) (id : EventID) : Nat :=
  match log.next id with
  | some (_, none) | none => 0
  | some (_, some _) => (log.getIndex id).getD 0 + 1

theorem effectiveParentId_root {i : Nat} (h : e.parentId = some rootParentId) : log.effectiveParentId i e = none := by
  rw [EventLog.effectiveParentId, if_pos h]

theorem Rooted.exists_branch (hr : log.Rooted) {id : EventID} (h : id ∈ log.ids) : ∃ l, log.Branch (some id) l := by
  refine Trail.exists_of_rank log.rank ?_ id (next_isSome.2 h)
  intro v b p hn
  obtain ⟨i, hi, hid, hp⟩ := next_eq_some.1 hn
  obtain ⟨j, f, hj, rfl, hlt⟩ := hr.effectiveParentId hi hp.symm
  have hnf : log.next f.id = some (f, log.effectiveParentId j f) := next_eq_some.2 ⟨j, hj, rfl, rfl⟩
  have hvi : log.getIndex v = some i := getIndex_eq_some.2 ⟨b, hi, hid⟩
  have hfj : log.getIndex f.id = some j := getIndex_eq_some.2 ⟨f, hj, rfl⟩
  refine ⟨?_, next_isSome.2 (mem_ids.2 ⟨f, List.mem_of_getElem? hj, rfl⟩)⟩
  have hv : log.rank v = i + 1 := by
    rw [rank, hn]
    simp [hvi]
  rw [hv, rank, hnf]
  rcases hlt with hlt | hroot
  · cases log.effectiveParentId j f with
    | none => exact Nat.succ_pos i
    | some q =>
      simp only [hfj, Option.getD_some]
      omega
  · rw [effectiveParentId_root hroot]
    exact Nat.succ_pos i

theorem Rooted.append (hr : log.Rooted) (h : log.append e = .ok log')
    (hfresh : e.parentId = some rootParentId ∨ ∀ x ∈ log.events, x.parentId ≠ some e.id) : log'.Rooted := by
  obtain ⟨hid, hev, hpar⟩ := append_ok h
  constructor
  · rw [hev, List.pairwise_append]
    refine ⟨hr.behind, List.pairwise_singleton _ _, fun x hx f hf hp => ?_⟩
    rw [List.mem_singleton] at hf
    subst hf
    rcases hfresh with hroot | hfresh
    · exact hroot
    · exact absurd hp (hfresh x hx)
  · rw [hev, List.forall_mem_append, List.forall_mem_singleton]
    refine ⟨hr.noLoop, fun hp => ?_⟩
    rcases hpar _ hp with hroot | hmem
    · exact e.notRoot hroot
    · exact hid hmem

theorem Rooted.without (hr : log.Rooted) (lost : List EventID) : (log.without lost).Rooted :=
  ⟨hr.behind.sublist List.filter_sublist, fun e he => hr.noLoop e (List.mem_of_mem_filter he)⟩

theorem rooted_of_legacy (h : ∀ e ∈ log.events, e.parentId = none) : log.Rooted := by
  constructor
  · refine List.Pairwise.imp_of_mem (R := fun _ _ => True) ?_ (List.pairwise_of_forall fun _ _ => trivial)
    intro e f he _ _ hp
    rw [h e he] at hp
    cases hp
  · intro e he hp
    rw [h e he] at hp
    cases hp

end EventLog

namespace ConversationState

/-- What holds of the tree in every reachable state. -/
structure Navigable (s : ConversationState) : Prop where
  log : s.events.Rooted
  leaf : ∀ id, s.leafEventId = some id → id ∈ s.events.ids

section Steps
variable {s t : ConversationState}

theorem rebuildView_tree (h : s.rebuildView = .ok t) :
    t.events = s.events ∧ t.leafEventId = s.leafEventId ∧ t.headIsEmpty = s.headIsEmpty := by
  obtain ⟨l, -, h⟩ := bind_ok h
  cases h
  exact ⟨rfl, rfl, rfl⟩

theorem Navigable.rebuildView (hs : s.Navigable) (h : s.rebuildView = .ok t) : t.Navigable := by
  obtain ⟨hev, hleaf, -⟩ := rebuildView_tree h
  exact ⟨hev ▸ hs.log, fun id hid => hev ▸ hs.leaf id (hleaf ▸ hid)⟩

theorem Navigable.resolve_mem (hs : s.Navigable) {id : EventID} (h : s.resolveActiveLeaf = some id) :
    id ∈ s.events.ids := by
  unfold resolveActiveLeaf at h
  split at h
  · cases h
    exact hs.leaf _ ‹_›
  · split at h
    · cases h
    · exact lastRealEvent_mem h

theorem Navigable.exists_branch (hs : s.Navigable) : ∃ l, s.events.Branch s.resolveActiveLeaf l := by
  cases h : s.resolveActiveLeaf with
  | none => exact ⟨[], .root⟩
  | some id => exact hs.log.exists_branch (hs.resolve_mem h)

theorem Navigable.withHead {leaf : Option EventID} {headIsEmpty : Bool} (hlog : s.events.Rooted)
    (h : ∀ id, leaf = some id → id ∈ s.events.ids) : (s.withHead leaf headIsEmpty).Navigable := ⟨hlog, h⟩

theorem stampParentId_root {e : Event} (h : e.parentId = some rootParentId) : s.stampParentId e = e := by
  rw [stampParentId, h]

theorem Navigable.appendEvent {e : Event} (hs : s.Navigable) (h : s.appendEvent e = .ok t)
    (hfresh : e.parentId = some rootParentId ∨ ∀ x ∈ s.events.events, x.parentId ≠ some e.id) : t.Navigable := by
  obtain ⟨log, hl, rfl⟩ := appendEvent_ok h
  have hrooted : log.Rooted := by
    refine hs.log.append hl (hfresh.imp (fun hroot => ?_) fun hx => ?_)
    · rw [stampParentId_root hroot, hroot]
    · rwa [stampParentId_id]
  have hids := EventLog.ids_append hl
  split
  · exact ⟨hrooted, fun id hid => hids ▸ List.mem_append_left _ (hs.leaf id hid)⟩
  · refine ⟨hrooted, fun id hid => ?_⟩
    cases hid
    simp [hids]

theorem Navigable.navigateTo {id : Option EventID} (hs : s.Navigable) (h : s.navigateTo id = .ok t) : t.Navigable := by
  unfold ConversationState.navigateTo at h
  split at h
  · cases h
  · rename_i hf
    have hin : ∀ x, id = some x → x ∈ s.events.ids := by
      intro x hx
      rw [Option.filter_eq_none_iff] at hf
      simpa using hf x hx
    exact (Navigable.withHead hs.log hin).rebuildView h

theorem Navigable.repair (hlog : s.events.Rooted) : s.repairMissingLeaf.Navigable := by
  unfold repairMissingLeaf
  split
  · rename_i hnone
    exact ⟨hlog, fun id hid => by rw [hnone] at hid; cases hid⟩
  · rename_i lost hlost
    split
    · refine ⟨hlog, fun id hid => ?_⟩
      rw [hlost] at hid
      cases hid
      assumption
    · refine ⟨hlog, fun id hid => ?_⟩
      have hnone : (s.withHead none s.headIsEmpty).Navigable := Navigable.withHead hlog fun _ h => nomatch h
      exact hnone.resolve_mem hid

theorem Navigable.resume {base : ConversationState} {log : EventLog} (hlog : log.Rooted)
    (h : ConversationState.resume base log = .ok t) : t.Navigable :=
  (Navigable.repair (s := base.withLog log) hlog).rebuildView h

theorem Navigable.restorePrompt {id : EventID} {notRoot : id ≠ rootParentId} {prompt : EventBody} (hs : s.Navigable)
    (h : s.restorePrompt id notRoot prompt = .ok t) : t.Navigable := by
  obtain ⟨u, hu, h⟩ := bind_ok h
  have hn := hs.appendEvent hu (.inl rfl)
  refine (Navigable.withHead hn.log fun x hx => ?_).rebuildView h
  have hmem : x ∈ s.events.ids := of_decide_eq_true (Option.filter_eq_some_iff.1 hx).2
  obtain ⟨log, hl, rfl⟩ := appendEvent_ok hu
  split <;> exact EventLog.ids_append hl ▸ List.mem_append_left _ hmem

theorem Navigable.initState {new : NewId} {systemPrompt : String} {dynamicContext : Option String} (hs : s.Navigable)
    (hfresh : ∀ x ∈ s.events.events, x.parentId ≠ some new.id)
    (h : s.initState new systemPrompt dynamicContext = .ok t) : t.Navigable := by
  unfold ConversationState.initState at h
  dsimp only at h
  split at h
  · cases h
    exact hs
  · split at h
    · split at h
      · cases h
        exact hs
      · exact hs.restorePrompt (mapError_ok h)
      · cases h
    · exact hs.appendEvent (mapError_ok h) (.inr hfresh)

end Steps

/-- The invariant of the tree. -/
theorem navigable_of_reaches {init s : ConversationState} (hinit : init.Legacy)
    (h : Reaches TreeOp.step TreeOp.Fresh init s) : s.Navigable := by
  have h0 : init.Navigable := by
    refine ⟨EventLog.rooted_of_legacy hinit.parents, fun id hid => ?_⟩
    rw [hinit.leaf] at hid
    cases hid
  refine h.invariant h0 ?_
  intro s op t hs hop hstep
  cases op with
  | append e => exact hs.appendEvent (toOption_eq_some hstep) (.inr hop)
  | navigate id => exact hs.navigateTo (toOption_eq_some hstep)
  | restart lost leaf headIsEmpty => exact Navigable.resume (hs.log.without lost) (toOption_eq_some hstep)
  | initState new systemPrompt dynamicContext => exact hs.initState hop (toOption_eq_some hstep)

end ConversationState

/-! ## What the copies are -/

section Copies
variable {source : EventLog} {e : Event}

@[simp] theorem copyEventForFork_id : (copyEventForFork source e).id = e.id := by
  unfold copyEventForFork
  split
  · rfl
  · split <;> rfl

@[simp] theorem copyEventForFork_body : (copyEventForFork source e).body = e.body := by
  unfold copyEventForFork
  split
  · rfl
  · split <;> rfl

theorem map_id_copies (es : List Event) : (es.map (copyEventForFork source)).map Event.id = es.map Event.id := by
  rw [List.map_map]
  exact List.map_congr_left fun e _ => copyEventForFork_id

/-- A copy names its effective parent, or none where the source's event does
not either, or is an explicit root. -/
theorem copyEventForFork_parentId {i : Nat} (hi : source.events[i]? = some e) :
    (e.parentId = some rootParentId ∧ (copyEventForFork source e).parentId = some rootParentId) ∨
      (e.parentId = none ∧ (copyEventForFork source e).parentId = none) ∨
        (e.parentId ≠ some rootParentId ∧ (copyEventForFork source e).parentId = source.effectiveParentId i e) := by
  cases hp : e.parentId with
  | none => exact .inr (.inl ⟨rfl, by simp [copyEventForFork, hp]⟩)
  | some p =>
    by_cases hroot : p = rootParentId
    · subst hroot
      exact .inl ⟨rfl, by simp [copyEventForFork, hp]⟩
    · refine .inr (.inr ⟨by simpa using hroot, ?_⟩)
      by_cases hmem : p ∈ source.ids
      · have hcopy : (copyEventForFork source e).parentId = some p := by simp [copyEventForFork, hp, hmem]
        rw [hcopy, EventLog.effectiveParentId, hp, if_neg (by simpa using hroot)]
        simp [Option.filter, hmem]
      · have hidx : source.getIndex e.id = some i := EventLog.getIndex_eq_some.2 ⟨e, hi, rfl⟩
        simp [copyEventForFork, hp, hroot, hmem, hidx]

/-- Where the copies stand in a log under the same effective parents. -/
theorem effectiveParentId_copy {fork : EventLog} {i k : Nat} (hi : source.events[i]? = some e)
    (hmem : ∀ p, source.effectiveParentId i e = some p → p ∈ fork.ids)
    (hchain : e.parentId ≠ some rootParentId → source.effectiveParentId i e = none → k = 0)
    (hlegacy : e.parentId = none → source.effectiveParentId i e = if k = 0 then none else fork.getId (k - 1)) :
    fork.effectiveParentId k (copyEventForFork source e) = source.effectiveParentId i e := by
  rcases copyEventForFork_parentId hi with ⟨hp, hc⟩ | ⟨hp, hc⟩ | ⟨hp, hc⟩
  · rw [EventLog.effectiveParentId_root hc, EventLog.effectiveParentId_root hp]
  · rw [hlegacy hp, EventLog.effectiveParentId, hc, if_neg nofun]
    rfl
  · rw [EventLog.effectiveParentId, hc]
    cases hq : source.effectiveParentId i e with
    | none =>
      rw [if_neg nofun, hchain hp hq]
      rfl
    | some q =>
      have hqf := hmem q hq
      have hne : q ≠ rootParentId := fun h => fork.root_not_mem_ids (h ▸ hqf)
      rw [if_neg (by simpa using hne)]
      simp [Option.filter, hqf]

theorem copyEvents_ok {log log' : EventLog} {es : List Event} (h : copyEvents source log es = .ok log') :
    log'.events = log.events ++ es.map (copyEventForFork source) ∧
      ∀ pre e post, es = pre ++ e :: post → ∀ p, (copyEventForFork source e).parentId = some p →
        p = rootParentId ∨ p ∈ log.ids ++ pre.map Event.id := by
  induction es generalizing log with
  | nil =>
    cases h
    refine ⟨by simp, fun pre e post hnil => ?_⟩
    simp at hnil
  | cons x es ih =>
    obtain ⟨log₁, h₁, h⟩ := bind_ok h
    obtain ⟨-, hev, hpar⟩ := EventLog.append_ok h₁
    obtain ⟨hev', hpar'⟩ := ih h
    refine ⟨by rw [hev', hev, List.append_assoc]; rfl, fun pre e post heq p hp => ?_⟩
    cases pre with
    | nil =>
      cases heq
      simpa using hpar p hp
    | cons y pre =>
      obtain ⟨rfl, rfl⟩ := List.cons.inj heq
      have hmem := hpar' pre e post rfl p hp
      rwa [EventLog.ids_append h₁, copyEventForFork_id, List.append_assoc] at hmem

theorem copyEvents_eq {log : EventLog} {es : List Event} (hnd : (log.ids ++ es.map Event.id).Nodup)
    (hpar : ∀ pre e post, es = pre ++ e :: post → ∀ p, (copyEventForFork source e).parentId = some p →
      p = rootParentId ∨ p ∈ log.ids ++ pre.map Event.id) : ∃ log', copyEvents source log es = .ok log' := by
  induction es generalizing log with
  | nil => exact ⟨log, rfl⟩
  | cons x es ih =>
    have hid : (copyEventForFork source x).id ∉ log.ids := by
      rw [copyEventForFork_id]
      intro hmem
      exact (List.nodup_append.1 hnd).2.2 x.id hmem x.id (by simp) rfl
    obtain ⟨log₁, h₁⟩ := EventLog.append_eq hid (by simpa using hpar [] x es rfl)
    have hids := EventLog.ids_append h₁
    rw [copyEventForFork_id] at hids
    obtain ⟨log', hlog'⟩ : ∃ log', copyEvents source log₁ es = .ok log' := by
      refine ih ?_ fun pre e post heq p hp => ?_
      · rw [hids, List.append_assoc]
        exact hnd
      · rw [hids, List.append_assoc]
        exact hpar (x :: pre) e post (by rw [heq]; rfl) p hp
    exact ⟨log', by rw [copyEvents, h₁]; exact hlog'⟩

end Copies

/-! ## The branch of the copies -/

/-- No event stands before its parent. -/
def EventLog.ParentsFirst (log : EventLog) : Prop :=
  log.events.Pairwise fun e f => e.parentId ≠ some f.id

instance EventLog.ParentsFirst.decidable (log : EventLog) : Decidable log.ParentsFirst :=
  inferInstanceAs (Decidable (log.events.Pairwise fun e f => e.parentId ≠ some f.id))

section Branches
variable {source fork : EventLog}

/-- On a branch the effective parent is the event before. -/
theorem EventLog.Branch.parent {leaf : Option EventID} {pre post : List Event} {e : Event}
    (hb : source.Branch leaf (pre ++ e :: post)) :
    ∃ i, source.events[i]? = some e ∧ (pre = [] ∧ source.effectiveParentId i e = none ∨
      ∃ pre' f, pre = pre' ++ [f] ∧ source.effectiveParentId i e = some f.id) := by
  obtain ⟨v, p, hn, ht⟩ := Trail.split hb
  obtain ⟨i, hi, -, rfl⟩ := EventLog.next_eq_some.1 hn
  refine ⟨i, hi, ?_⟩
  cases hp : source.effectiveParentId i e with
  | none =>
    rw [hp, Trail.none_iff] at ht
    exact .inl ⟨ht, rfl⟩
  | some w =>
    rw [hp, Trail.some_iff] at ht
    obtain ⟨f, q, pre', hf, -, rfl⟩ := ht
    refine .inr ⟨pre', f, rfl, ?_⟩
    rw [EventLog.next_key w f q hf]

theorem EventLog.Branch.ids_nodup {leaf : Option EventID} {path : List Event} (hb : source.Branch leaf path) :
    (path.map Event.id).Nodup := Trail.nodup EventLog.next_key hb

/-- A branch alone can always be copied. -/
theorem copyEvents_branch {leaf : Option EventID} {path : List Event} (hb : source.Branch leaf path) :
    ∃ fork, copyEvents source {} path = .ok fork := by
  refine copyEvents_eq (by simpa [EventLog.ids] using hb.ids_nodup) ?_
  rintro pre e post rfl p hp
  obtain ⟨i, hi, hpar⟩ := hb.parent
  rcases copyEventForFork_parentId hi with ⟨-, hc⟩ | ⟨-, hc⟩ | ⟨-, hc⟩
  · rw [hc] at hp
    cases hp
    exact .inl rfl
  · rw [hc] at hp
    cases hp
  · rw [hc] at hp
    obtain ⟨-, hnone⟩ | ⟨pre', f, rfl, hsome⟩ := hpar
    · rw [hnone] at hp
      cases hp
    · rw [hsome] at hp
      cases hp
      exact .inr (by simp)

theorem ids_copyEvents {es : List Event} (h : copyEvents source {} es = .ok fork) : fork.ids = es.map Event.id := by
  rw [EventLog.ids, (copyEvents_ok h).1]
  exact map_id_copies es

theorem branch_copyEvents_branch {leaf : Option EventID} {path : List Event} (hb : source.Branch leaf path)
    (h : copyEvents source {} path = .ok fork) : fork.Branch leaf (path.map (copyEventForFork source)) := by
  have hev : fork.events = path.map (copyEventForFork source) := by simpa using (copyEvents_ok h).1
  have hids := ids_copyEvents h
  refine Trail.map hb fun v e p hmem hn => ?_
  obtain ⟨pre, post, rfl⟩ := List.append_of_mem hmem
  obtain ⟨i, hi, hpar⟩ := hb.parent
  obtain ⟨i', hi', hid, rfl⟩ := EventLog.next_eq_some.1 hn
  have hii : i' = i := by
    have h₁ := EventLog.getIndex_eq_some.2 ⟨e, hi', rfl⟩
    rw [EventLog.getIndex_eq_some.2 ⟨e, hi, rfl⟩] at h₁
    exact (Option.some.inj h₁).symm
  subst hii
  refine EventLog.next_eq_some.2 ⟨pre.length, by simp [hev], by simpa using hid, (effectiveParentId_copy hi ?_ ?_ ?_).symm⟩
  · intro p hp
    obtain ⟨-, hnone⟩ | ⟨pre', f, rfl, hsome⟩ := hpar
    · rw [hnone] at hp
      cases hp
    · rw [hsome] at hp
      cases hp
      simp [hids]
  · intro _ hnone
    obtain ⟨rfl, -⟩ | ⟨pre', f, rfl, hsome⟩ := hpar
    · rfl
    · rw [hsome] at hnone
      cases hnone
  · intro _
    obtain ⟨rfl, hnone⟩ | ⟨pre', f, rfl, hsome⟩ := hpar
    · rw [hnone]
      rfl
    · rw [hsome, if_neg (by simp), EventLog.getId, hids]
      simp

/-- A log whose parents come first can be copied whole. -/
theorem copyEvents_all (hr : source.Rooted) (hp : source.ParentsFirst) :
    ∃ fork, copyEvents source {} source.events = .ok fork := by
  refine copyEvents_eq (by simpa [EventLog.ids] using source.idsNodup) ?_
  intro pre e post heq p hpar
  have hi : source.events[pre.length]? = some e := by simp [heq]
  rcases copyEventForFork_parentId hi with ⟨-, hc⟩ | ⟨-, hc⟩ | ⟨-, hc⟩
  · rw [hc] at hpar
    cases hpar
    exact .inl rfl
  · rw [hc] at hpar
    cases hpar
  · rw [hc] at hpar
    refine .inr (List.mem_append_right _ ?_)
    rcases EventLog.effectiveParentId_cases hpar with ⟨hep, hmem⟩ | ⟨hpos, hprev⟩
    · obtain ⟨f, hf, rfl⟩ := EventLog.mem_ids.1 hmem
      rw [EventLog.ParentsFirst, heq, List.pairwise_append, List.pairwise_cons] at hp
      rw [heq, List.mem_append, List.mem_cons] at hf
      rcases hf with hf | rfl | hf
      · exact List.mem_map_of_mem hf
      · exact absurd hep (hr.noLoop _ (by simp [heq]))
      · exact absurd hep (hp.2.1.1 f hf)
    · obtain ⟨f, hf, rfl⟩ := EventLog.exists_of_getId hprev
      rw [heq, List.getElem?_append_left (by omega)] at hf
      exact List.mem_map_of_mem (List.mem_of_getElem? hf)

/-- Copying a whole log succeeds only then. -/
theorem parentsFirst_of_copyEvents (h : copyEvents source {} source.events = .ok fork) : source.ParentsFirst := by
  rw [EventLog.ParentsFirst, List.pairwise_iff_getElem]
  intro i j hi hj hij hpar
  have hfi : source.events[i]? = some source.events[i] := List.getElem?_eq_getElem hi
  have hcopy : copyEventForFork source source.events[i] = source.events[i] := by
    have hmem : source.events[j].id ∈ source.ids := EventLog.mem_ids.2 ⟨_, List.getElem_mem hj, rfl⟩
    simp [copyEventForFork, hpar, hmem]
  have hsplit : source.events = source.events.take i ++ source.events[i] :: source.events.drop (i + 1) := by
    rw [← List.drop_eq_getElem_cons hi, List.take_append_drop]
  rcases (copyEvents_ok h).2 _ _ _ hsplit source.events[j].id (by rw [hcopy, hpar]) with hroot | hmem
  · exact source.events[j].notRoot hroot
  · have hearlier : source.events[j].id ∈ (source.events.take i).map Event.id := by simpa [EventLog.ids] using hmem
    obtain ⟨f, hf, hid⟩ := List.mem_map.1 hearlier
    obtain ⟨k, hk⟩ := List.getElem?_of_mem hf
    rw [List.getElem?_take] at hk
    split at hk
    · rename_i hki
      have h₁ := EventLog.getIndex_eq_some.2 ⟨f, hk, hid⟩
      have h₂ := EventLog.getIndex_eq_some.2 ⟨source.events[j], List.getElem?_eq_getElem hj, rfl⟩
      rw [h₁] at h₂
      have hkj := Option.some.inj h₂
      omega
    · cases hk

theorem branch_copyEvents_all {leaf : Option EventID} {path : List Event} (hb : source.Branch leaf path)
    (h : copyEvents source {} source.events = .ok fork) : fork.Branch leaf (path.map (copyEventForFork source)) := by
  have hev : fork.events = source.events.map (copyEventForFork source) := by simpa using (copyEvents_ok h).1
  have hids : fork.ids = source.ids := ids_copyEvents h
  refine Trail.map hb fun v e p hmem hn => ?_
  obtain ⟨i, hi, hid, rfl⟩ := EventLog.next_eq_some.1 hn
  refine EventLog.next_eq_some.2 ⟨i, by simp [hev, hi], by simpa using hid, (effectiveParentId_copy hi ?_ ?_ ?_).symm⟩
  · intro p hp
    rw [hids]
    rcases EventLog.effectiveParentId_cases hp with ⟨-, hmem⟩ | ⟨-, hprev⟩
    · exact hmem
    · exact EventLog.getId_mem hprev
  · intro hroot hnone
    rw [EventLog.effectiveParentId, if_neg hroot] at hnone
    split at hnone
    · cases hnone
    · split at hnone
      · assumption
      · have hilt := (List.getElem?_eq_some_iff.1 hi).1
        rw [EventLog.getId, List.getElem?_eq_none_iff, EventLog.ids, List.length_map] at hnone
        omega
  · intro hnone
    rw [EventLog.effectiveParentId, hnone, if_neg (fun h => by cases h), EventLog.getId, EventLog.getId, hids]
    rfl

end Branches

/-! ## Fidelity -/

namespace ConversationState
variable {s t : ConversationState} {fromEventId : Option EventID}

/-- The fork succeeds, its active branch is the source's path to the event,
id by id, and the source is as it was. -/
def ForkFaithful (s : ConversationState) (fromEventId : Option EventID) : Prop :=
  ∃ t branch path, s.fork fromEventId = .ok (s, t) ∧ t.activeBranch = .ok branch ∧
    s.events.pathToRoot (fromEventId <|> s.resolveActiveLeaf) = .ok path ∧ branch.map Event.id = path.map Event.id

theorem rebuildView_of_branch {l : List Event} (hb : s.events.Branch s.resolveActiveLeaf l) :
    ∃ t, s.rebuildView = .ok t ∧ t.events = s.events ∧ t.resolveActiveLeaf = s.resolveActiveLeaf := by
  refine ⟨{ s with cachedView := View.fromEvents l, viewBranchLeaf := s.resolveActiveLeaf }, ?_, rfl, rfl⟩
  unfold rebuildView
  dsimp only
  rw [hb.pathToRoot]
  rfl

theorem lastRealEvent_copyEvents {source fork : EventLog} (h : copyEvents source {} source.events = .ok fork) :
    lastRealEvent fork = lastRealEvent source := by
  have hart : ∀ e, (copyEventForFork source e).isArtifact = e.isArtifact := fun e => by
    simp only [Event.isArtifact, copyEventForFork_body]
  have hfun : ((fun e => !Event.isArtifact e) ∘ copyEventForFork source) = fun e => !Event.isArtifact e := by
    funext e
    simp [hart]
  have hev : fork.events = source.events.map (copyEventForFork source) := by simpa using (copyEvents_ok h).1
  simp only [lastRealEvent, hev, ← List.map_reverse, List.find?_map, hfun, Option.map_map]
  congr 1
  funext e
  exact copyEventForFork_id

/-- A fork whose copies keep the branch of its HEAD is faithful. -/
theorem forkFaithful_of_branch {fork : EventLog} {sourceEvents path : List Event}
    (hin : ∀ id, fromEventId = some id → id ∈ s.events.ids)
    (hsource : s.sourceEvents fromEventId = .ok sourceEvents)
    (hcopy : copyEvents s.events {} sourceEvents = .ok fork)
    (hpath : s.events.Branch (fromEventId <|> s.resolveActiveLeaf) path)
    (hleaf : (s.forked fromEventId fork).resolveActiveLeaf = (fromEventId <|> s.resolveActiveLeaf))
    (hb : fork.Branch (fromEventId <|> s.resolveActiveLeaf) (path.map (copyEventForFork s.events))) :
    s.ForkFaithful fromEventId := by
  obtain ⟨t, ht, hev, hres⟩ := rebuildView_of_branch (s := s.forked fromEventId fork) (hleaf ▸ hb)
  have hknown : fromEventId.filter (· ∉ s.events.ids) = none := by
    rw [Option.filter_eq_none_iff]
    intro id hid
    simpa using hin id hid
  refine ⟨t, path.map (copyEventForFork s.events), path, ?_, activeBranch_eq ?_, hpath.pathToRoot, map_id_copies path⟩
  · unfold ConversationState.fork
    rw [hknown]
    dsimp only
    rw [hsource]
    dsimp only [bind, Except.bind]
    rw [hcopy]
    dsimp only
    rw [ht]
    rfl
  · rw [hev, hres, hleaf]
    exact hb

/-- A slice is faithful; a full fork is exactly when no event of the log stands
before its parent. -/
theorem Navigable.forkFaithful_iff (hs : s.Navigable) (hin : ∀ id, fromEventId = some id → id ∈ s.events.ids) :
    s.ForkFaithful fromEventId ↔ (fromEventId = none → s.events.ParentsFirst) := by
  cases fromEventId with
  | some id =>
    refine ⟨fun _ => nofun, fun _ => ?_⟩
    obtain ⟨path, hpath⟩ := hs.log.exists_branch (hin id rfl)
    obtain ⟨fork, hfork⟩ := copyEvents_branch hpath
    exact forkFaithful_of_branch hin hpath.pathToRoot hfork hpath rfl (branch_copyEvents_branch hpath hfork)
  | none =>
    constructor
    · rintro ⟨t, branch, path, hfork, -⟩ -
      unfold ConversationState.fork at hfork
      obtain ⟨es, hes, hfork⟩ := bind_ok hfork
      cases hes
      obtain ⟨fork, hcopy, -⟩ := bind_ok hfork
      exact parentsFirst_of_copyEvents hcopy
    · intro h
      obtain ⟨path, hpath⟩ := hs.exists_branch
      obtain ⟨fork, hfork⟩ := copyEvents_all hs.log (h rfl)
      refine forkFaithful_of_branch hin rfl hfork hpath ?_ (branch_copyEvents_all hpath hfork)
      have hlast := lastRealEvent_copyEvents hfork
      simp [forked, resolveActiveLeaf, hlast]

/-- Forks of a conversation after any history of its tree. -/
theorem forkFaithful_of_reaches {init : ConversationState} (hinit : init.Legacy)
    (hs : Reaches TreeOp.step TreeOp.Fresh init s) {branch : List Event} (hbranch : s.activeBranch = .ok branch)
    (hfrom : ∀ id, fromEventId = some id → id ∈ branch.map Event.id) :
    s.ForkFaithful fromEventId ↔ (fromEventId = none → s.events.ParentsFirst) := by
  have hnav := navigable_of_reaches hinit hs
  refine hnav.forkFaithful_iff fun id hid => ?_
  obtain ⟨l, hl⟩ := hnav.exists_branch
  rw [activeBranch_eq hl] at hbranch
  cases hbranch
  exact List.map_subset _ hl.subset (hfrom id hid)

/-! ## Two histories -/

private def said (id : EventID) (h : id ≠ rootParentId := by exact ne_rootParentId trivial) : Event :=
  { id, notRoot := h, body := .message (.ofUser [id]) }

/-- The second of three messages is lost, and the conversation goes on beside the third. -/
private def branched : List TreeOp :=
  [.append (said "e0"), .append (said "e1"), .append (said "e2"), .restart ["e1"] (some "e2") false,
    .navigate (some "e0"), .append (said "e3")]

/-- The prompt is lost and created again behind the message. -/
private def restored : List TreeOp :=
  [.initState { id := "sys" } "You are an agent." none, .append (said "e1"), .restart ["sys"] (some "e1") false,
    .initState { id := "new" } "You are an agent." none]

private def after (ops : List TreeOp) : ConversationState := (execAllowed TreeOp.step TreeOp.Fresh {} ops).getD {}

private theorem reaches_after {ops : List TreeOp}
    (h : (execAllowed TreeOp.step TreeOp.Fresh {} ops).isSome) : Reaches TreeOp.step TreeOp.Fresh {} (after ops) := by
  obtain ⟨s, hs⟩ := Option.isSome_iff_exists.1 h
  rw [after, hs]
  exact reaches_of_execAllowed .init hs

private theorem legacy_empty : ConversationState.Legacy {} := ⟨by simp, rfl⟩

theorem forkFaithful_branched : (after branched).ForkFaithful none ∧ (after branched).ForkFaithful (some "e0") := by
  have hs : Reaches TreeOp.step TreeOp.Fresh {} (after branched) := reaches_after (by decide +kernel)
  have hbranch : ∃ branch, (after branched).activeBranch = .ok branch ∧ branch.map Event.id = ["e0", "e3"] :=
    ⟨_, (show (after branched).activeBranch = .ok ((after branched).events.events.filter (·.id ≠ "e2")) from
      by decide +kernel), by decide +kernel⟩
  obtain ⟨branch, hb, hids⟩ := hbranch
  refine ⟨(forkFaithful_of_reaches legacy_empty hs hb fun id h => by cases h).2 fun _ => by decide +kernel,
    (forkFaithful_of_reaches legacy_empty hs hb fun id h => ?_).2 nofun⟩
  cases h
  simp [hids]

/-- The copy of the message is refused, since its parent comes later. -/
theorem fork_restored_fails : Reaches TreeOp.step TreeOp.Fresh {} (after restored) ∧
    (after restored).events.ids = ["e1", "sys"] ∧
    (after restored).activeBranch.toOption.map (List.map Event.id) = some ["sys", "e1"] ∧
    (after restored).fork none = .error (.parentMissing "sys" "e1") :=
  ⟨reaches_after (by decide +kernel), by decide +kernel, by decide +kernel, by decide +kernel⟩

end ConversationState

end AgentSdk
