import AgentSdk.EventLog
import AgentSdk.View
/-!
# Conversation state

`ConversationState`: the event log, the HEAD of the conversation tree, the
fields that the agent loop reads, and the cached view. Every event enters the
log through `append_event`, which stamps its parent and moves HEAD.
-/

namespace AgentSdk
open Lib

inductive ConversationExecutionStatus where
  | idle | running | paused | waitingForConfirmation | finished | error | stuck | deleting
deriving DecidableEq, Repr

/-- `blocked_actions` and `blocked_messages` are dicts from id to reason.
`cachedView` and `viewBranchLeaf` are the private `_view`, `_view_branch_leaf`. -/
structure ConversationState where
  events : EventLog := {}
  leafEventId : Option EventID := none
  headIsEmpty : Bool := false
  executionStatus : ConversationExecutionStatus := .idle
  blockedActions : List (EventID × String) := []
  blockedMessages : List (EventID × String) := []
  lastUserMessageId : Option EventID := none
  cachedView : View := {}
  viewBranchLeaf : Option EventID := none
deriving DecidableEq

namespace ConversationState

/-! ## HEAD -/

/-- The last event that is a tree node. -/
def lastRealEvent (log : EventLog) : Option EventID :=
  (log.events.reverse.find? (!·.isArtifact)).map Event.id

/-- `_resolve_active_leaf`. -/
def resolveActiveLeaf (s : ConversationState) : Option EventID :=
  match s.leafEventId with
  | some leaf => some leaf
  | none => if s.headIsEmpty then none else lastRealEvent s.events

/-- `_repair_missing_leaf`. -/
def repairMissingLeaf (s : ConversationState) : ConversationState :=
  match s.leafEventId with
  | none => s
  | some lost =>
    if lost ∈ s.events.ids then s
    else { s with leafEventId := resolveActiveLeaf { s with leafEventId := none } }

/-- `active_branch` without a limit. -/
def activeBranch (s : ConversationState) : Except ValueError (List Event) :=
  s.events.pathToRoot s.resolveActiveLeaf

/-- `_stamp_parent_id`. -/
def stampParentId (s : ConversationState) (e : Event) : Event :=
  match e.parentId with
  | some _ => e
  | none =>
    let parent := s.resolveActiveLeaf
    -- An empty HEAD over a non-empty log starts a new root on purpose.
    if parent = none ∧ 0 < s.events.events.length then { e with parentId := some rootParentId }
    else { e with parentId := parent }

/-- `append_event`. -/
def appendEvent (s : ConversationState) (e : Event) : Except ValueError ConversationState := do
  let e := s.stampParentId e
  let log ← s.events.append e
  if e.isStateUpdate then return { s with events := log }
  return { s with events := log, leafEventId := some e.id, headIsEmpty := false }

def appendEvents (s : ConversationState) : List Event → Except ValueError ConversationState
  | [] => .ok s
  | e :: es => s.appendEvent e >>= fun s => s.appendEvents es

/-- The state after a run of appends that succeeds. -/
def afterAppends (s : ConversationState) (es : List Event) : ConversationState :=
  match s.appendEvents es with
  | .ok s' => s'
  | .error _ => s

/-! ## The cached view -/

/-- `rebuild_view`. -/
def rebuildView (s : ConversationState) : Except ValueError ConversationState := do
  let leaf := s.resolveActiveLeaf
  let branch ← s.events.pathToRoot leaf
  return { s with cachedView := View.fromEvents branch, viewBranchLeaf := leaf }

/-- The `view` property: what reading it does to the cache, which it returns.
The climb gives `none` where `get_index` raises, and the view is rebuilt. -/
def readView (s : ConversationState) : Except ValueError ConversationState :=
  let leaf := s.resolveActiveLeaf
  if leaf = s.viewBranchLeaf then .ok s
  else
    match walkTo s.events.next s.viewBranchLeaf (s.events.events.length + 1) leaf with
    | some (tail, cur) =>
      if cur = s.viewBranchLeaf then
        .ok { s with cachedView := tail.reverse.foldl View.appendEvent s.cachedView, viewBranchLeaf := leaf }
      else s.rebuildView
    | none => s.rebuildView

/-- `LocalConversation.navigate_to`. -/
def navigateTo (s : ConversationState) (id : Option EventID) : Except ValueError ConversationState :=
  match id.filter (· ∉ s.events.ids) with
  | some unknown => .error (.unknownEvent unknown)
  | none => { s with leafEventId := id, headIsEmpty := id.isNone }.rebuildView

/-- What `base_state.json` held, over the events of the directory. The cached
view is not persisted. -/
def withLog (base : ConversationState) (log : EventLog) : ConversationState :=
  { base with events := log, cachedView := {}, viewBranchLeaf := none }

/-- The resume path of `create`. -/
def resume (base : ConversationState) (log : EventLog) : Except ValueError ConversationState :=
  (base.withLog log).repairMissingLeaf.rebuildView

/-! ## Blocked actions -/

def blockAction (s : ConversationState) (actionId : EventID) (reason : String) : ConversationState :=
  { s with blockedActions := (actionId, reason) :: s.blockedActions.filter (·.1 ≠ actionId) }

def popBlockedAction (s : ConversationState) (actionId : EventID) : Option String × ConversationState :=
  match s.blockedActions.lookup actionId with
  | none => (none, s)
  | some reason => (some reason, { s with blockedActions := s.blockedActions.filter (·.1 ≠ actionId) })

def blockMessage (s : ConversationState) (messageId : EventID) (reason : String) : ConversationState :=
  { s with blockedMessages := (messageId, reason) :: s.blockedMessages.filter (·.1 ≠ messageId) }

def popBlockedMessage (s : ConversationState) (messageId : EventID) : Option String × ConversationState :=
  match s.blockedMessages.lookup messageId with
  | none => (none, s)
  | some reason => (some reason, { s with blockedMessages := s.blockedMessages.filter (·.1 ≠ messageId) })

end ConversationState

/-! ## Unmatched actions -/

/-- What the backward scan of `get_unmatched_actions` has gathered. -/
structure UnmatchedScan where
  observedActionIds : List EventID := []
  observedToolCallIds : List ToolCallID := []
  unmatchedActions : List Event := []

def UnmatchedScan.step (e : Event) (scan : UnmatchedScan) : UnmatchedScan :=
  match e.body with
  | .observation o =>
    match o.kind with
    | .observation _ _ actionId | .userReject _ _ actionId =>
      { scan with observedActionIds := actionId :: scan.observedActionIds }
    | .agentError _ => { scan with observedToolCallIds := o.toolCallId :: scan.observedToolCallIds }
  | .action a =>
    if a.action.isSome ∧ e.id ∉ scan.observedActionIds ∧ a.toolCallId ∉ scan.observedToolCallIds then
      { scan with unmatchedActions := e :: scan.unmatchedActions }
    else scan
  | _ => scan

/-- `get_unmatched_actions`: the last event is scanned first. -/
def getUnmatchedActions (events : List Event) : List Event :=
  (events.foldr UnmatchedScan.step {}).unmatchedActions

/-- `o` answers the action event `e` in the sense of the scan. -/
def Event.answers (o e : Event) : Bool :=
  match o.body with
  | .observation obs =>
    match obs.kind with
    | .observation _ _ actionId | .userReject _ _ actionId => e.id = actionId
    | .agentError _ => e.toolCallId? = some obs.toolCallId
  | _ => false

namespace UnmatchedScan
variable {e o : Event} {a : ActionEvent}

theorem step_observed (scan : UnmatchedScan) (h : e.action? = some a) :
    (e.id ∉ (step o scan).observedActionIds ∧ a.toolCallId ∉ (step o scan).observedToolCallIds) ↔
      o.answers e = false ∧ e.id ∉ scan.observedActionIds ∧ a.toolCallId ∉ scan.observedToolCallIds := by
  have hid : e.toolCallId? = some a.toolCallId := by
    simp only [Event.toolCallId?, Event.action?_eq_some.1 h]
  unfold step Event.answers
  cases o.body with
  | observation obs =>
    cases hk : obs.kind <;>
      simp only [hk, hid, List.mem_cons, not_or, decide_eq_false_iff_not, Option.some.injEq] <;> tauto
  | action b => dsimp only; split <;> simp
  | _ => simp

theorem observed_iff (events : List Event) (h : e.action? = some a) :
    (e.id ∉ (events.foldr step {}).observedActionIds ∧
      a.toolCallId ∉ (events.foldr step {}).observedToolCallIds) ↔ ∀ o ∈ events, o.answers e = false := by
  induction events with
  | nil => simp
  | cons o os ih => rw [List.foldr_cons, step_observed _ h, ih, List.forall_mem_cons]

theorem step_action (scan : UnmatchedScan) (h : e.action? = some a) :
    (step e scan).unmatchedActions =
      if a.action.isSome ∧ e.id ∉ scan.observedActionIds ∧ a.toolCallId ∉ scan.observedToolCallIds then
        e :: scan.unmatchedActions
      else scan.unmatchedActions := by
  simp only [step, Event.action?_eq_some.1 h]
  split <;> rfl

theorem step_other (scan : UnmatchedScan) (h : e.action? = none) :
    (step e scan).unmatchedActions = scan.unmatchedActions := by
  unfold step
  cases hb : e.body with
  | observation o => dsimp only; split <;> rfl
  | action a => simp [Event.action?, hb] at h
  | _ => rfl

end UnmatchedScan

/-- The scan as a recursion from the front. -/
theorem getUnmatchedActions_cons (e : Event) (es : List Event) :
    getUnmatchedActions (e :: es) =
      if e.isExecutable ∧ ∀ o ∈ es, o.answers e = false then e :: getUnmatchedActions es
      else getUnmatchedActions es := by
  unfold getUnmatchedActions
  rw [List.foldr_cons]
  cases ha : e.action? with
  | none =>
    have hx : ¬ e.isExecutable = true := by
      rw [Event.isExecutable_iff, ha]
      simp
    rw [UnmatchedScan.step_other _ ha, if_neg fun h => hx h.1]
  | some a =>
    have hx : e.isExecutable = a.action.isSome := by
      simp only [Event.isExecutable, Event.action?_eq_some.1 ha]
    rw [UnmatchedScan.step_action _ ha]
    simp only [UnmatchedScan.observed_iff es ha, hx]

@[simp] theorem getUnmatchedActions_nil : getUnmatchedActions [] = [] := rfl

theorem getUnmatchedActions_append (es fs : List Event) :
    getUnmatchedActions (es ++ fs) =
      (getUnmatchedActions es).filter (fun e => fs.all fun o => !o.answers e) ++ getUnmatchedActions fs := by
  induction es with
  | nil => simp
  | cons e es ih =>
    rw [List.cons_append, getUnmatchedActions_cons, getUnmatchedActions_cons, ih]
    by_cases hes : e.isExecutable ∧ ∀ o ∈ es, o.answers e = false
    · by_cases hfs : ∀ o ∈ fs, o.answers e = false
      · rw [if_pos hes, if_pos ⟨hes.1, List.forall_mem_append.2 ⟨hes.2, hfs⟩⟩,
          List.filter_cons_of_pos (by simpa using hfs)]
        rfl
      · rw [if_pos hes, if_neg (fun h => hfs fun o ho => h.2 o (List.mem_append_right _ ho)),
          List.filter_cons_of_neg (by simpa using hfs)]
    · rw [if_neg hes, if_neg]
      exact fun h => hes ⟨h.1, fun o ho => h.2 o (List.mem_append_left _ ho)⟩

/-- An executable action is unmatched when nothing after it answers it. -/
theorem mem_getUnmatchedActions {e : Event} {es : List Event} :
    e ∈ getUnmatchedActions es ↔
      ∃ pre post, es = pre ++ e :: post ∧ e.isExecutable = true ∧ ∀ o ∈ post, o.answers e = false := by
  constructor
  · intro h
    induction es with
    | nil => simp at h
    | cons x es ih =>
      rw [getUnmatchedActions_cons] at h
      have hrest : e ∈ getUnmatchedActions es →
          ∃ pre post, x :: es = pre ++ e :: post ∧ e.isExecutable = true ∧ ∀ o ∈ post, o.answers e = false := by
        intro h
        obtain ⟨pre, post, rfl, h1, h2⟩ := ih h
        exact ⟨x :: pre, post, rfl, h1, h2⟩
      split at h
      · rename_i hx
        rcases List.mem_cons.1 h with rfl | h
        · exact ⟨[], es, rfl, hx⟩
        · exact hrest h
      · exact hrest h
  · rintro ⟨pre, post, rfl, h1, h2⟩
    rw [getUnmatchedActions_append, getUnmatchedActions_cons, if_pos ⟨h1, h2⟩]
    simp

theorem getUnmatchedActions_subset (es : List Event) : getUnmatchedActions es ⊆ es := by
  intro e h
  obtain ⟨pre, post, rfl, -, -⟩ := mem_getUnmatchedActions.1 h
  simp

theorem isExecutable_of_mem_getUnmatchedActions {e : Event} {es : List Event} (h : e ∈ getUnmatchedActions es) :
    e.isExecutable = true := by
  obtain ⟨_, _, -, hx, -⟩ := mem_getUnmatchedActions.1 h
  exact hx

theorem isToolEvent_of_isExecutable {e : Event} (h : e.isExecutable = true) : e.isToolEvent = true := by
  obtain ⟨a, ha, -⟩ := Event.isExecutable_iff.1 h
  simp [Event.isToolEvent, ha]

theorem isToolEvent_of_answers {o e : Event} (h : o.answers e = true) : o.isToolEvent = true := by
  unfold Event.answers at h
  cases hb : o.body <;> simp_all [Event.isToolEvent, Event.observation?]

theorem unanswered_filter (es : List Event) (e : Event) :
    (∀ o ∈ es.filter Event.isToolEvent, o.answers e = false) ↔ ∀ o ∈ es, o.answers e = false := by
  simp only [List.mem_filter, and_imp]
  refine forall_congr' fun o => forall_congr' fun _ => ⟨fun h => ?_, fun h _ => h⟩
  by_contra hcon
  rw [Bool.not_eq_false] at hcon
  rw [h (isToolEvent_of_answers hcon)] at hcon
  cases hcon

/-- Only calls and their answers matter to the scan. -/
theorem getUnmatchedActions_filter (es : List Event) :
    getUnmatchedActions (es.filter Event.isToolEvent) = getUnmatchedActions es := by
  induction es with
  | nil => rfl
  | cons e es ih =>
    cases he : e.isToolEvent with
    | true =>
      rw [List.filter_cons_of_pos he, getUnmatchedActions_cons, getUnmatchedActions_cons, ih]
      simp only [unanswered_filter]
    | false =>
      have hx : ¬ e.isExecutable = true := fun h => by simp [isToolEvent_of_isExecutable h] at he
      rw [List.filter_cons_of_neg (by simp [he]), getUnmatchedActions_cons, if_neg fun h => hx h.1, ih]

/-- Parents do not matter to it. -/
theorem getUnmatchedActions_unstamped (es : List Event) :
    getUnmatchedActions (es.map Event.unstamped) = (getUnmatchedActions es).map Event.unstamped := by
  induction es with
  | nil => rfl
  | cons e es ih =>
    have hx : e.unstamped.isExecutable = e.isExecutable := rfl
    have hans : (∀ o ∈ es.map Event.unstamped, o.answers e.unstamped = false) ↔ ∀ o ∈ es, o.answers e = false := by
      rw [List.forall_mem_map]
      rfl
    rw [List.map_cons, getUnmatchedActions_cons, getUnmatchedActions_cons, ih, hx]
    simp only [hans]
    split <;> rfl

/-! ## Valid states

What every state reached through the operations above satisfies. -/

namespace EventLog

theorem root_not_mem_ids (log : EventLog) : rootParentId ∉ log.ids := by
  intro h
  obtain ⟨e, -, he⟩ := mem_ids.1 h
  exact e.notRoot he

end EventLog

namespace ConversationState

structure Valid (s : ConversationState) : Prop where
  log : s.events.WellFormed
  leaf : ∀ id, s.leafEventId = some id → id ∈ s.events.ids

theorem lastRealEvent_mem {log : EventLog} {id : EventID} (h : lastRealEvent log = some id) : id ∈ log.ids := by
  rw [lastRealEvent, Option.map_eq_some_iff] at h
  obtain ⟨e, he, rfl⟩ := h
  exact EventLog.mem_ids.2 ⟨e, List.mem_reverse.1 (List.mem_of_find?_eq_some he), rfl⟩

theorem lastRealEvent_concat {log : EventLog} {es : List Event} {e : Event} (h : log.events = es ++ [e])
    (he : e.isArtifact = false) : lastRealEvent log = some e.id := by
  simp [lastRealEvent, h, he]

section Resolve
variable {s : ConversationState}

theorem Valid.resolve_mem (hs : s.Valid) {id : EventID} (h : s.resolveActiveLeaf = some id) :
    id ∈ s.events.ids := by
  unfold resolveActiveLeaf at h
  split at h
  · cases h
    exact hs.leaf _ ‹_›
  · split at h
    · cases h
    · exact lastRealEvent_mem h

theorem Valid.resolve_ne_root (hs : s.Valid) : s.resolveActiveLeaf ≠ some rootParentId :=
  fun h => s.events.root_not_mem_ids (hs.resolve_mem h)

/-- The active branch of a valid state exists. -/
theorem Valid.exists_branch (hs : s.Valid) : ∃ l, s.events.Branch s.resolveActiveLeaf l := by
  cases h : s.resolveActiveLeaf with
  | none => exact ⟨[], .root⟩
  | some id => exact hs.log.exists_branch (hs.resolve_mem h)

theorem activeBranch_eq {l : List Event} (h : s.events.Branch s.resolveActiveLeaf l) : s.activeBranch = .ok l :=
  h.pathToRoot

theorem Valid.repairMissingLeaf (hs : s.Valid) : s.repairMissingLeaf = s := by
  unfold ConversationState.repairMissingLeaf
  split
  · rfl
  · rw [if_pos (hs.leaf _ ‹_›)]

end Resolve

section Append
variable {s s' : ConversationState} {e : Event}

@[simp] theorem stampParentId_id (s : ConversationState) (e : Event) : (s.stampParentId e).id = e.id := by
  unfold stampParentId
  split
  · rfl
  · dsimp only
    split <;> rfl

@[simp] theorem stampParentId_body (s : ConversationState) (e : Event) : (s.stampParentId e).body = e.body := by
  unfold stampParentId
  split
  · rfl
  · dsimp only
    split <;> rfl

@[simp] theorem stampParentId_unstamped (s : ConversationState) (e : Event) :
    (s.stampParentId e).unstamped = e.unstamped :=
  Event.unstamped_eq_iff.2 ⟨stampParentId_id s e, stampParentId_body s e⟩

/-- Everything `append_event` does. -/
theorem appendEvent_ok (h : s.appendEvent e = .ok s') :
    ∃ log, s.events.append (s.stampParentId e) = .ok log ∧
      s' = if e.isStateUpdate then { s with events := log }
        else { s with events := log, leafEventId := some e.id, headIsEmpty := false } := by
  have hu : (s.stampParentId e).isStateUpdate = e.isStateUpdate := by
    simp only [Event.isStateUpdate, stampParentId_body]
  simp only [appendEvent, bind, Except.bind, hu, stampParentId_id] at h
  cases hl : s.events.append (s.stampParentId e) with
  | error err => rw [hl] at h; cases h
  | ok log =>
    refine ⟨log, rfl, ?_⟩
    cases hs : e.isStateUpdate <;> simp only [hl, hs] at h ⊢ <;> exact (Except.ok.inj h).symm

theorem Valid.appendEvent (hs : s.Valid) (h : s.appendEvent e = .ok s') : s'.Valid := by
  obtain ⟨log, hl, rfl⟩ := appendEvent_ok h
  have hids := EventLog.ids_append hl
  have hw := hs.log.append hl
  split
  · exact ⟨hw, fun id hid => by rw [hids]; exact List.mem_append_left _ (hs.leaf id hid)⟩
  · refine ⟨hw, fun id hid => ?_⟩
    cases hid
    simp [hids]

theorem appendEvent_events (h : s.appendEvent e = .ok s') :
    s'.events.events = s.events.events ++ [s.stampParentId e] := by
  obtain ⟨log, hl, rfl⟩ := appendEvent_ok h
  split <;> exact (EventLog.append_ok hl).2.1

/-- A branch of the log stays a branch. -/
theorem branch_appendEvent (hs : s.Valid) (h : s.appendEvent e = .ok s') {leaf : Option EventID} {l : List Event}
    (hb : s.events.Branch leaf l) : s'.events.Branch leaf l := by
  obtain ⟨log, hl, rfl⟩ := appendEvent_ok h
  split <;> exact hb.append hs.log hl

/-- Appending a tree node extends the active branch by it. -/
theorem activeBranch_appendEvent (hs : s.Valid) (h : s.appendEvent e = .ok s') (hu : e.isStateUpdate = false)
    (hp : e.parentId = none) {l : List Event} (hb : s.events.Branch s.resolveActiveLeaf l) :
    s'.resolveActiveLeaf = some e.id ∧ s'.events.Branch (some e.id) (l ++ [s.stampParentId e]) := by
  obtain ⟨log, hl, rfl⟩ := appendEvent_ok h
  rw [if_neg (by simp [hu])]
  refine ⟨rfl, ?_⟩
  have hsn := EventLog.Branch.snoc hs.log hl hb hs.resolve_ne_root ?_
  · simpa using hsn
  · simp only [stampParentId, hp]
    split
    · exact .inr ⟨rfl, by simp_all⟩
    · rename_i hr
      refine .inl ⟨rfl, fun hn => ?_⟩
      simpa [hn] using hr

/-- A state update leaves HEAD where it is. -/
theorem resolve_appendEvent_update (h : s.appendEvent e = .ok s') (hu : e.isStateUpdate = true) :
    s'.resolveActiveLeaf = s.resolveActiveLeaf := by
  obtain ⟨log, hl, rfl⟩ := appendEvent_ok h
  have hart : (s.stampParentId e).isArtifact = true := by
    unfold Event.isStateUpdate at hu
    unfold Event.isArtifact
    rw [stampParentId_body]
    split at hu <;> simp_all
  have hlast : lastRealEvent log = lastRealEvent s.events := by
    simp [lastRealEvent, (EventLog.append_ok hl).2.1, hart]
  simp only [if_pos hu, resolveActiveLeaf, hlast]

/-- An event with a fresh id and a parent that is unset or in the log is accepted. -/
theorem Valid.appendEvent_isOk (hs : s.Valid) (hid : e.id ∉ s.events.ids)
    (hp : ∀ p, e.parentId = some p → p ∈ s.events.ids) : ∃ s', s.appendEvent e = .ok s' := by
  have hpar : ∀ p, (s.stampParentId e).parentId = some p → p = rootParentId ∨ p ∈ s.events.ids := by
    intro p
    unfold stampParentId
    split
    · exact fun h => .inr (hp p h)
    · dsimp only
      split
      · intro h
        cases h
        exact .inl rfl
      · exact fun h => .inr (hs.resolve_mem h)
  obtain ⟨log, hl⟩ := EventLog.append_eq (by simpa using hid) hpar
  simp only [ConversationState.appendEvent, bind, Except.bind, hl]
  split <;> exact ⟨_, rfl⟩

end Append

/-! ## Runs of appends -/

section Appends
variable {s s' : ConversationState} {es : List Event}

theorem appendEvents_cons {e : Event} (h : s.appendEvents (e :: es) = .ok s') :
    ∃ s₁, s.appendEvent e = .ok s₁ ∧ s₁.appendEvents es = .ok s' := by
  simp only [appendEvents, bind, Except.bind] at h
  split at h
  · cases h
  · exact ⟨_, ‹_›, h⟩

theorem Valid.appendEvents (hs : s.Valid) (h : s.appendEvents es = .ok s') : s'.Valid := by
  induction es generalizing s with
  | nil => cases h; exact hs
  | cons e es ih =>
    obtain ⟨s₁, h₁, h⟩ := appendEvents_cons h
    exact ih (hs.appendEvent h₁) h

theorem branch_appendEvents (hs : s.Valid) (h : s.appendEvents es = .ok s') {leaf : Option EventID}
    {l : List Event} (hb : s.events.Branch leaf l) : s'.events.Branch leaf l := by
  induction es generalizing s with
  | nil => cases h; exact hb
  | cons e es ih =>
    obtain ⟨s₁, h₁, h⟩ := appendEvents_cons h
    exact ih (hs.appendEvent h₁) h (branch_appendEvent hs h₁ hb)

theorem appendEvents_status (h : s.appendEvents es = .ok s') : s'.executionStatus = s.executionStatus := by
  induction es generalizing s with
  | nil => cases h; rfl
  | cons e es ih =>
    obtain ⟨s₁, h₁, h⟩ := appendEvents_cons h
    obtain ⟨log, -, rfl⟩ := appendEvent_ok h₁
    rw [ih h]
    split <;> rfl

theorem appendEvents_leaf (hu : ∀ e ∈ es, e.isStateUpdate = false) (h : s.appendEvents es = .ok s') :
    (es = [] ∧ s' = s) ∨ ∃ e, es.getLast? = some e ∧ s'.leafEventId = some e.id := by
  induction es generalizing s with
  | nil => cases h; exact .inl ⟨rfl, rfl⟩
  | cons e es ih =>
    obtain ⟨s₁, h₁, h⟩ := appendEvents_cons h
    rcases ih (fun x hx => hu x (List.mem_cons_of_mem _ hx)) h with ⟨rfl, rfl⟩ | ⟨x, hx, hl⟩
    · obtain ⟨log, -, rfl⟩ := appendEvent_ok h₁
      exact .inr ⟨e, rfl, by rw [if_neg (by simp [hu e])]⟩
    · exact .inr ⟨x, by rw [List.getLast?_cons, hx]; rfl, hl⟩

/-- A run of unstamped tree nodes hangs one after the other below HEAD. -/
theorem appendEvents_branches (hs : s.Valid) (hu : ∀ e ∈ es, e.isStateUpdate = false ∧ e.parentId = none)
    {l : List Event} (hb : s.events.Branch s.resolveActiveLeaf l) (h : s.appendEvents es = .ok s') :
    ∃ st, st.map Event.unstamped = es.map Event.unstamped ∧ s'.events.events = s.events.events ++ st ∧
      ∀ (i : Nat) (e : Event), st[i]? = some e → s'.events.Branch (some e.id) (l ++ st.take (i + 1)) := by
  induction es generalizing s l with
  | nil => cases h; exact ⟨[], rfl, by simp, by simp⟩
  | cons e es ih =>
    obtain ⟨s₁, h₁, h⟩ := appendEvents_cons h
    obtain ⟨hu0, hp0⟩ := hu e List.mem_cons_self
    obtain ⟨hleaf, hb₁⟩ := activeBranch_appendEvent hs h₁ hu0 hp0 hb
    obtain ⟨st, hst, hev, hbr⟩ :=
      ih (hs.appendEvent h₁) (fun x hx => hu x (List.mem_cons_of_mem _ hx)) (hleaf ▸ hb₁) h
    refine ⟨s.stampParentId e :: st, by simp [hst], ?_, ?_⟩
    · rw [hev, appendEvent_events h₁, List.append_assoc]
      rfl
    · rintro (_ | i) x hx
      · cases hx
        simpa using branch_appendEvents (hs.appendEvent h₁) h hb₁
      · simpa using hbr i x hx

end Appends

end ConversationState

end AgentSdk
