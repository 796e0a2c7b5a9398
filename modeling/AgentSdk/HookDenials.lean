import AgentSdk.HeadDurability
import AgentSdk.Lib.Runs
import AgentSdk.StepEmission
/-!
# Hook denials

A hook that denies an action or a user message has the id of the event put into
a field of the state. The agent takes it out when it comes to execute the
action, or to answer the message. Events reach the log at once, but a field
reaches `base_state.json` at the exit of the outermost `with state` block, and a
crash leaves the store as it is between two writes.
-/

namespace AgentSdk
open Lib ConversationState

/-! ## What the hooks see -/

/-- The most recent user message of a branch. -/
def lastUserMessage (events : List Event) : Option EventID :=
  (events.reverse.find? Event.isUserMessage).map Event.id

/-- A user message with the verdict of the UserPromptSubmit hooks: the reason of
a denial and the joined additional context. -/
structure UserSubmission where
  id : NewId
  replacementId : NewId
  content : List String
  extendedContent : List String := []
  denial : Option String := none
  additionalContext : Option String := none

namespace UserSubmission

def replaced (m : UserSubmission) : Bool := m.additionalContext.any (· ≠ "")

/-- The event that `_handle_user_prompt_submit` returns. Context is added to a
new event, which has an id of its own. -/
def event (m : UserSubmission) : Event :=
  if m.replaced then
    Agent.messageEvent m.replacementId .user m.content (m.extendedContent ++ m.additionalContext.toList)
  else Agent.messageEvent m.id .user m.content m.extendedContent

theorem event_spec (m : UserSubmission) :
    m.event.parentId = none ∧ m.event.isUserMessage = true ∧ m.event.isExecutable = false ∧
      m.event.id = if m.replaced then m.replacementId.id else m.id.id := by
  unfold event
  split <;> exact ⟨rfl, rfl, rfl, rfl⟩

end UserSubmission

/-- An action of a response with the verdict of the PreToolUse hooks, which see
validated actions only. -/
structure ActionSubmission where
  id : NewId
  action : ActionEvent
  denial : Option String := none

namespace ActionSubmission

def event (c : ActionSubmission) : Event := c.id.event (.action c.action)

def verdict (c : ActionSubmission) : Option String := if c.action.action.isSome then c.denial else none

theorem event_spec (c : ActionSubmission) :
    c.event.parentId = none ∧ c.event.isUserMessage = false ∧ c.event.id = c.id.id ∧ ∀ x, c.event.answers x = false :=
  ⟨rfl, rfl, rfl, fun _ => rfl⟩

end ActionSubmission

/-! ## The fields of denials -/

namespace LiveState

/-- `_handle_pre_tool_use`. -/
def handlePreToolUse (w : LiveState) (c : ActionSubmission) : LiveState :=
  match c.verdict with
  | some reason => w.assign (.blockedActions (w.state.blockAction c.id.id reason).blockedActions) none
  | none => w

/-- `_handle_user_prompt_submit`, which blocks the id of the event it was given. -/
def handleUserPromptSubmit (w : LiveState) (m : UserSubmission) : LiveState :=
  match m.denial with
  | some reason => w.assign (.blockedMessages (w.state.blockMessage m.id.id reason).blockedMessages) none
  | none => w

/-- The loop of `prepare`: the state and the `blocked_reasons`. -/
def popBlockedActions : List Event → LiveState → LiveState × List (EventID × String)
  | [], w => (w, [])
  | e :: es, w =>
    match w.state.popBlockedAction e.id with
    | (none, _) => popBlockedActions es w
    | (some reason, s) =>
      let (w, reasons) := popBlockedActions es (w.assign (.blockedActions s.blockedActions) none)
      (w, (e.id, reason) :: reasons)

/-- `pop_blocked_message` of the last user message, if it is blocked. -/
def popBlockedMessage (w : LiveState) : Option LiveState :=
  w.state.lastUserMessageId.bind fun id =>
    match w.state.popBlockedMessage id with
    | (none, _) => none
    | (some _, s) => some (w.assign (.blockedMessages s.blockedMessages) none)

end LiveState

/-! ## A conversation with hooks -/

/-- `_ActionBatch`. The actions still to be answered by `emit` are `unanswered`. -/
structure ActionBatch where
  actions : List Event
  hasFinish : Bool
  blockedReasons : List (EventID × String)
  unanswered : List Event

/-- Where the run loop is: between two steps, from the request to the last
action of its response, or in `_execute_actions`. -/
inductive StepPhase where
  | between
  | responding (actions : List Event)
  | executing (batch : ActionBatch)

/-- The denials whose rejection is still to be emitted, though they are no
longer in the state. -/
def StepPhase.rejecting : StepPhase → List EventID
  | .executing batch =>
    (batch.unanswered.filter fun e => (batch.blockedReasons.lookup e.id).isSome).map Event.id
  | _ => []

/-- What the hooks denied, which actions were executed, and the last user
message of the active branch at each LLM request, are recorded on the side. -/
structure HookedConversation where
  live : LiveState := {}
  phase : StepPhase := .between
  deniedActions : List EventID := []
  deniedMessages : List EventID := []
  executed : List EventID := []
  requests : List (Option EventID) := []

/-- Each writes the store at most once. Actions and user messages are emitted inside a
`with state` block, as `run` and `send_message` do. Another emission or assignment
outside of one counts as a block of its own, which saves once at its end what
`__setattr__` saves after each assignment. `emit` is any event that is neither a user
message nor a valid action, `assignStatus` any change of the status that is not told
apart below. -/
inductive HookOp where
  | enter
  | exit
  | emit (new : NewId) (body : EventBody)
  | assignStatus (status : ConversationExecutionStatus)
  | sendMessage (m : UserSubmission)
  | emitUserMessage (m : UserSubmission)
  | iterate (condenses : Bool)
  | condense (condenses : Bool)
  | act (c : ActionSubmission)
  | endStep
  | executeActions
  | runTool (id : EventID)
  | answer (new : NewId) (result : ObservationBaseEvent)
  | finalize (followup : Option UserSubmission)
  | rerunActions (count : Nat)
  | crash

namespace HookedConversation

def Fresh (w : HookedConversation) (new : NewId) : Prop := new.id ∉ w.live.state.events.ids

instance decidableFresh (w : HookedConversation) (new : NewId) : Decidable (w.Fresh new) :=
  inferInstanceAs (Decidable (_ ∉ _))

/-- `on_event` of a user message: the hooks, `_default_callback` and
`_track_last_user_message`. -/
def onUserMessage (w : HookedConversation) (m : UserSubmission) : HookedConversation :=
  { w with
    live := ((w.live.handleUserPromptSubmit m).appendEvent m.event).assign (.lastUserMessageId (some m.event.id)) none
    deniedMessages := if m.denial.isSome then m.event.id :: w.deniedMessages else w.deniedMessages }

/-- `send_message`: a new message resets terminal states. -/
def sendMessage (w : HookedConversation) (m : UserSubmission) : HookedConversation :=
  let live :=
    if w.live.state.executionStatus = .finished ∨ w.live.state.executionStatus = .stuck then
      w.live.assign (.executionStatus .idle) none
    else w.live
  { w with live }.onUserMessage m

/-- `on_event` of an action. -/
def onAction (w : HookedConversation) (c : ActionSubmission) : HookedConversation :=
  { w with
    live := (w.live.handlePreToolUse c).appendEvent c.event
    deniedActions := if c.verdict.isSome then c.id.id :: w.deniedActions else w.deniedActions }

/-- `prepare` up to the execution. -/
def prepare (w : HookedConversation) (actions : List Event) : HookedConversation :=
  let (actions, hasFinish) := Agent.truncateAtFinish actions
  let (live, blockedReasons) := w.live.popBlockedActions actions
  { w with live, phase := .executing { actions, hasFinish, blockedReasons, unanswered := actions } }

/-- `_step` up to the LLM request, unless the condenser comes before it. -/
def agentStep (w : HookedConversation) (condenses : Bool) : Option HookedConversation :=
  match w.live.state.activeBranch with
  | .error _ => none
  | .ok branch =>
    if getUnmatchedActions branch ≠ [] then some (w.prepare (getUnmatchedActions branch))
    else
      match w.live.popBlockedMessage with
      | some live => some { w with live := live.assign (.executionStatus .finished) none }
      | none =>
        if condenses then some w
        else some { w with phase := .responding [], requests := lastUserMessage branch :: w.requests }

/-- One pass of the loop of `run`, where it takes a step. -/
def iterate (w : HookedConversation) (condenses : Bool) : Option HookedConversation :=
  match w.live.state.executionStatus with
  | .paused | .stuck | .finished => none
  | .waitingForConfirmation => { w with live := w.live.assign (.executionStatus .running) none }.agentStep condenses
  | _ => w.agentStep condenses

/-- What `emit` makes of an action: a rejection by the hook, or its result. -/
def answerBody (id : EventID) (a : ActionEvent) (reason : Option String) (result : ObservationBaseEvent) : EventBody :=
  match reason with
  | some reason =>
    .observation { toolName := a.toolName, toolCallId := a.toolCallId, kind := .userReject reason .hook id }
  | none => .observation result

def answer (w : HookedConversation) (batch : ActionBatch) (new : NewId) (result : ObservationBaseEvent) :
    Option HookedConversation :=
  match batch.unanswered with
  | [] => none
  | e :: rest =>
    e.action?.map fun a =>
      { w with
        live := w.live.appendEvent (new.event (answerBody e.id a (batch.blockedReasons.lookup e.id) result))
        phase := .executing { batch with unanswered := rest } }

def finalize (w : HookedConversation) (batch : ActionBatch) (followup : Option UserSubmission) : HookedConversation :=
  let w := { w with phase := .between }
  if ¬ batch.hasFinish ∨ batch.actions.getLast?.any (fun e => (batch.blockedReasons.lookup e.id).isSome) then w
  else
    match followup with
    | some m => w.onUserMessage m
    | none => { w with live := w.live.assign (.executionStatus .finished) none }

/-- The actions that `rerun_actions` goes through. -/
def rerun (w : HookedConversation) (count : Nat) : List EventID :=
  ((w.live.state.events.events.filter Event.isExecutable).take count).map Event.id

/-- What happens inside a `with state` block. -/
def blockStep (w : HookedConversation) : HookOp → Option HookedConversation
  | .exit =>
    -- An exception, too, leaves the step through here.
    some { w with
      live := w.live.exit
      phase := if w.live.exit.saveDepth = 0 then .between else w.phase }
  | .emit new body =>
    if w.Fresh new ∧ (new.event body).isUserMessage = false ∧ (new.event body).isExecutable = false then
      some { w with live := w.live.appendEvent (new.event body) }
    else none
  | .assignStatus status => some { w with live := w.live.assign (.executionStatus status) none }
  | .sendMessage m => if w.Fresh m.id ∧ w.Fresh m.replacementId then some (w.sendMessage m) else none
  | .emitUserMessage m => if w.Fresh m.id ∧ w.Fresh m.replacementId then some (w.onUserMessage m) else none
  | .iterate condenses =>
    match w.phase with
    | .between => w.iterate condenses
    | _ => none
  | .condense condenses =>
    match w.phase with
    | .between => w.agentStep condenses
    | _ => none
  | .act c =>
    match w.phase with
    | .responding actions =>
      if w.Fresh c.id then
        some { w.onAction c with
          phase := .responding (if c.event.isExecutable then actions ++ [c.event] else actions) }
      else none
    | _ => none
  | .endStep =>
    match w.phase with
    | .responding _ => some { w with phase := .between }
    | _ => none
  | .executeActions =>
    match w.phase with
    | .responding actions => some (w.prepare actions)
    | _ => none
  | .runTool id =>
    match w.phase with
    | .executing batch =>
      if batch.unanswered.length = batch.actions.length ∧
          batch.actions.any (fun e => e.id = id ∧ batch.blockedReasons.lookup e.id = none) then
        some { w with executed := id :: w.executed }
      else none
    | _ => none
  | .answer new result =>
    match w.phase with
    | .executing batch => if w.Fresh new then w.answer batch new result else none
    | _ => none
  | .finalize followup =>
    match w.phase with
    | .executing batch =>
      if batch.unanswered = [] ∧ ∀ m ∈ followup, w.Fresh m.id ∧ w.Fresh m.replacementId then
        some (w.finalize batch followup)
      else none
    | _ => none
  | _ => none

def step (w : HookedConversation) : HookOp → Option HookedConversation
  | .enter => some { w with live := w.live.enter }
  | .rerunActions count => some { w with executed := w.rerun count ++ w.executed }
  | .crash =>
    match LiveState.create w.live.store with
    | .ok live => some { w with live, phase := .between }
    | .error _ => none
  | op => if w.live.saveDepth = 0 then none else w.blockStep op

/-! ## Where a denial gets lost -/

def lastMessage (w : HookedConversation) : Option EventID :=
  match w.live.state.activeBranch with
  | .ok branch => lastUserMessage branch
  | .error _ => none

/-- The most recent user message was denied, and a step has taken the denial
out of the state. -/
def Consumed (w : HookedConversation) : Prop :=
  ∃ id ∈ w.lastMessage, id ∈ w.deniedMessages ∧ w.live.state.blockedMessages.lookup id = none

instance decidableConsumed (w : HookedConversation) : Decidable w.Consumed :=
  match h : w.lastMessage with
  | none => isFalse (by simp [Consumed, h])
  | some id =>
    decidable_of_iff (id ∈ w.deniedMessages ∧ w.live.state.blockedMessages.lookup id = none) (by simp [Consumed, h])

/-- The denials hold as long as no denied message is replaced for its context,
no exception leaves a step with a rejection still to emit, nothing but a new
user message gets the conversation going again after a denied one has stopped
it, no denied action is run again by `rerun_actions`, and no crash comes between
a denial and the first HEAD in `base_state.json`. -/
def Allowed (w : HookedConversation) : HookOp → Prop
  | .sendMessage m | .emitUserMessage m | .finalize (some m) => m.denial.isSome → m.replaced = false
  | .exit => w.live.saveDepth = 1 → w.phase.rejecting = []
  | .assignStatus status => status ≠ .finished → ¬ w.Consumed
  | .condense _ => ¬ w.Consumed
  | .rerunActions count => ∀ id ∈ w.rerun count, id ∉ w.deniedActions
  | .crash => w.live.store.base.leafEventId = none → w.deniedActions = [] ∧ w.deniedMessages = []
  | _ => True

instance decidableAllowed (w : HookedConversation) (op : HookOp) : Decidable (w.Allowed op) := by
  cases op with
  | finalize followup => cases followup <;> (unfold Allowed; infer_instance)
  | _ => unfold Allowed; infer_instance

end HookedConversation

/-! ## Inside a block -/

namespace LiveState
variable {w : LiveState}

theorem setattr_inside (hin : 0 < w.saveDepth) (s : ConversationState) (changed : Bool) :
    w.setattr s changed = { w with state := s, dirty := changed || w.dirty } := by
  cases changed <;> simp [setattr, hin]

@[simp] theorem assign_state (w : LiveState) (field : FieldAssignment) :
    (w.assign field none).state = field.apply w.state := by
  simp only [assign, setattr]
  split
  · split <;> rfl
  · rfl

@[simp] theorem assign_saveDepth (w : LiveState) (field : FieldAssignment) :
    (w.assign field none).saveDepth = w.saveDepth := by
  simp only [assign, setattr]
  split
  · split <;> rfl
  · rfl

theorem assign_store (hin : 0 < w.saveDepth) (field : FieldAssignment) : (w.assign field none).store = w.store := by
  simp only [assign, setattr_inside hin]

/-- Inside a block, an append writes the event file and nothing else. -/
theorem appendEvent_inside {e : Event} {s : ConversationState} (hin : 0 < w.saveDepth)
    (h : w.state.appendEvent e = .ok s) :
    (w.appendEvent e).state = s ∧ (w.appendEvent e).store = { w.store with events := s.events } ∧
      (w.appendEvent e).saveDepth = w.saveDepth := by
  obtain ⟨log, hlog, rfl⟩ := appendEvent_ok h
  simp only [LiveState.appendEvent, hlog, stampParentId_isStateUpdate, stampParentId_id]
  cases hu : e.isStateUpdate with
  | true => exact ⟨rfl, rfl, rfl⟩
  | false =>
    simp only [Bool.false_eq_true, if_false, write, setattr_inside, hin]
    cases w.state.headIsEmpty <;> simp

/-- Blocking an id adds it to the keys of the dict. -/
theorem lookup_block_isSome (d : List (EventID × String)) (id : EventID) (reason : String) (x : EventID) :
    (((id, reason) :: d.filter (·.1 ≠ id)).lookup x).isSome ↔ x = id ∨ (d.lookup x).isSome := by
  by_cases hx : x = id
  · simp [hx]
  · have hne : (x == id) = false := by simpa using hx
    simp [List.lookup_cons, hne, hx]

theorem handlePreToolUse_spec (hin : 0 < w.saveDepth) (c : ActionSubmission) :
    (w.handlePreToolUse c).state = { w.state with blockedActions := (w.handlePreToolUse c).state.blockedActions } ∧
      (w.handlePreToolUse c).store = w.store ∧ (w.handlePreToolUse c).saveDepth = w.saveDepth ∧
      (∀ id, (w.state.blockedActions.lookup id).isSome → ((w.handlePreToolUse c).state.blockedActions.lookup id).isSome) ∧
      (c.verdict.isSome → ((w.handlePreToolUse c).state.blockedActions.lookup c.id.id).isSome) := by
  unfold handlePreToolUse
  cases c.verdict with
  | none => exact ⟨rfl, rfl, rfl, fun _ h => h, nofun⟩
  | some reason =>
    simp only [assign_state, assign_saveDepth, assign_store hin, FieldAssignment.apply, ConversationState.blockAction,
      lookup_block_isSome]
    exact ⟨trivial, trivial, trivial, fun _ h => .inr h, fun _ => .inl trivial⟩

theorem handleUserPromptSubmit_spec (hin : 0 < w.saveDepth) (m : UserSubmission) :
    (w.handleUserPromptSubmit m).state =
        { w.state with blockedMessages := (w.handleUserPromptSubmit m).state.blockedMessages } ∧
      (w.handleUserPromptSubmit m).store = w.store ∧ (w.handleUserPromptSubmit m).saveDepth = w.saveDepth ∧
      (m.denial.isSome → ((w.handleUserPromptSubmit m).state.blockedMessages.lookup m.id.id).isSome) := by
  unfold handleUserPromptSubmit
  cases m.denial with
  | none => exact ⟨rfl, rfl, rfl, nofun⟩
  | some reason =>
    simp only [assign_state, assign_saveDepth, assign_store hin, FieldAssignment.apply, ConversationState.blockMessage,
      lookup_block_isSome]
    exact ⟨trivial, trivial, trivial, fun _ => .inl trivial⟩

/-- What `prepare` takes out of the state is what it returns. -/
theorem popBlockedActions_spec (es : List Event) (w : LiveState) (hin : 0 < w.saveDepth) :
    (w.popBlockedActions es).1.state =
        { w.state with blockedActions := (w.popBlockedActions es).1.state.blockedActions } ∧
      (w.popBlockedActions es).1.store = w.store ∧ (w.popBlockedActions es).1.saveDepth = w.saveDepth ∧
      (∀ id ∉ es.map Event.id, (w.popBlockedActions es).2.lookup id = none ∧
        (w.popBlockedActions es).1.state.blockedActions.lookup id = w.state.blockedActions.lookup id) ∧
      ∀ id ∈ es.map Event.id,
        ((w.popBlockedActions es).2.lookup id).isSome = (w.state.blockedActions.lookup id).isSome := by
  induction es generalizing w with
  | nil => exact ⟨rfl, rfl, rfl, fun _ _ => ⟨rfl, rfl⟩, by simp⟩
  | cons e es ih =>
    unfold popBlockedActions ConversationState.popBlockedAction
    cases hl : w.state.blockedActions.lookup e.id with
    | none =>
      obtain ⟨hstate, hstore, hdepth, hout, hmem⟩ := ih w hin
      refine ⟨hstate, hstore, hdepth, fun id hid => hout id fun h => hid (List.mem_cons_of_mem _ h), fun id hid => ?_⟩
      by_cases hes : id ∈ es.map Event.id
      · exact hmem id hes
      · have heq : id = e.id := by simpa [hes] using hid
        rw [(hout id hes).1, heq, hl]
    | some reason =>
      obtain ⟨hstate, hstore, hdepth, hout, hmem⟩ :=
        ih (w.assign (.blockedActions (w.state.blockedActions.filter (·.1 ≠ e.id))) none) (by simpa using hin)
      have hrest : ∀ id, id ≠ e.id → (w.state.blockedActions.filter (·.1 ≠ e.id)).lookup id =
          w.state.blockedActions.lookup id := fun id hne => (lookup_filter_ne _ _ _).trans (if_neg hne)
      simp only [assign_state, assign_saveDepth, FieldAssignment.apply, assign_store hin] at hstate hstore hdepth hout hmem
      refine ⟨hstate, hstore, hdepth, fun id hid => ?_, fun id hid => ?_⟩
      · simp only [List.map_cons, List.mem_cons, not_or] at hid
        have hne : (id == e.id) = false := by simpa using hid.1
        rw [← hrest id hid.1]
        simpa only [List.lookup_cons, hne] using hout id hid.2
      · by_cases heq : id = e.id
        · simp [heq, hl]
        · have hes : id ∈ es.map Event.id := by simpa [heq] using hid
          have hne : (id == e.id) = false := by simpa using heq
          rw [← hrest id heq, ← hmem id hes]
          simp only [List.lookup_cons, hne]

theorem popBlockedMessage_some (hin : 0 < w.saveDepth) {w' : LiveState} (h : w.popBlockedMessage = some w') :
    w'.state = { w.state with blockedMessages := w'.state.blockedMessages } ∧ w'.store = w.store ∧
      w'.saveDepth = w.saveDepth := by
  obtain ⟨id, -, h⟩ := Option.bind_eq_some_iff.1 h
  split at h
  · cases h
  · cases h
    exact ⟨by simp [FieldAssignment.apply], assign_store hin _, assign_saveDepth _ _⟩

theorem popBlockedMessage_none (h : w.popBlockedMessage = none) {id : EventID}
    (hid : w.state.lastUserMessageId = some id) : w.state.blockedMessages.lookup id = none := by
  unfold popBlockedMessage ConversationState.popBlockedMessage at h
  rw [hid, Option.bind_some] at h
  cases hl : w.state.blockedMessages.lookup id with
  | none => rfl
  | some reason => simp [hl] at h

end LiveState

/-! ## The denials of a branch -/

section Branch
variable {s s' t : ConversationState} {e : Event} {l : List Event}

@[simp] theorem stampParentId_isUserMessage (s : ConversationState) (e : Event) :
    (s.stampParentId e).isUserMessage = e.isUserMessage := by
  simp only [Event.isUserMessage, stampParentId_body]

@[simp] theorem stampParentId_isExecutable (s : ConversationState) (e : Event) :
    (s.stampParentId e).isExecutable = e.isExecutable := by
  simp only [Event.isExecutable, stampParentId_body]

@[simp] theorem stampParentId_answers (s : ConversationState) (o e : Event) :
    (s.stampParentId o).answers e = o.answers e := by
  simp only [Event.answers, stampParentId_body]

theorem lastUserMessage_concat (l : List Event) (e : Event) :
    lastUserMessage (l ++ [e]) = if e.isUserMessage then some e.id else lastUserMessage l := by
  rw [lastUserMessage, List.reverse_append, List.reverse_singleton, List.singleton_append, List.find?_cons]
  cases e.isUserMessage <;> simp [lastUserMessage]

theorem lastUserMessage_mem {id : EventID} (h : lastUserMessage l = some id) : ∃ e ∈ l, e.id = id := by
  obtain ⟨e, he, rfl⟩ := Option.map_eq_some_iff.1 h
  exact ⟨e, List.mem_reverse.1 (List.mem_of_find?_eq_some he), rfl⟩

theorem unmatched_concat {x : Event} (h : x ∈ getUnmatchedActions (l ++ [e])) :
    x ∈ getUnmatchedActions l ∧ e.answers x = false ∨ x = e ∧ e.isExecutable = true := by
  rw [getUnmatchedActions_append, List.mem_append, List.mem_filter] at h
  rcases h with ⟨hx, hans⟩ | hx
  · exact .inl ⟨hx, by simpa using hans⟩
  · have hxe : x = e := by simpa using getUnmatchedActions_subset [e] hx
    exact .inr ⟨hxe, hxe ▸ isExecutable_of_mem_getUnmatchedActions hx⟩

/-- What a state update is not. -/
theorem Event.of_isStateUpdate (h : e.isStateUpdate = true) :
    e.isUserMessage = false ∧ e.isExecutable = false ∧ ∀ x, e.answers x = false := by
  unfold Event.isStateUpdate at h
  unfold Event.isUserMessage Event.isExecutable Event.answers
  split at h <;> simp_all

theorem mem_ids_appendEvent {id : EventID} (h : s.appendEvent e = .ok s') (hid : id ∈ s.events.ids) :
    id ∈ s'.events.ids := by
  obtain ⟨x, hx, rfl⟩ := EventLog.mem_ids.1 hid
  exact EventLog.mem_ids.2 ⟨x, appendEvent_events h ▸ List.mem_append_left _ hx, rfl⟩

theorem id_mem_appendEvent (h : s.appendEvent e = .ok s') : e.id ∈ s'.events.ids := by
  refine EventLog.mem_ids.2 ⟨s.stampParentId e, ?_, stampParentId_id s e⟩
  rw [appendEvent_events h]
  exact List.mem_append_right _ (List.mem_singleton_self _)

theorem appendEvent_messages (h : s.appendEvent e = .ok s') :
    s'.blockedMessages = s.blockedMessages ∧ s'.lastUserMessageId = s.lastUserMessageId := by
  obtain ⟨log, -, rfl⟩ := appendEvent_ok h
  split <;> exact ⟨rfl, rfl⟩

theorem truncateAtFinish_subset (es : List Event) : (Agent.truncateAtFinish es).1 ⊆ es := by
  unfold Agent.truncateAtFinish
  split
  · exact List.take_subset _ _
  · exact List.Subset.refl _

/-- A denied action that is pending on the branch is blocked in the state, or
about to be rejected. A denied message that is the last one is what the agent
looks for; it is blocked, or has finished the run. -/
structure Enforced (denied messages rejecting : List EventID) (s : ConversationState) (branch : List Event) :
    Prop where
  active : s.events.Branch s.resolveActiveLeaf branch
  actions : ∀ e ∈ getUnmatchedActions branch, e.id ∈ denied →
    e.id ∈ rejecting ∨ (s.blockedActions.lookup e.id).isSome
  message : ∀ id ∈ lastUserMessage branch, id ∈ messages → s.lastUserMessageId = some id ∧
    ((s.blockedMessages.lookup id).isSome ∨ s.executionStatus = .finished)

theorem resolveActiveLeaf_of_leaf {leaf : EventID} (h : s.leafEventId = some leaf) :
    s.resolveActiveLeaf = some leaf := by
  simp only [resolveActiveLeaf, h]

theorem ConversationState.SameTree.resolve (h : s.SameTree t) : t.resolveActiveLeaf = s.resolveActiveLeaf := by
  simp only [resolveActiveLeaf, h.events, h.leaf, h.empty]

theorem ConversationState.SameTree.valid (h : s.SameTree t) (hs : s.Valid) : t.Valid :=
  ⟨h.events ▸ hs.log, fun id hid => h.events ▸ hs.leaf id (h.leaf ▸ hid)⟩

/-- The rule for an append: of the old branch only the actions that the event
does not answer are still pending. -/
theorem Enforced.append {denied messages rejecting : List EventID} (hs : s.Valid)
    (hb : s.events.Branch s.resolveActiveLeaf l) (hp : e.parentId = none) (h : s.appendEvent e = .ok s')
    (ht : s'.SameTree t)
    (hold : ∀ x ∈ getUnmatchedActions l, e.answers x = false → x.id ∈ denied →
      x.id ∈ rejecting ∨ (t.blockedActions.lookup x.id).isSome)
    (hnew : e.isExecutable = true → e.id ∈ denied → e.id ∈ rejecting ∨ (t.blockedActions.lookup e.id).isSome)
    (hmsg : ∀ id ∈ (if e.isUserMessage then some e.id else lastUserMessage l), id ∈ messages →
      t.lastUserMessageId = some id ∧ ((t.blockedMessages.lookup id).isSome ∨ t.executionStatus = .finished)) :
    ∃ l', Enforced denied messages rejecting t l' := by
  cases hu : e.isStateUpdate with
  | true =>
    obtain ⟨huser, -, hans⟩ := Event.of_isStateUpdate hu
    refine ⟨l, ?_, fun x hx => hold x hx (hans x), ?_⟩
    · rw [ht.resolve, resolve_appendEvent_update h hu, ht.events]
      exact branch_appendEvent hs h hb
    · simpa [huser] using hmsg
  | false =>
    obtain ⟨hleaf, hb'⟩ := activeBranch_appendEvent hs h hu hp hb
    refine ⟨_, by rw [ht.resolve, hleaf, ht.events]; exact hb', fun x hx hd => ?_, ?_⟩
    · rcases unmatched_concat hx with ⟨hx, hans⟩ | ⟨rfl, hexec⟩
      · exact hold x hx (by simpa using hans) hd
      · rw [stampParentId_id] at hd ⊢
        exact hnew (by simpa using hexec) hd
    · rw [lastUserMessage_concat, stampParentId_isUserMessage, stampParentId_id]
      exact hmsg

end Branch

/-! ## The invariant -/

namespace HookedConversation
variable {w w' : HookedConversation}

/-- The actions of a response are blocked when denied, those of a batch unless
`prepare` has taken the denial out. -/
def PhaseOk (w : HookedConversation) : Prop :=
  match w.phase with
  | .between => True
  | .responding actions => ∀ e ∈ actions, e.id ∈ w.live.state.events.ids ∧
      (e.id ∈ w.deniedActions → (w.live.state.blockedActions.lookup e.id).isSome)
  | .executing batch => ∀ e ∈ batch.actions, e.id ∈ w.live.state.events.ids ∧
      (batch.blockedReasons.lookup e.id = none → e.id ∉ w.deniedActions)

/-- What would be loaded after a crash. -/
def reloaded (w : HookedConversation) : ConversationState := w.live.store.base.withLog w.live.store.events

structure Consistent (w : HookedConversation) : Prop where
  valid : w.live.state.Valid
  log : w.live.store.events = w.live.state.events
  base : w.reloaded.Valid
  actionsLogged : ∀ id ∈ w.deniedActions, id ∈ w.live.state.events.ids
  messagesLogged : ∀ id ∈ w.deniedMessages, id ∈ w.live.state.events.ids
  current : ∃ l, Enforced w.deniedActions w.deniedMessages w.phase.rejecting w.live.state l
  saved : w.live.store.base.leafEventId ≠ none → ∃ l, Enforced w.deniedActions w.deniedMessages [] w.reloaded l
  phase : w.PhaseOk
  executed : ∀ id ∈ w.executed, id ∈ w.live.state.events.ids ∧ id ∉ w.deniedActions
  requests : ∀ id, some id ∈ w.requests → id ∈ w.live.state.events.ids ∧ id ∉ w.deniedMessages

theorem PhaseOk.mono (h : w.PhaseOk) (hphase : w'.phase = w.phase)
    (hids : ∀ id ∈ w.live.state.events.ids, id ∈ w'.live.state.events.ids)
    (hactions : ∀ id ∈ w.live.state.events.ids, id ∈ w'.deniedActions → id ∈ w.deniedActions)
    (hblocked : ∀ id, (w.live.state.blockedActions.lookup id).isSome →
      (w'.live.state.blockedActions.lookup id).isSome) : w'.PhaseOk := by
  unfold PhaseOk at h ⊢
  rw [hphase]
  cases hp : w.phase with
  | between => trivial
  | responding actions =>
    rw [hp] at h
    exact fun e he => ⟨hids _ (h e he).1, fun hd => hblocked _ ((h e he).2 (hactions _ (h e he).1 hd))⟩
  | executing batch =>
    rw [hp] at h
    exact fun e he => ⟨hids _ (h e he).1, fun hn hd => (h e he).2 hn (hactions _ (h e he).1 hd)⟩

theorem lastMessage_eq {denied messages rejecting : List EventID} {l : List Event}
    (hl : Enforced denied messages rejecting w.live.state l) : w.lastMessage = lastUserMessage l := by
  simp only [lastMessage, activeBranch_eq hl.active]

namespace Consistent

theorem initial : Consistent {} where
  valid := ⟨fun i e hi => by simp at hi, nofun⟩
  log := rfl
  base := ⟨fun i e hi => by simp [reloaded, withLog] at hi, nofun⟩
  actionsLogged := nofun
  messagesLogged := nofun
  current := ⟨[], .root, by simp, nofun⟩
  saved := fun h => absurd rfl h
  phase := trivial
  executed := nofun
  requests := nofun

/-- What neither writes nor appends keeps the invariant with that of the state. -/
theorem of_state (hw : w.Consistent) (htree : w.live.state.SameTree w'.live.state)
    (hstore : w'.live.store = w.live.store) (hactions : w'.deniedActions = w.deniedActions)
    (hmessages : w'.deniedMessages = w.deniedMessages) (hexecuted : w'.executed = w.executed)
    (hrequests : ∀ id, some id ∈ w'.requests → some id ∈ w.requests ∨
      id ∈ w.live.state.events.ids ∧ id ∉ w.deniedMessages)
    (hcurrent : ∃ l, Enforced w.deniedActions w.deniedMessages w'.phase.rejecting w'.live.state l)
    (hphase : w'.PhaseOk) : w'.Consistent := by
  have hreload : w'.reloaded = w.reloaded := by simp only [reloaded, hstore]
  refine ⟨htree.valid hw.valid, ?_, hreload ▸ hw.base, ?_, ?_, ?_, ?_, hphase, ?_, ?_⟩
  · rw [hstore, hw.log, htree.events]
  · rw [hactions, htree.events]
    exact hw.actionsLogged
  · rw [hmessages, htree.events]
    exact hw.messagesLogged
  · rwa [hactions, hmessages]
  · rw [hstore, hreload, hactions, hmessages]
    exact hw.saved
  · rw [hexecuted, hactions, htree.events]
    exact hw.executed
  · intro id hid
    rw [hmessages, htree.events]
    exact (hrequests id hid).elim (hw.requests id) fun h => h

/-- What appends one event keeps the invariant with that of the state. -/
theorem of_append (hw : w.Consistent) {t s' : ConversationState} {e : Event} (htree : w.live.state.SameTree t)
    (h : t.appendEvent e = .ok s') (htree' : s'.SameTree w'.live.state)
    (hstore : w'.live.store = { w.live.store with events := s'.events })
    (hactions : ∀ id ∈ w'.deniedActions, id ∈ w.deniedActions ∨ id = e.id)
    (hmessages : ∀ id ∈ w'.deniedMessages, id ∈ w.deniedMessages ∨ id = e.id)
    (hexecuted : w'.executed = w.executed) (hrequests : w'.requests = w.requests)
    (hcurrent : ∃ l, Enforced w'.deniedActions w'.deniedMessages w'.phase.rejecting w'.live.state l)
    (hphase : w'.PhaseOk) : w'.Consistent := by
  have ht := htree.valid hw.valid
  obtain ⟨log, hlog, hs'⟩ := appendEvent_ok h
  have hev : s'.events = log := by
    rw [hs']
    split <;> rfl
  have hids : w'.live.state.events.ids = w.live.state.events.ids ++ [e.id] := by
    rw [htree'.events, hev, EventLog.ids_append hlog, htree.events, stampParentId_id]
  -- The id of the event is new, so that what was denied before does not name it.
  have hfresh : e.id ∉ w.live.state.events.ids := by
    rw [← htree.events]
    simpa using (EventLog.append_ok hlog).1
  have hin : ∀ id ∈ w.live.state.events.ids, id ∈ w'.live.state.events.ids :=
    fun id hid => hids ▸ List.mem_append_left _ hid
  have hnew : e.id ∈ w'.live.state.events.ids := by simp [hids]
  have hactions' : ∀ id ∈ w.live.state.events.ids, id ∈ w'.deniedActions → id ∈ w.deniedActions :=
    fun id hid hd => (hactions id hd).resolve_right fun heq => hfresh (heq ▸ hid)
  have hmessages' : ∀ id ∈ w.live.state.events.ids, id ∈ w'.deniedMessages → id ∈ w.deniedMessages :=
    fun id hid hd => (hmessages id hd).resolve_right fun heq => hfresh (heq ▸ hid)
  have hreload : w'.reloaded.events = s'.events := by simp only [reloaded, hstore, withLog]
  -- A branch of the stored log is a branch of the longer one.
  have hbranch : ∀ {leaf l}, w.reloaded.events.Branch leaf l → w'.reloaded.events.Branch leaf l := by
    intro leaf l hb
    rw [hreload]
    refine branch_appendEvent ht h ?_
    rwa [htree.events, ← hw.log]
  refine ⟨htree'.valid (ht.appendEvent h), ?_, ⟨?_, ?_⟩, ?_, ?_, hcurrent, ?_, hphase, ?_, ?_⟩
  · rw [hstore, htree'.events]
  · rw [hreload]
    exact (ht.appendEvent h).log
  · intro id hid
    rw [hreload, ← htree'.events]
    refine hin id ?_
    rw [← hw.log]
    refine hw.base.leaf id ?_
    simpa only [reloaded, hstore, withLog] using hid
  · exact fun id hid => (hactions id hid).elim (fun h => hin id (hw.actionsLogged id h)) fun heq => heq ▸ hnew
  · exact fun id hid => (hmessages id hid).elim (fun h => hin id (hw.messagesLogged id h)) fun heq => heq ▸ hnew
  · intro hleaf
    rw [hstore] at hleaf
    obtain ⟨l, hl⟩ := hw.saved hleaf
    -- A HEAD that was saved is resolved to the same leaf.
    have hres : w'.reloaded.resolveActiveLeaf = w.reloaded.resolveActiveLeaf := by
      obtain ⟨leaf, hsome⟩ := Option.ne_none_iff_exists'.1 hleaf
      rw [resolveActiveLeaf_of_leaf (s := w.reloaded) hsome]
      refine resolveActiveLeaf_of_leaf ?_
      simpa only [reloaded, hstore, withLog] using hsome
    have hlogged : ∀ x ∈ l, x.id ∈ w.live.state.events.ids := by
      intro x hx
      rw [← hw.log]
      exact EventLog.mem_ids.2 ⟨x, hl.active.subset hx, rfl⟩
    refine ⟨l, hres ▸ hbranch hl.active, fun x hx hd => ?_, fun id hid hd => ?_⟩
    · have hx' := hactions' _ (hlogged x (getUnmatchedActions_subset l hx)) hd
      simpa only [reloaded, hstore, withLog] using hl.actions x hx hx'
    · obtain ⟨x, hx, rfl⟩ := lastUserMessage_mem hid
      have hx' := hmessages' _ (hlogged x hx) hd
      simpa only [reloaded, hstore, withLog] using hl.message x.id hid hx'
  · intro id hid
    rw [hexecuted] at hid
    obtain ⟨hlogged, hnot⟩ := hw.executed id hid
    exact ⟨hin id hlogged, fun hd => hnot (hactions' id hlogged hd)⟩
  · intro id hid
    rw [hrequests] at hid
    obtain ⟨hlogged, hnot⟩ := hw.requests id hid
    exact ⟨hin id hlogged, fun hd => hnot (hmessages' id hlogged hd)⟩

/-- The step that took the denial out has finished the run. -/
theorem finished_of_consumed (hw : w.Consistent) (h : w.Consumed) : w.live.state.executionStatus = .finished := by
  obtain ⟨l, hl⟩ := hw.current
  obtain ⟨id, hid, hd, hlookup⟩ := h
  rw [lastMessage_eq hl] at hid
  have hblock := (hl.message id hid hd).2
  rw [hlookup] at hblock
  exact hblock.resolve_left nofun

/-- A change of the status that does not get the conversation going again after
a denied message has stopped it. -/
theorem assignStatus (hw : w.Consistent) (hin : 0 < w.live.saveDepth) {status : ConversationExecutionStatus}
    (hgo : status ≠ .finished → ¬ w.Consumed) :
    Consistent { w with live := w.live.assign (.executionStatus status) none } := by
  obtain ⟨l, hl⟩ := hw.current
  have htree : w.live.state.SameTree (w.live.assign (.executionStatus status) none).state := by
    rw [LiveState.assign_state]
    exact ⟨rfl, rfl, rfl⟩
  refine hw.of_state htree (LiveState.assign_store hin _) rfl rfl rfl (fun _ h => .inl h) ⟨l, ?_, ?_, ?_⟩ ?_
  · rw [htree.resolve, htree.events]
    exact hl.active
  · simpa [FieldAssignment.apply] using hl.actions
  · intro id hid hd
    rw [LiveState.assign_state]
    refine ⟨(hl.message id hid hd).1, ?_⟩
    by_cases hfin : status = .finished
    · exact .inr hfin
    · refine .inl ?_
      by_contra hnone
      exact hgo hfin ⟨id, by rwa [lastMessage_eq hl], hd, Option.not_isSome_iff_eq_none.1 hnone⟩
  · exact hw.phase.mono rfl (by simp [FieldAssignment.apply]) (fun _ _ h => h) (by simp [FieldAssignment.apply])

theorem emit (hw : w.Consistent) (hin : 0 < w.live.saveDepth) {new : NewId} {body : EventBody}
    (hfresh : w.Fresh new) (huser : (new.event body).isUserMessage = false)
    (hexec : (new.event body).isExecutable = false) :
    Consistent { w with live := w.live.appendEvent (new.event body) } := by
  obtain ⟨l, hl⟩ := hw.current
  obtain ⟨s', hs'⟩ := hw.valid.appendEvent_isOk (e := new.event body) hfresh nofun
  obtain ⟨hstate, hstore, -⟩ := LiveState.appendEvent_inside hin hs'
  obtain ⟨hblocked, hstatus⟩ := appendEvent_fields hs'
  obtain ⟨hmessages, hlast⟩ := appendEvent_messages hs'
  have htree : s'.SameTree (w.live.appendEvent (new.event body)).state := by
    rw [hstate]
    exact ⟨rfl, rfl, rfl⟩
  refine hw.of_append ⟨rfl, rfl, rfl⟩ hs' htree hstore (fun _ h => .inl h) (fun _ h => .inl h) rfl rfl ?_ ?_
  · refine Enforced.append hw.valid hl.active rfl hs' htree (fun x hx _ hd => ?_) ?_ ?_
    · rw [hstate, hblocked]
      exact hl.actions x hx hd
    · simp [hexec]
    · rw [huser, hstate, hmessages, hlast, hstatus]
      exact hl.message
  · refine hw.phase.mono rfl ?_ (fun _ _ h => h) ?_
    · rw [hstate]
      exact fun id hid => mem_ids_appendEvent hs' hid
    · rw [hstate, hblocked]
      exact fun _ h => h

/-- A user message, whatever the status was set to before. If a hook denies it,
the agent finds it blocked. -/
theorem userMessage (hw : w.Consistent) (hin : 0 < w.live.saveDepth) {live : LiveState}
    (hlive : live.state = { w.live.state with executionStatus := live.state.executionStatus })
    (hlivestore : live.store = w.live.store) (hlivedepth : live.saveDepth = w.live.saveDepth) {m : UserSubmission}
    (hid : w.Fresh m.id) (hreplacement : w.Fresh m.replacementId) (hok : m.denial.isSome → m.replaced = false) :
    ({ w with live }.onUserMessage m).Consistent := by
  obtain ⟨l, hl⟩ := hw.current
  obtain ⟨hp, huser, hexec, heid⟩ := m.event_spec
  have hfresh : m.event.id ∉ w.live.state.events.ids := by
    rw [heid]
    split
    · exact hreplacement
    · exact hid
  obtain ⟨hstate, hstore, hdepth, hdenied⟩ := LiveState.handleUserPromptSubmit_spec (hlivedepth ▸ hin) m
  have htree : w.live.state.SameTree (live.handleUserPromptSubmit m).state := by
    rw [hstate, hlive]
    exact ⟨rfl, rfl, rfl⟩
  have hin' : 0 < (live.handleUserPromptSubmit m).saveDepth := hdepth ▸ hlivedepth ▸ hin
  obtain ⟨s', hs'⟩ := (htree.valid hw.valid).appendEvent_isOk (e := m.event) (htree.events ▸ hfresh) (by simp [hp])
  obtain ⟨happ, hstore', hdepth'⟩ := LiveState.appendEvent_inside hin' hs'
  have hmessages := (appendEvent_messages hs').1
  have hfinal : ({ w with live }.onUserMessage m).live.state = { s' with lastUserMessageId := some m.event.id } := by
    simp only [HookedConversation.onUserMessage, LiveState.assign_state, happ, FieldAssignment.apply]
  have htree' : s'.SameTree ({ w with live }.onUserMessage m).live.state := by
    rw [hfinal]
    exact ⟨rfl, rfl, rfl⟩
  have hactions : s'.blockedActions = w.live.state.blockedActions := by
    rw [(appendEvent_fields hs').1, hstate, hlive]
  refine hw.of_append htree hs' htree' ?_ (fun _ h => .inl h) ?_ rfl rfl ?_ ?_
  · simp only [HookedConversation.onUserMessage]
    rw [LiveState.assign_store (hdepth' ▸ hin'), hstore', hstore, hlivestore]
  · intro id hid
    simp only [HookedConversation.onUserMessage] at hid
    split at hid
    · exact (List.mem_cons.1 hid).symm
    · exact .inl hid
  · refine Enforced.append (htree.valid hw.valid) (by rw [htree.resolve, htree.events]; exact hl.active) hp hs' htree'
      (fun x hx _ hd => ?_) ?_ ?_
    · rw [hfinal, hactions]
      exact hl.actions x hx hd
    · simp [hexec]
    · rw [huser, hfinal]
      rintro id ⟨⟩ hd
      refine ⟨rfl, .inl ?_⟩
      simp only [HookedConversation.onUserMessage] at hd
      split at hd
      · rename_i hdenial
        have hkept : m.event.id = m.id.id := by
          rw [heid, hok hdenial]
          rfl
        rw [hmessages, hkept]
        exact hdenied hdenial
      · exact absurd (hw.messagesLogged _ hd) hfresh
  · refine hw.phase.mono rfl ?_ (fun _ _ h => h) ?_
    · rw [htree'.events]
      intro id hmem
      exact mem_ids_appendEvent hs' (htree.events ▸ hmem)
    · rw [hfinal, hactions]
      exact fun _ h => h

theorem onUserMessage (hw : w.Consistent) (hin : 0 < w.live.saveDepth) {m : UserSubmission} (hid : w.Fresh m.id)
    (hreplacement : w.Fresh m.replacementId) (hok : m.denial.isSome → m.replaced = false) :
    (w.onUserMessage m).Consistent :=
  hw.userMessage hin rfl rfl rfl hid hreplacement hok

theorem sendMessage (hw : w.Consistent) (hin : 0 < w.live.saveDepth) {m : UserSubmission} (hid : w.Fresh m.id)
    (hreplacement : w.Fresh m.replacementId) (hok : m.denial.isSome → m.replaced = false) :
    (w.sendMessage m).Consistent := by
  unfold HookedConversation.sendMessage
  split
  · exact hw.userMessage hin (by simp [FieldAssignment.apply]) (LiveState.assign_store hin _) (by simp) hid hreplacement hok
  · exact hw.onUserMessage hin hid hreplacement hok

/-- An action of the response. If a hook denies it, `prepare` finds it blocked. -/
theorem act (hw : w.Consistent) (hin : 0 < w.live.saveDepth) {c : ActionSubmission} {actions : List Event}
    (hphase : w.phase = .responding actions) (hfresh : w.Fresh c.id) :
    Consistent { w.onAction c with
      phase := .responding (if c.event.isExecutable then actions ++ [c.event] else actions) } := by
  obtain ⟨l, hl⟩ := hw.current
  obtain ⟨hp, huser, heid, -⟩ := c.event_spec
  rw [Fresh, ← heid] at hfresh
  obtain ⟨hstate, hstore, hdepth, hkept, hdenied⟩ := LiveState.handlePreToolUse_spec hin c
  have htree : w.live.state.SameTree (w.live.handlePreToolUse c).state := by
    rw [hstate]
    exact ⟨rfl, rfl, rfl⟩
  obtain ⟨s', hs'⟩ := (htree.valid hw.valid).appendEvent_isOk (e := c.event)
    (htree.events ▸ hfresh) (by simp [hp])
  obtain ⟨happ, hstore', -⟩ := LiveState.appendEvent_inside (hdepth ▸ hin) hs'
  obtain ⟨hblocked, hstatus⟩ := appendEvent_fields hs'
  obtain ⟨hmessages, hlast⟩ := appendEvent_messages hs'
  have hfinal : (w.onAction c).live.state = s' := happ
  have htree' : s'.SameTree (w.onAction c).live.state := by
    rw [hfinal]
    exact ⟨rfl, rfl, rfl⟩
  have hkept' : ∀ id, (w.live.state.blockedActions.lookup id).isSome → (s'.blockedActions.lookup id).isSome := by
    rw [hblocked]
    exact hkept
  have hnew : ∀ id ∈ (w.onAction c).deniedActions, id ∈ w.deniedActions ∨ id = c.event.id := by
    intro id hid
    simp only [onAction] at hid
    split at hid
    · exact (List.mem_cons.1 hid).symm
    · exact .inl hid
  have hold : ∀ id ∈ w.live.state.events.ids, id ∈ (w.onAction c).deniedActions → id ∈ w.deniedActions :=
    fun id hid hd => (hnew id hd).resolve_right fun heq => hfresh (heq ▸ hid)
  have hself : c.event.id ∈ (w.onAction c).deniedActions → (s'.blockedActions.lookup c.event.id).isSome := by
    intro hd
    simp only [onAction] at hd
    split at hd
    · rw [hblocked]
      exact hdenied ‹_›
    · exact absurd (hw.actionsLogged _ hd) hfresh
  refine hw.of_append htree hs' htree' (by simp only [onAction, hstore', hstore]) hnew (fun _ h => .inl h) rfl rfl ?_ ?_
  · refine Enforced.append (htree.valid hw.valid) (by rw [htree.resolve, htree.events]; exact hl.active) hp hs' htree'
      (fun x hx _ hd => .inr ?_) (fun _ hd => .inr (hfinal ▸ hself hd)) ?_
    · have hlogged : x.id ∈ w.live.state.events.ids :=
        EventLog.mem_ids.2 ⟨x, hl.active.subset (getUnmatchedActions_subset l hx), rfl⟩
      have hblock := hl.actions x hx (hold x.id hlogged hd)
      rw [hphase] at hblock
      rw [hfinal]
      exact hkept' _ (hblock.resolve_left (by simp [StepPhase.rejecting]))
    · rw [huser, hfinal, hmessages, hlast, hstatus, hstate]
      exact hl.message
  · have hactions := hw.phase
    simp only [PhaseOk, hphase] at hactions ⊢
    rw [hfinal]
    have hlog : ∀ e ∈ actions, e.id ∈ s'.events.ids ∧
        (e.id ∈ (w.onAction c).deniedActions → (s'.blockedActions.lookup e.id).isSome) := by
      intro e he
      obtain ⟨hmem, hblock⟩ := hactions e he
      exact ⟨mem_ids_appendEvent hs' (htree.events ▸ hmem), fun hd => hkept' _ (hblock (hold _ hmem hd))⟩
    split
    · exact List.forall_mem_append.2 ⟨hlog, List.forall_mem_singleton.2 ⟨id_mem_appendEvent hs', hself⟩⟩
    · exact hlog

/-- What `prepare` finds blocked is to be rejected, the rest was not denied. -/
theorem prepare (hw : w.Consistent) (hin : 0 < w.live.saveDepth) (hnone : w.phase.rejecting = [])
    {actions : List Event} (hactions : ∀ e ∈ actions, e.id ∈ w.live.state.events.ids ∧
      (e.id ∈ w.deniedActions → (w.live.state.blockedActions.lookup e.id).isSome)) :
    (w.prepare actions).Consistent := by
  obtain ⟨l, hl⟩ := hw.current
  have hsub := truncateAtFinish_subset actions
  obtain ⟨hstate, hstore, -, hout, hpop⟩ :=
    LiveState.popBlockedActions_spec (Agent.truncateAtFinish actions).1 w.live hin
  have htree : w.live.state.SameTree (w.prepare actions).live.state := by
    rw [HookedConversation.prepare, hstate]
    exact ⟨rfl, rfl, rfl⟩
  refine hw.of_state htree hstore rfl rfl rfl (fun _ h => .inl h) ⟨l, ?_, fun x hx hd => ?_, ?_⟩ ?_
  · rw [htree.resolve, htree.events]
    exact hl.active
  · have hblock := (hl.actions x hx hd).resolve_left (by simp [hnone])
    by_cases hmem : x.id ∈ (Agent.truncateAtFinish actions).1.map Event.id
    · obtain ⟨e, he, heq⟩ := List.mem_map.1 hmem
      refine .inl (List.mem_map.2 ⟨e, List.mem_filter.2 ⟨he, ?_⟩, heq⟩)
      rw [heq]
      exact (hpop x.id hmem).trans hblock
    · refine .inr ?_
      rw [HookedConversation.prepare, (hout x.id hmem).2]
      exact hblock
  · rw [HookedConversation.prepare, hstate]
    exact hl.message
  · intro e he
    obtain ⟨hlogged, hblock⟩ := hactions e (hsub he)
    refine ⟨htree.events ▸ hlogged, fun hn hd => ?_⟩
    have hsome := (hpop e.id (List.mem_map_of_mem he)).trans (hblock hd)
    exact Option.isSome_iff_ne_none.1 hsome hn

/-- A step executes what is pending, stops at a blocked message, or makes a
request that no denied message is the last of. -/
theorem agentStep (hw : w.Consistent) (hin : 0 < w.live.saveDepth) (hphase : w.phase = .between) {condenses : Bool}
    (hgo : w.live.state.executionStatus = .finished → ¬ w.Consumed) (h : w.agentStep condenses = some w') :
    w'.Consistent := by
  obtain ⟨l, hl⟩ := hw.current
  have hnone : w.phase.rejecting = [] := by rw [hphase]; rfl
  simp only [HookedConversation.agentStep, activeBranch_eq hl.active] at h
  split at h
  · cases h
    refine hw.prepare hin hnone fun e he => ⟨?_, fun hd => ?_⟩
    · exact EventLog.mem_ids.2 ⟨e, hl.active.subset (getUnmatchedActions_subset l he), rfl⟩
    · exact (hl.actions e he hd).resolve_left (by simp [hnone])
  · split at h
    · rename_i live hpop
      cases h
      obtain ⟨hstate, hstore, hdepth⟩ := LiveState.popBlockedMessage_some hin hpop
      have htree : w.live.state.SameTree (live.assign (.executionStatus .finished) none).state := by
        rw [LiveState.assign_state, hstate]
        exact ⟨rfl, rfl, rfl⟩
      refine hw.of_state htree ((LiveState.assign_store (hdepth ▸ hin) _).trans hstore) rfl rfl rfl
        (fun _ h => .inl h) ⟨l, ?_, ?_, fun id hid hd => ?_⟩ ?_
      · rw [htree.resolve, htree.events]
        exact hl.active
      · rw [LiveState.assign_state, hstate]
        exact hl.actions
      · rw [LiveState.assign_state, hstate]
        exact ⟨(hl.message id hid hd).1, .inr rfl⟩
      · simp only [PhaseOk, hphase]
    · rename_i hpop
      split at h
      · cases h
        exact hw
      · cases h
        refine hw.of_state ⟨rfl, rfl, rfl⟩ rfl rfl rfl rfl (fun id hid => ?_) ⟨l, hl.active, ?_, hl.message⟩
          (fun e he => absurd he List.not_mem_nil)
        · rcases List.mem_cons.1 hid with heq | hid
          · refine .inr ⟨?_, fun hd => ?_⟩
            · obtain ⟨e, he, rfl⟩ := lastUserMessage_mem heq.symm
              exact EventLog.mem_ids.2 ⟨e, hl.active.subset he, rfl⟩
            · obtain ⟨hlast, hblock⟩ := hl.message id heq.symm hd
              have hlookup := LiveState.popBlockedMessage_none hpop hlast
              rw [hlookup] at hblock
              refine hgo (hblock.resolve_left nofun) ⟨id, ?_, hd, hlookup⟩
              rw [lastMessage_eq hl]
              exact heq.symm
          · exact .inl hid
        · rw [hnone] at hl
          exact hl.actions

theorem iterate (hw : w.Consistent) (hin : 0 < w.live.saveDepth) (hphase : w.phase = .between) {condenses : Bool}
    (h : w.iterate condenses = some w') : w'.Consistent := by
  unfold HookedConversation.iterate at h
  split at h
  · cases h
  · cases h
  · cases h
  · rename_i hstatus
    refine agentStep (hw.assignStatus hin fun _ hc => ?_) (by simpa using hin) hphase (by simp [FieldAssignment.apply]) h
    rw [hw.finished_of_consumed hc] at hstatus
    cases hstatus
  · rename_i hfin _
    exact hw.agentStep hin hphase (fun hf => absurd hf hfin) h

theorem answer (hw : w.Consistent) (hin : 0 < w.live.saveDepth) {batch : ActionBatch}
    (hphase : w.phase = .executing batch) {new : NewId} (hfresh : w.Fresh new) {result : ObservationBaseEvent}
    (h : w.answer batch new result = some w') : w'.Consistent := by
  obtain ⟨l, hl⟩ := hw.current
  unfold HookedConversation.answer at h
  split at h
  · cases h
  · rename_i e rest hrest
    obtain ⟨a, ha, rfl⟩ := Option.map_eq_some_iff.1 h
    generalize hbody : answerBody e.id a (batch.blockedReasons.lookup e.id) result = body at h
    have hanswer : (new.event body).isUserMessage = false ∧ (new.event body).isExecutable = false ∧
        ((batch.blockedReasons.lookup e.id).isSome → ∀ x : Event, x.id = e.id → (new.event body).answers x = true) := by
      rw [← hbody]
      cases batch.blockedReasons.lookup e.id with
      | none => exact ⟨rfl, rfl, fun h => by cases h⟩
      | some reason => exact ⟨rfl, rfl, fun _ x hx => by simp [NewId.event, answerBody, Event.answers, hx]⟩
    obtain ⟨huser, hexec, hrejected⟩ := hanswer
    obtain ⟨s', hs'⟩ := hw.valid.appendEvent_isOk (e := new.event body) hfresh (fun _ hp => by cases hp)
    obtain ⟨hstate, hstore, -⟩ := LiveState.appendEvent_inside hin hs'
    obtain ⟨hblocked, hstatus⟩ := appendEvent_fields hs'
    obtain ⟨hmessages, hlast⟩ := appendEvent_messages hs'
    have htree : s'.SameTree (w.live.appendEvent (new.event body)).state := by
      rw [hstate]
      exact ⟨rfl, rfl, rfl⟩
    refine hw.of_append ⟨rfl, rfl, rfl⟩ hs' htree hstore (fun _ h => .inl h) (fun _ h => .inl h) rfl rfl ?_ ?_
    · refine Enforced.append hw.valid hl.active rfl hs' htree (fun x hx hans hd => ?_) ?_ ?_
      · rw [hstate, hblocked]
        refine (hl.actions x hx hd).imp_left fun hrej => ?_
        rw [hphase] at hrej
        obtain ⟨y, hy, hyx⟩ := List.mem_map.1 hrej
        obtain ⟨hmem, hsome⟩ := List.mem_filter.1 hy
        rw [hrest] at hmem
        rcases List.mem_cons.1 hmem with rfl | hmem
        · rw [hrejected hsome x hyx.symm] at hans
          cases hans
        · exact List.mem_map.2 ⟨y, List.mem_filter.2 ⟨hmem, hsome⟩, hyx⟩
      · simp [hexec]
      · rw [huser, hstate, hmessages, hlast, hstatus]
        exact hl.message
    · have hactions := hw.phase
      simp only [PhaseOk, hphase] at hactions ⊢
      rw [hstate]
      exact fun x hx => ⟨mem_ids_appendEvent hs' (hactions x hx).1, (hactions x hx).2⟩

/-- The batch is over, or a step is left with nothing to reject. -/
theorem between (hw : w.Consistent) (hnone : w.phase.rejecting = []) : Consistent { w with phase := .between } := by
  obtain ⟨l, hl⟩ := hw.current
  rw [hnone] at hl
  exact hw.of_state ⟨rfl, rfl, rfl⟩ rfl rfl rfl rfl (fun _ h => .inl h) ⟨l, hl⟩ trivial

theorem finalize (hw : w.Consistent) (hin : 0 < w.live.saveDepth) {batch : ActionBatch}
    (hphase : w.phase = .executing batch) (hdone : batch.unanswered = []) {followup : Option UserSubmission}
    (hfresh : ∀ m ∈ followup, w.Fresh m.id ∧ w.Fresh m.replacementId)
    (hok : ∀ m ∈ followup, m.denial.isSome → m.replaced = false) : (w.finalize batch followup).Consistent := by
  have hover := hw.between (by simp [hphase, StepPhase.rejecting, hdone])
  unfold HookedConversation.finalize
  dsimp only
  split
  · exact hover
  · cases followup with
    | none => exact hover.assignStatus hin (fun h => absurd rfl h)
    | some m => exact hover.onUserMessage hin (hfresh m rfl).1 (hfresh m rfl).2 (hok m rfl)

theorem enter (hw : w.Consistent) : Consistent { w with live := w.live.enter } :=
  hw.of_state ⟨rfl, rfl, rfl⟩ rfl rfl rfl rfl (fun _ h => .inl h) hw.current
    (hw.phase.mono rfl (fun _ h => h) (fun _ _ h => h) fun _ h => h)

/-- A save finds every denial in the state. -/
theorem save (hw : w.Consistent) (hnone : w.phase.rejecting = []) {live : LiveState} (hstate : live.state = w.live.state)
    (hstore : live.store = { w.live.store with base := w.live.state }) : Consistent { w with live } := by
  obtain ⟨l, hl⟩ := hw.current
  have hreload : reloaded { w with live } = w.live.state.withLog w.live.state.events := by
    rw [reloaded, hstore, hw.log]
  have hphase : PhaseOk { w with live } :=
    hw.phase.mono rfl (fun id h => by rwa [hstate]) (fun _ _ h => h) fun id h => by rwa [hstate]
  refine ⟨hstate ▸ hw.valid, ?_, ?_, ?_, ?_, ?_, fun _ => ⟨l, ?_⟩, hphase, ?_, ?_⟩
  · rw [hstore, hstate]
    exact hw.log
  · rw [hreload]
    exact ⟨hw.valid.log, hw.valid.leaf⟩
  · rw [hstate]
    exact hw.actionsLogged
  · rw [hstate]
    exact hw.messagesLogged
  · rw [hstate]
    exact hw.current
  · rw [hnone] at hl
    rw [hreload]
    exact ⟨hl.active, hl.actions, hl.message⟩
  · rw [hstate]
    exact hw.executed
  · rw [hstate]
    exact hw.requests

theorem exit (hw : w.Consistent) (hin : 0 < w.live.saveDepth)
    (hnone : w.live.saveDepth = 1 → w.phase.rejecting = []) :
    Consistent { w with live := w.live.exit, phase := if w.live.exit.saveDepth = 0 then .between else w.phase } := by
  have hdepth : w.live.exit.saveDepth = w.live.saveDepth - 1 := by
    simp only [LiveState.exit]
    split <;> rfl
  rw [hdepth]
  by_cases hlast : w.live.saveDepth = 1
  · rw [if_pos (by omega)]
    have hover := hw.between (hnone hlast)
    unfold LiveState.exit
    dsimp only
    split
    · exact hover.save rfl rfl rfl
    · exact hover.of_state ⟨rfl, rfl, rfl⟩ rfl rfl rfl rfl (fun _ h => .inl h) hover.current trivial
  · have hmore : ¬ (w.live.saveDepth - 1 = 0) := by omega
    rw [if_neg hmore]
    unfold LiveState.exit
    dsimp only
    rw [if_neg fun h => hmore h.1]
    exact hw.of_state ⟨rfl, rfl, rfl⟩ rfl rfl rfl rfl (fun _ h => .inl h) hw.current
      (hw.phase.mono rfl (fun _ h => h) (fun _ _ h => h) fun _ h => h)

/-- What `create` makes of the store after a crash. -/
theorem create (hw : w.Consistent) {live : LiveState} (h : LiveState.create w.live.store = .ok live) :
    live.store = w.live.store ∧
      ∃ view leaf, live.state = { w.reloaded with cachedView := view, viewBranchLeaf := leaf } := by
  obtain ⟨l, hl⟩ := hw.base.exists_branch
  have hkept : w.live.store.base.leafEventId.any (· ∉ w.live.store.events.ids) = false := by
    cases hleaf : w.live.store.base.leafEventId with
    | none => rfl
    | some leaf => simpa using show leaf ∈ w.live.store.events.ids from hw.base.leaf leaf hleaf
  have hrepair : (w.live.store.base.withLog w.live.store.events).repairMissingLeaf = w.reloaded :=
    hw.base.repairMissingLeaf
  simp only [LiveState.create, ConversationState.resume, hrepair, ConversationState.rebuildView, hl.pathToRoot, hkept,
    bind, Except.bind, pure, Except.pure, Bool.false_eq_true, if_false] at h
  cases h
  exact ⟨rfl, _, _, rfl⟩

theorem crash (hw : w.Consistent) {live : LiveState} (h : LiveState.create w.live.store = .ok live)
    (hleaf : w.live.store.base.leafEventId = none → w.deniedActions = [] ∧ w.deniedMessages = []) :
    Consistent { w with live, phase := .between } := by
  obtain ⟨hstore, view, leaf, hstate⟩ := hw.create h
  have hids : live.state.events.ids = w.live.state.events.ids := by
    rw [hstate, ← hw.log]
    rfl
  have hreload : reloaded { w with live, phase := .between } = w.reloaded := by rw [reloaded, hstore, reloaded]
  have hcurrent : ∃ l, Enforced w.deniedActions w.deniedMessages [] w.reloaded l := by
    by_cases hnone : w.live.store.base.leafEventId = none
    · obtain ⟨hactions, hmessages⟩ := hleaf hnone
      obtain ⟨l, hl⟩ := hw.base.exists_branch
      rw [hactions, hmessages]
      exact ⟨l, hl, fun _ _ h => absurd h List.not_mem_nil, fun _ _ h => absurd h List.not_mem_nil⟩
    · exact hw.saved hnone
  obtain ⟨l, hl⟩ := hcurrent
  refine ⟨?_, ?_, hreload ▸ hw.base, ?_, ?_, ⟨l, ?_⟩, ?_, trivial, ?_, ?_⟩
  · rw [hstate]
    exact ⟨hw.base.log, hw.base.leaf⟩
  · rw [hstore, hstate]
    rfl
  · rw [hids]
    exact hw.actionsLogged
  · rw [hids]
    exact hw.messagesLogged
  · have htree : w.reloaded.SameTree live.state := by
      rw [hstate]
      exact ⟨rfl, rfl, rfl⟩
    refine ⟨?_, ?_, ?_⟩
    · rw [htree.resolve, htree.events]
      exact hl.active
    · rw [hstate]
      exact hl.actions
    · rw [hstate]
      exact hl.message
  · rw [hreload, hstore]
    exact hw.saved
  · rw [hids]
    exact hw.executed
  · rw [hids]
    exact hw.requests

/-- Executing actions that were not denied. -/
theorem execute (hw : w.Consistent) {ids : List EventID}
    (hids : ∀ id ∈ ids, id ∈ w.live.state.events.ids ∧ id ∉ w.deniedActions) :
    Consistent { w with executed := ids ++ w.executed } := by
  refine ⟨hw.valid, hw.log, hw.base, hw.actionsLogged, hw.messagesLogged, hw.current, hw.saved, hw.phase, ?_, hw.requests⟩
  exact List.forall_mem_append.2 ⟨hids, hw.executed⟩

theorem rerunActions (hw : w.Consistent) {count : Nat} (hok : ∀ id ∈ w.rerun count, id ∉ w.deniedActions) :
    Consistent { w with executed := w.rerun count ++ w.executed } := by
  refine hw.execute fun id hid => ⟨?_, hok id hid⟩
  obtain ⟨e, he, rfl⟩ := List.mem_map.1 hid
  exact EventLog.mem_ids.2 ⟨e, (List.mem_filter.1 (List.mem_of_mem_take he)).1, rfl⟩

theorem runTool (hw : w.Consistent) {batch : ActionBatch} (hphase : w.phase = .executing batch) {id : EventID}
    (h : batch.actions.any (fun e => e.id = id ∧ batch.blockedReasons.lookup e.id = none) = true) :
    Consistent { w with executed := id :: w.executed } := by
  refine hw.execute (List.forall_mem_singleton.2 ?_)
  obtain ⟨e, he, hrun⟩ := List.any_eq_true.1 h
  obtain ⟨rfl, hnone⟩ := of_decide_eq_true hrun
  have hactions := hw.phase
  simp only [PhaseOk, hphase] at hactions
  exact ⟨(hactions e he).1, (hactions e he).2 hnone⟩

theorem blockStep {op : HookOp} (hw : w.Consistent) (hin : 0 < w.live.saveDepth) (hok : w.Allowed op)
    (h : w.blockStep op = some w') : w'.Consistent := by
  cases op with
  | exit =>
    cases h
    exact hw.exit hin hok
  | emit new body =>
    obtain ⟨⟨hfresh, huser, hexec⟩, h⟩ := Option.ite_none_right_eq_some.1 h
    cases h
    exact hw.emit hin hfresh huser hexec
  | assignStatus status =>
    cases h
    exact hw.assignStatus hin hok
  | sendMessage m =>
    obtain ⟨⟨hid, hreplacement⟩, h⟩ := Option.ite_none_right_eq_some.1 h
    cases h
    exact hw.sendMessage hin hid hreplacement hok
  | emitUserMessage m =>
    obtain ⟨⟨hid, hreplacement⟩, h⟩ := Option.ite_none_right_eq_some.1 h
    cases h
    exact hw.onUserMessage hin hid hreplacement hok
  | iterate condenses =>
    simp only [HookedConversation.blockStep] at h
    split at h
    · exact hw.iterate hin ‹_› h
    · cases h
  | condense condenses =>
    simp only [HookedConversation.blockStep] at h
    split at h
    · exact hw.agentStep hin ‹_› (fun _ => hok) h
    · cases h
  | act c =>
    simp only [HookedConversation.blockStep] at h
    split at h
    · obtain ⟨hfresh, h⟩ := Option.ite_none_right_eq_some.1 h
      cases h
      exact hw.act hin ‹_› hfresh
    · cases h
  | endStep =>
    simp only [HookedConversation.blockStep] at h
    split at h
    · rename_i hphase
      cases h
      exact hw.between (by rw [hphase]; rfl)
    · cases h
  | executeActions =>
    simp only [HookedConversation.blockStep] at h
    split at h
    · rename_i hphase
      cases h
      refine hw.prepare hin (by rw [hphase]; rfl) ?_
      have hactions := hw.phase
      simpa only [PhaseOk, hphase] using hactions
    · cases h
  | runTool id =>
    simp only [HookedConversation.blockStep] at h
    split at h
    · obtain ⟨⟨-, hrun⟩, h⟩ := Option.ite_none_right_eq_some.1 h
      cases h
      exact hw.runTool ‹_› hrun
    · cases h
  | answer new result =>
    simp only [HookedConversation.blockStep] at h
    split at h
    · obtain ⟨hfresh, h⟩ := Option.ite_none_right_eq_some.1 h
      exact hw.answer hin ‹_› hfresh h
    · cases h
  | finalize followup =>
    simp only [HookedConversation.blockStep] at h
    split at h
    · obtain ⟨⟨hdone, hfresh⟩, h⟩ := Option.ite_none_right_eq_some.1 h
      cases h
      refine hw.finalize hin ‹_› hdone hfresh ?_
      rintro m rfl
      exact hok
    · cases h
  | enter | rerunActions _ | crash => cases h

/-- One step that meets the condition. -/
theorem step {op : HookOp} (hw : w.Consistent) (hok : w.Allowed op) (h : w.step op = some w') : w'.Consistent := by
  unfold HookedConversation.step at h
  split at h
  · cases h
    exact hw.enter
  · cases h
    exact hw.rerunActions hok
  · split at h
    · cases h
      exact hw.crash ‹_› hok
    · cases h
  · split at h
    · cases h
    · exact hw.blockStep (Nat.pos_of_ne_zero ‹_›) hok h

end Consistent

/-- In a run of allowed steps no denied action is executed, and no LLM request
has a denied message as the most recent user message of the active branch. -/
theorem denials_enforced_of_reaches (h : Reaches step Allowed {} w) :
    (∀ id ∈ w.executed, id ∉ w.deniedActions) ∧ ∀ id, some id ∈ w.requests → id ∉ w.deniedMessages := by
  have hw : w.Consistent := h.invariant .initial fun _ _ _ hw hok hstep => hw.step hok hstep
  exact ⟨fun id hid => (hw.executed id hid).2, fun id hid => (hw.requests id hid).2⟩

def call (name : String) : ActionEvent :=
  { action := some (.other name), toolName := "terminal", toolCall := ⟨name, "terminal", "\x7b\x7d"⟩, toolCallId := name
    llmResponseId := "r" }

/-- Two actions wait for confirmation, the second one denied; the process dies
while the first is executed, and they are executed again. Then a message is
denied. -/
def confirmedBatch : List HookOp :=
  [.enter, .emit { id := "s" } (.systemPrompt "" none), .exit,
    .enter, .sendMessage ⟨{ id := "m1" }, { id := "m1'" }, ["go"], [], none, some "be brief"⟩, .exit,
    .enter, .iterate false, .act ⟨{ id := "a1" }, call "c1", none⟩,
    .act ⟨{ id := "a2" }, call "c2", some "no"⟩, .endStep, .exit,
    .enter, .iterate false, .runTool "a1", .crash,
    .enter, .iterate false, .runTool "a1",
    .answer { id := "o1" } { toolName := "terminal", toolCallId := "c1", kind := .observation [] [] "a1" },
    .answer { id := "o2" } { toolName := "terminal", toolCallId := "c2", kind := .observation [] [] "a2" },
    .finalize none, .exit,
    .enter, .sendMessage ⟨{ id := "m2" }, { id := "m2'" }, ["rm"], [], some "no", none⟩, .exit,
    .enter, .iterate false, .exit]

theorem denials_enforced_of_reaches_confirmedBatch :
    ∃ w, Reaches step Allowed {} w ∧ w.executed = ["a1", "a1"] ∧ w.deniedActions = ["a2"] ∧
      w.requests = [some "m1'"] ∧ w.deniedMessages = ["m2"] ∧ (∀ id ∈ w.executed, id ∉ w.deniedActions) ∧
      ∀ id, some id ∈ w.requests → id ∉ w.deniedMessages := by
  have hrun : (execAllowed step Allowed {} confirmedBatch).map
      (fun w => (w.executed, w.deniedActions, w.requests, w.deniedMessages)) =
      some (["a1", "a1"], ["a2"], [some "m1'"], ["m2"]) := by
    decide +kernel
  obtain ⟨w, hw, hval⟩ := Option.map_eq_some_iff.1 hrun
  simp only [Prod.mk.injEq] at hval
  obtain ⟨hexecuted, hactions, hrequests, hmessages⟩ := hval
  have hreach := reaches_of_execAllowed .init hw
  exact ⟨w, hreach, hexecuted, hactions, hrequests, hmessages, denials_enforced_of_reaches hreach⟩

/-- A denied message that is replaced for its context is answered. -/
theorem denials_ignored_context :
    ¬ ∀ w, Reaches step (fun _ _ => True) {} w →
      (∀ id ∈ w.executed, id ∉ w.deniedActions) ∧ ∀ id, some id ∈ w.requests → id ∉ w.deniedMessages := by
  intro hall
  have hrun : (exec step {} [.enter, .emit { id := "s" } (.systemPrompt "" none), .exit, .enter,
      .sendMessage ⟨{ id := "m" }, { id := "m'" }, ["rm"], [], some "no", some "be brief"⟩, .exit,
      .enter, .iterate false]).map
      (fun w => (w.requests, w.deniedMessages)) = some ([some "m'"], ["m'"]) := by
    decide +kernel
  obtain ⟨w, hw, hval⟩ := Option.map_eq_some_iff.1 hrun
  simp only [Prod.mk.injEq] at hval
  obtain ⟨hrequests, hmessages⟩ := hval
  have hdenied := (hall w (reaches_of_exec .init hw)).2 "m'"
  simp [hrequests, hmessages] at hdenied

end HookedConversation

end AgentSdk
