import Mathlib.Data.List.Basic
import Mathlib.Data.List.Nodup
/-!
# Events

The event types of `openhands.sdk.event`, with the fields that storage, the
view, recovery and the agent loop read. `Event` is the base class (`id`,
`parent_id`); its subclass is the `body`. Rendering, timestamps and metadata
are left out: nothing modelled here reads them.
-/

namespace AgentSdk

abbrev EventID := String
abbrev ToolCallID := String

/-- `ROOT_PARENT_ID`: the `parent_id` of an explicit tree root. -/
def rootParentId : EventID := "__root__"

theorem ne_rootParentId {id : EventID} (h : if id = rootParentId then False else True) : id ≠ rootParentId := by
  intro heq
  rwa [if_pos heq] at h

inductive SourceType where
  | agent | user | environment | hook
deriving DecidableEq, Repr

/-! ## LLM messages -/

inductive Role where
  | system | user | assistant | tool
deriving DecidableEq, Repr

theorem user_ne_tool : Role.user ≠ .tool := nofun

theorem assistant_ne_tool : Role.assistant ≠ .tool := nofun

structure MessageToolCall where
  id : ToolCallID
  name : String
  arguments : String
deriving DecidableEq, Repr

theorem MessageToolCall.id_eq (call : MessageToolCall) : call.id = call.id := rfl

/-- An LLM message. Each content block (text or image) is one string. -/
structure Message where
  role : Role
  content : List String
  toolCalls : Option (List MessageToolCall) := none
  toolCallId : Option ToolCallID := none
  name : Option String := none
  reasoningContent : Option String := none
  thinkingBlocks : List String := []
deriving DecidableEq, Repr

/-- `if message.tool_calls`: an empty list counts as no tool calls. -/
def Message.calls (m : Message) : List MessageToolCall := m.toolCalls.getD []

/-! ## Event bodies -/

/-- A validated action. The agent singles out `FinishAction` and `ThinkAction`. -/
inductive Action where
  | finish (message : String)
  | think (thought : String)
  | other (dump : String)
deriving DecidableEq, Repr

/-- `action` is `none` when the call did not validate (non-executable). Both
places that build an `ActionEvent` pass `tool_call_id=tool_call.id`. -/
structure ActionEvent where
  thought : List String := []
  reasoningContent : Option String := none
  thinkingBlocks : List String := []
  action : Option Action
  toolName : String
  toolCall : MessageToolCall
  toolCallId : ToolCallID
  llmResponseId : EventID
  callId : toolCallId = toolCall.id := by first | exact MessageToolCall.id_eq _ | exact Eq.refl _ | rfl
deriving DecidableEq

inductive RejectionSource where
  | user | hook
deriving DecidableEq, Repr

/-- What distinguishes the subclasses of `ObservationBaseEvent`. An
`AgentErrorEvent` has no `action_id`. -/
inductive ObservationKind where
  | observation (content : List String) (extendedContent : List String) (actionId : EventID)
  | userReject (rejectionReason : String) (rejectionSource : RejectionSource) (actionId : EventID)
  | agentError (error : String)
deriving DecidableEq, Repr

/-- `ObservationBaseEvent`: any answer to a tool call. -/
structure ObservationBaseEvent where
  toolName : String
  toolCallId : ToolCallID
  kind : ObservationKind
deriving DecidableEq, Repr

/-- `llm_message` comes from a client (role `user`) or from a response without
tool calls, so it never is a tool result or an assistant turn with calls. -/
structure MessageEvent where
  source : SourceType
  llmMessage : Message
  extendedContent : List String := []
  notTool : llmMessage.role ≠ .tool := by first | exact user_ne_tool | decide
  noCalls : llmMessage.role = .assistant → llmMessage.calls = [] := by decide
deriving DecidableEq

/-- A message of the user. -/
def MessageEvent.ofUser (content : List String) : MessageEvent :=
  { source := .user, llmMessage := { role := .user, content }, notTool := user_ne_tool, noCalls := nofun }

/-- `forgotten_event_ids` is a set: only membership is used. -/
structure Condensation where
  forgottenEventIds : List EventID := []
  summary : Option String := none
  summaryOffset : Option Nat := none
deriving DecidableEq, Repr

/-- `other` stands for the events that are neither sent to the LLM nor
treated specially: `PauseEvent`, `InterruptEvent`, `TokenEvent`,
`SecurityAnalysisEvent`, `HookExecutionEvent`, `LLMCompletionLogEvent` and
the like. -/
inductive EventBody where
  | systemPrompt (systemPrompt : String) (dynamicContext : Option String)
  | message (m : MessageEvent)
  | action (a : ActionEvent)
  | observation (o : ObservationBaseEvent)
  | condensationSummary (summary : String)
  | condensation (c : Condensation)
  | condensationRequest
  | conversationStateUpdate (key : String)
  | conversationError (code : String)
  | other (kind : String)
deriving DecidableEq

/-- `Event`. A validator rejects the reserved id. -/
structure Event where
  id : EventID
  parentId : Option EventID := none
  body : EventBody
  notRoot : id ≠ rootParentId := by exact ne_rootParentId trivial
deriving DecidableEq

namespace Event

/-- `isinstance(e, ActionEvent)`. -/
def action? (e : Event) : Option ActionEvent :=
  match e.body with
  | .action a => some a
  | _ => none

/-- `isinstance(e, ObservationBaseEvent)`. -/
def observation? (e : Event) : Option ObservationBaseEvent :=
  match e.body with
  | .observation o => some o
  | _ => none

/-- `isinstance(e, LLMConvertibleEvent)`. -/
def isLLMConvertible (e : Event) : Bool :=
  match e.body with
  | .systemPrompt _ _ | .message _ | .action _ | .observation _ | .condensationSummary _ => true
  | _ => false

def isStateUpdate (e : Event) : Bool :=
  match e.body with
  | .conversationStateUpdate _ => true
  | _ => false

/-- `isinstance(e, (ConversationStateUpdateEvent, ConversationErrorEvent))`:
the events that are no tree nodes when HEAD is resolved by lineage. -/
def isArtifact (e : Event) : Bool :=
  match e.body with
  | .conversationStateUpdate _ | .conversationError _ => true
  | _ => false

def isUserMessage (e : Event) : Bool :=
  match e.body with
  | .message m => m.source = .user
  | _ => false

/-- A call or an answer to one. -/
def isToolEvent (e : Event) : Bool := e.action?.isSome || e.observation?.isSome

/-- An `ActionEvent` whose `action` validated. -/
def isExecutable (e : Event) : Bool :=
  match e.body with
  | .action a => a.action.isSome
  | _ => false

/-- The tool call an `ActionEvent` makes or an observation-like event answers. -/
def toolCallId? (e : Event) : Option ToolCallID :=
  match e.body with
  | .action a => some a.toolCallId
  | .observation o => some o.toolCallId
  | _ => none

/-- An `ActionEvent` with the tool call id. -/
def requests (id : ToolCallID) (e : Event) : Bool := e.action?.any (·.toolCallId = id)

/-- An observation-like event with the tool call id. -/
def observes (id : ToolCallID) (e : Event) : Bool := e.observation?.any (·.toolCallId = id)

/-- An event apart from its place in the tree. -/
def unstamped (e : Event) : Event := { e with parentId := none }

@[simp] theorem unstamped_id (e : Event) : e.unstamped.id = e.id := rfl

@[simp] theorem unstamped_body (e : Event) : e.unstamped.body = e.body := rfl

theorem unstamped_eq_iff {e f : Event} : e.unstamped = f.unstamped ↔ e.id = f.id ∧ e.body = f.body := by
  simp [unstamped]

theorem unstamped_eq_self {e : Event} (h : e.parentId = none) : e.unstamped = e := by
  cases e
  cases h
  rfl

theorem action?_eq_some {e : Event} {a : ActionEvent} : e.action? = some a ↔ e.body = .action a := by
  unfold action?
  cases e.body <;> simp

theorem observation?_eq_some {e : Event} {o : ObservationBaseEvent} :
    e.observation? = some o ↔ e.body = .observation o := by
  unfold observation?
  cases e.body <;> simp

theorem isExecutable_iff {e : Event} : e.isExecutable = true ↔ ∃ a, e.action? = some a ∧ a.action.isSome := by
  unfold isExecutable action?
  cases e.body <;> simp

theorem observation?_of_action {e : Event} {a : ActionEvent} (h : e.action? = some a) :
    e.observation? = none := by
  rw [action?_eq_some] at h
  simp [observation?, h]

theorem action?_of_observation {e : Event} {o : ObservationBaseEvent} (h : e.observation? = some o) :
    e.action? = none := by
  rw [observation?_eq_some] at h
  simp [action?, h]

theorem requests_iff {id : ToolCallID} {e : Event} :
    e.requests id = true ↔ ∃ a, e.action? = some a ∧ a.toolCallId = id := by
  simp [requests, Option.any_eq_true]

theorem observes_iff {id : ToolCallID} {e : Event} :
    e.observes id = true ↔ ∃ o, e.observation? = some o ∧ o.toolCallId = id := by
  simp [observes, Option.any_eq_true]

theorem isToolEvent_of_action {e : Event} {a : ActionEvent} (h : e.action? = some a) : e.isToolEvent = true := by
  simp [isToolEvent, h]

theorem isToolEvent_of_requests {id : ToolCallID} {e : Event} (h : e.requests id = true) : e.isToolEvent = true := by
  obtain ⟨a, ha, -⟩ := requests_iff.1 h
  exact isToolEvent_of_action ha

theorem isToolEvent_of_observes {id : ToolCallID} {e : Event} (h : e.observes id = true) : e.isToolEvent = true := by
  obtain ⟨o, ho, -⟩ := observes_iff.1 h
  simp [isToolEvent, ho]

theorem isStateUpdate_of_isArtifact {e : Event} (h : e.isArtifact = false) : e.isStateUpdate = false := by
  unfold isArtifact at h
  unfold isStateUpdate
  split <;> simp_all

end Event

/-- A generated event id. -/
structure NewId where
  id : EventID
  notRoot : id ≠ rootParentId := by exact ne_rootParentId trivial

/-- An unstamped event of a generated id. -/
def NewId.event (new : NewId) (body : EventBody) : Event := { id := new.id, body, notRoot := new.notRoot }

def stateUpdateEvent (new : NewId) (key : String) : Event := new.event (.conversationStateUpdate key)

/-- `Condensation.summary_event` is built under the id `"{id}-summary"`. -/
def summaryId (id : EventID) : EventID := id ++ "-summary"

theorem summaryId_ne_root (id : EventID) : summaryId id ≠ rootParentId := by
  intro h
  have hl := congrArg String.length h
  have h0 : id.length = 0 := by
    simp only [summaryId, rootParentId, String.length_append] at hl
    have h8 : "-summary".length = 8 := by decide
    have h8' : "__root__".length = 8 := by decide
    omega
  rw [String.length_eq_zero_iff.1 h0] at h
  revert h
  decide

end AgentSdk
