import AgentSdk.Session
/-!
# One step of the agent

`Agent._step` with its tool-call batch. What lies outside the agent is input:
what the LLM returned, how each tool call parsed, what hooks and tools did,
the confirmation policy, and the ids of the events created. The asynchronous
variant differs in where it waits, not in what it emits.
-/

namespace AgentSdk
open ConversationState

/-! ## Inputs -/

/-- `_get_action_event` up to the event: a call that does not parse or
validate is answered at once. `arguments` are as they are persisted. -/
inductive ParsedCall where
  | invalid (error : String) (displayName : String) (arguments : String)
  | valid (action : Action) (toolName : String) (arguments : String)
deriving DecidableEq, Repr

/-- One tool call of a response. `hookEvents` and `blockReason` come from the
PreToolUse hooks. -/
structure CallRun where
  actionId : NewId
  errorId : NewId
  parsed : ParsedCall
  hookEvents : List NewId := []
  blockReason : Option String := none

inductive ToolOutcome where
  | cancelled
  | valueError (error : String)
  | exception (error : String)
  | observation (content : List String) (extendedContent : List String)
deriving DecidableEq, Repr

/-- One execution of an action. `hookEvents` come from the PostToolUse hooks. -/
structure ToolRun where
  resultId : NewId
  outcome : ToolOutcome
  hookEvents : List NewId := []

/-- A user message the agent writes, after the UserPromptSubmit hooks: a hook
that adds context makes a new event of it, but blocks the original id. -/
structure MessageRun where
  originalId : EventID
  id : NewId
  content : List String
  extendedContent : List String := []
  hookEvents : List NewId := []
  blockReason : Option String := none

inductive SecurityRisk where
  | unknown | low | medium | high
deriving DecidableEq, Repr

structure LLMResponse where
  id : EventID
  message : Message
  messageId : NewId
  nudgeId : NewId
  assistant : message.role = .assistant := by rfl

/-- How the request ends: with a condensation instead, in one of the errors
`_step` handles, or with a response. A `requestId` is there when a condenser
handles condensation requests; the error is raised again otherwise. -/
inductive LLMOutcome where
  | condensation (id : NewId) (c : Condensation)
  | imageUnsupported (id : NewId) (text : String)
  | functionCallValidation (m : MessageRun)
  | contentPolicyViolation (m : MessageRun)
  | malformedHistory (requestId : Option NewId)
  | contextWindowExceed (requestId : Option NewId)
  | response (r : LLMResponse)

structure StepEnv where
  llm : LLMOutcome
  call : Nat → CallRun
  tool : EventID → ToolRun
  rejectionId : EventID → NewId
  securityAnalyzer : Option (NewId × (List Event → List SecurityRisk)) := none
  shouldConfirm : SecurityRisk → Bool := fun _ => false
  /-- `_check_iterative_refinement`: the follow-up message, if any. -/
  followup : Option MessageRun := none
  tokenId : Option NewId := none

inductive StepError where
  | value (e : ValueError)
  | malformedHistory
  | contextWindowExceed
deriving DecidableEq, Repr

namespace Agent

/-- The hook events, each a `HookExecutionEvent`. -/
def hookEvents (ids : List NewId) : List Event := ids.map fun new => new.event (.other "HookExecutionEvent")

/-! ## From tool calls to actions -/

/-- The `ActionEvent` of the `i`-th call. Only the first one carries the
thought of the response. -/
def actionEvent (env : StepEnv) (r : LLMResponse) (i : Nat) (call : MessageToolCall) (action : Option Action)
    (toolName arguments : String) : Event :=
  (env.call i).actionId.event <| .action
    { thought := if i = 0 then r.message.content else []
      reasoningContent := if i = 0 then r.message.reasoningContent else none
      thinkingBlocks := if i = 0 then r.message.thinkingBlocks else []
      action, toolName
      toolCall := { call with arguments }
      toolCallId := call.id
      llmResponseId := r.id }

def toolError (env : StepEnv) (i : Nat) (call : MessageToolCall) (error displayName : String) : Event :=
  (env.call i).errorId.event <| .observation
    { toolName := displayName, toolCallId := call.id, kind := .agentError error }

/-- `_get_action_event` with `_emit_tool_error`, and the PreToolUse hooks that
see a validated action before it is stored. -/
def getActionEvent (env : StepEnv) (r : LLMResponse) (i : Nat) (call : MessageToolCall) (s : Session) :
    Except ValueError (Session × Option Event) := do
  let run := env.call i
  match run.parsed with
  | .invalid error displayName arguments =>
    let s ← s.onEvent (actionEvent env r i call none call.name arguments)
    let s ← s.onEvent (toolError env i call error displayName)
    return (s, none)
  | .valid action toolName arguments =>
    let e := actionEvent env r i call (some action) toolName arguments
    let s ← s.onEvents (hookEvents run.hookEvents)
    let s := match run.blockReason with
      | some reason => s.blockAction e.id reason
      | none => s
    let s ← s.onEvent e
    return (s, some e)

/-- The loop of `_handle_tool_calls` from the `i`-th call on. -/
def getActionEvents (env : StepEnv) (r : LLMResponse) :
    Nat → List MessageToolCall → Session → Except ValueError (Session × List Event)
  | _, [], s => .ok (s, [])
  | i, call :: calls, s => do
    let (s, e) ← getActionEvent env r i call s
    let (s, es) ← getActionEvents env r (i + 1) calls s
    return (s, e.toList ++ es)

/-! ## Confirmation -/

def isFinishOrThink (e : Event) : Bool :=
  match e.body with
  | .action { action := some (.finish _), .. } | .action { action := some (.think _), .. } => true
  | _ => false

/-- `_analyze_for_confirmation`. -/
def analyzeForConfirmation (env : StepEnv) (actions : List Event) : List SecurityRisk × Option Event :=
  if actions.length = 1 ∧ actions.all isFinishOrThink ∨ actions = [] then ([], none)
  else
    match env.securityAnalyzer with
    | none => (actions.map fun _ => .unknown, none)
    | some (new, analyze) => (analyze actions, some (new.event (.other "SecurityAnalysisEvent")))

/-- `_set_confirmation_status`. -/
def setConfirmationStatus (env : StepEnv) (s : Session) (risks : List SecurityRisk) : Session × Bool :=
  if risks.any env.shouldConfirm then (s.setExecutionStatus .waitingForConfirmation, true) else (s, false)

/-- `_requires_user_confirmation`. -/
def requiresUserConfirmation (env : StepEnv) (s : Session) (actions : List Event) :
    Except ValueError (Session × Bool) := do
  let analysis := analyzeForConfirmation env actions
  let s ← s.onEvents analysis.2.toList
  return setConfirmationStatus env s analysis.1

/-! ## The batch -/

/-- `FinishTool.name`. -/
def finishToolName : String := "finish"

def isFinishCall (e : Event) : Bool := e.action?.any (·.toolName = finishToolName)

/-- `_truncate_at_finish`: any call after the first `FinishTool` is discarded. -/
def truncateAtFinish (actions : List Event) : List Event × Bool :=
  match actions.findIdx? isFinishCall with
  | some i => (actions.take (i + 1), true)
  | none => (actions, false)

/-- `blocked_reasons` of `prepare`. -/
def popBlockedActions : List Event → Session → Session × List (EventID × String)
  | [], s => (s, [])
  | e :: es, s =>
    let (reason, s) := s.popBlockedAction e.id
    let (s, reasons) := popBlockedActions es s
    (s, (reason.map fun r => (e.id, r)).toList ++ reasons)

/-- What `_run_safe` returns for an action: exactly one event. -/
def runSafe (env : StepEnv) (id : EventID) (a : ActionEvent) : Event :=
  (env.tool id).resultId.event <| .observation
    { toolName := a.toolName
      toolCallId := a.toolCall.id
      kind := match (env.tool id).outcome with
        | .cancelled => .agentError "Tool call cancelled by interrupt."
        | .valueError e | .exception e => .agentError ("Error executing tool '" ++ a.toolName ++ "': " ++ e)
        | .observation content extended => .observation content extended id }

def rejection (env : StepEnv) (id : EventID) (a : ActionEvent) (reason : String) : Event :=
  (env.rejectionId id).event <| .observation
    { toolName := a.toolName, toolCallId := a.toolCallId, kind := .userReject reason .hook id }

/-- The answer that `emit` gives to an action of the batch, blocked or not. -/
def answer (env : StepEnv) (reason : Option String) (id : EventID) (a : ActionEvent) : Event :=
  match reason with
  | some reason => rejection env id a reason
  | none => runSafe env id a

/-- The PostToolUse hooks see an `ObservationEvent` before it is stored. -/
def postToolUse (env : StepEnv) (id : EventID) (result : Event) : List Event :=
  match result.body with
  | .observation { kind := .observation _ _ _, .. } => hookEvents (env.tool id).hookEvents
  | _ => []

/-- `emit`. -/
def emit (env : StepEnv) (reasons : List (EventID × String)) : List Event → Session → Except ValueError Session
  | [], s => .ok s
  | e :: es, s =>
    match e.action? with
    | none => emit env reasons es s
    | some a => do
      let result := answer env (reasons.lookup e.id) e.id a
      let s ← s.onEvents (postToolUse env e.id result)
      let s ← s.onEvent result
      emit env reasons es s

def messageEvent (new : NewId) (source : SourceType) (content extended : List String) : Event :=
  new.event <| .message
    { source, llmMessage := { role := .user, content }, extendedContent := extended
      notTool := user_ne_tool, noCalls := by simp }

def emitUserMessage (m : MessageRun) (s : Session) : Except ValueError Session := do
  let s ← s.onEvents (hookEvents m.hookEvents)
  let s := match m.blockReason with
    | some reason => s.blockMessage m.originalId reason
    | none => s
  s.onEvent (messageEvent m.id .user m.content m.extendedContent)

/-- `finalize`. A follow-up also counts the iteration in `agent_state`. -/
def finalize (env : StepEnv) (actions : List Event) (hasFinish : Bool) (reasons : List (EventID × String))
    (s : Session) : Except ValueError Session :=
  if ¬ hasFinish ∨ actions.getLast?.any (fun e => (reasons.lookup e.id).isSome) then .ok s
  else
    match env.followup with
    | some m => emitUserMessage m (s.notify "agent_state" s.state)
    | none => .ok (s.setExecutionStatus .finished)

/-- `_execute_actions`: `prepare`, `emit` and `finalize`. -/
def executeActions (env : StepEnv) (actions : List Event) (s : Session) : Except ValueError Session := do
  let (actions, hasFinish) := truncateAtFinish actions
  let (s, reasons) := popBlockedActions actions s
  let s ← emit env reasons actions s
  finalize env actions hasFinish reasons s

/-! ## The response -/

inductive LLMResponseType where
  | toolCalls | content | reasoningOnly | empty
deriving DecidableEq, Repr

/-- `classify_response`. Of the content only text blocks are modelled. -/
def classifyResponse (m : Message) : LLMResponseType :=
  if m.calls ≠ [] then .toolCalls
  else if m.content.any (fun text => text.toList.any fun c => !c.isWhitespace) then .content
  else if m.reasoningContent.isSome ∨ m.thinkingBlocks ≠ [] then .reasoningOnly
  else .empty

/-- `_maybe_emit_vllm_tokens`. -/
def emitTokens (env : StepEnv) (s : Session) : Except ValueError Session :=
  match env.tokenId with
  | some new => s.onEvent (new.event (.other "TokenEvent"))
  | none => .ok s

/-- `_handle_tool_calls`. -/
def handleToolCalls (env : StepEnv) (r : LLMResponse) (s : Session) : Except ValueError Session := do
  let (s, actions) ← getActionEvents env r 0 r.message.calls s
  let (s, confirm) ← requiresUserConfirmation env s actions
  if confirm then return s
  let s ← if actions = [] then pure s else executeActions env actions s
  emitTokens env s

def nudge : String :=
  "Your last response did not include a function call or a message. " ++
  "Please use a tool to proceed with the task."

/-- `_handle_content_response` and `_handle_no_content_response`. -/
def handleMessage (env : StepEnv) (r : LLMResponse) (h : r.message.calls = []) (hasContent : Bool) (s : Session) :
    Except ValueError Session := do
  let s ← s.onEvent <| r.messageId.event <| .message
    { source := .agent, llmMessage := r.message, notTool := by simp [r.assistant], noCalls := fun _ => h }
  let s ← emitTokens env s
  if hasContent then return s.setExecutionStatus .finished
  s.onEvent (messageEvent r.nudgeId .environment [nudge] [])

def handleResponse (env : StepEnv) (r : LLMResponse) (s : Session) : Except ValueError Session :=
  if h : r.message.calls = [] then
    handleMessage env r h (classifyResponse r.message = .content) s
  else handleToolCalls env r s

/-! ## The step -/

/-- `_step` from the point where nothing is pending and no message is blocked. -/
def sample (env : StepEnv) (s : Session) : Except StepError Session := do
  let state ← (s.state.readView).mapError .value
  let s := { s with state }
  match env.llm with
  | .condensation new c => (s.onEvent (new.event (.condensation c))).mapError .value
  | .imageUnsupported new text => do
    let s ← (s.onEvent <| new.event <| .message
      { source := .agent, llmMessage := { role := .assistant, content := [text] }
        notTool := assistant_ne_tool, noCalls := fun _ => rfl }).mapError .value
    return s.setExecutionStatus .finished
  | .functionCallValidation m | .contentPolicyViolation m => (emitUserMessage m s).mapError .value
  | .malformedHistory none => .error .malformedHistory
  | .malformedHistory (some new) => do
    let state ← (s.state.rebuildView).mapError .value
    ({ s with state }.onEvent (new.event .condensationRequest)).mapError .value
  | .contextWindowExceed none => .error .contextWindowExceed
  | .contextWindowExceed (some new) => (s.onEvent (new.event .condensationRequest)).mapError .value
  | .response r => (handleResponse env r s).mapError .value

/-- The reason under which the last user message is blocked. -/
def messageBlock (s : Session) : Option String :=
  s.state.lastUserMessageId.bind fun id => s.state.blockedMessages.lookup id

/-- `_step`: pending actions count as confirmed and run first. -/
def step (env : StepEnv) (s : Session) : Except StepError Session := do
  let branch ← (s.state.activeBranch).mapError .value
  let pending := getUnmatchedActions branch
  if pending ≠ [] then (executeActions env pending s).mapError .value
  else
    match s.state.lastUserMessageId with
    | none => sample env s
    | some id =>
      match s.popBlockedMessage id with
      | (some _, s) => return s.setExecutionStatus .finished
      | (none, s) => sample env s

end Agent

end AgentSdk
