import AgentSdk.View
import Mathlib.Data.List.SplitBy
/-!
# From events to LLM messages

`LLMConvertibleEvent.events_to_messages`: neighbouring actions of one response
become one assistant message, and neighbouring plain user messages are merged.
-/

namespace AgentSdk

/-! ## One event -/

/-- `ActionEvent.to_llm_message`. -/
def ActionEvent.toLLMMessage (a : ActionEvent) : Message :=
  { role := .assistant, content := a.thought, toolCalls := some [a.toolCall]
    reasoningContent := a.reasoningContent, thinkingBlocks := a.thinkingBlocks }

/-- `to_llm_message` of the three answers. -/
def ObservationBaseEvent.toLLMMessage (o : ObservationBaseEvent) : Message :=
  { role := .tool, name := some o.toolName, toolCallId := some o.toolCallId
    content := match o.kind with
      | .observation content extended _ => content ++ extended
      | .userReject reason _ _ => ["Action rejected: " ++ reason]
      | .agentError error => [error] }

/-- `to_llm_message`; the other events have none. -/
def Event.toLLMMessage (e : Event) : Option Message :=
  match e.body with
  | .systemPrompt prompt dynamicContext => some { role := .system, content := prompt :: dynamicContext.toList }
  | .message m => some { m.llmMessage with content := m.llmMessage.content ++ m.extendedContent }
  | .action a => some a.toLLMMessage
  | .observation o => some o.toLLMMessage
  | .condensationSummary summary => some { role := .user, content := [summary] }
  | _ => none

/-! ## All events -/

/-- `_combine_action_events`; `none` where the assertion fails. -/
def combineActionEvents : List ActionEvent → Option Message
  | [] => none
  | [a] => some a.toLLMMessage
  | a :: as =>
    if as.all (·.thought = []) then
      some { a.toLLMMessage with toolCalls := some ((a :: as).map ActionEvent.toolCall) }
    else none

/-- The message of a batch as the loop looks ahead for it, or of another event. -/
def batchMessage : List Event → Option Message
  | [e] => e.toLLMMessage
  | batch => combineActionEvents (batch.filterMap Event.action?)

def isPlainUserMessage (m : Message) : Bool :=
  m.role = .user && m.toolCalls = none && m.toolCallId = none && m.name = none

def canMergeUserMessages (previous current : Message) : Bool :=
  isPlainUserMessage previous && isPlainUserMessage current

def addMessage (messages : List Message) (msg : Message) : List Message :=
  match messages.getLast? with
  | some last =>
    if canMergeUserMessages last msg then
      messages.dropLast ++ [{ last with content := last.content ++ msg.content }]
    else messages ++ [msg]
  | none => [msg]

/-- The messages of the batches and other events, before user messages merge. -/
def batchMessages (events : List Event) : Option (List Message) :=
  (events.splitBy BatchAtomicity.sameBatch).mapM batchMessage

/-- `events_to_messages`. -/
def eventsToMessages (events : List Event) : Option (List Message) := do
  return (← batchMessages events).foldl addMessage []

/-! ## Valid histories -/

/-- Each assistant message with tool calls is followed at once by one tool
message for each of its calls, and tool messages stand nowhere else. `pending`
are the ids that wait for their tool message. -/
def validFrom : List ToolCallID → List Message → Bool
  | pending, [] => pending.isEmpty
  | pending, m :: ms =>
    match m.role with
    | .tool =>
      match m.toolCallId with
      | some id => decide (id ∈ pending) && validFrom (pending.erase id) ms
      | none => false
    | .assistant => pending.isEmpty && validFrom (m.calls.map (·.id)) ms
    | .user | .system => pending.isEmpty && validFrom [] ms

def ValidHistory (messages : List Message) : Prop := validFrom [] messages = true

theorem validFrom_append {ms ms' : List Message} (h : ∀ pending, validFrom pending ms = validFrom pending ms')
    (before : List Message) (pending : List ToolCallID) :
    validFrom pending (before ++ ms) = validFrom pending (before ++ ms') := by
  induction before generalizing pending with
  | nil => exact h pending
  | cons m before ih =>
    simp only [List.cons_append, validFrom]
    split <;> simp only [ih]

theorem validFrom_addMessage (messages : List Message) (msg : Message) (after : List Message)
    (pending : List ToolCallID) :
    validFrom pending (addMessage messages msg ++ after) = validFrom pending (messages ++ msg :: after) := by
  unfold addMessage
  cases hl : messages.getLast? with
  | none =>
    rw [List.getLast?_eq_none_iff.1 hl]
    rfl
  | some last =>
    dsimp only
    split
    · rename_i hm
      have hroles : last.role = .user ∧ msg.role = .user := by
        simp only [canMergeUserMessages, isPlainUserMessage, Bool.and_eq_true, decide_eq_true_eq] at hm
        exact ⟨hm.1.1.1.1, hm.2.1.1.1⟩
      have hsplit : messages = messages.dropLast ++ [last] := (List.dropLast_append_getLast? _ hl).symm
      conv_rhs => rw [hsplit]
      rw [List.append_assoc, List.append_assoc]
      refine validFrom_append (fun pending => ?_) _ _
      simp [validFrom, hroles.1, hroles.2]
    · simp

/-- Merging user messages changes nothing about the calls and their results. -/
theorem validFrom_merge (messages : List Message) (pending : List ToolCallID) :
    validFrom pending (messages.foldl addMessage []) = validFrom pending messages := by
  have hfold : ∀ (ms acc : List Message),
      validFrom pending (ms.foldl addMessage acc) = validFrom pending (acc ++ ms) := by
    intro ms
    induction ms with
    | nil => simp
    | cons m ms ih =>
      intro acc
      rw [List.foldl_cons, ih, validFrom_addMessage]
  exact hfold messages []

end AgentSdk
