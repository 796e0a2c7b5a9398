import AgentSdk.StepEmission
/-!
# The run loop

`LocalConversation` with its loops `run` and `arun`, and `EventService`, which
starts them for requests and for messages. `arun` gives the state lock away
while it waits for the LLM and for the security analysis to be masked: there,
and wherever no step is at work, messages and other requests come in. The
branches for ACP agents are left out.
-/

namespace AgentSdk
open Lib ConversationState

/-! ## What a conversation does between steps -/

namespace LocalConversation
open Agent

/-- `send_message`: a new message resets terminal states. -/
def sendMessage (m : MessageRun) (s : Session) : Except ValueError Session :=
  emitUserMessage m <|
    if s.state.executionStatus = .finished ∨ s.state.executionStatus = .stuck then s.setExecutionStatus .idle else s

/-- One answer for each of the actions. -/
def answerAll (answer : EventID → ActionEvent → Event) : List Event → Session → Except ValueError Session
  | [], s => .ok s
  | e :: es, s =>
    match e.action? with
    | none => answerAll answer es s
    | some a => do
      let s ← s.onEvent (answer e.id a)
      answerAll answer es s

def userRejection (ids : EventID → NewId) (reason : String) (id : EventID) (a : ActionEvent) : Event :=
  (ids id).event <| .observation
    { toolName := a.toolName, toolCallId := a.toolCallId, kind := .userReject reason .user id }

/-- `reject_pending_actions`. -/
def rejectPendingActions (ids : EventID → NewId) (reason : String) (s : Session) : Except ValueError Session := do
  let branch ← s.state.activeBranch
  let s := if s.state.executionStatus = .waitingForConfirmation then s.setExecutionStatus .idle else s
  answerAll (userRejection ids reason) (getUnmatchedActions branch) s

def orphanedError (ids : EventID → NewId) (id : EventID) (a : ActionEvent) : Event :=
  (ids id).event <| .observation
    { toolName := a.toolName, toolCallId := a.toolCallId
      kind := .agentError ("Tool call interrupted before completion. " ++ "The conversation was paused.") }

/-- `_emit_orphaned_action_errors`. -/
def emitOrphanedActionErrors (ids : EventID → NewId) (s : Session) : Except ValueError Session := do
  let branch ← s.state.activeBranch
  answerAll (orphanedError ids) (getUnmatchedActions branch) s

def pause (new : NewId) (s : Session) : Except ValueError Session :=
  if s.state.executionStatus = .idle ∨ s.state.executionStatus = .running then
    (s.setExecutionStatus .paused).onEvent (new.event (.other "PauseEvent"))
  else .ok s

/-- What `arun` does about a cancellation. -/
def interrupted (ids : EventID → NewId) (new : NewId) (s : Session) : Except ValueError Session := do
  let s ← emitOrphanedActionErrors ids s
  (s.setExecutionStatus .paused).onEvent (new.event (.other "InterruptEvent"))

/-- The end of a run with an error: the status and its event. -/
def fail (new : NewId) (code : String) (s : Session) : Except ValueError Session :=
  (s.setExecutionStatus .error).onEvent (new.event (.conversationError code))

/-! ## One round of the loop -/

inductive StuckCheck where
  | fine
  | nudge (new : NewId) (text : String)
  | stuck

/-- What a round of the loop depends on besides the state. `stopHook` is the
answer of the stop hooks, if there are any: whether to stop, and feedback. -/
structure RoundEnv where
  step : StepEnv
  stopHook : Option (Bool × Option String) := none
  feedbackId : NewId
  stuck : StuckCheck := .fine
  budgetExceeded : Bool := false
  errorId : NewId
  rejectId : EventID → NewId

inductive RoundStart where
  | stop (s : Session)
  | again (s : Session)
  | step (s : Session)

def RoundStart.session : RoundStart → Session
  | .stop s | .again s | .step s => s

/-- `ACP_STOP_HOOK_FEEDBACK_PREFIX`. -/
def stopHookFeedbackPrefix : String := "[Stop hook feedback]"

/-- `_check_stuck_or_nudge`. -/
def checkStuckOrNudge (env : RoundEnv) (s : Session) : Except ValueError (Session × Bool) :=
  match env.stuck with
  | .fine => .ok (s, false)
  | .nudge new text => do
    let s ← s.onEvent (messageEvent new .environment [text] [])
    return (s, false)
  | .stuck => .ok (s.setExecutionStatus .stuck, true)

/-- The round up to the step. -/
def startRound (env : RoundEnv) (s : Session) : Except ValueError RoundStart :=
  match s.state.executionStatus with
  | .paused | .stuck => .ok (.stop s)
  | .finished =>
    match env.stopHook with
    | some (false, feedback) => do
      let s ← s.onEvents (feedback.toList.map fun text =>
        messageEvent env.feedbackId .environment [stopHookFeedbackPrefix ++ " " ++ text] [])
      return .again (s.setExecutionStatus .running)
    | _ => .ok (.stop s)
  | _ => do
    let (s, stuck) ← checkStuckOrNudge env s
    if stuck then return .again s
    -- The flag is cleared before the step: whoever runs has approved.
    return .step (if s.state.executionStatus = .waitingForConfirmation then s.setExecutionStatus .running else s)

/-- The checks behind the step; whether the loop goes on. -/
def checkLimits (env : RoundEnv) (maxIterations iteration : Nat) (finished : Bool) (s : Session) :
    Except ValueError (Session × Bool) :=
  if s.state.executionStatus = .waitingForConfirmation then .ok (s, false)
  else if env.budgetExceeded ∧ ¬ finished then do
    let s ← fail env.errorId "MaxBudgetReached" s
    return (s, false)
  else if maxIterations ≤ iteration then
    if s.state.executionStatus = .finished then .ok (s, false)
    else do
      let s ← fail env.errorId "MaxIterationsReached" s
      return (s, false)
  else .ok (s, true)

def superseded : String := "Superseded by a new user message"

/-- What `arun` does behind the step: a message that came in during the step
rejects the actions the step left to be confirmed. -/
def finishRound (env : RoundEnv) (maxIterations iteration : Nat) (lastUserMessageId : Option EventID) (s : Session) :
    Except ValueError (Session × Bool) :=
  let finished := s.state.executionStatus = .finished
  let awaiting := s.state.executionStatus = .waitingForConfirmation
  if s.state.lastUserMessageId ≠ lastUserMessageId ∧ (finished ∨ awaiting) then do
    let s ← if awaiting then rejectPendingActions env.rejectId superseded s else pure s
    if maxIterations ≤ iteration then return (s.setExecutionStatus .idle, false)
    checkLimits env maxIterations iteration finished (s.setExecutionStatus .running)
  else checkLimits env maxIterations iteration finished s

end LocalConversation

/-! ## The step in two halves -/

namespace Agent

inductive StepHalf where
  | done (s : Session)
  | sampling (s : Session)

def StepHalf.session : StepHalf → Session
  | .done s | .sampling s => s

/-- `_astep` up to the LLM call. -/
def astepBegin (env : StepEnv) (s : Session) : Except StepError StepHalf := do
  let branch ← (s.state.activeBranch).mapError .value
  let pending := getUnmatchedActions branch
  if pending ≠ [] then
    let s ← (executeActions env pending s).mapError .value
    return .done s
  else
    match s.state.lastUserMessageId.map s.popBlockedMessage with
    | some (some _, s) => return .done (s.setExecutionStatus .finished)
    | some (none, s) => prepare s
    | none => prepare s
where
  /-- Neither a condensation nor an image answer calls the LLM. -/
  prepare (s : Session) : Except StepError StepHalf :=
    match env.llm with
    | .condensation _ _ | .imageUnsupported _ _ => do
      let s ← sample env s
      return .done s
    | _ => do
      let state ← (s.state.readView).mapError .value
      return .sampling { s with state }

/-- `_handle_tool_calls` once the actions are stored. -/
def decideToolCalls (env : StepEnv) (actions : List Event) (s : Session) : Except ValueError Session := do
  let (s, confirm) ← requiresUserConfirmation env s actions
  if confirm then return s
  let s ← if actions = [] then pure s else executeActions env actions s
  emitTokens env s

inductive Responded where
  | done (s : Session)
  | analyzing (s : Session) (actions : List Event)

def Responded.session : Responded → Session
  | .done s | .analyzing s _ => s

/-- `_astep` from the LLM's answer on, up to the security analysis. -/
def astepRespond (env : StepEnv) (s : Session) : Except StepError Responded :=
  match env.llm with
  | .condensation _ _ | .imageUnsupported _ _ => .ok (.done s)
  | .functionCallValidation m | .contentPolicyViolation m => do
    let s ← (emitUserMessage m s).mapError .value
    return .done s
  | .malformedHistory none => .error .malformedHistory
  | .malformedHistory (some new) => do
    let state ← (s.state.rebuildView).mapError .value
    let s ← ({ s with state }.onEvent (new.event .condensationRequest)).mapError .value
    return .done s
  | .contextWindowExceed none => .error .contextWindowExceed
  | .contextWindowExceed (some new) => do
    let s ← (s.onEvent (new.event .condensationRequest)).mapError .value
    return .done s
  | .response r =>
    if h : r.message.calls = [] then do
      let s ← (handleMessage env r h (classifyResponse r.message = .content) s).mapError .value
      return .done s
    else do
      let (s, actions) ← (getActionEvents env r 0 r.message.calls s).mapError .value
      -- With an analysis to store, its secrets are masked outside the lock.
      if (analyzeForConfirmation env actions).2.isSome then return .analyzing s actions
      let s ← (decideToolCalls env actions s).mapError .value
      return .done s

/-! ## The halves make up the step -/

/-- What is left of a step once its first half is done. -/
def resume (env : StepEnv) : StepHalf → Except StepError Session
  | .done s => .ok s
  | .sampling s => do
    match ← astepRespond env s with
    | .done s => return s
    | .analyzing s actions => (decideToolCalls env actions s).mapError .value

theorem handleToolCalls_eq (env : StepEnv) (r : LLMResponse) (s : Session) :
    handleToolCalls env r s =
      getActionEvents env r 0 r.message.calls s >>= fun p => decideToolCalls env p.2 p.1 := rfl

theorem sample_eq (env : StepEnv) (s : Session) : sample env s = astepBegin.prepare env s >>= resume env := by
  unfold astepBegin.prepare
  cases hllm : env.llm with
  | condensation new c | imageUnsupported new text =>
    dsimp only
    cases sample env s <;> rfl
  | response r =>
    unfold sample
    cases s.state.readView with
    | error e => rfl
    | ok state =>
      by_cases hcalls : r.message.calls = []
      · simp only [hllm, handleResponse, dif_pos hcalls, resume, astepRespond, Except.mapError, bind, Except.bind, pure,
          Except.pure]
        cases handleMessage env r _ _ _ <;> rfl
      · simp only [hllm, handleResponse, dif_neg hcalls, handleToolCalls_eq, resume, astepRespond, Except.mapError, bind,
          Except.bind, pure, Except.pure]
        cases getActionEvents env r 0 r.message.calls { s with state } with
        | error e => rfl
        | ok p =>
          dsimp only
          by_cases hany : (analyzeForConfirmation env p.2).2.isSome = true
          · simp only [if_pos hany]
          · simp only [if_neg hany]
            cases decideToolCalls env p.2 p.1 <;> rfl
  | functionCallValidation m | contentPolicyViolation m =>
    unfold sample
    cases s.state.readView with
    | error e => rfl
    | ok state =>
      simp only [hllm, resume, astepRespond, Except.mapError, bind, Except.bind, pure, Except.pure]
      cases emitUserMessage m _ <;> rfl
  | malformedHistory requestId =>
    unfold sample
    cases s.state.readView with
    | error e => rfl
    | ok state =>
      cases requestId with
      | none => simp only [hllm, resume, astepRespond, Except.mapError, bind, Except.bind, pure, Except.pure]
      | some new =>
        simp only [hllm, resume, astepRespond, Except.mapError, bind, Except.bind, pure, Except.pure]
        cases state.rebuildView with
        | error e => rfl
        | ok t =>
          dsimp only
          cases Session.onEvent _ _ <;> rfl
  | contextWindowExceed requestId =>
    unfold sample
    cases s.state.readView with
    | error e => rfl
    | ok state =>
      cases requestId with
      | none => simp only [hllm, resume, astepRespond, Except.mapError, bind, Except.bind, pure, Except.pure]
      | some new =>
        simp only [hllm, resume, astepRespond, Except.mapError, bind, Except.bind, pure, Except.pure]
        cases Session.onEvent _ _ <;> rfl

/-- In one piece the halves of the asynchronous step are `_step`. -/
theorem step_eq (env : StepEnv) (s : Session) : step env s = astepBegin env s >>= resume env := by
  unfold step astepBegin
  cases s.state.activeBranch with
  | error e => rfl
  | ok branch =>
    simp only [Except.mapError, bind, Except.bind, pure, Except.pure]
    split
    · cases executeActions env _ s <;> rfl
    · cases s.state.lastUserMessageId with
      | none => exact sample_eq env s
      | some id =>
        dsimp only [Option.map_some]
        rcases s.popBlockedMessage id with ⟨_ | reason, t⟩
        · exact sample_eq env t
        · rfl

end Agent

/-! ## What the loop emits -/

/-- Calls and answers may have been added. -/
def ConversationState.Grows (s t : ConversationState) : Prop := ∃ tools, Emits s t tools

theorem Emits.grows {s t : ConversationState} {tools : List Event} (h : Emits s t tools) : s.Grows t := ⟨tools, h⟩

theorem ConversationState.Grows.valid {s t : ConversationState} : s.Grows t → t.Valid
  | ⟨_, h⟩ => h.valid

theorem ConversationState.Grows.trans {s t u : ConversationState} : s.Grows t → t.Grows u → s.Grows u
  | ⟨_, h⟩, ⟨_, h'⟩ => (h.trans h').grows

namespace Agent
variable {env : StepEnv} {s s' : Session}

theorem decideToolCalls_grows {actions : List Event} (hs : s.state.Valid) (h : decideToolCalls env actions s = .ok s') :
    s.state.Grows s'.state := by
  obtain ⟨⟨s₁, confirm⟩, h₁, h⟩ := bind_ok h
  have he₁ := (requiresUserConfirmation_emits hs h₁).1
  cases confirm with
  | true =>
    cases h
    exact he₁.grows
  | false =>
    dsimp only [Bool.false_eq_true] at h
    rw [if_neg (by simp)] at h
    split at h
    · exact (he₁.trans (emitTokens_emits he₁.valid h)).grows
    · obtain ⟨s₂, h₂, h⟩ := bind_ok h
      have he₂ := he₁.trans (executeActions_emits he₁.valid h₂)
      exact (he₂.trans (emitTokens_emits he₂.valid h)).grows

theorem astepRespond_grows {r : Responded} (hs : s.state.Valid) (h : astepRespond env s = .ok r) :
    s.state.Grows r.session.state := by
  unfold astepRespond at h
  cases hllm : env.llm with
  | condensation new c | imageUnsupported new text =>
    rw [hllm] at h
    cases h
    exact (Emits.refl hs).grows
  | functionCallValidation m | contentPolicyViolation m =>
    rw [hllm] at h
    obtain ⟨t, ht, h⟩ := bind_ok h
    cases h
    exact (emitUserMessage_emits hs (mapError_ok ht)).grows
  | malformedHistory requestId =>
    rw [hllm] at h
    cases requestId with
    | none => cases h
    | some new =>
      obtain ⟨state, hstate, h⟩ := bind_ok h
      obtain ⟨t, ht, h⟩ := bind_ok h
      cases h
      have he := Emits.sameTree hs (rebuildView_sameTree (mapError_ok hstate))
      exact he.grows.trans (emits_onEvent (s := { s with state }) he.valid rfl (mapError_ok ht)).grows
  | contextWindowExceed requestId =>
    rw [hllm] at h
    cases requestId with
    | none => cases h
    | some new =>
      obtain ⟨t, ht, h⟩ := bind_ok h
      cases h
      exact (emits_onEvent hs rfl (mapError_ok ht)).grows
  | response r =>
    rw [hllm] at h
    dsimp only at h
    split at h
    · obtain ⟨t, ht, h⟩ := bind_ok h
      cases h
      exact (handleMessage_emits hs (mapError_ok ht)).grows
    · obtain ⟨⟨t, actions⟩, ht, h⟩ := bind_ok h
      have he := (getActionEvents_emits hs (mapError_ok ht)).1
      dsimp only at h
      split at h
      · cases h
        exact he.grows
      · obtain ⟨u, hu, h⟩ := bind_ok h
        cases h
        exact he.grows.trans (decideToolCalls_grows he.valid (mapError_ok hu))

theorem prepare_grows {r : StepHalf} (hs : s.state.Valid) (h : astepBegin.prepare env s = .ok r) :
    s.state.Grows r.session.state := by
  have hread : ∀ {state}, s.state.readView.mapError StepError.value = .ok state → Emits s.state state [] :=
    fun h => Emits.sameTree hs (readView_sameTree (mapError_ok h)).1
  unfold astepBegin.prepare at h
  cases hllm : env.llm with
  | condensation new c =>
    rw [hllm] at h
    obtain ⟨t, ht, h⟩ := bind_ok h
    cases h
    unfold sample at ht
    obtain ⟨state, hstate, ht⟩ := bind_ok ht
    rw [hllm] at ht
    have he := hread hstate
    exact (he.trans (emits_onEvent (s := { s with state }) he.valid rfl (mapError_ok ht))).grows
  | imageUnsupported new text =>
    rw [hllm] at h
    obtain ⟨t, ht, h⟩ := bind_ok h
    cases h
    unfold sample at ht
    obtain ⟨state, hstate, ht⟩ := bind_ok ht
    rw [hllm] at ht
    obtain ⟨u, hu, ht⟩ := bind_ok ht
    cases ht
    have he := hread hstate
    have hu := he.trans (emits_onEvent (s := { s with state }) he.valid rfl (mapError_ok hu))
    exact (hu.trans (emits_setExecutionStatus hu.valid _)).grows
  | _ =>
    rw [hllm] at h
    obtain ⟨state, hstate, h⟩ := bind_ok h
    cases h
    exact (hread hstate).grows

theorem astepBegin_grows {r : StepHalf} (hs : s.state.Valid) (h : astepBegin env s = .ok r) :
    s.state.Grows r.session.state := by
  unfold astepBegin at h
  obtain ⟨branch, -, h⟩ := bind_ok h
  dsimp only at h
  by_cases hpending : getUnmatchedActions branch ≠ []
  · rw [if_pos hpending] at h
    obtain ⟨t, ht, h⟩ := bind_ok h
    cases h
    exact (executeActions_emits hs (mapError_ok ht)).grows
  · rw [if_neg hpending] at h
    cases hlast : s.state.lastUserMessageId with
    | none =>
      rw [hlast] at h
      exact prepare_grows hs h
    | some id =>
      have hpop := emits_popBlockedMessage hs id
      rw [hlast, Option.map_some] at h
      generalize s.popBlockedMessage id = p at h hpop
      obtain ⟨_ | reason, t⟩ := p
      · exact hpop.grows.trans (prepare_grows hpop.valid h)
      · cases h
        exact (hpop.trans (emits_setExecutionStatus hpop.valid _)).grows

/-- Whatever a step does, it keeps the state valid and only adds to it. -/
theorem step_grows (hs : s.state.Valid) (h : step env s = .ok s') : s.state.Grows s'.state := by
  rw [step_eq] at h
  obtain ⟨r, hr, h⟩ := bind_ok h
  have he := astepBegin_grows hs hr
  cases r with
  | done t =>
    cases h
    exact he
  | sampling t =>
    obtain ⟨q, hq, h⟩ := bind_ok h
    have he' := he.trans (astepRespond_grows he.valid hq)
    cases q with
    | done u =>
      cases h
      exact he'
    | analyzing u actions => exact he'.trans (decideToolCalls_grows he'.valid (mapError_ok h))

end Agent

namespace LocalConversation
variable {s s' : Session}

theorem sendMessage_emits {m : MessageRun} (hs : s.state.Valid) (h : sendMessage m s = .ok s') :
    Emits s.state s'.state [] := by
  unfold sendMessage at h
  split at h
  · have he := emits_setExecutionStatus hs .idle
    exact he.trans (Agent.emitUserMessage_emits he.valid h)
  · exact Agent.emitUserMessage_emits hs h

/-- The answers to a list of actions. -/
def allAnswers (answer : EventID → ActionEvent → Event) (actions : List Event) : List Event :=
  actions.filterMap fun e => e.action?.map (answer e.id)

theorem answerAll_emits {answer : EventID → ActionEvent → Event} {actions : List Event}
    (hanswer : ∀ id a, (answer id a).parentId = none ∧ (answer id a).isToolEvent = true) (hs : s.state.Valid)
    (h : answerAll answer actions s = .ok s') : Emits s.state s'.state (allAnswers answer actions) := by
  induction actions generalizing s with
  | nil => cases h; exact .refl hs
  | cons e es ih =>
    unfold answerAll at h
    cases ha : e.action? with
    | none =>
      rw [ha] at h
      simpa [allAnswers, ha] using ih hs h
    | some a =>
      rw [ha] at h
      obtain ⟨t, ht, h⟩ := bind_ok h
      obtain ⟨hp, htool⟩ := hanswer e.id a
      have he := emits_onEvent hs hp ht
      rw [List.filter_cons_of_pos htool] at he
      simpa [allAnswers, ha] using he.trans (ih he.valid h)

/-- A rejection answers everything that was pending. -/
theorem rejectPendingActions_emits {ids : EventID → NewId} {reason : String} {branch : List Event}
    (hs : s.state.Valid) (hbranch : s.state.activeBranch = .ok branch)
    (h : rejectPendingActions ids reason s = .ok s') :
    Emits s.state s'.state (allAnswers (userRejection ids reason) (getUnmatchedActions branch)) := by
  unfold rejectPendingActions at h
  rw [hbranch] at h
  have hanswer : ∀ id a, (userRejection ids reason id a).parentId = none ∧
      (userRejection ids reason id a).isToolEvent = true := fun _ _ => ⟨rfl, rfl⟩
  change answerAll _ _ (if _ then _ else s) = _ at h
  split at h
  · have he := emits_setExecutionStatus hs .idle
    exact he.trans (answerAll_emits hanswer he.valid h)
  · exact answerAll_emits hanswer hs h

theorem interrupted_grows {ids : EventID → NewId} {new : NewId} (hs : s.state.Valid)
    (h : interrupted ids new s = .ok s') : s.state.Grows s'.state := by
  obtain ⟨t, ht, h⟩ := bind_ok h
  obtain ⟨branch, -, ht⟩ := bind_ok ht
  have he := answerAll_emits (fun _ _ => ⟨rfl, rfl⟩) hs ht
  have he' := he.trans (emits_setExecutionStatus he.valid .paused)
  exact (he'.trans (emits_onEvent he'.valid rfl h)).grows

theorem pause_emits {new : NewId} (hs : s.state.Valid) (h : pause new s = .ok s') : Emits s.state s'.state [] := by
  unfold pause at h
  split at h
  · have he := emits_setExecutionStatus hs .paused
    exact he.trans (emits_onEvent he.valid rfl h)
  · cases h
    exact .refl hs

theorem fail_emits {new : NewId} {code : String} (hs : s.state.Valid) (h : fail new code s = .ok s') :
    Emits s.state s'.state [] := by
  have he := emits_setExecutionStatus hs .error
  exact he.trans (emits_onEvent he.valid rfl h)

theorem checkStuckOrNudge_emits {env : RoundEnv} {stuck : Bool} (hs : s.state.Valid)
    (h : checkStuckOrNudge env s = .ok (s', stuck)) : Emits s.state s'.state [] := by
  unfold checkStuckOrNudge at h
  split at h
  · cases h
    exact .refl hs
  · obtain ⟨t, ht, h⟩ := bind_ok h
    cases h
    exact emits_onEvent hs rfl ht
  · cases h
    exact emits_setExecutionStatus hs _

theorem startRound_emits {env : RoundEnv} {r : RoundStart} (hs : s.state.Valid) (h : startRound env s = .ok r) :
    Emits s.state r.session.state [] := by
  unfold startRound at h
  split at h
  · cases h
    exact .refl hs
  · cases h
    exact .refl hs
  · split at h
    · rename_i feedback _
      obtain ⟨t, ht, h⟩ := bind_ok h
      cases h
      have he : Emits s.state t.state [] := by
        have := emits_onEvents hs (by simp [Agent.messageEvent, NewId.event]) ht
        cases feedback <;> exact this
      exact he.trans (emits_setExecutionStatus he.valid _)
    · cases h
      exact .refl hs
  · obtain ⟨⟨t, stuck⟩, ht, h⟩ := bind_ok h
    have he := checkStuckOrNudge_emits hs ht
    dsimp only at h
    split at h
    · cases h
      exact he
    · cases h
      dsimp only [RoundStart.session]
      split
      · exact he.trans (emits_setExecutionStatus he.valid _)
      · exact he

theorem checkLimits_emits {env : RoundEnv} {max n : Nat} {finished again : Bool} (hs : s.state.Valid)
    (h : checkLimits env max n finished s = .ok (s', again)) : Emits s.state s'.state [] := by
  unfold checkLimits at h
  split at h
  · cases h
    exact .refl hs
  · split at h
    · obtain ⟨t, ht, h⟩ := bind_ok h
      cases h
      exact fail_emits hs ht
    · split at h
      · split at h
        · cases h
          exact .refl hs
        · obtain ⟨t, ht, h⟩ := bind_ok h
          cases h
          exact fail_emits hs ht
      · cases h
        exact .refl hs

/-- While an action is to be confirmed the loop does not go on. -/
theorem checkLimits_waiting {env : RoundEnv} {max n : Nat} {finished again : Bool}
    (hwait : s.state.executionStatus = .waitingForConfirmation) (h : checkLimits env max n finished s = .ok (s', again)) :
    again = false := by
  unfold checkLimits at h
  rw [if_pos hwait] at h
  cases h
  rfl

end LocalConversation

end AgentSdk
