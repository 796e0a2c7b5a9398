import AgentSdk.Agent
import AgentSdk.Lib.Dict
import AgentSdk.Lib.Result
/-!
# What a step emits

The calls and answers that `Agent._step` appends to the log and the active
branch, call by call: one spec lemma for each function of the agent.
-/

namespace AgentSdk
open Lib ConversationState

/-! ## Field changes keep the other fields -/

section Fields
variable {s s' : Session}

/-- Appending touches the log and HEAD only. -/
theorem appendEvent_fields {s s' : ConversationState} {e : Event} (h : s.appendEvent e = .ok s') :
    s'.blockedActions = s.blockedActions ∧ s'.executionStatus = s.executionStatus := by
  obtain ⟨log, -, rfl⟩ := appendEvent_ok h
  split <;> exact ⟨rfl, rfl⟩

theorem notify_fields (s : Session) (key : String) (t : ConversationState) :
    (s.notify key t).state.blockedActions = t.blockedActions ∧
      (s.notify key t).state.executionStatus = t.executionStatus := by
  unfold Session.notify
  split
  · exact ⟨rfl, rfl⟩
  · split
    · exact appendEvent_fields ‹_›
    · exact ⟨rfl, rfl⟩

theorem setExecutionStatus_status (s : Session) (status : ConversationExecutionStatus) :
    (s.setExecutionStatus status).state.executionStatus = status := by
  unfold Session.setExecutionStatus
  split
  · assumption
  · exact (notify_fields _ _ _).2

theorem onEvent_blocked {e : Event} (h : s.onEvent e = .ok s') : s'.state.blockedActions = s.state.blockedActions := by
  obtain ⟨state, hs, h⟩ := bind_ok h
  have happ := (appendEvent_fields hs).1
  dsimp only at h
  split at h
  · cases h
    split
    · unfold Session.setLastUserMessageId
      split
      · exact happ
      · rw [(notify_fields _ _ _).1]
        exact happ
    · exact happ
  · cases h
    exact happ

theorem onEvents_blocked {es : List Event} (h : s.onEvents es = .ok s') :
    s'.state.blockedActions = s.state.blockedActions := by
  induction es generalizing s with
  | nil => cases h; rfl
  | cons e es ih =>
    obtain ⟨s₁, h₁, h⟩ := bind_ok h
    rw [ih h, onEvent_blocked h₁]

/-- `block_action` sets one entry of the dict. -/
theorem blockAction_lookup (s : Session) (id : EventID) (reason : String) (x : EventID) :
    (s.blockAction id reason).state.blockedActions.lookup x =
      if x = id then some reason else s.state.blockedActions.lookup x := by
  unfold Session.blockAction
  split
  · rename_i h
    split
    · rename_i hx
      rw [hx, h]
    · rfl
  · rw [(notify_fields _ _ _).1, ConversationState.blockAction, List.lookup_cons]
    by_cases hx : x = id
    · simp [hx]
    · have hne : (x == id) = false := by simpa using hx
      rw [hne, if_neg hx]
      exact (lookup_filter_ne _ _ _).trans (if_neg hx)

theorem popBlockedAction_eq (s : Session) (id : EventID) :
    (s.popBlockedAction id).1 = s.state.blockedActions.lookup id ∧
      ∀ x, x ≠ id → (s.popBlockedAction id).2.state.blockedActions.lookup x = s.state.blockedActions.lookup x := by
  unfold Session.popBlockedAction ConversationState.popBlockedAction
  cases h : s.state.blockedActions.lookup id with
  | none => exact ⟨rfl, fun _ _ => rfl⟩
  | some reason =>
    refine ⟨rfl, fun x hx => ?_⟩
    dsimp only
    rw [(notify_fields _ _ _).1]
    exact (lookup_filter_ne _ _ _).trans (if_neg hx)

end Fields

namespace Agent

/-! ## What the calls emit -/

/-- The calls and answers stored while the calls are turned into actions. -/
def callEvents (env : StepEnv) (r : LLMResponse) (i : Nat) (call : MessageToolCall) : List Event :=
  match (env.call i).parsed with
  | .invalid error displayName arguments =>
    [actionEvent env r i call none call.name arguments, toolError env i call error displayName]
  | .valid action toolName arguments => [actionEvent env r i call (some action) toolName arguments]

def callsEvents (env : StepEnv) (r : LLMResponse) : Nat → List MessageToolCall → List Event
  | _, [] => []
  | i, call :: calls => callEvents env r i call ++ callsEvents env r (i + 1) calls

/-- The action of a call that validated. -/
def validAction (env : StepEnv) (r : LLMResponse) (i : Nat) (call : MessageToolCall) : Option Event :=
  match (env.call i).parsed with
  | .invalid _ _ _ => none
  | .valid action toolName arguments => some (actionEvent env r i call (some action) toolName arguments)

def validActions (env : StepEnv) (r : LLMResponse) : Nat → List MessageToolCall → List Event
  | _, [] => []
  | i, call :: calls => (validAction env r i call).toList ++ validActions env r (i + 1) calls

/-- The reasons that the PreToolUse hooks leave behind. -/
def blockedBy (env : StepEnv) : Nat → List MessageToolCall → (EventID → Option String) → EventID → Option String
  | _, [], d => d
  | i, _ :: calls, d =>
    blockedBy env (i + 1) calls fun x =>
      match (env.call i).parsed, (env.call i).blockReason with
      | .valid _ _ _, some reason => if x = (env.call i).actionId.id then some reason else d x
      | _, _ => d x

section Emission
variable {env : StepEnv} {r : LLMResponse} {s s' : Session}

theorem filter_hookEvents (ids : List NewId) : (hookEvents ids).filter Event.isToolEvent = [] := by
  simp [hookEvents, NewId.event, Event.isToolEvent, Event.action?, Event.observation?]

theorem emits_hookEvents {ids : List NewId} (hs : s.state.Valid) (h : s.onEvents (hookEvents ids) = .ok s') :
    Emits s.state s'.state [] := by
  have := emits_onEvents hs (by simp [hookEvents, NewId.event]) h
  rwa [filter_hookEvents] at this

/-- One call: its events, its action, and the hooks' verdict on it. -/
theorem getActionEvent_emits {i : Nat} {call : MessageToolCall} {o : Option Event} (hs : s.state.Valid)
    (h : getActionEvent env r i call s = .ok (s', o)) :
    Emits s.state s'.state (callEvents env r i call) ∧ o = validAction env r i call ∧
      ∀ x, s'.state.blockedActions.lookup x = blockedBy env i [call] (s.state.blockedActions.lookup ·) x := by
  unfold getActionEvent at h
  dsimp only at h
  unfold callEvents validAction blockedBy blockedBy
  cases hp : (env.call i).parsed with
  | invalid error displayName arguments =>
    rw [hp] at h
    obtain ⟨s₁, h₁, h⟩ := bind_ok h
    obtain ⟨s₂, h₂, h⟩ := bind_ok h
    cases h
    have he₁ := emits_onEvent hs rfl h₁
    refine ⟨he₁.trans (emits_onEvent he₁.valid rfl h₂), rfl, fun x => ?_⟩
    rw [onEvent_blocked h₂, onEvent_blocked h₁]
  | valid action toolName arguments =>
    rw [hp] at h
    obtain ⟨s₁, h₁, h⟩ := bind_ok h
    obtain ⟨s₃, h₃, h⟩ := bind_ok h
    cases h
    have he₁ := emits_hookEvents hs h₁
    cases hb : (env.call i).blockReason with
    | none =>
      rw [hb] at h₃
      have he₃ := he₁.trans (emits_onEvent he₁.valid rfl h₃)
      refine ⟨he₃, rfl, fun x => ?_⟩
      rw [onEvent_blocked h₃, onEvents_blocked h₁]
    | some reason =>
      rw [hb] at h₃
      have he₂ := emits_blockAction he₁.valid (env.call i).actionId.id reason
      have he₃ := (he₁.trans he₂).trans (emits_onEvent he₂.valid rfl h₃)
      refine ⟨he₃, rfl, fun x => ?_⟩
      rw [onEvent_blocked h₃]
      dsimp only
      rw [blockAction_lookup, onEvents_blocked h₁]
      rfl

theorem getActionEvents_emits {i : Nat} {calls : List MessageToolCall} {es : List Event} (hs : s.state.Valid)
    (h : getActionEvents env r i calls s = .ok (s', es)) :
    Emits s.state s'.state (callsEvents env r i calls) ∧ es = validActions env r i calls ∧
      ∀ x, s'.state.blockedActions.lookup x = blockedBy env i calls (s.state.blockedActions.lookup ·) x := by
  induction calls generalizing i s es with
  | nil =>
    cases h
    exact ⟨.refl hs, rfl, fun _ => rfl⟩
  | cons call calls ih =>
    obtain ⟨⟨s₁, o⟩, h₁, h⟩ := bind_ok h
    obtain ⟨⟨s₂, es'⟩, h₂, h⟩ := bind_ok h
    cases h
    obtain ⟨he₁, rfl, hb₁⟩ := getActionEvent_emits hs h₁
    obtain ⟨he₂, rfl, hb₂⟩ := ih he₁.valid h₂
    refine ⟨he₁.trans he₂, rfl, fun x => ?_⟩
    rw [hb₂]
    simp only [hb₁]
    rfl

theorem requiresUserConfirmation_emits {actions : List Event} {confirm : Bool} (hs : s.state.Valid)
    (h : requiresUserConfirmation env s actions = .ok (s', confirm)) :
    Emits s.state s'.state [] ∧
      (confirm = true → s'.state.executionStatus = .waitingForConfirmation) ∧
      (confirm = false → s'.state.blockedActions = s.state.blockedActions) := by
  unfold requiresUserConfirmation at h
  obtain ⟨s₁, h₁, h⟩ := bind_ok h
  have he₁ : Emits s.state s₁.state [] := by
    have hnone : ∀ e ∈ (analyzeForConfirmation env actions).2.toList,
        e.parentId = none ∧ e.isToolEvent = false := by
      unfold analyzeForConfirmation
      split
      · simp
      · split
        · simp
        · simp [NewId.event, Event.isToolEvent, Event.action?, Event.observation?]
    have he := emits_onEvents hs (fun e he => (hnone e he).1) h₁
    rwa [List.filter_eq_nil_iff.2 fun e he => by simp [(hnone e he).2]] at he
  have hset := Except.ok.inj h
  unfold setConfirmationStatus at hset
  by_cases hany : (analyzeForConfirmation env actions).1.any env.shouldConfirm
  · rw [if_pos hany] at hset
    obtain ⟨rfl, rfl⟩ := Prod.mk.inj hset
    exact ⟨he₁.trans (emits_setExecutionStatus he₁.valid _), fun _ => setExecutionStatus_status _ _, by simp⟩
  · rw [if_neg hany] at hset
    obtain ⟨rfl, rfl⟩ := Prod.mk.inj hset
    exact ⟨he₁, by simp, fun _ => onEvents_blocked h₁⟩

/-! ## What the batch emits -/

theorem popBlockedActions_emits (es : List Event) (hs : s.state.Valid) :
    Emits s.state (popBlockedActions es s).1.state [] ∧
      (∀ x ∈ es.map Event.id, (popBlockedActions es s).2.lookup x = s.state.blockedActions.lookup x) ∧
      ∀ x, x ∉ es.map Event.id → (popBlockedActions es s).2.lookup x = none := by
  induction es generalizing s with
  | nil => exact ⟨.refl hs, by simp, fun _ _ => rfl⟩
  | cons e es ih =>
    obtain ⟨hpop, hother⟩ := popBlockedAction_eq s e.id
    have hemit := emits_popBlockedAction hs e.id
    obtain ⟨he, hin, hout⟩ := ih hemit.valid
    unfold popBlockedActions
    dsimp only
    rw [hpop]
    refine ⟨hemit.trans he, fun x hx => ?_, fun x hx => ?_⟩
    · by_cases hxe : x = e.id
      · subst hxe
        cases hl : s.state.blockedActions.lookup e.id with
        | some reason => simp
        | none =>
          rw [Option.map_none, Option.toList_none, List.nil_append]
          by_cases hmem : e.id ∈ es.map Event.id
          · have hsame : (s.popBlockedAction e.id).2 = s := by
              simp only [Session.popBlockedAction, ConversationState.popBlockedAction, hl]
            rw [hin _ hmem, hsame, hl]
          · exact hout _ hmem
      · have hxs : x ∈ es.map Event.id := by simpa [hxe] using hx
        have hne : (x == e.id) = false := by simpa using hxe
        cases s.state.blockedActions.lookup e.id with
        | none => rw [Option.map_none, Option.toList_none, List.nil_append, hin _ hxs, hother x hxe]
        | some reason =>
          rw [Option.map_some, Option.toList_some, List.singleton_append, List.lookup_cons, hne]
          exact (hin _ hxs).trans (hother x hxe)
    · simp only [List.map_cons, List.mem_cons, not_or] at hx
      have hne : (x == e.id) = false := by simpa using hx.1
      cases s.state.blockedActions.lookup e.id with
      | none => rw [Option.map_none, Option.toList_none, List.nil_append, hout _ hx.2]
      | some reason =>
        rw [Option.map_some, Option.toList_some, List.singleton_append, List.lookup_cons, hne]
        exact hout _ hx.2

/-- The answers to a list of actions, by the reasons that block them. -/
def answers (env : StepEnv) (blocked : EventID → Option String) (actions : List Event) : List Event :=
  actions.filterMap fun e => e.action?.map (answer env (blocked e.id) e.id)

theorem answer_tool (env : StepEnv) (reason : Option String) (id : EventID) (a : ActionEvent) :
    (answer env reason id a).parentId = none ∧ (answer env reason id a).isToolEvent = true := by
  cases reason <;> exact ⟨rfl, rfl⟩

theorem postToolUse_emits {id : EventID} {result : Event} (hs : s.state.Valid)
    (h : s.onEvents (postToolUse env id result) = .ok s') : Emits s.state s'.state [] := by
  unfold postToolUse at h
  split at h
  · exact emits_hookEvents hs h
  · cases h
    exact .refl hs

theorem emit_emits {reasons : List (EventID × String)} {es : List Event} (hs : s.state.Valid)
    (h : emit env reasons es s = .ok s') : Emits s.state s'.state (answers env (reasons.lookup ·) es) := by
  induction es generalizing s with
  | nil => cases h; exact .refl hs
  | cons e es ih =>
    unfold emit at h
    cases ha : e.action? with
    | none =>
      rw [ha] at h
      have : answers env (reasons.lookup ·) (e :: es) = answers env (reasons.lookup ·) es := by
        simp [answers, ha]
      rw [this]
      exact ih hs h
    | some a =>
      rw [ha] at h
      obtain ⟨s₁, h₁, h⟩ := bind_ok h
      obtain ⟨s₂, h₂, h⟩ := bind_ok h
      obtain ⟨hp, ht⟩ := answer_tool env (reasons.lookup e.id) e.id a
      have he₁ := postToolUse_emits hs h₁
      have he₂ := emits_onEvent he₁.valid hp h₂
      rw [List.filter_cons_of_pos ht] at he₂
      have hcons : answers env (reasons.lookup ·) (e :: es) =
          answer env (reasons.lookup e.id) e.id a :: answers env (reasons.lookup ·) es := by
        simp [answers, ha]
      rw [hcons]
      exact (he₁.trans he₂).trans (ih he₂.valid h)

theorem emitUserMessage_emits {m : MessageRun} (hs : s.state.Valid) (h : emitUserMessage m s = .ok s') :
    Emits s.state s'.state [] := by
  obtain ⟨s₁, h₁, h⟩ := bind_ok h
  have he₁ := emits_hookEvents hs h₁
  cases hb : m.blockReason with
  | none =>
    rw [hb] at h
    exact he₁.trans (emits_onEvent he₁.valid rfl h)
  | some reason =>
    rw [hb] at h
    have he₂ := emits_blockMessage he₁.valid m.originalId reason
    exact (he₁.trans he₂).trans (emits_onEvent he₂.valid rfl h)

theorem finalize_emits {actions : List Event} {hasFinish : Bool} {reasons : List (EventID × String)}
    (hs : s.state.Valid) (h : finalize env actions hasFinish reasons s = .ok s') : Emits s.state s'.state [] := by
  unfold finalize at h
  split at h
  · cases h
    exact .refl hs
  · split at h
    · have he : Emits s.state (s.notify "agent_state" s.state).state [] := emits_notify hs ⟨rfl, rfl, rfl⟩
      exact he.trans (emitUserMessage_emits he.valid h)
    · cases h
      exact emits_setExecutionStatus hs _

/-- A batch emits the answers to its actions up to the first `FinishTool`. -/
theorem executeActions_emits {actions : List Event} (hs : s.state.Valid) (h : executeActions env actions s = .ok s') :
    Emits s.state s'.state (answers env (s.state.blockedActions.lookup ·) (truncateAtFinish actions).1) := by
  unfold executeActions at h
  dsimp only at h
  obtain ⟨s₂, h₂, h⟩ := bind_ok h
  obtain ⟨he₁, hreasons, -⟩ := popBlockedActions_emits (truncateAtFinish actions).1 hs
  have he₂ := emit_emits he₁.valid h₂
  have he₃ := finalize_emits he₂.valid h
  have hans : ∀ es : List Event, es ⊆ (truncateAtFinish actions).1 →
      answers env ((popBlockedActions (truncateAtFinish actions).1 s).2.lookup ·) es =
        answers env (s.state.blockedActions.lookup ·) es := by
    intro es hsub
    refine List.filterMap_congr fun e he => ?_
    dsimp only
    rw [hreasons e.id (List.mem_map_of_mem (hsub he))]
  rw [hans _ (List.Subset.refl _)] at he₂
  simpa using (he₁.trans he₂).trans he₃

theorem emitTokens_emits (hs : s.state.Valid) (h : emitTokens env s = .ok s') : Emits s.state s'.state [] := by
  unfold emitTokens at h
  split at h
  · exact emits_onEvent hs rfl h
  · cases h
    exact .refl hs

/-! ## What the response and the step emit -/

theorem handleToolCalls_emits (hs : s.state.Valid) (hstatus : s'.state.executionStatus ≠ .waitingForConfirmation)
    (h : handleToolCalls env r s = .ok s') :
    Emits s.state s'.state (callsEvents env r 0 r.message.calls ++
      answers env (blockedBy env 0 r.message.calls (s.state.blockedActions.lookup ·))
        (truncateAtFinish (validActions env r 0 r.message.calls)).1) := by
  unfold handleToolCalls at h
  obtain ⟨⟨s₁, actions⟩, h₁, h⟩ := bind_ok h
  obtain ⟨⟨s₂, confirm⟩, h₂, h⟩ := bind_ok h
  obtain ⟨he₁, rfl, hblocked⟩ := getActionEvents_emits hs h₁
  obtain ⟨he₂, hwait, hkeep⟩ := requiresUserConfirmation_emits he₁.valid h₂
  have he := he₁.trans he₂
  rw [List.append_nil] at he
  cases confirm with
  | true =>
    cases h
    exact absurd (hwait rfl) hstatus
  | false =>
    dsimp only [Bool.false_eq_true] at h
    have hlookup : (s₂.state.blockedActions.lookup ·) =
        blockedBy env 0 r.message.calls (s.state.blockedActions.lookup ·) := by
      funext x
      rw [hkeep rfl]
      exact hblocked x
    by_cases hnil : validActions env r 0 r.message.calls = []
    · rw [if_neg (by simp), if_pos hnil] at h
      have he₃ := he.trans (emitTokens_emits he.valid h)
      simpa [hnil, truncateAtFinish, answers] using he₃
    · rw [if_neg (by simp), if_neg hnil] at h
      obtain ⟨s₃, h₃, h⟩ := bind_ok h
      have he₃ := executeActions_emits he.valid h₃
      rw [hlookup] at he₃
      simpa using (he.trans he₃).trans (emitTokens_emits he₃.valid h)

theorem handleMessage_emits {hcalls : r.message.calls = []} {hasContent : Bool} (hs : s.state.Valid)
    (h : handleMessage env r hcalls hasContent s = .ok s') : Emits s.state s'.state [] := by
  unfold handleMessage at h
  obtain ⟨s₁, h₁, h⟩ := bind_ok h
  obtain ⟨s₂, h₂, h⟩ := bind_ok h
  have he₁ := emits_onEvent hs rfl h₁
  have he₂ := he₁.trans (emitTokens_emits he₁.valid h₂)
  cases hasContent with
  | true =>
    cases h
    exact he₂.trans (emits_setExecutionStatus he₂.valid _)
  | false => exact he₂.trans (emits_onEvent he₂.valid rfl h)

/-- The calls and answers that a response adds to a session whose blocked
actions are `d`. -/
def responseTools (env : StepEnv) (r : LLMResponse) (d : EventID → Option String) : List Event :=
  callsEvents env r 0 r.message.calls ++
    answers env (blockedBy env 0 r.message.calls d) (truncateAtFinish (validActions env r 0 r.message.calls)).1

theorem handleResponse_emits (hs : s.state.Valid) (hstatus : s'.state.executionStatus ≠ .waitingForConfirmation)
    (h : handleResponse env r s = .ok s') :
    Emits s.state s'.state (responseTools env r (s.state.blockedActions.lookup ·)) := by
  unfold handleResponse at h
  split at h
  · rename_i hcalls
    have he := handleMessage_emits hs h
    simpa [responseTools, hcalls, callsEvents, validActions, truncateAtFinish, answers] using he
  · exact handleToolCalls_emits hs hstatus h

theorem readView_sameTree {s t : ConversationState} (h : s.readView = .ok t) :
    s.SameTree t ∧ t.blockedActions = s.blockedActions := by
  have hrebuild : ∀ {t}, s.rebuildView = .ok t → s.SameTree t ∧ t.blockedActions = s.blockedActions := by
    intro t h
    obtain ⟨branch, -, h⟩ := bind_ok h
    cases h
    exact ⟨⟨rfl, rfl, rfl⟩, rfl⟩
  unfold readView at h
  dsimp only at h
  split at h
  · cases h
    exact ⟨⟨rfl, rfl, rfl⟩, rfl⟩
  · split at h
    · split at h
      · cases h
        exact ⟨⟨rfl, rfl, rfl⟩, rfl⟩
      · exact hrebuild h
    · exact hrebuild h

theorem rebuildView_sameTree {s t : ConversationState} (h : s.rebuildView = .ok t) : s.SameTree t := by
  obtain ⟨branch, -, h⟩ := bind_ok h
  cases h
  exact ⟨rfl, rfl, rfl⟩

/-- The response to a step's request, when the step gets to handle one. -/
def handledResponse (env : StepEnv) (s : Session) : Option LLMResponse :=
  match messageBlock s, env.llm with
  | none, .response r => some r
  | _, _ => none

/-- The calls and answers of a step that has nothing pending. -/
def stepTools (env : StepEnv) (s : Session) : List Event :=
  match handledResponse env s with
  | some r => responseTools env r (s.state.blockedActions.lookup ·)
  | none => []

theorem sample_emits (hs : s.state.Valid) (hstatus : s'.state.executionStatus ≠ .waitingForConfirmation)
    (hblock : messageBlock s = none) (h : sample env s = .ok s') : Emits s.state s'.state (stepTools env s) := by
  unfold sample at h
  obtain ⟨state, hread, h⟩ := bind_ok h
  obtain ⟨htree, hblocked⟩ := readView_sameTree (mapError_ok hread)
  have he := Emits.sameTree hs htree
  have happend : ∀ {t t' : Session} {e : Event}, Emits s.state t.state [] → e.parentId = none →
      e.isToolEvent = false → t.onEvent e = .ok t' → Emits s.state t'.state [] := by
    intro t t' e he hp ht h
    simpa [ht] using he.trans (emits_onEvent he.valid hp h)
  simp only [stepTools, handledResponse, hblock]
  cases hllm : env.llm with
  | condensation new c =>
    rw [hllm] at h
    exact happend he rfl rfl (mapError_ok h)
  | imageUnsupported new text =>
    rw [hllm] at h
    obtain ⟨t, ht, h⟩ := bind_ok h
    cases h
    have het := happend he rfl rfl (mapError_ok ht)
    exact het.trans (emits_setExecutionStatus het.valid _)
  | functionCallValidation m =>
    rw [hllm] at h
    exact he.trans (emitUserMessage_emits he.valid (mapError_ok h))
  | contentPolicyViolation m =>
    rw [hllm] at h
    exact he.trans (emitUserMessage_emits he.valid (mapError_ok h))
  | malformedHistory requestId =>
    rw [hllm] at h
    cases requestId with
    | none => cases h
    | some new =>
      obtain ⟨t, ht, h⟩ := bind_ok h
      have het := he.trans (Emits.sameTree he.valid (rebuildView_sameTree (mapError_ok ht)))
      exact happend het rfl rfl (mapError_ok h)
  | contextWindowExceed requestId =>
    rw [hllm] at h
    cases requestId with
    | none => cases h
    | some new => exact happend he rfl rfl (mapError_ok h)
  | response r =>
    rw [hllm] at h
    have hr := handleResponse_emits he.valid hstatus (mapError_ok h)
    dsimp only at hr
    rw [hblocked] at hr
    exact he.trans hr

/-- What a step adds when nothing is pending and it does not wait for the user. -/
theorem step_emits {branch : List Event} (hs : s.state.Valid) (hbranch : s.state.activeBranch = .ok branch)
    (hpending : getUnmatchedActions branch = []) (hstatus : s'.state.executionStatus ≠ .waitingForConfirmation)
    (h : step env s = .ok s') : Emits s.state s'.state (stepTools env s) := by
  unfold step at h
  rw [hbranch] at h
  obtain ⟨_, hb, h⟩ := bind_ok h
  cases hb
  rw [if_neg (by simp [hpending])] at h
  cases hlast : s.state.lastUserMessageId with
  | none =>
    rw [hlast] at h
    exact sample_emits hs hstatus (by simp [messageBlock, hlast]) h
  | some id =>
    rw [hlast] at h
    dsimp only at h
    have hpop := emits_popBlockedMessage hs id
    cases hblock : s.state.blockedMessages.lookup id with
    | none =>
      have heq : s.popBlockedMessage id = (none, s) := by
        simp only [Session.popBlockedMessage, ConversationState.popBlockedMessage, hblock]
      rw [heq] at h
      exact sample_emits hs hstatus (by simp [messageBlock, hlast, hblock]) h
    | some reason =>
      have heq : (s.popBlockedMessage id).1 = some reason := by
        simp only [Session.popBlockedMessage, ConversationState.popBlockedMessage, hblock]
      have htools : stepTools env s = [] := by
        simp [stepTools, handledResponse, messageBlock, hlast, hblock]
      rw [htools]
      generalize s.popBlockedMessage id = p at h hpop heq
      obtain ⟨o, t⟩ := p
      cases heq
      cases h
      exact hpop.trans (emits_setExecutionStatus hpop.valid _)

end Emission

end Agent

end AgentSdk
