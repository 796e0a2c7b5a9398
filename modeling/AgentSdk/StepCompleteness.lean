import AgentSdk.StepEmission
/-!
# Every call of a step is answered

When each executable action that a step appended has its one answer by the end
of the step. `_truncate_at_finish` drops calls that are in the log already, so
this depends on what follows a `FinishTool` call.
-/

namespace AgentSdk
open Lib ConversationState

/-! ## The property -/

/-- From `s` to `s'` every executable action added got exactly one
observation-like event with its tool call id, and nothing is left pending. -/
structure StepComplete (s s' : ConversationState) : Prop where
  answered : ∀ e ∈ s'.events.events.drop s.events.events.length, ∀ id, e.isExecutable = true →
    e.toolCallId? = some id → (s'.events.events.drop s.events.events.length).countP (Event.observes id) = 1
  closed : ∃ branch, s'.activeBranch = .ok branch ∧ getUnmatchedActions branch = []

/-- `StepComplete` on the calls and answers alone. -/
def ToolsComplete (tools : List Event) : Prop :=
  (∀ e ∈ tools, ∀ id, e.isExecutable = true → e.toolCallId? = some id →
    tools.countP (Event.observes id) = 1) ∧ getUnmatchedActions tools = []

theorem countP_observes_tools (id : ToolCallID) (es : List Event) :
    ((es.filter Event.isToolEvent).map Event.unstamped).countP (Event.observes id) =
      es.countP (Event.observes id) := by
  rw [List.countP_map, List.countP_filter]
  refine List.countP_congr fun e _ => ?_
  have hu : Event.observes id e.unstamped = Event.observes id e := rfl
  simp only [Function.comp_apply, hu, Bool.and_eq_true]
  exact ⟨fun h => h.1, fun h => ⟨h, Event.isToolEvent_of_observes h⟩⟩

theorem stepComplete_iff {s s' : ConversationState} {tools branch : List Event} (hs : s.Valid)
    (h : Emits s s' tools) (hbranch : s.activeBranch = .ok branch) (hpending : getUnmatchedActions branch = []) :
    StepComplete s s' ↔ ToolsComplete tools := by
  obtain ⟨new, hnew, htools⟩ := h.log
  obtain ⟨l, hl⟩ := hs.exists_branch
  obtain ⟨new', hb, htools'⟩ := h.branch l hl
  have hadded : s'.events.events.drop s.events.events.length = new := by rw [hnew, List.drop_left]
  have hlb : l = branch := by
    rw [activeBranch_eq hl] at hbranch
    exact Except.ok.inj hbranch
  have hunmatched : getUnmatchedActions (l ++ new') = [] ↔ getUnmatchedActions tools = [] := by
    rw [getUnmatchedActions_append, hlb, hpending, ← htools', getUnmatchedActions_unstamped,
      getUnmatchedActions_filter]
    simp
  have hanswered : (∀ e ∈ new, ∀ id, e.isExecutable = true → e.toolCallId? = some id →
      new.countP (Event.observes id) = 1) ↔ ∀ e ∈ tools, ∀ id, e.isExecutable = true → e.toolCallId? = some id →
        tools.countP (Event.observes id) = 1 := by
    subst htools
    simp only [countP_observes_tools, List.forall_mem_map, List.mem_filter, and_imp]
    exact ⟨fun h e he _ id hx hid => h e he id hx hid,
      fun h e he id hx hid => h e he (isToolEvent_of_isExecutable hx) id hx hid⟩
  constructor
  · rintro ⟨hans, b, hb', hclosed⟩
    rw [activeBranch_eq hb] at hb'
    cases hb'
    exact ⟨hanswered.1 (hadded ▸ hans), hunmatched.1 hclosed⟩
  · rintro ⟨hans, hclosed⟩
    exact ⟨hadded.symm ▸ hanswered.2 hans, _, activeBranch_eq hb, hunmatched.2 hclosed⟩

/-! ## The calls of a response, by position -/

def ParsedCall.isValid : ParsedCall → Bool
  | .valid _ _ _ => true
  | .invalid _ _ _ => false

/-- A validated `FinishTool` call. -/
def ParsedCall.isFinish : ParsedCall → Bool
  | .valid _ toolName _ => toolName = Agent.finishToolName
  | .invalid _ _ _ => false

/-- The outcomes that `_run_safe` turns into an `AgentErrorEvent`. -/
def ToolOutcome.isError : ToolOutcome → Bool
  | .observation _ _ => false
  | _ => true

namespace Agent

/-- A `FinishTool` call stands before the `k`-th call. -/
def finished (env : StepEnv) (k : Nat) : Bool := (List.range k).any fun j => (env.call j).parsed.isFinish

/-- The `k`-th call validated but comes after a `FinishTool` call. -/
def discarded (env : StepEnv) (k : Nat) : Bool := (env.call k).parsed.isValid && finished env k

/-- Every call but the discarded ones gets an answer under its id. -/
def answeredIds (env : StepEnv) (i : Nat) (calls : List MessageToolCall) : List ToolCallID :=
  ((calls.zipIdx i).filter fun p => !discarded env p.2).map (·.1.id)

section Calls
variable {env : StepEnv} {r : LLMResponse} {i : Nat} {call : MessageToolCall} {calls : List MessageToolCall} {e : Event}

theorem finished_succ (env : StepEnv) (k : Nat) :
    finished env (k + 1) = (finished env k || (env.call k).parsed.isFinish) := by
  simp [finished, List.range_succ]

theorem answeredIds_cons : answeredIds env i (call :: calls) =
    if discarded env i then answeredIds env (i + 1) calls else call.id :: answeredIds env (i + 1) calls := by
  unfold answeredIds
  rw [List.zipIdx_cons, List.filter_cons]
  cases discarded env i <;> rfl

theorem truncateAtFinish_cons (e : Event) (es : List Event) :
    (truncateAtFinish (e :: es)).1 = if isFinishCall e then [e] else e :: (truncateAtFinish es).1 := by
  unfold truncateAtFinish
  rw [List.findIdx?_cons]
  cases isFinishCall e with
  | true => rfl
  | false => cases es.findIdx? isFinishCall <;> rfl

theorem validAction_spec (h : validAction env r i call = some e) :
    ∃ a, e.action? = some a ∧ a.action.isSome = true ∧ a.toolCallId = call.id ∧ e.id = (env.call i).actionId.id ∧
      (env.call i).parsed.isValid = true ∧ isFinishCall e = (env.call i).parsed.isFinish := by
  unfold validAction at h
  split at h
  · cases h
  · rename_i action toolName arguments hp
    cases h
    rw [hp]
    exact ⟨_, rfl, rfl, rfl, rfl, rfl, rfl⟩

theorem validAction_isSome (r : LLMResponse) (i : Nat) (call : MessageToolCall) :
    (∃ e, validAction env r i call = some e) ↔ (env.call i).parsed.isValid = true := by
  unfold validAction
  cases (env.call i).parsed <;> simp [ParsedCall.isValid]

/-- The actions that are executed, by position. -/
theorem mem_executed : e ∈ (truncateAtFinish (validActions env r i calls)).1 ↔
    ∃ k call, calls[k]? = some call ∧ validAction env r (i + k) call = some e ∧
      ∀ j < k, (env.call (i + j)).parsed.isFinish = false := by
  induction calls generalizing i with
  | nil => simp [validActions, truncateAtFinish]
  | cons call calls ih =>
    have hshift : (∃ k c, (call :: calls)[k + 1]? = some c ∧ validAction env r (i + (k + 1)) c = some e ∧
        ∀ j < k + 1, (env.call (i + j)).parsed.isFinish = false) ↔
        (env.call i).parsed.isFinish = false ∧ e ∈ (truncateAtFinish (validActions env r (i + 1) calls)).1 := by
      rw [ih]
      constructor
      · rintro ⟨k, c, hc, hv, hj⟩
        refine ⟨hj 0 (by omega), k, c, hc, ?_, fun j hjk => ?_⟩
        · rwa [Nat.add_assoc, Nat.add_comm 1 k]
        · rw [Nat.add_assoc, Nat.add_comm 1 j]
          exact hj (j + 1) (by omega)
      · rintro ⟨h0, k, c, hc, hv, hj⟩
        refine ⟨k, c, hc, ?_, fun j hjk => ?_⟩
        · rwa [Nat.add_assoc, Nat.add_comm 1 k] at hv
        · cases j with
          | zero => exact h0
          | succ j =>
            have := hj j (by omega)
            rwa [Nat.add_assoc, Nat.add_comm 1 j] at this
    have hsplit : (∃ k c, (call :: calls)[k]? = some c ∧ validAction env r (i + k) c = some e ∧
        ∀ j < k, (env.call (i + j)).parsed.isFinish = false) ↔
        validAction env r i call = some e ∨ (env.call i).parsed.isFinish = false ∧
          e ∈ (truncateAtFinish (validActions env r (i + 1) calls)).1 := by
      rw [← hshift]
      constructor
      · rintro ⟨_ | k, c, hc, hv, hj⟩
        · cases hc
          exact .inl hv
        · exact .inr ⟨k, c, hc, hv, hj⟩
      · rintro (hv | ⟨k, c, hc, hv, hj⟩)
        · exact ⟨0, call, rfl, hv, by simp⟩
        · exact ⟨k + 1, c, hc, hv, hj⟩
    rw [hsplit, validActions]
    cases hv : validAction env r i call with
    | none =>
      have hfin : (env.call i).parsed.isFinish = false := by
        unfold validAction at hv
        cases hp : (env.call i).parsed with
        | invalid => rfl
        | valid => simp [hp] at hv
      simp [hfin]
    | some f =>
      obtain ⟨_, -, -, -, -, -, hfin⟩ := validAction_spec hv
      rw [Option.toList_some, List.singleton_append, truncateAtFinish_cons, hfin]
      cases (env.call i).parsed.isFinish <;> simp [eq_comm]

theorem mem_validActions : e ∈ validActions env r i calls ↔
    ∃ k call, calls[k]? = some call ∧ validAction env r (i + k) call = some e := by
  induction calls generalizing i with
  | nil => simp [validActions]
  | cons call calls ih =>
    rw [validActions, List.mem_append, Option.mem_toList, ih]
    constructor
    · rintro (hv | ⟨k, c, hc, hv⟩)
      · exact ⟨0, call, rfl, hv⟩
      · exact ⟨k + 1, c, hc, by rwa [Nat.add_assoc, Nat.add_comm 1 k] at hv⟩
    · rintro ⟨_ | k, c, hc, hv⟩
      · cases hc
        exact .inl hv
      · exact .inr ⟨k, c, hc, by rwa [Nat.add_assoc, Nat.add_comm 1 k]⟩

/-- Actions of distinct positions have distinct ids. -/
theorem validActions_inj (hn : ((validActions env r i calls).map Event.id).Nodup) {k k' : Nat}
    {c c' : MessageToolCall} {e e' : Event} (hc : calls[k]? = some c) (hv : validAction env r (i + k) c = some e)
    (hc' : calls[k']? = some c') (hv' : validAction env r (i + k') c' = some e') (hid : e.id = e'.id) : k = k' := by
  induction calls generalizing i k k' with
  | nil => simp at hc
  | cons call calls ih =>
    rw [validActions, List.map_append, List.nodup_append] at hn
    obtain ⟨-, hrest, hdisj⟩ := hn
    have hlater : ∀ {m : Nat} {x : MessageToolCall} {f g : Event}, validAction env r i call = some f →
        calls[m]? = some x → validAction env r (i + (m + 1)) x = some g → f.id ≠ g.id := by
      intro m x f g hf hx hg
      refine hdisj f.id ?_ g.id (List.mem_map_of_mem (mem_validActions.2 ⟨m, x, hx, ?_⟩))
      · simp [hf]
      · rwa [Nat.add_assoc, Nat.add_comm 1 m]
    rcases k with _ | k <;> rcases k' with _ | k'
    · rfl
    · cases hc
      exact absurd hid (hlater hv hc' hv')
    · cases hc'
      exact absurd hid.symm (hlater hv' hc hv)
    · rw [List.getElem?_cons_succ] at hc hc'
      congr 1
      refine ih hrest hc ?_ hc' ?_
      · rwa [Nat.add_assoc, Nat.add_comm 1 k]
      · rwa [Nat.add_assoc, Nat.add_comm 1 k']

/-! ## How often an id is answered -/

theorem observes_answer {blocked : EventID → Option String} {a : ActionEvent} {id : ToolCallID} :
    Event.observes id (answer env (blocked e.id) e.id a) = decide (a.toolCallId = id) := by
  unfold answer
  cases blocked e.id with
  | some reason => rfl
  | none =>
    have hcall : a.toolCall.id = a.toolCallId := a.callId.symm
    simp [runSafe, NewId.event, Event.observes, Event.observation?, hcall]

theorem countP_callEvents (id : ToolCallID) : (callEvents env r i call).countP (Event.observes id) =
    if (env.call i).parsed.isValid = false ∧ call.id = id then 1 else 0 := by
  unfold callEvents
  cases (env.call i).parsed with
  | valid => simp [ParsedCall.isValid, actionEvent, NewId.event, Event.observes, Event.observation?]
  | invalid =>
    simp [ParsedCall.isValid, actionEvent, toolError, NewId.event, Event.observes, Event.observation?,
      List.countP_cons]

/-- Over the calls from the `i`-th on: the errors, and the answers to what is
executed, have the answered ids. -/
theorem countP_tools (blocked : EventID → Option String) (id : ToolCallID) :
    (callsEvents env r i calls).countP (Event.observes id) +
      (if finished env i then 0 else (answers env blocked
        (truncateAtFinish (validActions env r i calls)).1).countP (Event.observes id)) =
      (answeredIds env i calls).count id := by
  induction calls generalizing i with
  | nil => simp [callsEvents, validActions, truncateAtFinish, answers, answeredIds]
  | cons call calls ih =>
    have ih := @ih (i + 1)
    rw [finished_succ] at ih
    rw [callsEvents, List.countP_append, countP_callEvents, validActions, answeredIds_cons]
    cases hv : validAction env r i call with
    | none =>
      have hp : (env.call i).parsed.isValid = false := by
        rw [← Bool.not_eq_true, ← validAction_isSome r i call, hv]
        simp
      have hfin : (env.call i).parsed.isFinish = false := by
        cases hparsed : (env.call i).parsed with
        | invalid => rfl
        | valid => simp [hparsed, ParsedCall.isValid] at hp
      simp only [hfin, Bool.or_false] at ih
      simp only [discarded, hp, Bool.false_and, Bool.false_eq_true, if_false, Option.toList_none, List.nil_append,
        List.count_cons, ← ih, true_and, beq_iff_eq]
      omega
    | some e =>
      obtain ⟨a, ha, -, hid, -, hp, hfin⟩ := validAction_spec hv
      simp only [discarded, hp, Bool.true_and, Option.toList_some, List.singleton_append, Bool.true_eq_false,
        false_and, if_false, Nat.zero_add]
      cases hdone : finished env i with
      | true =>
        simp only [hdone, Bool.true_or, if_true] at ih
        simpa using ih
      | false =>
        simp only [hdone, Bool.false_or] at ih
        simp only [Bool.false_eq_true, if_false, List.count_cons, ← ih, truncateAtFinish_cons, hfin, beq_iff_eq]
        have hanswer : ∀ es, (answers env blocked (e :: es)).countP (Event.observes id) =
            (answers env blocked es).countP (Event.observes id) + if call.id = id then 1 else 0 := by
          intro es
          simp only [answers, List.filterMap_cons, ha, Option.map_some, List.countP_cons, observes_answer, hid,
            decide_eq_true_eq]
        cases (env.call i).parsed.isFinish with
        | true =>
          have hnil : (answers env blocked []).countP (Event.observes id) = 0 := rfl
          simp only [if_true, hanswer, hnil, Nat.add_zero, Nat.zero_add]
        | false => simp only [Bool.false_eq_true, if_false, hanswer]; omega

/-! ## What is left unmatched -/

theorem answers_tools (blocked : EventID → Option String) (es : List Event) :
    ∀ o ∈ answers env blocked es, o.isExecutable = false := by
  intro o ho
  obtain ⟨e, -, he⟩ := List.mem_filterMap.1 ho
  obtain ⟨a, -, rfl⟩ := Option.map_eq_some_iff.1 he
  unfold answer
  cases blocked e.id <;> rfl

theorem getUnmatchedActions_of_not_executable {es : List Event} (h : ∀ e ∈ es, e.isExecutable = false) :
    getUnmatchedActions es = [] := by
  refine List.eq_nil_iff_forall_not_mem.2 fun e he => ?_
  have := isExecutable_of_mem_getUnmatchedActions he
  rw [h e (getUnmatchedActions_subset es he)] at this
  cases this

/-- Among the events of later calls, only the error of an invalid one answers an action. -/
theorem answers_callsEvents {a : ActionEvent} (ha : e.action? = some a) :
    (∃ o ∈ callsEvents env r i calls, o.answers e = true) ↔
      ∃ k call, calls[k]? = some call ∧ (env.call (i + k)).parsed.isValid = false ∧ call.id = a.toolCallId := by
  have hid : e.toolCallId? = some a.toolCallId := by
    simp only [Event.toolCallId?, Event.action?_eq_some.1 ha]
  induction calls generalizing i with
  | nil => simp [callsEvents]
  | cons call calls ih =>
    have hhead : (∃ o ∈ callEvents env r i call, o.answers e = true) ↔
        (env.call i).parsed.isValid = false ∧ call.id = a.toolCallId := by
      unfold callEvents
      cases (env.call i).parsed with
      | valid => simp [ParsedCall.isValid, actionEvent, NewId.event, Event.answers]
      | invalid =>
        simp [ParsedCall.isValid, actionEvent, toolError, NewId.event, Event.answers, hid]
        exact eq_comm
    have happ : (∃ o ∈ callEvents env r i call ++ callsEvents env r (i + 1) calls, o.answers e = true) ↔
        (∃ o ∈ callEvents env r i call, o.answers e = true) ∨
          ∃ o ∈ callsEvents env r (i + 1) calls, o.answers e = true := by
      simp only [List.mem_append, or_and_right, exists_or]
    rw [callsEvents, happ]
    refine (or_congr hhead ih).trans ?_
    constructor
    · rintro (h | ⟨k, c, hc, h⟩)
      · exact ⟨0, call, rfl, h⟩
      · exact ⟨k + 1, c, hc, by rwa [Nat.add_assoc, Nat.add_comm 1 k] at h⟩
    · rintro ⟨_ | k, c, hc, h⟩
      · cases hc
        exact .inl h
      · exact .inr ⟨k, c, hc, by rwa [Nat.add_assoc, Nat.add_comm 1 k]⟩

/-- Nothing is left when each action has an answer among the batch's, or an
invalid call of its id behind it. -/
theorem unmatched_tools {as : List Event} (has : ∀ o ∈ as, o.isExecutable = false) :
    getUnmatchedActions (callsEvents env r i calls ++ as) = [] ↔
      ∀ k call e, calls[k]? = some call → validAction env r (i + k) call = some e →
        (∃ o ∈ as, o.answers e = true) ∨ ∃ k' call', k < k' ∧ calls[k']? = some call' ∧
          (env.call (i + k')).parsed.isValid = false ∧ call'.id = call.id := by
  induction calls generalizing i with
  | nil => simp [callsEvents, getUnmatchedActions_of_not_executable has]
  | cons call calls ih =>
    -- The statement about the calls behind the first one.
    have hrest : getUnmatchedActions (callsEvents env r (i + 1) calls ++ as) = [] ↔
        ∀ k c e, calls[k]? = some c → validAction env r (i + (k + 1)) c = some e →
          (∃ o ∈ as, o.answers e = true) ∨ ∃ k' c', k + 1 < k' ∧ (call :: calls)[k']? = some c' ∧
            (env.call (i + k')).parsed.isValid = false ∧ c'.id = c.id := by
      rw [ih]
      refine forall_congr' fun k => forall_congr' fun c => forall_congr' fun e => imp_congr_right fun _ => ?_
      have hadd : ∀ m, i + 1 + m = i + (m + 1) := fun m => by omega
      rw [hadd]
      refine imp_congr_right fun _ => or_congr_right ?_
      constructor
      · rintro ⟨k', c', hk, hc', hp, hid⟩
        exact ⟨k' + 1, c', by omega, hc', by rwa [hadd] at hp, hid⟩
      · rintro ⟨_ | k', c', hk, hc', hp, hid⟩
        · omega
        · exact ⟨k', c', by omega, hc', by rwa [hadd], hid⟩
    have hsplit : ∀ P : Nat → MessageToolCall → Event → Prop,
        (∀ k c e, (call :: calls)[k]? = some c → validAction env r (i + k) c = some e → P k c e) ↔
          (∀ e, validAction env r i call = some e → P 0 call e) ∧
            ∀ k c e, calls[k]? = some c → validAction env r (i + (k + 1)) c = some e → P (k + 1) c e := by
      intro P
      constructor
      · exact fun h => ⟨fun e => h 0 call e rfl, fun k c e hc => h (k + 1) c e hc⟩
      · rintro ⟨h0, h⟩ (_ | k) c e hc hv
        · cases hc
          exact h0 e hv
        · exact h k c e hc hv
    rw [hsplit, ← hrest, callsEvents, List.append_assoc]
    unfold callEvents
    cases hp : (env.call i).parsed with
    | invalid =>
      have hskip : ∀ e es, e.isExecutable = false → getUnmatchedActions (e :: es) = getUnmatchedActions es := by
        intro e es he
        rw [getUnmatchedActions_cons, if_neg (by simp [he])]
      dsimp only
      rw [List.cons_append, List.singleton_append, hskip _ _ rfl, hskip _ _ rfl]
      simp [validAction, hp]
    | valid action toolName arguments =>
      have hv : validAction env r i call = some (actionEvent env r i call (some action) toolName arguments) := by
        simp only [validAction, hp]
      obtain ⟨a, ha, hsome, hid, -⟩ := validAction_spec hv
      dsimp only
      rw [List.singleton_append, getUnmatchedActions_cons, hv]
      generalize actionEvent env r i call (some action) toolName arguments = e at ha
      have hx : e.isExecutable = true := Event.isExecutable_iff.2 ⟨a, ha, hsome⟩
      have hlater : (∃ k' c', 0 < k' ∧ (call :: calls)[k']? = some c' ∧
          (env.call (i + k')).parsed.isValid = false ∧ c'.id = call.id) ↔
          ∃ o ∈ callsEvents env r (i + 1) calls, o.answers e = true := by
        rw [answers_callsEvents ha, hid]
        constructor
        · rintro ⟨_ | k', c', hk, hc', hp', hid'⟩
          · omega
          · exact ⟨k', c', hc', by rwa [Nat.add_assoc, Nat.add_comm 1 k'], hid'⟩
        · rintro ⟨k', c', hc', hp', hid'⟩
          exact ⟨k' + 1, c', by omega, hc', by rwa [Nat.add_assoc, Nat.add_comm 1 k'] at hp', hid'⟩
      rw [hlater]
      simp only [Option.some.injEq, forall_eq']
      by_cases hans : ∀ o ∈ callsEvents env r (i + 1) calls ++ as, o.answers e = false
      · rw [if_pos ⟨hx, hans⟩]
        constructor
        · intro h
          cases h
        · rintro ⟨⟨o, ho, hoe⟩ | ⟨o, ho, hoe⟩, -⟩
          · rw [hans o (List.mem_append_right _ ho)] at hoe
            cases hoe
          · rw [hans o (List.mem_append_left _ ho)] at hoe
            cases hoe
      · rw [if_neg fun h => hans h.2]
        refine ⟨fun h => ⟨?_, h⟩, fun h => h.2⟩
        simp only [not_forall, Bool.not_eq_false] at hans
        obtain ⟨o, ho, hoe⟩ := hans
        rcases List.mem_append.1 ho with ho | ho
        · exact .inr ⟨o, ho, hoe⟩
        · exact .inl ⟨o, ho, hoe⟩

/-! ## When the calls of a response are closed -/

/-- The `k`-th call is executed and ends in an `AgentErrorEvent`, which
answers every action of its tool call id. -/
def answeredByError (env : StepEnv) (blocked : EventID → Option String) (k : Nat) : Prop :=
  (env.call k).parsed.isValid = true ∧ finished env k = false ∧ blocked (env.call k).actionId.id = none ∧
    (env.tool (env.call k).actionId.id).outcome.isError = true

/-- The id of a validated call is answered once, and the ids of discarded
calls are answered through a later invalid call or a failing one. -/
structure CallsClosed (env : StepEnv) (calls : List MessageToolCall) (blocked : EventID → Option String) : Prop where
  once : ∀ k call, calls[k]? = some call → (env.call k).parsed.isValid = true →
    (answeredIds env 0 calls).count call.id = 1
  late : ∀ k call, calls[k]? = some call → discarded env k = true →
    ∃ k' call', calls[k']? = some call' ∧ call'.id = call.id ∧
      (k < k' ∧ (env.call k').parsed.isValid = false ∨ answeredByError env blocked k')

theorem mem_callsEvents_executable :
    e ∈ callsEvents env r i calls ∧ e.isExecutable = true ↔ e ∈ validActions env r i calls := by
  induction calls generalizing i with
  | nil => simp [callsEvents, validActions]
  | cons call calls ih =>
    rw [callsEvents, validActions, List.mem_append, List.mem_append, or_and_right]
    refine or_congr ?_ ih
    unfold callEvents
    cases hp : (env.call i).parsed with
    | invalid =>
      simp only [validAction, hp, Option.toList_none, List.not_mem_nil, iff_false]
      rintro ⟨he, hx⟩
      rcases List.mem_cons.1 he with rfl | he
      · cases hx
      · rw [List.mem_singleton.1 he] at hx
        cases hx
    | valid action toolName arguments =>
      simp only [validAction, hp, Option.toList_some, List.mem_singleton, and_iff_left_iff_imp]
      rintro rfl
      rfl

theorem validActions_sublist (r : LLMResponse) (i : Nat) (calls : List MessageToolCall) :
    List.Sublist (validActions env r i calls) (callsEvents env r i calls) := by
  induction calls generalizing i with
  | nil => exact .slnil
  | cons call calls ih =>
    refine List.Sublist.append ?_ (ih (i + 1))
    unfold validAction callEvents
    cases (env.call i).parsed with
    | invalid => exact List.nil_sublist _
    | valid => exact .refl _

theorem answer_answers {blocked : EventID → Option String} {e' : Event} {a : ActionEvent} {id : ToolCallID}
    (hid : e.toolCallId? = some id) : (answer env (blocked e'.id) e'.id a).answers e = true ↔
      if blocked e'.id = none ∧ (env.tool e'.id).outcome.isError = true then a.toolCallId = id else e.id = e'.id := by
  have hcall : a.toolCall.id = a.toolCallId := a.callId.symm
  unfold answer
  cases blocked e'.id with
  | some reason => simp [rejection, NewId.event, Event.answers]
  | none =>
    cases ho : (env.tool e'.id).outcome <;>
      simp [runSafe, NewId.event, Event.answers, ToolOutcome.isError, ho, hid, hcall, eq_comm]

/-- An executed action is answered; one that is not executed only by an error
under its tool call id. -/
theorem answers_batch {blocked : EventID → Option String} {k : Nat} (hc : calls[k]? = some call)
    (hv : validAction env r k call = some e) (hn : ((validActions env r 0 calls).map Event.id).Nodup) :
    (∃ o ∈ answers env blocked (truncateAtFinish (validActions env r 0 calls)).1, o.answers e = true) ↔
      finished env k = false ∨ ∃ k' call', calls[k']? = some call' ∧ call'.id = call.id ∧
        answeredByError env blocked k' := by
  obtain ⟨a, ha, -, hid, heid, hvalid, -⟩ := validAction_spec hv
  have htcid : e.toolCallId? = some call.id := by
    simp only [Event.toolCallId?, Event.action?_eq_some.1 ha, hid]
  have hnot : ∀ j, finished env j = false ↔ ∀ m < j, (env.call (0 + m)).parsed.isFinish = false := by
    intro j
    simp [finished]
  constructor
  · rintro ⟨o, ho, hoe⟩
    obtain ⟨e', he', hans⟩ := List.mem_filterMap.1 ho
    obtain ⟨a', ha', rfl⟩ := Option.map_eq_some_iff.1 hans
    obtain ⟨k', call', hc', hv', hfin⟩ := mem_executed.1 he'
    rw [← hnot, ← Bool.not_eq_true] at hfin
    rw [Nat.zero_add] at hv'
    obtain ⟨b, hb, -, hid', heid', hvalid', -⟩ := validAction_spec hv'
    cases ha'.symm.trans hb
    rw [answer_answers htcid] at hoe
    split at hoe
    · rename_i herr
      rw [heid'] at herr
      exact .inr ⟨k', call', hc', hid' ▸ hoe, hvalid', by simpa using hfin, herr.1, herr.2⟩
    · have hk := validActions_inj hn hc (by rwa [Nat.zero_add]) hc' (by rwa [Nat.zero_add]) hoe
      subst hk
      exact .inl (by simpa using hfin)
  · rintro (hfin | ⟨k', call', hc', hcid, hvalid', hfin, hblocked, hout⟩)
    · have he : e ∈ (truncateAtFinish (validActions env r 0 calls)).1 :=
        mem_executed.2 ⟨k, call, hc, by rwa [Nat.zero_add], (hnot k).1 hfin⟩
      refine ⟨_, List.mem_filterMap.2 ⟨e, he, by rw [ha]; rfl⟩, ?_⟩
      rw [answer_answers htcid]
      split
      · exact hid
      · rfl
    · obtain ⟨e', hv'⟩ := (validAction_isSome r k' call').2 hvalid'
      obtain ⟨a', ha', -, hid', heid', -, -⟩ := validAction_spec hv'
      have he' : e' ∈ (truncateAtFinish (validActions env r 0 calls)).1 :=
        mem_executed.2 ⟨k', call', hc', by rwa [Nat.zero_add], (hnot k').1 hfin⟩
      refine ⟨_, List.mem_filterMap.2 ⟨e', he', by rw [ha']; rfl⟩, ?_⟩
      rw [answer_answers htcid, if_pos ⟨heid' ▸ hblocked, heid' ▸ hout⟩, hid', hcid]

theorem responseTools_complete_iff {d : EventID → Option String}
    (hn : ((responseTools env r d).map Event.id).Nodup) : ToolsComplete (responseTools env r d) ↔
      CallsClosed env r.message.calls (blockedBy env 0 r.message.calls d) := by
  have hvalid : ((validActions env r 0 r.message.calls).map Event.id).Nodup := by
    refine hn.sublist (List.Sublist.map _ ?_)
    exact (validActions_sublist r 0 r.message.calls).trans (List.sublist_append_left _ _)
  have hcount : ∀ id, (responseTools env r d).countP (Event.observes id) =
      (answeredIds env 0 r.message.calls).count id := by
    intro id
    rw [responseTools, List.countP_append, ← countP_tools (r := r) (blockedBy env 0 r.message.calls d) id]
    rfl
  have hexec : ∀ e, e ∈ responseTools env r d ∧ e.isExecutable = true ↔
      ∃ k call, r.message.calls[k]? = some call ∧ validAction env r k call = some e := by
    intro e
    have hmem := @mem_validActions env r 0 r.message.calls e
    simp only [Nat.zero_add] at hmem
    rw [← hmem, ← mem_callsEvents_executable, responseTools, List.mem_append, or_and_right, or_iff_left]
    rintro ⟨he, hx⟩
    rw [answers_tools _ _ e he] at hx
    cases hx
  constructor
  · rintro ⟨hans, hclosed⟩
    refine ⟨fun k call hc hp => ?_, fun k call hc hd => ?_⟩
    · obtain ⟨e, hv⟩ := (validAction_isSome r k call).2 hp
      obtain ⟨a, ha, -, hid, -⟩ := validAction_spec hv
      obtain ⟨he, hx⟩ := (hexec e).2 ⟨k, call, hc, hv⟩
      rw [← hcount]
      exact hans e he call.id hx (by simp only [Event.toolCallId?, Event.action?_eq_some.1 ha, hid])
    · rw [discarded, Bool.and_eq_true] at hd
      obtain ⟨e, hv⟩ := (validAction_isSome r k call).2 hd.1
      rcases (unmatched_tools (answers_tools _ _)).1 hclosed k call e hc (by rwa [Nat.zero_add]) with
        hbatch | ⟨k', call', hk, hc', hp, hid⟩
      · rcases (answers_batch hc hv hvalid).1 hbatch with hfin | ⟨k', call', hc', hid, herr⟩
        · rw [hd.2] at hfin
          cases hfin
        · exact ⟨k', call', hc', hid, .inr herr⟩
      · rw [Nat.zero_add] at hp
        exact ⟨k', call', hc', hid, .inl ⟨hk, hp⟩⟩
  · rintro ⟨honce, hlate⟩
    refine ⟨fun e he id hx hid => ?_, (unmatched_tools (answers_tools _ _)).2 fun k call e hc hv => ?_⟩
    · obtain ⟨k, call, hc, hv⟩ := (hexec e).1 ⟨he, hx⟩
      obtain ⟨a, ha, -, haid, -, hp, -⟩ := validAction_spec hv
      simp only [Event.toolCallId?, Event.action?_eq_some.1 ha, haid, Option.some.injEq] at hid
      rw [hcount, ← hid]
      exact honce k call hc hp
    · rw [Nat.zero_add] at hv
      obtain ⟨a, -, -, -, -, hp, -⟩ := validAction_spec hv
      rw [answers_batch hc hv hvalid]
      by_cases hfin : finished env k = false
      · exact .inl (.inl hfin)
      · obtain ⟨k', call', hc', hid, hlater | herr⟩ :=
          hlate k call hc (by rw [discarded, hp, Bool.true_and]; simpa using hfin)
        · exact .inr ⟨k', call', hlater.1, hc', by rw [Nat.zero_add]; exact hlater.2, hid⟩
        · exact .inl (.inr ⟨k', call', hc', hid, herr⟩)

/-- With distinct tool call ids: no validated call may follow a `FinishTool` call. -/
theorem callsClosed_iff_of_nodup {blocked : EventID → Option String} (hn : (calls.map (·.id)).Nodup) :
    CallsClosed env calls blocked ↔ ∀ k < calls.length, discarded env k = false := by
  constructor
  · intro h k hk
    by_contra hd
    rw [Bool.not_eq_false] at hd
    obtain ⟨k', call', hc', hid, hk'⟩ := h.late k calls[k] (List.getElem?_eq_getElem hk) hd
    obtain ⟨hlt, rfl⟩ := List.getElem?_eq_some_iff.1 hc'
    have heq : k' = k := by
      have hmap : (calls.map (·.id))[k']? = (calls.map (·.id))[k]? := by simp [hlt, hk, hid]
      exact (List.getElem?_inj (by simpa) hn).1 hmap
    subst heq
    rcases hk' with ⟨hlt, -⟩ | ⟨-, hfin, -⟩
    · omega
    · rw [discarded, hfin, Bool.and_false] at hd
      cases hd
  · intro h
    refine ⟨fun k call hc _ => ?_, fun k call hc hd => ?_⟩
    · have hall : answeredIds env 0 calls = calls.map (·.id) := by
        have hkeep : (calls.zipIdx 0).filter (fun p => !discarded env p.2) = calls.zipIdx 0 := by
          rw [List.filter_eq_self]
          rintro ⟨c, j⟩ hj
          have hlt := (List.mem_zipIdx hj).2.1
          simp [h j (by omega)]
        have hfst : (calls.zipIdx 0).map (·.1.id) = ((calls.zipIdx 0).map Prod.fst).map (·.id) := by
          rw [List.map_map]
          rfl
        rw [answeredIds, hkeep, hfst, List.zipIdx_map_fst]
      rw [hall, List.count_eq_one_of_mem hn (List.mem_map_of_mem (List.mem_of_getElem? hc))]
    · rw [h k (List.getElem?_eq_some_iff.1 hc).1] at hd
      cases hd

end Calls

/-! ## The step -/

/-- A step with nothing pending closes every action it appends exactly when
the calls of the response it handles are closed. -/
theorem stepComplete_iff_callsClosed {env : StepEnv} {s s' : Session} {branch : List Event} (hs : s.state.Valid)
    (hbranch : s.state.activeBranch = .ok branch) (hpending : getUnmatchedActions branch = [])
    (h : step env s = .ok s') (hstatus : s'.state.executionStatus ≠ .waitingForConfirmation) :
    StepComplete s.state s'.state ↔ ∀ r, handledResponse env s = some r →
      CallsClosed env r.message.calls (blockedBy env 0 r.message.calls (s.state.blockedActions.lookup ·)) := by
  have he := step_emits hs hbranch hpending hstatus h
  rw [stepComplete_iff hs he hbranch hpending]
  have hn : ((stepTools env s).map Event.id).Nodup := by
    obtain ⟨new, hnew, htools⟩ := he.log
    have hids : (new.map Event.id).Nodup := by
      have := s'.state.events.idsNodup
      rw [hnew, List.map_append] at this
      exact this.of_append_right
    rw [← htools, List.map_map]
    exact hids.sublist (List.filter_sublist.map _)
  unfold stepTools at hn ⊢
  cases hr : handledResponse env s with
  | none => simp [ToolsComplete]
  | some r =>
    rw [hr] at hn
    simp only [Option.some.injEq, forall_eq']
    exact responseTools_complete_iff hn

/-! ## A call behind a `FinishTool` call

Two validated calls, in one order and in the other. -/

namespace FinishExample

def finishCall : MessageToolCall := ⟨"call-finish", "finish", "done"⟩

def terminalCall : MessageToolCall := ⟨"call-terminal", "terminal", "ls"⟩

def finishRun : CallRun :=
  { actionId := { id := "action-finish" }, errorId := { id := "error-finish" }
    parsed := .valid (.finish "done") "finish" "done" }

def terminalRun : CallRun :=
  { actionId := { id := "action-terminal" }, errorId := { id := "error-terminal" }
    parsed := .valid (.other "ls") "terminal" "ls" }

def response (calls : List MessageToolCall) : LLMResponse :=
  { id := "response", message := { role := .assistant, content := [], toolCalls := some calls }
    messageId := { id := "reply" }, nudgeId := { id := "nudge" } }

def env (calls : List MessageToolCall) (first second : CallRun) : StepEnv where
  llm := .response (response calls)
  call
    | 0 => first
    | _ => second
  tool id :=
    if id = "action-finish" then { resultId := { id := "observation-finish" }, outcome := .observation ["done"] [] }
    else { resultId := { id := "observation-terminal" }, outcome := .observation ["ok"] [] }
  rejectionId _ := { id := "rejection" }

def start : Session := { state := { executionStatus := .running } }

theorem start_valid : start.state.Valid := ⟨fun i e h => by simp [start] at h, fun id h => by cases h⟩

def run (env : StepEnv) : Session :=
  match step env start with
  | .ok s => s
  | .error _ => start

end FinishExample

open FinishExample in
/-- The `FinishTool` call comes last: both actions have their observation. -/
theorem finish_last_complete : StepComplete start.state (run (env [terminalCall, finishCall] terminalRun finishRun)).state := by
  have hstep : step (env [terminalCall, finishCall] terminalRun finishRun) start =
      .ok (run (env [terminalCall, finishCall] terminalRun finishRun)) := rfl
  refine (stepComplete_iff_callsClosed start_valid rfl rfl hstep (by decide)).2 fun r hr => ?_
  cases hr
  exact (callsClosed_iff_of_nodup (by decide)).2 (by decide)

open FinishExample in
/-- The `FinishTool` call comes first: the terminal action stays pending. -/
theorem finish_first_incomplete :
    ¬ ∀ env s s' branch, s.state.Valid → s.state.activeBranch = .ok branch → getUnmatchedActions branch = [] →
      step env s = .ok s' → s'.state.executionStatus ≠ .waitingForConfirmation → StepComplete s.state s'.state := by
  intro h
  have hstep : step (env [finishCall, terminalCall] finishRun terminalRun) start =
      .ok (run (env [finishCall, terminalCall] finishRun terminalRun)) := rfl
  obtain ⟨branch, hb, hclosed⟩ := (h _ _ _ [] start_valid rfl rfl hstep (by decide)).closed
  have hpending : (run (env [finishCall, terminalCall] finishRun terminalRun)).state.activeBranch.map
      (fun b => (getUnmatchedActions b).map Event.id) = .ok ["action-terminal"] := by decide
  rw [hb, Except.map, hclosed] at hpending
  cases hpending

end Agent

end AgentSdk
