import AgentSdk.Lib.Bisect
import AgentSdk.Lib.Result
import AgentSdk.Lib.Runs
import AgentSdk.View.Manipulation
import Mathlib.Data.Rat.Floor
/-!
# The summarizing condenser

`LLMSummarizingCondenser.condense` gives back the view, or a condensation that
forgets a range of its events and puts a summary there. What the agent's LLM
counts as tokens, and what the summarizing LLM answers, are parameters. When
round after round of condensing comes to an end.
-/

namespace AgentSdk
open Lib

inductive CondenseError where
  | noCondensationAvailable (message : String)
  | assertionError (message : String)
  | valueError (message : String)
deriving DecidableEq

/-- `find_next`: the least index from the threshold on. -/
def ManipulationIndices.findNext (indices : ManipulationIndices) (threshold : Int) : Except CondenseError Nat :=
  match (indices.filter fun i : Nat => threshold ≤ i).min? with
  | some i => .ok i
  | none => .error (.valueError s!"No manipulation index found >= {threshold}.")

/-! ## Token counts -/

/-- The LLM of the agent: its input limit, and `get_total_token_count`. -/
structure AgentLLM where
  effectiveMaxInputTokens : Option Int
  tokenCount : List Event → Nat

def AgentLLM.baseTokens (llm : AgentLLM) (baseEvents : List Event) : Int :=
  if baseEvents = [] then 0 else llm.tokenCount baseEvents

def getShortestPrefixAboveTokenCount (llm : AgentLLM) (events : List Event) (tokenCount : Int)
    (baseEvents : List Event) : Nat :=
  if events = [] then 0
  else
    let baseTokens := llm.baseTokens baseEvents
    if llm.tokenCount (baseEvents ++ events) - baseTokens ≤ tokenCount then events.length
    else bisectRight (fun mid => llm.tokenCount (baseEvents ++ events.take mid) - baseTokens) tokenCount 1 events.length

def getSuffixLengthForTokenReduction (llm : AgentLLM) (events : List Event) (tokenReduction : Int)
    (baseEvents : List Event) : Nat :=
  if events = [] then 0
  else if tokenReduction ≤ 0 then events.length
  else events.length - getShortestPrefixAboveTokenCount llm events tokenReduction baseEvents

/-- For a counter that grows with the prefix: the prefix exceeds the count,
and no shorter one (of at least one event) does. -/
theorem getShortestPrefixAboveTokenCount_spec {llm : AgentLLM} {events baseEvents : List Event} {tokenCount : Int}
    (hmono : ∀ i j, i ≤ j → llm.tokenCount (baseEvents ++ events.take i) ≤ llm.tokenCount (baseEvents ++ events.take j))
    (hne : events ≠ []) (htotal : tokenCount < llm.tokenCount (baseEvents ++ events) - llm.baseTokens baseEvents)
    {n : Nat} (hn : n = getShortestPrefixAboveTokenCount llm events tokenCount baseEvents) :
    1 ≤ n ∧ n ≤ events.length ∧
      tokenCount < llm.tokenCount (baseEvents ++ events.take n) - llm.baseTokens baseEvents ∧
        ∀ m, 1 ≤ m → m < n → llm.tokenCount (baseEvents ++ events.take m) - llm.baseTokens baseEvents ≤ tokenCount := by
  unfold getShortestPrefixAboveTokenCount at hn
  dsimp only at hn
  rw [if_neg hne, if_neg (not_le.2 htotal)] at hn
  have hlen : 1 ≤ events.length := List.length_pos_iff.2 hne
  obtain ⟨hlo, hhi, hbelow, habove⟩ := bisectRight_spec (x := tokenCount) hlen
    fun i j _ hij _ => show (llm.tokenCount (baseEvents ++ events.take i) : Int) - llm.baseTokens baseEvents ≤
      llm.tokenCount (baseEvents ++ events.take j) - llm.baseTokens baseEvents by
      have hle := hmono i j hij
      omega
  rw [← hn] at hlo hhi hbelow habove
  refine ⟨hlo, hhi, ?_, hbelow⟩
  rcases Nat.lt_or_ge n events.length with hlt | hge
  · exact habove n (Nat.le_refl n) hlt
  · rwa [List.take_of_length_le hge]

/-- The tokens of the first events, beyond those of the base events. -/
def prefixTokens (llm : AgentLLM) (events baseEvents : List Event) (n : Nat) : Int :=
  llm.tokenCount (baseEvents ++ events.take n) - llm.baseTokens baseEvents

/-- The shortest prefix, the empty one among them, that exceeds the count. -/
def PrefixExact (llm : AgentLLM) (events : List Event) (tokenCount : Int) (baseEvents : List Event) : Prop :=
  IsLeast {n | n = events.length ∨ tokenCount < prefixTokens llm events baseEvents n}
    (getShortestPrefixAboveTokenCount llm events tokenCount baseEvents)

/-- The longest suffix after a prefix of at least the budget's tokens. -/
def SuffixExact (llm : AgentLLM) (events : List Event) (tokenReduction : Int) (baseEvents : List Event) : Prop :=
  IsGreatest {n | n = 0 ∨ n ≤ events.length ∧ tokenReduction ≤ prefixTokens llm events baseEvents (events.length - n)}
    (getSuffixLengthForTokenReduction llm events tokenReduction baseEvents)

theorem shortestPrefix_isLeast {llm : AgentLLM} {events baseEvents : List Event} (tokenCount : Int)
    (hmono : ∀ i j, i ≤ j → llm.tokenCount (baseEvents ++ events.take i) ≤ llm.tokenCount (baseEvents ++ events.take j)) :
    IsLeast {n | n = events.length ∨ 1 ≤ n ∧ n ≤ events.length ∧ tokenCount < prefixTokens llm events baseEvents n}
      (getShortestPrefixAboveTokenCount llm events tokenCount baseEvents) := by
  by_cases hne : events = []
  · subst hne
    exact ⟨.inl rfl, fun n _ => Nat.zero_le n⟩
  · by_cases htotal : tokenCount < llm.tokenCount (baseEvents ++ events) - llm.baseTokens baseEvents
    · obtain ⟨hone, hlen, habove, hbelow⟩ := getShortestPrefixAboveTokenCount_spec hmono hne htotal rfl
      refine ⟨.inr ⟨hone, hlen, habove⟩, ?_⟩
      rintro n (rfl | ⟨hn, -, hexceeds⟩)
      · exact hlen
      · by_contra hlt
        exact absurd (hbelow n hn (Nat.lt_of_not_le hlt)) (not_le.2 hexceeds)
    · have hres : getShortestPrefixAboveTokenCount llm events tokenCount baseEvents = events.length := by
        unfold getShortestPrefixAboveTokenCount
        rw [if_neg hne]
        exact if_pos (not_lt.1 htotal)
      rw [hres]
      refine ⟨.inl rfl, ?_⟩
      rintro n (rfl | ⟨-, hn, hexceeds⟩)
      · exact Nat.le_refl _
      · -- A shorter prefix has no more tokens than all events.
        have hle := hmono n events.length hn
        rw [List.take_length] at hle
        unfold prefixTokens at hexceeds
        omega

/-- The search finds the shortest prefix of at least one event above the count.
Nothing is removed for a budget of no tokens; else the suffix is the longest
after a prefix above the budget. -/
theorem token_search_exact {llm : AgentLLM} {events baseEvents : List Event}
    (hmono : ∀ i j, i ≤ j → llm.tokenCount (baseEvents ++ events.take i) ≤ llm.tokenCount (baseEvents ++ events.take j)) :
    (∀ tokenCount, IsLeast
      {n | n = events.length ∨ 1 ≤ n ∧ n ≤ events.length ∧ tokenCount < prefixTokens llm events baseEvents n}
      (getShortestPrefixAboveTokenCount llm events tokenCount baseEvents)) ∧
    (∀ tokenReduction ≤ 0, getSuffixLengthForTokenReduction llm events tokenReduction baseEvents = events.length) ∧
    ∀ tokenReduction, 0 < tokenReduction → IsGreatest
      {n | n = 0 ∨ n < events.length ∧ tokenReduction < prefixTokens llm events baseEvents (events.length - n)}
      (getSuffixLengthForTokenReduction llm events tokenReduction baseEvents) := by
  refine ⟨fun _ => shortestPrefix_isLeast _ hmono, fun tokenReduction hle => ?_, fun tokenReduction hpos => ?_⟩
  · unfold getSuffixLengthForTokenReduction
    split
    · rename_i hnil
      rw [hnil]
      rfl
    · rfl
  · by_cases hne : events = []
    · subst hne
      refine ⟨.inl rfl, ?_⟩
      rintro n (rfl | ⟨hn, -⟩)
      · exact Nat.zero_le _
      · exact absurd hn (Nat.not_lt_zero n)
    · have hres : getSuffixLengthForTokenReduction llm events tokenReduction baseEvents =
          events.length - getShortestPrefixAboveTokenCount llm events tokenReduction baseEvents := by
        unfold getSuffixLengthForTokenReduction
        rw [if_neg hne, if_neg (not_le.2 hpos)]
      rw [hres]
      obtain ⟨hmem, hleast⟩ := shortestPrefix_isLeast tokenReduction hmono
      have hlen : getShortestPrefixAboveTokenCount llm events tokenReduction baseEvents ≤ events.length := hleast (.inl rfl)
      constructor
      · rcases hmem with heq | ⟨hone, -, habove⟩
        · exact .inl (by rw [heq, Nat.sub_self])
        · refine .inr ⟨by omega, ?_⟩
          rwa [Nat.sub_sub_self hlen]
      · rintro n (rfl | ⟨hn, hexceeds⟩)
        · exact Nat.zero_le _
        · have hfound := hleast (.inr ⟨by omega, Nat.sub_le _ _, hexceeds⟩)
          omega

private def tenEach : AgentLLM := ⟨none, fun events => 10 * events.length⟩

private def pair : List Event := [{ id := "e0", body := .condensationRequest }, { id := "e1", body := .condensationRequest }]

private theorem tenEach_mono (i j : Nat) (hij : i ≤ j) :
    tenEach.tokenCount ([] ++ pair.take i) ≤ tenEach.tokenCount ([] ++ pair.take j) := by
  simp only [tenEach, List.nil_append, List.length_take]
  omega

/-- To exceed a budget of ten tokens both events are removed. -/
theorem token_search_pair : getSuffixLengthForTokenReduction tenEach pair 10 [] = 0 ∧
    IsGreatest {n | n = 0 ∨ n < pair.length ∧ 10 < prefixTokens tenEach pair [] (pair.length - n)}
      (getSuffixLengthForTokenReduction tenEach pair 10 []) :=
  ⟨by decide +kernel, (token_search_exact tenEach_mono).2.2 10 (by decide)⟩

/-- The empty prefix is above a negative count, and the suffix after one event
would meet the budget. -/
theorem token_search_misses : (∀ i j, i ≤ j → tenEach.tokenCount ([] ++ pair.take i) ≤
      tenEach.tokenCount ([] ++ pair.take j)) ∧
    ¬ PrefixExact tenEach pair (-1) [] ∧ ¬ SuffixExact tenEach pair 10 [] := by
  refine ⟨tenEach_mono, fun h => ?_, fun h => ?_⟩
  · have hle : getShortestPrefixAboveTokenCount tenEach pair (-1) [] ≤ 0 := h.2 (.inr (by decide))
    revert hle
    decide +kernel
  · have hle : 1 ≤ getSuffixLengthForTokenReduction tenEach pair 10 [] := h.2 (.inr (by decide))
    revert hle
    decide +kernel

/-! ## Why a view is condensed -/

inductive Reason where
  | request | tokens | events
deriving DecidableEq, Repr

inductive CondensationRequirement where
  | hard | soft
deriving DecidableEq, Repr

/-- The settings, with what the validators check. The decimals stand for the
floats nearest to them, and `floatProduct` is what the machine gives for an
integer times one of them: any function, so any rounding. -/
structure LLMSummarizingCondenser where
  maxSize : Nat := 240
  maxTokens : Option Int := none
  keepFirst : Nat := 2
  minimumProgress : ℚ := 1 / 10
  hardContextResetMaxRetries : Nat := 5
  hardContextResetContextScaling : ℚ := 4 / 5
  maxSize_pos : 0 < maxSize := by decide
  room : (0 : Int) < maxSize / 2 - keepFirst - 1 := by decide
  minimumProgress_pos : 0 < minimumProgress := by norm_num
  minimumProgress_lt : minimumProgress < 1 := by norm_num
  retries_pos : 0 < hardContextResetMaxRetries := by decide
  scaling_pos : 0 < hardContextResetContextScaling := by norm_num
  scaling_lt : hardContextResetContextScaling < 1 := by norm_num
  floatProduct : Nat → ℚ → ℚ := fun n x => n * x

/-- The LLM of the condenser: the answer to the `attempt`-th call of a round,
for these events cut to that length each (the text of the answer, if it has
one, or why the call failed), and `len(str(event))`. -/
structure SummaryLLM where
  generate : Nat → List Event → Option Nat → Except String (Option String)
  strLength : Event → Nat

/-- Index of the first `SystemPromptEvent`. -/
def leadingSystemPromptIndex (events : List Event) : Option Nat :=
  events.findIdx? fun e => match e.body with
    | .systemPrompt _ _ => true
    | _ => false

namespace LLMSummarizingCondenser
variable (c : LLMSummarizingCondenser)

def effectiveMaxTokens (agentLlm : Option AgentLLM) : Option Int :=
  ([c.maxTokens, agentLlm.bind (·.effectiveMaxInputTokens)].filterMap id).min?

/-- The tokens are counted only for an agent LLM with a limit. -/
def tokenExcess (agentLlm : Option AgentLLM) (v : View) : Bool :=
  match c.effectiveMaxTokens agentLlm, agentLlm with
  | some maxTokens, some llm => maxTokens < llm.tokenCount v.events
  | _, _ => false

def getCondensationReasons (agentLlm : Option AgentLLM) (v : View) : List Reason :=
  (if v.unhandledCondensationRequest then [.request] else []) ++
    (if c.tokenExcess agentLlm v then [.tokens] else []) ++
      (if c.maxSize < v.events.length then [.events] else [])

def condensationRequirement (agentLlm : Option AgentLLM) (v : View) : Option CondensationRequirement :=
  let reasons := c.getCondensationReasons agentLlm v
  if reasons = [] then none
  else if Reason.tokens ∈ reasons then some .hard
  else if reasons.all (· = .events) then some .soft
  else if Reason.request ∈ reasons then some .hard
  else none

/-! ## What is forgotten -/

/-- The number of events one reason allows to keep from the end of the view. -/
def suffixToKeep (agentLlm : Option AgentLLM) (v : View) : Reason → Option Int
  | .request => some (v.events.length / 2 - c.keepFirst - 1)
  | .events => some (c.maxSize / 2 - c.keepFirst - 1)
  | .tokens =>
    match c.effectiveMaxTokens agentLlm, agentLlm with
    | some maxTokens, some llm =>
      some (getSuffixLengthForTokenReduction llm (v.events.drop c.keepFirst)
        (llm.tokenCount v.events - maxTokens / 2) (v.events.take c.keepFirst))
    | _, _ => none

/-- `naive_end`, for the strictest reason; without a reason there is none. -/
def naiveEnd (agentLlm : Option AgentLLM) (v : View) : Option Int :=
  (((c.getCondensationReasons agentLlm v).filterMap (c.suffixToKeep agentLlm v)).min?).map
    fun eventsFromTail => v.events.length - eventsFromTail

def protectedPrefix (v : View) : Nat :=
  match leadingSystemPromptIndex v.events with
  | some i => max c.keepFirst (i + 1)
  | none => c.keepFirst

def getForgottenEvents (agentLlm : Option AgentLLM) (v : View) : Except CondenseError (List Event × Nat) :=
  match c.naiveEnd agentLlm v with
  | none => .error (.assertionError "No condensation reasons found.")
  | some naiveEnd => do
    let forgettingStart ← v.manipulationIndices.findNext (c.protectedPrefix v)
    let forgettingEnd ← v.manipulationIndices.findNext naiveEnd
    return ((v.events.take forgettingEnd).drop forgettingStart, forgettingStart)

def generateCondensation (llm : SummaryLLM) (attempt : Nat) (forgottenEvents : List Event) (summaryOffset : Nat)
    (maxEventStrLength : Option Nat) : Except CondenseError Condensation :=
  if forgottenEvents = [] then .error (.assertionError "No events to condense.")
  else
    match llm.generate attempt forgottenEvents maxEventStrLength with
    | .error e => .error (.noCondensationAvailable s!"Summarization LLM call failed: {e}")
    | .ok summary => .ok
      { forgottenEventIds := forgottenEvents.map Event.id, summary, summaryOffset := some summaryOffset }

def getCondensation (agentLlm : Option AgentLLM) (llm : SummaryLLM) (v : View) : Except CondenseError Condensation :=
  match c.getForgottenEvents agentLlm v with
  | .error (.valueError _) => .error (.noCondensationAvailable "Unable to compute forgotten events")
  | .error e => .error e
  | .ok (forgottenEvents, summaryOffset) =>
    if forgottenEvents = [] then
      .error (.noCondensationAvailable ("Cannot condense 0 events. This typically occurs when a tool loop " ++
        "spans almost the entire view, leaving no valid range for forgetting " ++
        "events. Consider adjusting keep_first or max_size parameters."))
    else if forgottenEvents.length < c.floatProduct v.events.length c.minimumProgress then
      .error (.noCondensationAvailable ("Cannot apply condensation: events forgotten below minimum progress " ++
        "threshold."))
    else generateCondensation llm 0 forgottenEvents summaryOffset none

/-! ## Hard context reset -/

/-- The length for the next try: of the longest event if none is set yet
(there is none in an empty view), and scaled down. -/
def reduceLength (llm : SummaryLLM) (v : View) (maxEventStrLength : Option Nat) : Option Nat :=
  (maxEventStrLength <|> (v.events.map llm.strLength).max?).map fun l =>
    (c.floatProduct l c.hardContextResetContextScaling).floor.toNat

/-- The retry loop of `hard_context_reset`. -/
def resetAttempts (llm : SummaryLLM) (v : View) (forgottenEvents : List Event) (summaryOffset : Nat) :
    Nat → Nat → Option Nat → Except CondenseError (Option Condensation)
  | _, 0, _ => .ok none
  | attempt, attemptsRemaining + 1, maxEventStrLength =>
    match generateCondensation llm attempt forgottenEvents summaryOffset maxEventStrLength with
    | .ok condensation => .ok (some condensation)
    | .error _ =>
      match c.reduceLength llm v maxEventStrLength with
      | none => .error (.valueError "max() iterable argument is empty")
      | some l => resetAttempts llm v forgottenEvents summaryOffset (attempt + 1) attemptsRemaining (some l)

/-- What stays in a hard reset: the events up to the leading system prompt. -/
def preserve (v : View) : Nat := ((leadingSystemPromptIndex v.events).map (· + 1)).getD 0

def hardContextReset (llm : SummaryLLM) (v : View) : Except CondenseError (Option Condensation) :=
  c.resetAttempts llm v (v.events.drop (preserve v)) (preserve v) 1 c.hardContextResetMaxRetries none

/-! ## Condensing -/

inductive Condensed where
  | view (v : View)
  | condensation (condensation : Condensation)
deriving DecidableEq

def condense (agentLlm : Option AgentLLM) (llm : SummaryLLM) (v : View) : Except CondenseError Condensed :=
  match c.condensationRequirement agentLlm v with
  | none => .ok (.view v)
  | some request =>
    match c.getCondensation agentLlm llm v with
    | .ok condensation => .ok (.condensation condensation)
    | .error (.noCondensationAvailable e) =>
      match request with
      | .soft => .ok (.view v)
      | .hard =>
        match c.hardContextReset llm v with
        | .error hardResetException => .error hardResetException
        | .ok (some condensation) => .ok (.condensation condensation)
        | .ok none => .error (.noCondensationAvailable e)
    | .error e => .error e

/-! ## Rounds -/

/-- What a round is given: the id its condensation is stored under, the
summarizing LLM, and the branch, when the view is rebuilt after it. -/
structure Round where
  new : NewId
  llm : SummaryLLM
  rebuilt : Option (List Event) := none

def Round.applyTo (r : Round) (v : View) (condensation : Condensation) : View :=
  let w := v.appendEvent (r.new.event (.condensation condensation))
  match r.rebuilt with
  | none => w
  | some branch => w.enforceProperties branch

/-- The view with the condensation of the `n`-th round applied; no view when
the round gives none. -/
def round (agentLlm : Option AgentLLM) (rounds : Nat → Round) (n : Nat) (v : View) : Option View :=
  match c.condense agentLlm (rounds n).llm v with
  | .ok (.condensation condensation) => some ((rounds n).applyTo v condensation)
  | _ => none

end LLMSummarizingCondenser

/-! ## Cut points -/

theorem ManipulationIndices.findNext_mem {indices : ManipulationIndices} {threshold : Int} {i : Nat}
    (h : indices.findNext threshold = .ok i) : i ∈ indices := by
  unfold findNext at h
  split at h
  · rename_i j hj
    cases h
    exact List.mem_of_mem_filter (List.min?_mem hj)
  · cases h

theorem ManipulationIndices.le_of_findNext {indices : ManipulationIndices} {threshold : Int} {i : Nat}
    (h : indices.findNext threshold = .ok i) : threshold ≤ i := by
  unfold findNext at h
  split at h
  · rename_i j hj
    cases h
    exact of_decide_eq_true (List.mem_filter.1 (List.min?_mem hj)).2
  · cases h

theorem ManipulationIndices.findNext_error {indices : ManipulationIndices} {threshold : Int} {e : CondenseError}
    (h : indices.findNext threshold = .error e) : ∃ m, e = .valueError m := by
  unfold findNext at h
  split at h
  · cases h
  · cases h
    exact ⟨_, rfl⟩

theorem View.le_length_of_mem_manipulationIndices {v : View} {i : Nat} (h : i ∈ v.manipulationIndices) :
    i ≤ v.events.length := by
  have hsub : ∀ (ps : List ViewProperty) (r : ManipulationIndices),
      i ∈ ps.foldl (fun r p => r.filter (· ∈ p.manipulationIndices v.events)) r → i ∈ r := by
    intro ps
    induction ps with
    | nil => exact fun _ h => h
    | cons p ps ih => exact fun r h => List.mem_of_mem_filter (ih _ h)
  have hmem := hsub _ _ h
  rw [ManipulationIndices.complete, List.mem_range] at hmem
  omega

/-! ## When a round makes progress -/

namespace LLMSummarizingCondenser
variable {c : LLMSummarizingCondenser} {agentLlm : Option AgentLLM} {llm : SummaryLLM} {v : View}

/-- From the first cut point behind the protected prefix to the first one from
`naive_end` on, and no less than the minimum progress. -/
structure Forgettable (c : LLMSummarizingCondenser) (agentLlm : Option AgentLLM) (v : View) (start stop : Nat) : Prop where
  findStart : v.manipulationIndices.findNext (c.protectedPrefix v) = .ok start
  findStop : ∃ naiveEnd, c.naiveEnd agentLlm v = some naiveEnd ∧ v.manipulationIndices.findNext naiveEnd = .ok stop
  lt : start < stop
  enough : c.floatProduct v.events.length c.minimumProgress ≤ (stop - start : Nat)

def slice (v : View) (start stop : Nat) : List Event := (v.events.take stop).drop start

/-- The length the `k`-th retry cuts the events to. -/
def lengthAt (c : LLMSummarizingCondenser) (llm : SummaryLLM) (v : View) (k : Nat) : Option Nat :=
  (c.reduceLength llm v)^[k] none

/-- The first answer to a hard reset is the one to try `k`. -/
def AnswersFirst (c : LLMSummarizingCondenser) (llm : SummaryLLM) (v : View) (k : Nat) (summary : Option String) : Prop :=
  k < c.hardContextResetMaxRetries ∧
    llm.generate (1 + k) (v.events.drop (preserve v)) (c.lengthAt llm v k) = .ok summary ∧
      ∀ j < k, ∃ e, llm.generate (1 + j) (v.events.drop (preserve v)) (c.lengthAt llm v j) = .error e

/-- A range that is summarized has two events at least; and where only a hard
reset is left, two events stand behind the system prompt and the LLM answers
one of the tries. One event is enough if the answer has no text. -/
structure MakesProgress (c : LLMSummarizingCondenser) (agentLlm : Option AgentLLM) (llm : SummaryLLM) (v : View) : Prop where
  range : ∀ start stop summary, c.Forgettable agentLlm v start stop →
    llm.generate 0 (slice v start stop) none = .ok summary → start + 1 < stop ∨ summary = none
  reset : c.condensationRequirement agentLlm v = some .hard →
    (∀ start stop, c.Forgettable agentLlm v start stop → ∃ e, llm.generate 0 (slice v start stop) none = .error e) →
      ∃ k summary, c.AnswersFirst llm v k summary ∧
        (preserve v + 1 < v.events.length ∨ preserve v < v.events.length ∧ summary = none)

theorem generateCondensation_ok {attempt offset : Nat} {forgotten : List Event} {len : Option Nat} {k : Condensation}
    (h : generateCondensation llm attempt forgotten offset len = .ok k) :
    forgotten ≠ [] ∧ ∃ summary, llm.generate attempt forgotten len = .ok summary ∧
      k = ⟨forgotten.map Event.id, summary, some offset⟩ := by
  unfold generateCondensation at h
  split at h
  · cases h
  · refine ⟨‹_›, ?_⟩
    split at h
    · cases h
    · cases h
      exact ⟨_, ‹_›, rfl⟩

theorem generateCondensation_eq {attempt offset : Nat} {forgotten : List Event} {len : Option Nat}
    {summary : Option String} (hne : forgotten ≠ []) (h : llm.generate attempt forgotten len = .ok summary) :
    generateCondensation llm attempt forgotten offset len = .ok ⟨forgotten.map Event.id, summary, some offset⟩ := by
  unfold generateCondensation
  rw [if_neg hne, h]

theorem length_slice {start stop : Nat} (h : stop ≤ v.events.length) : (slice v start stop).length = stop - start := by
  rw [slice, List.length_drop, List.length_take]
  omega

theorem slice_sublist (start stop : Nat) : (slice v start stop).Sublist v.events :=
  (List.drop_sublist _ _).trans (List.take_sublist _ _)

theorem getForgottenEvents_ok {forgotten : List Event} {offset : Nat}
    (h : c.getForgottenEvents agentLlm v = .ok (forgotten, offset)) :
    ∃ stop naiveEnd, v.manipulationIndices.findNext (c.protectedPrefix v) = .ok offset ∧
      c.naiveEnd agentLlm v = some naiveEnd ∧ v.manipulationIndices.findNext naiveEnd = .ok stop ∧
        forgotten = slice v offset stop := by
  unfold getForgottenEvents at h
  split at h
  · cases h
  · rename_i naiveEnd hn
    obtain ⟨start, hstart, h⟩ := bind_ok h
    obtain ⟨stop, hstop, h⟩ := bind_ok h
    cases h
    exact ⟨stop, naiveEnd, hstart, hn, hstop, rfl⟩

theorem getForgottenEvents_eq {start stop : Nat} (h : c.Forgettable agentLlm v start stop) :
    c.getForgottenEvents agentLlm v = .ok (slice v start stop, start) := by
  obtain ⟨naiveEnd, hn, hstop⟩ := h.findStop
  unfold getForgottenEvents
  rw [hn]
  dsimp only
  rw [h.findStart, hstop]
  rfl

theorem Forgettable.stop_le {start stop : Nat} (h : c.Forgettable agentLlm v start stop) : stop ≤ v.events.length := by
  obtain ⟨_, -, hstop⟩ := h.findStop
  exact View.le_length_of_mem_manipulationIndices (ManipulationIndices.findNext_mem hstop)

theorem Forgettable.length_slice {start stop : Nat} (h : c.Forgettable agentLlm v start stop) :
    (slice v start stop).length = stop - start :=
  LLMSummarizingCondenser.length_slice h.stop_le

theorem Forgettable.slice_ne_nil {start stop : Nat} (h : c.Forgettable agentLlm v start stop) : slice v start stop ≠ [] := by
  have hlen := h.length_slice
  have hlt := h.lt
  intro hnil
  rw [hnil, List.length_nil] at hlen
  omega

/-- What a condensation of a range was made of. -/
theorem getCondensation_ok {k : Condensation} (h : c.getCondensation agentLlm llm v = .ok k) :
    ∃ start stop summary, c.Forgettable agentLlm v start stop ∧
      llm.generate 0 (slice v start stop) none = .ok summary ∧
        k = ⟨(slice v start stop).map Event.id, summary, some start⟩ := by
  unfold getCondensation at h
  split at h
  · cases h
  · cases h
  · rename_i forgotten offset hf
    obtain ⟨stop, naiveEnd, hstart, hn, hstop, rfl⟩ := getForgottenEvents_ok hf
    have hlen : (slice v offset stop).length = stop - offset :=
      length_slice (View.le_length_of_mem_manipulationIndices (ManipulationIndices.findNext_mem hstop))
    split at h
    · cases h
    · rename_i hne
      split at h
      · cases h
      · rename_i henough
        obtain ⟨-, summary, hs, rfl⟩ := generateCondensation_ok h
        have hpos := List.length_pos_iff.2 hne
        rw [hlen] at henough hpos
        exact ⟨offset, stop, summary, ⟨hstart, ⟨naiveEnd, hn, hstop⟩, by omega, not_lt.1 henough⟩, hs, rfl⟩

theorem getCondensation_eq {start stop : Nat} {summary : Option String} (h : c.Forgettable agentLlm v start stop)
    (hs : llm.generate 0 (slice v start stop) none = .ok summary) :
    c.getCondensation agentLlm llm v = .ok ⟨(slice v start stop).map Event.id, summary, some start⟩ := by
  unfold getCondensation
  rw [getForgottenEvents_eq h]
  dsimp only
  rw [if_neg h.slice_ne_nil, h.length_slice, if_neg (not_lt.2 h.enough)]
  exact generateCondensation_eq h.slice_ne_nil hs

/-- A range that cannot be condensed was refused, or the call for it failed. -/
theorem getCondensation_error {e : CondenseError} (h : c.getCondensation agentLlm llm v = .error e) {start stop : Nat}
    (hf : c.Forgettable agentLlm v start stop) : ∃ m, llm.generate 0 (slice v start stop) none = .error m := by
  cases hg : llm.generate 0 (slice v start stop) none with
  | error m => exact ⟨m, rfl⟩
  | ok summary =>
    rw [getCondensation_eq hf hg] at h
    cases h

theorem naiveEnd_isSome {request : CondensationRequirement} (h : c.condensationRequirement agentLlm v = some request) :
    ∃ naiveEnd, c.naiveEnd agentLlm v = some naiveEnd := by
  have hne : c.getCondensationReasons agentLlm v ≠ [] := by
    intro hnil
    simp [condensationRequirement, hnil] at h
  have hkeep : ∀ r ∈ c.getCondensationReasons agentLlm v, (c.suffixToKeep agentLlm v r).isSome := by
    intro r hr
    cases r with
    | request => rfl
    | events => rfl
    | tokens =>
      have ht : c.tokenExcess agentLlm v = true := by
        simp only [getCondensationReasons, List.mem_append] at hr
        by_contra hc
        rcases hr with (hr | hr) | hr
        · split at hr <;> simp at hr
        · rw [if_neg hc] at hr
          cases hr
        · split at hr <;> simp at hr
      unfold tokenExcess at ht
      unfold suffixToKeep
      dsimp only
      split at ht
      · rfl
      · cases ht
  obtain ⟨r, hr⟩ := List.exists_mem_of_ne_nil _ hne
  obtain ⟨n, hn⟩ := Option.isSome_iff_exists.1 (hkeep r hr)
  have hmem : n ∈ (c.getCondensationReasons agentLlm v).filterMap (c.suffixToKeep agentLlm v) :=
    List.mem_filterMap.2 ⟨r, hr, hn⟩
  unfold naiveEnd
  cases hm : ((c.getCondensationReasons agentLlm v).filterMap (c.suffixToKeep agentLlm v)).min? with
  | none =>
    rw [List.min?_eq_none_iff] at hm
    rw [hm] at hmem
    cases hmem
  | some t => exact ⟨_, rfl⟩

/-- Where a condensation is required, only its absence is reported. -/
theorem getCondensation_error_noCondensation {request : CondensationRequirement} {e : CondenseError}
    (hr : c.condensationRequirement agentLlm v = some request) (h : c.getCondensation agentLlm llm v = .error e) :
    ∃ m, e = .noCondensationAvailable m := by
  obtain ⟨naiveEnd, hn⟩ := naiveEnd_isSome hr
  unfold getCondensation at h
  split at h
  · cases h
    exact ⟨_, rfl⟩
  · rename_i e' hnot hf
    unfold getForgottenEvents at hf
    rw [hn] at hf
    dsimp only at hf
    cases hs : v.manipulationIndices.findNext (c.protectedPrefix v) with
    | error e₁ =>
      obtain ⟨m, rfl⟩ := ManipulationIndices.findNext_error hs
      rw [hs] at hf
      cases hf
      exact absurd rfl (hnot m)
    | ok start =>
      rw [hs] at hf
      cases ht : v.manipulationIndices.findNext naiveEnd with
      | error e₁ =>
        obtain ⟨m, rfl⟩ := ManipulationIndices.findNext_error ht
        rw [ht] at hf
        cases hf
        exact absurd rfl (hnot m)
      | ok stop =>
        rw [ht] at hf
        cases hf
  · split at h
    · cases h
      exact ⟨_, rfl⟩
    · split at h
      · cases h
        exact ⟨_, rfl⟩
      · rename_i hne _
        unfold generateCondensation at h
        rw [if_neg hne] at h
        split at h
        · cases h
          exact ⟨_, rfl⟩
        · cases h

/-! ## Hard resets -/

theorem reduceLength_isSome (hv : v.events ≠ []) (len : Option Nat) : ∃ l, c.reduceLength llm v len = some l := by
  unfold reduceLength
  cases len with
  | some l => exact ⟨_, rfl⟩
  | none =>
    cases hm : (v.events.map llm.strLength).max? with
    | none =>
      rw [List.max?_eq_none_iff, List.map_eq_nil_iff] at hm
      exact absurd hm hv
    | some l => exact ⟨_, rfl⟩

/-- The retry loop stops at the first answer. -/
theorem resetAttempts_answered {forgotten : List Event} {offset : Nat} {summary : Option String} (hv : v.events ≠ [])
    (hf : forgotten ≠ []) {k : Nat} {attempt n : Nat} {len : Option Nat} (hk : k < n)
    (hfail : ∀ j < k, ∃ e, llm.generate (attempt + j) forgotten ((c.reduceLength llm v)^[j] len) = .error e)
    (hok : llm.generate (attempt + k) forgotten ((c.reduceLength llm v)^[k] len) = .ok summary) :
    c.resetAttempts llm v forgotten offset attempt n len =
      .ok (some ⟨forgotten.map Event.id, summary, some offset⟩) := by
  induction k generalizing attempt n len with
  | zero =>
    obtain ⟨n, rfl⟩ : ∃ m, n = m + 1 := ⟨n - 1, by omega⟩
    have hfirst : llm.generate attempt forgotten len = .ok summary := hok
    rw [resetAttempts, generateCondensation_eq hf hfirst]
  | succ k ih =>
    obtain ⟨n, rfl⟩ : ∃ m, n = m + 1 := ⟨n - 1, by omega⟩
    obtain ⟨e, he⟩ := hfail 0 (by omega)
    obtain ⟨l, hl⟩ : ∃ l, c.reduceLength llm v len = some l := reduceLength_isSome hv len
    have hgen : ∃ m, generateCondensation llm attempt forgotten offset len = .error m := by
      unfold generateCondensation
      rw [if_neg hf, show llm.generate attempt forgotten len = .error e from he]
      exact ⟨_, rfl⟩
    obtain ⟨m, hm⟩ := hgen
    rw [resetAttempts, hm]
    dsimp only
    rw [hl]
    dsimp only
    refine ih (by omega) (fun j hj => ?_) ?_
    · obtain ⟨e', he'⟩ := hfail (j + 1) (by omega)
      rw [Function.iterate_succ_apply, hl] at he'
      refine ⟨e', ?_⟩
      rw [← he']
      congr 1
      omega
    · rw [Function.iterate_succ_apply, hl] at hok
      rw [← hok]
      congr 1
      omega

theorem hardContextReset_answered {k : Nat} {summary : Option String} (h : c.AnswersFirst llm v k summary)
    (hlt : preserve v < v.events.length) :
    c.hardContextReset llm v =
      .ok (some ⟨(v.events.drop (preserve v)).map Event.id, summary, some (preserve v)⟩) := by
  obtain ⟨hk, hok, hfail⟩ := h
  have hv : v.events ≠ [] := List.length_pos_iff.1 (by omega)
  have hf : v.events.drop (preserve v) ≠ [] := by
    intro hnil
    rw [List.drop_eq_nil_iff] at hnil
    omega
  exact resetAttempts_answered hv hf hk hfail hok

theorem resetAttempts_ok {forgotten : List Event} {offset : Nat} {k : Condensation} {attempt n : Nat} {len : Option Nat}
    (h : c.resetAttempts llm v forgotten offset attempt n len = .ok (some k)) :
    ∃ j summary, j < n ∧ llm.generate (attempt + j) forgotten ((c.reduceLength llm v)^[j] len) = .ok summary ∧
      (∀ i < j, ∃ e, llm.generate (attempt + i) forgotten ((c.reduceLength llm v)^[i] len) = .error e) ∧
        forgotten ≠ [] ∧ k = ⟨forgotten.map Event.id, summary, some offset⟩ := by
  induction n generalizing attempt len with
  | zero => cases h
  | succ n ih =>
    rw [resetAttempts] at h
    split at h
    · rename_i k' hk
      cases h
      obtain ⟨hne, summary, hs, rfl⟩ := generateCondensation_ok hk
      exact ⟨0, summary, Nat.succ_pos n, hs, fun i hi => absurd hi (Nat.not_lt_zero i), hne, rfl⟩
    · rename_i e he
      split at h
      · cases h
      · rename_i l hl
        obtain ⟨j, summary, hj, hok, hfail, hne, rfl⟩ := ih h
        refine ⟨j + 1, summary, by omega, ?_, fun i hi => ?_, hne, rfl⟩
        · rw [Function.iterate_succ_apply, hl, ← hok]
          congr 1
          omega
        · cases i with
          | zero =>
            rw [generateCondensation, if_neg hne] at he
            cases hg : llm.generate attempt forgotten len with
            | error m => exact ⟨m, hg⟩
            | ok summary =>
              rw [hg] at he
              cases he
          | succ i =>
            obtain ⟨e', he'⟩ := hfail i (by omega)
            refine ⟨e', ?_⟩
            rw [Function.iterate_succ_apply, hl, ← he']
            congr 1
            omega

theorem hardContextReset_ok {k : Condensation} (h : c.hardContextReset llm v = .ok (some k)) :
    ∃ j summary, c.AnswersFirst llm v j summary ∧ preserve v < v.events.length ∧
      k = ⟨(v.events.drop (preserve v)).map Event.id, summary, some (preserve v)⟩ := by
  obtain ⟨j, summary, hj, hok, hfail, hne, rfl⟩ := resetAttempts_ok h
  refine ⟨j, summary, ⟨hj, hok, hfail⟩, ?_, rfl⟩
  by_contra hle
  exact hne (List.drop_eq_nil_of_le (by omega))

/-! ## Applying a condensation -/

/-- The events of a part of the view are forgotten, and at most one summary comes in. -/
theorem length_applyTo (r : Round) {part : List Event} (hpart : part.Sublist v.events) (summary : Option String)
    (offset : Nat) :
    (r.applyTo v ⟨part.map Event.id, summary, some offset⟩).events.length + part.length ≤
      v.events.length + summary.toList.length := by
  have hkept : (v.events.filter (·.id ∉ part.map Event.id)).length + part.length ≤ v.events.length := by
    have hself : part.filter (fun e => !decide (e.id ∉ part.map Event.id)) = part :=
      List.filter_eq_self.2 fun e he => by simpa using List.mem_map_of_mem he
    have hle := (hpart.filter fun e => !decide (e.id ∉ part.map Event.id)).length_le
    rw [hself] at hle
    have hsum := List.length_eq_length_filter_add (l := v.events) (fun e => decide (e.id ∉ part.map Event.id))
    omega
  have hraw : (v.appendEvent (r.new.event (.condensation ⟨part.map Event.id, summary, some offset⟩))).events.length ≤
      (v.events.filter (·.id ∉ part.map Event.id)).length + summary.toList.length := by
    simp only [View.appendEvent, View.appendRaw, NewId.event, Condensation.apply]
    cases summary with
    | none => simp
    | some text =>
      simp only [List.length_append, List.length_cons, List.length_take, List.length_drop, Option.toList_some,
        List.length_nil]
      omega
  unfold Round.applyTo
  split
  · dsimp only
    omega
  · have henforce := (View.enforceEvents_sublist ‹List Event›
      (v.appendEvent (r.new.event (.condensation ⟨part.map Event.id, summary, some offset⟩))).events).length_le
    simp only [View.enforceProperties]
    omega

/-- What a call of `condense` on a view that makes progress gives. -/
theorem condense_of_progress (h : c.MakesProgress agentLlm llm v) :
    c.condense agentLlm llm v = .ok (.view v) ∨
      ∃ (part : List Event) (summary : Option String) (offset : Nat), c.condense agentLlm llm v =
          .ok (.condensation ⟨part.map Event.id, summary, some offset⟩) ∧
        part.Sublist v.events ∧ (1 < part.length ∨ 0 < part.length ∧ summary = none) := by
  unfold condense
  cases hr : c.condensationRequirement agentLlm v with
  | none => exact .inl rfl
  | some request =>
    dsimp only
    cases hg : c.getCondensation agentLlm llm v with
    | ok k =>
      obtain ⟨start, stop, summary, hf, hs, rfl⟩ := getCondensation_ok hg
      have hlt := hf.lt
      refine .inr ⟨_, summary, start, rfl, slice_sublist _ _, ?_⟩
      rw [hf.length_slice]
      rcases h.range start stop summary hf hs with hlen | hnone
      · exact .inl (by omega)
      · exact .inr ⟨by omega, hnone⟩
    | error e =>
      obtain ⟨m, rfl⟩ := getCondensation_error_noCondensation hr hg
      cases request with
      | soft => exact .inl rfl
      | hard =>
        obtain ⟨k, summary, hk, hlen⟩ := h.reset hr fun start stop hf => getCondensation_error hg hf
        dsimp only
        rw [hardContextReset_answered hk (by omega)]
        refine .inr ⟨_, summary, _, rfl, List.drop_sublist _ _, ?_⟩
        rw [List.length_drop]
        rcases hlen with hlen | ⟨hlen, hnone⟩
        · exact .inl (by omega)
        · exact .inr ⟨by omega, hnone⟩

/-- A round that makes progress leaves fewer events. -/
theorem round_decreases {rounds : Nat → Round} {n : Nat} {w : View} (h : c.MakesProgress agentLlm (rounds n).llm v)
    (hw : c.round agentLlm rounds n v = some w) : w.events.length < v.events.length := by
  unfold round at hw
  rcases condense_of_progress h with heq | ⟨part, summary, offset, heq, hsub, hlen⟩
  · rw [heq] at hw
    cases hw
  · rw [heq] at hw
    cases hw
    have hle := length_applyTo (rounds n) hsub summary offset
    have hone : summary.toList.length ≤ 1 := by cases summary <;> simp
    rcases hlen with hlen | ⟨hlen, rfl⟩
    · omega
    · rw [Option.toList_none, List.length_nil] at hle
      omega

/-- Without a rebuild, and with distinct ids, exactly the part is replaced. -/
theorem length_applyTo_eq {r : Round} (hr : r.rebuilt = none) (hids : (v.events.map Event.id).Nodup)
    {part : List Event} (hpart : part.Sublist v.events) (summary : Option String) (offset : Nat) :
    (r.applyTo v ⟨part.map Event.id, summary, some offset⟩).events.length + part.length =
      v.events.length + summary.toList.length := by
  have hforgot : (v.events.filter (fun e => !decide (e.id ∉ part.map Event.id))).length ≤ part.length := by
    refine (List.subperm_of_subset ((List.Nodup.of_map _ hids).filter _) fun e he => ?_).length_le
    rw [List.mem_filter] at he
    obtain ⟨f, hf, heq⟩ := List.mem_map.1 (show e.id ∈ part.map Event.id by simpa using he.2)
    rwa [← List.inj_on_of_nodup_map hids (hpart.subset hf) he.1 heq]
  have hkept : v.events.length ≤ (v.events.filter (·.id ∉ part.map Event.id)).length + part.length := by
    have hsum := List.length_eq_length_filter_add (l := v.events) (fun e => decide (e.id ∉ part.map Event.id))
    omega
  have hraw : (r.applyTo v ⟨part.map Event.id, summary, some offset⟩).events.length =
      (v.events.filter (·.id ∉ part.map Event.id)).length + summary.toList.length := by
    simp only [Round.applyTo, hr, View.appendEvent, View.appendRaw, NewId.event, Condensation.apply]
    cases summary with
    | none => simp
    | some text =>
      simp only [List.length_append, List.length_cons, List.length_take, List.length_drop, Option.toList_some,
        List.length_nil]
      omega
  have hle := length_applyTo r hpart summary offset
  omega

theorem condensationRequirement_isSome {naiveEnd : Int} (h : c.naiveEnd agentLlm v = some naiveEnd) :
    ∃ request, c.condensationRequirement agentLlm v = some request := by
  have hne : c.getCondensationReasons agentLlm v ≠ [] := by
    intro hnil
    simp [LLMSummarizingCondenser.naiveEnd, hnil] at h
  unfold condensationRequirement
  dsimp only
  rw [if_neg hne]
  by_cases ht : Reason.tokens ∈ c.getCondensationReasons agentLlm v
  · exact ⟨_, if_pos ht⟩
  · rw [if_neg ht]
    by_cases hall : (c.getCondensationReasons agentLlm v).all (· = .events) = true
    · exact ⟨_, if_pos hall⟩
    · rw [if_neg hall]
      have hreq : Reason.request ∈ c.getCondensationReasons agentLlm v := by
        simp only [List.all_eq_true, decide_eq_true_eq, not_forall] at hall
        obtain ⟨r, hr, hre⟩ := hall
        cases r with
        | request => exact hr
        | tokens => exact absurd hr ht
        | events => exact absurd rfl hre
      exact ⟨_, if_pos hreq⟩

/-- The condition is exact: a round without progress raises, or condenses and
leaves no fewer events. -/
theorem makesProgress_iff {r : Round} (hr : r.rebuilt = none) (hids : (v.events.map Event.id).Nodup) :
    c.MakesProgress agentLlm r.llm v ↔ c.condense agentLlm r.llm v = .ok (.view v) ∨
      ∃ k, c.condense agentLlm r.llm v = .ok (.condensation k) ∧ (r.applyTo v k).events.length < v.events.length := by
  constructor
  · intro h
    refine (condense_of_progress h).imp id ?_
    rintro ⟨part, summary, offset, heq, hsub, hlen⟩
    refine ⟨_, heq, ?_⟩
    have hround : c.round agentLlm (fun _ => r) 0 v = some (r.applyTo v ⟨part.map Event.id, summary, some offset⟩) := by
      rw [round, heq]
    refine round_decreases ?_ hround
    exact h
  · intro h
    constructor
    · intro start stop summary hf hs
      obtain ⟨naiveEnd, hn, -⟩ := hf.findStop
      obtain ⟨request, hreq⟩ := condensationRequirement_isSome hn
      have heq : c.condense agentLlm r.llm v =
          .ok (.condensation ⟨(slice v start stop).map Event.id, summary, some start⟩) := by
        rw [condense, hreq]
        dsimp only
        rw [getCondensation_eq hf hs]
      rw [heq] at h
      obtain h | ⟨k, hk, hlt⟩ := h
      · cases h
      · cases hk
        -- The view loses the part and gets the summary, if there is one.
        have hexact := length_applyTo_eq hr hids (slice_sublist (v := v) start stop) summary start
        rw [hf.length_slice] at hexact
        cases summary with
        | none => exact .inr rfl
        | some text =>
          rw [Option.toList_some, List.length_singleton] at hexact
          exact .inl (by omega)
    · intro hreq hfail
      unfold condense at h
      rw [hreq] at h
      dsimp only at h
      cases hg : c.getCondensation agentLlm r.llm v with
      | ok k =>
        -- The summary was not written, so no condensation comes from it.
        obtain ⟨start, stop, summary, hf, hs, -⟩ := getCondensation_ok hg
        obtain ⟨e, he⟩ := hfail start stop hf
        rw [hs] at he
        cases he
      | error e =>
        -- Under a request the error leads to the reset, which has to make progress.
        obtain ⟨m, rfl⟩ := getCondensation_error_noCondensation hreq hg
        rw [hg] at h
        dsimp only at h
        cases hh : c.hardContextReset r.llm v with
        | error e => simp [hh] at h
        | ok res =>
          cases res with
          | none => simp [hh] at h
          | some k =>
            obtain ⟨j, summary, hj, hlt, rfl⟩ := hardContextReset_ok hh
            refine ⟨j, summary, hj, ?_⟩
            rw [hh] at h
            obtain h | ⟨k, hk, hless⟩ := h
            · cases h
            · cases hk
              have hexact := length_applyTo_eq hr hids (List.drop_sublist (preserve v) v.events) summary (preserve v)
              rw [List.length_drop] at hexact
              cases summary with
              | none => exact .inr ⟨hlt, rfl⟩
              | some text =>
                rw [Option.toList_some, List.length_singleton] at hexact
                exact .inl (by omega)

/-- Rounds that all make progress: each one leaves fewer events, and after at
most as many rounds as there were events the view itself comes back. -/
theorem condense_ends (c : LLMSummarizingCondenser) (agentLlm : Option AgentLLM) (rounds : Nat → Round) (v : View)
    (h : ∀ n w, stateAt (c.round agentLlm rounds) v n = some w → c.MakesProgress agentLlm (rounds n).llm w) :
    (∀ n w w', stateAt (c.round agentLlm rounds) v n = some w → c.round agentLlm rounds n w = some w' →
      w'.events.length < w.events.length) ∧
    ∃ n w, n ≤ v.events.length ∧ stateAt (c.round agentLlm rounds) v n = some w ∧
      c.condense agentLlm (rounds n).llm w = .ok (.view w) := by
  have hdec : ∀ n w w', stateAt (c.round agentLlm rounds) v n = some w → c.round agentLlm rounds n w = some w' →
      w'.events.length < w.events.length := fun n w w' hn hw => round_decreases (h n w hn) hw
  obtain ⟨n, w, hn, hw, hend⟩ := stateAt_ends (μ := fun w : View => w.events.length) hdec
  refine ⟨hdec, n, w, hn, hw, ?_⟩
  rcases condense_of_progress (h n w hw) with heq | ⟨part, summary, offset, heq, -⟩
  · exact heq
  · rw [round, heq] at hend
    cases hend

/-! ## Two views -/

private def said (id : EventID) (h : id ≠ rootParentId := by exact ne_rootParentId trivial) : Event :=
  { id, notRoot := h, body := .message (.ofUser [id]) }

private def called (id : EventID) (thinking : List String) (h : id ≠ rootParentId := by exact ne_rootParentId trivial) : Event :=
  { id, notRoot := h, body := .action
      { thinkingBlocks := thinking, action := some (.other id), toolName := "bash", toolCall := ⟨id, "bash", "{}"⟩,
        toolCallId := id, llmResponseId := id } }

private def answered (id call : EventID) (h : id ≠ rootParentId := by exact ne_rootParentId trivial) : Event :=
  { id, body := .observation ⟨"bash", call, .observation ["done"] [] call⟩, notRoot := h }

private def summarizer : SummaryLLM := ⟨fun _ _ _ => .ok (some "so far"), fun _ => 1⟩

private def rounds (n : Nat) : Round :=
  if n = 0 then ⟨{ id := "c0" }, summarizer, none⟩ else ⟨{ id := "c1" }, summarizer, none⟩

def small : LLMSummarizingCondenser := { maxSize := 4, keepFirst := 0 }

private def chat : View where
  events := [said "e0", said "e1", said "e2", said "e3", said "e4"]
  convertible := by decide

private def firstFour : Condensation := ⟨["e0", "e1", "e2", "e3"], some "so far", some 0⟩

private def summarized : View := (rounds 0).applyTo chat firstFour

/-- Five messages, of which four are summarized. -/
theorem condense_ends_chat : ∃ n w, n ≤ 5 ∧ stateAt (small.round none rounds) chat n = some w ∧
    small.condense none (rounds n).llm w = .ok (.view w) := by
  have hfirst : small.condense none (rounds 0).llm chat = .ok (.condensation firstFour) := by decide +kernel
  have hone : stateAt (small.round none rounds) chat 1 = some summarized := by decide +kernel
  have hend : stateAt (small.round none rounds) chat 2 = none := by decide +kernel
  exact (condense_ends small none rounds chat fun n w hw => by
    match n with
    | 0 =>
      cases hw
      exact (makesProgress_iff rfl (by decide)).2 (.inr ⟨firstFour, hfirst, by decide⟩)
    | 1 =>
      rw [hone] at hw
      cases hw
      exact (makesProgress_iff rfl (by decide)).2 (.inl (by decide +kernel))
    | n + 2 =>
      rw [Nat.add_comm, stateAt_none hend n] at hw
      cases hw).2

/-- A tool loop covers all that may be forgotten but one event. -/
private def looping : View where
  events := [said "e0", called "e1" ["think"], answered "e2" "e1", called "e3" [], answered "e4" "e3",
    called "e5" [], answered "e6" "e5", said "e7", said "e8"]
  convertible := by decide

private def tight : LLMSummarizingCondenser := { maxSize := 8, keepFirst := 2 }

private def agent : AgentLLM := ⟨some 1000, List.length⟩

/-- Round after round one event, the summary of the last round, is replaced by
a summary: nine events stay nine. -/
theorem condense_stalls : (looping.events.length = 9) ∧
    (stateAt (tight.round (some agent) rounds) looping 1).map (·.events.length) = some 9 ∧
    (stateAt (tight.round (some agent) rounds) looping 2).map (·.events.length) = some 9 := by
  decide +kernel

end LLMSummarizingCondenser

end AgentSdk
