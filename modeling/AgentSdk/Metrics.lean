import Mathlib
/-!
# Metrics

`Metrics` of the calls to a model: the costs, token usages and latencies call
by call with their sums, what a difference to an earlier snapshot contains, and
what merging it gives back. Amounts and times are exact.
-/

namespace AgentSdk

structure Cost where
  model : String
  cost : ℚ
  timestamp : ℚ
  nonneg : 0 ≤ cost
deriving DecidableEq

structure ResponseLatency where
  model : String
  latency : ℚ
  responseId : String
  nonneg : 0 ≤ latency
deriving DecidableEq

structure TokenUsage where
  model : String := ""
  promptTokens : Nat := 0
  completionTokens : Nat := 0
  cacheReadTokens : Nat := 0
  cacheWriteTokens : Nat := 0
  reasoningTokens : Nat := 0
  contextWindow : Nat := 0
  perTurnToken : Nat := 0
  responseId : String := ""
deriving DecidableEq, Repr

inductive MetricsError where
  | negativeCost
  | negativeTokens
deriving DecidableEq, Repr

namespace TokenUsage

/-- `__add__`. -/
def add (u v : TokenUsage) : TokenUsage where
  model := u.model
  promptTokens := u.promptTokens + v.promptTokens
  completionTokens := u.completionTokens + v.completionTokens
  cacheReadTokens := u.cacheReadTokens + v.cacheReadTokens
  cacheWriteTokens := u.cacheWriteTokens + v.cacheWriteTokens
  reasoningTokens := u.reasoningTokens + v.reasoningTokens
  contextWindow := max u.contextWindow v.contextWindow
  perTurnToken := v.perTurnToken
  responseId := u.responseId

/-- The constructor: no count is negative. -/
def validate (model : String) (promptTokens completionTokens cacheReadTokens cacheWriteTokens reasoningTokens
    contextWindow perTurnToken : Int) (responseId : String) : Except MetricsError TokenUsage :=
  if 0 ≤ promptTokens ∧ 0 ≤ completionTokens ∧ 0 ≤ cacheReadTokens ∧ 0 ≤ cacheWriteTokens ∧ 0 ≤ reasoningTokens ∧
      0 ≤ contextWindow ∧ 0 ≤ perTurnToken then
    .ok { model, promptTokens := promptTokens.toNat, completionTokens := completionTokens.toNat
          cacheReadTokens := cacheReadTokens.toNat, cacheWriteTokens := cacheWriteTokens.toNat
          reasoningTokens := reasoningTokens.toNat, contextWindow := contextWindow.toNat
          perTurnToken := perTurnToken.toNat, responseId }
  else .error .negativeTokens

end TokenUsage

/-- The constructor gives every metrics an accumulated token usage. -/
structure Metrics where
  modelName : String := "default"
  accumulatedCost : ℚ := 0
  maxBudgetPerTask : Option ℚ := none
  accumulatedTokenUsage : Option TokenUsage := some { model := modelName }
  costs : List Cost := []
  responseLatencies : List ResponseLatency := []
  tokenUsages : List TokenUsage := []
deriving DecidableEq

namespace Metrics

def addCost (m : Metrics) (value now : ℚ) : Except MetricsError Metrics :=
  if h : value < 0 then .error .negativeCost
  else .ok
    { m with accumulatedCost := m.accumulatedCost + value, costs := m.costs ++ [⟨m.modelName, value, now, not_lt.1 h⟩] }

def addResponseLatency (m : Metrics) (value : ℚ) (responseId : String) : Metrics :=
  { m with responseLatencies := m.responseLatencies ++ [⟨m.modelName, max 0 value, responseId, le_max_left 0 value⟩] }

def addTokenUsage (m : Metrics) (promptTokens completionTokens cacheReadTokens cacheWriteTokens contextWindow : Int)
    (responseId : String) (reasoningTokens : Int) : Except MetricsError Metrics := do
  let perTurnToken := promptTokens + completionTokens
  let usage ← TokenUsage.validate m.modelName promptTokens completionTokens cacheReadTokens cacheWriteTokens
    reasoningTokens contextWindow perTurnToken responseId
  let newUsage ← TokenUsage.validate m.modelName promptTokens completionTokens cacheReadTokens cacheWriteTokens
    reasoningTokens contextWindow perTurnToken ""
  return { m with
    tokenUsages := m.tokenUsages ++ [usage]
    accumulatedTokenUsage := match m.accumulatedTokenUsage with
      | none => some newUsage
      | some accumulated => some (accumulated.add newUsage) }

def merge (m other : Metrics) : Metrics where
  modelName := m.modelName
  accumulatedCost := m.accumulatedCost + other.accumulatedCost
  maxBudgetPerTask := m.maxBudgetPerTask <|> other.maxBudgetPerTask
  accumulatedTokenUsage := match m.accumulatedTokenUsage, other.accumulatedTokenUsage with
    | none, theirs => theirs
    | some ours, some theirs => some (ours.add theirs)
    | some ours, none => some ours
  costs := m.costs ++ other.costs
  responseLatencies := m.responseLatencies ++ other.responseLatencies
  tokenUsages := m.tokenUsages ++ other.tokenUsages

def deepCopy (m : Metrics) : Metrics := m

/-- The costs that are newer than the last one of the baseline. -/
def costsSince (m baseline : Metrics) : List Cost :=
  match baseline.costs.getLast? with
  | some last => m.costs.filter fun c => last.timestamp < c.timestamp
  | none => m.costs

/-- New costs are told by their time, new usages and latencies by their place. -/
def diff (m baseline : Metrics) : Except MetricsError Metrics := do
  let accumulatedTokenUsage ← match m.accumulatedTokenUsage, baseline.accumulatedTokenUsage with
    | some current, some base =>
      some <$> TokenUsage.validate m.modelName ((current.promptTokens : Int) - base.promptTokens)
        ((current.completionTokens : Int) - base.completionTokens)
        ((current.cacheReadTokens : Int) - base.cacheReadTokens)
        ((current.cacheWriteTokens : Int) - base.cacheWriteTokens)
        ((current.reasoningTokens : Int) - base.reasoningTokens) current.contextWindow 0 ""
    | some current, none => pure (some current)
    | none, _ => pure none
  return {
    modelName := m.modelName
    accumulatedCost := m.accumulatedCost - baseline.accumulatedCost
    accumulatedTokenUsage
    costs := m.costsSince baseline
    responseLatencies := m.responseLatencies.drop baseline.responseLatencies.length
    tokenUsages := m.tokenUsages.drop baseline.tokenUsages.length }

end Metrics

/-! ## Sums -/

/-- The counts that are summed. -/
inductive TokenKind where
  | prompt | completion | cacheRead | cacheWrite | reasoning
deriving DecidableEq, Repr

def TokenUsage.count (u : TokenUsage) : TokenKind → Nat
  | .prompt => u.promptTokens
  | .completion => u.completionTokens
  | .cacheRead => u.cacheReadTokens
  | .cacheWrite => u.cacheWriteTokens
  | .reasoning => u.reasoningTokens

theorem TokenUsage.count_add (u v : TokenUsage) (k : TokenKind) : (u.add v).count k = u.count k + v.count k := by
  cases k <;> rfl

theorem TokenUsage.validate_ok {model responseId : String} {p c r w g n t : Int} {u : TokenUsage}
    (h : TokenUsage.validate model p c r w g n t responseId = .ok u) :
    TokenUsage.validate model p c r w g n t "" = .ok { u with responseId := "" } := by
  unfold TokenUsage.validate at h ⊢
  split at h
  · rename_i hnonneg
    rw [if_pos hnonneg]
    cases h
    rfl
  · cases h

namespace Metrics

def tokens (m : Metrics) (k : TokenKind) : Nat := (m.accumulatedTokenUsage.map (·.count k)).getD 0

/-- What the accumulated cost is above the sum of the entries. -/
def surplus (m : Metrics) : ℚ := m.accumulatedCost - (m.costs.map (·.cost)).sum

def tokenSurplus (m : Metrics) (k : TokenKind) : Int := m.tokens k - ((m.tokenUsages.map (·.count k)).sum : Nat)

/-- The accumulated cost and counts are the sums of the entries. -/
structure Balanced (m : Metrics) : Prop where
  cost : m.accumulatedCost = (m.costs.map (·.cost)).sum
  tokens : ∀ k, m.tokens k = (m.tokenUsages.map (·.count k)).sum

theorem balanced_iff {m : Metrics} : m.Balanced ↔ m.surplus = 0 ∧ ∀ k, m.tokenSurplus k = 0 := by
  constructor
  · intro h
    refine ⟨sub_eq_zero.2 h.cost, fun k => ?_⟩
    have := h.tokens k
    unfold tokenSurplus
    omega
  · rintro ⟨hcost, htokens⟩
    refine ⟨sub_eq_zero.1 hcost, fun k => ?_⟩
    have := htokens k
    unfold tokenSurplus at this
    omega

/-! ## Operations -/

/-- `now` is the time of the new cost. -/
inductive Op where
  | addCost (value now : ℚ)
  | addResponseLatency (value : ℚ) (responseId : String)
  | addTokenUsage (promptTokens completionTokens cacheReadTokens cacheWriteTokens contextWindow : Int)
      (responseId : String) (reasoningTokens : Int)
  | merge (other : Metrics)
deriving DecidableEq

def run (m : Metrics) : Op → Except MetricsError Metrics
  | .addCost value now => m.addCost value now
  | .addResponseLatency value responseId => .ok (m.addResponseLatency value responseId)
  | .addTokenUsage p c r w n responseId g => m.addTokenUsage p c r w n responseId g
  | .merge other => .ok (m.merge other)

/-- The metrics after some operations; one that raises changes nothing. -/
def after (m : Metrics) (ops : List Op) : Metrics := ops.foldl (fun m op => (m.run op).toOption.getD m) m

namespace Op

def costs (model : String) : Op → List Cost
  | .addCost value now => if h : value < 0 then [] else [⟨model, value, now, not_lt.1 h⟩]
  | .merge other => other.costs
  | _ => []

def responseLatencies (model : String) : Op → List ResponseLatency
  | .addResponseLatency value responseId => [⟨model, max 0 value, responseId, le_max_left 0 value⟩]
  | .merge other => other.responseLatencies
  | _ => []

def tokenUsages (model : String) : Op → List TokenUsage
  | .addTokenUsage p c r w n responseId g => (TokenUsage.validate model p c r w g n (p + c) responseId).toOption.toList
  | .merge other => other.tokenUsages
  | _ => []

def merged : Op → Option Metrics
  | .merge other => some other
  | _ => none

end Op

/-- What the metrics merged in have above their entries, together. -/
def mergedSurplus (ops : List Op) : ℚ := ((ops.filterMap Op.merged).map surplus).sum

def mergedTokenSurplus (ops : List Op) (k : TokenKind) : Int := ((ops.filterMap Op.merged).map (·.tokenSurplus k)).sum

/-- Every entry of the operations is appended, in order, and nothing is
counted twice. -/
structure Appends (m : Metrics) (ops : List Op) (m' : Metrics) : Prop where
  modelName : m'.modelName = m.modelName
  costs : m'.costs = m.costs ++ ops.flatMap (Op.costs m.modelName)
  responseLatencies : m'.responseLatencies = m.responseLatencies ++ ops.flatMap (Op.responseLatencies m.modelName)
  tokenUsages : m'.tokenUsages = m.tokenUsages ++ ops.flatMap (Op.tokenUsages m.modelName)
  surplus : m'.surplus = m.surplus + mergedSurplus ops
  tokenSurplus : ∀ k, m'.tokenSurplus k = m.tokenSurplus k + mergedTokenSurplus ops k
  tokens : ∀ k, m.tokens k ≤ m'.tokens k
  counted : m'.accumulatedTokenUsage = none → m.accumulatedTokenUsage = none

variable {m m' m'' : Metrics} {op : Op} {ops ops' : List Op}

theorem Appends.refl (m : Metrics) : Appends m [] m where
  modelName := rfl
  costs := (List.append_nil _).symm
  responseLatencies := (List.append_nil _).symm
  tokenUsages := (List.append_nil _).symm
  surplus := (add_zero _).symm
  tokenSurplus _ := (add_zero _).symm
  tokens _ := Nat.le_refl _
  counted := id

theorem Appends.trans (h : Appends m ops m') (h' : Appends m' ops' m'') : Appends m (ops ++ ops') m'' where
  modelName := h'.modelName.trans h.modelName
  costs := by rw [h'.costs, h.costs, h.modelName, List.flatMap_append, List.append_assoc]
  responseLatencies := by
    rw [h'.responseLatencies, h.responseLatencies, h.modelName, List.flatMap_append, List.append_assoc]
  tokenUsages := by rw [h'.tokenUsages, h.tokenUsages, h.modelName, List.flatMap_append, List.append_assoc]
  surplus := by
    rw [h'.surplus, h.surplus, add_assoc]
    simp [mergedSurplus, List.filterMap_append]
  tokenSurplus k := by
    rw [h'.tokenSurplus, h.tokenSurplus, add_assoc]
    simp [mergedTokenSurplus, List.filterMap_append]
  tokens k := (h.tokens k).trans (h'.tokens k)
  counted hnone := h.counted (h'.counted hnone)

theorem tokens_addTokenUsage {u : TokenUsage} {r : String} (k : TokenKind) :
    (({ m with
        tokenUsages := m.tokenUsages ++ [u]
        accumulatedTokenUsage := match m.accumulatedTokenUsage with
          | none => some { u with responseId := r }
          | some accumulated => some (accumulated.add { u with responseId := r }) } : Metrics)).tokens k =
      m.tokens k + u.count k := by
  unfold tokens
  have hcount : ({ u with responseId := r } : TokenUsage).count k = u.count k := by cases k <;> rfl
  cases m.accumulatedTokenUsage with
  | none => simp [hcount]
  | some accumulated => simp [TokenUsage.count_add, hcount]

theorem tokens_merge (m other : Metrics) (k : TokenKind) : (m.merge other).tokens k = m.tokens k + other.tokens k := by
  unfold tokens merge
  cases m.accumulatedTokenUsage <;> cases other.accumulatedTokenUsage <;> simp [TokenUsage.count_add]

theorem surplus_merge (m other : Metrics) : (m.merge other).surplus = m.surplus + other.surplus := by
  simp only [surplus, merge, List.map_append, List.sum_append]
  ring

theorem tokenSurplus_merge (m other : Metrics) (k : TokenKind) :
    (m.merge other).tokenSurplus k = m.tokenSurplus k + other.tokenSurplus k := by
  have hsum : (m.merge other).tokenUsages = m.tokenUsages ++ other.tokenUsages := rfl
  simp only [tokenSurplus, tokens_merge, hsum, List.map_append, List.sum_append]
  omega

theorem mergedSurplus_of_none {o : Op} (h : o.merged = none) : mergedSurplus [o] = 0 := by
  simp [mergedSurplus, h]

theorem mergedTokenSurplus_of_none {o : Op} (h : o.merged = none) (k : TokenKind) : mergedTokenSurplus [o] k = 0 := by
  simp [mergedTokenSurplus, h]

theorem addCost_appends {value now : ℚ} : Appends m [.addCost value now] ((m.addCost value now).toOption.getD m) := by
  have hsurplus := mergedSurplus_of_none (o := .addCost value now) rfl
  have htokens := mergedTokenSurplus_of_none (o := .addCost value now) rfl
  unfold addCost
  split
  · rename_i hneg
    refine ⟨rfl, ?_, ?_, ?_, ?_, fun k => ?_, fun _ => Nat.le_refl _, id⟩
    · simp [Op.costs, hneg, Except.toOption]
    · simp [Op.responseLatencies, Except.toOption]
    · simp [Op.tokenUsages, Except.toOption]
    · simp [hsurplus, Except.toOption]
    · simp [htokens, Except.toOption]
  · rename_i hpos
    refine ⟨rfl, ?_, ?_, ?_, ?_, fun k => ?_, fun _ => Nat.le_refl _, id⟩
    · simp [Op.costs, hpos, Except.toOption]
    · simp [Op.responseLatencies, Except.toOption]
    · simp [Op.tokenUsages, Except.toOption]
    · simp [surplus, hsurplus, Except.toOption]
    · simp [tokenSurplus, tokens, htokens, Except.toOption]

theorem addResponseLatency_appends {value : ℚ} {responseId : String} :
    Appends m [.addResponseLatency value responseId] (m.addResponseLatency value responseId) := by
  have hsurplus := mergedSurplus_of_none (o := .addResponseLatency value responseId) rfl
  have htokens := mergedTokenSurplus_of_none (o := .addResponseLatency value responseId) rfl
  refine ⟨rfl, ?_, ?_, ?_, ?_, fun k => ?_, fun _ => Nat.le_refl _, id⟩
  · simp [Op.costs, addResponseLatency]
  · simp [Op.responseLatencies, addResponseLatency]
  · simp [Op.tokenUsages, addResponseLatency]
  · simp [surplus, hsurplus, addResponseLatency]
  · simp [tokenSurplus, tokens, htokens, addResponseLatency]

section TokenUsage
variable {p c r w n g : Int} {responseId : String} {u : TokenUsage} {e : MetricsError}

theorem addTokenUsage_error (hu : TokenUsage.validate m.modelName p c r w g n (p + c) responseId = .error e) :
    m.addTokenUsage p c r w n responseId g = .error e := by
  simp only [addTokenUsage, hu]
  rfl

theorem addTokenUsage_ok (hu : TokenUsage.validate m.modelName p c r w g n (p + c) responseId = .ok u) :
    m.addTokenUsage p c r w n responseId g = .ok { m with
      tokenUsages := m.tokenUsages ++ [u]
      accumulatedTokenUsage := match m.accumulatedTokenUsage with
        | none => some { u with responseId := "" }
        | some accumulated => some (accumulated.add { u with responseId := "" }) } := by
  simp only [addTokenUsage, hu, TokenUsage.validate_ok hu]
  rfl

theorem addTokenUsage_appends : Appends m [.addTokenUsage p c r w n responseId g]
    ((m.addTokenUsage p c r w n responseId g).toOption.getD m) := by
  have hsurplus := mergedSurplus_of_none (o := .addTokenUsage p c r w n responseId g) rfl
  have htokens := mergedTokenSurplus_of_none (o := .addTokenUsage p c r w n responseId g) rfl
  cases hu : TokenUsage.validate m.modelName p c r w g n (p + c) responseId with
  | error e =>
    rw [addTokenUsage_error hu]
    refine ⟨rfl, ?_, ?_, ?_, ?_, fun k => ?_, fun _ => Nat.le_refl _, id⟩
    · simp [Op.costs, Except.toOption]
    · simp [Op.responseLatencies, Except.toOption]
    · simp [Op.tokenUsages, hu, Except.toOption]
    · simp [hsurplus, Except.toOption]
    · simp [htokens, Except.toOption]
  | ok u =>
    have hcount := fun k => tokens_addTokenUsage (m := m) (u := u) (r := "") k
    rw [addTokenUsage_ok hu]
    refine ⟨rfl, ?_, ?_, ?_, ?_, fun k => ?_, fun k => ?_, fun hnone => ?_⟩
    · simp [Op.costs, Except.toOption]
    · simp [Op.responseLatencies, Except.toOption]
    · simp [Op.tokenUsages, hu, Except.toOption]
    · simp [surplus, hsurplus, Except.toOption]
    · simp only [tokenSurplus, Except.toOption, Option.getD_some, hcount, htokens, List.map_append, List.sum_append]
      simp
    · simp only [Except.toOption, Option.getD_some, hcount]
      exact Nat.le_add_right _ _
    · cases hm : m.accumulatedTokenUsage with
      | none => rfl
      | some accumulated => simp [Except.toOption, hm] at hnone

end TokenUsage

theorem merge_appends {other : Metrics} : Appends m [.merge other] (m.merge other) := by
  refine ⟨rfl, ?_, ?_, ?_, ?_, fun k => ?_, fun k => ?_, fun hnone => ?_⟩
  · simp [Op.costs, merge]
  · simp [Op.responseLatencies, merge]
  · simp [Op.tokenUsages, merge]
  · rw [surplus_merge]
    simp [mergedSurplus, Op.merged]
  · rw [tokenSurplus_merge]
    simp [mergedTokenSurplus, Op.merged]
  · rw [tokens_merge]
    exact Nat.le_add_right _ _
  · unfold merge at hnone
    cases hm : m.accumulatedTokenUsage with
    | none => rfl
    | some ours => cases ho : other.accumulatedTokenUsage <;> simp [hm, ho] at hnone

theorem run_appends (m : Metrics) (op : Op) : Appends m [op] ((m.run op).toOption.getD m) := by
  cases op with
  | addCost value now => exact addCost_appends
  | addResponseLatency value responseId => exact addResponseLatency_appends
  | addTokenUsage p c r w n responseId g => exact addTokenUsage_appends
  | merge other => exact merge_appends

theorem after_appends (m : Metrics) (ops : List Op) : Appends m ops (m.after ops) := by
  induction ops generalizing m with
  | nil => exact .refl m
  | cons op ops ih => exact (run_appends m op).trans (ih _)

/-! ## The difference to a snapshot -/

theorem validate_difference {current base : TokenUsage} (hle : ∀ k, base.count k ≤ current.count k) (model : String) :
    ∃ u, TokenUsage.validate model ((current.promptTokens : Int) - base.promptTokens)
        ((current.completionTokens : Int) - base.completionTokens)
        ((current.cacheReadTokens : Int) - base.cacheReadTokens)
        ((current.cacheWriteTokens : Int) - base.cacheWriteTokens)
        ((current.reasoningTokens : Int) - base.reasoningTokens) current.contextWindow 0 "" = .ok u ∧
      ∀ k, base.count k + u.count k = current.count k := by
  have hp : base.promptTokens ≤ current.promptTokens := hle .prompt
  have hc : base.completionTokens ≤ current.completionTokens := hle .completion
  have hr : base.cacheReadTokens ≤ current.cacheReadTokens := hle .cacheRead
  have hw : base.cacheWriteTokens ≤ current.cacheWriteTokens := hle .cacheWrite
  have hg : base.reasoningTokens ≤ current.reasoningTokens := hle .reasoning
  refine ⟨_, if_pos ⟨by omega, by omega, by omega, by omega, by omega, by omega, by omega⟩, fun k => ?_⟩
  cases k <;> simp only [TokenUsage.count] <;> omega

theorem diff_ok (hle : ∀ k, m.tokens k ≤ m'.tokens k)
    (hcounted : m'.accumulatedTokenUsage = none → m.accumulatedTokenUsage = none) :
    ∃ d, m'.diff m = .ok d ∧ d.accumulatedCost = m'.accumulatedCost - m.accumulatedCost ∧
      d.costs = m'.costsSince m ∧ d.responseLatencies = m'.responseLatencies.drop m.responseLatencies.length ∧
      d.tokenUsages = m'.tokenUsages.drop m.tokenUsages.length ∧ ∀ k, m.tokens k + d.tokens k = m'.tokens k := by
  unfold diff
  unfold tokens at *
  cases hm : m.accumulatedTokenUsage with
  | none =>
    cases hm' : m'.accumulatedTokenUsage with
    | none => exact ⟨_, rfl, rfl, rfl, rfl, rfl, fun k => rfl⟩
    | some current => exact ⟨_, rfl, rfl, rfl, rfl, rfl, fun k => Nat.zero_add _⟩
  | some base =>
    cases hm' : m'.accumulatedTokenUsage with
    | none =>
      rw [hcounted hm'] at hm
      cases hm
    | some current =>
      rw [hm, hm'] at hle
      obtain ⟨u, hu, hcount⟩ := validate_difference hle m'.modelName
      simp only [hu]
      exact ⟨_, rfl, rfl, rfl, rfl, rfl, hcount⟩

/-- A filter finds the appended part of a list. -/
theorem filter_append_eq_right {α : Type} {p : α → Bool} {old new : List α} :
    (old ++ new).filter p = new ↔ (∀ a ∈ old, p a = false) ∧ ∀ a ∈ new, p a = true := by
  rw [List.filter_append]
  constructor
  · intro h
    have hnew : ∀ a ∈ new, p a = true := by
      intro a ha
      rw [← h, ← List.filter_append] at ha
      exact (List.mem_filter.1 ha).2
    refine ⟨fun a ha => ?_, hnew⟩
    rw [List.filter_eq_self.2 hnew, List.append_left_eq_self] at h
    simpa using List.filter_eq_nil_iff.1 h a ha
  · rintro ⟨hold, hnew⟩
    rw [List.filter_eq_self.2 hnew, List.filter_eq_nil_iff.2 fun a ha => by simp [hold a ha], List.nil_append]

/-- The times tell the new costs from those of the snapshot. -/
def Recognized (m : Metrics) (ops : List Op) : Prop :=
  ∀ last ∈ m.costs.getLast?, (∀ c ∈ m.costs, c.timestamp ≤ last.timestamp) ∧
    ∀ c ∈ ops.flatMap (Op.costs m.modelName), last.timestamp < c.timestamp

theorem costsSince_iff (h : Appends m ops m') :
    m'.costsSince m = ops.flatMap (Op.costs m.modelName) ↔ m.Recognized ops := by
  unfold costsSince Recognized
  rw [h.costs]
  cases hlast : m.costs.getLast? with
  | none =>
    rw [List.getLast?_eq_none_iff] at hlast
    simp [hlast]
  | some last =>
    dsimp only
    rw [filter_append_eq_right]
    simp

/-- The entry lists and the sums of two metrics are the same. -/
structure SameEntries (m m' : Metrics) : Prop where
  accumulatedCost : m.accumulatedCost = m'.accumulatedCost
  tokens : ∀ k, m.tokens k = m'.tokens k
  costs : m.costs = m'.costs
  responseLatencies : m.responseLatencies = m'.responseLatencies
  tokenUsages : m.tokenUsages = m'.tokenUsages

/-- The difference to a snapshot has the entries appended since, with their
sums, and merged into the snapshot it gives the metrics again. -/
def DiffInverse (m : Metrics) (ops : List Op) : Prop :=
  ∃ d, (m.after ops).diff m.deepCopy = .ok d ∧
    d.costs = ops.flatMap (Op.costs m.modelName) ∧
    d.responseLatencies = ops.flatMap (Op.responseLatencies m.modelName) ∧
    d.tokenUsages = ops.flatMap (Op.tokenUsages m.modelName) ∧
    d.Balanced ∧ SameEntries (m.deepCopy.merge d) (m.after ops)

/-- Diff and merge are inverse exactly if the times tell the new costs, and
what was merged in is, in total, what its entries say. -/
theorem diff_inverse_iff (m : Metrics) (ops : List Op) :
    m.DiffInverse ops ↔ m.Recognized ops ∧ mergedSurplus ops = 0 ∧ ∀ k, mergedTokenSurplus ops k = 0 := by
  have h := after_appends m ops
  obtain ⟨d, hd, hcost, hcosts, hlatencies, husages, htokens⟩ := diff_ok h.tokens h.counted
  rw [h.responseLatencies, List.drop_left] at hlatencies
  rw [h.tokenUsages, List.drop_left] at husages
  have hsurplus (hnew : d.costs = ops.flatMap (Op.costs m.modelName)) : d.surplus = mergedSurplus ops := by
    have hs := h.surplus
    unfold surplus at hs ⊢
    rw [h.costs, List.map_append, List.sum_append] at hs
    rw [hnew, hcost]
    linarith
  have htokenSurplus : ∀ k, d.tokenSurplus k = mergedTokenSurplus ops k := by
    intro k
    have hs := h.tokenSurplus k
    have hk := htokens k
    unfold tokenSurplus at hs ⊢
    rw [h.tokenUsages, List.map_append, List.sum_append] at hs
    rw [husages]
    omega
  constructor
  · rintro ⟨d', hd', hnew, -, -, hbalanced, -⟩
    cases hd.symm.trans hd'
    obtain ⟨hzero, hzeros⟩ := balanced_iff.1 hbalanced
    refine ⟨(costsSince_iff h).1 (hcosts.symm.trans hnew), (hsurplus hnew).symm.trans hzero, fun k => ?_⟩
    exact (htokenSurplus k).symm.trans (hzeros k)
  · rintro ⟨hrecognized, hzero, hzeros⟩
    have hnew := hcosts.trans ((costsSince_iff h).2 hrecognized)
    refine ⟨d, hd, hnew, hlatencies, husages,
      balanced_iff.2 ⟨(hsurplus hnew).trans hzero, fun k => (htokenSurplus k).trans (hzeros k)⟩, ?_, fun k => ?_, ?_, ?_, ?_⟩
    · show m.accumulatedCost + d.accumulatedCost = _
      rw [hcost]
      ring
    · exact (tokens_merge m d k).trans (htokens k)
    · rw [h.costs, ← hnew]
      rfl
    · rw [h.responseLatencies, ← hlatencies]
      rfl
    · rw [h.tokenUsages, ← husages]
      rfl

/-- A cost added at the time of the snapshot's last cost is lost. -/
theorem cost_lost : ∃ m, m = ({} : Metrics).after [.addCost 1 1] ∧ m.accumulatedCost = 1 ∧
    (m.after [.addCost 2 1]).accumulatedCost = 3 ∧ ¬ m.DiffInverse [.addCost 2 1] := by
  refine ⟨_, rfl, by decide +kernel, by decide +kernel, ?_⟩
  rintro ⟨d, hd, hcosts, -⟩
  have hnone : ((({} : Metrics).after [.addCost 1 1]).after [.addCost 2 1]).costsSince
      (({} : Metrics).after [.addCost 1 1]) = [] := by decide +kernel
  have h := after_appends (({} : Metrics).after [.addCost 1 1]) [.addCost 2 1]
  obtain ⟨d', hd', -, hcosts', -⟩ := diff_ok h.tokens h.counted
  cases hd'.symm.trans hd
  rw [hcosts', hnone] at hcosts
  revert hcosts
  decide +kernel

end Metrics

end AgentSdk
