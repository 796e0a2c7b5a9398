import AgentSdk.Lib.Dict
import AgentSdk.Lib.Runs
import AgentSdk.Metrics
/-!
# The LLM registry

`LLMRegistry` has the LLM of each usage id, `ConversationStats` the metrics of each
usage. An LLM, its telemetry and its metrics are three objects: a copy of an LLM
shares the other two, `restore_metrics` rewires them and `reset_metrics` makes new
ones. `addr` gives the `id` of a metrics object; objects that never live at the same
time may have the same.
-/

namespace AgentSdk.UsageRegistry
open Lib

/-! ## Objects -/

structure Llm (C : Type) where
  usageId : String
  model : String
  stream : Bool
  /-- What else `model_dump` gives. -/
  settings : C
  metrics : Nat
  telemetry : Nat

structure LLMRegistry where
  usageToLlm : List (String × Nat) := []
  metricsIds : List Nat := []
  /-- Whether the statistics listen. -/
  subscribed : Bool := false

structure ConversationStats where
  usageToMetrics : List (String × Nat) := []
  restoredUsageIds : List String := []

/-- The objects made so far have the numbers below `next`. -/
structure World (C : Type) where
  llms : Nat → Llm C
  telemetries : Nat → Nat
  metrics : Nat → Metrics
  next : Nat
  registry : LLMRegistry := {}
  stats : ConversationStats := {}
  agentLlm : Nat
  /-- The LLM of an `LLMSummarizingCondenser`. -/
  condenserLlm : Option Nat := none
  otherLlms : List Nat := []
  agentReady : Bool := false
  /-- What the calls did so far, each with the usage id of the LLM that was called. -/
  calls : List (String × Metrics.Op) := []

def askAgentLlmUsageId : String := "ask-agent-llm"

/-- The LLM that a caller has: a new one, or a copy with other fields. -/
structure LlmArg (C : Type) where
  copyOf : Option Nat := none
  model : String
  stream : Bool
  settings : C

structure UsageSnapshot where
  promptTokens : Int := 0
  completionTokens : Int := 0
  reasoningTokens : Int := 0
  cacheReadTokens : Int := 0
  cacheWriteTokens : Int := 0

def UsageSnapshot.hasTokens (u : UsageSnapshot) : Bool := 0 < u.promptTokens || 0 < u.completionTokens

structure LlmResponse where
  id : String
  latency : ℚ
  cost : Option ℚ
  now : ℚ
  usage : Option UsageSnapshot
  contextWindow : Int

/-- What `on_response` does to the metrics; a negative cost raises. -/
def LlmResponse.onResponse (r : LlmResponse) : List Metrics.Op :=
  .addResponseLatency r.latency r.id :: match r.cost with
    | some cost => if cost = 0 then tokens else if cost < 0 then [] else .addCost cost r.now :: tokens
    | none => tokens
where
  tokens : List Metrics.Op := match r.usage with
    | some u => if u.hasTokens then [.addTokenUsage u.promptTokens u.completionTokens u.cacheReadTokens
        u.cacheWriteTokens r.contextWindow r.id u.reasoningTokens] else []
    | none => []

variable {C : Type}

namespace World

/-! ## The operations of an LLM -/

def resetMetrics (w : World C) (o : Nat) : World C :=
  { w with
    metrics := Function.update w.metrics w.next { modelName := (w.llms o).model }
    telemetries := Function.update w.telemetries w.next w.next
    llms := Function.update w.llms o { w.llms o with metrics := w.next, telemetry := w.next }
    next := w.next + 1 }

def restoreMetrics (w : World C) (o m : Nat) : World C :=
  { w with
    llms := Function.update w.llms o { w.llms o with metrics := m }
    telemetries := Function.update w.telemetries (w.llms o).telemetry m }

/-- The LLM a caller has, under a usage id; its number is `w.next`. -/
def make (w : World C) (usageId : String) (a : LlmArg C) : World C :=
  match a.copyOf with
  | none =>
    { w with
      llms := Function.update w.llms w.next ⟨usageId, a.model, a.stream, a.settings, w.next, w.next⟩
      telemetries := Function.update w.telemetries w.next w.next
      metrics := Function.update w.metrics w.next { modelName := a.model }
      next := w.next + 1 }
  | some o =>
    { w with
      llms := Function.update w.llms w.next
        ⟨usageId, a.model, a.stream, a.settings, (w.llms o).metrics, (w.llms o).telemetry⟩
      next := w.next + 1 }

/-- Operations on a metrics object that are due to an LLM. -/
def charge (w : World C) (o m : Nat) (ops : List Metrics.Op) : World C :=
  { w with
    metrics := Function.update w.metrics m ((w.metrics m).after ops)
    calls := w.calls ++ ops.map fun op => ((w.llms o).usageId, op) }

/-- A response goes to the metrics of the telemetry. -/
def call (w : World C) (o : Nat) (r : LlmResponse) : World C :=
  w.charge o (w.telemetries (w.llms o).telemetry) r.onResponse

/-- What a fallback LLM spent goes to the metrics of the LLM. -/
def fallback (w : World C) (o : Nat) (spent : Metrics) : World C := w.charge o (w.llms o).metrics [.merge spent]

/-! ## The registry and the statistics -/

def get (w : World C) (usageId : String) : Option Nat := w.registry.usageToLlm.lookup usageId

def remove (w : World C) (usageId : String) : World C :=
  { w with registry := { w.registry with usageToLlm := w.registry.usageToLlm.filter fun e => e.1 ≠ usageId } }

def registerLlm (w : World C) (o : Nat) : World C :=
  let usageId := (w.llms o).usageId
  match w.stats.usageToMetrics.lookup usageId with
  | some m =>
    if usageId ∈ w.stats.restoredUsageIds then w
    else { w.restoreMetrics o m with
      stats := { w.stats with restoredUsageIds := usageId :: w.stats.restoredUsageIds } }
  | none =>
    { w with stats := { w.stats with usageToMetrics := w.stats.usageToMetrics ++ [(usageId, (w.llms o).metrics)] } }

def enlist (w : World C) (o : Nat) : World C :=
  { w with registry := { w.registry with usageToLlm := w.registry.usageToLlm ++ [((w.llms o).usageId, o)] } }

/-- `get_combined_metrics`. -/
def combinedMetrics (w : World C) : Metrics :=
  w.stats.usageToMetrics.foldl (fun total e => total.merge (w.metrics e.2)) {}

/-- `get_metrics_for_usage`. -/
def metricsForUsage (w : World C) (usageId : String) : Option Metrics :=
  (w.stats.usageToMetrics.lookup usageId).map w.metrics

variable (addr : Nat → Nat)

/-- `_ensure_independent_metrics`. -/
def ensureIndependentMetrics (w : World C) (o : Nat) : World C :=
  let w := if addr (w.llms o).metrics ∈ w.registry.metricsIds then w.resetMetrics o else w
  { w with registry := { w.registry with metricsIds := addr (w.llms o).metrics :: w.registry.metricsIds } }

/-- A usage id that is taken raises. -/
def add (w : World C) (o : Nat) : Option (World C) :=
  if (w.get (w.llms o).usageId).isSome then none
  else
    let w := (w.ensureIndependentMetrics addr o).enlist o
    some (if w.registry.subscribed then w.registerLlm o else w)

/-! ## The conversation -/

def getAllLlms (w : World C) : List Nat := (w.agentLlm :: (w.condenserLlm.toList ++ w.otherLlms)).eraseDups

/-- The last part of `_ensure_agent_ready`. An LLM whose usage id is taken is passed over. -/
def ensureAgentReady (w : World C) : World C :=
  if w.agentReady then w
  else
    let w := { w with registry := { w.registry with subscribed := true } }
    { w.getAllLlms.foldl (fun w o => (w.add addr o).getD w) w with agentReady := true }

/-- `get_or_create_profile_llm`, and what else registers an LLM at its first use. -/
def getOrCreateProfileLlm (w : World C) (usageId : String) (a : LlmArg C) : World C :=
  match w.get usageId with
  | some _ => w
  | none => ((w.make usageId a).add addr w.next).getD w

def askAgent (w : World C) (r : LlmResponse) : World C :=
  let w := w.ensureAgentReady addr
  let agent := w.llms w.agentLlm
  let w := w.getOrCreateProfileLlm addr askAgentLlmUsageId
    { copyOf := some w.agentLlm, model := agent.model, stream := false, settings := agent.settings }
  match w.get askAgentLlmUsageId with
  | some o => w.call o r
  | none => w

section
variable [DecidableEq C]

/-- Two configurations, apart from the usage id. -/
def sameConfig (a b : Llm C) : Bool := a.model = b.model && a.stream = b.stream && a.settings = b.settings

/-- A condenser with the configuration of the agent's LLM follows the switch. -/
def condenserForSwitchedLlm (w : World C) (new : Nat) : World C :=
  match w.condenserLlm with
  | some c =>
    if sameConfig (w.llms c) (w.llms w.agentLlm) then
      let llm := w.llms new
      let w' := w.make (w.llms c).usageId
        { copyOf := some new, model := llm.model, stream := llm.stream, settings := llm.settings }
      { w'.resetMetrics w.next with condenserLlm := some w.next }
    else w
  | none => w

/-- The agent gets the LLM, and the LLM of `ask_agent` is dropped. -/
def install (w : World C) (o : Nat) : World C :=
  { w.condenserForSwitchedLlm o with agentLlm := o }.remove askAgentLlmUsageId

def switchLlm (w : World C) (usageId : String) (a : LlmArg C) : World C :=
  let passed := w.next
  let w := w.make usageId a
  match w.get usageId with
  | some registered =>
    if (w.llms registered).usageId = usageId && sameConfig (w.llms registered) (w.llms passed) then w.install registered
    else
      let w := ((w.remove usageId).add addr passed).getD w
      (w.restoreMetrics passed (w.llms registered).metrics).install passed
  | none => ((w.add addr passed).getD w).install passed

end

end World

inductive Op (C : Type) where
  | ensureAgentReady
  | switchLlm (usageId : String) (a : LlmArg C)
  | getOrCreateProfileLlm (usageId : String) (a : LlmArg C)
  | askAgent (r : LlmResponse)
  | call (o : Nat) (r : LlmResponse)
  | fallback (o : Nat) (spent : Metrics)

def World.apply [DecidableEq C] (addr : Nat → Nat) (w : World C) : Op C → World C
  | .ensureAgentReady => w.ensureAgentReady addr
  | .switchLlm usageId a => w.switchLlm addr usageId a
  | .getOrCreateProfileLlm usageId a => w.getOrCreateProfileLlm addr usageId a
  | .askAgent r => w.askAgent addr r
  | .call o r => w.call o r
  | .fallback o spent => w.fallback o spent

def World.step [DecidableEq C] (addr : Nat → Nat) (w : World C) (op : Op C) : Option (World C) :=
  some (w.apply addr op)

/-! ## What an operation leaves as it is -/

/-- Nothing that exists changes. -/
structure Grows (w w' : World C) : Prop where
  llms : ∀ o < w.next, w'.llms o = w.llms o
  telemetries : ∀ t < w.next, w'.telemetries t = w.telemetries t
  metrics : ∀ m < w.next, w'.metrics m = w.metrics m
  next : w.next ≤ w'.next
  registry : w'.registry = w.registry
  stats : w'.stats = w.stats
  calls : w'.calls = w.calls
  agentReady : w'.agentReady = w.agentReady

/-- Usages are added behind those there are, with metrics of which `P` holds. -/
structure Opens (P : Metrics → Prop) (w w' : World C) : Prop where
  metrics : ∀ m < w.next, w'.metrics m = w.metrics m
  next : w.next ≤ w'.next
  calls : w'.calls = w.calls
  usages : ∃ opened, w'.stats.usageToMetrics = w.stats.usageToMetrics ++ opened ∧ ∀ e ∈ opened, P (w'.metrics e.2)

section
variable {w w' w'' : World C} {P : Metrics → Prop} {u v : String} {o p m : Nat} {a : LlmArg C}

theorem Grows.refl (w : World C) : Grows w w :=
  ⟨fun _ _ => rfl, fun _ _ => rfl, fun _ _ => rfl, Nat.le_refl _, rfl, rfl, rfl, rfl⟩

theorem Grows.opens (h : Grows w w') : Opens P w w' :=
  ⟨h.metrics, h.next, h.calls, [], by rw [h.stats, List.append_nil], by simp⟩

theorem Grows.get (h : Grows w w') (u : String) : w'.get u = w.get u := by
  rw [World.get, h.registry, World.get]

theorem Opens.trans (h : Opens P w w') (h' : Opens P w' w'') (hb : ∀ e ∈ w'.stats.usageToMetrics, e.2 < w'.next) :
    Opens P w w'' := by
  obtain ⟨opened, hs, hp⟩ := h.usages
  obtain ⟨opened', hs', hp'⟩ := h'.usages
  refine ⟨fun m hm => ?_, h.next.trans h'.next, h'.calls.trans h.calls, opened ++ opened', ?_, fun e he => ?_⟩
  · rw [h'.metrics m (hm.trans_le h.next), h.metrics m hm]
  · rw [hs', hs, List.append_assoc]
  · rcases List.mem_append.mp he with he | he
    · rw [h'.metrics e.2 (hb e (hs ▸ List.mem_append_right _ he))]
      exact hp e he
    · exact hp' e he

@[simp] theorem World.make_next : (w.make u a).next = w.next + 1 := by
  unfold World.make
  split <;> rfl

theorem World.make_grows : Grows w (w.make u a) := by
  unfold World.make
  have hne : ∀ n < w.next, n ≠ w.next := fun n hn => hn.ne
  split
  · refine ⟨fun o ho => ?_, fun t ht => ?_, fun m hm => ?_, Nat.le_succ _, rfl, rfl, rfl, rfl⟩
    · exact Function.update_of_ne (hne o ho) ..
    · exact Function.update_of_ne (hne t ht) ..
    · exact Function.update_of_ne (hne m hm) ..
  · refine ⟨fun o ho => ?_, fun t ht => rfl, fun m hm => rfl, Nat.le_succ _, rfl, rfl, rfl, rfl⟩
    exact Function.update_of_ne (hne o ho) ..

theorem World.make_usageId : ((w.make u a).llms w.next).usageId = u := by
  unfold World.make
  split <;> simp

/-- An object made after `w` can be reset. -/
theorem Grows.resetMetrics (h : Grows w w') (ho : w.next ≤ o) : Grows w (w'.resetMetrics o) := by
  have hne : ∀ n < w.next, n ≠ w'.next := fun n hn => (hn.trans_le h.next).ne
  refine ⟨fun p hp => ?_, fun t ht => ?_, fun m hm => ?_, h.next.trans (Nat.le_succ _), h.registry, h.stats, h.calls,
    h.agentReady⟩
  · exact (Function.update_of_ne (hp.trans_le ho).ne ..).trans (h.llms p hp)
  · exact (Function.update_of_ne (hne t ht) ..).trans (h.telemetries t ht)
  · exact (Function.update_of_ne (hne m hm) ..).trans (h.metrics m hm)

theorem World.condenserForSwitchedLlm_grows [DecidableEq C] : Grows w (w.condenserForSwitchedLlm o) := by
  unfold World.condenserForSwitchedLlm
  split
  · split
    · have h : ∀ u a, Grows w ((w.make u a).resetMetrics w.next) := fun u a =>
        World.make_grows.resetMetrics (Nat.le_refl _)
      exact ⟨(h _ _).llms, (h _ _).telemetries, (h _ _).metrics, (h _ _).next, (h _ _).registry, (h _ _).stats,
        (h _ _).calls, (h _ _).agentReady⟩
    · exact .refl w
  · exact .refl w

/-! ## Usages and their metrics -/

/-- What the LLM `o` of the usage `u` spends is recorded for the usage. -/
structure Linked (w : World C) (u : String) (o : Nat) : Prop where
  usage : (w.llms o).usageId = u
  lt : o < w.next
  telemetryLt : (w.llms o).telemetry < w.next
  wired : w.telemetries (w.llms o).telemetry = (w.llms o).metrics
  cell : w.stats.usageToMetrics.lookup u = some (w.llms o).metrics

structure Tracked (w : World C) : Prop where
  linked : ∀ {u o}, w.get u = some o → Linked w u o
  keys : (w.stats.usageToMetrics.map Prod.fst).Nodup
  cells : (w.stats.usageToMetrics.map Prod.snd).Nodup
  bound : ∀ e ∈ w.stats.usageToMetrics, e.2 < w.next
  subscribed : w.registry.subscribed = true

/-- An LLM with a telemetry and metrics that no registered one has. -/
structure Own (w : World C) (o : Nat) : Prop where
  lt : o < w.next
  telemetryLt : (w.llms o).telemetry < w.next
  metricsLt : (w.llms o).metrics < w.next
  wired : w.telemetries (w.llms o).telemetry = (w.llms o).metrics
  unrecorded : ∀ e ∈ w.stats.usageToMetrics, e.2 ≠ (w.llms o).metrics
  alone : ∀ {v p}, w.get v = some p → (w.llms p).telemetry ≠ (w.llms o).telemetry

/-- An LLM that has its own metrics, or whose metrics the registry knows. -/
def Clean (addr : Nat → Nat) (w : World C) (o : Nat) : Prop :=
  (o < w.next ∧ addr (w.llms o).metrics ∈ w.registry.metricsIds) ∨ Own w o

/-- The statistics do not leave the next LLM of the usage alone. -/
def Fresh (w : World C) (u : String) : Prop :=
  u ∈ w.stats.usageToMetrics.map Prod.fst → u ∉ w.stats.restoredUsageIds

theorem Linked.grow (hg : Grows w w') (h : Linked w u o) : Linked w' u o := by
  have hllm := hg.llms o h.lt
  refine ⟨by rw [hllm, h.usage], h.lt.trans_le hg.next, ?_, ?_, ?_⟩
  · rw [hllm]
    exact h.telemetryLt.trans_le hg.next
  · rw [hllm, hg.telemetries _ h.telemetryLt, h.wired]
  · rw [hg.stats, hllm, h.cell]

theorem Tracked.grow (hg : Grows w w') (h : Tracked w) : Tracked w' where
  linked hget := (h.linked ((hg.get _).symm.trans hget)).grow hg
  keys := hg.stats ▸ h.keys
  cells := hg.stats ▸ h.cells
  bound e he := (h.bound e (hg.stats ▸ he)).trans_le hg.next
  subscribed := hg.registry ▸ h.subscribed

/-- Dropping a usage from the registry. -/
theorem Tracked.remove (h : Tracked w) (u : String) : Tracked (w.remove u) := by
  refine ⟨fun {v o} hget => ?_, h.keys, h.cells, h.bound, h.subscribed⟩
  have hget : (w.registry.usageToLlm.filter fun e => e.1 ≠ u).lookup v = some o := hget
  rw [lookup_filter_ne] at hget
  split at hget
  · cases hget
  · obtain ⟨h1, h2, h3, h4, h5⟩ := h.linked hget
    exact ⟨h1, h2, h3, h4, h5⟩

theorem World.get_remove (w : World C) (u v : String) : (w.remove u).get v = if v = u then none else w.get v := by
  show (w.registry.usageToLlm.filter fun e => e.1 ≠ u).lookup v = _
  rw [lookup_filter_ne]
  rfl

theorem Tracked.recorded_lt (h : Tracked w) (hu : w.stats.usageToMetrics.lookup u = some m) : m < w.next :=
  h.bound _ (Lib.mem_of_lookup hu)

/-! ## Registering an LLM -/

theorem World.resetMetrics_self :
    (w.resetMetrics o).llms o = { w.llms o with metrics := w.next, telemetry := w.next } := Function.update_self ..

theorem World.resetMetrics_llms (hp : p ≠ o) : (w.resetMetrics o).llms p = w.llms p := Function.update_of_ne hp ..

theorem Tracked.resetMetrics (h : Tracked w) (hnew : ∀ v, w.get v ≠ some o) : Tracked (w.resetMetrics o) := by
  have hne : ∀ n < w.next, n ≠ w.next := fun n hn => hn.ne
  refine ⟨fun {v p} hget => ?_, h.keys, h.cells, fun e he => (h.bound e he).trans (Nat.lt_succ_self _), h.subscribed⟩
  have hget : w.get v = some p := hget
  have hl := h.linked hget
  have hne' : p ≠ o := by
    rintro rfl
    exact hnew v hget
  have hllm := World.resetMetrics_llms (w := w) hne'
  refine ⟨by rw [hllm, hl.usage], hl.lt.trans (Nat.lt_succ_self _), ?_, ?_, ?_⟩
  · rw [hllm]
    exact hl.telemetryLt.trans (Nat.lt_succ_self _)
  · rw [hllm, ← hl.wired]
    exact Function.update_of_ne (hne _ hl.telemetryLt) ..
  · rw [hllm]
    exact hl.cell

/-- After a reset an LLM shares nothing. -/
theorem Tracked.own_resetMetrics (h : Tracked w) (hlt : o < w.next) (hnew : ∀ v, w.get v ≠ some o) :
    Own (w.resetMetrics o) o := by
  have hllm := World.resetMetrics_self (w := w) (o := o)
  refine ⟨hlt.trans (Nat.lt_succ_self _), ?_, ?_, ?_, fun e he => ?_, fun {v p} hget => ?_⟩
  · rw [hllm]
    exact Nat.lt_succ_self _
  · rw [hllm]
    exact Nat.lt_succ_self _
  · rw [hllm]
    exact Function.update_self ..
  · rw [hllm]
    exact (h.bound e he).ne
  · have hget : w.get v = some p := hget
    have hne : p ≠ o := by
      rintro rfl
      exact hnew v hget
    rw [World.resetMetrics_llms hne, hllm]
    exact (h.linked hget).telemetryLt.ne

end

section
variable {addr : Nat → Nat} {w w' : World C} {P : Metrics → Prop} {u v : String} {o p m : Nat} {a : LlmArg C}

theorem World.ensureIndependentMetrics_of_mem (h : addr (w.llms o).metrics ∈ w.registry.metricsIds) :
    w.ensureIndependentMetrics addr o = { w.resetMetrics o with
      registry := { w.registry with metricsIds := addr w.next :: w.registry.metricsIds } } := by
  rw [World.ensureIndependentMetrics, if_pos h]
  simp only [World.resetMetrics_self]
  rfl

theorem World.ensureIndependentMetrics_of_notMem (h : addr (w.llms o).metrics ∉ w.registry.metricsIds) :
    w.ensureIndependentMetrics addr o = { w with
      registry := { w.registry with metricsIds := addr (w.llms o).metrics :: w.registry.metricsIds } } := by
  rw [World.ensureIndependentMetrics, if_neg h]

/-- What `_ensure_independent_metrics` does. -/
structure Independent (addr : Nat → Nat) (w : World C) (o : Nat) (w' : World C) : Prop where
  llms : ∀ p ≠ o, w'.llms p = w.llms p
  usageId : (w'.llms o).usageId = (w.llms o).usageId
  own : (w'.llms o).metrics = (w.llms o).metrics ∧ (w'.llms o).telemetry = (w.llms o).telemetry ∧
      addr (w.llms o).metrics ∉ w.registry.metricsIds ∧ w'.metrics (w.llms o).metrics = w.metrics (w.llms o).metrics ∨
    (w'.llms o).metrics = w.next ∧ (w'.llms o).telemetry = w.next ∧ w'.telemetries w.next = w.next ∧
      w.next < w'.next ∧ ∃ name, w'.metrics w.next = { modelName := name }
  telemetries : ∀ t < w.next, w'.telemetries t = w.telemetries t
  metrics : ∀ m < w.next, w'.metrics m = w.metrics m
  next : w.next ≤ w'.next
  usageToLlm : w'.registry.usageToLlm = w.registry.usageToLlm
  subscribed : w'.registry.subscribed = w.registry.subscribed
  ids : ∀ a ∈ w.registry.metricsIds, a ∈ w'.registry.metricsIds
  known : addr (w.llms o).metrics ∈ w'.registry.metricsIds
  knownNow : addr (w'.llms o).metrics ∈ w'.registry.metricsIds
  stats : w'.stats = w.stats
  calls : w'.calls = w.calls
  agentLlm : w'.agentLlm = w.agentLlm
  agentReady : w'.agentReady = w.agentReady

theorem World.independent (addr : Nat → Nat) (w : World C) (o : Nat) :
    Independent addr w o (w.ensureIndependentMetrics addr o) := by
  by_cases h : addr (w.llms o).metrics ∈ w.registry.metricsIds
  · have hllm := World.resetMetrics_self (w := w) (o := o)
    have hne : ∀ n < w.next, n ≠ w.next := fun n hn => hn.ne
    rw [World.ensureIndependentMetrics_of_mem h]
    exact {
      llms := fun p hp => World.resetMetrics_llms hp
      usageId := by
        show ((w.resetMetrics o).llms o).usageId = _
        rw [hllm]
      own := .inr ⟨congrArg Llm.metrics hllm, congrArg Llm.telemetry hllm, Function.update_self .., Nat.lt_succ_self _,
        _, Function.update_self ..⟩
      telemetries := fun t ht => Function.update_of_ne (hne t ht) ..
      metrics := fun m hm => Function.update_of_ne (hne m hm) ..
      next := Nat.le_succ _
      usageToLlm := rfl
      subscribed := rfl
      ids := fun a ha => List.mem_cons_of_mem _ ha
      known := List.mem_cons_of_mem _ h
      knownNow := by
        have hm : ((w.resetMetrics o).llms o).metrics = w.next := congrArg Llm.metrics hllm
        show addr ((w.resetMetrics o).llms o).metrics ∈ _
        rw [hm]
        exact List.mem_cons_self
      stats := rfl
      calls := rfl
      agentLlm := rfl
      agentReady := rfl }
  · rw [World.ensureIndependentMetrics_of_notMem h]
    exact {
      llms := fun p _ => rfl
      usageId := rfl
      own := .inl ⟨rfl, rfl, h, rfl⟩
      telemetries := fun t _ => rfl
      metrics := fun m _ => rfl
      next := Nat.le_refl _
      usageToLlm := rfl
      subscribed := rfl
      ids := fun a ha => List.mem_cons_of_mem _ ha
      known := List.mem_cons_self
      knownNow := List.mem_cons_self
      stats := rfl
      calls := rfl
      agentLlm := rfl
      agentReady := rfl }

theorem Independent.get (h : Independent addr w o w') (v : String) : w'.get v = w.get v := by
  rw [World.get, h.usageToLlm, World.get]

theorem Tracked.ensureIndependentMetrics (h : Tracked w) (hc : Clean addr w o) (hnew : ∀ v, w.get v ≠ some o) :
    Tracked (w.ensureIndependentMetrics addr o) ∧ Own (w.ensureIndependentMetrics addr o) o := by
  by_cases hmem : addr (w.llms o).metrics ∈ w.registry.metricsIds
  · have hlt : o < w.next := by
      rcases hc with ⟨hlt, -⟩ | hown
      · exact hlt
      · exact hown.lt
    rw [World.ensureIndependentMetrics_of_mem hmem]
    have ht := h.resetMetrics hnew
    obtain ⟨h1, h2, h3, h4, h5, h6⟩ := h.own_resetMetrics hlt hnew
    refine ⟨⟨fun hget => ?_, ht.keys, ht.cells, ht.bound, ht.subscribed⟩, ⟨h1, h2, h3, h4, h5, h6⟩⟩
    obtain ⟨k1, k2, k3, k4, k5⟩ := ht.linked hget
    exact ⟨k1, k2, k3, k4, k5⟩
  · obtain ⟨h1, h2, h3, h4, h5, h6⟩ := hc.resolve_left fun hin => hmem hin.2
    rw [World.ensureIndependentMetrics_of_notMem hmem]
    refine ⟨⟨fun hget => ?_, h.keys, h.cells, h.bound, h.subscribed⟩, ⟨h1, h2, h3, h4, h5, h6⟩⟩
    obtain ⟨k1, k2, k3, k4, k5⟩ := h.linked hget
    exact ⟨k1, k2, k3, k4, k5⟩

theorem lookup_append_none {d : List (String × Nat)} (hnone : d.lookup u = none) (n : Nat) (v : String) :
    (d ++ [(u, n)]).lookup v = if v = u then some n else d.lookup v :=
  lookup_append_new n (fun hmem => by
    obtain ⟨e, he, rfl⟩ := List.mem_map.mp hmem
    simpa using List.lookup_eq_none_iff.mp hnone e he) v

theorem World.get_enlist (hnew : w.get (w.llms o).usageId = none) (v : String) :
    (w.enlist o).get v = if v = (w.llms o).usageId then some o else w.get v :=
  lookup_append_none hnew o v

/-- An LLM of its own joins the registry, with the metrics that are recorded for its usage. -/
theorem Tracked.enlist_restored (h : Tracked w) (hown : Own w o) (hnew : w.get (w.llms o).usageId = none)
    (hcell : w.stats.usageToMetrics.lookup (w.llms o).usageId = some m) :
    Tracked ((w.enlist o).restoreMetrics o m) := by
  have hllm : ((w.enlist o).restoreMetrics o m).llms o = { w.llms o with metrics := m } := Function.update_self ..
  refine ⟨fun {v p} hreg => ?_, h.keys, h.cells, h.bound, h.subscribed⟩
  have hget := (World.get_enlist hnew v).symm.trans hreg
  split at hget
  · subst v
    obtain rfl := Option.some.inj hget
    refine ⟨by rw [hllm], hown.lt, by rw [hllm]; exact hown.telemetryLt, ?_, by rw [hllm]; exact hcell⟩
    rw [hllm]
    exact Function.update_self ..
  · have hl := h.linked hget
    have hne : p ≠ o := by
      rintro rfl
      exact absurd (hl.usage ▸ hget) (by rw [hnew]; simp)
    have hllm : ((w.enlist o).restoreMetrics o m).llms p = w.llms p := Function.update_of_ne hne ..
    refine ⟨by rw [hllm, hl.usage], hl.lt, by rw [hllm]; exact hl.telemetryLt, ?_, by rw [hllm]; exact hl.cell⟩
    rw [hllm, ← hl.wired]
    exact Function.update_of_ne (hown.alone hget) ..

/-- An LLM of its own joins the registry, and its metrics are recorded for its usage. -/
theorem Tracked.enlist_opened (h : Tracked w) (hown : Own w o) (hnew : w.get (w.llms o).usageId = none)
    (hnone : w.stats.usageToMetrics.lookup (w.llms o).usageId = none) :
    Tracked { w.enlist o with stats := { w.stats with
      usageToMetrics := w.stats.usageToMetrics ++ [((w.llms o).usageId, (w.llms o).metrics)] } } := by
  refine ⟨fun {v p} hreg => ?_, ?_, ?_, fun e he => ?_, h.subscribed⟩
  · have hget := (World.get_enlist hnew v).symm.trans hreg
    split at hget
    · subst v
      obtain rfl := Option.some.inj hget
      refine ⟨rfl, hown.lt, hown.telemetryLt, hown.wired, ?_⟩
      show (w.stats.usageToMetrics ++ _).lookup _ = _
      rw [lookup_append_none hnone, if_pos rfl]
      rfl
    · have hl := h.linked hget
      refine ⟨hl.usage, hl.lt, hl.telemetryLt, hl.wired, ?_⟩
      show (w.stats.usageToMetrics ++ _).lookup v = _
      rw [lookup_append_none hnone, if_neg ‹_›]
      exact hl.cell
  · have hkey : (w.llms o).usageId ∉ w.stats.usageToMetrics.map Prod.fst := by
      intro hmem
      obtain ⟨e, he, heq⟩ := List.mem_map.mp hmem
      simpa [heq] using List.lookup_eq_none_iff.mp hnone e he
    rw [List.map_append, List.nodup_append]
    refine ⟨h.keys, List.nodup_singleton _, fun k hk k' hk' heq => hkey ?_⟩
    obtain rfl := List.mem_singleton.mp hk'
    have heq : k = (w.llms o).usageId := heq
    exact heq ▸ hk
  · rw [List.map_append, List.nodup_append]
    refine ⟨h.cells, List.nodup_singleton _, fun k hk k' hk' heq => ?_⟩
    obtain rfl := List.mem_singleton.mp hk'
    obtain ⟨e, he, rfl⟩ := List.mem_map.mp hk
    exact hown.unrecorded e he heq
  · rcases List.mem_append.mp he with he | he
    · exact h.bound e he
    · obtain rfl := List.mem_singleton.mp he
      exact hown.metricsLt

end

section
variable {addr : Nat → Nat} {w w₁ w' : World C} {P : Metrics → Prop} {u v : String} {o p m : Nat} {a : LlmArg C}

/-- What a subscribed registry and the statistics do with an LLM of its own. -/
structure Enlisted (w : World C) (o : Nat) (w' : World C) : Prop where
  tracked : Tracked w'
  get : ∀ v, w'.get v = if v = (w.llms o).usageId then some o else w.get v
  llms : ∀ p ≠ o, w'.llms p = w.llms p
  usageId : (w'.llms o).usageId = (w.llms o).usageId
  telemetry : (w'.llms o).telemetry = (w.llms o).telemetry
  telemetries : ∀ t ≠ (w.llms o).telemetry, w'.telemetries t = w.telemetries t
  metrics : w'.metrics = w.metrics
  next : w'.next = w.next
  ids : w'.registry.metricsIds = w.registry.metricsIds
  calls : w'.calls = w.calls
  agentLlm : w'.agentLlm = w.agentLlm
  agentReady : w'.agentReady = w.agentReady
  usages : ∃ opened, w'.stats.usageToMetrics = w.stats.usageToMetrics ++ opened ∧
    ∀ e ∈ opened, e = ((w.llms o).usageId, (w.llms o).metrics)
  restored : ∀ v ≠ (w.llms o).usageId, v ∈ w'.stats.restoredUsageIds → v ∈ w.stats.restoredUsageIds

theorem Tracked.registerLlm (h : Tracked w) (hown : Own w o) (hnew : w.get (w.llms o).usageId = none)
    (hf : Fresh w (w.llms o).usageId) : Enlisted w o ((w.enlist o).registerLlm o) := by
  have hstats : (w.enlist o).stats = w.stats := rfl
  have hllms : (w.enlist o).llms = w.llms := rfl
  cases hl : w.stats.usageToMetrics.lookup (w.llms o).usageId with
  | some m =>
    have hrest : (w.llms o).usageId ∉ w.stats.restoredUsageIds := by
      apply hf
      exact List.mem_map_of_mem (Lib.mem_of_lookup hl)
    have hllm : ((w.enlist o).restoreMetrics o m).llms o = { w.llms o with metrics := m } := Function.update_self ..
    simp only [World.registerLlm, hstats, hllms, hl, if_neg hrest]
    have ht := h.enlist_restored hown hnew hl
    exact {
      tracked := by
        refine ⟨fun hget => ?_, ht.keys, ht.cells, ht.bound, ht.subscribed⟩
        obtain ⟨k1, k2, k3, k4, k5⟩ := ht.linked hget
        exact ⟨k1, k2, k3, k4, k5⟩
      get := World.get_enlist hnew
      llms := fun p hp => Function.update_of_ne hp ..
      usageId := by
        show (((w.enlist o).restoreMetrics o m).llms o).usageId = _
        rw [hllm]
      telemetry := by
        show (((w.enlist o).restoreMetrics o m).llms o).telemetry = _
        rw [hllm]
      telemetries := fun t hne => Function.update_of_ne hne ..
      metrics := rfl
      next := rfl
      ids := rfl
      calls := rfl
      agentLlm := rfl
      agentReady := rfl
      usages := ⟨[], (List.append_nil _).symm, by simp⟩
      restored := fun v hv hmem => (List.mem_cons.mp hmem).resolve_left hv }
  | none =>
    simp only [World.registerLlm, hstats, hllms, hl]
    exact {
      tracked := h.enlist_opened hown hnew hl
      get := World.get_enlist hnew
      llms := fun p _ => rfl
      usageId := rfl
      telemetry := rfl
      telemetries := fun t _ => rfl
      metrics := rfl
      next := rfl
      ids := rfl
      calls := rfl
      agentLlm := rfl
      agentReady := rfl
      usages := ⟨_, rfl, by simp⟩
      restored := fun v _ hmem => hmem }

/-- What `add` does with an LLM that the statistics do not leave alone. -/
structure Added (addr : Nat → Nat) (w : World C) (o : Nat) (w' : World C) : Prop where
  tracked : Tracked w'
  get : ∀ v, w'.get v = if v = (w.llms o).usageId then some o else w.get v
  usageId : ∀ p, (w'.llms p).usageId = (w.llms p).usageId
  opens : ∀ P : Metrics → Prop, (∀ name, P { modelName := name }) →
    (addr (w.llms o).metrics ∉ w.registry.metricsIds → P (w.metrics (w.llms o).metrics)) → Opens P w w'
  clean : ∀ p ≠ o, Clean addr w p → Clean addr w' p
  fresh : ∀ v ≠ (w.llms o).usageId, Fresh w v → Fresh w' v
  agentLlm : w'.agentLlm = w.agentLlm
  agentReady : w'.agentReady = w.agentReady

theorem Added.of_enlisted (hc : Clean addr w o) (hi : Independent addr w o w₁) (he : Enlisted w₁ o w') :
    Added addr w o w' := by
  have hget : ∀ v, w'.get v = if v = (w.llms o).usageId then some o else w.get v := fun v => by
    rw [he.get, hi.usageId, hi.get]
  have hllms : ∀ p ≠ o, w'.llms p = w.llms p := fun p hp => by rw [he.llms p hp, hi.llms p hp]
  obtain ⟨opened, hstats, hopened⟩ := he.usages
  rw [hi.stats] at hstats
  refine ⟨he.tracked, hget, fun p => ?_, fun P hempty hkept => ?_, fun p hp hcp => ?_, fun v hv hf => ?_,
    he.agentLlm.trans hi.agentLlm, he.agentReady.trans hi.agentReady⟩
  · by_cases hp : p = o
    · rw [hp, he.usageId, hi.usageId]
    · rw [hllms p hp]
  · refine ⟨fun m hm => ?_, hi.next.trans he.next.ge, he.calls.trans hi.calls, opened, hstats, fun e hmem => ?_⟩
    · rw [he.metrics, hi.metrics m hm]
    · rw [hopened e hmem, he.metrics]
      rcases hi.own with ⟨hm, -, hin, hcell⟩ | ⟨hm, -, -, -, name, hcell⟩
      · show P (w₁.metrics (w₁.llms o).metrics)
        rw [hm, hcell]
        exact hkept hin
      · show P (w₁.metrics (w₁.llms o).metrics)
        rw [hm, hcell]
        exact hempty name
  · have hnext : w.next ≤ w'.next := hi.next.trans he.next.ge
    -- An LLM that was accounted for stays so; any other shares its metrics with none.
    rcases hcp with ⟨hlt, hin⟩ | hown
    · refine .inl ⟨hlt.trans_le hnext, ?_⟩
      rw [hllms p hp, he.ids]
      exact hi.ids _ hin
    by_cases hsame : (w.llms p).metrics = (w.llms o).metrics
    · refine .inl ⟨hown.lt.trans_le hnext, ?_⟩
      rw [hllms p hp, he.ids, hsame]
      exact hi.known
    -- the two LLMs share nothing, before and after
    have htel : (w.llms p).telemetry ≠ (w₁.llms o).telemetry := by
      rcases hi.own with ⟨-, ht, hin, -⟩ | ⟨-, ht, -⟩
      · rw [ht]
        intro heq
        have howno := hc.resolve_left fun hin' => hin hin'.2
        exact hsame (by rw [← hown.wired, heq, howno.wired])
      · rw [ht]
        exact hown.telemetryLt.ne
    have hcell : (w.llms p).metrics ≠ (w₁.llms o).metrics := by
      rcases hi.own with ⟨hm, -⟩ | ⟨hm, -⟩
      · rw [hm]
        exact hsame
      · rw [hm]
        exact hown.metricsLt.ne
    refine .inr ⟨hown.lt.trans_le hnext, ?_, ?_, ?_, fun e hmem => ?_, fun {v q} hq => ?_⟩
    · rw [hllms p hp]
      exact hown.telemetryLt.trans_le hnext
    · rw [hllms p hp]
      exact hown.metricsLt.trans_le hnext
    · rw [hllms p hp, he.telemetries _ htel, hi.telemetries _ hown.telemetryLt]
      exact hown.wired
    · rw [hllms p hp]
      rw [hstats] at hmem
      rcases List.mem_append.mp hmem with hmem | hmem
      · exact hown.unrecorded e hmem
      · rw [hopened e hmem]
        exact fun heq => hcell heq.symm
    · rw [hllms p hp]
      by_cases hqo : q = o
      · rw [hqo, he.telemetry]
        exact htel.symm
      · rw [hllms q hqo]
        rw [hget] at hq
        split at hq
        · exact absurd (Option.some.inj hq).symm hqo
        · exact hown.alone hq
  · intro hmem hrest
    have hrest := he.restored v (hi.usageId ▸ hv) hrest
    rw [hi.stats] at hrest
    refine hf ?_ hrest
    rw [hstats, List.map_append] at hmem
    refine (List.mem_append.mp hmem).resolve_right fun hin => ?_
    obtain ⟨e, he', rfl⟩ := List.mem_map.mp hin
    rw [hopened e he'] at hv
    exact hv hi.usageId

theorem Tracked.add (h : Tracked w) (hc : Clean addr w o) (hnew : w.get (w.llms o).usageId = none)
    (hf : Fresh w (w.llms o).usageId) : ∃ w', w.add addr o = some w' ∧ Added addr w o w' := by
  have hi := World.independent addr w o
  have hnever : ∀ v, w.get v ≠ some o := by
    intro v hv
    rw [(h.linked hv).usage, hv] at hnew
    cases hnew
  obtain ⟨ht, hown⟩ := h.ensureIndependentMetrics hc hnever
  have he := ht.registerLlm hown (by rw [hi.usageId, hi.get, hnew]) (by
    rw [hi.usageId]
    unfold Fresh
    rw [hi.stats]
    exact hf)
  refine ⟨_, ?_, Added.of_enlisted hc hi he⟩
  have hsub : ((w.ensureIndependentMetrics addr o).enlist o).registry.subscribed = true :=
    hi.subscribed.trans h.subscribed
  rw [World.add, hnew, Option.isSome_none, if_neg Bool.false_ne_true]
  exact congrArg some (if_pos hsub)

end

/-! ## Switching and asking -/

/-- The copied LLM has metrics that the registry knows. -/
def Detected (addr : Nat → Nat) (w : World C) (a : LlmArg C) : Prop :=
  ∀ o ∈ a.copyOf, addr (w.llms o).metrics ∈ w.registry.metricsIds

/-- Metrics without a call. -/
def Empty (m : Metrics) : Prop := ∃ name, m = { modelName := name }

/-- The agent works, with an LLM of the registry. -/
structure Sound (w : World C) : Prop extends Tracked w where
  ready : w.agentReady = true
  agent : w.get (w.llms w.agentLlm).usageId = some w.agentLlm

section
variable {addr : Nat → Nat} {w w' : World C} {P : Metrics → Prop} {u v : String} {o p m : Nat} {a : LlmArg C}

theorem Opens.refl (w : World C) : Opens P w w := (Grows.refl w).opens

theorem clean_make (h : Tracked w) (hd : Detected addr w a) : Clean addr (w.make u a) w.next := by
  cases hcopy : a.copyOf with
  | some o =>
    refine .inl ⟨by simp, ?_⟩
    simp only [World.make, hcopy, Function.update_self]
    exact hd o hcopy
  | none =>
    right
    have hmake := World.make_grows (w := w) (u := u) (a := a)
    have hmetrics : ((w.make u a).llms w.next).metrics = w.next := by simp [World.make, hcopy]
    have htel : ((w.make u a).llms w.next).telemetry = w.next := by simp [World.make, hcopy]
    refine ⟨by simp, by simp [htel], by simp [hmetrics], ?_, fun e he => ?_, fun {v p} hget => ?_⟩
    · rw [htel, hmetrics]
      simp [World.make, hcopy]
    · rw [hmake.stats] at he
      rw [hmetrics]
      exact (h.bound e he).ne
    · rw [hmake.get] at hget
      have hl := h.linked hget
      rw [hmake.llms p hl.lt, htel]
      exact hl.telemetryLt.ne

theorem empty_make (hd : Detected addr w a)
    (h : addr ((w.make u a).llms w.next).metrics ∉ (w.make u a).registry.metricsIds) :
    Empty ((w.make u a).metrics ((w.make u a).llms w.next).metrics) := by
  cases hcopy : a.copyOf with
  | some o =>
    simp only [World.make, hcopy, Function.update_self] at h
    exact absurd (hd o hcopy) h
  | none => exact ⟨a.model, by simp [World.make, hcopy]⟩

/-- What registering the LLM of a caller leaves. -/
structure Registered (w : World C) (u : String) (w' : World C) : Prop where
  tracked : Tracked w'
  get : ∀ v, w'.get v = if v = u then some w.next else w.get v
  usageId : ∀ p < w.next, (w'.llms p).usageId = (w.llms p).usageId
  opens : Opens Empty w w'
  agentLlm : w'.agentLlm = w.agentLlm
  agentReady : w'.agentReady = w.agentReady

theorem World.make_agentLlm : (w.make u a).agentLlm = w.agentLlm := by
  unfold World.make
  split <;> rfl

theorem Tracked.register (h : Tracked w) (hd : Detected addr w a) (hnew : w.get u = none) (hf : Fresh w u) :
    ∃ w', (w.make u a).add addr w.next = some w' ∧ Registered w u w' := by
  have hmake := World.make_grows (w := w) (u := u) (a := a)
  have hu := World.make_usageId (w := w) (u := u) (a := a)
  have ht := h.grow hmake
  have hf' : Fresh (w.make u a) u := by
    unfold Fresh
    rw [hmake.stats]
    exact hf
  obtain ⟨w', hadd, hadded⟩ := ht.add (clean_make h hd) (by rw [hu, hmake.get, hnew]) (by rw [hu]; exact hf')
  refine ⟨w', hadd, hadded.tracked, fun v => ?_, fun p hp => ?_, ?_, hadded.agentLlm.trans World.make_agentLlm,
    hadded.agentReady.trans hmake.agentReady⟩
  · rw [hadded.get, hu, hmake.get]
  · rw [hadded.usageId, hmake.llms p hp]
  · have hopens := hadded.opens Empty (fun name => ⟨name, rfl⟩) (empty_make hd)
    exact hmake.opens.trans hopens ht.bound

theorem Sound.getOrCreateProfileLlm (h : Sound w) (hok : w.get u = none → Fresh w u ∧ Detected addr w a) :
    Sound (w.getOrCreateProfileLlm addr u a) ∧ Opens Empty w (w.getOrCreateProfileLlm addr u a) ∧
      (w.getOrCreateProfileLlm addr u a).get u ≠ none := by
  cases hget : w.get u with
  | some o =>
    simp only [World.getOrCreateProfileLlm, hget]
    exact ⟨h, .refl w, by simp⟩
  | none =>
    obtain ⟨hf, hd⟩ := hok hget
    obtain ⟨w', hadd, hr⟩ := h.toTracked.register hd hget hf
    simp only [World.getOrCreateProfileLlm, hget, hadd, Option.getD_some]
    refine ⟨⟨hr.tracked, hr.agentReady.trans h.ready, ?_⟩, hr.opens, ?_⟩
    · rw [hr.agentLlm, hr.usageId _ (h.linked h.agent).lt, hr.get]
      split
      · rename_i heq
        have hagent := h.agent
        rw [heq, hget] at hagent
        cases hagent
      · exact h.agent
    · rw [hr.get, if_pos rfl]
      exact Option.some_ne_none _

theorem Tracked.install [DecidableEq C] (h : Tracked w) (hready : w.agentReady = true) (hget : w.get u = some o)
    (hu : u ≠ askAgentLlmUsageId) : Sound (w.install o) ∧ Opens P w (w.install o) := by
  have hgrows := World.condenserForSwitchedLlm_grows (w := w) (o := o)
  have ht := (h.grow hgrows).remove askAgentLlmUsageId
  have hlinked := (h.linked hget).grow hgrows
  have hopens : Opens P w (w.condenserForSwitchedLlm o) := hgrows.opens
  refine ⟨⟨⟨fun hreg => ?_, ht.keys, ht.cells, ht.bound, ht.subscribed⟩, hgrows.agentReady.trans hready, ?_⟩,
    ⟨hopens.metrics, hopens.next, hopens.calls, hopens.usages⟩⟩
  · obtain ⟨k1, k2, k3, k4, k5⟩ := ht.linked hreg
    exact ⟨k1, k2, k3, k4, k5⟩
  · have hkeep : ((w.condenserForSwitchedLlm o).remove askAgentLlmUsageId).get u = some o := by
      rw [World.get_remove, if_neg hu, hgrows.get, hget]
    have husage : ((w.condenserForSwitchedLlm o).llms o).usageId = u := hlinked.usage
    show ((w.condenserForSwitchedLlm o).remove askAgentLlmUsageId).get ((w.condenserForSwitchedLlm o).llms o).usageId =
      some o
    rw [husage, hkeep]

end

section
variable {addr : Nat → Nat} {w w' : World C} {P : Metrics → Prop} {u v : String} {o p m : Nat} {a : LlmArg C}

theorem World.restoreMetrics_self : (w.restoreMetrics o m).llms o = { w.llms o with metrics := m } :=
  Function.update_self ..

theorem World.restoreMetrics_twice : (w.restoreMetrics o m).restoreMetrics o m = w.restoreMetrics o m := by
  have hllm := World.restoreMetrics_self (w := w) (o := o) (m := m)
  have hllms : Function.update (w.restoreMetrics o m).llms o { (w.restoreMetrics o m).llms o with metrics := m } =
      (w.restoreMetrics o m).llms := by
    rw [hllm]
    exact Function.update_idem ..
  have htel : Function.update (w.restoreMetrics o m).telemetries ((w.restoreMetrics o m).llms o).telemetry m =
      (w.restoreMetrics o m).telemetries := by
    rw [hllm]
    exact Function.update_idem ..
  unfold World.restoreMetrics at hllms htel ⊢
  rw [hllms, htel]

/-- An LLM that replaces another takes over the metrics of its usage. -/
theorem Tracked.replace (h : Tracked w) (hc : Clean addr w o) (hnew : w.get (w.llms o).usageId = none)
    (hcell : w.stats.usageToMetrics.lookup (w.llms o).usageId = some m) :
    ∃ w', w.add addr o = some w' ∧ Tracked (w'.restoreMetrics o m) ∧
      (∀ v, w'.get v = if v = (w.llms o).usageId then some o else w.get v) ∧ (∀ p ≠ o, w'.llms p = w.llms p) ∧
      Opens P w w' ∧ w'.agentReady = w.agentReady := by
  have hi := World.independent addr w o
  have hnever : ∀ v, w.get v ≠ some o := by
    intro v hv
    rw [(h.linked hv).usage, hv] at hnew
    cases hnew
  obtain ⟨ht, hown⟩ := h.ensureIndependentMetrics hc hnever
  have hnew' : (w.ensureIndependentMetrics addr o).get ((w.ensureIndependentMetrics addr o).llms o).usageId = none := by
    rw [hi.usageId, hi.get, hnew]
  have hcell' : (w.ensureIndependentMetrics addr o).stats.usageToMetrics.lookup
      ((w.ensureIndependentMetrics addr o).llms o).usageId = some m := by
    rw [hi.stats, hi.usageId, hcell]
  have hkept := ht.enlist_restored hown hnew' hcell'
  have hget : ∀ v, ((w.ensureIndependentMetrics addr o).enlist o).get v =
      if v = (w.llms o).usageId then some o else w.get v := fun v => by
    rw [World.get_enlist hnew', hi.usageId, hi.get]
  have hopens : Opens P w (w.ensureIndependentMetrics addr o) :=
    ⟨hi.metrics, hi.next, hi.calls, [], by rw [hi.stats, List.append_nil], by simp⟩
  have hsub : ((w.ensureIndependentMetrics addr o).enlist o).registry.subscribed = true :=
    hi.subscribed.trans h.subscribed
  have hadd : w.add addr o = some (((w.ensureIndependentMetrics addr o).enlist o).registerLlm o) := by
    rw [World.add, hnew, Option.isSome_none, if_neg Bool.false_ne_true]
    exact congrArg some (if_pos hsub)
  refine ⟨_, hadd, ?_⟩
  have hlookup : ((w.ensureIndependentMetrics addr o).enlist o).stats.usageToMetrics.lookup
      (((w.ensureIndependentMetrics addr o).enlist o).llms o).usageId = some m := hcell'
  simp only [World.registerLlm, hlookup]
  split
  · exact ⟨hkept, hget, fun p hp => hi.llms p hp, ⟨hopens.metrics, hopens.next, hopens.calls, hopens.usages⟩,
      hi.agentReady⟩
  · refine ⟨?_, hget, fun p hp => ?_, ⟨hopens.metrics, hopens.next, hopens.calls, hopens.usages⟩, hi.agentReady⟩
    · have htwice := World.restoreMetrics_twice (w := (w.ensureIndependentMetrics addr o).enlist o) (o := o) (m := m)
      rw [← htwice] at hkept
      refine ⟨fun hreg => ?_, hkept.keys, hkept.cells, hkept.bound, hkept.subscribed⟩
      obtain ⟨k1, k2, k3, k4, k5⟩ := hkept.linked hreg
      exact ⟨k1, k2, k3, k4, k5⟩
    · rw [← hi.llms p hp]
      exact Function.update_of_ne hp ..

theorem Sound.switchLlm [DecidableEq C] (h : Sound w) (hu : u ≠ askAgentLlmUsageId) (hd : Detected addr w a)
    (hok : w.get u = none → Fresh w u) :
    Sound (w.switchLlm addr u a) ∧ Opens Empty w (w.switchLlm addr u a) := by
  have hmake := World.make_grows (w := w) (u := u) (a := a)
  have husage := World.make_usageId (w := w) (u := u) (a := a)
  have ht := h.toTracked.grow hmake
  unfold World.switchLlm
  simp only [hmake.get]
  cases hget : w.get u with
  | none =>
    obtain ⟨w', hadd, hr⟩ := h.toTracked.register hd hget (hok hget)
    simp only [hadd, Option.getD_some]
    obtain ⟨hs, hopens⟩ := hr.tracked.install (P := Empty) (hr.agentReady.trans h.ready)
      (by rw [hr.get, if_pos rfl] : w'.get u = some w.next) hu
    exact ⟨hs, hr.opens.trans hopens hr.tracked.bound⟩
  | some r =>
    have hlr := h.linked hget
    simp only
    split
    · obtain ⟨hs, hopens⟩ := ht.install (P := Empty) (hmake.agentReady.trans h.ready)
        (by rw [hmake.get, hget] : (w.make u a).get u = some r) hu
      exact ⟨hs, hmake.opens.trans hopens ht.bound⟩
    · -- the new LLM joins after the old one is dropped, and takes over its metrics
      have hrem := ht.remove u
      have hclean : Clean addr ((w.make u a).remove u) w.next := by
        rcases clean_make (u := u) h.toTracked hd with hin | ⟨k1, k2, k3, k4, k5, k6⟩
        · exact .inl hin
        · refine .inr ⟨k1, k2, k3, k4, k5, fun {v p} hp => ?_⟩
          rw [World.get_remove] at hp
          split at hp
          · cases hp
          · exact k6 hp
      have husage' : (((w.make u a).remove u).llms w.next).usageId = u := husage
      have hnew : ((w.make u a).remove u).get (((w.make u a).remove u).llms w.next).usageId = none := by
        rw [World.get_remove, husage', if_pos rfl]
      have hcell : ((w.make u a).remove u).stats.usageToMetrics.lookup
          (((w.make u a).remove u).llms w.next).usageId = some (w.llms r).metrics := by
        rw [husage']
        show (w.make u a).stats.usageToMetrics.lookup u = _
        rw [hmake.stats]
        exact hlr.cell
      obtain ⟨w', hadd, htr, hget', hllms, hopens, hready⟩ := hrem.replace (P := Empty) hclean hnew hcell
      have hcells : (w'.llms r).metrics = (w.llms r).metrics := by
        rw [hllms r hlr.lt.ne]
        exact congrArg Llm.metrics (hmake.llms r hlr.lt)
      simp only [hadd, Option.getD_some, hcells]
      have hreg : (w'.restoreMetrics w.next (w.llms r).metrics).get u = some w.next := by
        show w'.get u = some w.next
        rw [hget', if_pos husage'.symm]
      obtain ⟨hs, hinst⟩ := htr.install (P := Empty) (hready.trans (hmake.agentReady.trans h.ready)) hreg hu
      refine ⟨hs, ?_⟩
      have hrem' : Opens Empty w ((w.make u a).remove u) :=
        ⟨hmake.metrics, hmake.next, hmake.calls, [], by rw [List.append_nil]; exact congrArg _ hmake.stats, by simp⟩
      have hrest : Opens Empty w (w'.restoreMetrics w.next (w.llms r).metrics) := by
        obtain ⟨k1, k2, k3, k4⟩ := hrem'.trans hopens hrem.bound
        exact ⟨k1, k2, k3, k4⟩
      exact hrest.trans hinst htr.bound

end

/-! ## What a call adds -/

/-- A quantity of metrics to which merging and every operation add. -/
structure Additive {A : Type} [AddCommMonoid A] (f : Metrics → A) (spent : Metrics.Op → A) : Prop where
  empty : ∀ name, f { modelName := name } = 0
  merge : ∀ m m' : Metrics, f (m.merge m') = f m + f m'
  after : ∀ (m : Metrics) (op : Metrics.Op), f (m.after [op]) = f m + spent op

def spentCost (op : Metrics.Op) : ℚ := (({} : Metrics).after [op]).accumulatedCost

def spentTokens (k : TokenKind) (op : Metrics.Op) : Nat := (({} : Metrics).after [op]).tokens k

theorem additive_cost : Additive Metrics.accumulatedCost spentCost where
  empty _ := rfl
  merge _ _ := rfl
  after m op := by
    have hone : ∀ m : Metrics, m.after [op] = (m.run op).toOption.getD m := fun _ => rfl
    rw [spentCost, hone, hone]
    cases op with
    | addCost value now =>
      simp only [Metrics.run, Metrics.addCost]
      split <;> simp [Except.toOption]
    | addResponseLatency value responseId => simp [Metrics.run, Metrics.addResponseLatency, Except.toOption]
    | addTokenUsage p c r w n responseId g =>
      have hkeep : ∀ m : Metrics, ((m.addTokenUsage p c r w n responseId g).toOption.getD m).accumulatedCost =
          m.accumulatedCost := by
        intro m
        cases hu : TokenUsage.validate m.modelName p c r w g n (p + c) responseId with
        | error e => rw [Metrics.addTokenUsage_error hu]; rfl
        | ok u => rw [Metrics.addTokenUsage_ok hu]; rfl
      show ((m.addTokenUsage p c r w n responseId g).toOption.getD m).accumulatedCost = _ +
        ((({} : Metrics).addTokenUsage p c r w n responseId g).toOption.getD {}).accumulatedCost
      rw [hkeep, hkeep]
      exact (add_zero _).symm
    | merge other =>
      show m.accumulatedCost + other.accumulatedCost = m.accumulatedCost + (0 + other.accumulatedCost)
      rw [zero_add]

theorem additive_tokens (k : TokenKind) : Additive (fun m => m.tokens k) (spentTokens k) where
  empty name := by cases k <;> rfl
  merge m m' := Metrics.tokens_merge m m' k
  after m op := by
    have hone : ∀ m : Metrics, m.after [op] = (m.run op).toOption.getD m := fun _ => rfl
    have hzero : ({} : Metrics).tokens k = 0 := by cases k <;> rfl
    rw [spentTokens, hone, hone]
    cases op with
    | addCost value now =>
      simp only [Metrics.run, Metrics.addCost]
      split
      · show m.tokens k = m.tokens k + ({} : Metrics).tokens k
        rw [hzero, Nat.add_zero]
      · show m.tokens k = m.tokens k + ({} : Metrics).tokens k
        rw [hzero, Nat.add_zero]
    | addResponseLatency value responseId =>
      show m.tokens k = m.tokens k + ({} : Metrics).tokens k
      rw [hzero, Nat.add_zero]
    | addTokenUsage p c r w n responseId g =>
      have hadds : ∃ d, ∀ m : Metrics,
          ((m.addTokenUsage p c r w n responseId g).toOption.getD m).tokens k = m.tokens k + d := by
        by_cases hok : 0 ≤ p ∧ 0 ≤ c ∧ 0 ≤ r ∧ 0 ≤ w ∧ 0 ≤ g ∧ 0 ≤ n ∧ 0 ≤ p + c
        · refine ⟨(⟨"", p.toNat, c.toNat, r.toNat, w.toNat, g.toNat, n.toNat, (p + c).toNat, ""⟩ : TokenUsage).count k,
            fun m => ?_⟩
          have hu : TokenUsage.validate m.modelName p c r w g n (p + c) responseId =
              .ok ⟨m.modelName, p.toNat, c.toNat, r.toNat, w.toNat, g.toNat, n.toNat, (p + c).toNat, responseId⟩ :=
            if_pos hok
          rw [Metrics.addTokenUsage_ok hu]
          refine (Metrics.tokens_addTokenUsage (m := m) k).trans ?_
          cases k <;> rfl
        · refine ⟨0, fun m => ?_⟩
          have hu : TokenUsage.validate m.modelName p c r w g n (p + c) responseId = .error .negativeTokens :=
            if_neg hok
          rw [Metrics.addTokenUsage_error hu]
          rfl
      obtain ⟨d, hd⟩ := hadds
      show ((m.addTokenUsage p c r w n responseId g).toOption.getD m).tokens k = _ +
        ((({} : Metrics).addTokenUsage p c r w n responseId g).toOption.getD {}).tokens k
      rw [hd, hd, hzero, Nat.zero_add]
    | merge other =>
      show (m.merge other).tokens k = m.tokens k + (({} : Metrics).merge other).tokens k
      rw [Metrics.tokens_merge, Metrics.tokens_merge, hzero, Nat.zero_add]

section
variable {A : Type} [AddCommMonoid A] {f : Metrics → A} {spent : Metrics.Op → A}

theorem Additive.afterAll (h : Additive f spent) (m : Metrics) (ops : List Metrics.Op) :
    f (m.after ops) = f m + (ops.map spent).sum := by
  induction ops generalizing m with
  | nil => simp [Metrics.after]
  | cons op ops ih =>
    have hcons : m.after (op :: ops) = (m.after [op]).after ops := rfl
    rw [hcons, ih, h.after, List.map_cons, List.sum_cons, add_assoc]

theorem Additive.combined (h : Additive f spent) (w : World C) :
    f w.combinedMetrics = (w.stats.usageToMetrics.map fun e => f (w.metrics e.2)).sum := by
  have hgo : ∀ (es : List (String × Nat)) (total : Metrics),
      f (es.foldl (fun total e => total.merge (w.metrics e.2)) total) =
        f total + (es.map fun e => f (w.metrics e.2)).sum := by
    intro es
    induction es with
    | nil => simp
    | cons e es ih =>
      intro total
      rw [List.foldl_cons, ih, h.merge, List.map_cons, List.sum_cons, add_assoc]
  rw [World.combinedMetrics, hgo, h.empty, zero_add]

/-- A change of one cell counts as often as the cell is recorded. -/
theorem sum_update {metrics : Nat → Metrics} {cell : Nat} {m : Metrics} {d : A} (h : f m = f (metrics cell) + d)
    (es : List (String × Nat)) :
    (es.map fun e => f (Function.update metrics cell m e.2)).sum =
      (es.map fun e => f (metrics e.2)).sum + (es.map Prod.snd).count cell • d := by
  induction es with
  | nil => simp
  | cons e es ih =>
    rw [List.map_cons, List.sum_cons, ih, List.map_cons, List.sum_cons, List.map_cons]
    by_cases he : e.2 = cell
    · rw [he, Function.update_self, h, List.count_cons_self, succ_nsmul]
      abel
    · rw [Function.update_of_ne he, List.count_cons_of_ne he, add_assoc]

/-- What the operations of an LLM add to the combined metrics. -/
theorem Additive.charge (h : Additive f spent) (w : World C) (o cell : Nat) (ops : List Metrics.Op) :
    f (w.charge o cell ops).combinedMetrics =
      f w.combinedMetrics + (w.stats.usageToMetrics.map Prod.snd).count cell • (ops.map spent).sum := by
  rw [h.combined, h.combined]
  exact sum_update (h.afterAll _ _) _

theorem Additive.opens (h : Additive f spent) {w w' : World C} (ht : Tracked w) (ho : Opens Empty w w') :
    f w'.combinedMetrics = f w.combinedMetrics := by
  obtain ⟨opened, hs, hempty⟩ := ho.usages
  rw [h.combined, h.combined, hs, List.map_append, List.sum_append]
  have hnone : (opened.map fun e => f (w'.metrics e.2)).sum = 0 := by
    refine List.sum_eq_zero fun x hx => ?_
    obtain ⟨e, he, rfl⟩ := List.mem_map.mp hx
    obtain ⟨name, hname⟩ := hempty e he
    rw [hname, h.empty]
  rw [hnone, add_zero]
  refine congrArg List.sum (List.map_congr_left fun e he => ?_)
  rw [ho.metrics _ (ht.bound e he)]

end

/-! ## The accounts of a run -/

def World.callsOf (w : World C) (usageId : String) : List Metrics.Op :=
  (w.calls.filter fun c => c.1 = usageId).map Prod.snd

/-- The steps of a conversation that keep its accounts. A new LLM is not under a usage id whose metrics were
restored before, and a copy has metrics that the registry knows. -/
def Allowed (addr : Nat → Nat) (w : World C) : Op C → Prop
  | .ensureAgentReady => True
  | .switchLlm usageId a =>
    usageId ≠ askAgentLlmUsageId ∧ Detected addr w a ∧ (w.get usageId = none → Fresh w usageId)
  | .getOrCreateProfileLlm usageId a => w.get usageId = none → Fresh w usageId ∧ Detected addr w a
  | .askAgent _ => w.get askAgentLlmUsageId = none →
    Fresh w askAgentLlmUsageId ∧ addr (w.llms w.agentLlm).metrics ∈ w.registry.metricsIds
  | .call o _ => w.get (w.llms o).usageId = some o
  | .fallback o _ => w.get (w.llms o).usageId = some o

/-- Since `w₀`, each call went to the metrics of its usage. -/
structure Books (w₀ w : World C) : Prop extends Sound w where
  kept : ∀ u m, w₀.metricsForUsage u = some m → w.metricsForUsage u = some (m.after (w.callsOf u))
  opened : ∀ u m, w₀.metricsForUsage u = none → w.metricsForUsage u = some m →
    ∃ m₀, Empty m₀ ∧ m = m₀.after (w.callsOf u)
  counted : ∀ c ∈ w.calls, w.metricsForUsage c.1 ≠ none
  total : ∀ {A : Type} [AddCommMonoid A] {f : Metrics → A} {spent : Metrics.Op → A}, Additive f spent →
    f w.combinedMetrics = f w₀.combinedMetrics + (w.calls.map fun c => spent c.2).sum

section
variable {addr : Nat → Nat} {w w₀ w' : World C} {P : Metrics → Prop} {u v : String} {o p m : Nat} {a : LlmArg C}

theorem Opens.callsOf (h : Opens P w w') (u : String) : w'.callsOf u = w.callsOf u := by
  rw [World.callsOf, h.calls, World.callsOf]

theorem Opens.metricsForUsage (ht : Tracked w) (h : Opens P w w') {m : Metrics} (hu : w.metricsForUsage u = some m) :
    w'.metricsForUsage u = some m := by
  obtain ⟨cell, hcell, rfl⟩ := Option.map_eq_some_iff.mp hu
  obtain ⟨opened, hs, -⟩ := h.usages
  rw [World.metricsForUsage, hs, List.lookup_append, hcell, Option.some_or, Option.map_some,
    h.metrics cell (ht.recorded_lt hcell)]

theorem Opens.metricsForUsage_new (h : Opens P w w') {m : Metrics} (hnone : w.metricsForUsage u = none)
    (hu : w'.metricsForUsage u = some m) : P m := by
  obtain ⟨cell, hcell, rfl⟩ := Option.map_eq_some_iff.mp hu
  obtain ⟨opened, hs, hp⟩ := h.usages
  rw [World.metricsForUsage, Option.map_eq_none_iff] at hnone
  rw [hs, List.lookup_append, hnone, Option.none_or] at hcell
  exact hp _ (Lib.mem_of_lookup hcell)

theorem Books.refl (h : Sound w) (hcalls : w.calls = []) : Books w w where
  toSound := h
  kept u m hu := by
    rw [hu, World.callsOf, hcalls]
    rfl
  opened u m hnone hu := by
    rw [hnone] at hu
    cases hu
  counted c hc := by
    rw [hcalls] at hc
    cases hc
  total h := by rw [hcalls, List.map_nil, List.sum_nil, add_zero]

theorem callsOf_of_none (h : Books w₀ w) (hnone : w.metricsForUsage u = none) : w.callsOf u = [] := by
  rw [World.callsOf, List.map_eq_nil_iff, List.filter_eq_nil_iff]
  intro c hc heq
  have heq : c.1 = u := by simpa using heq
  exact h.counted c hc (heq ▸ hnone)

theorem Books.opens (h : Books w₀ w) (hs : Sound w') (ho : Opens Empty w w') : Books w₀ w' where
  toSound := hs
  kept u m hu := by
    rw [ho.callsOf]
    exact ho.metricsForUsage h.toTracked (h.kept u m hu)
  opened u m hnone hu := by
    rw [ho.callsOf]
    cases hw : w.metricsForUsage u with
    | some m' =>
      obtain rfl := Option.some.inj ((ho.metricsForUsage h.toTracked hw).symm.trans hu)
      exact h.opened u m' hnone hw
    | none => exact ⟨m, ho.metricsForUsage_new hw hu, by rw [callsOf_of_none h hw]; rfl⟩
  counted c hc := by
    rw [ho.calls] at hc
    obtain ⟨m, hm⟩ := Option.ne_none_iff_exists'.mp (h.counted c hc)
    rw [ho.metricsForUsage h.toTracked hm]
    exact Option.some_ne_none m
  total hf := by rw [hf.opens h.toTracked ho, h.total hf, ho.calls]

theorem after_append (m : Metrics) (ops ops' : List Metrics.Op) : m.after (ops ++ ops') = (m.after ops).after ops' :=
  List.foldl_append ..

theorem World.callsOf_charge (ops : List Metrics.Op) :
    (w.charge o m ops).callsOf u = w.callsOf u ++ if (w.llms o).usageId = u then ops else [] := by
  show ((w.calls ++ ops.map fun op => ((w.llms o).usageId, op)).filter fun c => c.1 = u).map Prod.snd = _
  rw [List.filter_append, List.map_append, World.callsOf]
  refine congrArg _ ?_
  split
  · rename_i heq
    rw [List.filter_eq_self.mpr fun c hc => ?_]
    · simp [Function.comp_def]
    · obtain ⟨op, -, rfl⟩ := List.mem_map.mp hc
      simpa using heq
  · rename_i hne
    rw [List.filter_eq_nil_iff.mpr fun c hc => ?_]
    · rfl
    · obtain ⟨op, -, rfl⟩ := List.mem_map.mp hc
      simpa using hne

theorem World.metricsForUsage_charge (ht : Tracked w) (hcell : w.stats.usageToMetrics.lookup v = some m)
    (ops : List Metrics.Op) (u : String) : (w.charge o m ops).metricsForUsage u =
      (w.metricsForUsage u).map fun m => if v = u then m.after ops else m := by
  show (w.stats.usageToMetrics.lookup u).map (Function.update w.metrics m _) = _
  rw [World.metricsForUsage]
  cases hu : w.stats.usageToMetrics.lookup u with
  | none => rfl
  | some c =>
    simp only [Option.map_some]
    split
    · rename_i heq
      rw [← heq, hcell] at hu
      rw [← Option.some.inj hu, Function.update_self]
    · rename_i hne
      rw [Function.update_of_ne]
      rintro rfl
      have hsame := List.inj_on_of_nodup_map ht.cells (Lib.mem_of_lookup hcell) (Lib.mem_of_lookup hu) rfl
      exact hne (congrArg Prod.fst hsame)

/-- A call of an LLM of the registry. -/
theorem Books.charge (h : Books w₀ w) (hget : w.get (w.llms o).usageId = some o) (ops : List Metrics.Op) :
    Books w₀ (w.charge o (w.llms o).metrics ops) := by
  have hl := h.linked hget
  have hmetrics := World.metricsForUsage_charge (o := o) h.toTracked hl.cell ops
  refine ⟨⟨⟨fun hreg => ?_, h.keys, h.cells, h.bound, h.subscribed⟩, h.ready, h.agent⟩, fun u m hu => ?_,
    fun u m hnone hu => ?_, fun c hc => ?_, fun {A} _ {f spent} hf => ?_⟩
  · obtain ⟨k1, k2, k3, k4, k5⟩ := h.linked hreg
    exact ⟨k1, k2, k3, k4, k5⟩
  · rw [hmetrics, World.callsOf_charge, h.kept u m hu, after_append, Option.map_some]
    split <;> rfl
  · rw [hmetrics] at hu
    obtain ⟨m', hm', rfl⟩ := Option.map_eq_some_iff.mp hu
    obtain ⟨m₀, hempty, rfl⟩ := h.opened u m' hnone hm'
    refine ⟨m₀, hempty, ?_⟩
    rw [World.callsOf_charge, after_append]
    split <;> rfl
  · rw [hmetrics, Option.ne_none_iff_isSome, Option.isSome_map]
    rcases List.mem_append.mp hc with hc | hc
    · exact Option.ne_none_iff_isSome.mp (h.counted c hc)
    · obtain ⟨op, -, rfl⟩ := List.mem_map.mp hc
      rw [World.metricsForUsage, hl.cell]
      rfl
  · have hcount : (w.stats.usageToMetrics.map Prod.snd).count (w.llms o).metrics = 1 :=
      List.count_eq_one_of_mem h.cells (List.mem_map_of_mem (Lib.mem_of_lookup hl.cell))
    rw [hf.charge, hcount, one_nsmul, h.total hf, add_assoc]
    refine congrArg _ ?_
    show _ = ((w.calls ++ ops.map fun op => ((w.llms o).usageId, op)).map fun c => spent c.2).sum
    rw [List.map_append, List.sum_append, List.map_map]
    rfl

theorem Sound.ensureAgentReady (h : Sound w) : w.ensureAgentReady addr = w := if_pos h.ready

theorem Books.call (h : Books w₀ w) (hget : w.get (w.llms o).usageId = some o) (r : LlmResponse) :
    Books w₀ (w.call o r) := by
  rw [World.call, (h.linked hget).wired]
  exact h.charge hget _

theorem Books.apply [DecidableEq C] {op : Op C} (h : Books w₀ w) (hok : Allowed addr w op) :
    Books w₀ (w.apply addr op) := by
  cases op with
  | ensureAgentReady =>
    rw [World.apply, h.toSound.ensureAgentReady]
    exact h
  | switchLlm u a =>
    obtain ⟨hu, hd, hf⟩ := hok
    obtain ⟨hs, ho⟩ := h.toSound.switchLlm hu hd hf
    exact h.opens hs ho
  | getOrCreateProfileLlm u a =>
    obtain ⟨hs, ho, -⟩ := h.toSound.getOrCreateProfileLlm hok
    exact h.opens hs ho
  | askAgent r =>
    rw [World.apply, World.askAgent, h.toSound.ensureAgentReady]
    have hgot : ∀ a : LlmArg C, a.copyOf = some w.agentLlm →
        Sound (w.getOrCreateProfileLlm addr askAgentLlmUsageId a) ∧
          Opens Empty w (w.getOrCreateProfileLlm addr askAgentLlmUsageId a) ∧
          (w.getOrCreateProfileLlm addr askAgentLlmUsageId a).get askAgentLlmUsageId ≠ none := by
      intro a ha
      refine h.toSound.getOrCreateProfileLlm fun hnone => ⟨(hok hnone).1, fun o ho => ?_⟩
      rw [ha] at ho
      obtain rfl := Option.some.inj ho
      exact (hok hnone).2
    obtain ⟨hs, ho, hget⟩ := hgot { copyOf := some w.agentLlm, model := (w.llms w.agentLlm).model, stream := false,
                                    settings := (w.llms w.agentLlm).settings } rfl
    obtain ⟨o, hasked⟩ := Option.ne_none_iff_exists'.mp hget
    simp only [hasked]
    exact (h.opens hs ho).call (by rw [(hs.linked hasked).usage, hasked]) r
  | call o r => exact h.call hok r
  | fallback o spent => exact h.charge hok _

end

/-! ## The start -/

/-- A conversation before its agent is ready. Its statistics are new, stored ones or a copy. -/
structure Initial (w : World C) : Prop where
  registry : w.registry = {}
  agentReady : w.agentReady = false
  calls : w.calls = []
  keys : (w.stats.usageToMetrics.map Prod.fst).Nodup
  cells : (w.stats.usageToMetrics.map Prod.snd).Nodup
  bound : ∀ e ∈ w.stats.usageToMetrics, e.2 < w.next
  lt : ∀ o ∈ w.getAllLlms, o < w.next
  telemetryLt : ∀ o ∈ w.getAllLlms, (w.llms o).telemetry < w.next
  metricsLt : ∀ o ∈ w.getAllLlms, (w.llms o).metrics < w.next
  wired : ∀ o ∈ w.getAllLlms, w.telemetries (w.llms o).telemetry = (w.llms o).metrics
  unrecorded : ∀ o ∈ w.getAllLlms, ∀ e ∈ w.stats.usageToMetrics, e.2 ≠ (w.llms o).metrics

section
variable {addr : Nat → Nat} {w w₀ w' : World C} {u v : String} {o p m : Nat}

/-- What is left of the LLMs of the agent can be added or is passed over. -/
def Pending (addr : Nat → Nat) (w : World C) (o : Nat) : Prop :=
  w.get (w.llms o).usageId ≠ none ∨ Clean addr w o ∧ Fresh w (w.llms o).usageId

theorem Tracked.addAll {os : List Nat} (h : Tracked w) (hos : ∀ o ∈ os, Pending addr w o) :
    ∃ w', os.foldl (fun w o => (w.add addr o).getD w) w = w' ∧ Tracked w' ∧ Opens (fun _ => True) w w' ∧
      (∀ v p, w.get v = some p → w'.get v = some p) ∧
      (∀ o ∈ os.head?, w.get (w.llms o).usageId = none → w'.get (w.llms o).usageId = some o) ∧
      (∀ p, (w'.llms p).usageId = (w.llms p).usageId) ∧ w'.agentLlm = w.agentLlm := by
  induction os generalizing w with
  | nil => exact ⟨w, rfl, h, .refl w, fun _ _ hv => hv, fun o ho => by simp at ho, fun _ => rfl, rfl⟩
  | cons o os ih =>
    rw [List.foldl_cons]
    cases htaken : w.get (w.llms o).usageId with
    | some q =>
      have hadd : w.add addr o = none := by
        rw [World.add, htaken]
        rfl
      rw [hadd, Option.getD_none]
      obtain ⟨w', hfold, ht', hopens, hget, -, husage, hagent⟩ := ih h fun p hp => hos p (List.mem_cons_of_mem _ hp)
      refine ⟨w', hfold, ht', hopens, hget, fun p hp hnone => ?_, husage, hagent⟩
      obtain rfl := Option.some.inj hp
      rw [htaken] at hnone
      cases hnone
    | none =>
      obtain ⟨hc, hf⟩ := (hos o List.mem_cons_self).resolve_left fun hne => hne htaken
      obtain ⟨w₁, hadd, ha⟩ := h.add hc htaken hf
      rw [hadd, Option.getD_some]
      have hkeep : ∀ v p, w.get v = some p → w₁.get v = some p := by
        intro v p hv
        rw [ha.get, if_neg, hv]
        rintro rfl
        rw [htaken] at hv
        cases hv
      have hos₁ : ∀ p ∈ os, Pending addr w₁ p := by
        intro p hp
        by_cases hsame : (w.llms p).usageId = (w.llms o).usageId
        · left
          rw [ha.usageId, ha.get, if_pos hsame]
          exact Option.some_ne_none o
        · rcases hos p (List.mem_cons_of_mem _ hp) with hne | ⟨hc, hf⟩
          · left
            rw [ha.usageId, ha.get, if_neg hsame]
            exact hne
          · right
            rw [ha.usageId]
            refine ⟨ha.clean p ?_ hc, ha.fresh _ hsame hf⟩
            rintro rfl
            exact hsame rfl
      obtain ⟨w', hfold, ht', hopens, hget, -, husage, hagent⟩ := ih ha.tracked hos₁
      refine ⟨w', hfold, ht', (ha.opens _ (fun _ => trivial) fun _ => trivial).trans hopens ha.tracked.bound,
        fun v p hv => hget v p (hkeep v p hv), fun p hp _ => ?_, fun p => (husage p).trans (ha.usageId p),
        hagent.trans ha.agentLlm⟩
      obtain rfl := Option.some.inj hp
      exact hget _ _ (by rw [ha.get, if_pos rfl])

theorem World.head_getAllLlms (w : World C) : w.getAllLlms.head? = some w.agentLlm := by
  rw [World.getAllLlms, List.eraseDups_cons]
  rfl

theorem Initial.sound (h : Initial w) (hf : ∀ o ∈ w.getAllLlms, Fresh w (w.llms o).usageId) :
    Sound (w.ensureAgentReady addr) ∧ Opens (fun _ => True) w (w.ensureAgentReady addr) := by
  have hnone : ∀ v, w.get v = none := fun v => by
    rw [World.get, h.registry]
    rfl
  have ht : Tracked { w with registry := { w.registry with subscribed := true } } := by
    refine ⟨fun {v p} hreg => ?_, h.keys, h.cells, h.bound, rfl⟩
    have hget : w.get v = some p := hreg
    rw [hnone] at hget
    cases hget
  have hos : ∀ o ∈ w.getAllLlms, Pending addr { w with registry := { w.registry with subscribed := true } } o := by
    intro o ho
    refine .inr ⟨.inr ⟨h.lt o ho, h.telemetryLt o ho, h.metricsLt o ho, h.wired o ho, h.unrecorded o ho,
      fun {v p} hreg => ?_⟩, hf o ho⟩
    have hget : w.get v = some p := hreg
    rw [hnone] at hget
    cases hget
  obtain ⟨w', hfold, ht', hopens, -, hfirst, husage, hagent⟩ := ht.addAll hos
  have hready : w.ensureAgentReady addr = { w' with agentReady := true } := by
    unfold World.ensureAgentReady
    rw [if_neg (by simp [h.agentReady]), ← hfold]
    rfl
  rw [hready]
  refine ⟨⟨⟨fun hreg => ?_, ht'.keys, ht'.cells, ht'.bound, ht'.subscribed⟩, rfl, ?_⟩,
    ⟨hopens.metrics, hopens.next, hopens.calls, hopens.usages⟩⟩
  · obtain ⟨k1, k2, k3, k4, k5⟩ := ht'.linked hreg
    exact ⟨k1, k2, k3, k4, k5⟩
  · show w'.get (w'.llms w'.agentLlm).usageId = some w'.agentLlm
    rw [husage, hagent]
    exact hfirst w.agentLlm (World.head_getAllLlms w) (hnone _)

/-- From its start on, a conversation accounts for every call: what was stored is kept, the metrics of each usage
are those it had at the start, or empty ones, with the calls of its LLMs, and the combined metrics have each call
once. The agent always has an LLM of the registry. -/
theorem accounts_exact [DecidableEq C] (hinit : Initial w₀) (hf : ∀ o ∈ w₀.getAllLlms, Fresh w₀ (w₀.llms o).usageId)
    (h : Reaches (World.step addr) (Allowed addr) (w₀.ensureAgentReady addr) w) :
    (∀ u m, w₀.metricsForUsage u = some m → (w₀.ensureAgentReady addr).metricsForUsage u = some m) ∧
    (∀ u m, (w₀.ensureAgentReady addr).metricsForUsage u = some m →
      w.metricsForUsage u = some (m.after (w.callsOf u))) ∧
    (∀ u m, (w₀.ensureAgentReady addr).metricsForUsage u = none → w.metricsForUsage u = some m →
      ∃ name, m = ({ modelName := name } : Metrics).after (w.callsOf u)) ∧
    (∀ c ∈ w.calls, w.metricsForUsage c.1 ≠ none) ∧
    w.combinedMetrics.accumulatedCost =
      (w₀.ensureAgentReady addr).combinedMetrics.accumulatedCost + (w.calls.map fun c => spentCost c.2).sum ∧
    (∀ k, w.combinedMetrics.tokens k =
      (w₀.ensureAgentReady addr).combinedMetrics.tokens k + (w.calls.map fun c => spentTokens k c.2).sum) ∧
    w.get (w.llms w.agentLlm).usageId = some w.agentLlm := by
  have hstart : Sound (w₀.ensureAgentReady addr) ∧ Opens (fun _ => True) w₀ (w₀.ensureAgentReady addr) :=
    hinit.sound hf
  obtain ⟨hs, hopens⟩ := hstart
  have hbooks : Books (w₀.ensureAgentReady addr) w := by
    refine h.invariant (.refl hs (hopens.calls.trans hinit.calls)) fun s op t hb hok hstep => ?_
    obtain rfl := Option.some.inj hstep
    exact hb.apply hok
  refine ⟨fun u m hu => ?_, hbooks.kept, fun u m hnone hu => ?_, hbooks.counted, hbooks.total additive_cost,
    fun k => hbooks.total (additive_tokens k), hbooks.agent⟩
  · obtain ⟨cell, hcell, rfl⟩ := Option.map_eq_some_iff.mp hu
    obtain ⟨opened, hstats, -⟩ := hopens.usages
    rw [World.metricsForUsage, hstats, List.lookup_append, hcell, Option.some_or, Option.map_some,
      hopens.metrics cell (hinit.bound _ (Lib.mem_of_lookup hcell))]
  · obtain ⟨m₀, ⟨name, rfl⟩, rfl⟩ := hbooks.opened u m hnone hu
    exact ⟨name, rfl⟩

end

/-! ## A resumed conversation -/

section
variable {addr : Nat → Nat} {w : World C} {u : String} {a : LlmArg C} {op : Op C}

instance : Decidable (Fresh w u) :=
  inferInstanceAs (Decidable (u ∈ w.stats.usageToMetrics.map Prod.fst → u ∉ w.stats.restoredUsageIds))

instance : Decidable (Detected addr w a) :=
  inferInstanceAs (Decidable (∀ o ∈ a.copyOf, addr (w.llms o).metrics ∈ w.registry.metricsIds))

instance : Decidable (Allowed addr w op) :=
  match op with
  | .ensureAgentReady => inferInstanceAs (Decidable True)
  | .switchLlm usageId a => inferInstanceAs (Decidable
      (usageId ≠ askAgentLlmUsageId ∧ Detected addr w a ∧ (w.get usageId = none → Fresh w usageId)))
  | .getOrCreateProfileLlm usageId a =>
    inferInstanceAs (Decidable (w.get usageId = none → Fresh w usageId ∧ Detected addr w a))
  | .askAgent _ => inferInstanceAs (Decidable (w.get askAgentLlmUsageId = none →
      Fresh w askAgentLlmUsageId ∧ addr (w.llms w.agentLlm).metrics ∈ w.registry.metricsIds))
  | .call o _ => inferInstanceAs (Decidable (w.get (w.llms o).usageId = some o))
  | .fallback o _ => inferInstanceAs (Decidable (w.get (w.llms o).usageId = some o))

end

/-- The agent's LLM and a copy for the condenser; a cost of the agent is stored. -/
def resumed : World Unit where
  llms o := if o = 0 then ⟨"default", "large", true, (), 1, 0⟩ else ⟨"condenser", "large", true, (), 1, 0⟩
  telemetries _ := 1
  metrics m := if m = 0 then { accumulatedCost := 5 } else {}
  next := 2
  stats := { usageToMetrics := [("default", 0)] }
  agentLlm := 0
  condenserLlm := some 1

def answered : LlmResponse where
  id := "r"
  latency := 1
  cost := some 2
  now := 1
  usage := none
  contextWindow := 0

/-- The agent answers, is switched to a profile, and is asked. -/
def resumedOps : List (Op Unit) :=
  [.call 0 answered, .switchLlm "profile:small" { model := "small", stream := true, settings := () },
   .askAgent answered, .call 1 answered]

theorem accounts_exact_resumed : ∃ w, Reaches (World.step id) (Allowed id) (resumed.ensureAgentReady id) w ∧
    w.combinedMetrics.accumulatedCost =
      (resumed.ensureAgentReady id).combinedMetrics.accumulatedCost + (w.calls.map fun c => spentCost c.2).sum := by
  have hrun : (execAllowed (World.step id) (Allowed id) (resumed.ensureAgentReady id) resumedOps).isSome = true := by
    decide +kernel
  obtain ⟨w, hw⟩ := Option.isSome_iff_exists.mp hrun
  have hreach := reaches_of_execAllowed .init hw
  have hinit : Initial resumed := ⟨rfl, rfl, rfl, by decide, by decide, by decide, by decide, by decide, by decide,
    by decide, by decide⟩
  exact ⟨w, hreach, (accounts_exact hinit (by decide) hreach).2.2.2.2.1⟩

end AgentSdk.UsageRegistry
