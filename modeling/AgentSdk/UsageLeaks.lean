import AgentSdk.UsageRegistry
/-!
# Spending off the books

An LLM that is registered before the statistics listen, or under a usage id whose
metrics they restored before, has metrics of its own that no usage has. Nothing that
the conversation does later gives it recorded ones.
-/

namespace AgentSdk.UsageRegistry
open Lib

variable {C : Type}

/-! ## Objects that exist -/

/-- Every LLM has objects that exist. So has the one that an unused number stands for. -/
structure WellFormed (w : World C) : Prop where
  telemetries : ∀ p, (w.llms p).telemetry < w.next
  metrics : ∀ p, (w.llms p).metrics < w.next
  usages : ∀ e ∈ w.stats.usageToMetrics, e.2 < w.next

/-- The LLM `o` has metrics that no usage has, and that the registry knows. -/
structure Off (addr : Nat → Nat) (w : World C) (o : Nat) : Prop where
  lt : o < w.next
  wired : w.telemetries (w.llms o).telemetry = (w.llms o).metrics
  known : addr (w.llms o).metrics ∈ w.registry.metricsIds
  unrecorded : ∀ e ∈ w.stats.usageToMetrics, e.2 ≠ (w.llms o).metrics
  shared : ∀ p, (w.llms p).telemetry = (w.llms o).telemetry → (w.llms p).metrics = (w.llms o).metrics

/-- The start does not register the LLM again. -/
def Settled (w : World C) (o : Nat) : Prop :=
  w.agentReady = true ∨ (w.llms o).usageId ≠ askAgentLlmUsageId ∧ w.get (w.llms o).usageId ≠ none

section
variable {addr : Nat → Nat} {w w' : World C} {u v : String} {o p q m : Nat} {a : LlmArg C}

theorem World.make_llms (hp : p ≠ w.next) : (w.make u a).llms p = w.llms p := by
  unfold World.make
  split <;> exact Function.update_of_ne hp ..

/-- A made LLM has new objects, or those of the copied one. -/
theorem World.make_cases (w : World C) (u : String) (a : LlmArg C) :
    (a.copyOf = none ∧ ((w.make u a).llms w.next).metrics = w.next ∧ ((w.make u a).llms w.next).telemetry = w.next ∧
      (w.make u a).telemetries w.next = w.next) ∨
    ∃ q, a.copyOf = some q ∧ ((w.make u a).llms w.next).metrics = (w.llms q).metrics ∧
      ((w.make u a).llms w.next).telemetry = (w.llms q).telemetry := by
  cases hcopy : a.copyOf with
  | none => exact .inl ⟨rfl, by simp [World.make, hcopy], by simp [World.make, hcopy], by simp [World.make, hcopy]⟩
  | some q => exact .inr ⟨q, rfl, by simp [World.make, hcopy], by simp [World.make, hcopy]⟩

theorem WellFormed.make (h : WellFormed w) : WellFormed (w.make u a) := by
  have hmake := World.make_grows (w := w) (u := u) (a := a)
  have hlt : w.next < (w.make u a).next := by simp
  refine ⟨fun p => ?_, fun p => ?_, fun e he => ?_⟩
  · by_cases hp : p = w.next
    · subst p
      rcases World.make_cases w u a with ⟨-, -, ht, -⟩ | ⟨q, -, -, ht⟩
      · rw [ht]
        exact hlt
      · rw [ht]
        exact (h.telemetries q).trans hlt
    · rw [World.make_llms hp]
      exact (h.telemetries p).trans hlt
  · by_cases hp : p = w.next
    · subst p
      rcases World.make_cases w u a with ⟨-, hm, -⟩ | ⟨q, -, hm, -⟩
      · rw [hm]
        exact hlt
      · rw [hm]
        exact (h.metrics q).trans hlt
    · rw [World.make_llms hp]
      exact (h.metrics p).trans hlt
  · rw [hmake.stats] at he
    exact (h.usages e he).trans hlt

theorem WellFormed.resetMetrics (h : WellFormed w) (p : Nat) : WellFormed (w.resetMetrics p) := by
  have hlt : w.next < (w.resetMetrics p).next := Nat.lt_succ_self _
  refine ⟨fun q => ?_, fun q => ?_, fun e he => (h.usages e he).trans hlt⟩
  · by_cases hq : q = p
    · rw [hq, World.resetMetrics_self]
      exact hlt
    · rw [World.resetMetrics_llms hq]
      exact (h.telemetries q).trans hlt
  · by_cases hq : q = p
    · rw [hq, World.resetMetrics_self]
      exact hlt
    · rw [World.resetMetrics_llms hq]
      exact (h.metrics q).trans hlt

theorem World.restoreMetrics_llms (hq : q ≠ p) : (w.restoreMetrics p m).llms q = w.llms q :=
  Function.update_of_ne hq ..

theorem WellFormed.restoreMetrics (h : WellFormed w) (hm : m < w.next) (p : Nat) :
    WellFormed (w.restoreMetrics p m) := by
  refine ⟨fun q => ?_, fun q => ?_, h.usages⟩
  · by_cases hq : q = p
    · rw [hq, World.restoreMetrics_self]
      exact h.telemetries p
    · rw [World.restoreMetrics_llms hq]
      exact h.telemetries q
  · by_cases hq : q = p
    · rw [hq, World.restoreMetrics_self]
      exact hm
    · rw [World.restoreMetrics_llms hq]
      exact h.metrics q

theorem WellFormed.ensureIndependentMetrics (h : WellFormed w) (p : Nat) :
    WellFormed (w.ensureIndependentMetrics addr p) := by
  by_cases hmem : addr (w.llms p).metrics ∈ w.registry.metricsIds
  · rw [World.ensureIndependentMetrics_of_mem hmem]
    obtain ⟨h1, h2, h3⟩ := h.resetMetrics p
    exact ⟨h1, h2, h3⟩
  · rw [World.ensureIndependentMetrics_of_notMem hmem]
    exact ⟨h.telemetries, h.metrics, h.usages⟩

/-- What the statistics do with an LLM, in three cases. -/
theorem World.registerLlm_cases (w : World C) (p : Nat) :
    (w.llms p).usageId ∈ w.stats.restoredUsageIds ∧ w.registerLlm p = w ∨
    (∃ m, w.stats.usageToMetrics.lookup (w.llms p).usageId = some m ∧
      w.registerLlm p = { w.restoreMetrics p m with
        stats := { w.stats with restoredUsageIds := (w.llms p).usageId :: w.stats.restoredUsageIds } }) ∨
    w.registerLlm p = { w with stats := { w.stats with
      usageToMetrics := w.stats.usageToMetrics ++ [((w.llms p).usageId, (w.llms p).metrics)] } } := by
  unfold World.registerLlm
  cases hl : w.stats.usageToMetrics.lookup (w.llms p).usageId with
  | some m =>
    by_cases hr : (w.llms p).usageId ∈ w.stats.restoredUsageIds
    · exact .inl ⟨hr, by simp only [hl, if_pos hr]⟩
    · exact .inr (.inl ⟨m, rfl, by simp only [hl, if_neg hr]⟩)
  | none => exact .inr (.inr (by simp only [hl]))

theorem WellFormed.registerLlm (h : WellFormed w) (p : Nat) : WellFormed (w.registerLlm p) := by
  rcases w.registerLlm_cases p with ⟨-, heq⟩ | ⟨m, hm, heq⟩ | heq
  · rw [heq]
    exact h
  · rw [heq]
    obtain ⟨h1, h2, h3⟩ := h.restoreMetrics (h.usages _ (Lib.mem_of_lookup hm)) p
    exact ⟨h1, h2, h3⟩
  · rw [heq]
    refine ⟨h.telemetries, h.metrics, fun e he => ?_⟩
    rcases List.mem_append.mp he with he | he
    · exact h.usages e he
    · obtain rfl := List.mem_singleton.mp he
      exact h.metrics p

theorem World.registerLlm_usageId : ((w.registerLlm p).llms p).usageId = (w.llms p).usageId := by
  rcases w.registerLlm_cases p with ⟨-, heq⟩ | ⟨m, -, heq⟩ | heq
  · rw [heq]
  · rw [heq]
    show ((w.restoreMetrics p m).llms p).usageId = _
    rw [World.restoreMetrics_self]
  · rw [heq]

theorem World.add_some (hadd : w.add addr p = some w') : w.get (w.llms p).usageId = none ∧
    (w' = (w.ensureIndependentMetrics addr p).enlist p ∧ w.registry.subscribed = false ∨
      w' = ((w.ensureIndependentMetrics addr p).enlist p).registerLlm p ∧ w.registry.subscribed = true) := by
  unfold World.add at hadd
  split at hadd
  · cases hadd
  · rename_i hnone
    refine ⟨by simpa using hnone, ?_⟩
    have hsame : ((w.ensureIndependentMetrics addr p).enlist p).registry.subscribed = w.registry.subscribed :=
      (World.independent addr w p).subscribed
    simp only [hsame] at hadd
    split at hadd
    · exact .inr ⟨(Option.some.inj hadd).symm, ‹_›⟩
    · rename_i hsub
      exact .inl ⟨(Option.some.inj hadd).symm, by simpa using hsub⟩

theorem WellFormed.add (h : WellFormed w) (hadd : w.add addr p = some w') : WellFormed w' := by
  have henlist : WellFormed ((w.ensureIndependentMetrics addr p).enlist p) := by
    have hens : WellFormed (w.ensureIndependentMetrics addr p) := h.ensureIndependentMetrics p
    exact ⟨hens.telemetries, hens.metrics, hens.usages⟩
  rcases (World.add_some hadd).2 with ⟨rfl, -⟩ | ⟨rfl, -⟩
  · exact henlist
  · exact henlist.registerLlm p

theorem WellFormed.addD (h : WellFormed w) (h' : WellFormed w') (p : Nat) : WellFormed ((w.add addr p).getD w') := by
  cases hadd : w.add addr p with
  | none => exact h'
  | some w₁ => exact h.add hadd

theorem WellFormed.remove (h : WellFormed w) (u : String) : WellFormed (w.remove u) :=
  ⟨h.telemetries, h.metrics, h.usages⟩

theorem WellFormed.install [DecidableEq C] (h : WellFormed w) (p : Nat) : WellFormed (w.install p) := by
  have hcond : WellFormed (w.condenserForSwitchedLlm p) := by
    unfold World.condenserForSwitchedLlm
    split
    · split
      · have hmade : ∀ u a, WellFormed ((w.make u a).resetMetrics w.next) := fun u a => h.make.resetMetrics _
        exact ⟨(hmade _ _).telemetries, (hmade _ _).metrics, (hmade _ _).usages⟩
      · exact h
    · exact h
  exact ⟨hcond.telemetries, hcond.metrics, hcond.usages⟩

theorem WellFormed.charge (h : WellFormed w) (o m : Nat) (ops : List Metrics.Op) : WellFormed (w.charge o m ops) :=
  ⟨h.telemetries, h.metrics, h.usages⟩

theorem WellFormed.getOrCreateProfileLlm (h : WellFormed w) : WellFormed (w.getOrCreateProfileLlm addr u a) := by
  unfold World.getOrCreateProfileLlm
  split
  · exact h
  · exact h.make.addD h _

theorem WellFormed.ensureAgentReady (h : WellFormed w) : WellFormed (w.ensureAgentReady addr) := by
  have hgo : ∀ (os : List Nat) (w : World C), WellFormed w →
      WellFormed (os.foldl (fun w o => (w.add addr o).getD w) w) := by
    intro os
    induction os with
    | nil => exact fun w h => h
    | cons o os ih => exact fun w h => ih _ (h.addD h o)
  unfold World.ensureAgentReady
  split
  · exact h
  · obtain ⟨h1, h2, h3⟩ := hgo w.getAllLlms { w with registry := { w.registry with subscribed := true } }
      ⟨h.telemetries, h.metrics, h.usages⟩
    exact ⟨h1, h2, h3⟩

theorem WellFormed.switchLlm [DecidableEq C] (h : WellFormed w) : WellFormed (w.switchLlm addr u a) := by
  unfold World.switchLlm
  simp only
  split
  · split
    · exact h.make.install _
    · have hadded : WellFormed ((((w.make u a).remove u).add addr w.next).getD (w.make u a)) :=
        (h.make.remove u).addD h.make w.next
      exact (hadded.restoreMetrics (hadded.metrics _) _).install _
  · exact (h.make.addD h.make _).install _

theorem WellFormed.apply [DecidableEq C] (h : WellFormed w) (op : Op C) : WellFormed (w.apply addr op) := by
  cases op with
  | ensureAgentReady => exact h.ensureAgentReady
  | switchLlm u a => exact h.switchLlm
  | getOrCreateProfileLlm u a => exact h.getOrCreateProfileLlm
  | askAgent r =>
    simp only [World.apply, World.askAgent]
    split
    · exact h.ensureAgentReady.getOrCreateProfileLlm.charge _ _ _
    · exact h.ensureAgentReady.getOrCreateProfileLlm
  | call o r => exact h.charge _ _ _
  | fallback o spent => exact h.charge _ _ _

/-! ## What stays off the books -/

theorem Off.make (h : Off addr w o) (hw : WellFormed w) : Off addr (w.make u a) o := by
  have hmake := World.make_grows (w := w) (u := u) (a := a)
  have hllm := hmake.llms o h.lt
  refine ⟨h.lt.trans_le hmake.next, ?_, ?_, fun e he => ?_, fun p ht => ?_⟩
  · rw [hllm, hmake.telemetries _ (hw.telemetries o), h.wired]
  · rw [hllm, hmake.registry]
    exact h.known
  · rw [hllm]
    exact h.unrecorded e (hmake.stats ▸ he)
  · rw [hllm] at ht ⊢
    by_cases hp : p = w.next
    · subst p
      rcases World.make_cases w u a with ⟨-, -, htel, -⟩ | ⟨q, -, hm, htel⟩
      · rw [htel] at ht
        exact absurd ht (hw.telemetries o).ne'
      · rw [hm]
        exact h.shared q (htel.symm.trans ht)
    · rw [World.make_llms hp] at ht ⊢
      exact h.shared p ht

theorem Off.resetMetrics (h : Off addr w o) (hw : WellFormed w) (hp : o ≠ p) : Off addr (w.resetMetrics p) o := by
  have hllm := World.resetMetrics_llms (w := w) hp
  refine ⟨h.lt.trans (Nat.lt_succ_self _), ?_, ?_, ?_, fun q ht => ?_⟩
  · rw [hllm, ← h.wired]
    exact Function.update_of_ne (hw.telemetries o).ne ..
  · rw [hllm]
    exact h.known
  · rw [hllm]
    exact h.unrecorded
  · rw [hllm] at ht ⊢
    by_cases hq : q = p
    · rw [hq, World.resetMetrics_self] at ht
      exact absurd ht (hw.telemetries o).ne'
    · rw [World.resetMetrics_llms hq] at ht ⊢
      exact h.shared q ht

theorem Off.restoreMetrics (h : Off addr w o) (hp : o ≠ p) (ht : (w.llms p).telemetry ≠ (w.llms o).telemetry)
    (m : Nat) : Off addr (w.restoreMetrics p m) o := by
  have hllm := World.restoreMetrics_llms (w := w) (m := m) hp
  refine ⟨h.lt, ?_, ?_, ?_, fun q hq => ?_⟩
  · rw [hllm, ← h.wired]
    exact Function.update_of_ne ht.symm ..
  · rw [hllm]
    exact h.known
  · rw [hllm]
    exact h.unrecorded
  · rw [hllm] at hq ⊢
    by_cases hqp : q = p
    · rw [hqp, World.restoreMetrics_self] at hq
      exact absurd hq ht
    · rw [World.restoreMetrics_llms hqp] at hq ⊢
      exact h.shared q hq

/-- An LLM that the registry makes independent shares nothing with `o`. -/
theorem Off.ensureIndependentMetrics (h : Off addr w o) (hw : WellFormed w) (hp : o ≠ p) :
    Off addr (w.ensureIndependentMetrics addr p) o ∧
      ((w.ensureIndependentMetrics addr p).llms p).metrics ≠ ((w.ensureIndependentMetrics addr p).llms o).metrics ∧
      ((w.ensureIndependentMetrics addr p).llms p).telemetry ≠
        ((w.ensureIndependentMetrics addr p).llms o).telemetry := by
  by_cases hmem : addr (w.llms p).metrics ∈ w.registry.metricsIds
  · rw [World.ensureIndependentMetrics_of_mem hmem]
    obtain ⟨h1, h2, h3, h4, h5⟩ := h.resetMetrics hw hp
    refine ⟨⟨h1, h2, List.mem_cons_of_mem _ h3, h4, h5⟩, ?_, ?_⟩
    · show ((w.resetMetrics p).llms p).metrics ≠ ((w.resetMetrics p).llms o).metrics
      rw [World.resetMetrics_self, World.resetMetrics_llms hp]
      exact (hw.metrics o).ne'
    · show ((w.resetMetrics p).llms p).telemetry ≠ ((w.resetMetrics p).llms o).telemetry
      rw [World.resetMetrics_self, World.resetMetrics_llms hp]
      exact (hw.telemetries o).ne'
  · rw [World.ensureIndependentMetrics_of_notMem hmem]
    have hne : (w.llms p).metrics ≠ (w.llms o).metrics := fun heq => hmem (heq ▸ h.known)
    exact ⟨⟨h.lt, h.wired, List.mem_cons_of_mem _ h.known, h.unrecorded, h.shared⟩, hne, fun ht => hne (h.shared p ht)⟩

theorem Off.add (h : Off addr w o) (hw : WellFormed w) (hp : o ≠ p) (hadd : w.add addr p = some w') :
    Off addr w' o ∧ (w'.llms p).telemetry ≠ (w'.llms o).telemetry ∧ w'.llms o = w.llms o := by
  obtain ⟨⟨h1, h2, h3, h4, h5⟩, hm, ht⟩ := h.ensureIndependentMetrics hw hp
  have hllm := (World.independent addr w p).llms o hp
  have henlist : Off addr ((w.ensureIndependentMetrics addr p).enlist p) o := ⟨h1, h2, h3, h4, h5⟩
  rcases (World.add_some hadd).2 with ⟨rfl, -⟩ | ⟨rfl, -⟩
  · exact ⟨henlist, ht, hllm⟩
  rcases ((w.ensureIndependentMetrics addr p).enlist p).registerLlm_cases p with ⟨-, heq⟩ | ⟨m, -, heq⟩ | heq
  · rw [heq]
    exact ⟨henlist, ht, hllm⟩
  · rw [heq]
    obtain ⟨k1, k2, k3, k4, k5⟩ := henlist.restoreMetrics hp ht m
    refine ⟨⟨k1, k2, k3, k4, k5⟩, ?_, (Function.update_of_ne hp ..).trans hllm⟩
    show ((((w.ensureIndependentMetrics addr p).enlist p).restoreMetrics p m).llms p).telemetry ≠
      ((((w.ensureIndependentMetrics addr p).enlist p).restoreMetrics p m).llms o).telemetry
    rw [World.restoreMetrics_self, World.restoreMetrics_llms hp]
    exact ht
  · rw [heq]
    refine ⟨⟨h1, h2, h3, fun e he => ?_, h5⟩, ht, hllm⟩
    rcases List.mem_append.mp he with he | he
    · exact h4 e he
    · obtain rfl := List.mem_singleton.mp he
      exact hm

end

/-! ## The steps of a conversation -/

section
variable {addr : Nat → Nat} {w w' : World C} {u v : String} {o p q m : Nat} {a : LlmArg C}

theorem World.registerLlm_registry : (w.registerLlm p).registry = w.registry := by
  rcases w.registerLlm_cases p with ⟨-, heq⟩ | ⟨m, -, heq⟩ | heq <;> (rw [heq]; try rfl)

theorem World.registerLlm_agentReady : (w.registerLlm p).agentReady = w.agentReady := by
  rcases w.registerLlm_cases p with ⟨-, heq⟩ | ⟨m, -, heq⟩ | heq <;> (rw [heq]; try rfl)

theorem World.get_add (hadd : w.add addr p = some w') (v : String) :
    w'.get v = if v = (w.llms p).usageId then some p else w.get v := by
  have hi := World.independent addr w p
  obtain ⟨hnone, hw'⟩ := World.add_some hadd
  have hget : ((w.ensureIndependentMetrics addr p).enlist p).get v =
      if v = (w.llms p).usageId then some p else w.get v := by
    rw [World.get_enlist (by rw [hi.usageId, hi.get, hnone]), hi.usageId, hi.get]
  rcases hw' with ⟨rfl, -⟩ | ⟨rfl, -⟩
  · exact hget
  · rw [World.get, World.registerLlm_registry]
    exact hget

theorem World.add_agentReady (hadd : w.add addr p = some w') : w'.agentReady = w.agentReady := by
  have hi := World.independent addr w p
  rcases (World.add_some hadd).2 with ⟨rfl, -⟩ | ⟨rfl, -⟩
  · exact hi.agentReady
  · rw [World.registerLlm_agentReady]
    exact hi.agentReady

theorem World.add_of_none (addr : Nat → Nat) (hnone : w.get (w.llms p).usageId = none) :
    ∃ w', w.add addr p = some w' := by
  rw [World.add, hnone, Option.isSome_none, if_neg Bool.false_ne_true]
  exact ⟨_, rfl⟩

theorem Settled.keep (h : Settled w o) (hllm : w'.llms o = w.llms o) (hready : w'.agentReady = w.agentReady)
    (hget : ∀ v ≠ askAgentLlmUsageId, w.get v ≠ none → w'.get v ≠ none) : Settled w' o := by
  rcases h with h | ⟨hne, h⟩
  · exact .inl (hready.trans h)
  · right
    rw [hllm]
    exact ⟨hne, hget _ hne h⟩

theorem Off.install [DecidableEq C] (h : Off addr w o) (hw : WellFormed w) (p : Nat) :
    Off addr (w.install p) o ∧ (w.install p).llms o = w.llms o := by
  have hcond : Off addr (w.condenserForSwitchedLlm p) o := by
    unfold World.condenserForSwitchedLlm
    split
    · split
      · have hmade : ∀ u a, Off addr ((w.make u a).resetMetrics w.next) o := fun u a =>
          (h.make hw).resetMetrics hw.make h.lt.ne
        obtain ⟨h1, h2, h3, h4, h5⟩ := hmade _ _
        exact ⟨h1, h2, h3, h4, h5⟩
      · exact h
    · exact h
  obtain ⟨h1, h2, h3, h4, h5⟩ := hcond
  exact ⟨⟨h1, h2, h3, h4, h5⟩, World.condenserForSwitchedLlm_grows.llms o h.lt⟩

theorem World.get_install [DecidableEq C] (w : World C) (p : Nat) (hv : v ≠ askAgentLlmUsageId) :
    (w.install p).get v = w.get v := by
  have hgrows := World.condenserForSwitchedLlm_grows (w := w) (o := p)
  have hget : (w.install p).get v = ((w.condenserForSwitchedLlm p).remove askAgentLlmUsageId).get v := rfl
  rw [hget, World.get_remove, if_neg hv, hgrows.get]

theorem World.install_agentReady [DecidableEq C] (w : World C) (p : Nat) :
    (w.install p).agentReady = w.agentReady := World.condenserForSwitchedLlm_grows.agentReady

theorem Off.charge (h : Off addr w o) (p m : Nat) (ops : List Metrics.Op) : Off addr (w.charge p m ops) o :=
  ⟨h.lt, h.wired, h.known, h.unrecorded, h.shared⟩

theorem Off.getOrCreateProfileLlm (h : Off addr w o) (hs : Settled w o) (hw : WellFormed w) :
    Off addr (w.getOrCreateProfileLlm addr u a) o ∧ Settled (w.getOrCreateProfileLlm addr u a) o := by
  have hmake := World.make_grows (w := w) (u := u) (a := a)
  unfold World.getOrCreateProfileLlm
  split
  · exact ⟨h, hs⟩
  · rename_i hnone
    obtain ⟨w', hadd⟩ := World.add_of_none (w := w.make u a) (p := w.next) addr
      (by rw [World.make_usageId, hmake.get, hnone])
    rw [hadd, Option.getD_some]
    obtain ⟨hoff, -, hllm⟩ := (h.make hw).add hw.make h.lt.ne hadd
    refine ⟨hoff, hs.keep (hllm.trans (hmake.llms o h.lt)) ((World.add_agentReady hadd).trans hmake.agentReady)
      fun v _ hv => ?_⟩
    rw [World.get_add hadd, hmake.get]
    split
    · exact Option.some_ne_none _
    · exact hv

theorem Off.switchLlm [DecidableEq C] (h : Off addr w o) (hs : Settled w o) (hw : WellFormed w) :
    Off addr (w.switchLlm addr u a) o ∧ Settled (w.switchLlm addr u a) o := by
  have hmake := World.make_grows (w := w) (u := u) (a := a)
  have husage := World.make_usageId (w := w) (u := u) (a := a)
  have hmade : Off addr (w.make u a) o := h.make hw
  have hllm := hmake.llms o h.lt
  have hne : o ≠ w.next := h.lt.ne
  unfold World.switchLlm
  simp only
  split
  · rename_i r hr
    split
    · obtain ⟨hoff, hl⟩ := hmade.install hw.make r
      refine ⟨hoff, hs.keep (hl.trans hllm) ((World.install_agentReady _ _).trans hmake.agentReady) fun v hv hget => ?_⟩
      rw [World.get_install _ _ hv, hmake.get]
      exact hget
    · have hrem : Off addr ((w.make u a).remove u) o :=
        ⟨hmade.lt, hmade.wired, hmade.known, hmade.unrecorded, hmade.shared⟩
      have hnone : ((w.make u a).remove u).get (((w.make u a).remove u).llms w.next).usageId = none := by
        have husage' : (((w.make u a).remove u).llms w.next).usageId = u := husage
        rw [husage', World.get_remove, if_pos rfl]
      obtain ⟨w', hadd⟩ := World.add_of_none addr hnone
      rw [hadd, Option.getD_some]
      obtain ⟨hoff, htel, hl⟩ := hrem.add (hw.make.remove u) hne hadd
      have hw' := (hw.make.remove u).add hadd
      have hrest := hoff.restoreMetrics hne htel (w'.llms r).metrics
      obtain ⟨hinst, hl'⟩ := hrest.install (hw'.restoreMetrics (hw'.metrics r) w.next) w.next
      refine ⟨hinst, hs.keep ?_ ?_ fun v hv hget => ?_⟩
      · rw [hl', World.restoreMetrics_llms hne, hl]
        exact hllm
      · rw [World.install_agentReady]
        exact (World.add_agentReady hadd).trans hmake.agentReady
      · rw [World.get_install _ _ hv]
        have hkept : (w'.restoreMetrics w.next (w'.llms r).metrics).get v = w'.get v := rfl
        rw [hkept, World.get_add hadd, World.get_remove]
        have husage' : (((w.make u a).remove u).llms w.next).usageId = u := husage
        rw [husage']
        split
        · exact Option.some_ne_none _
        · rw [hmake.get]
          exact hget
  · rename_i hr
    obtain ⟨w', hadd⟩ := World.add_of_none (w := w.make u a) (p := w.next) addr (by rw [husage, hr])
    rw [hadd, Option.getD_some]
    obtain ⟨hoff, -, hl⟩ := hmade.add hw.make hne hadd
    obtain ⟨hinst, hl'⟩ := hoff.install (hw.make.add hadd) w.next
    refine ⟨hinst, hs.keep (hl'.trans (hl.trans hllm)) ?_ fun v hv hget => ?_⟩
    · rw [World.install_agentReady]
      exact (World.add_agentReady hadd).trans hmake.agentReady
    · rw [World.get_install _ _ hv, World.get_add hadd, hmake.get]
      split
      · exact Option.some_ne_none _
      · exact hget

theorem Off.addAll {os : List Nat} (h : Off addr w o) (hw : WellFormed w) (hget : w.get (w.llms o).usageId ≠ none) :
    Off addr (os.foldl (fun w o => (w.add addr o).getD w) w) o := by
  induction os generalizing w with
  | nil => exact h
  | cons p os ih =>
    rw [List.foldl_cons]
    cases hadd : w.add addr p with
    | none => exact ih h hw hget
    | some w' =>
      have hne : o ≠ p := by
        rintro rfl
        exact hget (World.add_some hadd).1
      obtain ⟨hoff, -, hl⟩ := h.add hw hne hadd
      refine ih hoff (hw.add hadd) ?_
      rw [Option.getD_some, hl, World.get_add hadd]
      split
      · exact Option.some_ne_none _
      · exact hget

theorem Off.ensureAgentReady (h : Off addr w o) (hs : Settled w o) (hw : WellFormed w) :
    Off addr (w.ensureAgentReady addr) o ∧ (w.ensureAgentReady addr).agentReady = true := by
  unfold World.ensureAgentReady
  split
  · exact ⟨h, ‹_›⟩
  · rename_i hready
    obtain ⟨-, hget⟩ := hs.resolve_left hready
    have hsub : Off addr { w with registry := { w.registry with subscribed := true } } o :=
      ⟨h.lt, h.wired, h.known, h.unrecorded, h.shared⟩
    have hwsub : WellFormed { w with registry := { w.registry with subscribed := true } } :=
      ⟨hw.telemetries, hw.metrics, hw.usages⟩
    have hall : Off addr (w.getAllLlms.foldl (fun w o => (w.add addr o).getD w)
        { w with registry := { w.registry with subscribed := true } }) o := hsub.addAll hwsub hget
    obtain ⟨h1, h2, h3, h4, h5⟩ := hall
    exact ⟨⟨h1, h2, h3, h4, h5⟩, rfl⟩

/-- No step records what the LLM spends. -/
theorem Off.apply [DecidableEq C] (h : Off addr w o) (hs : Settled w o) (hw : WellFormed w) (op : Op C) :
    Off addr (w.apply addr op) o ∧ Settled (w.apply addr op) o := by
  cases op with
  | ensureAgentReady =>
    obtain ⟨hoff, hready⟩ := h.ensureAgentReady hs hw
    exact ⟨hoff, .inl hready⟩
  | switchLlm u a => exact h.switchLlm hs hw
  | getOrCreateProfileLlm u a => exact h.getOrCreateProfileLlm hs hw
  | askAgent r =>
    obtain ⟨hoff, hready⟩ := h.ensureAgentReady hs hw
    obtain ⟨hoff', hs'⟩ := hoff.getOrCreateProfileLlm (u := askAgentLlmUsageId)
      (a := { copyOf := some (w.ensureAgentReady addr).agentLlm
              model := ((w.ensureAgentReady addr).llms (w.ensureAgentReady addr).agentLlm).model
              stream := false
              settings := ((w.ensureAgentReady addr).llms (w.ensureAgentReady addr).agentLlm).settings })
      (.inl hready) hw.ensureAgentReady
    simp only [World.apply, World.askAgent]
    split
    · exact ⟨hoff'.charge _ _ _, hs'⟩
    · exact ⟨hoff', hs'⟩
  | call p r => exact ⟨h.charge _ _ _, hs⟩
  | fallback p spent => exact ⟨h.charge _ _ _, hs⟩

theorem Off.reaches [DecidableEq C] (h : Off addr w o) (hs : Settled w o) (hw : WellFormed w)
    (hr : Reaches (World.step addr) (fun _ _ => True) w w') : Off addr w' o := by
  have hinv : WellFormed w' ∧ Off addr w' o ∧ Settled w' o := by
    refine hr.invariant (I := fun w => WellFormed w ∧ Off addr w o ∧ Settled w o) ⟨hw, h, hs⟩
      fun s op t hs _ hstep => ?_
    obtain rfl := Option.some.inj hstep
    exact ⟨hs.1.apply op, hs.2.1.apply hs.2.2 hs.1 op⟩
  exact hinv.2.1

/-- What goes to metrics that no usage has. -/
theorem charge_unrecorded (h : ∀ e ∈ w.stats.usageToMetrics, e.2 ≠ m) (p : Nat) (ops : List Metrics.Op) :
    (∀ v, (w.charge p m ops).metricsForUsage v = w.metricsForUsage v) ∧
      (w.charge p m ops).combinedMetrics = w.combinedMetrics := by
  constructor
  · intro v
    show (w.stats.usageToMetrics.lookup v).map (Function.update w.metrics _ _) = _
    rw [World.metricsForUsage]
    cases hv : w.stats.usageToMetrics.lookup v with
    | none => rfl
    | some cell =>
      rw [Option.map_some, Option.map_some, Function.update_of_ne (h _ (Lib.mem_of_lookup hv))]
  · refine List.foldl_ext _ _ _ fun total e he => ?_
    show total.merge (Function.update w.metrics _ _ e.2) = _
    rw [Function.update_of_ne (h e he)]

/-! ## How an LLM gets off the books -/

/-- Registering an LLM that the statistics do not hear of, or leave alone. -/
theorem Off.of_add (hw : WellFormed w) (hlt : p < w.next)
    (hp : addr (w.llms p).metrics ∈ w.registry.metricsIds ∨
      w.telemetries (w.llms p).telemetry = (w.llms p).metrics ∧
      (∀ e ∈ w.stats.usageToMetrics, e.2 ≠ (w.llms p).metrics) ∧
      ∀ q, (w.llms q).telemetry = (w.llms p).telemetry → (w.llms q).metrics = (w.llms p).metrics)
    (hout : w.registry.subscribed = false ∨
      (w.llms p).usageId ∈ w.stats.usageToMetrics.map Prod.fst ∧ (w.llms p).usageId ∈ w.stats.restoredUsageIds)
    (hadd : w.add addr p = some w') : Off addr w' p := by
  have hi := World.independent addr w p
  have hoff : Off addr ((w.ensureIndependentMetrics addr p).enlist p) p := by
    refine ⟨hlt.trans_le hi.next, ?_, hi.knownNow, fun e he => ?_, fun q hq => ?_⟩
    · show (w.ensureIndependentMetrics addr p).telemetries ((w.ensureIndependentMetrics addr p).llms p).telemetry =
        ((w.ensureIndependentMetrics addr p).llms p).metrics
      rcases hi.own with ⟨hm, ht, hin, -⟩ | ⟨hm, ht, hwired, -⟩
      · rw [hm, ht, hi.telemetries _ (hw.telemetries p)]
        exact (hp.resolve_left hin).1
      · rw [hm, ht, hwired]
    · show e.2 ≠ ((w.ensureIndependentMetrics addr p).llms p).metrics
      have he : e ∈ w.stats.usageToMetrics := hi.stats ▸ he
      rcases hi.own with ⟨hm, -, hin, -⟩ | ⟨hm, -⟩
      · rw [hm]
        exact (hp.resolve_left hin).2.1 e he
      · rw [hm]
        exact (hw.usages e he).ne
    · show ((w.ensureIndependentMetrics addr p).llms q).metrics = ((w.ensureIndependentMetrics addr p).llms p).metrics
      have hq : ((w.ensureIndependentMetrics addr p).llms q).telemetry =
          ((w.ensureIndependentMetrics addr p).llms p).telemetry := hq
      by_cases hqp : q = p
      · rw [hqp]
      · rw [hi.llms q hqp] at hq ⊢
        rcases hi.own with ⟨hm, ht, hin, -⟩ | ⟨hm, ht, -⟩
        · rw [hm]
          exact (hp.resolve_left hin).2.2 q (hq.trans ht)
        · rw [ht] at hq
          exact absurd hq (hw.telemetries q).ne
  rcases (World.add_some hadd).2 with ⟨rfl, -⟩ | ⟨rfl, hsub⟩
  · exact hoff
  · obtain ⟨hmem, hrest⟩ := hout.resolve_left (by simp [hsub])
    -- the statistics know the usage and restored it before
    have hkeep : ((w.ensureIndependentMetrics addr p).enlist p).registerLlm p =
        (w.ensureIndependentMetrics addr p).enlist p := by
      have hsome : w.stats.usageToMetrics.lookup (w.llms p).usageId ≠ none := by
        intro hnone
        obtain ⟨e, he, heq⟩ := List.mem_map.mp hmem
        simpa [heq] using List.lookup_eq_none_iff.mp hnone e he
      obtain ⟨m, hm⟩ := Option.ne_none_iff_exists'.mp hsome
      have hlookup : ((w.ensureIndependentMetrics addr p).enlist p).stats.usageToMetrics.lookup
          (((w.ensureIndependentMetrics addr p).enlist p).llms p).usageId = some m := by
        show (w.ensureIndependentMetrics addr p).stats.usageToMetrics.lookup
          ((w.ensureIndependentMetrics addr p).llms p).usageId = _
        rw [hi.stats, hi.usageId, hm]
      have hrest : (((w.ensureIndependentMetrics addr p).enlist p).llms p).usageId ∈
          ((w.ensureIndependentMetrics addr p).enlist p).stats.restoredUsageIds := by
        show ((w.ensureIndependentMetrics addr p).llms p).usageId ∈
          (w.ensureIndependentMetrics addr p).stats.restoredUsageIds
        rw [hi.stats, hi.usageId]
        exact hrest
      simp only [World.registerLlm, hlookup, if_pos hrest]
    rw [hkeep]
    exact hoff

/-- The LLM that a step registers, with a usage id that was free. -/
def Op.registers (w : World C) : Op C → Option (String × LlmArg C)
  | .switchLlm usageId a => if w.get usageId = none then some (usageId, a) else none
  | .getOrCreateProfileLlm usageId a => if w.get usageId = none then some (usageId, a) else none
  | .askAgent _ =>
    if w.agentReady = true ∧ w.get askAgentLlmUsageId = none then
      some (askAgentLlmUsageId, { copyOf := some w.agentLlm, model := (w.llms w.agentLlm).model, stream := false,
                                  settings := (w.llms w.agentLlm).settings })
    else none
  | _ => none

theorem Off.of_made (hw : WellFormed w) (hd : Detected addr w a)
    (hout : w.registry.subscribed = false ∨ u ∈ w.stats.usageToMetrics.map Prod.fst ∧ u ∈ w.stats.restoredUsageIds)
    (hnone : w.get u = none) :
    ∃ w', (w.make u a).add addr w.next = some w' ∧ WellFormed w' ∧ Off addr w' w.next ∧ w'.get u = some w.next ∧
      (w'.llms w.next).usageId = u ∧ w'.agentReady = w.agentReady := by
  have hmake := World.make_grows (w := w) (u := u) (a := a)
  have husage := World.make_usageId (w := w) (u := u) (a := a)
  obtain ⟨w', hadd⟩ := World.add_of_none (w := w.make u a) (p := w.next) addr (by rw [husage, hmake.get, hnone])
  have hp : addr ((w.make u a).llms w.next).metrics ∈ (w.make u a).registry.metricsIds ∨
      (w.make u a).telemetries ((w.make u a).llms w.next).telemetry = ((w.make u a).llms w.next).metrics ∧
      (∀ e ∈ (w.make u a).stats.usageToMetrics, e.2 ≠ ((w.make u a).llms w.next).metrics) ∧
      ∀ q, ((w.make u a).llms q).telemetry = ((w.make u a).llms w.next).telemetry →
        ((w.make u a).llms q).metrics = ((w.make u a).llms w.next).metrics := by
    rcases World.make_cases w u a with ⟨-, hm, ht, hwired⟩ | ⟨q, hq, hm, -⟩
    · right
      rw [hm, ht]
      refine ⟨hwired, fun e he => (hw.usages e (hmake.stats ▸ he)).ne, fun q hq => ?_⟩
      by_cases hqn : q = w.next
      · rw [hqn, hm]
      · rw [World.make_llms hqn] at hq
        exact absurd hq (hw.telemetries q).ne
    · left
      rw [hm, hmake.registry]
      exact hd q hq
  have hout' : (w.make u a).registry.subscribed = false ∨
      ((w.make u a).llms w.next).usageId ∈ (w.make u a).stats.usageToMetrics.map Prod.fst ∧
        ((w.make u a).llms w.next).usageId ∈ (w.make u a).stats.restoredUsageIds := by
    rw [husage, hmake.stats, hmake.registry]
    exact hout
  have hself : (w'.llms w.next).usageId = u := by
    have hi := World.independent addr (w.make u a) w.next
    rcases (World.add_some hadd).2 with ⟨rfl, -⟩ | ⟨rfl, -⟩
    · exact hi.usageId.trans husage
    · rw [World.registerLlm_usageId]
      exact hi.usageId.trans husage
  refine ⟨w', hadd, hw.make.add hadd, .of_add hw.make (by simp) hp hout' hadd, ?_, hself,
    (World.add_agentReady hadd).trans hmake.agentReady⟩
  rw [World.get_add hadd, husage, if_pos rfl]

end

section
variable {addr : Nat → Nat} {w w' : World C} {u : String} {a : LlmArg C}

theorem Off.of_registers [DecidableEq C] {op : Op C} (hw : WellFormed w) (hop : op.registers w = some (u, a))
    (hd : Detected addr w a)
    (hout : w.registry.subscribed = false ∨ u ∈ w.stats.usageToMetrics.map Prod.fst ∧ u ∈ w.stats.restoredUsageIds)
    (hu : w.agentReady = true ∨ u ≠ askAgentLlmUsageId) :
    Off addr (w.apply addr op) w.next ∧ Settled (w.apply addr op) w.next := by
  cases op with
  | switchLlm u' a' =>
    simp only [Op.registers, Option.ite_none_right_eq_some, Option.some.injEq, Prod.mk.injEq] at hop
    obtain ⟨hnone, rfl, rfl⟩ := hop
    obtain ⟨w₁, hadd, hw₁, hoff, hget, hself, hready⟩ := Off.of_made hw hd hout hnone
    have hgetm : (w.make u' a').get u' = none := by rw [World.make_grows.get, hnone]
    simp only [World.apply, World.switchLlm, hgetm, hadd, Option.getD_some]
    obtain ⟨hinst, hl⟩ := hoff.install hw₁ w.next
    refine ⟨hinst, ?_⟩
    rcases hu with hu | hu
    · left
      rw [World.install_agentReady, hready, hu]
    · right
      rw [hl, hself, World.get_install _ _ hu, hget]
      exact ⟨hu, Option.some_ne_none _⟩
  | getOrCreateProfileLlm u' a' =>
    simp only [Op.registers, Option.ite_none_right_eq_some, Option.some.injEq, Prod.mk.injEq] at hop
    obtain ⟨hnone, rfl, rfl⟩ := hop
    obtain ⟨w₁, hadd, -, hoff, hget, hself, hready⟩ := Off.of_made hw hd hout hnone
    simp only [World.apply, World.getOrCreateProfileLlm, hnone, hadd, Option.getD_some]
    refine ⟨hoff, ?_⟩
    rcases hu with hu | hu
    · left
      rw [hready, hu]
    · right
      rw [hself, hget]
      exact ⟨hu, Option.some_ne_none _⟩
  | askAgent r =>
    simp only [Op.registers, Option.ite_none_right_eq_some, Option.some.injEq, Prod.mk.injEq] at hop
    obtain ⟨⟨hready, hnone⟩, rfl, rfl⟩ := hop
    obtain ⟨w₁, hadd, -, hoff, hget, -, hready₁⟩ := Off.of_made hw hd hout hnone
    have hstart : w.ensureAgentReady addr = w := if_pos hready
    simp only [World.apply, World.askAgent, hstart, World.getOrCreateProfileLlm, hnone, hadd, Option.getD_some, hget]
    exact ⟨hoff.charge _ _ _, .inl (hready₁.trans hready)⟩
  | ensureAgentReady => cases hop
  | call o r => cases hop
  | fallback o spent => cases hop

/-- An LLM registered before the statistics listen, or under a usage id whose metrics they restored before, is off
the books for good: whatever follows, no usage and no total has any of its spending. -/
theorem unrecorded_forever [DecidableEq C] {op : Op C} (hw : WellFormed w) (hop : op.registers w = some (u, a))
    (hd : Detected addr w a)
    (hout : w.registry.subscribed = false ∨ u ∈ w.stats.usageToMetrics.map Prod.fst ∧ u ∈ w.stats.restoredUsageIds)
    (hu : w.agentReady = true ∨ u ≠ askAgentLlmUsageId)
    (h : Reaches (World.step addr) (fun _ _ => True) (w.apply addr op) w') (r : LlmResponse) (spent : Metrics) :
    (∀ v, (w'.call w.next r).metricsForUsage v = w'.metricsForUsage v) ∧
      (w'.call w.next r).combinedMetrics = w'.combinedMetrics ∧
      (∀ v, (w'.fallback w.next spent).metricsForUsage v = w'.metricsForUsage v) ∧
      (w'.fallback w.next spent).combinedMetrics = w'.combinedMetrics := by
  obtain ⟨hoff, hs⟩ := Off.of_registers hw hop hd hout hu
  have hoff' := hoff.reaches hs (hw.apply op) h
  have hcall : w'.call w.next r = w'.charge w.next (w'.llms w.next).metrics r.onResponse := by
    rw [World.call, hoff'.wired]
  rw [hcall]
  obtain ⟨hcalled, hcalledTotal⟩ := charge_unrecorded hoff'.unrecorded w.next r.onResponse
  obtain ⟨hmerged, hmergedTotal⟩ := charge_unrecorded hoff'.unrecorded w.next [.merge spent]
  exact ⟨hcalled, hcalledTotal, hmerged, hmergedTotal⟩

end

/-- A new conversation whose agent gets another LLM before its first message. -/
def unstarted : World Unit where
  llms _ := ⟨"default", "large", true, (), 1, 0⟩
  telemetries _ := 1
  metrics _ := {}
  next := 2
  agentLlm := 0

theorem unrecorded_forever_unstarted : ∃ w', Reaches (World.step id) (fun _ _ => True)
      (unstarted.apply id (.switchLlm "profile:small" { model := "small", stream := true, settings := () })) w' ∧
    (w'.call unstarted.next answered).combinedMetrics = w'.combinedMetrics := by
  have hw : WellFormed unstarted := ⟨fun _ => (by decide : 0 < 2), fun _ => (by decide : 1 < 2), by decide⟩
  have hrun : Reaches (World.step id) (fun _ _ => True)
      (unstarted.apply id (.switchLlm "profile:small" { model := "small", stream := true, settings := () }))
      ((unstarted.apply id (.switchLlm "profile:small" { model := "small", stream := true, settings := () })).apply id
        .ensureAgentReady) := Reaches.init.step trivial rfl
  exact ⟨_, hrun, (unrecorded_forever hw (by rfl) (by decide) (.inl rfl) (.inr (by decide)) hrun answered {}).2.1⟩

/-! ## Forks -/

/-- `model_copy(deep=True)` of the statistics of `source`: new metrics objects with what the old ones have. The
restored usage ids come along. -/
def World.forkStats (w source : World C) : World C :=
  { w with
    metrics := fun m => if m < w.next then w.metrics m else
      ((source.stats.usageToMetrics[m - w.next]?).map fun e => source.metrics e.2).getD (w.metrics m)
    next := w.next + source.stats.usageToMetrics.length
    stats := {
      usageToMetrics := source.stats.usageToMetrics.mapIdx fun i e => (e.1, w.next + i)
      restoredUsageIds := source.stats.restoredUsageIds } }

section
variable {addr : Nat → Nat} {w w' source : World C}

theorem forkStats_keys : (w.forkStats source).stats.usageToMetrics.map Prod.fst =
    source.stats.usageToMetrics.map Prod.fst := by
  refine List.ext_getElem (by simp [World.forkStats]) fun i h1 h2 => ?_
  simp [World.forkStats]

theorem forkStats_cell {e : String × Nat} (he : e ∈ (w.forkStats source).stats.usageToMetrics) :
    w.next ≤ e.2 ∧ e.2 < (w.forkStats source).next := by
  obtain ⟨i, hi, rfl⟩ := List.mem_iff_getElem.mp he
  have hlen : i < source.stats.usageToMetrics.length := by simpa [World.forkStats] using hi
  simp [World.forkStats]
  omega

/-- The copy has what the source has recorded. -/
theorem forkStats_metricsForUsage (hk : (source.stats.usageToMetrics.map Prod.fst).Nodup) (u : String) :
    (w.forkStats source).metricsForUsage u = source.metricsForUsage u := by
  have hkeys : (w.forkStats source).stats.usageToMetrics.map Prod.fst = source.stats.usageToMetrics.map Prod.fst :=
    forkStats_keys
  rw [World.metricsForUsage, World.metricsForUsage]
  cases hl : source.stats.usageToMetrics.lookup u with
  | none =>
    have hnone : (w.forkStats source).stats.usageToMetrics.lookup u = none := by
      refine List.lookup_eq_none_iff.mpr fun e he => ?_
      have hmem : e.1 ∈ source.stats.usageToMetrics.map Prod.fst := hkeys ▸ List.mem_map_of_mem he
      obtain ⟨e', he', heq⟩ := List.mem_map.mp hmem
      rw [← heq]
      exact List.lookup_eq_none_iff.mp hl e' he'
    rw [hnone]
    rfl
  | some cell =>
    obtain ⟨i, hi, hget⟩ := List.mem_iff_getElem.mp (Lib.mem_of_lookup hl)
    have hmem : (u, w.next + i) ∈ (w.forkStats source).stats.usageToMetrics := by
      refine List.mem_iff_getElem.mpr ⟨i, by simpa [World.forkStats] using hi, ?_⟩
      simp [World.forkStats, hget]
    rw [Lib.lookup_of_mem (hkeys ▸ hk) hmem, Option.map_some, Option.map_some]
    have hlast : ¬w.next + i < w.next := by omega
    simp [World.forkStats, hlast, hi, hget]

theorem Initial.forkStats (h : Initial w) (hk : (source.stats.usageToMetrics.map Prod.fst).Nodup) :
    Initial (w.forkStats source) where
  registry := h.registry
  agentReady := h.agentReady
  calls := h.calls
  keys := by
    rw [forkStats_keys]
    exact hk
  cells := by
    have hcells : (w.forkStats source).stats.usageToMetrics.map Prod.snd =
        (List.range source.stats.usageToMetrics.length).map (w.next + ·) := by
      refine List.ext_getElem (by simp [World.forkStats]) fun i h1 h2 => ?_
      simp [World.forkStats]
    rw [hcells]
    exact List.nodup_range.map fun a b hab => Nat.add_left_cancel hab
  bound e he := (forkStats_cell he).2
  lt o ho := (h.lt o ho).trans_le (Nat.le_add_right _ _)
  telemetryLt o ho := (h.telemetryLt o ho).trans_le (Nat.le_add_right _ _)
  metricsLt o ho := (h.metricsLt o ho).trans_le (Nat.le_add_right _ _)
  wired := h.wired
  unrecorded o ho e he := ((h.metricsLt o ho).trans_le (forkStats_cell he).1).ne'

theorem Off.of_start (hinit : Initial w) (hw : WellFormed w)
    (hwired : ∀ p, w.telemetries (w.llms p).telemetry = (w.llms p).metrics)
    (hmem : (w.llms w.agentLlm).usageId ∈ w.stats.usageToMetrics.map Prod.fst)
    (hrest : (w.llms w.agentLlm).usageId ∈ w.stats.restoredUsageIds) :
    Off addr (w.ensureAgentReady addr) w.agentLlm ∧ (w.ensureAgentReady addr).agentReady = true := by
  obtain ⟨os, hos⟩ := List.head?_eq_some_iff.mp w.head_getAllLlms
  have hfirst : w.agentLlm ∈ w.getAllLlms := by
    rw [hos]
    exact List.mem_cons_self
  have hnone : ∀ v, w.get v = none := fun v => by
    rw [World.get, hinit.registry]
    rfl
  have hsub : WellFormed { w with registry := { w.registry with subscribed := true } } :=
    ⟨hw.telemetries, hw.metrics, hw.usages⟩
  obtain ⟨w₁, hadd⟩ := World.add_of_none (w := { w with registry := { w.registry with subscribed := true } })
    (p := w.agentLlm) addr (hnone _)
  have hoff : Off addr w₁ w.agentLlm := by
    refine .of_add hsub (hinit.lt _ hfirst) (.inr ⟨hinit.wired _ hfirst, hinit.unrecorded _ hfirst, fun q hq => ?_⟩)
      (.inr ⟨hmem, hrest⟩) hadd
    have hq : (w.llms q).telemetry = (w.llms w.agentLlm).telemetry := hq
    show (w.llms q).metrics = (w.llms w.agentLlm).metrics
    rw [← hwired, hq, hwired]
  have hself : (w₁.llms w.agentLlm).usageId = (w.llms w.agentLlm).usageId := by
    have hi := World.independent addr { w with registry := { w.registry with subscribed := true } } w.agentLlm
    rcases (World.add_some hadd).2 with ⟨rfl, -⟩ | ⟨rfl, -⟩
    · exact hi.usageId
    · rw [World.registerLlm_usageId]
      exact hi.usageId
  have hget : w₁.get (w₁.llms w.agentLlm).usageId ≠ none := by
    rw [hself, World.get_add hadd, if_pos rfl]
    exact Option.some_ne_none _
  have hall : Off addr (w.getAllLlms.foldl (fun w o => (w.add addr o).getD w)
      { w with registry := { w.registry with subscribed := true } }) w.agentLlm := by
    rw [hos, List.foldl_cons, hadd, Option.getD_some]
    exact hoff.addAll (hsub.add hadd) hget
  unfold World.ensureAgentReady
  rw [if_neg (by simp [hinit.agentReady])]
  obtain ⟨h1, h2, h3, h4, h5⟩ := hall
  exact ⟨⟨h1, h2, h3, h4, h5⟩, rfl⟩

/-- A fork that keeps the metrics of a conversation in which the usage of the agent was restored starts with all
that was recorded, and records nothing that its agent spends. -/
theorem fork_unrecorded [DecidableEq C] (hinit : Initial w) (hw : WellFormed w)
    (hwired : ∀ p, w.telemetries (w.llms p).telemetry = (w.llms p).metrics) (hsource : Tracked source)
    (hmem : (w.llms w.agentLlm).usageId ∈ source.stats.usageToMetrics.map Prod.fst)
    (hrest : (w.llms w.agentLlm).usageId ∈ source.stats.restoredUsageIds)
    (h : Reaches (World.step addr) (fun _ _ => True) ((w.forkStats source).ensureAgentReady addr) w') (r : LlmResponse)
    (spent : Metrics) :
    (∀ v, (w.forkStats source).metricsForUsage v = source.metricsForUsage v) ∧
      (∀ v, (w'.call w.agentLlm r).metricsForUsage v = w'.metricsForUsage v) ∧
      (w'.call w.agentLlm r).combinedMetrics = w'.combinedMetrics ∧
      (∀ v, (w'.fallback w.agentLlm spent).metricsForUsage v = w'.metricsForUsage v) ∧
      (w'.fallback w.agentLlm spent).combinedMetrics = w'.combinedMetrics := by
  have hinit' : Initial (w.forkStats source) := hinit.forkStats hsource.keys
  have hw' : WellFormed (w.forkStats source) :=
    ⟨fun p => (hw.telemetries p).trans_le (Nat.le_add_right _ _),
      fun p => (hw.metrics p).trans_le (Nat.le_add_right _ _), fun e he => (forkStats_cell he).2⟩
  have hstart : Off addr ((w.forkStats source).ensureAgentReady addr) w.agentLlm ∧
      ((w.forkStats source).ensureAgentReady addr).agentReady = true :=
    Off.of_start hinit' hw' hwired (by rw [forkStats_keys]; exact hmem) hrest
  obtain ⟨hoff, hready⟩ := hstart
  have hoff' : Off addr w' w.agentLlm := hoff.reaches (.inl hready) hw'.ensureAgentReady h
  have hcall : w'.call w.agentLlm r = w'.charge w.agentLlm (w'.llms w.agentLlm).metrics r.onResponse := by
    rw [World.call, hoff'.wired]
  rw [hcall]
  obtain ⟨hcalled, hcalledTotal⟩ := charge_unrecorded hoff'.unrecorded w.agentLlm r.onResponse
  obtain ⟨hmerged, hmergedTotal⟩ := charge_unrecorded hoff'.unrecorded w.agentLlm [.merge spent]
  exact ⟨forkStats_metricsForUsage hsource.keys, hcalled, hcalledTotal, hmerged, hmergedTotal⟩

end

theorem fork_unrecorded_resumed : ∃ w', Reaches (World.step id) (fun _ _ => True)
      ((unstarted.forkStats (resumed.ensureAgentReady id)).ensureAgentReady id) w' ∧
    (w'.call unstarted.agentLlm answered).combinedMetrics = w'.combinedMetrics := by
  have hinit : Initial unstarted := ⟨rfl, rfl, rfl, by decide, by decide, by decide, by decide, by decide, by decide,
    by decide, by decide⟩
  have hw : WellFormed unstarted := ⟨fun _ => (by decide : 0 < 2), fun _ => (by decide : 1 < 2), by decide⟩
  have hresumed : Initial resumed := ⟨rfl, rfl, rfl, by decide, by decide, by decide, by decide, by decide, by decide,
    by decide, by decide⟩
  have hsource : Sound (resumed.ensureAgentReady id) := (hresumed.sound (by decide)).1
  have hrun : Reaches (World.step id) (fun _ _ => True)
      ((unstarted.forkStats (resumed.ensureAgentReady id)).ensureAgentReady id)
      ((unstarted.forkStats (resumed.ensureAgentReady id)).ensureAgentReady id) := .init
  exact ⟨_, hrun, (fork_unrecorded hinit hw (fun _ => rfl) hsource.toTracked (by decide) (by decide) hrun answered
    {}).2.2.1⟩

/-! ## A condenser that follows a switch -/

/-- The LLM `k` shares nothing and is not in the registry. -/
structure Loose (w : World C) (k : Nat) : Prop where
  lt : k < w.next
  wired : w.telemetries (w.llms k).telemetry = (w.llms k).metrics
  unrecorded : ∀ e ∈ w.stats.usageToMetrics, e.2 ≠ (w.llms k).metrics
  alone : ∀ p ≠ k, (w.llms p).metrics ≠ (w.llms k).metrics ∧ (w.llms p).telemetry ≠ (w.llms k).telemetry
  free : ∀ v, w.get v ≠ some k
  notAgent : w.agentLlm ≠ k
  ready : w.agentReady = true

/-- The caller has no copy of `k`. -/
def Leaves (k : Nat) : Op C → Prop
  | .switchLlm _ a => a.copyOf ≠ some k
  | .getOrCreateProfileLlm _ a => a.copyOf ≠ some k
  | _ => True

section
variable {addr : Nat → Nat} {w w' : World C} {u v : String} {k o p q m : Nat} {a : LlmArg C}

theorem World.make_condenserLlm : (w.make u a).condenserLlm = w.condenserLlm := by
  unfold World.make
  split <;> rfl

theorem Loose.make (h : Loose w k) (hw : WellFormed w) (ha : a.copyOf ≠ some k) : Loose (w.make u a) k := by
  have hmake := World.make_grows (w := w) (u := u) (a := a)
  have hllm := hmake.llms k h.lt
  refine ⟨h.lt.trans_le hmake.next, ?_, fun e he => ?_, fun p hp => ?_, fun v => ?_, ?_, hmake.agentReady.trans h.ready⟩
  · rw [hllm, hmake.telemetries _ (hw.telemetries k), h.wired]
  · rw [hllm]
    exact h.unrecorded e (hmake.stats ▸ he)
  · rw [hllm]
    by_cases hpn : p = w.next
    · rw [hpn]
      rcases World.make_cases w u a with ⟨-, hm, ht, -⟩ | ⟨q, hq, hm, ht⟩
      · rw [hm, ht]
        exact ⟨(hw.metrics k).ne', (hw.telemetries k).ne'⟩
      · rw [hm, ht]
        refine h.alone q ?_
        rintro rfl
        exact ha hq
    · rw [World.make_llms hpn]
      exact h.alone p hp
  · rw [hmake.get]
    exact h.free v
  · rw [World.make_agentLlm]
    exact h.notAgent

theorem Loose.resetMetrics (h : Loose w k) (hw : WellFormed w) (hp : k ≠ p) : Loose (w.resetMetrics p) k := by
  have hllm := World.resetMetrics_llms (w := w) hp
  refine ⟨h.lt.trans (Nat.lt_succ_self _), ?_, ?_, fun q hq => ?_, h.free, h.notAgent, h.ready⟩
  · rw [hllm, ← h.wired]
    exact Function.update_of_ne (hw.telemetries k).ne ..
  · rw [hllm]
    exact h.unrecorded
  · rw [hllm]
    by_cases hqp : q = p
    · rw [hqp, World.resetMetrics_self]
      exact ⟨(hw.metrics k).ne', (hw.telemetries k).ne'⟩
    · rw [World.resetMetrics_llms hqp]
      exact h.alone q hq

theorem Loose.restoreMetrics (h : Loose w k) (hp : k ≠ p) (hm : m ≠ (w.llms k).metrics) :
    Loose (w.restoreMetrics p m) k := by
  have hllm := World.restoreMetrics_llms (w := w) (m := m) hp
  refine ⟨h.lt, ?_, ?_, fun q hq => ?_, h.free, h.notAgent, h.ready⟩
  · rw [hllm, ← h.wired]
    exact Function.update_of_ne (h.alone p hp.symm).2.symm ..
  · rw [hllm]
    exact h.unrecorded
  · rw [hllm]
    by_cases hqp : q = p
    · rw [hqp, World.restoreMetrics_self]
      exact ⟨hm, (h.alone p hp.symm).2⟩
    · rw [World.restoreMetrics_llms hqp]
      exact h.alone q hq

theorem Loose.remove (h : Loose w k) (u : String) : Loose (w.remove u) k := by
  refine ⟨h.lt, h.wired, h.unrecorded, h.alone, fun v hv => ?_, h.notAgent, h.ready⟩
  rw [World.get_remove] at hv
  split at hv
  · cases hv
  · exact h.free v hv

theorem Loose.add (h : Loose w k) (hw : WellFormed w) (hp : k ≠ p) (hadd : w.add addr p = some w') : Loose w' k := by
  have hens : Loose (w.ensureIndependentMetrics addr p) k := by
    by_cases hmem : addr (w.llms p).metrics ∈ w.registry.metricsIds
    · rw [World.ensureIndependentMetrics_of_mem hmem]
      obtain ⟨h1, h2, h3, h4, h5, h6, h7⟩ := h.resetMetrics hw hp
      exact ⟨h1, h2, h3, h4, h5, h6, h7⟩
    · rw [World.ensureIndependentMetrics_of_notMem hmem]
      exact ⟨h.lt, h.wired, h.unrecorded, h.alone, h.free, h.notAgent, h.ready⟩
  have hnone := (World.add_some hadd).1
  have hi := World.independent addr w p
  have henlist : Loose ((w.ensureIndependentMetrics addr p).enlist p) k := by
    refine ⟨hens.lt, hens.wired, hens.unrecorded, hens.alone, fun v hv => ?_, hens.notAgent, hens.ready⟩
    rw [World.get_enlist (by rw [hi.usageId, hi.get, hnone])] at hv
    split at hv
    · exact hp (Option.some.inj hv).symm
    · exact hens.free v hv
  rcases (World.add_some hadd).2 with ⟨rfl, -⟩ | ⟨rfl, -⟩
  · exact henlist
  rcases ((w.ensureIndependentMetrics addr p).enlist p).registerLlm_cases p with ⟨-, heq⟩ | ⟨m, hm, heq⟩ | heq
  · rw [heq]
    exact henlist
  · rw [heq]
    obtain ⟨h1, h2, h3, h4, h5, h6, h7⟩ := henlist.restoreMetrics hp (henlist.unrecorded _ (Lib.mem_of_lookup hm))
    exact ⟨h1, h2, h3, h4, h5, h6, h7⟩
  · rw [heq]
    refine ⟨henlist.lt, henlist.wired, fun e he => ?_, henlist.alone, henlist.free, henlist.notAgent, henlist.ready⟩
    rcases List.mem_append.mp he with he | he
    · exact henlist.unrecorded e he
    · obtain rfl := List.mem_singleton.mp he
      exact (henlist.alone p hp.symm).1

theorem Loose.install [DecidableEq C] (h : Loose w k) (hw : WellFormed w) (hp : k ≠ p) : Loose (w.install p) k := by
  have hcond : Loose (w.condenserForSwitchedLlm p) k := by
    unfold World.condenserForSwitchedLlm
    split
    · split
      · have hmade : ∀ u model stream settings, Loose ((w.make u
            { copyOf := some p, model, stream, settings }).resetMetrics w.next) k := fun u model stream settings =>
          (h.make hw fun heq => hp (Option.some.inj heq).symm).resetMetrics hw.make h.lt.ne
        obtain ⟨h1, h2, h3, h4, h5, h6, h7⟩ := hmade _ _ _ _
        exact ⟨h1, h2, h3, h4, h5, h6, h7⟩
      · exact h
    · exact h
  have hmoved : Loose { w.condenserForSwitchedLlm p with agentLlm := p } k :=
    ⟨hcond.lt, hcond.wired, hcond.unrecorded, hcond.alone, hcond.free, hp.symm, hcond.ready⟩
  exact hmoved.remove _

theorem Loose.getOrCreateProfileLlm (h : Loose w k) (hw : WellFormed w) (ha : a.copyOf ≠ some k) :
    Loose (w.getOrCreateProfileLlm addr u a) k := by
  unfold World.getOrCreateProfileLlm
  split
  · exact h
  · cases hadd : (w.make u a).add addr w.next with
    | none => exact h
    | some w' => exact (h.make hw ha).add hw.make h.lt.ne hadd

theorem Loose.switchLlm [DecidableEq C] (h : Loose w k) (hw : WellFormed w) (ha : a.copyOf ≠ some k) :
    Loose (w.switchLlm addr u a) k := by
  have hmade : Loose (w.make u a) k := h.make hw ha
  unfold World.switchLlm
  simp only
  split
  · rename_i r hr
    have hkr : k ≠ r := by
      rintro rfl
      exact hmade.free _ hr
    split
    · exact hmade.install hw.make hkr
    · have hadded : Loose ((((w.make u a).remove u).add addr w.next).getD (w.make u a)) k ∧
          WellFormed ((((w.make u a).remove u).add addr w.next).getD (w.make u a)) := by
        cases hadd : ((w.make u a).remove u).add addr w.next with
        | none => exact ⟨hmade, hw.make⟩
        | some w' => exact ⟨(hmade.remove u).add (hw.make.remove u) h.lt.ne hadd, (hw.make.remove u).add hadd⟩
      have hrest := hadded.1.restoreMetrics h.lt.ne (hadded.1.alone r hkr.symm).1
      exact hrest.install (hadded.2.restoreMetrics (hadded.2.metrics r) _) h.lt.ne
  · cases hadd : (w.make u a).add addr w.next with
    | none => exact hmade.install hw.make h.lt.ne
    | some w' => exact (hmade.add hw.make h.lt.ne hadd).install (hw.make.add hadd) h.lt.ne

theorem Loose.charge (h : Loose w k) (p m : Nat) (ops : List Metrics.Op) : Loose (w.charge p m ops) k :=
  ⟨h.lt, h.wired, h.unrecorded, h.alone, h.free, h.notAgent, h.ready⟩

theorem Loose.apply [DecidableEq C] {op : Op C} (h : Loose w k) (hw : WellFormed w) (hop : Leaves k op) :
    Loose (w.apply addr op) k := by
  have hstart : w.ensureAgentReady addr = w := if_pos h.ready
  cases op with
  | ensureAgentReady =>
    rw [World.apply, hstart]
    exact h
  | switchLlm u a => exact h.switchLlm hw hop
  | getOrCreateProfileLlm u a => exact h.getOrCreateProfileLlm hw hop
  | askAgent r =>
    have hasked : ∀ a : LlmArg C, a.copyOf = some w.agentLlm →
        Loose (w.getOrCreateProfileLlm addr askAgentLlmUsageId a) k := fun a ha =>
      h.getOrCreateProfileLlm hw (by rw [ha]; exact fun heq => h.notAgent (Option.some.inj heq))
    simp only [World.apply, World.askAgent, hstart]
    split
    · exact (hasked _ rfl).charge _ _ _
    · exact hasked _ rfl
  | call p r => exact h.charge _ _ _
  | fallback p spent => exact h.charge _ _ _

/-- A condenser that follows the switch has an LLM that shares nothing. -/
theorem Loose.of_install [DecidableEq C] (hw : WellFormed w) (hready : w.agentReady = true)
    (hreg : ∀ v q, w.get v = some q → q < w.next) (hp : p < w.next) (hk : (w.install p).condenserLlm = some k)
    (hnew : w.condenserLlm ≠ some k) : Loose (w.install p) k := by
  have hmade : ∀ u a, Loose { (w.make u a).resetMetrics w.next with
      condenserLlm := some w.next, agentLlm := p } w.next := by
    intro u a
    have hmake := World.make_grows (w := w) (u := u) (a := a)
    have hwm := hw.make (u := u) (a := a)
    have hself := World.resetMetrics_self (w := w.make u a) (o := w.next)
    refine ⟨?_, ?_, fun e he => ?_, fun q hq => ?_, fun v hv => ?_, hp.ne, hmake.agentReady.trans hready⟩
    · exact (by simp : w.next < (w.make u a).next).trans (Nat.lt_succ_self _)
    · show ((w.make u a).resetMetrics w.next).telemetries (((w.make u a).resetMetrics w.next).llms w.next).telemetry =
        (((w.make u a).resetMetrics w.next).llms w.next).metrics
      rw [hself]
      exact Function.update_self ..
    · show e.2 ≠ (((w.make u a).resetMetrics w.next).llms w.next).metrics
      rw [hself]
      exact (hwm.usages e he).ne
    · show (((w.make u a).resetMetrics w.next).llms q).metrics ≠
          (((w.make u a).resetMetrics w.next).llms w.next).metrics ∧
        (((w.make u a).resetMetrics w.next).llms q).telemetry ≠
          (((w.make u a).resetMetrics w.next).llms w.next).telemetry
      rw [hself, World.resetMetrics_llms hq]
      exact ⟨(hwm.metrics q).ne, (hwm.telemetries q).ne⟩
    · have hv : (w.make u a).get v = some w.next := hv
      rw [hmake.get] at hv
      exact absurd (hreg v _ hv) (lt_irrefl _)
  cases hc : w.condenserLlm with
  | none =>
    have hsame : w.condenserForSwitchedLlm p = w := by simp only [World.condenserForSwitchedLlm, hc]
    rw [World.install, hsame] at hk
    exact absurd hk hnew
  | some c =>
    by_cases hcfg : World.sameConfig (w.llms c) (w.llms w.agentLlm) = true
    · unfold World.install World.condenserForSwitchedLlm at hk ⊢
      simp only [hc, if_pos hcfg] at hk ⊢
      obtain rfl : w.next = k := Option.some.inj hk
      exact (hmade _ _).remove _
    · have hsame : w.condenserForSwitchedLlm p = w := by simp only [World.condenserForSwitchedLlm, hc, if_neg hcfg]
      rw [World.install, hsame] at hk
      exact absurd hk hnew

theorem World.add_condenserLlm (hadd : w.add addr p = some w') : w'.condenserLlm = w.condenserLlm := by
  have hens : (w.ensureIndependentMetrics addr p).condenserLlm = w.condenserLlm := by
    by_cases hmem : addr (w.llms p).metrics ∈ w.registry.metricsIds
    · rw [World.ensureIndependentMetrics_of_mem hmem]
      rfl
    · rw [World.ensureIndependentMetrics_of_notMem hmem]
  rcases (World.add_some hadd).2 with ⟨rfl, -⟩ | ⟨rfl, -⟩
  · exact hens
  · rcases ((w.ensureIndependentMetrics addr p).enlist p).registerLlm_cases p with ⟨-, heq⟩ | ⟨m, -, heq⟩ | heq <;>
    · rw [heq]
      exact hens

theorem World.add_next (hadd : w.add addr p = some w') : w.next ≤ w'.next := by
  have hi := World.independent addr w p
  rcases (World.add_some hadd).2 with ⟨rfl, -⟩ | ⟨rfl, -⟩
  · exact hi.next
  · rcases ((w.ensureIndependentMetrics addr p).enlist p).registerLlm_cases p with ⟨-, heq⟩ | ⟨m, -, heq⟩ | heq <;>
    · rw [heq]
      exact hi.next

theorem Loose.of_switchLlm [DecidableEq C] (hw : WellFormed w) (hready : w.agentReady = true)
    (hreg : ∀ v q, w.get v = some q → q < w.next) (hk : (w.switchLlm addr u a).condenserLlm = some k)
    (hnew : w.condenserLlm ≠ some k) : Loose (w.switchLlm addr u a) k := by
  have hmake := World.make_grows (w := w) (u := u) (a := a)
  have husage := World.make_usageId (w := w) (u := u) (a := a)
  have hlt : w.next < (w.make u a).next := by simp
  have hregm : ∀ v q, (w.make u a).get v = some q → q < (w.make u a).next := by
    intro v q hv
    rw [hmake.get] at hv
    exact (hreg v q hv).trans hlt
  have hready' := hmake.agentReady.trans hready
  rw [← World.make_condenserLlm (w := w) (u := u) (a := a)] at hnew
  unfold World.switchLlm at hk ⊢
  simp only [hmake.get] at hk ⊢
  cases hget : w.get u with
  | none =>
    obtain ⟨w₁, hadd⟩ := World.add_of_none (w := w.make u a) (p := w.next) addr (by rw [husage, hmake.get, hget])
    simp only [hget, hadd, Option.getD_some] at hk ⊢
    have hnext := World.add_next hadd
    refine .of_install (hw.make.add hadd) ((World.add_agentReady hadd).trans hready') (fun v q hv => ?_)
      (hlt.trans_le hnext) hk (by rw [World.add_condenserLlm hadd]; exact hnew)
    rw [World.get_add hadd] at hv
    split at hv
    · obtain rfl := Option.some.inj hv
      exact hlt.trans_le hnext
    · exact (hregm v q hv).trans_le hnext
  | some r =>
    simp only [hget] at hk ⊢
    split at hk
    · rename_i hsame
      rw [if_pos hsame]
      exact .of_install hw.make hready' hregm ((hreg u r hget).trans hlt) hk hnew
    · rename_i hsame
      rw [if_neg hsame]
      have husage' : (((w.make u a).remove u).llms w.next).usageId = u := husage
      obtain ⟨w₁, hadd⟩ := World.add_of_none (w := (w.make u a).remove u) (p := w.next) addr
        (by rw [husage', World.get_remove, if_pos rfl])
      simp only [hadd, Option.getD_some] at hk ⊢
      have hnext := World.add_next hadd
      have hnext : (w.make u a).next ≤ w₁.next := hnext
      have hw₁ := (hw.make.remove u).add hadd
      refine .of_install (hw₁.restoreMetrics (hw₁.metrics r) _) ((World.add_agentReady hadd).trans hready')
        (fun v q hv => ?_) (hlt.trans_le hnext) hk ?_
      · have hv : w₁.get v = some q := hv
        rw [World.get_add hadd, World.get_remove] at hv
        split at hv
        · obtain rfl := Option.some.inj hv
          exact hlt.trans_le hnext
        · split at hv
          · cases hv
          · exact (hregm v q hv).trans_le hnext
      · show w₁.condenserLlm ≠ some k
        rw [World.add_condenserLlm hadd]
        exact hnew

/-- When the condenser follows a switch of the LLM, its new LLM is not registered: whatever follows, no usage and no
total has any of its spending. -/
theorem switched_condenser_unrecorded [DecidableEq C] (hw : WellFormed w) (ht : Tracked w)
    (hready : w.agentReady = true) (hk : (w.switchLlm addr u a).condenserLlm = some k) (hnew : w.condenserLlm ≠ some k)
    (h : Reaches (World.step addr) (fun _ op => Leaves k op) (w.switchLlm addr u a) w') (r : LlmResponse)
    (spent : Metrics) :
    (∀ v, (w'.call k r).metricsForUsage v = w'.metricsForUsage v) ∧
      (w'.call k r).combinedMetrics = w'.combinedMetrics ∧
      (∀ v, (w'.fallback k spent).metricsForUsage v = w'.metricsForUsage v) ∧
      (w'.fallback k spent).combinedMetrics = w'.combinedMetrics := by
  have hloose : Loose (w.switchLlm addr u a) k :=
    .of_switchLlm hw hready (fun v q hv => (ht.linked hv).lt) hk hnew
  have hinv : WellFormed w' ∧ Loose w' k := by
    refine h.invariant (I := fun w => WellFormed w ∧ Loose w k) ⟨hw.switchLlm, hloose⟩ fun s op t hs hop hstep => ?_
    obtain rfl := Option.some.inj hstep
    exact ⟨hs.1.apply op, hs.2.apply hs.1 hop⟩
  have hl := hinv.2
  have hcall : w'.call k r = w'.charge k (w'.llms k).metrics r.onResponse := by rw [World.call, hl.wired]
  rw [hcall]
  obtain ⟨hcalled, hcalledTotal⟩ := charge_unrecorded hl.unrecorded k r.onResponse
  obtain ⟨hmerged, hmergedTotal⟩ := charge_unrecorded hl.unrecorded k [.merge spent]
  exact ⟨hcalled, hcalledTotal, hmerged, hmergedTotal⟩

end

theorem switched_condenser_unrecorded_resumed : ∃ w', Reaches (World.step id) (fun _ op => Leaves 4 op)
      ((resumed.ensureAgentReady id).switchLlm id "profile:small" { model := "small", stream := true, settings := () })
      w' ∧ (w'.call 4 answered).combinedMetrics = w'.combinedMetrics := by
  have hw : WellFormed resumed := ⟨fun p => by
      show (if p = 0 then (⟨"default", "large", true, (), 1, 0⟩ : Llm Unit) else _).telemetry < 2
      split <;> decide, fun p => by
      show (if p = 0 then (⟨"default", "large", true, (), 1, 0⟩ : Llm Unit) else _).metrics < 2
      split <;> decide, by decide⟩
  have hresumed : Initial resumed := ⟨rfl, rfl, rfl, by decide, by decide, by decide, by decide, by decide, by decide,
    by decide, by decide⟩
  have hs : Sound (resumed.ensureAgentReady id) := (hresumed.sound (by decide)).1
  exact ⟨_, .init, (switched_condenser_unrecorded hw.ensureAgentReady hs.toTracked rfl (by decide) (by decide) .init
    answered {}).2.1⟩

/-! ## A total that counts twice -/

section
variable {addr : Nat → Nat} {w w' : World C} {u v : String} {o p m : Nat} {a : LlmArg C}

/-- What is recorded for a usage stays where it is. -/
def Prolongs (w w' : World C) : Prop := w.stats.usageToMetrics <+: w'.stats.usageToMetrics

theorem Prolongs.of_eq (h : w'.stats.usageToMetrics = w.stats.usageToMetrics) : Prolongs w w' := by
  rw [Prolongs, h]

theorem Prolongs.trans {w'' : World C} (h : Prolongs w w') (h' : Prolongs w' w'') : Prolongs w w'' :=
  List.IsPrefix.trans h h'

theorem prolongs_make : Prolongs w (w.make u a) := .of_eq (by rw [World.make_grows.stats])

theorem prolongs_add (hadd : w.add addr p = some w') : Prolongs w w' := by
  have hi := World.independent addr w p
  have henlist : Prolongs w ((w.ensureIndependentMetrics addr p).enlist p) :=
    .of_eq (congrArg ConversationStats.usageToMetrics hi.stats)
  rcases (World.add_some hadd).2 with ⟨rfl, -⟩ | ⟨rfl, -⟩
  · exact henlist
  · refine henlist.trans ?_
    rcases ((w.ensureIndependentMetrics addr p).enlist p).registerLlm_cases p with ⟨-, heq⟩ | ⟨m, -, heq⟩ | heq
    · rw [heq]
      exact .of_eq rfl
    · rw [heq]
      exact .of_eq rfl
    · rw [heq]
      exact List.prefix_append _ _

theorem prolongs_addD (h : Prolongs w w') (p : Nat) : Prolongs w ((w.add addr p).getD w') := by
  cases hadd : w.add addr p with
  | none => exact h
  | some w₁ => exact prolongs_add hadd

theorem prolongs_install [DecidableEq C] (w : World C) (p : Nat) : Prolongs w (w.install p) :=
  .of_eq (congrArg ConversationStats.usageToMetrics World.condenserForSwitchedLlm_grows.stats)

theorem prolongs_getOrCreateProfileLlm : Prolongs w (w.getOrCreateProfileLlm addr u a) := by
  unfold World.getOrCreateProfileLlm
  split
  · exact .of_eq rfl
  · cases hadd : (w.make u a).add addr w.next with
    | none => exact .of_eq rfl
    | some w₁ => exact prolongs_make.trans (prolongs_add hadd)

theorem prolongs_ensureAgentReady : Prolongs w (w.ensureAgentReady addr) := by
  have hgo : ∀ (os : List Nat) (w : World C), Prolongs w (os.foldl (fun w o => (w.add addr o).getD w) w) := by
    intro os
    induction os with
    | nil => exact fun w => .of_eq rfl
    | cons o os ih => exact fun w => (prolongs_addD (.of_eq rfl) o).trans (ih _)
  unfold World.ensureAgentReady
  split
  · exact .of_eq rfl
  · exact hgo w.getAllLlms { w with registry := { w.registry with subscribed := true } }

theorem prolongs_switchLlm [DecidableEq C] : Prolongs w (w.switchLlm addr u a) := by
  have hmake : Prolongs w (w.make u a) := prolongs_make
  unfold World.switchLlm
  simp only
  split
  · rename_i r _
    split
    · exact hmake.trans (prolongs_install _ _)
    · have hadd : Prolongs (w.make u a) ((((w.make u a).remove u).add addr w.next).getD (w.make u a)) := by
        cases hadd : ((w.make u a).remove u).add addr w.next with
        | none => exact .of_eq rfl
        | some w₁ => exact (prolongs_add hadd : Prolongs ((w.make u a).remove u) w₁)
      have hrest : Prolongs ((((w.make u a).remove u).add addr w.next).getD (w.make u a))
          (((((w.make u a).remove u).add addr w.next).getD (w.make u a)).restoreMetrics w.next
            (((((w.make u a).remove u).add addr w.next).getD (w.make u a)).llms r).metrics) := .of_eq rfl
      exact ((hmake.trans hadd).trans hrest).trans (prolongs_install _ _)
  · exact (hmake.trans (prolongs_addD (.of_eq rfl) _)).trans (prolongs_install _ _)

theorem prolongs_apply [DecidableEq C] (op : Op C) : Prolongs w (w.apply addr op) := by
  cases op with
  | ensureAgentReady => exact prolongs_ensureAgentReady
  | switchLlm u a => exact prolongs_switchLlm
  | getOrCreateProfileLlm u a => exact prolongs_getOrCreateProfileLlm
  | askAgent r =>
    have hasked : ∀ a : LlmArg C,
        Prolongs w ((w.ensureAgentReady addr).getOrCreateProfileLlm addr askAgentLlmUsageId a) := fun a =>
      prolongs_ensureAgentReady.trans prolongs_getOrCreateProfileLlm
    simp only [World.apply, World.askAgent]
    split
    · exact hasked _
    · exact hasked _
  | call p r => exact .of_eq rfl
  | fallback p spent => exact .of_eq rfl

theorem Prolongs.lookup (h : Prolongs w w') (hv : w.stats.usageToMetrics.lookup v = some m) :
    w'.stats.usageToMetrics.lookup v = some m := by
  obtain ⟨opened, heq⟩ := h
  rw [← heq, List.lookup_append, hv, Option.some_or]

/-- The first question after a resume shares the restored metrics of the agent. -/
theorem askAgent_shares (hs : Sound w) (hnew : w.get askAgentLlmUsageId = none)
    (hnone : w.stats.usageToMetrics.lookup askAgentLlmUsageId = none)
    (hunknown : addr (w.llms w.agentLlm).metrics ∉ w.registry.metricsIds) (r : LlmResponse) :
    (w.askAgent addr r).stats.usageToMetrics =
        w.stats.usageToMetrics ++ [(askAgentLlmUsageId, (w.llms w.agentLlm).metrics)] ∧
      (w.askAgent addr r).telemetries ((w.askAgent addr r).llms w.agentLlm).telemetry =
        (w.llms w.agentLlm).metrics := by
  have hstart : w.ensureAgentReady addr = w := if_pos hs.ready
  have hl := hs.linked hs.agent
  have hmade : ∀ a : LlmArg C, a.copyOf = some w.agentLlm →
      (w.getOrCreateProfileLlm addr askAgentLlmUsageId a).stats.usageToMetrics =
          w.stats.usageToMetrics ++ [(askAgentLlmUsageId, (w.llms w.agentLlm).metrics)] ∧
        (w.getOrCreateProfileLlm addr askAgentLlmUsageId a).telemetries
          ((w.getOrCreateProfileLlm addr askAgentLlmUsageId a).llms w.agentLlm).telemetry =
            (w.llms w.agentLlm).metrics := by
    intro a ha
    have hmake := World.make_grows (w := w) (u := askAgentLlmUsageId) (a := a)
    have husage := World.make_usageId (w := w) (u := askAgentLlmUsageId) (a := a)
    have hmetrics : ((w.make askAgentLlmUsageId a).llms w.next).metrics = (w.llms w.agentLlm).metrics := by
      rcases World.make_cases w askAgentLlmUsageId a with ⟨hcopy, -⟩ | ⟨q, hq, hm, -⟩
      · rw [ha] at hcopy
        cases hcopy
      · rw [ha] at hq
        rw [hm, Option.some.inj hq]
    obtain ⟨w₁, hadd⟩ := World.add_of_none (w := w.make askAgentLlmUsageId a) (p := w.next) addr
      (by rw [husage, hmake.get, hnew])
    have hmem : addr ((w.make askAgentLlmUsageId a).llms w.next).metrics ∉
        (w.make askAgentLlmUsageId a).registry.metricsIds := by
      rw [hmetrics, hmake.registry]
      exact hunknown
    have hsub : (w.make askAgentLlmUsageId a).registry.subscribed = true := by
      rw [hmake.registry]
      exact hs.subscribed
    rw [World.getOrCreateProfileLlm, hnew]
    simp only [hadd, Option.getD_some]
    rcases (World.add_some hadd).2 with ⟨-, hunsub⟩ | ⟨rfl, -⟩
    · rw [hsub] at hunsub
      cases hunsub
    · rw [World.ensureIndependentMetrics_of_notMem hmem]
      have hlookup : (w.make askAgentLlmUsageId a).stats.usageToMetrics.lookup
          ((w.make askAgentLlmUsageId a).llms w.next).usageId = none := by
        rw [hmake.stats, husage, hnone]
      simp only [World.registerLlm, World.enlist, hlookup]
      refine ⟨by rw [hmake.stats, husage, hmetrics], ?_⟩
      rw [hmake.llms _ hl.lt, hmake.telemetries _ hl.telemetryLt, hl.wired]
  unfold World.askAgent
  simp only [hstart]
  split
  · exact hmade _ rfl
  · exact hmade _ rfl

/-- After a question that shares the agent's metrics, the agent records there, the two usages have the same metrics
for good, and the total has at least twice what any LLM records there. -/
theorem asked_counted_twice [DecidableEq C] (hs : Sound w) (hnew : w.get askAgentLlmUsageId = none)
    (hnone : w.stats.usageToMetrics.lookup askAgentLlmUsageId = none)
    (hunknown : addr (w.llms w.agentLlm).metrics ∉ w.registry.metricsIds) (r : LlmResponse)
    (h : Reaches (World.step addr) (fun _ _ => True) (w.askAgent addr r) w') :
    (w.askAgent addr r).telemetries ((w.askAgent addr r).llms w.agentLlm).telemetry = (w.llms w.agentLlm).metrics ∧
      w'.metricsForUsage askAgentLlmUsageId = w'.metricsForUsage (w.llms w.agentLlm).usageId ∧
      w'.metricsForUsage askAgentLlmUsageId ≠ none ∧
      ∃ n, 2 ≤ n ∧ ∀ o r', w'.telemetries (w'.llms o).telemetry = (w.llms w.agentLlm).metrics →
        (w'.call o r').combinedMetrics.accumulatedCost =
          w'.combinedMetrics.accumulatedCost + n • (r'.onResponse.map spentCost).sum := by
  obtain ⟨hstats, hagentTelemetry⟩ := askAgent_shares hs hnew hnone hunknown r
  have hl := hs.linked hs.agent
  have hlong : Prolongs (w.askAgent addr r) w' := by
    refine h.invariant (I := Prolongs (w.askAgent addr r)) (.of_eq rfl) fun s op t hp _ hstep => ?_
    obtain rfl := Option.some.inj hstep
    exact hp.trans (prolongs_apply op)
  have hask : w'.stats.usageToMetrics.lookup askAgentLlmUsageId = some (w.llms w.agentLlm).metrics := by
    refine hlong.lookup ?_
    rw [hstats, List.lookup_append, hnone, Option.none_or, List.lookup_cons_self]
  have hagent : w'.stats.usageToMetrics.lookup (w.llms w.agentLlm).usageId = some (w.llms w.agentLlm).metrics := by
    refine hlong.lookup ?_
    rw [hstats, List.lookup_append, hl.cell, Option.some_or]
  refine ⟨hagentTelemetry, by rw [World.metricsForUsage, World.metricsForUsage, hask, hagent],
    by rw [World.metricsForUsage, hask]; exact Option.some_ne_none _,
    (w'.stats.usageToMetrics.map Prod.snd).count (w.llms w.agentLlm).metrics, ?_, fun o r' ho => ?_⟩
  · -- two entries of the statistics have the metrics
    have hcount : (w.stats.usageToMetrics.map Prod.snd).count (w.llms w.agentLlm).metrics = 1 :=
      List.count_eq_one_of_mem hs.cells (List.mem_map_of_mem (Lib.mem_of_lookup hl.cell))
    obtain ⟨opened, hopened⟩ := hlong
    rw [← hopened, hstats, List.map_append, List.map_append, List.count_append, List.count_append, hcount]
    simp
  · rw [World.call, ho]
    exact additive_cost.charge w' o _ _

end

theorem asked_counted_twice_resumed : ∃ w', Reaches (World.step id) (fun _ _ => True)
      ((resumed.ensureAgentReady id).askAgent id answered) w' ∧
    w'.metricsForUsage askAgentLlmUsageId = w'.metricsForUsage "default" := by
  have hresumed : Initial resumed := ⟨rfl, rfl, rfl, by decide, by decide, by decide, by decide, by decide, by decide,
    by decide, by decide⟩
  have hs : Sound (resumed.ensureAgentReady id) := (hresumed.sound (by decide)).1
  exact ⟨_, .init, (asked_counted_twice hs (by decide) (by decide) (by decide) answered .init).2.1⟩

end AgentSdk.UsageRegistry
