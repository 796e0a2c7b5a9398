import AgentSdk.Lib.Runs
import Mathlib.Data.Finset.Card
/-!
# Sections behind a gate

Tasks work in sections. A section has a key and excludes the other sections of
that key. An exclusive section excludes all of them: it keeps new ones out and
waits until the last one has left.
-/

namespace AgentSdk.Lib

inductive Phase (κ : Type) where
  | idle
  /-- Waits until no exclusive section is pending. -/
  | waiting (k : κ)
  /-- Counted, and waits for the key's lock. -/
  | queued (k : κ)
  | inside (k : κ)
  /-- Waits for the lock of the exclusive sections. -/
  | contending
  /-- Keeps new sections out, and waits until none is active. -/
  | draining
  | exclusive
deriving DecidableEq

variable {τ κ : Type}

/-- A task that the gate counts as active. -/
def Phase.Counted : Phase κ → Prop
  | .queued _ | .inside _ => True
  | .idle | .waiting _ | .contending | .draining | .exclusive => False

/-- A task that holds the lock of the exclusive sections. -/
def Phase.Excluding : Phase κ → Prop
  | .draining | .exclusive => True
  | .idle | .waiting _ | .queued _ | .inside _ | .contending => False

structure Gate (τ κ : Type) where
  phase : τ → Phase κ
  active : Nat
  pending : Bool
  exclusiveLock : Option τ
  locks : κ → Option τ

def Gate.initial : Gate τ κ := ⟨fun _ => .idle, 0, false, none, fun _ => none⟩

inductive GateMove (τ κ : Type) where
  | call (t : τ) (k : κ)
  | enter (t : τ)
  | take (t : τ)
  | callExclusive (t : τ)
  | takeExclusive (t : τ)
  | drained (t : τ)
  /-- The section is over, or the task gives up waiting. -/
  | leave (t : τ)

def GateMove.task : GateMove τ κ → τ
  | .call t _ | .enter t | .take t | .callExclusive t | .takeExclusive t | .drained t | .leave t => t

def Gate.setPhase [DecidableEq τ] (g : Gate τ κ) (t : τ) (p : Phase κ) : Gate τ κ := { g with phase := Function.update g.phase t p }

def Gate.step [DecidableEq τ] [DecidableEq κ] (g : Gate τ κ) : GateMove τ κ → Option (Gate τ κ)
  | .call t k => if g.phase t = .idle then some (g.setPhase t (.waiting k)) else none
  | .enter t =>
    match g.phase t with
    | .waiting k => if g.pending then none else some { g.setPhase t (.queued k) with active := g.active + 1 }
    | _ => none
  | .take t =>
    match g.phase t with
    | .queued k =>
      if g.locks k = none then
        some { g.setPhase t (.inside k) with locks := Function.update g.locks k (some t) }
      else none
    | _ => none
  | .callExclusive t => if g.phase t = .idle then some (g.setPhase t .contending) else none
  | .takeExclusive t =>
    if g.phase t = .contending ∧ g.exclusiveLock = none then
      some { g.setPhase t .draining with pending := true, exclusiveLock := some t }
    else none
  | .drained t => if g.phase t = .draining ∧ g.active = 0 then some (g.setPhase t .exclusive) else none
  | .leave t =>
    match g.phase t with
    | .idle => none
    | .waiting _ | .contending => some (g.setPhase t .idle)
    | .queued _ => some { g.setPhase t .idle with active := g.active - 1 }
    | .inside k =>
      some { g.setPhase t .idle with active := g.active - 1, locks := Function.update g.locks k none }
    | .draining | .exclusive => some { g.setPhase t .idle with pending := false, exclusiveLock := none }

/-! ## What holds behind a gate -/

/-- The tasks of a gate that are counted, and their number. -/
def Gate.Counts (g : Gate τ κ) (n : Nat) : Prop :=
  ∃ tasks : Finset τ, (∀ t, t ∈ tasks ↔ (g.phase t).Counted) ∧ n = tasks.card

structure Gate.Consistent (g : Gate τ κ) : Prop where
  counted : g.Counts g.active
  locked : ∀ k t, g.locks k = some t ↔ g.phase t = .inside k
  owned : ∀ t, g.exclusiveLock = some t ↔ (g.phase t).Excluding
  pending : g.pending = g.exclusiveLock.isSome
  drained : ∀ t, g.phase t = .exclusive → g.active = 0

theorem Gate.consistent_initial : (Gate.initial : Gate τ κ).Consistent where
  counted := ⟨∅, fun t => by simp [Gate.initial, Phase.Counted], rfl⟩
  locked := by simp [Gate.initial]
  owned := by simp [Gate.initial, Phase.Excluding]
  pending := rfl
  drained := by simp [Gate.initial]

namespace Gate.Consistent
variable {g : Gate τ κ} {t u : τ} {k : κ}

/-- No section goes on beside an exclusive one. -/
theorem alone (h : g.Consistent) (ht : g.phase t = .exclusive) : ¬ (g.phase u).Counted := by
  obtain ⟨tasks, hmem, hcard⟩ := h.counted
  rw [h.drained t ht, eq_comm, Finset.card_eq_zero] at hcard
  rw [← hmem, hcard]
  exact Finset.notMem_empty u

theorem inside_unique (h : g.Consistent) (ht : g.phase t = .inside k) (hu : g.phase u = .inside k) : t = u := by
  have htk := (h.locked k t).2 ht
  have huk := (h.locked k u).2 hu
  rw [htk] at huk
  exact Option.some.inj huk

theorem exclusive_unique (h : g.Consistent) (ht : (g.phase t).Excluding) (hu : (g.phase u).Excluding) : t = u := by
  have htl := (h.owned t).2 ht
  have hul := (h.owned u).2 hu
  rw [htl] at hul
  exact Option.some.inj hul

theorem not_excluding (h : g.Consistent) (hp : g.pending = false) (t : τ) : ¬ (g.phase t).Excluding := by
  intro ht
  have hlock := (h.owned t).2 ht
  have hpending := h.pending
  rw [hp, hlock] at hpending
  cases hpending

/-- Behind the last section the gate is open again. -/
theorem open_of_idle (h : g.Consistent) (hidle : ∀ t, g.phase t = .idle) :
    g.active = 0 ∧ g.pending = false ∧ g.exclusiveLock = none ∧ ∀ k, g.locks k = none := by
  obtain ⟨tasks, hmem, hcard⟩ := h.counted
  have hempty : tasks = ∅ := by
    refine Finset.eq_empty_of_forall_notMem fun t ht => ?_
    have hcounted := (hmem t).1 ht
    rw [hidle] at hcounted
    exact hcounted
  have hlock : g.exclusiveLock = none := by
    rw [Option.eq_none_iff_forall_ne_some]
    intro t ht
    have hex := (h.owned t).1 ht
    rw [hidle] at hex
    exact hex
  refine ⟨by rw [hcard, hempty, Finset.card_empty], by rw [h.pending, hlock]; rfl, hlock, fun k => ?_⟩
  rw [Option.eq_none_iff_forall_ne_some]
  intro t ht
  have hin := (h.locked k t).1 ht
  rw [hidle] at hin
  cases hin

end Gate.Consistent

/-! ## What a move preserves -/

section Moves
variable [DecidableEq τ] {g : Gate τ κ} {t u : τ} {p : Phase κ}

@[simp] theorem Gate.setPhase_self : (g.setPhase t p).phase t = p := Function.update_self ..

theorem Gate.setPhase_ne (h : u ≠ t) : (g.setPhase t p).phase u = g.phase u := Function.update_of_ne h ..

theorem Gate.Counts.same {n : Nat} (h : g.Counts n) (hp : p.Counted ↔ (g.phase t).Counted) :
    (g.setPhase t p).Counts n := by
  obtain ⟨tasks, hmem, hn⟩ := h
  refine ⟨tasks, fun u => ?_, hn⟩
  by_cases hu : u = t
  · rw [hu, setPhase_self, hp]
    exact hmem t
  · rw [setPhase_ne hu]
    exact hmem u

theorem Gate.Counts.enter {n : Nat} (h : g.Counts n) (ht : ¬ (g.phase t).Counted) (hp : p.Counted) :
    (g.setPhase t p).Counts (n + 1) := by
  obtain ⟨tasks, hmem, hn⟩ := h
  have hnew : t ∉ tasks := fun hin => ht ((hmem t).1 hin)
  refine ⟨insert t tasks, fun u => ?_, by rw [hn, Finset.card_insert_of_notMem hnew]⟩
  by_cases hu : u = t
  · simp [hu, hp]
  · rw [setPhase_ne hu, Finset.mem_insert, ← hmem]
    simp [hu]

theorem Gate.Counts.exit {n : Nat} (h : g.Counts n) (ht : (g.phase t).Counted) (hp : ¬ p.Counted) :
    (g.setPhase t p).Counts (n - 1) := by
  obtain ⟨tasks, hmem, hn⟩ := h
  refine ⟨tasks.erase t, fun u => ?_, by rw [hn, Finset.card_erase_of_mem ((hmem t).2 ht)]⟩
  by_cases hu : u = t
  · simp [hu, hp]
  · rw [setPhase_ne hu, Finset.mem_erase, ← hmem]
    simp [hu]

/-- A move that takes no lock and gives none back. -/
theorem Gate.Consistent.move {n : Nat} (h : g.Consistent) (hcount : (g.setPhase t p).Counts n)
    (hin : ∀ k, p = .inside k ↔ g.phase t = .inside k) (hex : p.Excluding ↔ (g.phase t).Excluding)
    (hdrained : ∀ u, (g.setPhase t p).phase u = .exclusive → n = 0) :
    { g.setPhase t p with active := n }.Consistent where
  counted := hcount
  locked k u := by
    show g.locks k = some u ↔ (g.setPhase t p).phase u = .inside k
    by_cases hu : u = t
    · rw [hu, setPhase_self, hin]
      exact h.locked k t
    · rw [setPhase_ne hu]
      exact h.locked k u
  owned u := by
    show g.exclusiveLock = some u ↔ ((g.setPhase t p).phase u).Excluding
    by_cases hu : u = t
    · rw [hu, setPhase_self, hex]
      exact h.owned t
    · rw [setPhase_ne hu]
      exact h.owned u
  pending := h.pending
  drained := hdrained

theorem Gate.Consistent.move_same (h : g.Consistent) (hcounted : p.Counted ↔ (g.phase t).Counted)
    (hin : ∀ k, p = .inside k ↔ g.phase t = .inside k) (hex : p.Excluding ↔ (g.phase t).Excluding)
    (hp : p = .exclusive → g.active = 0) : (g.setPhase t p).Consistent := by
  refine h.move (h.counted.same hcounted) hin hex fun u hu => ?_
  by_cases hut : u = t
  · rw [hut, setPhase_self] at hu
    exact hp hu
  · rw [setPhase_ne hut] at hu
    exact h.drained u hu

variable [DecidableEq κ] {k : κ}

theorem Gate.Consistent.take (h : g.Consistent) (ht : g.phase t = .queued k) (hk : g.locks k = none) :
    { g.setPhase t (.inside k) with locks := Function.update g.locks k (some t) }.Consistent where
  counted := h.counted.same (by simp [ht, Phase.Counted])
  locked j u := by
    show Function.update g.locks k (some t) j = some u ↔ (g.setPhase t (.inside k)).phase u = .inside j
    by_cases hj : j = k
    · rw [hj, Function.update_self]
      by_cases hu : u = t
      · simp [hu]
      · rw [setPhase_ne hu, ← h.locked, hk]
        simp [Ne.symm hu]
    · rw [Function.update_of_ne hj, h.locked]
      by_cases hu : u = t
      · simp [hu, ht, Ne.symm hj]
      · rw [setPhase_ne hu]
  owned u := by
    show g.exclusiveLock = some u ↔ ((g.setPhase t (.inside k)).phase u).Excluding
    rw [h.owned]
    by_cases hu : u = t
    · simp [hu, ht, Phase.Excluding]
    · rw [setPhase_ne hu]
  pending := h.pending
  drained u hu := by
    by_cases hut : u = t
    · rw [hut, setPhase_self] at hu
      cases hu
    · rw [setPhase_ne hut] at hu
      exact h.drained u hu

omit [DecidableEq κ] in
theorem Gate.Consistent.takeExclusive (h : g.Consistent) (ht : g.phase t = .contending) (hfree : g.exclusiveLock = none) :
    { g.setPhase t .draining with pending := true, exclusiveLock := some t }.Consistent where
  counted := h.counted.same (by simp [ht, Phase.Counted])
  locked j u := by
    show g.locks j = some u ↔ (g.setPhase t .draining).phase u = .inside j
    rw [h.locked]
    by_cases hu : u = t
    · simp [hu, ht]
    · rw [setPhase_ne hu]
  owned u := by
    show some t = some u ↔ ((g.setPhase t .draining).phase u).Excluding
    by_cases hu : u = t
    · simp [hu, Phase.Excluding]
    · rw [setPhase_ne hu, ← h.owned, hfree]
      simp [Ne.symm hu]
  pending := rfl
  drained u hu := by
    by_cases hut : u = t
    · rw [hut, setPhase_self] at hu
      cases hu
    · rw [setPhase_ne hut] at hu
      exact h.drained u hu

theorem Gate.Consistent.leaveInside (h : g.Consistent) (ht : g.phase t = .inside k) :
    { g.setPhase t .idle with active := g.active - 1, locks := Function.update g.locks k none }.Consistent where
  counted := h.counted.exit (by simp [ht, Phase.Counted]) (by simp [Phase.Counted])
  locked j u := by
    show Function.update g.locks k none j = some u ↔ (g.setPhase t .idle).phase u = .inside j
    by_cases hu : u = t
    · rw [hu, setPhase_self]
      by_cases hj : j = k
      · simp [hj]
      · rw [Function.update_of_ne hj, h.locked, ht]
        simp [Ne.symm hj]
    · rw [setPhase_ne hu]
      by_cases hj : j = k
      · rw [hj, Function.update_self]
        refine iff_of_false nofun fun huk => hu ?_
        exact h.inside_unique huk ht
      · rw [Function.update_of_ne hj, h.locked]
  owned u := by
    show g.exclusiveLock = some u ↔ ((g.setPhase t .idle).phase u).Excluding
    rw [h.owned]
    by_cases hu : u = t
    · simp [hu, ht, Phase.Excluding]
    · rw [setPhase_ne hu]
  pending := h.pending
  drained u hu := by
    by_cases hut : u = t
    · rw [hut, setPhase_self] at hu
      cases hu
    · rw [setPhase_ne hut] at hu
      rw [h.drained u hu]

omit [DecidableEq κ] in
theorem Gate.Consistent.leaveExclusive (h : g.Consistent) (ht : (g.phase t).Excluding) :
    { g.setPhase t .idle with pending := false, exclusiveLock := none }.Consistent where
  counted := by
    refine h.counted.same ?_
    cases hp : g.phase t <;> simp [hp, Phase.Excluding, Phase.Counted] at ht ⊢
  locked j u := by
    show g.locks j = some u ↔ (g.setPhase t .idle).phase u = .inside j
    rw [h.locked]
    by_cases hu : u = t
    · rw [hu, setPhase_self]
      refine iff_of_false (fun hin => ?_) nofun
      rw [hin] at ht
      exact ht
    · rw [setPhase_ne hu]
  owned u := by
    show none = some u ↔ ((g.setPhase t .idle).phase u).Excluding
    refine iff_of_false nofun fun hu => ?_
    by_cases hut : u = t
    · rw [hut, setPhase_self] at hu
      exact hu
    · rw [setPhase_ne hut] at hu
      exact hut (h.exclusive_unique hu ht)
  pending := rfl
  drained u hu := by
    by_cases hut : u = t
    · rw [hut, setPhase_self] at hu
      cases hu
    · rw [setPhase_ne hut] at hu
      exact h.drained u hu

theorem Gate.Consistent.leave {g' : Gate τ κ} (h : g.Consistent) (hstep : g.step (.leave t) = some g') : g'.Consistent := by
  unfold Gate.step at hstep
  dsimp only at hstep
  cases ht : g.phase t with
  | idle =>
    rw [ht] at hstep
    cases hstep
  | waiting k | contending =>
    rw [ht] at hstep
    cases hstep
    exact h.move_same (by simp [ht, Phase.Counted]) (by simp [ht]) (by simp [ht, Phase.Excluding]) nofun
  | queued k =>
    rw [ht] at hstep
    cases hstep
    refine h.move (h.counted.exit (by simp [ht, Phase.Counted]) (by simp [Phase.Counted])) (by simp [ht])
      (by simp [ht, Phase.Excluding]) fun u hu => ?_
    by_cases hut : u = t
    · rw [hut, setPhase_self] at hu
      cases hu
    · rw [setPhase_ne hut] at hu
      rw [h.drained u hu]
  | inside k =>
    rw [ht] at hstep
    cases hstep
    exact h.leaveInside ht
  | draining | exclusive =>
    rw [ht] at hstep
    cases hstep
    exact h.leaveExclusive (by simp [ht, Phase.Excluding])

theorem Gate.Consistent.step {g' : Gate τ κ} (h : g.Consistent) (m : GateMove τ κ) (hstep : g.step m = some g') :
    g'.Consistent := by
  cases m with
  | call t k | callExclusive t =>
    unfold Gate.step at hstep
    dsimp only at hstep
    split at hstep
    · rename_i ht
      cases hstep
      exact h.move_same (by simp [ht, Phase.Counted]) (by simp [ht]) (by simp [ht, Phase.Excluding]) nofun
    · cases hstep
  | enter t =>
    unfold Gate.step at hstep
    dsimp only at hstep
    split at hstep
    · rename_i k ht
      split at hstep
      · cases hstep
      · rename_i hp
        cases hstep
        refine h.move (h.counted.enter (by simp [ht, Phase.Counted]) (by simp [Phase.Counted])) (by simp [ht])
          (by simp [ht, Phase.Excluding]) fun u hu => ?_
        -- An exclusive section would be pending.
        by_cases hut : u = t
        · rw [hut, setPhase_self] at hu
          cases hu
        · rw [setPhase_ne hut] at hu
          refine absurd ?_ (h.not_excluding (by simpa using hp) u)
          rw [hu]
          trivial
    · cases hstep
  | take t =>
    unfold Gate.step at hstep
    dsimp only at hstep
    split at hstep
    · rename_i k ht
      split at hstep
      · rename_i hk
        cases hstep
        exact h.take ht hk
      · cases hstep
    · cases hstep
  | takeExclusive t =>
    unfold Gate.step at hstep
    dsimp only at hstep
    split at hstep
    · rename_i ht
      cases hstep
      exact h.takeExclusive ht.1 ht.2
    · cases hstep
  | drained t =>
    unfold Gate.step at hstep
    dsimp only at hstep
    split at hstep
    · rename_i ht
      cases hstep
      exact h.move_same (by simp [ht.1, Phase.Counted]) (by simp [ht.1]) (by simp [ht.1, Phase.Excluding]) fun _ => ht.2
    · cases hstep
  | leave t => exact h.leave hstep

/-- A move is one task's. -/
theorem Gate.step_phase_ne {g' : Gate τ κ} {m : GateMove τ κ} (hstep : g.step m = some g') (hu : u ≠ m.task) :
    g'.phase u = g.phase u := by
  unfold Gate.step at hstep
  split at hstep <;> dsimp only [GateMove.task] at hu
  all_goals
    repeat' split at hstep
    all_goals first
      | cases hstep; exact setPhase_ne hu
      | cases hstep

/-- A task that moves and does not leave was outside of any section. -/
theorem Gate.outside_of_step {g' : Gate τ κ} {m : GateMove τ κ} (hstep : g.step m = some g') (hm : m ≠ .leave m.task) :
    (∀ k, g.phase m.task ≠ .inside k) ∧ g.phase m.task ≠ .exclusive := by
  cases m with
  | call t k | callExclusive t =>
    unfold Gate.step at hstep
    dsimp only at hstep
    split at hstep
    · rename_i ht
      simp [GateMove.task, ht]
    · cases hstep
  | enter t | take t =>
    unfold Gate.step at hstep
    dsimp only at hstep
    split at hstep
    · rename_i k ht
      simp [GateMove.task, ht]
    · cases hstep
  | takeExclusive t | drained t =>
    unfold Gate.step at hstep
    dsimp only at hstep
    split at hstep
    · rename_i ht
      simp [GateMove.task, ht.1]
    · cases hstep
  | leave t => exact absurd rfl hm

/-- With every section over, a new one gets in. -/
theorem Gate.Consistent.enter_of_idle (h : g.Consistent) (hidle : ∀ t, g.phase t = .idle) (t : τ) (k : κ) :
    ∃ g', exec Gate.step g [.call t k, .enter t, .take t] = some g' ∧ g'.phase t = .inside k := by
  obtain ⟨-, hpending, -, hlocks⟩ := h.open_of_idle hidle
  obtain ⟨g₁, hg₁⟩ : ∃ g₁, g₁ = g.setPhase t (.waiting k) := ⟨_, rfl⟩
  have hcall : g.step (.call t k) = some g₁ := by rw [Gate.step, if_pos (hidle t), hg₁]
  obtain ⟨g₂, hg₂⟩ : ∃ g₂, g₂ = { g₁.setPhase t (.queued k) with active := g₁.active + 1 } := ⟨_, rfl⟩
  have henter : g₁.step (.enter t) = some g₂ := by
    have hphase : g₁.phase t = .waiting k := by rw [hg₁, setPhase_self]
    have hopen : g₁.pending = false := by rw [hg₁]; exact hpending
    simp [Gate.step, hphase, hopen, hg₂]
  have htake : g₂.step (.take t) =
      some { g₂.setPhase t (.inside k) with locks := Function.update g₂.locks k (some t) } := by
    have hphase : g₂.phase t = .queued k := by rw [hg₂]; exact setPhase_self
    have hfree : g₂.locks k = none := by rw [hg₂, hg₁]; exact hlocks k
    simp [Gate.step, hphase, hfree]
  refine ⟨{ g₂.setPhase t (.inside k) with locks := Function.update g₂.locks k (some t) }, ?_, setPhase_self⟩
  simp only [exec, hcall, henter, htake, bind, Option.bind]

theorem Gate.Consistent.enterExclusive_of_idle (h : g.Consistent) (hidle : ∀ t, g.phase t = .idle) (t : τ) :
    ∃ g', exec Gate.step g [.callExclusive t, .takeExclusive t, .drained t] = some g' ∧ g'.phase t = .exclusive := by
  obtain ⟨hactive, -, hfree, -⟩ := h.open_of_idle hidle
  obtain ⟨g₁, hg₁⟩ : ∃ g₁, g₁ = g.setPhase t .contending := ⟨_, rfl⟩
  have hcall : g.step (.callExclusive t) = some g₁ := by rw [Gate.step, if_pos (hidle t), hg₁]
  obtain ⟨g₂, hg₂⟩ : ∃ g₂, g₂ = { g₁.setPhase t .draining with pending := true, exclusiveLock := some t } := ⟨_, rfl⟩
  have htake : g₁.step (.takeExclusive t) = some g₂ := by
    have hphase : g₁.phase t = .contending := by rw [hg₁, setPhase_self]
    have hlock : g₁.exclusiveLock = none := by rw [hg₁]; exact hfree
    rw [Gate.step, if_pos ⟨hphase, hlock⟩, hg₂]
  have hdrained : g₂.step (.drained t) = some (g₂.setPhase t .exclusive) := by
    have hphase : g₂.phase t = .draining := by rw [hg₂]; exact setPhase_self
    have hzero : g₂.active = 0 := by rw [hg₂, hg₁]; exact hactive
    rw [Gate.step, if_pos ⟨hphase, hzero⟩]
  refine ⟨g₂.setPhase t .exclusive, ?_, setPhase_self⟩
  simp only [exec, hcall, htake, hdrained, bind, Option.bind]

end Moves

end AgentSdk.Lib
