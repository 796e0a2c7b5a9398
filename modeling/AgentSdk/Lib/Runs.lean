/-!
# Runs of a transition function

States reached from an initial state by steps that all meet a side condition.
A step that fails (`none`) is not taken.
-/

namespace AgentSdk.Lib

variable {σ α : Type _}

inductive Reaches (step : σ → α → Option σ) (allowed : σ → α → Prop) (init : σ) : σ → Prop
  | init : Reaches step allowed init init
  | step {s t : σ} {a : α} : Reaches step allowed init s → allowed s a → step s a = some t →
      Reaches step allowed init t

/-- A run of the given steps. -/
def exec (step : σ → α → Option σ) : σ → List α → Option σ
  | s, [] => some s
  | s, a :: as => step s a >>= fun t => exec step t as

/-- The state after `n` rounds, unless a round before ended the run. -/
def stateAt (step : Nat → σ → Option σ) (init : σ) : Nat → Option σ
  | 0 => some init
  | n + 1 => stateAt step init n >>= step n

/-- A run of the given steps that stops at a step that is not allowed. -/
def execAllowed (step : σ → α → Option σ) (allowed : σ → α → Prop) [∀ s a, Decidable (allowed s a)] :
    σ → List α → Option σ
  | s, [] => some s
  | s, a :: as => if allowed s a then step s a >>= fun t => execAllowed step allowed t as else none

section
variable {step : σ → α → Option σ} {allowed : σ → α → Prop} {init : σ}

/-- The invariant rule. -/
theorem Reaches.invariant {I : σ → Prop} (h0 : I init)
    (hstep : ∀ s a t, I s → allowed s a → step s a = some t → I t) {s : σ} (h : Reaches step allowed init s) :
    I s := by
  induction h with
  | init => exact h0
  | step _ hok ht ih => exact hstep _ _ _ ih hok ht

theorem Reaches.mono {allowed' : σ → α → Prop} (himp : ∀ s a, allowed s a → allowed' s a) {s : σ}
    (h : Reaches step allowed init s) : Reaches step allowed' init s := by
  induction h with
  | init => exact .init
  | step _ hok ht ih => exact ih.step (himp _ _ hok) ht

/-- A run that takes any step reaches its last state. -/
theorem reaches_of_exec {s t : σ} {as : List α} (hs : Reaches step (fun _ _ => True) init s)
    (h : exec step s as = some t) : Reaches step (fun _ _ => True) init t := by
  induction as generalizing s with
  | nil => cases h; exact hs
  | cons a as ih =>
    obtain ⟨u, hu, h⟩ := Option.bind_eq_some_iff.1 h
    exact ih (hs.step trivial hu) h

theorem reaches_of_execAllowed [∀ s a, Decidable (allowed s a)] {s t : σ} {as : List α}
    (hs : Reaches step allowed init s) (h : execAllowed step allowed s as = some t) : Reaches step allowed init t := by
  induction as generalizing s with
  | nil => cases h; exact hs
  | cons a as ih =>
    unfold execAllowed at h
    split at h
    · obtain ⟨u, hu, h⟩ := Option.bind_eq_some_iff.1 h
      exact ih (hs.step ‹_› hu) h
    · cases h

end

section
variable {step : Nat → σ → Option σ} {init : σ} {μ : σ → Nat}

theorem stateAt_add_le (h : ∀ n s t, stateAt step init n = some s → step n s = some t → μ t < μ s) {n : Nat} {s : σ}
    (hs : stateAt step init n = some s) : μ s + n ≤ μ init := by
  induction n generalizing s with
  | zero =>
    cases hs
    exact Nat.le_refl _
  | succ n ih =>
    obtain ⟨r, hr, hs⟩ := Option.bind_eq_some_iff.1 hs
    have hlt := h n r s hr hs
    have hle := ih hr
    omega

theorem stateAt_none {n : Nat} (h : stateAt step init n = none) (k : Nat) : stateAt step init (n + k) = none := by
  induction k with
  | zero => exact h
  | succ k ih =>
    show (stateAt step init (n + k) >>= step (n + k)) = none
    rw [ih]
    rfl

/-- The variant rule: rounds that decrease a measure come to an end. -/
theorem stateAt_ends (h : ∀ n s t, stateAt step init n = some s → step n s = some t → μ t < μ s) :
    ∃ n s, n ≤ μ init ∧ stateAt step init n = some s ∧ step n s = none := by
  refine Classical.byContradiction fun hne => ?_
  have hgo : ∀ n, n ≤ μ init + 1 → ∃ s, stateAt step init n = some s := by
    intro n hn
    induction n with
    | zero => exact ⟨init, rfl⟩
    | succ n ih =>
      obtain ⟨s, hs⟩ := ih (by omega)
      cases hstep : step n s with
      | none => exact absurd ⟨n, s, by omega, hs, hstep⟩ hne
      | some t => exact ⟨t, Option.bind_eq_some_iff.2 ⟨s, hs, hstep⟩⟩
  obtain ⟨s, hs⟩ := hgo _ (Nat.le_refl _)
  have hle := stateAt_add_le h hs
  omega

end

end AgentSdk.Lib
