import Mathlib.Order.Lattice
/-!
# Fencing tokens

A history of grants, each to an owner under a token. A grant is superseded once
another owner was granted a token after it; the current grant is one that is
not, under a token that no grant exceeds.
-/

namespace AgentSdk.Lib

variable {ι γ : Type _} [DecidableEq ι] [DecidableEq γ] {p q : ι × γ} {grants : List (ι × γ)}

/-- Was another owner granted a token after the first grant of `p`? -/
def superseded (p : ι × γ) : List (ι × γ) → Bool
  | [] => false
  | q :: qs => if q = p then qs.any (·.1 ≠ p.1) else superseded p qs

theorem superseded_append :
    superseded p (grants ++ [q]) = true ↔ superseded p grants = true ∨ p ∈ grants ∧ q.1 ≠ p.1 := by
  induction grants with
  | nil => by_cases h : q = p <;> simp [superseded, h]
  | cons g grants ih =>
    by_cases h : g = p
    · simp [superseded, h]
    · have hne : p ≠ g := fun hp => h hp.symm
      simp [superseded, h, hne, ih]

theorem mem_of_superseded (h : superseded p grants = true) : p ∈ grants := by
  induction grants with
  | nil => cases h
  | cons g grants ih =>
    by_cases hg : g = p
    · exact hg ▸ List.mem_cons_self
    · rw [superseded, if_neg hg] at h
      exact List.mem_cons_of_mem _ (ih h)

section
variable [LinearOrder γ]

/-- Nothing granted exceeds the token of `p`, and `p` still stands. -/
structure Current (p : ι × γ) (grants : List (ι × γ)) : Prop where
  top : ∀ q ∈ grants, q.2 ≤ p.2
  stands : superseded p grants = false

theorem Current.grant (htop : ∀ q ∈ grants, q.2 ≤ p.2) (hstands : superseded p grants = false) :
    Current p (grants ++ [p]) := by
  refine ⟨fun q hq => ?_, ?_⟩
  · rcases List.mem_append.1 hq with hq | hq
    · exact htop q hq
    · rw [List.mem_singleton.1 hq]
  · rw [← Bool.not_eq_true, superseded_append, hstands]
    simp

/-- The same grant once more. -/
theorem Current.again (h : Current p grants) : Current p (grants ++ [p]) := .grant h.top h.stands

/-- A grant under a larger token takes over. -/
theorem Current.takeover (h : Current p grants) (hlt : p.2 < q.2) :
    (∀ g ∈ grants, g.2 < q.2) ∧ Current q (grants ++ [q]) := by
  have hall : ∀ g ∈ grants, g.2 < q.2 := fun g hg => lt_of_le_of_lt (h.top g hg) hlt
  refine ⟨hall, .grant (fun g hg => le_of_lt (hall g hg)) ?_⟩
  rw [← Bool.not_eq_true]
  exact fun hs => lt_irrefl _ (hall q (mem_of_superseded hs))

end

end AgentSdk.Lib
