import Mathlib.Order.Lattice
/-!
# Binary search

`bisect.bisect_right` over a range of indices with a key that grows.
-/

namespace AgentSdk.Lib

variable {κ : Type _}

def bisectRight [LT κ] [DecidableLT κ] (key : Nat → κ) (x : κ) (lo hi : Nat) : Nat :=
  if lo < hi then
    if x < key ((lo + hi) / 2) then bisectRight key x lo ((lo + hi) / 2)
    else bisectRight key x ((lo + hi) / 2 + 1) hi
  else lo
termination_by hi - lo

/-- Keys up to `x` stand before the result, larger ones from it on. -/
theorem bisectRight_spec [LinearOrder κ] {key : Nat → κ} {x : κ} {lo hi : Nat} (hle : lo ≤ hi)
    (hkey : ∀ i j, lo ≤ i → i ≤ j → j < hi → key i ≤ key j) :
    lo ≤ bisectRight key x lo hi ∧ bisectRight key x lo hi ≤ hi ∧
      (∀ i, lo ≤ i → i < bisectRight key x lo hi → key i ≤ x) ∧
        ∀ i, bisectRight key x lo hi ≤ i → i < hi → x < key i := by
  fun_induction bisectRight key x lo hi with
  | case1 lo hi hlt hx ih =>
    obtain ⟨h₁, h₂, h₃, h₄⟩ := ih (by omega) fun i j hlo hij hj => hkey i j hlo hij (by omega)
    refine ⟨h₁, by omega, h₃, fun i hlo hilt => ?_⟩
    rcases Nat.lt_or_ge i ((lo + hi) / 2) with hmid | hmid
    · exact h₄ i hlo hmid
    · exact lt_of_lt_of_le hx (hkey _ i (by omega) hmid hilt)
  | case2 lo hi hlt hx ih =>
    obtain ⟨h₁, h₂, h₃, h₄⟩ := ih (by omega) fun i j hlo hij hj => hkey i j (by omega) hij hj
    refine ⟨by omega, h₂, fun i hlo hilt => ?_, h₄⟩
    rcases Nat.lt_or_ge i ((lo + hi) / 2 + 1) with hmid | hmid
    · exact le_trans (hkey i _ hlo (by omega) (by omega)) (not_lt.1 hx)
    · exact h₃ i hmid hilt
  | case3 lo hi hlt => exact ⟨Nat.le_refl _, hle, fun i hlo hilt => by omega, fun i hlo hilt => by omega⟩

/-- The indices that the search compares with. -/
def bisectProbes [LT κ] [DecidableLT κ] (key : Nat → κ) (x : κ) (lo hi : Nat) : List Nat :=
  if lo < hi then
    if x < key ((lo + hi) / 2) then (lo + hi) / 2 :: bisectProbes key x lo ((lo + hi) / 2)
    else (lo + hi) / 2 :: bisectProbes key x ((lo + hi) / 2 + 1) hi
  else []
termination_by hi - lo

/-- Where only some of the keys grow, the search is right about those if no
other key that it compares with misleads it about them. -/
theorem bisectRight_spec_of_probes [LinearOrder κ] {key : Nat → κ} {x : κ} {good : Nat → Prop} {lo hi : Nat}
    (hle : lo ≤ hi) (hkey : ∀ i j, lo ≤ i → i < j → j < hi → good i → good j → key i ≤ key j)
    (hprobe : ∀ p ∈ bisectProbes key x lo hi, ¬ good p →
      (x < key p → ∀ j, p < j → j < hi → good j → x ≤ key j) ∧
        (key p ≤ x → ∀ j, lo ≤ j → j < p → good j → key j ≤ x)) :
    bisectRight key x lo hi ≤ hi ∧
      (∀ i, lo ≤ i → i < bisectRight key x lo hi → good i → key i ≤ x) ∧
        ∀ i, bisectRight key x lo hi ≤ i → i < hi → good i → x ≤ key i := by
  fun_induction bisectRight key x lo hi with
  | case1 lo hi hlt hx ih =>
    rw [bisectProbes, if_pos hlt, if_pos hx] at hprobe
    obtain ⟨h₂, h₃, h₄⟩ := ih (by omega) (fun i j hlo hij hj => hkey i j hlo hij (by omega)) fun p hp hbad => by
      obtain ⟨hleft, hright⟩ := hprobe p (List.mem_cons_of_mem _ hp) hbad
      exact ⟨fun hxp j hpj hj => hleft hxp j hpj (by omega), hright⟩
    refine ⟨by omega, h₃, fun i hri hilt hgood => ?_⟩
    rcases Nat.lt_trichotomy i ((lo + hi) / 2) with hmid | rfl | hmid
    · exact h₄ i hri hmid hgood
    · exact le_of_lt hx
    · -- Behind the middle: by the order, or because the middle does not mislead.
      by_cases hgm : good ((lo + hi) / 2)
      · exact le_trans (le_of_lt hx) (hkey _ i (by omega) hmid hilt hgm hgood)
      · exact (hprobe _ List.mem_cons_self hgm).1 hx i hmid hilt hgood
  | case2 lo hi hlt hx ih =>
    rw [bisectProbes, if_pos hlt, if_neg hx] at hprobe
    obtain ⟨h₂, h₃, h₄⟩ := ih (by omega) (fun i j hlo hij hj => hkey i j (by omega) hij hj) fun p hp hbad => by
      obtain ⟨hleft, hright⟩ := hprobe p (List.mem_cons_of_mem _ hp) hbad
      exact ⟨hleft, fun hxp j hj => hright hxp j (by omega)⟩
    refine ⟨h₂, fun i hlo hilt hgood => ?_, h₄⟩
    rcases Nat.lt_trichotomy i ((lo + hi) / 2) with hmid | rfl | hmid
    · by_cases hgm : good ((lo + hi) / 2)
      · exact le_trans (hkey i _ hlo hmid (by omega) hgood hgm) (not_lt.1 hx)
      · exact (hprobe _ List.mem_cons_self hgm).2 (not_lt.1 hx) i hlo hmid hgood
    · exact not_lt.1 hx
    · exact h₃ i hmid hilt hgood
  | case3 lo hi hlt =>
    exact ⟨hle, fun i hlo hilt => by omega, fun i hlo hilt => by omega⟩

end AgentSdk.Lib
