import Mathlib.Data.List.Basic
/-!
# Slices

`xs[i:j]` with integer bounds, which count from the end when they are negative.
-/

namespace AgentSdk.Lib

variable {α : Type _}

/-- A bound of a slice, as a position. -/
def sliceBound (n : Nat) (i : Int) : Nat := if i < 0 then (i + n).toNat else min i.toNat n

/-- `xs[i:j]`. -/
def slice (xs : List α) (i j : Int) : List α := (xs.take (sliceBound xs.length j)).drop (sliceBound xs.length i)

/-- `range(i, j)`. -/
def rangeInt (i j : Int) : List Int := (List.range (j - i).toNat).map fun (k : Nat) => i + (k : Int)

theorem slice_natCast (xs : List α) (i j : Nat) : slice xs i j = (xs.take j).drop i := by
  have hbound : ∀ k : Nat, sliceBound xs.length k = min k xs.length := by
    intro k
    rw [sliceBound, if_neg (by omega), Int.toNat_natCast]
  rw [slice, hbound, hbound, ← List.take_eq_take_min]
  by_cases hi : i ≤ xs.length
  · rw [Nat.min_eq_left hi]
  · rw [Nat.min_eq_right (by omega), List.drop_eq_nil_of_le (by rw [List.length_take]; omega),
      List.drop_eq_nil_of_le (by rw [List.length_take]; omega)]

/-- `xs[i:]`. -/
theorem slice_from (xs : List α) (i : Nat) : slice xs i xs.length = xs.drop i := by
  rw [slice_natCast, List.take_length]

theorem length_slice_le (xs : List α) (i j : Int) : (slice xs i j).length ≤ xs.length := by
  rw [slice, List.length_drop, List.length_take]
  omega

theorem mem_rangeInt {i j k : Int} : k ∈ rangeInt i j ↔ i ≤ k ∧ k < j := by
  rw [rangeInt, List.mem_map]
  constructor
  · rintro ⟨n, hn, rfl⟩
    rw [List.mem_range] at hn
    omega
  · rintro ⟨hle, hlt⟩
    exact ⟨(k - i).toNat, List.mem_range.2 (by omega), by omega⟩

end AgentSdk.Lib
