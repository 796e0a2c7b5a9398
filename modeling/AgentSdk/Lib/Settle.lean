import Mathlib.Data.List.Basic
/-!
# Dropping until stable

A list is cleaned by several passes. A pass names the keys to drop, given the
list as it stands. The first pass that names any is applied and the round
starts over; the list is done when no pass names a key. `settle` is that loop.
-/

namespace AgentSdk.Lib

variable {α κ : Type*}

/-- What the first pass with something to drop drops. -/
def firstDrop (passes : List (List α → List κ)) (l : List α) : Option (List κ) :=
  passes.findSome? fun p => if p l = [] then none else some (p l)

theorem firstDrop_eq_none {passes : List (List α → List κ)} {l : List α} :
    firstDrop passes l = none ↔ ∀ p ∈ passes, p l = [] := by
  simp [firstDrop]

theorem firstDrop_eq_some {passes : List (List α → List κ)} {l : List α} {d : List κ}
    (h : firstDrop passes l = some d) : ∃ p ∈ passes, p l = d ∧ d ≠ [] := by
  obtain ⟨p, hp, h⟩ := List.exists_of_findSome?_eq_some h
  split at h
  · cases h
  · cases h
    exact ⟨p, hp, rfl, ‹_›⟩

variable [DecidableEq κ]

def settle (key : α → κ) (passes : List (List α → List κ)) : Nat → List α → Option (List α)
  | 0, _ => none
  | n + 1, l =>
    match firstDrop passes l with
    | none => some l
    | some d => settle key passes n (l.filter (key · ∉ d))

section
variable {key : α → κ} {passes : List (List α → List κ)}

/-- The invariant rule: what every drop keeps holds of the result. -/
theorem settle_inv {P : List α → Prop}
    (hstep : ∀ l d, P l → firstDrop passes l = some d → P (l.filter (key · ∉ d))) :
    ∀ {n : Nat} {l r : List α}, P l → settle key passes n l = some r → P r := by
  intro n
  induction n with
  | zero => intro l r _ h; cases h
  | succ n ih =>
    intro l r hl h
    simp only [settle] at h
    split at h
    · cases h
      exact hl
    · exact ih (hstep _ _ hl ‹_›) h

/-- The result is stable. -/
theorem settle_stable {n : Nat} {l r : List α} (h : settle key passes n l = some r) :
    ∀ p ∈ passes, p r = [] := by
  induction n generalizing l with
  | zero => cases h
  | succ n ih =>
    simp only [settle] at h
    split at h
    · cases h
      exact firstDrop_eq_none.1 ‹_›
    · exact ih h

theorem settle_of_stable {l : List α} (h : ∀ p ∈ passes, p l = []) (n : Nat) :
    settle key passes (n + 1) l = some l := by
  simp [settle, firstDrop_eq_none.2 h]

theorem settle_sublist {n : Nat} {l r : List α} (h : settle key passes n l = some r) : r.Sublist l :=
  settle_inv (P := (·.Sublist l)) (fun _ _ hl _ => List.filter_sublist.trans hl) (List.Sublist.refl l) h

/-- Every round that goes on shortens the list, so the loop ends. -/
theorem settle_isSome (hkey : ∀ p ∈ passes, ∀ l, p l ⊆ l.map key) :
    ∀ {n : Nat} {l : List α}, l.length < n → (settle key passes n l).isSome := by
  intro n
  induction n with
  | zero => intro l h; simp at h
  | succ n ih =>
    intro l hl
    simp only [settle]
    split
    · rfl
    · rename_i d hd
      obtain ⟨p, hp, rfl, hne⟩ := firstDrop_eq_some hd
      obtain ⟨k, hk⟩ := List.exists_mem_of_ne_nil _ hne
      obtain ⟨x, hx, rfl⟩ := List.mem_map.1 (hkey p hp l hk)
      refine ih ?_
      have hlt : (l.filter (key · ∉ p l)).length < l.length :=
        List.length_filter_lt_length_iff_exists.2 ⟨x, hx, by simpa using hk⟩
      omega

end

end AgentSdk.Lib
