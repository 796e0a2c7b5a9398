import Mathlib.Data.List.Basic
/-!
# Substitution in one pass

Texts in which what a finder finds is replaced, from left to right; a text that
was put in is not looked at again.
-/

namespace AgentSdk.Lib

variable {α μ : Type _}

/-- Finds something at the head of a text: what, and how many symbols it takes. -/
structure Finder (α μ : Type _) where
  find : List α → Option (μ × Nat)
  find_pos : ∀ {text : List α} {m : μ} {n : Nat}, find text = some (m, n) → 0 < n

/-- A piece of a text: a symbol where nothing begins, or what was found. -/
inductive Piece (α μ : Type _) where
  | symbol (a : α)
  | found (text : List α) (m : μ)
deriving DecidableEq

def Piece.text : Piece α μ → List α
  | .symbol a => [a]
  | .found text _ => text

namespace Finder

variable (p : Finder α μ)

def cut : Nat → List α → List (Piece α μ)
  | 0, _ => []
  | _ + 1, [] => []
  | fuel + 1, a :: rest =>
    match p.find (a :: rest) with
    | none => .symbol a :: cut fuel rest
    | some (m, n) => .found ((a :: rest).take n) m :: cut fuel ((a :: rest).drop n)

/-- The text cut at what was found. -/
def pieces (text : List α) : List (Piece α μ) := p.cut text.length text

/-- `sub`: what `f` knows is replaced. -/
def replace (f : μ → Option (List α)) (text : List α) : List α :=
  (p.pieces text).flatMap fun
    | .symbol a => [a]
    | .found t m => (f m).getD t

/-- The texts that `replace` replaces. -/
def replaced (f : μ → Option (List α)) (text : List α) : List (List α) :=
  (p.pieces text).filterMap fun
    | .symbol _ => none
    | .found t m => (f m).map fun _ => t

variable {p}

theorem flatMap_cut {fuel : Nat} {text : List α} (h : text.length ≤ fuel) : (p.cut fuel text).flatMap Piece.text = text := by
  induction fuel generalizing text with
  | zero =>
    rw [List.length_eq_zero_iff.1 (Nat.le_zero.1 h)]
    rfl
  | succ fuel ih =>
    cases text with
    | nil => rfl
    | cons a rest =>
      rw [List.length_cons] at h
      unfold cut
      split
      · rw [List.flatMap_cons, ih (by omega)]
        rfl
      · rename_i m n hfind
        have hpos := p.find_pos hfind
        have hlen : ((a :: rest).drop n).length ≤ fuel := by
          rw [List.length_drop, List.length_cons]
          omega
        rw [List.flatMap_cons, ih hlen]
        exact List.take_append_drop _ _

/-- The pieces make up the text. -/
theorem flatMap_pieces (text : List α) : (p.pieces text).flatMap Piece.text = text := flatMap_cut (Nat.le_refl _)

/-- Where nothing is replaced the text stays. -/
theorem replace_eq_self {f : μ → Option (List α)} {text : List α} (h : p.replaced f text = []) :
    p.replace f text = text := by
  rw [replaced, List.filterMap_eq_nil_iff] at h
  refine Eq.trans ?_ (flatMap_pieces (p := p) text)
  rw [replace, List.flatMap_def, List.flatMap_def]
  congr 1
  refine List.map_congr_left fun piece hpiece => ?_
  cases piece with
  | symbol a => rfl
  | found t m =>
    have hnone : f m = none := Option.map_eq_none_iff.1 (h _ hpiece)
    simp [hnone, Piece.text]

/-- A symbol of the result is one of the text, or of what was put in. -/
theorem mem_replace {f : μ → Option (List α)} {text : List α} {a : α} (h : a ∈ p.replace f text) :
    a ∈ text ∨ ∃ m v, f m = some v ∧ a ∈ v := by
  obtain ⟨piece, hpiece, ha⟩ := List.mem_flatMap.1 h
  have hpart : a ∈ piece.text → a ∈ text := fun hmem =>
    flatMap_pieces (p := p) text ▸ List.mem_flatMap.2 ⟨piece, hpiece, hmem⟩
  cases piece with
  | symbol b => exact .inl (hpart ha)
  | found t m =>
    dsimp only at ha
    cases hm : f m with
    | none =>
      rw [hm] at ha
      exact .inl (hpart ha)
    | some v =>
      rw [hm] at ha
      exact .inr ⟨m, v, hm, ha⟩

theorem mem_cut_found {fuel : Nat} {text t : List α} {m : μ} (h : .found t m ∈ p.cut fuel text) :
    t ≠ [] ∧ t ⊆ text := by
  induction fuel generalizing text with
  | zero => cases h
  | succ fuel ih =>
    cases text with
    | nil => cases h
    | cons a rest =>
      unfold cut at h
      split at h
      · rcases List.mem_cons.1 h with h | h
        · cases h
        · obtain ⟨hne, hsub⟩ := ih h
          exact ⟨hne, fun x hx => List.mem_cons_of_mem _ (hsub hx)⟩
      · rename_i m' n hfind
        rcases List.mem_cons.1 h with h | h
        · cases h
          refine ⟨fun hnil => ?_, List.take_subset _ _⟩
          rcases List.take_eq_nil_iff.1 hnil with hzero | hnil
          · exact Nat.ne_of_gt (p.find_pos hfind) hzero
          · cases hnil
        · obtain ⟨hne, hsub⟩ := ih h
          exact ⟨hne, fun x hx => List.drop_subset _ _ (hsub hx)⟩

/-- What is replaced is a part of the text and not empty. -/
theorem mem_replaced {f : μ → Option (List α)} {text t : List α} (h : t ∈ p.replaced f text) : t ≠ [] ∧ t ⊆ text := by
  obtain ⟨piece, hpiece, heq⟩ := List.mem_filterMap.1 h
  cases piece with
  | symbol a => cases heq
  | found u m =>
    obtain ⟨v, -, rfl⟩ := Option.map_eq_some_iff.1 heq
    exact mem_cut_found hpiece

end Finder

end AgentSdk.Lib
