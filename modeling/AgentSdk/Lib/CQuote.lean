import AgentSdk.Lib.Rows
import Mathlib.Algebra.Order.BigOperators.Group.List
import Mathlib.Algebra.Order.Group.Nat
/-!
# Quoted path names

How git prints a path name in a line of its output: as it is, or between quotes
as a C string if it has a quote, a backslash or a control character, or, with
`core.quotePath`, anything beyond ASCII. A quoted name is longer than the name.
-/

namespace AgentSdk.Lib

/-- The bytes that have an escape of their own. -/
def escapeLetter : Nat → Option Char
  | 7 => some 'a'
  | 8 => some 'b'
  | 9 => some 't'
  | 10 => some 'n'
  | 11 => some 'v'
  | 12 => some 'f'
  | 13 => some 'r'
  | 34 => some '"'
  | 92 => some '\\'
  | _ => none

def octalDigits (b : Nat) : Text := [Nat.digitChar (b / 64 % 8), Nat.digitChar (b / 8 % 8), Nat.digitChar (b % 8)]

def quoteByte (b : Nat) : Text :=
  '\\' :: match escapeLetter b with
    | some c => [c]
    | none => octalDigits b

section
variable (quotePath : Bool)

def mustQuote (c : Char) : Bool :=
  c.toNat < 32 || c = '"' || c = '\\' || c.toNat = 127 || quotePath && 128 ≤ c.toNat

def quoteChar (c : Char) : Text :=
  if mustQuote quotePath c then (String.utf8EncodeChar c).flatMap fun b => quoteByte b.toNat else [c]

def cQuote (name : Text) : Text :=
  if name.any (mustQuote quotePath) then '"' :: (name.flatMap (quoteChar quotePath) ++ ['"']) else name
end

example : cQuote true "\u00e9\\".toList = "\"\\303\\251\\\\\"".toList := by decide +kernel

variable {quotePath : Bool} {name : Text}

/-- A visible character of ASCII. -/
def Graphic (c : Char) : Prop := 33 ≤ c.toNat ∧ c.toNat < 127

theorem Graphic.not_space {c : Char} (h : Graphic c) : isSpace c = false := by
  obtain ⟨hlow, hhigh⟩ := h
  simp [isSpace]
  omega

theorem graphic_of_mem_quoteByte {b : Nat} {c : Char} (h : c ∈ quoteByte b) : Graphic c := by
  have hdigit : ∀ k < 8, Graphic (Nat.digitChar k) := by
    unfold Graphic
    decide
  have hletter : ∀ c ∈ escapeLetter b, Graphic c := by
    unfold escapeLetter Graphic
    split <;> simp
  rcases List.mem_cons.1 h with rfl | h
  · unfold Graphic
    decide
  · split at h
    · rename_i d hd
      rw [List.mem_singleton.1 h]
      exact hletter d hd
    · simp only [octalDigits, List.mem_cons, List.not_mem_nil, or_false] at h
      rcases h with rfl | rfl | rfl <;> exact hdigit _ (Nat.mod_lt _ (by decide))

theorem mem_quoteChar {c d : Char} (h : d ∈ quoteChar quotePath c) : d = c ∧ mustQuote quotePath c = false ∨ Graphic d := by
  unfold quoteChar at h
  split at h
  · obtain ⟨b, -, hb⟩ := List.mem_flatMap.1 h
    exact .inr (graphic_of_mem_quoteByte hb)
  · exact .inl ⟨List.mem_singleton.1 h, Bool.eq_false_iff.2 ‹_›⟩

/-- A character that is printed stands in the name and needs no quotes, or is
visible. -/
theorem mem_cQuote {d : Char} (h : d ∈ cQuote quotePath name) : d ∈ name ∧ mustQuote quotePath d = false ∨ Graphic d := by
  have hquote : Graphic '"' := by
    unfold Graphic
    decide
  unfold cQuote at h
  split at h
  · rcases List.mem_cons.1 h with rfl | h
    · exact .inr hquote
    · rcases List.mem_append.1 h with h | h
      · obtain ⟨c, hc, hd⟩ := List.mem_flatMap.1 h
        rcases mem_quoteChar hd with ⟨rfl, hplain⟩ | hgraphic
        · exact .inl ⟨hc, hplain⟩
        · exact .inr hgraphic
      · rw [List.mem_singleton.1 h]
        exact .inr hquote
  · rename_i hany
    rw [Bool.not_eq_true, List.any_eq_false] at hany
    exact .inl ⟨h, Bool.eq_false_iff.2 (hany d h)⟩

theorem cQuote_solid (h : Solid name) : Solid (cQuote quotePath name) := by
  intro d hd
  rcases mem_cQuote hd with ⟨hmem, -⟩ | hgraphic
  · exact h d hmem
  · exact hgraphic.not_space

theorem cQuote_eq_self (h : ∀ c ∈ name, mustQuote quotePath c = false) : cQuote quotePath name = name :=
  if_neg (by rw [Bool.not_eq_true, List.any_eq_false]; exact fun c hc => Bool.eq_false_iff.1 (h c hc))

theorem quoteChar_ne_nil (c : Char) : quoteChar quotePath c ≠ [] := by
  unfold quoteChar
  split
  · rw [ne_eq, List.flatMap_eq_nil_iff, not_forall]
    obtain ⟨b, hb⟩ := List.exists_mem_of_ne_nil _ (String.utf8EncodeChar_ne_nil (c := c))
    exact ⟨b, fun h => List.cons_ne_nil _ _ (h hb)⟩
  · exact List.cons_ne_nil _ _

theorem length_le_flatMap_quoteChar (name : Text) : name.length ≤ (name.flatMap (quoteChar quotePath)).length := by
  induction name with
  | nil => exact Nat.zero_le _
  | cons c name ih =>
    have hpos := List.length_pos_iff.2 (@quoteChar_ne_nil quotePath c)
    rw [List.flatMap_cons, List.length_append, List.length_cons]
    omega

/-- A name in quotes is longer. -/
theorem length_lt_cQuote {c : Char} (hc : c ∈ name) (hquote : mustQuote quotePath c = true) :
    name.length < (cQuote quotePath name).length := by
  have hle := @length_le_flatMap_quoteChar quotePath name
  rw [cQuote, if_pos (List.any_eq_true.2 ⟨c, hc, hquote⟩), List.length_cons, List.length_append, List.length_singleton]
  omega

theorem cQuote_cases (quotePath : Bool) (name : Text) :
    cQuote quotePath name = name ∨
      ∃ t, cQuote quotePath name = '"' :: (t ++ ['"']) ∧ name.length < (cQuote quotePath name).length := by
  by_cases hany : name.any (mustQuote quotePath) = true
  · obtain ⟨c, hc, hquote⟩ := List.any_eq_true.1 hany
    exact .inr ⟨_, if_pos hany, length_lt_cQuote hc hquote⟩
  · exact .inl (if_neg hany)

theorem cQuote_ne_nil (quotePath : Bool) (h : name ≠ []) : cQuote quotePath name ≠ [] := by
  rcases cQuote_cases quotePath name with heq | ⟨t, heq, -⟩
  · rwa [heq]
  · rw [heq]
    exact List.cons_ne_nil _ _

/-- No control character is printed as it is. -/
theorem not_mem_cQuote (quotePath : Bool) (name : Text) {d : Char} (hd : d.toNat < 32) : d ∉ cQuote quotePath name := by
  intro h
  rcases mem_cQuote h with ⟨-, hplain⟩ | ⟨hlow, -⟩
  · simp [mustQuote, hd] at hplain
  · omega

theorem strip_cQuote (h : strip name = name) : strip (cQuote quotePath name) = cQuote quotePath name := by
  rcases cQuote_cases quotePath name with heq | ⟨t, heq, -⟩
  · rwa [heq]
  · rw [heq, strip_eq_iff]
    refine ⟨List.dropWhile_cons_of_neg (by decide), ?_⟩
    rw [← List.cons_append]
    exact List.rdropWhile_concat_neg _ _ _ (by decide)

theorem cQuote_no_lineEnd (h : ∀ c ∈ name, isLineEnd c = false) : ∀ d ∈ cQuote quotePath name, isLineEnd d = false := by
  intro d hd
  rcases mem_cQuote hd with ⟨hmem, -⟩ | hgraphic
  · exact h d hmem
  · rw [Bool.eq_false_iff]
    intro hend
    have hspace := isSpace_of_isLineEnd hend
    rw [hgraphic.not_space] at hspace
    cases hspace

/-- Members that a function makes longer or leaves alone, and that are the same
members afterwards, were all left alone. -/
theorem fixed_of_perm_map {α : Type _} (f : α → α) (size : α → Nat) (hf : ∀ a, f a = a ∨ size a < size (f a))
    {l : List α} (h : (l.map f).Perm l) : ∀ a ∈ l, f a = a := by
  intro a ha
  by_contra hne
  have hlt : (l.map size).sum < (l.map fun a => size (f a)).sum := by
    refine List.sum_lt_sum _ _ (fun b _ => ?_) ⟨a, ha, (hf a).resolve_left hne⟩
    rcases hf b with heq | hlt
    · rw [heq]
    · exact Nat.le_of_lt hlt
  have hsum := (h.map size).sum_eq
  rw [List.map_map] at hsum
  exact absurd hsum (Nat.ne_of_gt hlt)

end AgentSdk.Lib
