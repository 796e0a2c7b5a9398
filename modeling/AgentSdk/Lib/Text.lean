import Mathlib.Data.List.Basic
import Mathlib.Data.List.DropRight
/-!
# Texts

A text is the list of its characters. What Python's strings call white space, a
line and a newline.
-/

namespace AgentSdk.Lib

abbrev Text := List Char

instance Text.lawfulBEq : LawfulBEq Text := inferInstance

/-! ## White space -/

/-- `str.isspace()`, which is also what `\s` matches. -/
def isSpace (c : Char) : Bool :=
  c.toNat ∈ [9, 10, 11, 12, 13, 28, 29, 30, 31, 32, 0x85, 0xa0, 0x1680, 0x2028, 0x2029, 0x202f, 0x205f, 0x3000] ||
    (0x2000 ≤ c.toNat && c.toNat ≤ 0x200a)

def lstrip (t : Text) : Text := t.dropWhile isSpace

def rstrip (t : Text) : Text := t.rdropWhile isSpace

def strip (t : Text) : Text := rstrip (lstrip t)

theorem strip_within (t : Text) : strip t <:+: t :=
  (List.rdropWhile_prefix isSpace (lstrip t)).isInfix.trans (List.dropWhile_suffix isSpace).isInfix

theorem isSpace_newline : isSpace '\n' = true := by decide

theorem lstrip_length_le (t : Text) : (lstrip t).length ≤ t.length := List.length_dropWhile_le _ _

theorem rstrip_length_le (t : Text) : (rstrip t).length ≤ t.length := (List.rdropWhile_prefix isSpace t).length_le

theorem strip_eq_iff {t : Text} : strip t = t ↔ lstrip t = t ∧ rstrip t = t := by
  constructor
  · intro h
    have hl : lstrip t = t := by
      refine (List.dropWhile_suffix _).eq_of_length (Nat.le_antisymm (lstrip_length_le t) ?_)
      calc t.length = (strip t).length := by rw [h]
        _ ≤ (lstrip t).length := rstrip_length_le _
    refine ⟨hl, ?_⟩
    rw [strip, hl] at h
    exact h
  · rintro ⟨hl, hr⟩
    rw [strip, hl, hr]

theorem lstrip_append {p t : Text} (ht : lstrip t = t) : lstrip (p ++ t) = lstrip p ++ t := by
  unfold lstrip at ht ⊢
  rw [List.dropWhile_append]
  split
  · rename_i h
    rw [List.isEmpty_iff.1 h, ht]
    rfl
  · rfl

theorem rstrip_concat {t : Text} {c : Char} (hc : isSpace c = false) : rstrip (t ++ [c]) = t ++ [c] :=
  List.rdropWhile_concat_neg _ _ _ (by simp [hc])

theorem lstrip_cons {t : Text} {c : Char} (hc : isSpace c = false) : lstrip (c :: t) = c :: t := by
  simp [lstrip, hc]

theorem strip_of_no_space {t : Text} (h : ∀ c ∈ t, isSpace c = false) : strip t = t := by
  refine strip_eq_iff.2 ⟨?_, ?_⟩
  · cases t with
    | nil => rfl
    | cons c t => exact lstrip_cons (h c List.mem_cons_self)
  · rcases List.eq_nil_or_concat t with rfl | ⟨u, c, rfl⟩
    · rfl
    · rw [List.concat_eq_append]
      exact rstrip_concat (h c (by simp))

theorem isSpace_of_isDigit {c : Char} (h : c.isDigit = true) : isSpace c = false := by
  simp only [Char.isDigit, Bool.and_eq_true, decide_eq_true_eq, ge_iff_le, UInt32.le_iff_toNat_le] at h
  have hlow : 48 ≤ c.toNat := h.1
  have hhigh : c.toNat ≤ 57 := h.2
  simp [isSpace]
  omega

theorem not_space_of_lstrip {c : Char} {t : Text} (h : lstrip (c :: t) = c :: t) : isSpace c = false := by
  by_contra hc
  have hspace : isSpace c = true := by simpa using hc
  rw [lstrip, List.dropWhile_cons_of_pos hspace] at h
  have hle := lstrip_length_le t
  rw [lstrip, h] at hle
  exact absurd hle (by simp)

theorem lstrip_part {p t : Text} (ht : lstrip t = t) (hp : p <+: t) : lstrip p = p := by
  cases p with
  | nil => rfl
  | cons c p =>
    obtain ⟨u, rfl⟩ := hp
    exact lstrip_cons (not_space_of_lstrip ht)

theorem strip_strip (t : Text) : strip (strip t) = strip t := by
  have hlead : lstrip (lstrip t) = lstrip t := List.dropWhile_idempotent _ _
  exact strip_eq_iff.2 ⟨lstrip_part hlead (List.rdropWhile_prefix _ _), List.rdropWhile_idempotent _ _⟩

theorem strip_length_le (t : Text) : (strip t).length ≤ t.length :=
  (rstrip_length_le _).trans (lstrip_length_le t)

/-- No character of it is white space. -/
def Solid (t : Text) : Prop := ∀ c ∈ t, isSpace c = false

instance Solid.decidable (t : Text) : Decidable (Solid t) := List.decidableBAll (fun c => isSpace c = false) t

theorem Solid.append {t u : Text} (ht : Solid t) (hu : Solid u) : Solid (t ++ u) := by
  intro c hc
  rcases List.mem_append.1 hc with hc | hc
  · exact ht c hc
  · exact hu c hc

/-! ## Lines -/

/-- Python's universal newlines. -/
def newlines : Text → Text
  | '\r' :: '\n' :: cs => '\n' :: newlines cs
  | '\r' :: cs => '\n' :: newlines cs
  | c :: cs => c :: newlines cs
  | [] => []

/-- `str.splitlines`. -/
def splitLines : Text → List Text
  | [] => []
  | '\r' :: '\n' :: rest => [] :: splitLines rest
  | c :: rest =>
    if c.toNat ∈ [0x0a, 0x0d, 0x0b, 0x0c, 0x1c, 0x1d, 0x1e, 0x85, 0x2028, 0x2029] then [] :: splitLines rest
    else
      match splitLines rest with
      | [] => [[c]]
      | line :: lines => (c :: line) :: lines

theorem newlines_eq {cs : Text} (h : '\r' ∉ cs) : newlines cs = cs := by
  fun_induction newlines cs with
  | case1 cs ih => simp at h
  | case2 cs hne ih => simp at h
  | case3 c cs hne₁ hne₂ ih =>
    rw [List.mem_cons, not_or] at h
    rw [ih h.2]
  | case4 => rfl

theorem not_mem_newlines (t : Text) : '\r' ∉ newlines t := by
  fun_induction newlines t with
  | case1 cs ih => simp [ih]
  | case2 cs hne ih => simp [ih]
  | case3 c cs hne₁ hne₂ ih =>
    rw [List.mem_cons, not_or]
    exact ⟨fun hc => hne₂ hc.symm, ih⟩
  | case4 => exact List.not_mem_nil

end AgentSdk.Lib
