import Mathlib.Data.List.Infix
/-!
# Lines and occurrences

The lines of a text with their terminators, and the places at which a pattern is
found from the left.
-/

namespace AgentSdk.Lib

/-! ## Lines -/

/-- Lines that end with `\n`, the last one maybe without. -/
def lines : List Char → List (List Char)
  | [] => []
  | c :: cs =>
    if c = '\n' then [c] :: lines cs
    else
      match lines cs with
      | [] => [[c]]
      | l :: ls => (c :: l) :: ls

/-- Lines that end with `\n`, `\r\n` or `\r`. -/
def uniLines : List Char → List (List Char)
  | [] => []
  | '\r' :: '\n' :: cs => ['\r', '\n'] :: uniLines cs
  | c :: cs =>
    if c = '\n' ∨ c = '\r' then [c] :: uniLines cs
    else
      match uniLines cs with
      | [] => [[c]]
      | l :: ls => (c :: l) :: ls

section Lines
variable {a b t : List Char} {k : Nat}

theorem lines_nil : lines [] = [] := rfl

theorem lines_cons (c : Char) (cs : List Char) :
    lines (c :: cs) =
      if c = '\n' then [c] :: lines cs
      else
        match lines cs with
        | [] => [[c]]
        | l :: ls => (c :: l) :: ls := rfl

theorem uniLines_eq_lines (h : '\r' ∉ t) : uniLines t = lines t := by
  fun_induction uniLines t with
  | case1 => rfl
  | case2 cs ih => simp at h
  | case3 c cs hne hc ih =>
    rw [List.mem_cons, not_or] at h
    have hn : c = '\n' := hc.resolve_right (Ne.symm h.1)
    rw [lines_cons, if_pos hn, ih h.2]
  | case4 c cs hne hc hnil ih =>
    rw [List.mem_cons, not_or] at h
    rw [lines_cons, if_neg fun hn => hc (.inl hn), ← ih h.2, hnil]
  | case5 c cs hne hc l ls hcons ih =>
    rw [List.mem_cons, not_or] at h
    rw [lines_cons, if_neg fun hn => hc (.inl hn), ← ih h.2, hcons]

theorem flatten_lines (t : List Char) : (lines t).flatten = t := by
  induction t with
  | nil => rfl
  | cons c cs ih =>
    rw [lines_cons]
    split
    · rw [List.flatten_cons, ih]
      rfl
    · split
      · rename_i hnil
        rw [hnil] at ih
        simp only [← ih, List.flatten_nil, List.flatten_cons, List.append_nil]
      · rename_i l ls hcons
        rw [hcons, List.flatten_cons] at ih
        rw [List.flatten_cons, List.cons_append, ih]

theorem flatten_uniLines (t : List Char) : (uniLines t).flatten = t := by
  fun_induction uniLines t with
  | case1 => rfl
  | case2 cs ih => simp [ih]
  | case3 c cs hne hc ih => simp [ih]
  | case4 c cs hne hc hnil ih =>
    rw [hnil] at ih
    simp [← ih]
  | case5 c cs hne hc l ls hcons ih =>
    rw [hcons, List.flatten_cons] at ih
    rw [List.flatten_cons, List.cons_append, ih]

theorem uniLines_ne_nil (h : t ≠ []) : uniLines t ≠ [] := by
  intro hnil
  have := flatten_uniLines t
  rw [hnil] at this
  exact h this.symm

theorem line_ne_nil {l : List Char} (h : l ∈ lines t) : l ≠ [] := by
  induction t generalizing l with
  | nil => cases h
  | cons c cs ih =>
    rw [lines_cons] at h
    split at h
    · rcases List.mem_cons.1 h with rfl | h
      · exact List.cons_ne_nil _ _
      · exact ih h
    · split at h
      · rw [List.mem_singleton] at h
        rw [h]
        exact List.cons_ne_nil _ _
      · rename_i l' ls hcons
        rcases List.mem_cons.1 h with rfl | h
        · exact List.cons_ne_nil _ _
        · exact ih (by rw [hcons]; exact List.mem_cons_of_mem _ h)

/-- A text that ends its last line keeps its lines when another one follows. -/
theorem uniLines_append (h : a = [] ∨ a.getLast? = some '\n') : uniLines (a ++ b) = uniLines a ++ uniLines b := by
  fun_induction uniLines a with
  | case1 => rfl
  | case2 cs ih =>
    have hcs : cs = [] ∨ cs.getLast? = some '\n' := by
      cases cs with
      | nil => exact .inl rfl
      | cons c cs => simpa using h
    rw [List.cons_append, List.cons_append, uniLines, ih hcs]
    rfl
  | case3 c cs hne hc ih =>
    have hcs : cs = [] ∨ cs.getLast? = some '\n' := by
      cases cs with
      | nil => exact .inl rfl
      | cons c cs => simpa using h
    have hlast : ∀ ds, c = '\r' → cs ++ b = '\n' :: ds → False := by
      rintro ds rfl hds
      cases cs with
      | nil => simp at h
      | cons d cs =>
        cases hds
        exact hne cs rfl rfl
    rw [List.cons_append, uniLines.eq_3 _ _ hlast, if_pos hc, ih hcs]
    rfl
  | case4 c cs hne hc hnil ih =>
    have hcs : cs = [] := by
      by_contra hcs
      exact uniLines_ne_nil hcs hnil
    subst hcs
    rcases h with h | h
    · cases h
    · exact absurd (.inl (Option.some.inj h)) hc
  | case5 c cs hne hc l ls hcons ih =>
    have hcs : cs.getLast? = some '\n' := by
      cases cs with
      | nil => cases hcons
      | cons d cs => simpa using h
    have hlast : ∀ ds, c = '\r' → cs ++ b = '\n' :: ds → False := fun ds hr _ => hc (.inr hr)
    rw [List.cons_append, uniLines.eq_3 _ _ hlast, if_neg hc, ih (.inr hcs), hcons]
    rfl

/-- Where a text does not end its last line, what follows goes on with it. -/
theorem length_uniLines_append (ha : '\r' ∉ a) (hne : a ≠ []) (hlast : a.getLast? ≠ some '\n') (hb : b ≠ []) :
    (uniLines (a ++ b)).length + 1 = (uniLines a).length + (uniLines b).length := by
  induction a with
  | nil => exact absurd rfl hne
  | cons c cs ih =>
    rw [List.mem_cons, not_or] at ha
    have hr : ∀ ds es : List Char, c = '\r' → ds = '\n' :: es → False := fun _ _ hr _ => ha.1 hr.symm
    rw [List.cons_append, uniLines.eq_3 _ _ (hr _), uniLines.eq_3 _ _ (hr _)]
    cases cs with
    | nil =>
      have hc : ¬ (c = '\n' ∨ c = '\r') := by
        rintro (hc | hc)
        · exact hlast (by rw [hc]; rfl)
        · exact ha.1 hc.symm
      rw [if_neg hc, if_neg hc]
      cases hl : uniLines b with
      | nil => exact absurd hl (uniLines_ne_nil hb)
      | cons l ls =>
        simp only [List.nil_append, hl, uniLines, List.length_cons, List.length_nil]
        omega
    | cons d ds =>
      have ih := ih ha.2 (List.cons_ne_nil _ _) (by simpa using hlast)
      by_cases hc : c = '\n' ∨ c = '\r'
      · rw [if_pos hc, if_pos hc, List.length_cons, List.length_cons]
        omega
      · rw [if_neg hc, if_neg hc]
        cases h₁ : uniLines (d :: ds ++ b) with
        | nil => exact absurd h₁ (uniLines_ne_nil (by simp))
        | cons l ls =>
          cases h₂ : uniLines (d :: ds) with
          | nil => exact absurd h₂ (uniLines_ne_nil (by simp))
          | cons m ms =>
            rw [h₁, h₂] at ih
            exact ih

theorem lines_take (t : List Char) (k : Nat) : lines ((lines t).take k).flatten = (lines t).take k := by
  induction t generalizing k with
  | nil => simp [lines_nil]
  | cons c cs ih =>
    cases k with
    | zero => rfl
    | succ k =>
      rw [lines_cons]
      split
      · rename_i hc
        rw [List.take_succ_cons, List.flatten_cons, List.singleton_append, lines_cons, if_pos hc, ih]
      · rename_i hc
        cases hcs : lines cs with
        | nil => simp [lines_cons, lines_nil, hc]
        | cons l ls =>
          have ih := ih (k + 1)
          rw [hcs, List.take_succ_cons, List.flatten_cons] at ih
          rw [List.take_succ_cons, List.flatten_cons, List.cons_append, lines_cons, if_neg hc, ih]

theorem lines_drop (t : List Char) (k : Nat) : lines ((lines t).drop k).flatten = (lines t).drop k := by
  induction t generalizing k with
  | nil => simp [lines_nil]
  | cons c cs ih =>
    cases k with
    | zero => rw [List.drop_zero, flatten_lines]
    | succ k =>
      rw [lines_cons]
      split
      · rw [List.drop_succ_cons, ih]
      · cases hcs : lines cs with
        | nil => simp [lines_nil]
        | cons l ls =>
          have ih := ih (k + 1)
          rw [hcs, List.drop_succ_cons] at ih
          rw [List.drop_succ_cons, ih]

/-- What precedes a line ends with a terminator. -/
theorem getLast?_flatten_take (h : k < (lines t).length) :
    ((lines t).take k).flatten = [] ∨ ((lines t).take k).flatten.getLast? = some '\n' := by
  induction t generalizing k with
  | nil => simp [lines_nil] at h
  | cons c cs ih =>
    cases k with
    | zero => exact .inl rfl
    | succ k =>
      refine .inr ?_
      rw [lines_cons] at h ⊢
      split
      · rename_i hc
        rw [if_pos hc, List.length_cons, Nat.succ_lt_succ_iff] at h
        rw [List.take_succ_cons, List.flatten_cons, List.singleton_append]
        rcases ih h with hnil | hlast
        · rw [hnil, hc]
          rfl
        · rw [List.getLast?_cons, hlast]
          rfl
      · rename_i hc
        rw [if_neg hc] at h
        cases hcs : lines cs with
        | nil =>
          rw [hcs, List.length_singleton] at h
          omega
        | cons l ls =>
          rw [hcs, List.length_cons] at h
          have hl : l ≠ [] := line_ne_nil (by rw [hcs]; exact List.mem_cons_self)
          have ih := @ih (k + 1) (by rw [hcs, List.length_cons]; exact h)
          rw [hcs, List.take_succ_cons, List.flatten_cons] at ih
          rw [List.take_succ_cons, List.flatten_cons, List.cons_append, List.getLast?_cons]
          rcases ih with hnil | hlast
          · exact absurd (List.append_eq_nil_iff.1 hnil).1 hl
          · rw [hlast]
            rfl

end Lines

/-! ## Occurrences -/

section Occurrences
variable {α : Type _} [DecidableEq α]

/-- The places from the left at which the pattern is found, none inside the one
before; the first characters are skipped. -/
def matchesFrom (pat : List α) : Nat → Nat → List α → List Nat
  | skip + 1, i, _ :: cs => matchesFrom pat skip (i + 1) cs
  | 0, i, c :: cs =>
    if pat.isPrefixOf (c :: cs) then i :: matchesFrom pat (pat.length - 1) (i + 1) cs
    else matchesFrom pat 0 (i + 1) cs
  | skip, i, [] => if pat = [] ∧ skip = 0 then [i] else []

def matchesOf (pat t : List α) : List Nat := matchesFrom pat 0 0 t

variable {pat t : List α} {i : Nat}

theorem prefix_of_matchesFrom {skip pos : Nat} (h : i ∈ matchesFrom pat skip pos t) :
    ∃ j, i = pos + j ∧ pat <+: t.drop j := by
  fun_induction matchesFrom pat skip pos t with
  | case1 skip pos c cs ih =>
    obtain ⟨j, rfl, hj⟩ := ih h
    exact ⟨j + 1, by omega, hj⟩
  | case2 pos c cs hpre ih =>
    rcases List.mem_cons.1 h with rfl | h
    · exact ⟨0, rfl, List.isPrefixOf_iff_prefix.1 hpre⟩
    · obtain ⟨j, rfl, hj⟩ := ih h
      exact ⟨j + 1, by omega, hj⟩
  | case3 pos c cs hpre ih =>
    obtain ⟨j, rfl, hj⟩ := ih h
    exact ⟨j + 1, by omega, hj⟩
  | case4 skip pos hnil =>
    rw [List.mem_singleton] at h
    exact ⟨0, h, by rw [hnil.1]; exact List.nil_prefix⟩
  | case5 skip pos hnil => cases h

theorem matchesOf_split (h : i ∈ matchesOf pat t) : t = t.take i ++ (pat ++ t.drop (i + pat.length)) := by
  obtain ⟨j, hj, hpre⟩ := prefix_of_matchesFrom h
  rw [Nat.zero_add] at hj
  subst hj
  have hdrop := List.prefix_iff_eq_append.1 hpre
  rw [List.drop_drop] at hdrop
  rw [hdrop, List.take_append_drop]

theorem matchesFrom_ne_nil {pos : Nat} (h : pat <:+: t) : matchesFrom pat 0 pos t ≠ [] := by
  induction t generalizing pos with
  | nil =>
    have hnil := List.infix_nil.1 h
    simp [matchesFrom, hnil]
  | cons c cs ih =>
    rw [matchesFrom]
    split
    · exact List.cons_ne_nil _ _
    · rename_i hpre
      rcases List.infix_cons_iff.1 h with h | h
      · exact absurd (List.isPrefixOf_iff_prefix.2 h) hpre
      · exact ih h

theorem matchesOf_eq_nil : matchesOf pat t = [] ↔ ¬ pat <:+: t := by
  constructor
  · exact fun hnil h => matchesFrom_ne_nil h hnil
  · intro h
    rw [List.eq_nil_iff_forall_not_mem]
    intro i hi
    exact h ⟨t.take i, t.drop (i + pat.length), by rw [List.append_assoc]; exact (matchesOf_split hi).symm⟩

end Occurrences

end AgentSdk.Lib
