import Mathlib.Data.List.Basic
import Mathlib.Data.List.Infix
/-!
# Regular expressions

Regular expressions with tests of what follows, matched by a backtracking search:
greedy repetition, alternatives in order, the leftmost match first.
-/

namespace AgentSdk.Lib

inductive Regex (α : Type _) where
  | empty
  | one (p : α → Bool)
  | seq (r r' : Regex α)
  | alt (r r' : Regex α)
  | many (r : Regex α)
  /-- Matches nothing, where the rest of the text passes the test. -/
  | look (p : List α → Bool)

namespace Regex
variable {α : Type _}

def optional (r : Regex α) : Regex α := alt r empty

def plus (r : Regex α) : Regex α := seq r (many r)

def word [DecidableEq α] : List α → Regex α
  | [] => empty
  | b :: bs => seq (one (· = b)) (word bs)

/-- `r.Matches u t`: `r` matches `u` where `t` follows. -/
inductive Matches : Regex α → List α → List α → Prop
  | empty {t} : Matches empty [] t
  | one {p b t} : p b = true → Matches (one p) [b] t
  | seq {r r' u v t} : Matches r u (v ++ t) → Matches r' v t → Matches (seq r r') (u ++ v) t
  | left {r r' u t} : Matches r u t → Matches (alt r r') u t
  | right {r r' u t} : Matches r' u t → Matches (alt r r') u t
  | done {r t} : Matches (many r) [] t
  | more {r u v t} : u ≠ [] → Matches r u (v ++ t) → Matches (many r) v t → Matches (many r) (u ++ v) t
  | look {p t} : p t = true → Matches (look p) [] t

/-- Rounds of a repetition; each takes something away. -/
def manyRests (f : List α → List (List α)) : Nat → List α → List (List α)
  | 0, s => [s]
  | n + 1, s => ((f s).filter fun t => t.length < s.length).flatMap (manyRests f n) ++ [s]

/-- What the matches at the beginning of a text leave of it, in the order in which
they are tried. -/
def rests : Regex α → List α → List (List α)
  | .empty, s => [s]
  | .one _, [] => []
  | .one p, b :: s => if p b then [s] else []
  | .seq r r', s => (rests r s).flatMap (rests r')
  | .alt r r', s => rests r s ++ rests r' s
  | .many r, s => manyRests (rests r) s.length s
  | .look p, s => if p s then [s] else []

/-- A match begins here. -/
def starts (r : Regex α) (s : List α) : Bool := !(rests r s).isEmpty

/-- The rest after the first match that takes something. -/
def matchRest (r : Regex α) (s : List α) : Option (List α) := (rests r s).find? fun t => t.length < s.length

/-- Without its first `skip` symbols, the text without the matches of `r`. -/
def removeFrom (r : Regex α) : Nat → List α → List α
  | _, [] => []
  | skip + 1, _ :: s => removeFrom r skip s
  | 0, b :: s =>
    match matchRest r (b :: s) with
    | some t => removeFrom r (s.length - t.length) s
    | none => b :: removeFrom r 0 s

/-- The text without the matches of `r`. -/
def remove (r : Regex α) (s : List α) : List α := removeFrom r 0 s

/-- The text before and from the leftmost match. -/
def cut (r : Regex α) : List α → List α × List α
  | [] => ([], [])
  | b :: s => if starts r (b :: s) then ([], b :: s) else (b :: (cut r s).1, (cut r s).2)

/-! ## Matches -/

variable {r r' : Regex α} {p : α → Bool} {s t u v : List α} {b : α}

@[simp] theorem matches_empty_iff : Matches empty u t ↔ u = [] :=
  ⟨fun h => by cases h; rfl, fun h => h ▸ .empty⟩

@[simp] theorem matches_one_iff : Matches (one p) u t ↔ ∃ b, p b = true ∧ u = [b] := by
  constructor
  · intro h
    cases h with
    | one hp => exact ⟨_, hp, rfl⟩
  · rintro ⟨b, hp, rfl⟩
    exact .one hp

@[simp] theorem matches_look_iff {q : List α → Bool} : Matches (look q) u t ↔ q t = true ∧ u = [] := by
  constructor
  · intro h
    cases h with
    | look hq => exact ⟨hq, rfl⟩
  · rintro ⟨hq, rfl⟩
    exact .look hq

theorem matches_seq_iff : Matches (seq r r') s t ↔ ∃ u v, s = u ++ v ∧ Matches r u (v ++ t) ∧ Matches r' v t := by
  constructor
  · intro h
    cases h with
    | seq h h' => exact ⟨_, _, rfl, h, h'⟩
  · rintro ⟨u, v, rfl, h, h'⟩
    exact .seq h h'

@[simp] theorem matches_alt_iff : Matches (alt r r') u t ↔ Matches r u t ∨ Matches r' u t := by
  constructor
  · intro h
    cases h with
    | left h => exact .inl h
    | right h => exact .inr h
  · rintro (h | h)
    · exact .left h
    · exact .right h

@[simp] theorem matches_optional_iff : Matches (optional r) u t ↔ Matches r u t ∨ u = [] := by
  simp [optional]

/-- A symbol, and then the rest. -/
@[simp] theorem matches_one_seq_iff : Matches (seq (one p) r) s t ↔ ∃ b v, s = b :: v ∧ p b = true ∧ Matches r v t := by
  simp only [matches_seq_iff, matches_one_iff]
  constructor
  · rintro ⟨_, v, rfl, ⟨b, hp, rfl⟩, h⟩
    exact ⟨b, v, rfl, hp, h⟩
  · rintro ⟨b, v, rfl, hp, h⟩
    exact ⟨[b], v, rfl, ⟨b, hp, rfl⟩, h⟩

theorem matches_word_iff [DecidableEq α] {w : List α} : Matches (word w) u t ↔ u = w := by
  induction w generalizing u with
  | nil => simp [word]
  | cons b w ih => simp [word, ih]

theorem matches_word_seq_iff [DecidableEq α] {w : List α} :
    Matches (seq (word w) r) s t ↔ ∃ v, s = w ++ v ∧ Matches r v t := by
  simp only [matches_seq_iff, matches_word_iff]
  constructor
  · rintro ⟨_, v, rfl, rfl, h⟩
    exact ⟨v, rfl, h⟩
  · rintro ⟨v, rfl, h⟩
    exact ⟨w, v, rfl, rfl, h⟩

/-- A repetition of symbols. -/
@[simp] theorem matches_many_one_iff : Matches (many (one p)) u t ↔ ∀ b ∈ u, p b = true := by
  constructor
  · intro h
    generalize hr : many (one p) = r at h
    induction h with
    | done => exact fun _ hb => absurd hb List.not_mem_nil
    | more _ h _ _ ih =>
      cases hr
      obtain ⟨b, hp, rfl⟩ := matches_one_iff.1 h
      exact List.forall_mem_cons.2 ⟨hp, ih rfl⟩
    | empty | one | seq | left | right | look => cases hr
  · intro h
    induction u with
    | nil => exact .done
    | cons b u ih =>
      obtain ⟨hb, hu⟩ := List.forall_mem_cons.1 h
      exact .more (List.cons_ne_nil b []) (.one hb) (ih hu)

/-- A repetition of something that takes one symbol. -/
theorem matches_many_cons_iff (hone : ∀ {u t}, Matches r u t → u.length = 1) :
    Matches (many r) (b :: u) t ↔ Matches r [b] (u ++ t) ∧ Matches (many r) u t := by
  constructor
  · intro h
    generalize hs : b :: u = s at h
    cases h with
    | done => cases hs
    | more hne h h' =>
      obtain ⟨c, rfl⟩ := List.length_eq_one_iff.1 (hone h)
      cases hs
      exact ⟨h, h'⟩
  · rintro ⟨h, h'⟩
    exact .more (List.cons_ne_nil b []) h h'

/-- No tests of what follows. -/
def Plain : Regex α → Prop
  | .empty | .one _ => True
  | .seq r r' | .alt r r' => r.Plain ∧ r'.Plain
  | .many r => r.Plain
  | .look _ => False

theorem plain_word [DecidableEq α] (w : List α) : (word w).Plain := by
  induction w with
  | nil => trivial
  | cons b w ih => exact ⟨trivial, ih⟩

/-- A plain expression matches whatever follows. -/
theorem Matches.of_plain {t' : List α} (h : Matches r u t) (hr : r.Plain) : Matches r u t' := by
  induction h generalizing t' with
  | empty => exact .empty
  | one hp => exact .one hp
  | seq _ _ ih ih' => exact .seq (ih hr.1) (ih' hr.2)
  | left _ ih => exact .left (ih hr.1)
  | right _ ih => exact .right (ih hr.2)
  | done => exact .done
  | more hne _ _ ih ih' => exact .more hne (ih hr) (ih' hr)
  | look => exact hr.elim

/-! ## The search finds the matches -/

theorem mem_manyRests {f : List α → List (List α)} (hf : ∀ s t, t ∈ f s ↔ ∃ u, s = u ++ t ∧ Matches r u t) {n : Nat}
    (hn : s.length ≤ n) : t ∈ manyRests f n s ↔ ∃ u, s = u ++ t ∧ Matches (many r) u t := by
  induction n generalizing s with
  | zero =>
    obtain rfl := List.length_eq_zero_iff.1 (Nat.le_zero.1 hn)
    simp only [manyRests, List.mem_singleton, List.nil_eq, List.append_eq_nil_iff]
    exact ⟨fun h => ⟨[], ⟨rfl, h⟩, .done⟩, fun ⟨_, ⟨_, h⟩, _⟩ => h⟩
  | succ n ih =>
    simp only [manyRests, List.mem_append, List.mem_flatMap, List.mem_filter, decide_eq_true_eq, List.mem_singleton]
    constructor
    · rintro (⟨s', ⟨hs', hlen⟩, ht⟩ | rfl)
      · obtain ⟨u, rfl, hu⟩ := (hf s s').1 hs'
        obtain ⟨v, rfl, hv⟩ := (ih (Nat.le_of_lt_succ (Nat.lt_of_lt_of_le hlen hn))).1 ht
        refine ⟨u ++ v, (List.append_assoc u v t).symm, .more ?_ hu hv⟩
        rintro rfl
        exact absurd hlen (Nat.lt_irrefl _)
      · exact ⟨[], rfl, .done⟩
    · rintro ⟨u, rfl, hu⟩
      generalize hr : many r = r' at hu
      cases hu with
      | done => exact .inr rfl
      | @more r₀ u v t hne hu hv =>
        cases hr
        rw [List.append_assoc] at hn ⊢
        have hlen : (v ++ t).length < (u ++ (v ++ t)).length := by
          have := List.length_pos_iff.2 hne
          simp only [List.length_append]
          omega
        exact .inl ⟨v ++ t, ⟨(hf _ _).2 ⟨u, rfl, hu⟩, hlen⟩, (ih (by omega)).2 ⟨v, rfl, hv⟩⟩
      | empty | one | seq | left | right | look => cases hr

theorem mem_rests_iff : ∀ {r : Regex α} {s t : List α}, t ∈ rests r s ↔ ∃ u, s = u ++ t ∧ Matches r u t
  | .empty, s, t => by simp [rests, eq_comm]
  | .one p, [], t => by simp [rests]
  | .one p, b :: s, t => by
    simp only [rests, matches_one_iff]
    split
    · rename_i hp
      constructor
      · intro h
        exact ⟨[b], congrArg (b :: ·) (List.mem_singleton.1 h).symm, b, hp, rfl⟩
      · rintro ⟨_, h, c, -, rfl⟩
        exact List.mem_singleton.2 (List.cons.inj h).2.symm
    · rename_i hp
      simp only [List.not_mem_nil, false_iff]
      rintro ⟨_, h, c, hc, rfl⟩
      exact hp ((List.cons.inj h).1 ▸ hc)
  | .seq r r', s, t => by
    simp only [rests, List.mem_flatMap, mem_rests_iff, matches_seq_iff]
    constructor
    · rintro ⟨_, ⟨u, rfl, hu⟩, v, rfl, hv⟩
      exact ⟨u ++ v, (List.append_assoc u v t).symm, u, v, rfl, hu, hv⟩
    · rintro ⟨_, rfl, u, v, rfl, hu, hv⟩
      exact ⟨v ++ t, ⟨u, List.append_assoc u v t, hu⟩, v, rfl, hv⟩
  | .alt r r', s, t => by
    simp only [rests, List.mem_append, mem_rests_iff, matches_alt_iff]
    constructor
    · rintro (⟨u, hs, hu⟩ | ⟨u, hs, hu⟩)
      · exact ⟨u, hs, .inl hu⟩
      · exact ⟨u, hs, .inr hu⟩
    · rintro ⟨u, hs, hu | hu⟩
      · exact .inl ⟨u, hs, hu⟩
      · exact .inr ⟨u, hs, hu⟩
  | .many r, s, t => mem_manyRests (fun _ _ => mem_rests_iff) (Nat.le_refl _)
  | .look p, s, t => by
    simp only [rests, matches_look_iff]
    split
    · rename_i hp
      constructor
      · intro h
        obtain rfl := List.mem_singleton.1 h
        exact ⟨[], rfl, hp, rfl⟩
      · rintro ⟨_, rfl, -, rfl⟩
        exact List.mem_singleton.2 rfl
    · rename_i hp
      simp only [List.not_mem_nil, false_iff]
      rintro ⟨_, rfl, ht, rfl⟩
      exact hp ht

theorem starts_iff : starts r s = true ↔ ∃ u t, s = u ++ t ∧ Matches r u t := by
  simp only [starts, Bool.not_eq_true', List.isEmpty_eq_false_iff_exists_mem, mem_rests_iff]
  exact ⟨fun ⟨t, u, h⟩ => ⟨u, t, h⟩, fun ⟨u, t, h⟩ => ⟨t, u, h⟩⟩

theorem matchRest_some (h : matchRest r s = some t) : ∃ u, u ≠ [] ∧ s = u ++ t ∧ Matches r u t := by
  have hlen : t.length < s.length := by simpa using List.find?_some h
  obtain ⟨u, rfl, hu⟩ := mem_rests_iff.1 (List.mem_of_find?_eq_some h)
  refine ⟨u, ?_, rfl, hu⟩
  rintro rfl
  exact absurd hlen (Nat.lt_irrefl _)

theorem matchRest_none (h : matchRest r (u ++ t) = none) (hne : u ≠ []) : ¬ Matches r u t := by
  intro hu
  have hpos := List.length_pos_iff.2 hne
  refine List.find?_eq_none.1 h t (mem_rests_iff.2 ⟨u, rfl, hu⟩) (decide_eq_true ?_)
  simp only [List.length_append]
  omega

/-! ## Where the leftmost match begins -/

theorem cut_append (r : Regex α) (s : List α) : (cut r s).1 ++ (cut r s).2 = s := by
  induction s with
  | nil => rfl
  | cons b s ih =>
    unfold cut
    split
    · rfl
    · simp [ih]

/-- A match begins at the second part, if there is one. -/
theorem starts_cut (r : Regex α) (s : List α) : (cut r s).2 = [] ∨ starts r (cut r s).2 = true := by
  induction s with
  | nil => exact .inl rfl
  | cons b s ih =>
    unfold cut
    split
    · rename_i h
      exact .inr h
    · exact ih

/-- No match begins in the first part. -/
theorem not_starts_cut (h : (cut r s).1 = u ++ v) (hne : v ≠ []) : starts r (v ++ (cut r s).2) = false := by
  induction s generalizing u with
  | nil =>
    rw [show (cut r []).1 = [] from rfl] at h
    exact absurd (List.append_eq_nil_iff.1 h.symm).2 hne
  | cons b s ih =>
    unfold cut at h ⊢
    split at h
    · exact absurd (List.append_eq_nil_iff.1 h.symm).2 hne
    · rename_i hb
      rw [if_neg hb]
      cases u with
      | nil =>
        rw [show v = b :: (cut r s).1 from h.symm, List.cons_append, cut_append]
        exact Bool.eq_false_iff.2 hb
      | cons c u => exact ih (List.cons.inj h).2

/-- Where a match goes on as one over every beginning of the text it leaves, the
text may come in two parts. -/
theorem cut_of_append (hbegin : ∀ {u v}, u ≠ [] → starts r (u ++ v) = true → starts r u = true) (s t : List α) :
    cut r (s ++ t) = ((cut r s).1 ++ (cut r ((cut r s).2 ++ t)).1, (cut r ((cut r s).2 ++ t)).2) := by
  induction s with
  | nil => rfl
  | cons b s ih =>
    by_cases hb : starts r (b :: s) = true
    · rw [show cut r (b :: s) = ([], b :: s) from if_pos hb]
      rfl
    · have hb' : ¬ starts r (b :: (s ++ t)) = true := fun h => hb (hbegin (List.cons_ne_nil b s) h)
      rw [show cut r (b :: s) = (b :: (cut r s).1, (cut r s).2) from if_neg hb,
        show cut r (b :: s ++ t) = (b :: (cut r (s ++ t)).1, (cut r (s ++ t)).2) from if_neg hb', ih]
      rfl

end Regex

end AgentSdk.Lib
