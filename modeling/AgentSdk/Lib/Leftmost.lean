import Mathlib.Data.List.Basic
import Mathlib.Data.List.Infix
/-!
# Leftmost replacement

Texts in which the occurrences of some words are replaced, from left to right,
the longest word first where several begin at one place. `Replaced` says so;
`segments` cuts a text accordingly for a pattern whose alternatives are tried
in order, and `finditer` gives the spans of its matches.
-/

namespace AgentSdk.Lib

variable {α : Type _}

/-- `Replaced words hidden text out`: of the words that begin somewhere in the
rest of the text the longest is replaced, and the text goes on behind it. -/
inductive Replaced (words : List (List α)) (hidden : List α) : List α → List α → Prop
  | nil : Replaced words hidden [] []
  | skip {c : α} {rest out : List α} : (∀ v ∈ words, ¬ v <+: c :: rest) → Replaced words hidden rest out →
      Replaced words hidden (c :: rest) (c :: out)
  | hit {v rest out : List α} : v ∈ words → (∀ w ∈ words, w <+: v ++ rest → w.length ≤ v.length) →
      Replaced words hidden rest out → Replaced words hidden (v ++ rest) (hidden ++ out)

/-- Words of one text are determined by their length. -/
theorem prefix_eq_of_length {v w text : List α} (hv : v <+: text) (hw : w <+: text) (h : v.length = w.length) : v = w := by
  rw [List.prefix_iff_eq_take.1 hv, List.prefix_iff_eq_take.1 hw, h]

/-- For non-empty words there is one replaced text only. -/
theorem Replaced.unique {words : List (List α)} {hidden text out out' : List α} (hne : ∀ v ∈ words, v ≠ [])
    (h : Replaced words hidden text out) (h' : Replaced words hidden text out') : out = out' := by
  induction h generalizing out' with
  | nil =>
    generalize ht : ([] : List α) = t at h'
    cases h' with
    | nil => rfl
    | skip => cases ht
    | hit hv => exact absurd (List.append_eq_nil_iff.1 ht.symm).1 (hne _ hv)
  | @skip c rest out hno _ ih =>
    generalize ht : c :: rest = t at h'
    cases h' with
    | nil => cases ht
    | skip _ h' =>
      cases ht
      rw [ih h']
    | hit hv =>
      rw [ht] at hno
      exact absurd (List.prefix_append _ _) (hno _ hv)
  | @hit v rest out hv hlong _ ih =>
    generalize ht : v ++ rest = t at h'
    cases h' with
    | nil => exact absurd (List.append_eq_nil_iff.1 ht).1 (hne _ hv)
    | skip hno =>
      rw [← ht] at hno
      exact absurd (List.prefix_append _ _) (hno _ hv)
    | @hit w rest' out' hw hlong' h' =>
      have hvt : v <+: w ++ rest' := ht ▸ List.prefix_append v rest
      have hwt : w <+: v ++ rest := ht ▸ List.prefix_append w rest'
      have heq : v = w := prefix_eq_of_length hvt (List.prefix_append w rest')
        (Nat.le_antisymm (hlong' v hv hvt) (hlong w hw hwt))
      subst heq
      rw [ih (List.append_cancel_left ht ▸ h')]

/-- Only which words there are matters. -/
theorem Replaced.of_mem_iff {words words' : List (List α)} {hidden text out : List α}
    (hw : ∀ v, v ∈ words ↔ v ∈ words') (h : Replaced words hidden text out) : Replaced words' hidden text out := by
  induction h with
  | nil => exact .nil
  | skip hno _ ih => exact .skip (fun v hv => hno v ((hw v).2 hv)) ih
  | hit hv hlong _ ih => exact .hit ((hw _).1 hv) (fun w hmem => hlong w ((hw w).2 hmem)) ih

theorem replaced_no_words (hidden text : List α) : Replaced [] hidden text text := by
  induction text with
  | nil => exact .nil
  | cons c rest ih => exact .skip (fun v hv => nomatch hv) ih

/-! ## Patterns -/

/-- An alternation of literal words, tried in order. -/
structure Pattern (α : Type _) where
  alternatives : List (List α)
  nonempty : ∀ v ∈ alternatives, v ≠ []

/-- A piece of a text: a symbol no match covers, or a match. -/
inductive Segment (α : Type _) where
  | lit (a : α)
  | hit (v : List α)
deriving DecidableEq

namespace Pattern
variable [DecidableEq α] (p : Pattern α)

/-- The match that begins here. -/
def matchAt (text : List α) : Option (List α) := p.alternatives.find? fun v => v.isPrefixOf text

variable {p}

theorem matchAt_eq_some {text v : List α} (h : p.matchAt text = some v) : v ∈ p.alternatives ∧ v <+: text :=
  ⟨List.mem_of_find?_eq_some h, by simpa using List.find?_some h⟩

theorem matchAt_eq_none {text : List α} (h : p.matchAt text = none) : ∀ v ∈ p.alternatives, ¬ v <+: text := by
  intro v hv hp
  exact List.find?_eq_none.1 h v hv (List.isPrefixOf_iff_prefix.2 hp)

theorem matchAt_nil : p.matchAt ([] : List α) = none := by
  unfold matchAt
  rw [List.find?_eq_none]
  intro v hv hp
  exact p.nonempty v hv (List.prefix_nil.1 (List.isPrefixOf_iff_prefix.1 hp))

theorem length_pos_of_matchAt {text v : List α} (h : p.matchAt text = some v) : 0 < v.length :=
  List.length_pos_iff.2 (p.nonempty v (matchAt_eq_some h).1)

variable (p)

/-- `finditer`: the spans of the matches, from left to right, each behind the
one before. -/
def finditer (pos : Nat) : List α → List (Nat × Nat)
  | [] => []
  | c :: cs =>
    match _h : p.matchAt (c :: cs) with
    | some v => (pos, pos + v.length) :: finditer (pos + v.length) ((c :: cs).drop v.length)
    | none => finditer (pos + 1) cs
termination_by text => text.length
decreasing_by
  · have hpos := length_pos_of_matchAt _h
    simp only [List.length_drop, List.length_cons]
    omega
  · simp

/-- The text cut at its matches. -/
def segments : List α → List (Segment α)
  | [] => []
  | c :: cs =>
    match _h : p.matchAt (c :: cs) with
    | some v => .hit v :: segments ((c :: cs).drop v.length)
    | none => .lit c :: segments cs
termination_by text => text.length
decreasing_by
  · have hpos := length_pos_of_matchAt _h
    simp only [List.length_drop, List.length_cons]
    omega
  · simp

end Pattern

/-- A piece with its match replaced. -/
def Segment.replaced (hidden : List α) : Segment α → List α
  | .lit a => [a]
  | .hit _ => hidden

/-- Every match is replaced. -/
def Pattern.replaceAll [DecidableEq α] (p : Pattern α) (hidden text : List α) : List α :=
  (p.segments text).flatMap (Segment.replaced hidden)

section Replacing
variable [DecidableEq α] {p : Pattern α} {hidden : List α}

theorem Pattern.segments_hit {text v : List α} (h : p.matchAt text = some v) :
    p.segments text = .hit v :: p.segments (text.drop v.length) := by
  cases text with
  | nil =>
    rw [matchAt_nil] at h
    cases h
  | cons c cs =>
    rw [segments]
    split
    · rename_i w hw
      rw [h] at hw
      cases hw
      rfl
    · rename_i hw
      rw [h] at hw
      cases hw

theorem Pattern.finditer_hit {pos : Nat} {text v : List α} (h : p.matchAt text = some v) :
    p.finditer pos text = (pos, pos + v.length) :: p.finditer (pos + v.length) (text.drop v.length) := by
  cases text with
  | nil =>
    rw [matchAt_nil] at h
    cases h
  | cons c cs =>
    rw [finditer]
    split
    · rename_i w hw
      rw [h] at hw
      cases hw
      rfl
    · rename_i hw
      rw [h] at hw
      cases hw

theorem Pattern.finditer_lit {pos : Nat} {c : α} {cs : List α} (h : p.matchAt (c :: cs) = none) :
    p.finditer pos (c :: cs) = p.finditer (pos + 1) cs := by
  rw [finditer]
  split
  · rename_i w hw
    rw [h] at hw
    cases hw
  · rfl

theorem Pattern.le_of_mem_finditer {pos : Nat} {text : List α} {span : Nat × Nat} (h : span ∈ p.finditer pos text) :
    pos ≤ span.1 := by
  fun_induction p.finditer pos text with
  | case1 => cases h
  | case2 pos c cs v hm ih =>
    rcases List.mem_cons.1 h with rfl | h
    · exact Nat.le_refl _
    · have hle := ih h
      omega
  | case3 pos c cs hm ih =>
    have hle := ih h
    omega

theorem Pattern.segments_lit {c : α} {cs : List α} (h : p.matchAt (c :: cs) = none) :
    p.segments (c :: cs) = .lit c :: p.segments cs := by
  rw [segments]
  split
  · rename_i w hw
    rw [h] at hw
    cases hw
  · rfl

@[simp] theorem Pattern.segments_nil : p.segments [] = [] := by rw [segments]

@[simp] theorem Pattern.replaceAll_nil : p.replaceAll hidden [] = [] := by simp [replaceAll]

theorem Pattern.replaceAll_hit {text v : List α} (h : p.matchAt text = some v) :
    p.replaceAll hidden text = hidden ++ p.replaceAll hidden (text.drop v.length) := by
  rw [replaceAll, segments_hit h]
  rfl

theorem Pattern.replaceAll_lit {c : α} {cs : List α} (h : p.matchAt (c :: cs) = none) :
    p.replaceAll hidden (c :: cs) = c :: p.replaceAll hidden cs := by
  rw [replaceAll, segments_lit h]
  rfl

/-- Alternatives that are tried from the longest to the shortest give the replaced text. -/
theorem Pattern.replaced_replaceAll (hsorted : p.alternatives.Pairwise fun v w => w.length ≤ v.length) (text : List α) :
    Replaced p.alternatives hidden text (p.replaceAll hidden text) := by
  induction hn : text.length using Nat.strong_induction_on generalizing text with
  | _ n ih =>
    cases text with
    | nil => simpa using Replaced.nil
    | cons c cs =>
      cases hm : p.matchAt (c :: cs) with
      | none =>
        rw [replaceAll_lit hm]
        exact .skip (matchAt_eq_none hm) (ih cs.length (by rw [← hn]; simp) cs rfl)
      | some v =>
        obtain ⟨hv, rest, heq⟩ := matchAt_eq_some hm
        have hpos := length_pos_of_matchAt hm
        have hlen := congrArg List.length heq
        rw [List.length_append, hn] at hlen
        rw [replaceAll_hit hm, ← heq, List.drop_left]
        refine .hit hv (fun w hw hpre => ?_) (ih rest.length (by omega) rest rfl)
        -- the alternatives before the match do not begin here, those behind it are no longer
        rw [heq] at hpre
        obtain ⟨-, as, bs, halts, hbefore⟩ := List.find?_eq_some_iff_append.1 hm
        rw [halts] at hw hsorted
        rcases List.mem_append.1 hw with hw | hw
        · have hnot := hbefore w hw
          rw [List.isPrefixOf_iff_prefix.2 hpre] at hnot
          cases hnot
        · rcases List.mem_cons.1 hw with rfl | hw
          · exact Nat.le_refl _
          · exact List.rel_of_pairwise_cons (List.pairwise_append.1 hsorted).2.1 hw

end Replacing

/-! ## A text whose end is not there yet -/

/-- Only the matches that begin before `cut` are replaced: what is done, and
the text behind it. -/
def Pattern.replaceUpTo [DecidableEq α] (p : Pattern α) (hidden : List α) : Nat → List α → List α × List α
  | 0, text => ([], text)
  | _ + 1, [] => ([], [])
  | cut + 1, c :: cs =>
    match _h : p.matchAt (c :: cs) with
    | some v =>
      let r := p.replaceUpTo hidden (cut + 1 - v.length) ((c :: cs).drop v.length)
      (hidden ++ r.1, r.2)
    | none =>
      let r := p.replaceUpTo hidden cut cs
      (c :: r.1, r.2)
termination_by _ text => text.length
decreasing_by
  · have hpos := length_pos_of_matchAt _h
    simp only [List.length_drop, List.length_cons]
    omega
  · simp

section Streaming
variable [DecidableEq α] {p : Pattern α} {hidden : List α}

theorem Pattern.replaceUpTo_zero (text : List α) : p.replaceUpTo hidden 0 text = ([], text) := by rw [replaceUpTo]

theorem Pattern.replaceUpTo_hit {cut : Nat} {text v : List α} (h : p.matchAt text = some v) :
    p.replaceUpTo hidden (cut + 1) text = (hidden ++ (p.replaceUpTo hidden (cut + 1 - v.length) (text.drop v.length)).1,
      (p.replaceUpTo hidden (cut + 1 - v.length) (text.drop v.length)).2) := by
  cases text with
  | nil =>
    rw [matchAt_nil] at h
    cases h
  | cons c cs =>
    rw [replaceUpTo]
    split
    · rename_i w hw
      rw [h] at hw
      cases hw
      rfl
    · rename_i hw
      rw [h] at hw
      cases hw

theorem Pattern.replaceUpTo_lit {cut : Nat} {c : α} {cs : List α} (h : p.matchAt (c :: cs) = none) :
    p.replaceUpTo hidden (cut + 1) (c :: cs) =
      (c :: (p.replaceUpTo hidden cut cs).1, (p.replaceUpTo hidden cut cs).2) := by
  rw [replaceUpTo]
  split
  · rename_i w hw
    rw [h] at hw
    cases hw
  · rfl

/-- Where every word fits into the text, what follows does not matter. -/
theorem Pattern.matchAt_append {text : List α} (h : ∀ v ∈ p.alternatives, v.length ≤ text.length) (rest : List α) :
    p.matchAt (text ++ rest) = p.matchAt text := by
  have hsame : ∀ v ∈ p.alternatives, v.isPrefixOf (text ++ rest) = v.isPrefixOf text := by
    intro v hv
    rw [Bool.eq_iff_iff, List.isPrefixOf_iff_prefix, List.isPrefixOf_iff_prefix]
    exact ⟨fun hp => List.prefix_of_prefix_length_le hp (List.prefix_append _ _) (h v hv),
      fun hp => hp.trans (List.prefix_append _ _)⟩
  rw [matchAt, matchAt, ← List.head?_filter, ← List.head?_filter, List.filter_congr hsame]

/-- Matches before a cut that leaves the longest word but one symbol behind it
are final: whatever text follows, it is replaced behind them. -/
theorem Pattern.replaceAll_append {cut : Nat} {text : List α}
    (hcut : 0 < cut → ∀ v ∈ p.alternatives, cut + v.length ≤ text.length + 1) (rest : List α) :
    p.replaceAll hidden (text ++ rest) =
      (p.replaceUpTo hidden cut text).1 ++ p.replaceAll hidden ((p.replaceUpTo hidden cut text).2 ++ rest) := by
  fun_induction p.replaceUpTo hidden cut text with
  | case1 text => simp
  | case2 n => simp
  | case3 cut c cs v hm r ih =>
    have hfit : ∀ w ∈ p.alternatives, w.length ≤ (c :: cs).length := by
      intro w hw
      have hle := hcut (Nat.succ_pos cut) w hw
      omega
    have hlen : v.length ≤ (c :: cs).length := hfit v (matchAt_eq_some hm).1
    rw [replaceAll_hit ((matchAt_append hfit rest).trans hm), List.drop_append_of_le_length hlen, ih, List.append_assoc]
    intro hpos w hw
    have hle := hcut (Nat.succ_pos cut) w hw
    rw [List.length_drop]
    omega
  | case4 cut c cs hm r ih =>
    have hfit : ∀ w ∈ p.alternatives, w.length ≤ (c :: cs).length := by
      intro w hw
      have hle := hcut (Nat.succ_pos cut) w hw
      omega
    have hno : p.matchAt (c :: (cs ++ rest)) = none := (matchAt_append hfit rest).trans hm
    rw [List.cons_append, replaceAll_lit hno, ih, List.cons_append]
    intro hpos w hw
    have hle := hcut (Nat.succ_pos cut) w hw
    rw [List.length_cons] at hle
    omega

/-- A cut at the end of the text replaces everything. -/
theorem Pattern.replaceUpTo_all {cut : Nat} {text : List α} (h : text.length ≤ cut) :
    p.replaceUpTo hidden cut text = (p.replaceAll hidden text, []) := by
  fun_induction p.replaceUpTo hidden cut text with
  | case1 text =>
    rw [List.length_eq_zero_iff.1 (Nat.le_zero.1 h)]
    simp
  | case2 n => simp
  | case3 cut c cs v hm r ih =>
    have hr : r = _ := ih (by rw [List.length_drop]; omega)
    rw [hr, replaceAll_hit hm]
  | case4 cut c cs hm r ih =>
    have hr : r = _ := ih (by rw [List.length_cons] at h; omega)
    rw [hr, replaceAll_lit hm]

end Streaming

/-! ## One word after another -/

/-- The pattern of one word. -/
def Pattern.word (v : List α) (h : v ≠ []) : Pattern α := ⟨[v], fun _ hw => List.mem_singleton.1 hw ▸ h⟩

/-- A piece while the matches of some words only are replaced. -/
def Segment.partly [DecidableEq α] (done : List (List α)) (hidden : List α) : Segment α → List α
  | .lit a => [a]
  | .hit v => if v ∈ done then hidden else v

/-- The word begins in no piece but the matches of it that are not replaced yet. -/
def BeginsApart [DecidableEq α] (v : List α) (done : List (List α)) (hidden : List α) : List (Segment α) → Prop
  | [] => True
  | s :: segments =>
    (s = .hit v ∧ v ∉ done ∨ ∀ k < (s.partly done hidden).length,
      ¬ v <+: (s.partly done hidden ++ segments.flatMap (Segment.partly done hidden)).drop k) ∧
    BeginsApart v done hidden segments

section OneByOne
variable [DecidableEq α] {v hidden : List α} {done : List (List α)}

@[simp] theorem Segment.partly_lit (a : α) : (Segment.lit a).partly done hidden = [a] := rfl

@[simp] theorem Segment.partly_hit (u : List α) :
    (Segment.hit u).partly done hidden = if u ∈ done then hidden else u := rfl

instance BeginsApart.decidable (v : List α) (done : List (List α)) (hidden : List α) :
    (segments : List (Segment α)) → Decidable (BeginsApart v done hidden segments)
  | [] => inferInstanceAs (Decidable True)
  | s :: segments =>
    have := BeginsApart.decidable v done hidden segments
    inferInstanceAs (Decidable ((s = .hit v ∧ v ∉ done ∨ ∀ k < (s.partly done hidden).length,
      ¬ v <+: (s.partly done hidden ++ segments.flatMap (Segment.partly done hidden)).drop k) ∧
      BeginsApart v done hidden segments))

theorem Pattern.matchAt_word {h : v ≠ []} {text : List α} :
    (Pattern.word v h).matchAt text = if v <+: text then some v else none := by
  by_cases hp : v <+: text
  · rw [if_pos hp]
    simp [matchAt, word, List.isPrefixOf_iff_prefix.2 hp]
  · rw [if_neg hp]
    simpa [matchAt, word] using hp

theorem Pattern.replaceAll_word (h : v ≠ []) (rest : List α) :
    (Pattern.word v h).replaceAll hidden (v ++ rest) = hidden ++ (Pattern.word v h).replaceAll hidden rest := by
  have hm : (Pattern.word v h).matchAt (v ++ rest) = some v := by rw [matchAt_word, if_pos (List.prefix_append v rest)]
  rw [replaceAll_hit hm, List.drop_left]

/-- Text in which the word does not begin is kept. -/
theorem Pattern.replaceAll_word_skip (h : v ≠ []) {text rest : List α}
    (hno : ∀ k < text.length, ¬ v <+: (text ++ rest).drop k) :
    (Pattern.word v h).replaceAll hidden (text ++ rest) = text ++ (Pattern.word v h).replaceAll hidden rest := by
  induction text with
  | nil => rfl
  | cons c cs ih =>
    have hm : (Pattern.word v h).matchAt (c :: (cs ++ rest)) = none := by
      rw [matchAt_word, if_neg]
      simpa using hno 0 (by simp)
    rw [List.cons_append, replaceAll_lit hm, ih, List.cons_append]
    intro k hk
    exact hno (k + 1) (by rw [List.length_cons]; omega)

/-- A word that is replaced by itself. -/
theorem Pattern.replaceAll_word_self (h : v ≠ []) (text : List α) : (Pattern.word v h).replaceAll v text = text := by
  induction hn : text.length using Nat.strong_induction_on generalizing text with
  | _ n ih =>
    cases text with
    | nil => simp
    | cons c cs =>
      by_cases hp : v <+: c :: cs
      · obtain ⟨rest, heq⟩ := hp
        have hlen := congrArg List.length heq
        have hpos := List.length_pos_iff.2 h
        rw [List.length_append, hn] at hlen
        rw [← heq, replaceAll_word, ih rest.length (by omega) rest rfl]
      · have hm : (Pattern.word v h).matchAt (c :: cs) = none := by rw [matchAt_word, if_neg hp]
        rw [replaceAll_lit hm, ih cs.length (by rw [← hn]; simp) cs rfl]

/-- The induction over the pieces of a text. -/
theorem Pattern.segments_cases {p : Pattern α} (text : List α) :
    text = [] ∨ (∃ c rest, text = c :: rest ∧ p.segments text = .lit c :: p.segments rest) ∨
      ∃ v rest, text = v ++ rest ∧ v ∈ p.alternatives ∧ rest.length < text.length ∧
        p.segments text = .hit v :: p.segments rest := by
  cases text with
  | nil => exact .inl rfl
  | cons c cs =>
    refine .inr ?_
    cases hm : p.matchAt (c :: cs) with
    | none => exact .inl ⟨c, cs, rfl, segments_lit hm⟩
    | some v =>
      obtain ⟨hv, rest, heq⟩ := matchAt_eq_some hm
      have hpos := length_pos_of_matchAt hm
      have hlen := congrArg List.length heq
      rw [List.length_append] at hlen
      refine .inr ⟨v, rest, heq.symm, hv, by omega, ?_⟩
      rw [segments_hit hm, ← heq, List.drop_left]

theorem Pattern.mem_alternatives_of_hit {p : Pattern α} {text u : List α} (h : .hit u ∈ p.segments text) :
    u ∈ p.alternatives := by
  induction hn : text.length using Nat.strong_induction_on generalizing text with
  | _ n ih =>
    obtain rfl | ⟨c, rest, rfl, heq⟩ | ⟨w, rest, rfl, hw, hlt, heq⟩ := p.segments_cases text
    · simp at h
    · rw [heq] at h
      rcases List.mem_cons.1 h with h | h
      · cases h
      · exact ih _ (by rw [← hn, List.length_cons]; omega) h rfl
    · rw [heq] at h
      rcases List.mem_cons.1 h with h | h
      · cases h
        exact hw
      · exact ih _ (by omega) h rfl

theorem Pattern.flatMap_partly_nil {p : Pattern α} (text : List α) :
    (p.segments text).flatMap (Segment.partly [] hidden) = text := by
  induction hn : text.length using Nat.strong_induction_on generalizing text with
  | _ n ih =>
    obtain rfl | ⟨c, rest, rfl, heq⟩ | ⟨w, rest, rfl, hw, hlt, heq⟩ := p.segments_cases text
    · simp
    · rw [heq, List.flatMap_cons, ih rest.length (by rw [← hn, List.length_cons]; omega) rest rfl]
      rfl
    · rw [heq, List.flatMap_cons, ih rest.length (by omega) rest rfl]
      rfl

/-- Once every word is replaced, every match is. -/
theorem Pattern.flatMap_partly_all {p : Pattern α} (hall : ∀ u ∈ p.alternatives, u ∈ done) (text : List α) :
    (p.segments text).flatMap (Segment.partly done hidden) = p.replaceAll hidden text := by
  refine congrArg List.flatten (List.map_congr_left fun s hs => ?_)
  cases s with
  | lit a => rfl
  | hit u => rw [Segment.partly_hit, if_pos (hall u (mem_alternatives_of_hit hs))]; rfl

theorem Segment.partly_cons_of_ne {s : Segment α} (hs : ¬ (s = .hit v ∧ v ∉ done)) :
    s.partly (v :: done) hidden = s.partly done hidden := by
  cases s with
  | lit a => rfl
  | hit u =>
    rw [partly_hit, partly_hit]
    by_cases hu : u ∈ done
    · rw [if_pos hu, if_pos (List.mem_cons_of_mem _ hu)]
    · rw [if_neg hu, if_neg]
      rintro hmem
      rcases List.mem_cons.1 hmem with rfl | hmem
      · exact hs ⟨rfl, hu⟩
      · exact hu hmem

/-- Replacing one more word does to the text what replacing its matches does. -/
theorem replaceAll_partly (h : v ≠ []) {segments : List (Segment α)} (hb : BeginsApart v done hidden segments) :
    (Pattern.word v h).replaceAll hidden (segments.flatMap (Segment.partly done hidden)) =
      segments.flatMap (Segment.partly (v :: done) hidden) := by
  induction segments with
  | nil => simp
  | cons s segments ih =>
    rw [List.flatMap_cons, List.flatMap_cons]
    by_cases hs : s = .hit v ∧ v ∉ done
    · obtain ⟨rfl, hv⟩ := hs
      rw [Segment.partly_hit, if_neg hv, Pattern.replaceAll_word, ih hb.2, Segment.partly_hit, if_pos List.mem_cons_self]
    · rw [Pattern.replaceAll_word_skip h (hb.1.resolve_left hs), ih hb.2, Segment.partly_cons_of_ne hs]

theorem flatMap_partly_self {segments : List (Segment α)} :
    segments.flatMap (Segment.partly (v :: done) v) = segments.flatMap (Segment.partly done v) := by
  refine congrArg List.flatten (List.map_congr_left fun s _ => ?_)
  cases s with
  | lit a => rfl
  | hit u =>
    rw [Segment.partly_hit, Segment.partly_hit]
    by_cases hu : u = v
    · subst hu
      simp
    · simp [hu]

end OneByOne

end AgentSdk.Lib
