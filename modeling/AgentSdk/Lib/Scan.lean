import Mathlib.Data.List.Basic
import Mathlib.Data.List.Infix
/-!
# Scanning a text with a matcher

A matcher says what begins at a place of a text: how many symbols it covers
(at least one) and what it yields. `search`, `findAll` and `subAll` use it from
left to right, each match behind the one before, as the functions of a regular
expression library do. Words that hold their first symbol once (tags) cannot
overlap, which is what the lemmas about delimiters rest on.
-/

namespace AgentSdk.Lib

variable {α β : Type _}

abbrev Matcher (α β : Type _) := List α → Option (Nat × β)

/-- The first match. -/
def search (m : Matcher α β) : List α → Option β
  | [] => none
  | c :: cs =>
    match m (c :: cs) with
    | some (_, b) => some b
    | none => search m cs

/-- The matches behind the first `skip` symbols. -/
def findAll (m : Matcher α β) : Nat → List α → List β
  | _, [] => []
  | skip + 1, _ :: cs => findAll m skip cs
  | 0, c :: cs =>
    match m (c :: cs) with
    | some (n, b) => b :: findAll m (n - 1) cs
    | none => findAll m 0 cs

/-- The text behind the first `skip` symbols, with its matches replaced. -/
def subAll (m : Matcher α (List α)) : Nat → List α → List α
  | _, [] => []
  | skip + 1, _ :: cs => subAll m skip cs
  | 0, c :: cs =>
    match m (c :: cs) with
    | some (n, out) => out ++ subAll m (n - 1) cs
    | none => c :: subAll m 0 cs

/-- The text before the first `word` and behind it: a lazy `(.*?)word`. -/
def untilFirst [DecidableEq α] (word : List α) : List α → Option (List α × List α)
  | [] => if word = [] then some ([], []) else none
  | c :: cs =>
    if word <+: c :: cs then some ([], (c :: cs).drop word.length)
    else (untilFirst word cs).map fun r => (c :: r.1, r.2)

/-- No match begins inside `p` when `t` follows. -/
def NoMatch (m : Matcher α β) (p t : List α) : Prop := ∀ q r, p = q ++ r → r ≠ [] → m (r ++ t) = none

theorem NoMatch.nil {m : Matcher α β} {t : List α} : NoMatch m [] t :=
  fun _ _ h hr => absurd (List.append_eq_nil_iff.1 h.symm).2 hr

theorem noMatch_cons {m : Matcher α β} {c : α} {p t : List α} :
    NoMatch m (c :: p) t ↔ m (c :: (p ++ t)) = none ∧ NoMatch m p t := by
  constructor
  · intro h
    refine ⟨h [] (c :: p) rfl (by simp), fun q r hp hr => h (c :: q) r (by rw [hp]; rfl) hr⟩
  · rintro ⟨hc, hp⟩ q r hqr hr
    cases q with
    | nil =>
      rw [List.nil_append] at hqr
      rw [← hqr]
      exact hc
    | cons d q =>
      cases hqr
      exact hp q r rfl hr

instance NoMatch.decidable (m : Matcher α β) : (p t : List α) → Decidable (NoMatch m p t)
  | [], _ => isTrue .nil
  | c :: p, t =>
    have : Decidable (NoMatch m p t) := NoMatch.decidable m p t
    decidable_of_iff (m (c :: (p ++ t)) = none ∧ NoMatch m p t) noMatch_cons.symm

theorem noMatch_append {m : Matcher α β} {p q t : List α} (hp : NoMatch m p (q ++ t)) (hq : NoMatch m q t) :
    NoMatch m (p ++ q) t := by
  induction p with
  | nil => exact hq
  | cons c p ih =>
    obtain ⟨hc, hp⟩ := noMatch_cons.1 hp
    refine noMatch_cons.2 ⟨?_, ih hp⟩
    show m (c :: (p ++ q ++ t)) = none
    rwa [List.append_assoc]

section Skip
variable {p t : List α}

theorem search_skip {m : Matcher α β} (h : NoMatch m p t) : search m (p ++ t) = search m t := by
  induction p with
  | nil => rfl
  | cons c p ih =>
    obtain ⟨hc, hp⟩ := noMatch_cons.1 h
    rw [List.cons_append, search, hc]
    exact ih hp

theorem findAll_skip {m : Matcher α β} (h : NoMatch m p t) : findAll m 0 (p ++ t) = findAll m 0 t := by
  induction p with
  | nil => rfl
  | cons c p ih =>
    obtain ⟨hc, hp⟩ := noMatch_cons.1 h
    rw [List.cons_append, findAll, hc]
    exact ih hp

theorem subAll_skip {m : Matcher α (List α)} (h : NoMatch m p t) : subAll m 0 (p ++ t) = p ++ subAll m 0 t := by
  induction p with
  | nil => rfl
  | cons c p ih =>
    obtain ⟨hc, hp⟩ := noMatch_cons.1 h
    rw [List.cons_append, subAll, hc]
    exact congrArg (c :: ·) (ih hp)

theorem findAll_drop (m : Matcher α β) (n : Nat) (t : List α) : findAll m n t = findAll m 0 (t.drop n) := by
  induction t generalizing n with
  | nil => simp [findAll]
  | cons c t ih =>
    cases n with
    | zero => rfl
    | succ n => exact ih n

theorem subAll_drop (m : Matcher α (List α)) (n : Nat) (t : List α) : subAll m n t = subAll m 0 (t.drop n) := by
  induction t generalizing n with
  | nil => simp [subAll]
  | cons c t ih =>
    cases n with
    | zero => rfl
    | succ n => exact ih n

theorem search_hit {m : Matcher α β} {n : Nat} {b : β} (hp : p ≠ []) (h : m p = some (n, b)) : search m p = some b := by
  obtain ⟨c, p, rfl⟩ := List.exists_cons_of_ne_nil hp
  rw [search, h]

theorem findAll_hit {m : Matcher α β} {b : β} (hp : p ≠ []) (h : m (p ++ t) = some (p.length, b)) :
    findAll m 0 (p ++ t) = b :: findAll m 0 t := by
  obtain ⟨c, p, rfl⟩ := List.exists_cons_of_ne_nil hp
  rw [List.cons_append] at h ⊢
  rw [findAll, h]
  dsimp only
  rw [findAll_drop]
  simp

theorem subAll_hit {m : Matcher α (List α)} {out : List α} (hp : p ≠ []) (h : m (p ++ t) = some (p.length, out)) :
    subAll m 0 (p ++ t) = out ++ subAll m 0 t := by
  obtain ⟨c, p, rfl⟩ := List.exists_cons_of_ne_nil hp
  rw [List.cons_append] at h ⊢
  rw [subAll, h]
  dsimp only
  rw [subAll_drop]
  simp

end Skip

/-! ## Tags -/

/-- A word that holds its first symbol once. -/
def Headed (a : α) (word : List α) : Prop := ∃ u, word = a :: u ∧ a ∉ u

instance Headed.decidable [DecidableEq α] (a : α) : (word : List α) → Decidable (Headed a word)
  | [] => isFalse (by rintro ⟨u, hu, -⟩; cases hu)
  | b :: u => decidable_of_iff (b = a ∧ a ∉ u) (by
      constructor
      · rintro ⟨rfl, h⟩
        exact ⟨u, rfl, h⟩
      · rintro ⟨v, hv, h⟩
        cases hv
        exact ⟨rfl, h⟩)

section Tags
variable {a : α} {word p t : List α}

theorem Headed.ne_nil (hw : Headed a word) : word ≠ [] := by
  obtain ⟨u, rfl, -⟩ := hw
  exact List.cons_ne_nil _ _

/-- A tag does not straddle the begin of another one. -/
theorem Headed.prefix_of_append (hw : Headed a word) (hp : p ≠ []) (h : word <+: p ++ a :: t) : word <+: p := by
  obtain ⟨u, rfl, hu⟩ := hw
  obtain ⟨c, p, rfl⟩ := List.exists_cons_of_ne_nil hp
  rw [List.cons_append, List.cons_prefix_cons] at h
  refine List.cons_prefix_cons.2 ⟨h.1, ?_⟩
  have hpre : p <+: p ++ a :: t := List.prefix_append _ _
  rcases List.prefix_or_prefix_of_prefix h.2 hpre with hup | hpu
  · exact hup
  · obtain ⟨v, rfl⟩ := hpu
    rw [List.prefix_append_right_inj] at h
    cases v with
    | nil => simp
    | cons b v =>
      have hb : b = a := (List.cons_prefix_cons.1 h.2).1
      exact absurd (by simp [hb]) hu

theorem not_prefix_of_noInfix (h : ¬ word <:+: p) {q r : List α} (hp : p = q ++ r) : ¬ word <+: r :=
  fun hr => h (hr.isInfix.trans (hp ▸ (List.suffix_append q r).isInfix))

/-- Up to a tag that does not occur before. -/
theorem untilFirst_append [DecidableEq α] (hw : Headed a word) (h : ¬ word <:+: p) :
    untilFirst word (p ++ word ++ t) = some (p, t) := by
  induction p with
  | nil =>
    obtain ⟨u, rfl, hu⟩ := hw
    rw [List.nil_append, List.cons_append, untilFirst, if_pos (by simp)]
    simp
  | cons c p ih =>
    have hno : ¬ word <+: c :: (p ++ word ++ t) := by
      intro hpre
      obtain ⟨u, hu, hau⟩ := id hw
      have hc : word <+: c :: p := by
        refine Headed.prefix_of_append (t := u ++ t) hw (List.cons_ne_nil _ _) ?_
        rw [← List.cons_append, ← hu]
        simpa using hpre
      exact h hc.isInfix
    rw [List.cons_append, List.cons_append, untilFirst, if_neg hno,
      ih fun hi => h (hi.trans (List.suffix_cons c p).isInfix)]
    rfl

/-- A tag lies behind a text without its first symbol. -/
theorem Headed.infix_of_append (hw : Headed a word) (hp : a ∉ p) (h : word <:+: p ++ t) : word <:+: t := by
  induction p with
  | nil => exact h
  | cons c p ih =>
    rw [List.mem_cons, not_or] at hp
    rcases List.infix_cons_iff.1 h with hpre | hin
    · obtain ⟨u, rfl, -⟩ := hw
      exact absurd (List.cons_prefix_cons.1 hpre).1 hp.1
    · exact ih hp.2 hin

theorem prefix_of_append_cons (h : a ∉ word) (hp : word <+: p ++ a :: t) : word <+: p := by
  rcases List.prefix_or_prefix_of_prefix hp (List.prefix_append p (a :: t)) with hwp | ⟨u, rfl⟩
  · exact hwp
  · rw [List.prefix_append_right_inj] at hp
    cases u with
    | nil => simp
    | cons b u =>
      have hb : b = a := (List.cons_prefix_cons.1 hp).1
      exact absurd (by simp [hb]) h

theorem infix_of_append_cons (h : a ∉ word) (hi : word <:+: p ++ a :: t) : word <:+: p ∨ word <:+: t := by
  induction p with
  | nil =>
    rcases List.infix_cons_iff.1 hi with hpre | hin
    · have hnil : word <+: [] := prefix_of_append_cons (p := []) h hpre
      exact .inl hnil.isInfix
    · exact .inr hin
  | cons c p ih =>
    rcases List.infix_cons_iff.1 hi with hpre | hin
    · exact .inl (prefix_of_append_cons (p := c :: p) h hpre).isInfix
    · exact (ih hin).imp_left fun hp => hp.trans (List.suffix_cons c p).isInfix

/-- The first `a` cuts a text in one way. -/
theorem append_cons_inj {q s : List α} (hp : a ∉ p) (hq : a ∉ q) (h : p ++ a :: s = q ++ a :: t) : p = q ∧ s = t := by
  induction p generalizing q with
  | nil =>
    cases q with
    | nil => exact ⟨rfl, (List.cons.inj h).2⟩
    | cons c q =>
      have hc : a = c := (List.cons.inj h).1
      exact absurd (by simp [hc]) hq
  | cons c p ih =>
    rw [List.mem_cons, not_or] at hp
    cases q with
    | nil => exact absurd (List.cons.inj h).1.symm hp.1
    | cons d q =>
      rw [List.mem_cons, not_or] at hq
      obtain ⟨hcd, hrest⟩ := List.cons.inj h
      subst hcd
      exact (ih hp.2 hq.2 hrest).imp_left (congrArg (c :: ·))

/-- Up to the first `a`. -/
theorem takeWhile_ne_append [DecidableEq α] (h : a ∉ p) :
    (p ++ a :: t).takeWhile (fun c => decide (c ≠ a)) = p ∧ (p ++ a :: t).dropWhile (fun c => decide (c ≠ a)) = a :: t := by
  have hall : ∀ c ∈ p, decide (c ≠ a) = true := fun c hc => decide_eq_true fun hca => h (hca ▸ hc)
  rw [List.takeWhile_append_of_pos hall, List.dropWhile_append_of_pos hall]
  simp

end Tags

theorem dropPrefix?_append [BEq α] [LawfulBEq α] (w t : List α) : (w ++ t).dropPrefix? w = some t :=
  List.dropPrefix?_append_of_beq _ (beq_self_eq_true w)

theorem prefix_of_dropPrefix? [BEq α] [LawfulBEq α] {w t u : List α} (h : t.dropPrefix? w = some u) : t = w ++ u := by
  obtain ⟨w', hw', hbeq⟩ := List.dropPrefix?_eq_some_iff.1 h
  rw [hw', eq_of_beq hbeq]

theorem dropPrefix?_eq_none [BEq α] [LawfulBEq α] {w t : List α} (h : ¬ w <+: t) : t.dropPrefix? w = none := by
  cases hd : t.dropPrefix? w with
  | none => rfl
  | some u => exact absurd ⟨u, (prefix_of_dropPrefix? hd).symm⟩ h

/-! ## Matchers of tags -/

/-- Every match begins with `word`. -/
def StartsWith (m : Matcher α β) (word : List α) : Prop := ∀ t, ¬ word <+: t → m t = none

theorem StartsWith.noMatch {m : Matcher α β} {word p t : List α} (hm : StartsWith m word)
    (h : ∀ q r, p = q ++ r → r ≠ [] → ¬ word <+: r ++ t) : NoMatch m p t :=
  fun q r hp hr => hm _ (h q r hp hr)

/-- Neither word begins with the other one. -/
def Apart (v w : List α) : Prop := ¬ v <+: w ∧ ¬ w <+: v

instance Apart.decidable [DecidableEq α] (v w : List α) : Decidable (Apart v w) := by unfold Apart; infer_instance

theorem Apart.not_prefix {v w t : List α} (h : Apart v w) : ¬ v <+: w ++ t := fun hp =>
  (List.prefix_or_prefix_of_prefix hp (List.prefix_append w t)).elim h.1 h.2

section
variable {a : α} {word c p t : List α} {m : Matcher α β}

theorem StartsWith.noMatch_plain (hm : StartsWith m word) (hw : Headed a word) (hp : a ∉ p) : NoMatch m p t := by
  refine hm.noMatch fun q r hqr hr hpre => ?_
  obtain ⟨u, rfl, -⟩ := hw
  obtain ⟨d, r, rfl⟩ := List.exists_cons_of_ne_nil hr
  rw [List.cons_append, List.cons_prefix_cons] at hpre
  exact hp (by rw [hqr, hpre.1]; simp)

/-- A tag is no match of another tag, whatever follows. -/
theorem StartsWith.noMatch_tag (hm : StartsWith m word) (hw : Headed a word) (hc : Headed a c) (h : Apart word c) :
    NoMatch m c t := by
  obtain ⟨v, rfl, hv⟩ := hc
  exact noMatch_cons.2 ⟨hm _ h.not_prefix, hm.noMatch_plain hw hv⟩

/-- A text that ends with a tag has no match when others follow it, where
nothing behind the tag decides about a match. -/
theorem noMatch_of_closed (h : NoMatch m (p ++ c) []) (hlocal : ∀ y, m (y ++ c) = none → m (y ++ c ++ t) = none)
    (hc : NoMatch m c t) : NoMatch m (p ++ c) t := by
  refine noMatch_append (fun q r hp hr => ?_) hc
  rw [← List.append_assoc]
  refine hlocal r ?_
  have hm := h q (r ++ c) (by rw [hp, List.append_assoc]) (by simp [hr])
  rwa [List.append_nil] at hm

end

/-! ## A text in two parts -/

/-- No match that begins in `p` reaches into the text behind it. -/
def StaysIn (m : Matcher α (List α)) (p t : List α) : Prop :=
  ∀ q r, p = q ++ r → r ≠ [] → ∀ n out, m (r ++ t) = some (n, out) → n ≤ r.length

theorem subAll_append {m : Matcher α (List α)} {p t : List α} (h : StaysIn m p t) :
    ∃ p', subAll m 0 (p ++ t) = p' ++ subAll m 0 t := by
  induction hlen : p.length using Nat.strong_induction_on generalizing p with
  | _ n ih =>
    subst hlen
    cases p with
    | nil => exact ⟨[], rfl⟩
    | cons c p =>
      have hrest : ∀ k, StaysIn m (p.drop k) t := by
        intro k q r hp hr
        refine h (c :: p.take k ++ q) r ?_ hr
        rw [List.append_assoc, ← hp, List.cons_append, List.take_append_drop]
      have hshort : ∀ k, (p.drop k).length < (c :: p).length := by
        intro k
        simp only [List.length_drop, List.length_cons]
        omega
      rw [List.cons_append, subAll]
      cases hm : m (c :: (p ++ t)) with
      | none =>
        obtain ⟨p', hp'⟩ := ih _ (hshort 0) (hrest 0) rfl
        rw [List.drop_zero] at hp'
        exact ⟨c :: p', by rw [hp']; rfl⟩
      | some r =>
        obtain ⟨n, out⟩ := r
        have hn : n ≤ p.length + 1 := h [] (c :: p) rfl (List.cons_ne_nil _ _) n out hm
        obtain ⟨p', hp'⟩ := ih _ (hshort (n - 1)) (hrest (n - 1)) rfl
        refine ⟨out ++ p', ?_⟩
        dsimp only
        rw [subAll_drop, List.drop_append_of_le_length (by omega), hp', List.append_assoc]

theorem search_isSome {m : Matcher α β} {p t : List α} (ht : t ≠ []) (h : (m t).isSome) :
    (search m (p ++ t)).isSome := by
  induction p with
  | nil =>
    obtain ⟨⟨n, b⟩, hb⟩ := Option.isSome_iff_exists.1 h
    rw [List.nil_append, search_hit ht hb]
    rfl
  | cons c p ih =>
    rw [List.cons_append, search]
    cases m (c :: (p ++ t)) with
    | none => exact ih
    | some r => rfl

theorem untilFirst_isSome [DecidableEq α] {word t : List α} (h : word <:+: t) : (untilFirst word t).isSome := by
  induction t with
  | nil =>
    rw [untilFirst, if_pos (List.infix_nil.1 h)]
    rfl
  | cons c t ih =>
    rw [untilFirst]
    split
    · rfl
    · rename_i hpre
      have hin : word <:+: t := (List.infix_cons_iff.1 h).resolve_left hpre
      rw [Option.isSome_map]
      exact ih hin

theorem eq_of_untilFirst [DecidableEq α] {word : List α} (t : List α) :
    ∀ p r, untilFirst word t = some (p, r) → t = p ++ (word ++ r) := by
  induction t with
  | nil =>
    intro p r h
    rw [untilFirst] at h
    split at h
    · rename_i hw
      cases h
      rw [hw]
      rfl
    · cases h
  | cons c t ih =>
    intro p r h
    rw [untilFirst] at h
    split at h
    · rename_i hpre
      cases h
      exact (List.prefix_iff_eq_append.1 hpre).symm
    · obtain ⟨⟨q, r'⟩, hq, hpr⟩ := Option.map_eq_some_iff.1 h
      cases hpr
      rw [ih _ _ hq]
      rfl

/-- What stands before the first word holds none. -/
theorem noInfix_of_untilFirst [DecidableEq α] {word : List α} (hw : word ≠ []) (t : List α) :
    ∀ p r, untilFirst word t = some (p, r) → ¬ word <:+: p := by
  have hnil : ¬ word <:+: [] := fun h => hw (List.infix_nil.1 h)
  induction t with
  | nil =>
    intro p r h
    rw [untilFirst, if_neg hw] at h
    cases h
  | cons c t ih =>
    intro p r h
    rw [untilFirst] at h
    split at h
    · cases h
      exact hnil
    · rename_i hpre
      obtain ⟨⟨q, r'⟩, hq, hpr⟩ := Option.map_eq_some_iff.1 h
      cases hpr
      rw [List.infix_cons_iff]
      rintro (hc | hin)
      · -- What stands before the word is the begin of the text.
        have hqt : q <+: t := ⟨word ++ r', (eq_of_untilFirst _ _ _ hq).symm⟩
        exact hpre (hc.trans (List.cons_prefix_cons.2 ⟨rfl, hqt⟩))
      · exact ih _ _ hq hin

/-- A tag and a stretch without its first symbol end before the next one. -/
theorem Headed.length_le {a : α} {word s v p t : List α} (hw : Headed a word) (hs : a ∉ s) (hp : p ≠ [])
    (h : word ++ s ++ v = p ++ a :: t) : (word ++ s).length ≤ p.length := by
  obtain ⟨u, rfl, hu⟩ := hw
  obtain ⟨c, p, rfl⟩ := List.exists_cons_of_ne_nil hp
  have htail : (u ++ s) ++ v = p ++ a :: t := (List.cons.inj h).2
  rcases List.append_eq_append_iff.1 htail with ⟨e, rfl, -⟩ | ⟨e, he, hrest⟩
  · simp only [List.cons_append, List.length_cons, List.length_append]
    omega
  · cases e with
    | nil =>
      rw [List.append_nil] at he
      rw [List.cons_append, he]
      simp
    | cons b e =>
      have hb : a = b := (List.cons.inj hrest).1
      have hmem : a ∈ u ++ s := by
        rw [he, hb]
        simp
      exact absurd (List.mem_append.1 hmem) (by simp [hu, hs])

end AgentSdk.Lib
