import AgentSdk.Lib.Regex
/-!
# Words that do not overlap

Texts with words of which no two overlap, so that all of them can be taken out at
once. Taking out one kind of word after the other gives the same text where taking
out all of them at once brings no new word together.
-/

namespace AgentSdk.Lib.Words
variable {α : Type _} {W W' : List α → Prop} {s t u v w out : List α}

structure Apart (W : List α → Prop) : Prop where
  ne_nil : ∀ {w}, W w → w ≠ []
  /-- At one place one word begins at most. -/
  unique : ∀ {v w s t}, W v → W w → v ++ s = w ++ t → v = w
  /-- No word begins inside another one. -/
  inside : ∀ {v w x y s t}, W v → W w → v = x ++ y → x ≠ [] → y ≠ [] → w ++ s ≠ y ++ t

/-- No word is part of the text. -/
def Free (W : List α → Prop) (s : List α) : Prop := ∀ w, W w → ¬ w <:+: s

/-- `Removed W s out`: `out` is the text `s` without its words, the leftmost first. -/
inductive Removed (W : List α → Prop) : List α → List α → Prop
  | nil : Removed W [] []
  | word {w s out : List α} : W w → Removed W s out → Removed W (w ++ s) out
  | skip {b : α} {s out : List α} : (∀ w, W w → ¬ w <+: b :: s) → Removed W s out → Removed W (b :: s) (b :: out)

/-- `Trimmed W s out`: `out` is the text `s` without some symbols of its words. -/
inductive Trimmed (W : List α → Prop) : List α → List α → Prop
  | nil : Trimmed W [] []
  | word {w kept s out : List α} : W w → kept.Sublist w → Trimmed W s out → Trimmed W (w ++ s) (kept ++ out)
  | skip {b : α} {s out : List α} : Trimmed W s out → Trimmed W (b :: s) (b :: out)

theorem Free.of_infix (h : Free W t) (hs : s <:+: t) : Free W s := fun w hw hws => h w hw (hws.trans hs)

theorem Removed.trimmed (h : Removed W s out) : Trimmed W s out := by
  induction h with
  | nil => exact .nil
  | word hw _ ih => exact .word hw (List.nil_sublist _) ih
  | skip _ _ ih => exact .skip ih

namespace Apart
variable (hW : Apart W)
include hW

theorem mono (hsub : ∀ w, W' w → W w) : Apart W' where
  ne_nil hw := hW.ne_nil (hsub _ hw)
  unique hv hw h := hW.unique (hsub _ hv) (hsub _ hw) h
  inside hv hw h hx hy := hW.inside (hsub _ hv) (hsub _ hw) h hx hy

/-- A word is taken out where it begins. -/
theorem removed_word (hw : W w) (h : Removed W (w ++ s) out) : Removed W s out := by
  generalize ht : w ++ s = t at h
  cases h with
  | nil => exact absurd (List.append_eq_nil_iff.1 ht).1 (hW.ne_nil hw)
  | word hv h =>
    obtain rfl := hW.unique hw hv ht
    rwa [List.append_cancel_left ht]
  | skip hno => exact absurd (ht ▸ List.prefix_append w s) (hno w hw)

theorem removed_unique {out' : List α} (h : Removed W s out) (h' : Removed W s out') : out = out' := by
  induction h generalizing out' with
  | nil =>
    generalize ht : ([] : List α) = t at h'
    cases h' with
    | nil => rfl
    | word hw => exact absurd (List.append_eq_nil_iff.1 ht.symm).1 (hW.ne_nil hw)
    | skip => cases ht
  | word hw _ ih => exact ih (hW.removed_word hw h')
  | @skip b s out hno _ ih =>
    generalize ht : b :: s = t at h'
    cases h' with
    | nil => cases ht
    | word hw => exact absurd (ht ▸ List.prefix_append _ _) (hno _ hw)
    | skip _ h' =>
      cases ht
      rw [ih h']

/-- Where a word of `W'` neither is nor begins inside, a word of `W` stays. -/
theorem removed_other (hsub : ∀ w, W' w → W w) (hv : W v) (hv' : ¬ W' v) (h : Removed W' (v ++ s) out) :
    ∃ out', out = v ++ out' ∧ Removed W' s out' := by
  suffices hrest : ∀ y x out, v = x ++ y → Removed W' (y ++ s) out → ∃ out', out = y ++ out' ∧ Removed W' s out' from
    hrest v [] out rfl h
  intro y
  induction y with
  | nil => exact fun x out _ h => ⟨out, rfl, h⟩
  | cons c y ih =>
    intro x out hx h
    generalize ht : c :: y ++ s = t at h
    cases h with
    | nil => cases ht
    | @word w _ _ hw h =>
      cases x with
      | nil =>
        rw [← List.nil_append (c :: y), ← hx] at ht
        exact absurd (hW.unique hv (hsub w hw) ht ▸ hw) hv'
      | cons d x => exact absurd ht.symm (hW.inside hv (hsub w hw) hx (List.cons_ne_nil d x) (List.cons_ne_nil c y))
    | skip _ h =>
      cases ht
      obtain ⟨out', rfl, hout'⟩ := ih (x ++ [c]) _ (by rw [hx, List.append_assoc]; rfl) h
      exact ⟨out', rfl, hout'⟩

end Apart

/-- Where no word goes across, both parts of a text are treated alone. -/
theorem Removed.append_inv (h : Removed W (s ++ t) out)
    (hcut : ∀ x u v y, s = x ++ u → t = v ++ y → u ≠ [] → v ≠ [] → ¬ W (u ++ v)) :
    ∃ out₁ out₂, out = out₁ ++ out₂ ∧ Removed W s out₁ ∧ Removed W t out₂ := by
  generalize hst : s ++ t = st at h
  induction h generalizing s with
  | nil =>
    obtain ⟨rfl, rfl⟩ := List.append_eq_nil_iff.1 hst
    exact ⟨[], [], rfl, .nil, .nil⟩
  | @word w rest out hw h ih =>
    rcases List.append_eq_append_iff.1 hst with ⟨v, rfl, rfl⟩ | ⟨s', rfl, rfl⟩
    · by_cases hv : v = []
      · subst hv
        rw [List.append_nil] at hw
        obtain ⟨out₁, out₂, rfl, h₁, h₂⟩ := ih (s := [])
          (fun x u v y hs _ hu => absurd (List.append_eq_nil_iff.1 hs.symm).2 hu) rfl
        refine ⟨out₁, out₂, rfl, ?_, h₂⟩
        rw [← List.append_nil s]
        exact .word hw h₁
      · by_cases hs : s = []
        · subst hs
          exact ⟨[], out, rfl, .nil, .word hw h⟩
        · exact absurd hw (hcut [] s v rest rfl rfl hs hv)
    · obtain ⟨out₁, out₂, rfl, h₁, h₂⟩ := ih
        (fun x u v y hs => hcut (w ++ x) u v y (by rw [hs, List.append_assoc])) rfl
      exact ⟨out₁, out₂, rfl, .word hw h₁, h₂⟩
  | @skip b rest out hno h ih =>
    cases s with
    | nil =>
      rw [List.nil_append] at hst
      rw [hst]
      exact ⟨[], b :: out, rfl, .nil, .skip hno h⟩
    | cons c s =>
      cases hst
      obtain ⟨out₁, out₂, rfl, h₁, h₂⟩ := ih (fun x u v y hs => hcut (b :: x) u v y (by rw [hs]; rfl)) rfl
      exact ⟨b :: out₁, out₂, rfl, .skip (fun w hw hws => hno w hw (hws.trans (List.prefix_append _ t))) h₁, h₂⟩

/-! ## Texts as pieces -/

inductive Piece (α : Type _) where
  | raw (b : α)
  | word (w : List α)

def text : List (Piece α) → List α
  | [] => []
  | .raw b :: ps => b :: text ps
  | .word w :: ps => w ++ text ps

/-- The symbols outside the words. -/
def kept : List (Piece α) → List α
  | [] => []
  | .raw b :: ps => b :: kept ps
  | .word _ :: ps => kept ps

def Valid (W : List α → Prop) (ps : List (Piece α)) : Prop := ∀ w, Piece.word w ∈ ps → W w

section
variable {ps qs : List (Piece α)}

theorem kept_raw (w : List α) : kept (w.map .raw ++ ps) = w ++ kept ps := by
  induction w with
  | nil => rfl
  | cons b w ih => exact congrArg (b :: ·) ih

theorem Valid.of_sublist (h : Valid W qs) (hs : ps.Sublist qs) : Valid W ps := fun w hw => h w (hs.subset hw)

theorem kept_sublist (h : ps.Sublist qs) : (kept ps).Sublist (kept qs) := by
  induction h with
  | slnil => exact .slnil
  | cons p _ ih =>
    cases p with
    | raw b => exact ih.cons b
    | word w => exact ih
  | cons_cons p _ ih =>
    cases p with
    | raw b => exact ih.cons_cons b
    | word w => exact ih

theorem text_eq_kept (h : ∀ w, Piece.word w ∉ ps) : text ps = kept ps := by
  induction ps with
  | nil => rfl
  | cons p ps ih =>
    have hps := ih fun w hw => h w (List.mem_cons_of_mem p hw)
    cases p with
    | raw b => exact congrArg (b :: ·) hps
    | word w => exact absurd (List.mem_cons_self ..) (h w)

theorem Removed.exists_pieces (h : Removed W s out) : ∃ ps, Valid W ps ∧ text ps = s ∧ kept ps = out := by
  induction h with
  | nil => exact ⟨[], fun _ h => absurd h List.not_mem_nil, rfl, rfl⟩
  | @word w s out hw _ ih =>
    obtain ⟨ps, hps, rfl, rfl⟩ := ih
    refine ⟨.word w :: ps, fun v hv => ?_, rfl, rfl⟩
    rcases List.mem_cons.1 hv with hv | hv
    · cases hv
      exact hw
    · exact hps v hv
  | @skip b s out _ _ ih =>
    obtain ⟨ps, hps, rfl, rfl⟩ := ih
    refine ⟨.raw b :: ps, fun v hv => ?_, rfl, rfl⟩
    rcases List.mem_cons.1 hv with hv | hv
    · cases hv
    · exact hps v hv

theorem Trimmed.exists_pieces (h : Trimmed W s out) : ∃ ps, Valid W ps ∧ text ps = s ∧ (kept ps).length ≤ out.length := by
  induction h with
  | nil => exact ⟨[], fun _ h => absurd h List.not_mem_nil, rfl, Nat.le_refl _⟩
  | @word w kept s out hw _ _ ih =>
    obtain ⟨ps, hps, rfl, hlen⟩ := ih
    refine ⟨.word w :: ps, fun v hv => ?_, rfl, ?_⟩
    · rcases List.mem_cons.1 hv with hv | hv
      · cases hv
        exact hw
      · exact hps v hv
    · rw [List.length_append]
      exact Nat.le_add_left_of_le hlen
  | @skip b s out _ ih =>
    obtain ⟨ps, hps, rfl, hlen⟩ := ih
    refine ⟨.raw b :: ps, fun v hv => ?_, rfl, Nat.succ_le_succ hlen⟩
    rcases List.mem_cons.1 hv with hv | hv
    · cases hv
    · exact hps v hv

/-- A word that begins outside the pieces that are words lies outside them. -/
theorem Apart.covered (hW : Apart W) (hps : Valid W ps) {x y : List α} (hw : W (x ++ y)) (hx : x ≠ [])
    (h : text ps = y ++ t) : ∃ qs, ps = y.map .raw ++ qs ∧ text qs = t := by
  induction y generalizing x ps with
  | nil => exact ⟨ps, rfl, h⟩
  | cons c y ih =>
    cases ps with
    | nil => cases h
    | cons p ps =>
      have hps' : Valid W ps := hps.of_sublist (List.sublist_cons_self _ _)
      cases p with
      | raw b =>
        obtain ⟨rfl, hy⟩ := List.cons.inj h
        have hw' : W ((x ++ [b]) ++ y) := by rwa [List.append_assoc]
        obtain ⟨qs, rfl, hqs⟩ := ih hps' hw' (by simp) hy
        exact ⟨qs, rfl, hqs⟩
      | word v => exact absurd h (hW.inside hw (hps v (List.mem_cons_self ..)) rfl hx (List.cons_ne_nil c y))

/-- Words of one kind taken out: their pieces go, and symbols outside the pieces only
where words are brought together. -/
theorem Removed.pieces (hW : Apart W) (hsub : ∀ w, W' w → W w) : ∀ {ps : List (Piece α)} {out : List α}, Valid W ps →
    Removed W' (text ps) out → ∃ qs, text qs = out ∧ qs.Sublist ps ∧ (∀ w, Piece.word w ∈ qs → ¬ W' w) ∧
      (Free W (kept ps) → kept qs = kept ps)
  | [], out, _, h => by
    obtain rfl := (hW.mono hsub).removed_unique h .nil
    exact ⟨[], rfl, .slnil, fun _ h => absurd h List.not_mem_nil, fun _ => rfl⟩
  | .word v :: ps, out, hps, h => by
    have hv := hps v (List.mem_cons_self ..)
    have hps' : Valid W ps := hps.of_sublist (List.sublist_cons_self _ _)
    by_cases hv' : W' v
    · obtain ⟨qs, hout, hqs, hno, hkept⟩ := pieces hW hsub hps' ((hW.mono hsub).removed_word hv' h)
      exact ⟨qs, hout, hqs.cons _, hno, hkept⟩
    · obtain ⟨out', rfl, h'⟩ := hW.removed_other hsub hv hv' h
      obtain ⟨qs, rfl, hqs, hno, hkept⟩ := pieces hW hsub hps' h'
      refine ⟨.word v :: qs, rfl, hqs.cons_cons _, fun w hw => ?_, hkept⟩
      rcases List.mem_cons.1 hw with hw | hw
      · cases hw
        exact hv'
      · exact hno w hw
  | .raw b :: ps, out, hps, h => by
    have hps' : Valid W ps := hps.of_sublist (List.sublist_cons_self _ _)
    generalize ht : text (.raw b :: ps) = t at h
    cases h with
    | nil => cases ht
    | @word w s out hw h =>
      -- a word brought together: it lies between the pieces
      obtain ⟨c, w, rfl⟩ := List.exists_cons_of_ne_nil (hW.ne_nil (hsub w hw))
      obtain ⟨rfl, hw'⟩ := List.cons.inj ht
      obtain ⟨rest, hrest, rfl⟩ := hW.covered (x := [b]) hps' (hsub _ hw) (List.cons_ne_nil _ _) hw'
      have hsuf : rest.Sublist ps := hrest ▸ List.sublist_append_right _ _
      have hlen := hsuf.length_le
      obtain ⟨qs, hout, hqs, hno, -⟩ := pieces hW hsub (hps'.of_sublist hsuf) h
      refine ⟨qs, hout, (hqs.trans hsuf).cons _, hno, fun hfree => ?_⟩
      refine absurd ?_ (hfree _ (hsub _ hw))
      rw [hrest, show kept (.raw b :: (w.map .raw ++ rest)) = (b :: w) ++ kept rest from kept_raw (b :: w)]
      exact (List.prefix_append _ _).isInfix
    | skip _ h =>
      cases ht
      obtain ⟨qs, rfl, hqs, hno, hkept⟩ := pieces hW hsub hps' h
      refine ⟨.raw b :: qs, rfl, hqs.cons_cons _, fun w hw => ?_, fun hfree => ?_⟩
      · rcases List.mem_cons.1 hw with hw | hw
        · cases hw
        · exact hno w hw
      · exact congrArg (b :: ·) (hkept (hfree.of_infix (List.suffix_cons b _).isInfix))
termination_by ps => ps.length
decreasing_by all_goals (simp only [List.length_cons]; omega)

end

/-- Words of several kinds taken out, one kind after the other. -/
inductive RemovedEach : List (List α → Prop) → List α → List α → Prop
  | nil {s : List α} : RemovedEach [] s s
  | cons {W : List α → Prop} {Ws : List (List α → Prop)} {s mid out : List α} :
      Removed W s mid → RemovedEach Ws mid out → RemovedEach (W :: Ws) s out

theorem RemovedEach.pieces (hW : Apart W) {Ws : List (List α → Prop)} (hsub : ∀ W' ∈ Ws, ∀ w, W' w → W w)
    (h : RemovedEach Ws s out) {ps : List (Piece α)} (hps : Valid W ps) (hs : text ps = s) :
    ∃ qs, text qs = out ∧ qs.Sublist ps ∧ (∀ W' ∈ Ws, ∀ w, Piece.word w ∈ qs → ¬ W' w) ∧
      (Free W (kept ps) → kept qs = kept ps) := by
  induction h generalizing ps with
  | nil => exact ⟨ps, hs, .refl ps, fun _ h => absurd h List.not_mem_nil, fun _ => rfl⟩
  | @cons W' Ws s mid out h _ ih =>
    obtain ⟨hW', hWs⟩ := List.forall_mem_cons.1 hsub
    obtain ⟨qs, hmid, hqs, hno, hkept⟩ := Removed.pieces hW hW' hps (hs ▸ h)
    obtain ⟨rs, hout, hrs, hno', hkept'⟩ := ih hWs (hps.of_sublist hqs) hmid
    refine ⟨rs, hout, hrs.trans hqs, List.forall_mem_cons.2 ⟨fun w hw => hno w (hrs.subset hw), hno'⟩, fun hfree => ?_⟩
    rw [hkept' (by rwa [hkept hfree]), hkept hfree]

/-- At most the text without all words is left, and all of it where no word is
brought together. -/
theorem RemovedEach.spec (hW : Apart W) {Ws : List (List α → Prop)} (hWs : ∀ w, W w ↔ ∃ W' ∈ Ws, W' w)
    (h : RemovedEach Ws s out) (hall : Removed W s t) : out.Sublist t ∧ (Free W t → out = t) := by
  obtain ⟨ps, hps, hs, rfl⟩ := hall.exists_pieces
  obtain ⟨qs, rfl, hqs, hno, hkept⟩ := h.pieces hW (fun W' hW' w hw => (hWs w).2 ⟨W', hW', hw⟩) hps hs
  have htext : text qs = kept qs := text_eq_kept fun w hw => by
    obtain ⟨W', hW', hw'⟩ := (hWs w).1 (hps w (hqs.subset hw))
    exact hno W' hW' w hw hw'
  rw [htext]
  exact ⟨kept_sublist hqs, hkept⟩

theorem Trimmed.length_le (hW : Apart W) (h : Trimmed W s out) (hall : Removed W s t) : t.length ≤ out.length := by
  obtain ⟨ps, hps, rfl, hlen⟩ := h.exists_pieces
  obtain ⟨qs, rfl, hqs, hno, -⟩ := Removed.pieces hW (fun _ hw => hw) hps hall
  rw [text_eq_kept fun w hw => hno w hw (hps w (hqs.subset hw))]
  exact (kept_sublist hqs).length_le.trans hlen

/-! ## By regular expressions -/

section
open Regex
variable {r : Regex α}

theorem removeFrom_append (r : Regex α) (u t : List α) : removeFrom r u.length (u ++ t) = remove r t := by
  induction u with
  | nil => rfl
  | cons b u ih => exact ih

/-- `r` matches the words of `W`, whatever follows. -/
theorem removed_remove (hne : ∀ w, W w → w ≠ []) (hr : ∀ u t, u ≠ [] → (r.Matches u t ↔ W u)) (s : List α) :
    Removed W s (remove r s) := by
  induction hn : s.length using Nat.strong_induction_on generalizing s with
  | _ n ih =>
    cases s with
    | nil => exact .nil
    | cons b s =>
      unfold remove removeFrom
      split
      · rename_i t ht
        obtain ⟨u, hu', hs, hu⟩ := matchRest_some ht
        obtain ⟨c, u, rfl⟩ := List.exists_cons_of_ne_nil hu'
        obtain ⟨rfl, rfl⟩ : b = c ∧ s = u ++ t := List.cons.inj hs
        rw [show (u ++ t).length - t.length = u.length by simp, removeFrom_append]
        refine .word ((hr _ t hu').1 hu) (ih t.length ?_ t rfl)
        simp only [List.length_cons, List.length_append] at hn
        omega
      · rename_i hnone
        refine .skip (fun w hw hws => ?_) (ih s.length (by simp [← hn]) s rfl)
        obtain ⟨t, ht⟩ := hws
        exact matchRest_none (ht ▸ hnone) (hne w hw) ((hr w t (hne w hw)).2 hw)

end

end AgentSdk.Lib.Words
