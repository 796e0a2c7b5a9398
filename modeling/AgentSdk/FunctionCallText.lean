import AgentSdk.FunctionCalls
/-!
# The text of a call

What a call looks like to the parser and to the repairs that run before it.
Nothing in the format is escaped, so these are facts about texts whose
parameters do not hold the tags that the parser looks for.
-/

namespace AgentSdk
open Lib

/-! ## Values between their tags -/

/-- The newlines around a value of several lines are not part of it. -/
theorem strip_framed {t : Text} (ht : strip t = t) (hn : '\n' ∈ t) : strip ('\n' :: (t ++ ['\n'])) = t := by
  obtain ⟨hl, hr⟩ := strip_eq_iff.1 ht
  have hne : (lstrip t).isEmpty = false := by
    rw [hl]
    cases t with
    | nil => simp at hn
    | cons c t => rfl
  have hlead : lstrip ('\n' :: (t ++ ['\n'])) = t ++ ['\n'] := by
    show (t ++ ['\n']).dropWhile isSpace = _
    rw [List.dropWhile_append]
    rw [lstrip] at hl hne
    rw [hne, if_neg (by simp), hl]
  rw [strip, hlead, rstrip, List.rdropWhile_concat_pos _ _ _ isSpace_newline]
  exact hr

theorem strip_intText (i : Int) : strip (intText i) = intText i := by
  refine strip_of_no_space fun c hc => ?_
  unfold intText at hc
  have hdig : ∀ d ∈ Nat.toDigits 10 i.natAbs, isSpace d = false :=
    fun d hd => isSpace_of_isDigit (Nat.isDigit_of_mem_toDigits (by decide) (by decide) hd)
  split at hc
  · rcases List.mem_cons.1 hc with rfl | hc
    · decide
    · exact hdig c hc
  · exact hdig c hc

theorem pyInt_signed {sign : Text} {n : Nat} (hs : sign = [] ∨ ∃ m ∈ ['+', '-'], sign = [m])
    (ht : strip (sign ++ Nat.toDigits 10 n) = sign ++ Nat.toDigits 10 n) :
    pyInt (sign ++ Nat.toDigits 10 n) = some (if sign = ['-'] then -(n : Int) else n) := by
  have hdigits : ∀ c ∈ Nat.toDigits 10 n, c.isDigit = true :=
    fun c hc => Nat.isDigit_of_mem_toDigits (by decide) (by decide) hc
  have hsplit : (Nat.toDigits 10 n).splitOn '_' = [Nat.toDigits 10 n] := by
    refine List.splitOnP_eq_singleton fun c hc => ?_
    have hne : c ≠ '_' := by
      rintro rfl
      exact absurd (hdigits _ hc) (by decide)
    simpa using hne
  obtain ⟨c, u, hcu⟩ := List.exists_cons_of_ne_nil (Nat.toDigits_ne_nil (n := n) (b := 10))
  have hsign : scanSign ['+', '-'] (sign ++ Nat.toDigits 10 n) = (sign, Nat.toDigits 10 n) := by
    rw [hcu]
    exact scanSign_append hs (digit_not_mem (by simp) (hdigits c (by simp [hcu])))
  have hall : (!(Nat.toDigits 10 n).isEmpty && (Nat.toDigits 10 n).all Char.isDigit) = true := by
    rw [Bool.and_eq_true, List.all_eq_true]
    exact ⟨by simp [hcu], hdigits⟩
  rw [pyInt, ht]
  simp only [hsign, hsplit, List.all_cons, List.all_nil, hall, List.flatten_cons, List.flatten_nil, List.append_nil,
    Nat.ofDigitChars_ten_toDigits, Bool.and_true, if_true]

/-- `int()` reads what `str()` writes. -/
theorem pyInt_intText (i : Int) : pyInt (intText i) = some i := by
  have hstrip := strip_intText i
  by_cases hneg : i < 0
  · rw [intText, if_pos hneg] at hstrip ⊢
    refine (pyInt_signed (.inr ⟨'-', by simp, rfl⟩) hstrip).trans ?_
    rw [if_pos rfl, Option.some.injEq]
    omega
  · rw [intText, if_neg hneg] at hstrip ⊢
    refine (pyInt_signed (.inl rfl) hstrip).trans ?_
    rw [if_neg (by simp), Option.some.injEq]
    omega

section
variable {F : Type} [PyFloat F]

theorem dumpsElems_last (xs : List (Json F)) : ∃ u, dumpsElems xs = u ++ [']'] := by
  induction xs with
  | nil => exact ⟨[], rfl⟩
  | cons x xs ih =>
    obtain ⟨u, hu⟩ := ih
    exact ⟨',' :: ' ' :: (dumps x ++ u), by rw [dumpsElems, hu]; simp⟩

theorem strip_dumps_arr (xs : List (Json F)) : strip (dumps (.arr xs)) = dumps (.arr xs) := by
  obtain ⟨u, hu⟩ : ∃ u, dumps (.arr xs) = '[' :: (u ++ [']']) := by
    cases xs with
    | nil => exact ⟨[], rfl⟩
    | cons x xs =>
      obtain ⟨u, hu⟩ := dumpsElems_last xs
      exact ⟨dumps x ++ u, by rw [dumps, hu]; simp⟩
  rw [hu]
  refine strip_eq_iff.2 ⟨lstrip_cons (by decide), ?_⟩
  rw [← List.cons_append]
  exact rstrip_concat (by decide)

end

/-! ## The matchers -/

theorem fnOpen_headed : Headed '<' fnOpen := by decide

theorem fnClose_headed : Headed '<' fnClose := by decide

theorem paramOpen_headed : Headed '<' paramOpen := by decide

theorem paramClose_headed : Headed '<' paramClose := by decide

/-- A tag, white space and another tag: what the clean-up looks for. -/
def Follows (w x t : Text) : Prop := ∃ u, t = w ++ u ∧ x <+: lstrip u

theorem tagBeforeCall_eq_none {tag t : Text} : tagBeforeCall tag t = none ↔ ¬ Follows tag fnOpen t := by
  unfold tagBeforeCall Follows
  constructor
  · rintro h ⟨u, rfl, hu⟩
    simp [dropPrefix?_append, hu] at h
  · intro h
    cases hd : t.dropPrefix? tag with
    | none => rfl
    | some u =>
      have hu : ¬ fnOpen <+: lstrip u := fun hu => h ⟨u, prefix_of_dropPrefix? hd, hu⟩
      simp [hu]

theorem tagAfterCall_eq_none {t : Text} : tagAfterCall t = none ↔ ¬ Follows fnClose toolCallClose t := by
  unfold tagAfterCall Follows
  constructor
  · rintro h ⟨u, rfl, v, hv⟩
    simp [dropPrefix?_append, ← hv] at h
  · intro h
    cases hd : t.dropPrefix? fnClose with
    | none => rfl
    | some u =>
      have hu : ¬ toolCallClose <+: lstrip u := fun hu => h ⟨u, prefix_of_dropPrefix? hd, hu⟩
      simp [dropPrefix?_eq_none hu]

theorem Follows.prefix {w x t : Text} (h : Follows w x t) : w <+: t := by
  obtain ⟨u, rfl, -⟩ := h
  exact List.prefix_append _ _

theorem lstrip_append_tag {p c t : Text} (hc : Headed '<' c) : lstrip (p ++ (c ++ t)) = lstrip p ++ (c ++ t) := by
  obtain ⟨u, rfl, -⟩ := hc
  exact lstrip_append (lstrip_cons (by decide))

/-- Nothing behind a closing tag decides about `Follows`. -/
theorem Follows.local {w x c y t : Text} (hw : Headed '<' w) (hx : Headed '<' x) (hc : Headed '<' c) (hwc : Apart w c)
    (hxc : Apart x c) (h : Follows w x (y ++ c ++ t)) : Follows w x (y ++ c) := by
  obtain ⟨u, hu, hxu⟩ := h
  have hpre : w <+: y ++ (c ++ t) := ⟨u, by rw [← hu, List.append_assoc]⟩
  obtain ⟨v, hv, -⟩ := id hc
  by_cases hy : y = []
  · rw [hy, List.nil_append] at hpre
    exact absurd hpre hwc.not_prefix
  · rw [hv, List.cons_append] at hpre
    obtain ⟨y', rfl⟩ := hw.prefix_of_append hy hpre
    have huy : u = y' ++ (c ++ t) := by
      rw [List.append_assoc, List.append_assoc] at hu
      exact (List.append_cancel_left hu).symm
    refine ⟨y' ++ c, by rw [List.append_assoc], ?_⟩
    have hstrip : lstrip (y' ++ c) = lstrip y' ++ c := by simpa using lstrip_append_tag (p := y') (t := []) hc
    rw [huy, lstrip_append_tag hc] at hxu
    rw [hstrip]
    by_cases hl : lstrip y' = []
    · rw [hl, List.nil_append] at hxu
      exact absurd hxu hxc.not_prefix
    · rw [hv, List.cons_append] at hxu
      exact (hx.prefix_of_append hl hxu).trans (List.prefix_append _ _)

/-- A malformed tag: a name, `=` where `>` belongs, and a value up to the close. -/
def Malformed (t : Text) : Prop :=
  ∃ name value u, t = paramOpen ++ (name ++ '=' :: (value ++ (paramClose ++ u))) ∧ name ≠ [] ∧
    (∀ c ∈ name, isWord c = true) ∧ '<' ∉ value

theorem malformedParam_eq_none {t : Text} : malformedParam t = none ↔ ¬ Malformed t := by
  constructor
  · rintro h ⟨name, value, u, rfl, hne, hword, hval⟩
    have heq : isWord '=' = false := by decide
    obtain ⟨v, hv, -⟩ := paramClose_headed
    have hrest : value ++ (paramClose ++ u) = value ++ '<' :: (v ++ u) := by rw [hv, List.cons_append]
    obtain ⟨htake, hdrop⟩ := takeWhile_ne_append (t := v ++ u) hval
    rw [← hrest] at htake hdrop
    have hclose : ('<' :: (v ++ u)).dropPrefix? paramClose = some u := by
      rw [← List.cons_append, ← hv, dropPrefix?_append]
    have hname : (name ++ '=' :: (value ++ (paramClose ++ u))).takeWhile isWord = name ∧
        (name ++ '=' :: (value ++ (paramClose ++ u))).dropWhile isWord = '=' :: (value ++ (paramClose ++ u)) := by
      rw [List.takeWhile_append_of_pos hword, List.dropWhile_append_of_pos hword]
      simp [heq]
    have heqs : ('=' :: (value ++ (paramClose ++ u))).dropPrefix? ['='] = some (value ++ (paramClose ++ u)) :=
      dropPrefix?_append ['='] _
    simp only [malformedParam, dropPrefix?_append, hname.1, hname.2, if_neg hne, heqs, hdrop, hclose, bind, Option.bind,
      reduceCtorEq] at h
  · intro h
    unfold malformedParam
    cases hd : t.dropPrefix? paramOpen with
    | none => rfl
    | some u =>
      simp only [bind, Option.bind]
      split
      · rfl
      · rename_i hne
        cases he : (u.dropWhile isWord).dropPrefix? ['='] with
        | none => rfl
        | some v =>
          cases hc : (v.dropWhile fun c => decide (c ≠ '<')).dropPrefix? paramClose with
          | none => simp only [hc]
          | some w =>
            refine absurd ⟨u.takeWhile isWord, v.takeWhile fun c => decide (c ≠ '<'), w, ?_, hne, ?_, ?_⟩ h
            · rw [prefix_of_dropPrefix? hd, ← prefix_of_dropPrefix? hc, List.takeWhile_append_dropWhile,
                ← List.singleton_append, ← prefix_of_dropPrefix? he, List.takeWhile_append_dropWhile]
            · exact fun c hc => List.mem_takeWhile_imp hc
            · exact fun hlt => by simpa using List.mem_takeWhile_imp hlt

theorem Malformed.local {y t : Text} (h : Malformed (y ++ paramClose ++ t)) : Malformed (y ++ paramClose) := by
  obtain ⟨name, value, u, hu, hne, hword, hval⟩ := h
  rw [List.append_assoc] at hu
  obtain ⟨pc, hpc, hpcl⟩ := paramClose_headed
  obtain ⟨po, hpo, hpol⟩ := paramOpen_headed
  by_cases hy : y = []
  · rw [hy, List.nil_append] at hu
    exact absurd ⟨_, hu.symm⟩ (Apart.not_prefix (by decide))
  · obtain ⟨c, y, rfl⟩ := List.exists_cons_of_ne_nil hy
    -- What comes before the close is one stretch without `<`.
    have hstretch : '<' ∉ po ++ (name ++ '=' :: value) := by
      simp only [List.mem_append, List.mem_cons, not_or]
      refine ⟨hpol, fun hlt => ?_, by decide, hval⟩
      exact absurd (hword _ hlt) (by decide)
    have hsplit : c = '<' ∧ y ++ '<' :: (pc ++ t) = (po ++ (name ++ '=' :: value)) ++ '<' :: (pc ++ u) := by
      rw [hpo, hpc] at hu
      simpa using hu
    obtain ⟨rfl, hyu⟩ := hsplit
    by_cases hlt : '<' ∈ y
    · obtain ⟨y₁, y₂, rfl, hy₁⟩ := List.eq_append_cons_of_mem hlt
      rw [List.append_assoc, List.cons_append] at hyu
      obtain ⟨rfl, htail⟩ := append_cons_inj hy₁ hstretch hyu
      obtain ⟨z, hz⟩ : pc <+: y₂ := prefix_of_append_cons hpcl ⟨u, htail.symm⟩
      refine ⟨name, value, z ++ paramClose, ?_, hne, hword, hval⟩
      rw [← hz, hpo]
      simp [hpc]
    · obtain ⟨rfl, -⟩ := append_cons_inj hlt hstretch hyu
      refine ⟨name, value, [], ?_, hne, hword, hval⟩
      rw [hpo]
      simp

/-! ## The text of a call -/

section
variable {F : Type} [PyFloat F]

/-- The parameters of a call, one a line. -/
def bodyText (args : List (Text × Json F)) : Text := args.flatMap fun p => renderParam p ++ ['\n']

/-- A parameter whose text the parser does not take for something else: its name
can stand in a tag, its value holds no closing tag, and nothing in it is what
the repairs of a response look for. -/
structure CleanParam (p : Text × Json F) : Prop where
  name : p.1 ≠ [] ∧ '>' ∉ p.1
  closed : ¬ paramClose <:+: renderValue p.2
  inside : ¬ fnClose <:+: renderParam p
  unwrapped : ∀ tag ∈ [thinkEnd, toolCallOpen], NoMatch (tagBeforeCall tag) (renderParam p) []
  wellFormed : NoMatch malformedParam (renderParam p) []

variable {args : List (Text × Json F)} {name : Text}

theorem intercalate_concat (sep last : Text) (parts : List Text) :
    List.intercalate sep (parts ++ [last]) = (parts.flatMap fun p => p ++ sep) ++ last := by
  induction parts with
  | nil => simp
  | cons p parts ih =>
    obtain ⟨q, rest, hq⟩ := List.exists_cons_of_ne_nil (show parts ++ [last] ≠ [] by simp)
    rw [hq] at ih
    rw [List.cons_append, hq, List.intercalate_cons_cons, ih]
    simp

theorem renderCall_eq (name : Text) (args : List (Text × Json F)) :
    renderCall name args = fnOpen ++ (name ++ '>' :: '\n' :: (bodyText args ++ fnClose)) := by
  rw [renderCall, intercalate_concat]
  simp [bodyText, List.flatMap_map]

theorem bodyText_cons (p : Text × Json F) (args : List (Text × Json F)) (t : Text) :
    bodyText (p :: args) ++ t = renderParam p ++ '\n' :: (bodyText args ++ t) := by
  simp [bodyText]

theorem renderParam_eq (p : Text × Json F) :
    renderParam p = (paramOpen ++ (p.1 ++ '>' :: renderValue p.2)) ++ paramClose := by
  simp [renderParam]

/-- Behind its first line a call goes on with a tag. -/
theorem bodyText_head (args : List (Text × Json F)) :
    ∃ c u, bodyText args ++ fnClose = c ++ u ∧ (c = paramOpen ∨ c = fnClose) := by
  cases args with
  | nil => exact ⟨fnClose, [], by simp [bodyText], .inr rfl⟩
  | cons p args =>
    have hp := bodyText_cons p args fnClose
    rw [renderParam_eq, List.append_assoc, List.append_assoc] at hp
    exact ⟨paramOpen, _, hp, .inl rfl⟩

theorem lstrip_body (args : List (Text × Json F)) : lstrip (bodyText args ++ fnClose) = bodyText args ++ fnClose := by
  obtain ⟨c, u, hcu, hc⟩ := bodyText_head args
  have hlead : Headed '<' c := by rcases hc with rfl | rfl <;> decide
  rw [hcu]
  exact lstrip_append_tag (p := []) hlead

theorem not_prefix_body {x : Text} (ho : Apart x paramOpen) (hf : Apart x fnClose) :
    ¬ x <+: bodyText args ++ fnClose := by
  obtain ⟨c, u, hcu, hc⟩ := bodyText_head args
  rw [hcu]
  rcases hc with rfl | rfl
  · exact ho.not_prefix
  · exact hf.not_prefix

/-- The name's tag is no match: what follows it is not what a match needs. -/
theorem noMatch_header {m : Matcher Char Text} {w x t : Text} (hm : ∀ t, m t = none ↔ ¬ Follows w x t)
    (hw : ∃ w', w = w' ++ ['>'] ∧ '>' ∉ w') (hname : '>' ∉ name) (ht : lstrip t = t) (hx : ¬ x <+: t) :
    NoMatch m (fnOpen ++ (name ++ ['>'])) ('\n' :: t) := by
  intro q r hqr hr
  obtain ⟨w', rfl, hw'⟩ := hw
  rw [hm]
  rintro ⟨u, hu, hxu⟩
  obtain ⟨r', rfl, hr'⟩ : ∃ r', r = r' ++ ['>'] ∧ '>' ∉ r' := by
    rcases List.eq_nil_or_concat r with rfl | ⟨r', c, rfl⟩
    · exact absurd rfl hr
    · rw [List.concat_eq_append, ← List.append_assoc, ← List.append_assoc] at hqr
      obtain ⟨hfront, hc⟩ := List.append_inj' hqr rfl
      cases hc
      refine ⟨r', List.concat_eq_append, fun hmem => ?_⟩
      have hmem' : '>' ∈ fnOpen ++ name := hfront ▸ List.mem_append_right q hmem
      rcases List.mem_append.1 hmem' with h | h
      · exact absurd h (by decide)
      · exact hname h
  simp only [List.append_assoc, List.singleton_append] at hu
  obtain ⟨-, rfl⟩ := append_cons_inj hr' hw' hu
  have hnl : lstrip ('\n' :: t) = t := ht
  rw [hnl] at hxu
  exact hx hxu

theorem startsWith_of_follows {m : Matcher Char Text} {w x : Text} (hm : ∀ t, m t = none ↔ ¬ Follows w x t) :
    StartsWith m w := fun t ht => (hm t).2 fun h => ht h.prefix

theorem noMatch_newline {β : Type _} {m : Matcher Char β} {w p t : Text} (hm : StartsWith m w) (hw : Headed '<' w)
    (hp : NoMatch m p t) : NoMatch m ('\n' :: p) t := by
  refine noMatch_cons.2 ⟨hm _ fun hpre => ?_, hp⟩
  obtain ⟨u, rfl, -⟩ := hw
  exact absurd (List.cons_prefix_cons.1 hpre).1 (by decide)

/-- Lines without a match, whatever follows each. -/
theorem noMatch_body {m : Matcher Char Text} {w : Text} (hm : StartsWith m w) (hw : Headed '<' w)
    (h : ∀ p ∈ args, ∀ t, NoMatch m (renderParam p) ('\n' :: t)) (t : Text) : NoMatch m (bodyText args) t := by
  induction args with
  | nil => exact .nil
  | cons p args ih =>
    rw [List.forall_mem_cons] at h
    have hbody := bodyText_cons p args []
    rw [List.append_nil, List.append_nil] at hbody
    rw [hbody]
    exact noMatch_append (h.1 _) (noMatch_newline hm hw (ih h.2))

theorem noMatch_call {m : Matcher Char Text} {w x : Text} (hm : ∀ t, m t = none ↔ ¬ Follows w x t) (hw : Headed '<' w)
    (hwe : ∃ w', w = w' ++ ['>'] ∧ '>' ∉ w') (hname : '>' ∉ name) (ho : Apart x paramOpen) (hf : Apart x fnClose)
    (h : ∀ p ∈ args, ∀ t, NoMatch m (renderParam p) ('\n' :: t)) (hend : NoMatch m fnClose []) :
    NoMatch m (renderCall name args) [] := by
  have hs := startsWith_of_follows hm
  have hcall : renderCall name args = (fnOpen ++ (name ++ ['>'])) ++ '\n' :: (bodyText args ++ fnClose) := by
    rw [renderCall_eq]
    simp
  rw [hcall]
  refine noMatch_append ?_ (noMatch_newline hs hw (noMatch_append (noMatch_body hs hw h _) hend))
  rw [List.append_nil]
  exact noMatch_header hm hwe hname (lstrip_body args) (not_prefix_body ho hf)

/-! ### What the clean-up does to it -/

section Clean
variable {p : Text × Json F}

theorem CleanParam.noMatch_tagBeforeCall (hp : CleanParam p) {tag : Text} (htag : tag ∈ [thinkEnd, toolCallOpen])
    (t : Text) : NoMatch (tagBeforeCall tag) (renderParam p) t := by
  have hfacts : ∀ tag ∈ [thinkEnd, toolCallOpen], Headed '<' tag ∧ Apart tag paramClose := by decide
  obtain ⟨hhead, hapart⟩ := hfacts tag htag
  have hplain := hp.unwrapped tag htag
  rw [renderParam_eq] at hplain ⊢
  refine noMatch_of_closed hplain (fun y hy => ?_) ?_
  · rw [tagBeforeCall_eq_none] at hy ⊢
    exact fun h => hy (h.local hhead fnOpen_headed paramClose_headed hapart (by decide))
  · exact (startsWith_of_follows fun _ => tagBeforeCall_eq_none).noMatch_tag hhead paramClose_headed hapart

theorem CleanParam.noMatch_tagAfterCall (hp : CleanParam p) (t : Text) :
    NoMatch tagAfterCall (renderParam p) ('\n' :: t) := by
  refine (startsWith_of_follows fun _ => tagAfterCall_eq_none).noMatch fun q r hqr _ hpre => ?_
  have hr : fnClose <+: r := prefix_of_append_cons (by decide) hpre
  exact not_prefix_of_noInfix hp.inside hqr hr

theorem startsWith_malformed : StartsWith malformedParam paramOpen := by
  intro t ht
  rw [malformedParam_eq_none]
  rintro ⟨name, value, u, rfl, -⟩
  exact ht (List.prefix_append _ _)

theorem CleanParam.noMatch_malformed (hp : CleanParam p) (t : Text) : NoMatch malformedParam (renderParam p) t := by
  have hplain := hp.wellFormed
  rw [renderParam_eq] at hplain ⊢
  refine noMatch_of_closed hplain (fun y hy => ?_) ?_
  · rw [malformedParam_eq_none] at hy ⊢
    exact fun h => hy h.local
  · exact startsWith_malformed.noMatch_tag paramOpen_headed paramClose_headed (by decide)

end Clean

variable (hargs : ∀ p ∈ args, CleanParam p)
include hargs

theorem noMatch_call_before (hname : '>' ∉ name) {tag : Text} (htag : tag ∈ [thinkEnd, toolCallOpen]) :
    NoMatch (tagBeforeCall tag) (renderCall name args) [] := by
  have hfacts : ∀ tag ∈ [thinkEnd, toolCallOpen], Headed '<' tag ∧ Apart tag fnClose ∧
      tag = tag.dropLast ++ ['>'] ∧ '>' ∉ tag.dropLast := by decide
  obtain ⟨hhead, hapart, hlast, hfront⟩ := hfacts tag htag
  refine noMatch_call (fun _ => tagBeforeCall_eq_none) hhead ⟨_, hlast, hfront⟩ hname (by decide) (by decide) ?_ ?_
  · exact fun p hp t => (hargs p hp).noMatch_tagBeforeCall htag _
  · exact (startsWith_of_follows fun _ => tagBeforeCall_eq_none).noMatch_tag hhead fnClose_headed hapart

theorem noMatch_call_after (hname : '>' ∉ name) : NoMatch tagAfterCall (renderCall name args) [] := by
  refine noMatch_call (fun _ => tagAfterCall_eq_none) fnClose_headed ⟨"</function".toList, by decide, by decide⟩ hname
    (by decide) (by decide) (fun p hp t => (hargs p hp).noMatch_tagAfterCall t) ?_
  have hends : tagAfterCall fnClose = none := by decide
  obtain ⟨v, hv, hlt⟩ := fnClose_headed
  rw [hv] at hends ⊢
  refine noMatch_cons.2 ⟨by rwa [List.append_nil], ?_⟩
  exact (startsWith_of_follows fun _ => tagAfterCall_eq_none).noMatch_plain (a := '<') (by decide) hlt

/-- The repair of tags leaves the parameters alone. -/
theorem normalizeParameterTags_body : normalizeParameterTags (bodyText args) = bodyText args := by
  have hno : NoMatch malformedParam (bodyText args) [] :=
    noMatch_body startsWith_malformed paramOpen_headed (fun p hp t => (hargs p hp).noMatch_malformed _) []
  have hsub := subAll_skip hno
  rwa [List.append_nil, subAll, List.append_nil] at hsub

/-- A call is over where its closing tag stands, and not before. -/
theorem noInfix_body : ¬ fnClose <:+: bodyText args := by
  induction args with
  | nil => exact fun h => fnClose_headed.ne_nil (List.infix_nil.1 h)
  | cons p args ih =>
    rw [List.forall_mem_cons] at hargs
    have hbody := bodyText_cons p args []
    rw [List.append_nil, List.append_nil] at hbody
    rw [hbody]
    intro h
    rcases infix_of_append_cons (by decide) h with hp | hrest
    · exact hargs.1.inside hp
    · exact ih hargs.2 hrest

omit hargs in
theorem tagged_append {opening closing optional v body : Text} {fnName rest : Text} (hne : fnName ≠ [])
    (hname : '>' ∉ fnName) (hopt : (v.dropPrefix? optional).getD v = body ++ (closing ++ rest))
    (hclose : Headed '<' closing) (hbody : ¬ closing <:+: body) :
    tagged opening closing optional (opening ++ (fnName ++ '>' :: v)) =
      some ((opening ++ (fnName ++ '>' :: v)).length - rest.length, (fnName, body)) := by
  obtain ⟨htake, hdrop⟩ := takeWhile_ne_append (t := v) hname
  have hgt : ('>' :: v).dropPrefix? ['>'] = some v := dropPrefix?_append ['>'] v
  have huntil : untilFirst closing (body ++ (closing ++ rest)) = some (body, rest) := by
    rw [← List.append_assoc]
    exact untilFirst_append hclose hbody
  simp only [tagged, dropPrefix?_append, htake, hdrop, if_neg hne, hgt, hopt, huntil, bind, Option.bind]

/-- The parameters are found, with their texts. -/
theorem findAll_body : findAll paramMatch 0 (bodyText args) = args.map fun p => (p.1, renderValue p.2) := by
  induction args with
  | nil => rfl
  | cons p args ih =>
    rw [List.forall_mem_cons] at hargs
    obtain ⟨⟨hne, hgt⟩, hclosed, -, -, -⟩ := hargs.1
    have hbody := bodyText_cons p args []
    rw [List.append_nil, List.append_nil] at hbody
    have hhit : paramMatch (renderParam p ++ '\n' :: bodyText args) =
        some ((renderParam p).length, (p.1, renderValue p.2)) := by
      have ht : paramMatch (paramOpen ++ (p.1 ++ '>' :: (renderValue p.2 ++ (paramClose ++ '\n' :: bodyText args)))) = _ :=
        tagged_append hne hgt (by rw [List.dropPrefix?_nil]; rfl) paramClose_headed hclosed
      have htext : paramOpen ++ (p.1 ++ '>' :: (renderValue p.2 ++ (paramClose ++ '\n' :: bodyText args))) =
          renderParam p ++ '\n' :: bodyText args := by
        rw [renderParam_eq]
        simp
      rw [htext, List.length_append, Nat.add_sub_cancel] at ht
      exact ht
    have hstart : StartsWith paramMatch paramOpen := by
      intro t ht
      rw [paramMatch, tagged, dropPrefix?_eq_none ht]
      rfl
    have hskip : findAll paramMatch 0 (['\n'] ++ bodyText args) = findAll paramMatch 0 (bodyText args) :=
      findAll_skip (noMatch_newline hstart paramOpen_headed .nil)
    rw [List.singleton_append] at hskip
    have hne' : renderParam p ≠ [] := by
      rw [renderParam_eq]
      exact List.append_ne_nil_of_right_ne_nil _ paramClose_headed.ne_nil
    rw [hbody, findAll_hit hne' hhit, hskip, ih hargs.2]
    rfl

end

end AgentSdk
