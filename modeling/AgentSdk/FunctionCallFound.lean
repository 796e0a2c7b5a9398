import AgentSdk.FunctionCallText
/-!
# A written call is found again

The repairs that run before a response is parsed never take a call away that
ends the text, whatever its arguments and the prose before it hold: they only
remove wrapper tags, and these neither begin inside a call's first line nor
reach over its ends.
-/

namespace AgentSdk
open Lib

/-! ## What the repairs cover -/

section Matches
variable {n : Nat} {out t : Text}

theorem lt_not_mem_space (t : Text) : '<' ∉ t.takeWhile isSpace := by
  intro h
  exact absurd (List.mem_takeWhile_imp h) (by decide)

theorem take_space_append (t : Text) : t.takeWhile isSpace ++ lstrip t = t := List.takeWhile_append_dropWhile

theorem tagBeforeCall_some {tag : Text} (h : tagBeforeCall tag t = some (n, out)) :
    ∃ space v, t = tag ++ space ++ v ∧ '<' ∉ space ∧ n = (tag ++ space).length := by
  unfold tagBeforeCall at h
  obtain ⟨u, hu, h⟩ := Option.bind_eq_some_iff.1 h
  obtain rfl := prefix_of_dropPrefix? hu
  dsimp only at h
  split at h
  · obtain ⟨rfl, rfl⟩ := Prod.mk.inj (Option.some.inj h)
    refine ⟨u.takeWhile isSpace, lstrip u, ?_, lt_not_mem_space u, ?_⟩
    · rw [List.append_assoc, take_space_append]
    · have hlen := congrArg List.length (take_space_append u)
      simp only [List.length_append] at hlen ⊢
      omega
  · cases h

theorem tagAfterCall_some (h : tagAfterCall t = some (n, out)) :
    ∃ space v, t = fnClose ++ space ++ (toolCallClose ++ v) ∧ '<' ∉ space ∧ out = fnClose ∧
      n = (fnClose ++ space ++ toolCallClose).length := by
  unfold tagAfterCall at h
  obtain ⟨u, hu, h⟩ := Option.bind_eq_some_iff.1 h
  obtain ⟨v, hv, h⟩ := Option.bind_eq_some_iff.1 h
  obtain rfl := prefix_of_dropPrefix? hu
  have hstrip := prefix_of_dropPrefix? hv
  obtain ⟨rfl, rfl⟩ := Prod.mk.inj (Option.some.inj h)
  have hspace := take_space_append u
  rw [hstrip] at hspace
  refine ⟨u.takeWhile isSpace, v, ?_, lt_not_mem_space u, rfl, ?_⟩
  · rw [List.append_assoc, hspace]
  · have hlen := congrArg List.length hspace
    simp only [List.length_append] at hlen ⊢
    omega

variable {p c : Text}

theorem staysIn_tagBeforeCall {tag : Text} (htag : Headed '<' tag) (hc : Headed '<' c) :
    StaysIn (tagBeforeCall tag) p (c ++ t) := by
  intro q r _ hr n out hm
  obtain ⟨space, v, heq, hspace, rfl⟩ := tagBeforeCall_some hm
  obtain ⟨u, rfl, -⟩ := hc
  exact htag.length_le hspace hr heq.symm

theorem staysIn_tagAfterCall (hc : Headed '<' c) (hapart : Apart toolCallClose c) :
    StaysIn tagAfterCall p (c ++ t) := by
  intro q r _ hr n out hm
  obtain ⟨space, v, heq, hspace, -, rfl⟩ := tagAfterCall_some hm
  obtain ⟨u, hu, -⟩ := id hc
  have hlen : (fnClose ++ space).length ≤ r.length := by
    rw [hu] at heq
    exact fnClose_headed.length_le hspace hr heq.symm
  -- What the match covers behind its first tag and the space ends before `c`, too.
  obtain ⟨x, rfl⟩ : fnClose ++ space <+: r := by
    refine List.prefix_of_prefix_length_le ?_ (List.prefix_append r (c ++ t)) hlen
    rw [heq]
    exact List.prefix_append _ _
  rw [List.append_assoc] at heq
  have hrest : x ++ (c ++ t) = toolCallClose ++ v := List.append_cancel_left heq
  by_cases hx : x = []
  · rw [hx, List.nil_append] at hrest
    exact absurd ⟨v, hrest.symm⟩ hapart.not_prefix
  · have hclose : Headed '<' toolCallClose := by decide
    have hle : (toolCallClose ++ []).length ≤ x.length := by
      refine hclose.length_le (v := v) (t := u ++ t) List.not_mem_nil hx ?_
      rw [List.append_nil, ← hrest, hu]
      rfl
    simp only [List.length_append, List.length_nil] at hle ⊢
    omega

end Matches

/-! ## A call at the end of a text -/

/-- The text ends with a call of the name: its first line, a tag behind it, and
a closing tag at the very end. -/
def EndsWithCall (name t : Text) : Prop :=
  ∃ p b, t = p ++ (fnOpen ++ (name ++ '>' :: '\n' :: b)) ∧ (∃ c, (c = paramOpen ∨ c = fnClose) ∧ c <+: b) ∧
    fnClose <:+ b

section Repairs
variable {name t : Text}

theorem headed_of_paramOpen_or_fnClose {c : Text} (hc : c = paramOpen ∨ c = fnClose) : Headed '<' c := by
  rcases hc with rfl | rfl <;> decide

/-- What the repairs have in common: they keep a call at the end. -/
theorem EndsWithCall.subAll {m : Matcher Char Text} {w x : Text} (hm : ∀ t, m t = none ↔ ¬ Follows w x t)
    (hw : Headed '<' w) (hwe : ∃ w', w = w' ++ ['>'] ∧ '>' ∉ w') (ho : Apart x paramOpen) (hf : Apart x fnClose)
    (hstay : ∀ p c t, (c = fnOpen ∨ c = fnClose) → StaysIn m p (c ++ t))
    (hhead : ∀ c u, (c = paramOpen ∨ c = fnClose) → c <+: subAll m 0 (c ++ u))
    (hend : subAll m 0 fnClose = fnClose) (hname : '>' ∉ name) (h : EndsWithCall name t) :
    EndsWithCall name (subAll m 0 t) := by
  obtain ⟨p, b, rfl, ⟨c, hc, u, rfl⟩, hclose⟩ := h
  have hs := startsWith_of_follows hm
  have hlead : lstrip (c ++ u) = c ++ u := lstrip_append_tag (p := []) (headed_of_paramOpen_or_fnClose hc)
  have hx : ¬ x <+: c ++ u := by
    rcases hc with rfl | rfl
    · exact ho.not_prefix
    · exact hf.not_prefix
  have hfirst : subAll m 0 (fnOpen ++ (name ++ '>' :: '\n' :: (c ++ u))) =
      fnOpen ++ (name ++ '>' :: '\n' :: subAll m 0 (c ++ u)) := by
    have hline : NoMatch m ((fnOpen ++ (name ++ ['>'])) ++ ['\n']) (c ++ u) :=
      noMatch_append (noMatch_header hm hwe hname hlead hx) (noMatch_newline hs hw .nil)
    have hsub := subAll_skip hline
    simpa using hsub
  obtain ⟨p', hp'⟩ := subAll_append (hstay p fnOpen (name ++ '>' :: '\n' :: (c ++ u)) (.inl rfl))
  refine ⟨p', subAll m 0 (c ++ u), by rw [hp', hfirst], ⟨c, hc, hhead c u hc⟩, ?_⟩
  obtain ⟨b', hb'⟩ := hclose
  have hlast : StaysIn m b' (fnClose ++ []) := hstay b' fnClose [] (.inr rfl)
  rw [List.append_nil] at hlast
  obtain ⟨b'', hb''⟩ := subAll_append hlast
  rw [← hb', hb'', hend]
  exact List.suffix_append _ _

theorem EndsWithCall.tagBeforeCall {tag : Text} (htag : tag ∈ [thinkEnd, toolCallOpen]) (hname : '>' ∉ name)
    (h : EndsWithCall name t) : EndsWithCall name (Lib.subAll (AgentSdk.tagBeforeCall tag) 0 t) := by
  have hfacts : ∀ tag ∈ [thinkEnd, toolCallOpen], Headed '<' tag ∧ tag = tag.dropLast ++ ['>'] ∧ '>' ∉ tag.dropLast ∧
      Apart tag paramOpen ∧ Apart tag fnClose ∧
      Lib.subAll (AgentSdk.tagBeforeCall tag) 0 fnClose = fnClose := by decide
  obtain ⟨hhead, hlast, hfront, hparam, hfn, hend⟩ := hfacts tag htag
  refine h.subAll (fun _ => tagBeforeCall_eq_none) hhead ⟨_, hlast, hfront⟩ (by decide) (by decide) ?_ ?_ hend hname
  · rintro p c t (rfl | rfl)
    · exact staysIn_tagBeforeCall hhead fnOpen_headed
    · exact staysIn_tagBeforeCall hhead fnClose_headed
  · rintro c u hc
    have hapart : Apart tag c := by
      rcases hc with rfl | rfl
      · exact hparam
      · exact hfn
    have hno : NoMatch (AgentSdk.tagBeforeCall tag) c u :=
      (startsWith_of_follows fun _ => tagBeforeCall_eq_none).noMatch_tag hhead (headed_of_paramOpen_or_fnClose hc) hapart
    rw [subAll_skip hno]
    exact List.prefix_append _ _

theorem EndsWithCall.tagAfterCall (hname : '>' ∉ name) (h : EndsWithCall name t) :
    EndsWithCall name (Lib.subAll AgentSdk.tagAfterCall 0 t) := by
  refine h.subAll (fun _ => tagAfterCall_eq_none) fnClose_headed ⟨"</function".toList, by decide, by decide⟩ (by decide)
    (by decide) ?_ ?_ (by decide) hname
  · rintro p c t (rfl | rfl)
    · exact staysIn_tagAfterCall fnOpen_headed (by decide)
    · exact staysIn_tagAfterCall fnClose_headed (by decide)
  · rintro c u (rfl | rfl)
    · have hno : NoMatch AgentSdk.tagAfterCall paramOpen u :=
        (startsWith_of_follows fun _ => tagAfterCall_eq_none).noMatch_tag fnClose_headed paramOpen_headed (by decide)
      rw [subAll_skip hno]
      exact List.prefix_append _ _
    · obtain ⟨v, hv, hlt⟩ := id fnClose_headed
      cases hm : AgentSdk.tagAfterCall (fnClose ++ u) with
      | none =>
        have hno : NoMatch AgentSdk.tagAfterCall fnClose u := by
          rw [hv, List.cons_append] at hm
          rw [hv]
          exact noMatch_cons.2 ⟨hm, (startsWith_of_follows fun _ => tagAfterCall_eq_none).noMatch_plain (a := '<')
            fnClose_headed hlt⟩
        rw [subAll_skip hno]
        exact List.prefix_append _ _
      | some r =>
        -- The closing tag stays, only the wrapper's goes.
        obtain ⟨n, out⟩ := r
        obtain ⟨-, -, -, -, rfl, -⟩ := tagAfterCall_some hm
        rw [hv, List.cons_append] at hm ⊢
        rw [Lib.subAll, hm]
        exact List.prefix_append _ _

theorem EndsWithCall.preprocess (hname : '>' ∉ name) (h : EndsWithCall name t) :
    EndsWithCall name (preprocessModelOutput t) :=
  ((h.tagBeforeCall (by simp) hname).tagBeforeCall (by simp) hname).tagAfterCall hname

theorem EndsWithCall.suffix (h : EndsWithCall name t) : fnClose <:+ t := by
  obtain ⟨p, b, rfl, -, hclose⟩ := h
  refine hclose.trans ?_
  refine List.IsSuffix.trans ?_ (List.suffix_append p _)
  exact ⟨fnOpen ++ (name ++ ['>', '\n']), by simp⟩

/-- The closing tag is where it belongs. -/
theorem fixStopword_of_suffix (h : fnClose <:+ preprocessModelOutput t) : fixStopword t = preprocessModelOutput t := by
  obtain ⟨u, hu⟩ := h
  have hlast : preprocessModelOutput t = (u ++ "</function".toList) ++ ['>'] := by
    rw [← hu, List.append_assoc]
    rfl
  have hopen : ¬ "</".toList <:+ preprocessModelOutput t := by
    rintro ⟨v, hv⟩
    have hv' : (v ++ ['<']) ++ ['/'] = (u ++ "</function".toList) ++ ['>'] := by
      rw [← hlast, ← hv]
      simp
    exact absurd (List.append_inj' hv' rfl).2 (by decide)
  have hclosed : rstrip (preprocessModelOutput t) = preprocessModelOutput t := by
    rw [hlast]
    exact rstrip_concat (by decide)
  unfold fixStopword
  dsimp only
  rw [if_neg hopen, hclosed, if_neg (not_not.2 ⟨u, hu⟩)]
  exact ite_self _

theorem EndsWithCall.found (hne : name ≠ []) (hname : '>' ∉ name) (h : EndsWithCall name t) :
    (search fnMatch (fixStopword t)).isSome := by
  have hp := h.preprocess hname
  rw [fixStopword_of_suffix hp.suffix]
  obtain ⟨p, b, hb, -, hclose⟩ := hp
  rw [hb]
  refine search_isSome (by simp [fnOpen_headed.ne_nil]) ?_
  obtain ⟨htake, hdrop⟩ := takeWhile_ne_append (t := '\n' :: b) hname
  have hgt : ('>' :: '\n' :: b).dropPrefix? ['>'] = some ('\n' :: b) := dropPrefix?_append ['>'] _
  have hnl : ('\n' :: b).dropPrefix? ['\n'] = some b := dropPrefix?_append ['\n'] _
  obtain ⟨r, hr⟩ := Option.isSome_iff_exists.1 (untilFirst_isSome hclose.isInfix)
  simp only [fnMatch, tagged, dropPrefix?_append, htake, hdrop, if_neg hne, hgt, hnl, hr, Option.getD_some, bind,
    Option.bind, Option.isSome_some]

end Repairs

/-! ## The call of a message -/

section
variable {F : Type} [PyFloat F]

theorem endsWithCall_renderCall (p name : Text) (args : List (Text × Json F)) :
    EndsWithCall name (p ++ renderCall name args) := by
  obtain ⟨c, u, hcu, hc⟩ := bodyText_head args
  refine ⟨p, bodyText args ++ fnClose, by rw [renderCall_eq], ⟨c, hc, u, hcu.symm⟩, List.suffix_append _ _⟩

theorem endsWithCall_lstrip (t name : Text) (args : List (Text × Json F)) :
    EndsWithCall name (lstrip (t ++ '\n' :: '\n' :: renderCall name args)) := by
  have hcall : lstrip (renderCall name args) = renderCall name args := by
    rw [renderCall_eq]
    exact lstrip_append_tag (p := []) fnOpen_headed
  have hsplit : t ++ '\n' :: '\n' :: renderCall name args = (t ++ ['\n', '\n']) ++ renderCall name args := by simp
  rw [hsplit, lstrip_append hcall]
  exact endsWithCall_renderCall _ _ _

/-- A written call is found, whatever the content and the arguments hold. -/
theorem findFunctionMatch_withCall_some {name : Text} (hne : name ≠ []) (hname : '>' ∉ name) (content : Content)
    (args : List (Text × Json F)) :
    ∃ content' found, findFunctionMatch (contentOr (some (content.withCall (renderCall name args)))) =
      .ok (content', some found) := by
  cases content with
  | text t =>
    obtain ⟨found, hfound⟩ := Option.isSome_iff_exists.1 ((endsWithCall_lstrip t name args).found hne hname)
    refine ⟨.text (fixStopword (lstrip (t ++ '\n' :: '\n' :: renderCall name args))), found, ?_⟩
    simp only [Content.withCall, contentOr, findFunctionMatch, hfound]
  | parts ps =>
    obtain ⟨front, t, hparts, ht⟩ : ∃ front t, (Content.parts ps).withCall (renderCall name args) =
        .parts (front ++ [.text t]) ∧ EndsWithCall name t := by
      unfold Content.withCall
      dsimp only
      split
      · exact ⟨_, _, rfl, endsWithCall_lstrip _ name args⟩
      · exact ⟨_, _, rfl, endsWithCall_renderCall [] name args⟩
    obtain ⟨found, hfound⟩ := Option.isSome_iff_exists.1 (ht.found hne hname)
    have hfix : fixLastPart (front ++ [.text t]) = (front ++ [.text (fixStopword t)], some found) := by
      simp only [fixLastPart, List.getLast?_concat, List.dropLast_concat, hfound]
    have hor : contentOr (some (.parts (front ++ [.text t]))) = .parts (front ++ [.text t]) := by
      cases front <;> rfl
    refine ⟨.parts (front ++ [.text (fixStopword t)]), found, ?_⟩
    rw [hparts, hor]
    simp only [findFunctionMatch, hfix, Option.isNone_some, Bool.and_false, if_neg Bool.false_ne_true]

end

end AgentSdk
