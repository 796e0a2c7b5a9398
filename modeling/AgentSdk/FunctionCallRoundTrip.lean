import AgentSdk.FunctionCallText
/-!
# A call that is written out and parsed back

Under which conditions the parser finds the call, its parameters and their
values again. The prose before a call is cleaned up with it, the call itself
stays as it was written.
-/

namespace AgentSdk
open Lib

/-! ## The clean-up of the prose before a call -/

section Prose
variable {q rest : Text}

/-- What a clean-up makes of the prose `q` before a call: no call appears in it. -/
def CleanUp (f : Text → Text) (q call : Text) : Prop := ∃ q', f (q ++ call) = q' ++ call ∧ ¬ fnOpen <:+: q'

theorem fnOpen_infix_cons {c : Char} {t u : Text} (hu : ∀ v, '<' ∉ v → v <+: u → v <+: t) (ht : ¬ fnOpen <:+: c :: t)
    (hno : ¬ fnOpen <:+: u) : ¬ fnOpen <:+: c :: u := by
  rw [List.infix_cons_iff]
  rintro (hpre | hin)
  · obtain ⟨v, hv, hlt⟩ := fnOpen_headed
    rw [hv] at hpre ht
    obtain ⟨hc, hpre⟩ := List.cons_prefix_cons.1 hpre
    refine ht (List.IsPrefix.isInfix ?_)
    exact List.cons_prefix_cons.2 ⟨hc, hu v hlt hpre⟩
  · exact hno hin

/-- A tag right before the call. -/
theorem Follows.before_call {tag : Text} (htag : Headed '<' tag) (hq : ¬ fnOpen <:+: q) (hne : q ≠ [])
    (h : Follows tag fnOpen (q ++ (fnOpen ++ rest))) : ∃ r, q = tag ++ r ∧ lstrip r = [] := by
  obtain ⟨u, hu, hlead⟩ := h
  obtain ⟨v, hv, -⟩ := id fnOpen_headed
  have hpre : tag <+: q := by
    refine htag.prefix_of_append (t := v ++ rest) hne ⟨u, ?_⟩
    rw [← hu, hv]
    rfl
  obtain ⟨r, rfl⟩ := hpre
  have hur : u = r ++ (fnOpen ++ rest) := by
    rw [List.append_assoc] at hu
    exact (List.append_cancel_left hu).symm
  refine ⟨r, rfl, ?_⟩
  by_contra hr
  rw [hur, lstrip_append_tag fnOpen_headed] at hlead
  have hin : fnOpen <+: lstrip r := by
    refine fnOpen_headed.prefix_of_append (t := v ++ rest) hr ?_
    rw [← List.cons_append, ← hv]
    exact hlead
  refine hq (hin.isInfix.trans ((List.dropWhile_suffix _).isInfix.trans ?_))
  exact (List.suffix_append tag r).isInfix

theorem tagBeforeCall_hit {tag space : Text} (hs : lstrip space = []) :
    tagBeforeCall tag (tag ++ space ++ (fnOpen ++ rest)) = some ((tag ++ space).length, []) := by
  have hlead : lstrip (space ++ (fnOpen ++ rest)) = fnOpen ++ rest := by
    rw [lstrip_append_tag fnOpen_headed, hs, List.nil_append]
  rw [List.append_assoc]
  simp only [tagBeforeCall, dropPrefix?_append, hlead, bind, Option.bind]
  rw [if_pos (List.prefix_append _ _), ← List.append_assoc, List.length_append, Nat.add_sub_cancel]

theorem cleanUp_tagBeforeCall {tag : Text} (htag : Headed '<' tag) (hq : ¬ fnOpen <:+: q)
    (hcall : NoMatch (tagBeforeCall tag) (fnOpen ++ rest) []) :
    CleanUp (subAll (tagBeforeCall tag) 0) q (fnOpen ++ rest) := by
  suffices hpre : ∃ q', subAll (tagBeforeCall tag) 0 (q ++ (fnOpen ++ rest)) = q' ++ (fnOpen ++ rest) ∧ q' <+: q by
    obtain ⟨q', hq', hin⟩ := hpre
    exact ⟨q', hq', fun h => hq (h.trans hin.isInfix)⟩
  have hend : subAll (tagBeforeCall tag) 0 (fnOpen ++ rest) = fnOpen ++ rest := by
    have hsub := subAll_skip hcall
    rwa [List.append_nil, subAll, List.append_nil] at hsub
  induction q with
  | nil => exact ⟨[], hend, List.prefix_rfl⟩
  | cons c q ih =>
    by_cases hm : Follows tag fnOpen ((c :: q) ++ (fnOpen ++ rest))
    · -- Everything from the tag to the call goes.
      obtain ⟨r, hr, hspace⟩ := hm.before_call htag hq (List.cons_ne_nil _ _)
      refine ⟨[], ?_, List.nil_prefix⟩
      rw [hr, subAll_hit (by simp [htag.ne_nil]) (tagBeforeCall_hit hspace), hend]
    · rw [← tagBeforeCall_eq_none] at hm
      obtain ⟨q', hq', hin⟩ := ih fun h => hq (h.trans (List.suffix_cons c q).isInfix)
      refine ⟨c :: q', ?_, List.cons_prefix_cons.2 ⟨rfl, hin⟩⟩
      rw [List.cons_append] at hm ⊢
      rw [subAll, hm]
      exact congrArg (c :: ·) hq'

theorem tagAfterCall_hit {space t : Text} (hs : lstrip space = []) :
    tagAfterCall (fnClose ++ space ++ toolCallClose ++ t) =
      some ((fnClose ++ space ++ toolCallClose).length, fnClose) := by
  have hlead : lstrip (space ++ (toolCallClose ++ t)) = toolCallClose ++ t := by
    rw [lstrip_append_tag (by decide), hs, List.nil_append]
  have htext : fnClose ++ space ++ toolCallClose ++ t = fnClose ++ (space ++ (toolCallClose ++ t)) := by
    simp only [List.append_assoc]
  rw [htext]
  simp only [tagAfterCall, dropPrefix?_append, hlead, bind, Option.bind]
  rw [← htext, List.length_append, Nat.add_sub_cancel]

/-- A closing tag behind a call, in the prose. -/
theorem Follows.in_prose (hq : q ≠ []) (h : Follows fnClose toolCallClose (q ++ (fnOpen ++ rest))) :
    ∃ space r, q = fnClose ++ space ++ toolCallClose ++ r ∧ lstrip space = [] := by
  obtain ⟨u, hu, hlead⟩ := h
  obtain ⟨v, hv, -⟩ := id fnOpen_headed
  have hclose : Headed '<' toolCallClose := by decide
  have hpre : fnClose <+: q := by
    refine fnClose_headed.prefix_of_append (t := v ++ rest) hq ⟨u, ?_⟩
    rw [← hu, hv]
    rfl
  obtain ⟨r, rfl⟩ := hpre
  have hur : u = r ++ (fnOpen ++ rest) := by
    rw [List.append_assoc] at hu
    exact (List.append_cancel_left hu).symm
  rw [hur, lstrip_append_tag fnOpen_headed] at hlead
  by_cases hr : lstrip r = []
  · rw [hr, List.nil_append] at hlead
    exact absurd hlead (Apart.not_prefix (by decide))
  · rw [hv, List.cons_append] at hlead
    obtain ⟨r', hr'⟩ := hclose.prefix_of_append hr hlead
    have hspace : lstrip (r.takeWhile isSpace) = [] :=
      List.dropWhile_eq_nil_iff.2 fun c hc => List.mem_takeWhile_imp hc
    refine ⟨r.takeWhile isSpace, r', ?_, hspace⟩
    rw [List.append_assoc, hr', List.append_assoc, lstrip, List.takeWhile_append_dropWhile]

theorem fnOpen_infix_fnClose {t : Text} (h : fnOpen <:+: fnClose ++ t) : fnOpen <:+: t := by
  obtain ⟨v, hv, hlt⟩ := fnClose_headed
  rw [hv, List.cons_append, List.infix_cons_iff, ← List.cons_append, ← hv] at h
  rcases h with hpre | hin
  · exact absurd hpre (Apart.not_prefix (by decide))
  · exact fnOpen_headed.infix_of_append hlt hin

theorem cleanUp_tagAfterCall (hq : ¬ fnOpen <:+: q) (hcall : NoMatch tagAfterCall (fnOpen ++ rest) []) :
    CleanUp (subAll tagAfterCall 0) q (fnOpen ++ rest) := by
  have hend : subAll tagAfterCall 0 (fnOpen ++ rest) = fnOpen ++ rest := by
    have hsub := subAll_skip hcall
    rwa [List.append_nil, subAll, List.append_nil] at hsub
  -- Only closing tags go, so the stretch up to the next tag is an old one.
  suffices hmain : ∃ q', subAll tagAfterCall 0 (q ++ (fnOpen ++ rest)) = q' ++ (fnOpen ++ rest) ∧
      ¬ fnOpen <:+: q' ∧ ∀ v, '<' ∉ v → v <+: q' → v <+: q by
    obtain ⟨q', hq', hno, -⟩ := hmain
    exact ⟨q', hq', hno⟩
  induction hlen : q.length using Nat.strong_induction_on generalizing q with
  | _ n ih =>
    subst hlen
    by_cases hnil : q = []
    · exact ⟨[], by rw [hnil]; exact hend, by simpa [hnil] using hq, fun v _ h => by simpa [hnil] using h⟩
    by_cases hm : Follows fnClose toolCallClose (q ++ (fnOpen ++ rest))
    · obtain ⟨space, r, rfl, hspace⟩ := hm.in_prose hnil
      have hin : r <:+: fnClose ++ space ++ toolCallClose ++ r := (List.suffix_append _ r).isInfix
      have hshort : r.length < (fnClose ++ space ++ toolCallClose ++ r).length := by
        have hpos := List.length_pos_iff.2 fnClose_headed.ne_nil
        simp only [List.length_append]
        omega
      obtain ⟨q', hq', hno, -⟩ := ih r.length hshort (fun h => hq (h.trans hin)) rfl
      refine ⟨fnClose ++ q', ?_, fun h => hno (fnOpen_infix_fnClose h), fun v hv hpre => ?_⟩
      · rw [List.append_assoc, subAll_hit (by simp [fnClose_headed.ne_nil]) (tagAfterCall_hit hspace), hq',
          List.append_assoc]
      · cases v with
        | nil => exact List.nil_prefix
        | cons d v =>
          obtain ⟨w, hw, -⟩ := fnClose_headed
          rw [hw] at hpre
          obtain ⟨rfl, -⟩ := List.cons_prefix_cons.1 hpre
          exact absurd List.mem_cons_self hv
    · rw [← tagAfterCall_eq_none] at hm
      obtain ⟨c, q, rfl⟩ := List.exists_cons_of_ne_nil hnil
      have htail : ¬ fnOpen <:+: q := fun h => hq (h.trans (List.suffix_cons c q).isInfix)
      obtain ⟨q', hq', hno, hstretch⟩ := ih q.length (by simp) htail rfl
      refine ⟨c :: q', ?_, fnOpen_infix_cons hstretch hq hno, fun v hv hpre => ?_⟩
      · rw [List.cons_append] at hm ⊢
        rw [subAll, hm]
        exact congrArg (c :: ·) hq'
      · cases v with
        | nil => exact List.nil_prefix
        | cons d v =>
          obtain ⟨rfl, htl⟩ := List.cons_prefix_cons.1 hpre
          rw [List.mem_cons, not_or] at hv
          exact List.cons_prefix_cons.2 ⟨rfl, hstretch v hv.2 htl⟩

end Prose

/-! ## Finding the call -/

section
variable {F : Type} [PyFloat F]

/-- A call whose texts the parser reads as they stand. -/
structure CleanCall (name : Text) (args : List (Text × Json F)) : Prop where
  name : name ≠ [] ∧ '>' ∉ name
  params : ∀ p ∈ args, CleanParam p

variable {name q : Text} {args : List (Text × Json F)}

theorem renderCall_open (name : Text) (args : List (Text × Json F)) : ∃ rest, renderCall name args = fnOpen ++ rest :=
  ⟨_, renderCall_eq name args⟩

theorem renderCall_close (name : Text) (args : List (Text × Json F)) : ∃ u, renderCall name args = u ++ fnClose :=
  ⟨fnOpen ++ (name ++ '>' :: '\n' :: bodyText args), by rw [renderCall_eq]; simp⟩

variable (hcall : CleanCall name args)
include hcall

theorem cleanUp_preprocessModelOutput (hq : ¬ fnOpen <:+: q) :
    CleanUp preprocessModelOutput q (renderCall name args) := by
  have hmemThink : thinkEnd ∈ [thinkEnd, toolCallOpen] := by simp
  have hmemOpen : toolCallOpen ∈ [thinkEnd, toolCallOpen] := by simp
  have hthink := noMatch_call_before hcall.params hcall.name.2 hmemThink
  have hopen := noMatch_call_before hcall.params hcall.name.2 hmemOpen
  have hclose := noMatch_call_after hcall.params hcall.name.2
  obtain ⟨rest, hrest⟩ := renderCall_open name args
  rw [hrest] at hthink hopen hclose ⊢
  obtain ⟨q₁, h₁, hq₁⟩ := cleanUp_tagBeforeCall (by decide) hq hthink
  obtain ⟨q₂, h₂, hq₂⟩ := cleanUp_tagBeforeCall (by decide) hq₁ hopen
  obtain ⟨q₃, h₃, hq₃⟩ := cleanUp_tagAfterCall hq₂ hclose
  exact ⟨q₃, by rw [preprocessModelOutput, h₁, h₂, h₃], hq₃⟩

/-- The closing tag is there, so it is not written again. -/
theorem cleanUp_fixStopword (hq : ¬ fnOpen <:+: q) : CleanUp fixStopword q (renderCall name args) := by
  obtain ⟨q', hpre, hq'⟩ := cleanUp_preprocessModelOutput hcall hq
  obtain ⟨u, hu⟩ := renderCall_close name args
  have hcut : ¬ "</".toList <:+ (q' ++ u) ++ fnClose := by
    intro h
    have hshort : "</".toList <:+ fnClose := List.suffix_of_suffix_length_le h (List.suffix_append _ _) (by decide)
    exact absurd hshort (by decide)
  have hend : rstrip ((q' ++ u) ++ fnClose) = (q' ++ u) ++ fnClose := by
    have hlast : fnClose = "</function".toList ++ ['>'] := by decide
    rw [hlast, ← List.append_assoc]
    exact rstrip_concat (by decide)
  refine ⟨q', ?_, hq'⟩
  rw [fixStopword, hpre, hu, ← List.append_assoc, if_neg hcut, hend, if_neg (not_not_intro (List.suffix_append _ _)),
    ite_self]

/-- The parser finds the call, and its body. -/
theorem search_call (hq : ¬ fnOpen <:+: q) : search fnMatch (q ++ renderCall name args) = some (name, bodyText args) := by
  have hbody : ¬ fnClose <:+: bodyText args := noInfix_body hcall.params
  have hstart : StartsWith fnMatch fnOpen := by
    intro t ht
    rw [fnMatch, tagged, dropPrefix?_eq_none ht]
    rfl
  have hskip : NoMatch fnMatch q (renderCall name args) := by
    refine hstart.noMatch fun p r hpr hr hpre => ?_
    obtain ⟨rest, hrest⟩ := renderCall_open name args
    obtain ⟨v, hv, -⟩ := id fnOpen_headed
    rw [hrest, hv, List.cons_append, ← hv] at hpre
    exact not_prefix_of_noInfix hq hpr (fnOpen_headed.prefix_of_append hr hpre)
  have hopt : (('\n' :: (bodyText args ++ (fnClose ++ []))).dropPrefix? ['\n']).getD
      ('\n' :: (bodyText args ++ (fnClose ++ []))) = bodyText args ++ (fnClose ++ []) := by
    rw [← List.singleton_append, dropPrefix?_append]
    rfl
  have hhit : ∃ n, fnMatch (renderCall name args) = some (n, (name, bodyText args)) := by
    rw [renderCall_eq, ← List.append_nil fnClose]
    exact ⟨_, tagged_append hcall.name.1 hcall.name.2 hopt fnClose_headed hbody⟩
  obtain ⟨n, hhit⟩ := hhit
  have hne : renderCall name args ≠ [] := by
    rw [renderCall_eq]
    exact List.append_ne_nil_of_left_ne_nil fnOpen_headed.ne_nil _
  rw [search_skip hskip, search_hit hne hhit]

end

/-- The text that a call is written behind. -/
def Content.lastText : Content → Text
  | .text t => t
  | .parts ps =>
    match ps.getLast? with
    | some (.text t) => t
    | _ => []

section
variable {F : Type} [PyFloat F] {name : Text} {args : List (Text × Json F)}

/-- A text that is fixed to some prose and the call. -/
def FixedTo (call t : Text) : Prop := ∃ q, fixStopword t = q ++ call ∧ ¬ fnOpen <:+: q

/-- The call is written behind the prose, at its begin stripped. -/
theorem lstrip_withCall (hcall : CleanCall name args) {t : Text} (ht : ¬ fnOpen <:+: t) :
    FixedTo (renderCall name args) (lstrip (t ++ '\n' :: '\n' :: renderCall name args)) := by
  obtain ⟨rest, hrest⟩ := renderCall_open name args
  have htext : lstrip (t ++ '\n' :: '\n' :: renderCall name args) =
      lstrip (t ++ ['\n', '\n']) ++ renderCall name args := by
    rw [hrest, ← lstrip_append_tag fnOpen_headed]
    simp
  have hno : ¬ fnOpen <:+: lstrip (t ++ ['\n', '\n']) := by
    intro h
    have hlong := h.trans (List.dropWhile_suffix _).isInfix
    rcases infix_of_append_cons (by decide) hlong with hleft | hright
    · exact ht hleft
    · have hlen := hright.length_le
      exact absurd hlen (by decide)
  rw [htext]
  exact cleanUp_fixStopword hcall hno

theorem withCall_parts (hcall : CleanCall name args) {ps : List ContentPart}
    (hc : ¬ fnOpen <:+: (Content.parts ps).lastText) :
    ∃ front t, (Content.parts ps).withCall (renderCall name args) = .parts (front ++ [.text t]) ∧
      FixedTo (renderCall name args) t := by
  have halone : FixedTo (renderCall name args) (renderCall name args) :=
    cleanUp_fixStopword (q := []) hcall fun h => fnOpen_headed.ne_nil (List.infix_nil.1 h)
  rw [Content.withCall]
  rw [Content.lastText] at hc
  split
  · rename_i t ht
    rw [ht] at hc
    exact ⟨_, _, rfl, lstrip_withCall hcall hc⟩
  · exact ⟨_, _, rfl, halone⟩

theorem findFunctionMatch_withCall (hcall : CleanCall name args) {content : Content}
    (hc : ¬ fnOpen <:+: content.lastText) :
    ∃ content', findFunctionMatch (contentOr (some (content.withCall (renderCall name args)))) =
      .ok (content', some (name, bodyText args)) := by
  cases content with
  | text t =>
    obtain ⟨q, hq, hno⟩ := lstrip_withCall (t := t) hcall hc
    refine ⟨.text (q ++ renderCall name args), ?_⟩
    simp only [Content.withCall, contentOr, findFunctionMatch, hq, search_call hcall hno]
  | parts ps =>
    obtain ⟨front, t, hparts, q, hq, hno⟩ : ∃ front t, (Content.parts ps).withCall (renderCall name args) =
        .parts (front ++ [.text t]) ∧ FixedTo (renderCall name args) t := withCall_parts hcall hc
    have hfix : fixLastPart (front ++ [.text t]) =
        (front ++ [.text (q ++ renderCall name args)], some (name, bodyText args)) := by
      simp only [fixLastPart, List.getLast?_concat, List.dropLast_concat, hq, search_call hcall hno]
    refine ⟨.parts (front ++ [.text (q ++ renderCall name args)]), ?_⟩
    have hne : contentOr (some (.parts (front ++ [.text t]))) = .parts (front ++ [.text t]) := by
      cases front <;> rfl
    rw [hparts, hne]
    simp only [findFunctionMatch, hfix, Option.isNone_some, Bool.and_false, if_neg Bool.false_ne_true]

end

/-! ## Reading the parameters -/

section
variable {F : Type} [PyFloat F]

/-- The types of JSON Schema. -/
def admitsName (t : Text) : Json F → Bool
  | .null => t = "null".toList
  | .bool _ => t = "boolean".toList
  | .int _ => t = "integer".toList ∨ t = "number".toList
  | .float _ => t = "number".toList
  | .str _ => t = "string".toList
  | .arr _ => t = "array".toList
  | .obj _ => t = "object".toList

def SchemaType.admits : SchemaType → Json F → Bool
  | .name t, v => admitsName t v
  | .union ts, v => ts.any fun t => admitsName t v

/-- The arguments fulfil the tool's schema. -/
structure FunctionTool.Validates (tool : FunctionTool F) (args : List (Text × Json F)) : Prop where
  required : ∀ r ∈ tool.required, r ∈ args.map Prod.fst
  typed : ∀ p ∈ args, ∀ ty ∈ (tool.property p.1).type, ty.admits p.2
  enum : ∀ p ∈ args, ∀ values ∈ (tool.property p.1).enum, values.any (pyEq p.2)

/-- The parser lets a parameter through: it is declared, or nothing is. -/
def FunctionTool.Allows (tool : FunctionTool F) (param : Text) : Prop :=
  tool.properties = [] ∨ param ∈ tool.properties.map Prod.fst ∨ param = securityRisk

/-- Values that their declared type reads back: integers and arrays that are
declared as such, and texts without white space at their ends. -/
def PropertySchema.Survives (prop : PropertySchema F) : Json F → Prop
  | .str s => strip s = s
  | .int _ => prop.type = some (.name "integer".toList)
  | .arr _ => prop.type = some (.name "array".toList)
  | _ => False

theorem convertParam_rendered {prop : PropertySchema F} {v : Json F} (hv : v.WellKeyed)
    (htyped : ∀ ty ∈ prop.type, ty.admits v) (hs : prop.Survives v) (name : Text) :
    convertParam prop name (strip (renderValue v)) = .ok v := by
  cases v with
  | str s =>
    have hint : prop.type ≠ some (.name "integer".toList) := fun h =>
      absurd (htyped _ h) (by simp [SchemaType.admits, admitsName])
    have harr : prop.type ≠ some (.name "array".toList) := fun h =>
      absurd (htyped _ h) (by simp [SchemaType.admits, admitsName])
    have hstrip : strip (renderValue (.str s : Json F)) = s := by
      rw [renderValue]
      split
      · exact strip_framed hs ‹_›
      · exact hs
    rw [convertParam, if_neg hint, if_neg harr, hstrip]
  | int i =>
    have hint : prop.type = some (.name "integer".toList) := hs
    have hread : pyInt (strip (renderValue (.int i : Json F))) = some i := by
      show pyInt (strip (intText i)) = some i
      rw [strip_intText, pyInt_intText]
    rw [convertParam, if_pos hint, hread]
  | arr xs =>
    have harr : prop.type = some (.name "array".toList) := hs
    have hint : prop.type ≠ some (.name "integer".toList) := by
      rw [harr]
      decide
    have hread : loads (strip (renderValue (.arr xs : Json F))) = some (.arr xs) := by
      rw [renderValue, strip_dumps_arr]
      exact loads_dumps hv
    rw [convertParam, if_neg hint, if_pos harr, hread]
  | null => exact hs.elim
  | bool b => exact hs.elim
  | float x => exact hs.elim
  | obj kvs => exact hs.elim

variable {tool : FunctionTool F} {args : List (Text × Json F)}

/-- One parameter is read as the value it was written from. -/
theorem extractParam_rendered {p : Text × Json F} {params : List (Text × Json F)} (hallow : tool.Allows p.1)
    (hv : p.2.WellKeyed) (htyped : ∀ ty ∈ (tool.property p.1).type, ty.admits p.2)
    (henum : ∀ values ∈ (tool.property p.1).enum, values.any (pyEq p.2)) (hs : (tool.property p.1).Survives p.2)
    (hnew : p.1 ∉ params.map Prod.fst) (fnName : Text) :
    extractParam tool fnName params (p.1, renderValue p.2) = .ok (params ++ [p]) := by
  have hdeclared : ¬ (tool.properties ≠ [] ∧ p.1 ∉ tool.properties.map Prod.fst ∧ p.1 ≠ securityRisk) := by
    rintro ⟨hne, hkey, hrisk⟩
    rcases hallow with h | h | h
    · exact hne h
    · exact hkey h
    · exact hrisk h
  have hall : ((tool.property p.1).enum.all fun values => values.any (pyEq p.2)) = true := by
    cases he : (tool.property p.1).enum with
    | none => rfl
    | some values => exact henum values he
  rw [extractParam, if_neg hdeclared]
  simp only [convertParam_rendered hv htyped hs p.1, bind, Except.bind]
  rw [if_pos hall, dictSet_new p.2 hnew]
  rfl

theorem foldlM_extractParam {params : List (Text × Json F)} (hallow : ∀ p ∈ args, tool.Allows p.1)
    (hv : ∀ p ∈ args, p.2.WellKeyed) (htyped : ∀ p ∈ args, ∀ ty ∈ (tool.property p.1).type, ty.admits p.2)
    (henum : ∀ p ∈ args, ∀ values ∈ (tool.property p.1).enum, values.any (pyEq p.2))
    (hs : ∀ p ∈ args, (tool.property p.1).Survives p.2) (hnd : ((params ++ args).map Prod.fst).Nodup) (fnName : Text) :
    (args.map fun p => (p.1, renderValue p.2)).foldlM (extractParam tool fnName) params = .ok (params ++ args) := by
  induction args generalizing params with
  | nil => simp [pure, Except.pure]
  | cons p args ih =>
    rw [List.forall_mem_cons] at hallow hv htyped henum hs
    have hnew : p.1 ∉ params.map Prod.fst := by
      rw [List.map_append, List.nodup_append] at hnd
      exact fun hp => hnd.2.2 p.1 hp p.1 (by simp) rfl
    rw [List.map_cons, List.foldlM_cons,
      extractParam_rendered hallow.1 hv.1 htyped.1 henum.1 hs.1 hnew fnName]
    have hnd' : ((params ++ [p] ++ args).map Prod.fst).Nodup := by simpa using hnd
    have hrest := ih hallow.2 hv.2 htyped.2 henum.2 hs.2 hnd'
    rw [List.append_assoc, List.singleton_append] at hrest
    exact hrest

theorem extractAndValidateParams_rendered (hargs : (Json.obj args).WellKeyed) (hvalid : tool.Validates args)
    (hallow : ∀ p ∈ args, tool.Allows p.1) (hs : ∀ p ∈ args, (tool.property p.1).Survives p.2) (fnName : Text) :
    extractAndValidateParams tool (args.map fun p => (p.1, renderValue p.2)) fnName = .ok args := by
  obtain ⟨hnd, hkeyed⟩ := hargs
  have hfold : (args.map fun p => (p.1, renderValue p.2)).foldlM (extractParam tool fnName) [] = .ok ([] ++ args) :=
    foldlM_extractParam hallow (wellKeyedFields_iff.1 hkeyed) hvalid.typed hvalid.enum hs (by simpa using hnd) fnName
  have hmissing : (tool.required.filter fun r => r ∉ args.map Prod.fst ∧ r ≠ securityRisk) = [] := by
    rw [List.filter_eq_nil_iff]
    intro r hr
    simp [hvalid.required r hr]
  simp only [extractAndValidateParams, hfold, List.nil_append, hmissing, bind, Except.bind, if_true]
  rfl

/-! ## The round trip -/

/-- A tool call that the parser reads back: its texts keep clear of the tags,
its parameters are allowed, and their values are of kinds that survive. -/
structure Reversible (tool : FunctionTool F) (content : Content) (name : Text) (args : List (Text × Json F)) : Prop where
  prose : ¬ fnOpen <:+: content.lastText
  call : CleanCall name args
  allowed : ∀ p ∈ args, tool.Allows p.1
  survives : ∀ p ∈ args, (tool.property p.1).Survives p.2

/-- A valid call comes back with its name and its arguments. -/
theorem convertRoundTrip_call {tools : List (FunctionTool F)} {id name arguments : Text} {content : Option Content}
    (htool : findTool tools name = some tool) (hload : loads arguments = some (.obj args))
    (hvalid : tool.Validates args) (hrev : Reversible tool (contentOr content) name args) (counter : Nat) :
    ∃ content' arguments', convertRoundTrip tools
        ⟨content, some [⟨some id, some "function".toList, some ⟨name, arguments⟩⟩]⟩ counter =
          .ok (.call content' (emulatedId counter) ⟨name, arguments'⟩, counter + 1) ∧
      loads arguments' = some (.obj args) := by
  have hkeyed := wellKeyed_loads hload
  have hwrite : convertAssistantToNonFncall F
      ⟨content, some [⟨some id, some "function".toList, some ⟨name, arguments⟩⟩]⟩ =
        .ok ((contentOr content).withCall (renderCall name args)) := by
    simp only [convertAssistantToNonFncall, convertToolCallToString, hload, ne_eq, not_true_eq_false, if_false]
    rfl
  obtain ⟨content', hfind⟩ := findFunctionMatch_withCall hrev.call hrev.prose
  have hresolve : resolveToolName tools name = .ok (name, tool) := by rw [resolveToolName, htool]
  have hextract := extractAndValidateParams_rendered hkeyed hvalid hrev.allowed hrev.survives name
  refine ⟨content'.stripCall, dumps (.obj args), ?_, loads_dumps hkeyed⟩
  simp only [convertRoundTrip, hwrite, convertAssistantToFncall, hfind, hresolve, hextract,
    normalizeParameterTags_body hrev.call.params, findAll_body hrev.call.params, bind, Except.bind]
  rfl

/-- The decoded arguments fulfil the tool's schema. -/
def FunctionTool.accepts (tool : FunctionTool F) (arguments : Text) : Bool :=
  match loads (F := F) arguments with
  | some (.obj args) =>
    tool.required.all (· ∈ args.map Prod.fst) &&
      args.all fun p =>
        (tool.property p.1).type.all (·.admits p.2) && (tool.property p.1).enum.all fun values => values.any (pyEq p.2)
  | _ => false

theorem FunctionTool.validates_of_accepts {arguments : Text} (hload : loads arguments = some (.obj args))
    (h : tool.accepts arguments = true) : tool.Validates args := by
  simp only [FunctionTool.accepts, hload, Bool.and_eq_true, List.all_eq_true] at h
  refine ⟨fun r hr => by simpa using h.1 r hr, fun p hp ty hty => ?_, fun p hp values hvalues => ?_⟩
  · have htype := (h.2 p hp).1
    rwa [hty] at htype
  · have henum := (h.2 p hp).2
    rwa [hvalues] at henum

/-- The arguments that a message comes back with. -/
def argumentsBack (tools : List (FunctionTool F)) (m : AssistantMessage) : Option Text :=
  match convertRoundTrip tools m 1 with
  | .ok (.call _ _ function, _) => some function.arguments
  | _ => none

end

/-! ### What comes back otherwise -/

/-- The float `0.5`. -/
inductive OneHalf where
  | half

instance OneHalf.pyFloat : PyFloat OneHalf where
  token _ := "0.5".toList
  ofToken _ := .half
  isToken _ := .inl ⟨[], ['0'], ['.', '5'], [], rfl, .inl rfl, .inl rfl, .inr ⟨['.'], by simp, '5', [], rfl, by simp⟩,
    .inl rfl, .inl (by simp)⟩
  ofToken_token _ := rfl
  eq _ _ := true
  eqInt _ _ := false

def named (kvs : List (String × Json OneHalf)) : List (Text × Json OneHalf) := kvs.map fun p => (p.1.toList, p.2)

def echoTool : FunctionTool OneHalf where
  name := "echo".toList
  properties :=
    [("text", "string"), ("count", "integer"), ("items", "array"), ("ratio", "number"), ("quiet", "boolean"),
      ("options", "object")].map fun p => (p.1.toList, ⟨some (.name p.2.toList), none⟩)

def echoMessage (content : String) (args : List (String × Json OneHalf)) : AssistantMessage :=
  ⟨some (.text content.toList),
    some [⟨some "call_1".toList, some "function".toList, some ⟨"echo".toList, dumps (.obj (named args))⟩⟩]⟩

/-- Lines, tags and `=` in a text, a negative number, and a list. -/
def plainArguments : List (String × Json OneHalf) :=
  [("text", .str "a < b\n<function=f>\n\tc == d".toList), ("count", .int (-12)),
    ("items", .arr [.int 1, .str " q".toList, .float .half, .null])]

theorem convertRoundTrip_call_echo :
    ∃ content' arguments', convertRoundTrip [echoTool] (echoMessage "Let me see." plainArguments) 1 =
        .ok (.call content' (emulatedId 1) ⟨"echo".toList, arguments'⟩, 2) ∧
      loads arguments' = some (.obj (named plainArguments)) := by
  have hload : loads (dumps (.obj (named plainArguments))) = some (.obj (named plainArguments)) :=
    loads_dumps ⟨by decide, by simp [named, plainArguments, WellKeyedFields, WellKeyedElems, Json.WellKeyed]⟩
  have hvalid : echoTool.Validates (named plainArguments) := FunctionTool.validates_of_accepts hload (by decide +kernel)
  have hclean : ∀ p ∈ named plainArguments, (p.1 ≠ [] ∧ '>' ∉ p.1) ∧ ¬ paramClose <:+: renderValue p.2 ∧
      ¬ fnClose <:+: renderParam p ∧ (∀ tag ∈ [thinkEnd, toolCallOpen], NoMatch (tagBeforeCall tag) (renderParam p) []) ∧
      NoMatch malformedParam (renderParam p) [] := by decide +kernel
  have hsurvives : ∀ p ∈ named plainArguments, (echoTool.property p.1).Survives p.2 := by
    simp only [named, plainArguments, List.map_cons, List.map_nil, List.forall_mem_cons]
    exact ⟨show strip _ = _ by decide +kernel, show _ = _ by decide +kernel, show _ = _ by decide +kernel, by simp⟩
  refine convertRoundTrip_call rfl hload hvalid ⟨by decide, ⟨by decide, fun p hp => ?_⟩, fun p hp => ?_, hsurvives⟩ 1
  · obtain ⟨hname, hclosed, hinside, hunwrapped, hwell⟩ := hclean p hp
    exact ⟨hname, hclosed, hinside, hunwrapped, hwell⟩
  · have hdeclared : ∀ p ∈ named plainArguments, p.1 ∈ echoTool.properties.map Prod.fst := by decide
    exact .inr (.inl (hdeclared p hp))

/-- Valid arguments, each with what comes back. -/
def lossyArguments : List (List (String × Json OneHalf) × Option (List (String × Json OneHalf))) :=
  [([("text", .str " x ".toList)], some [("text", .str "x".toList)]),
    ([("text", .str "u</parameter>v".toList)], some [("text", .str "u".toList)]),
    ([("text", .str "u</function>v".toList)], some []),
    ([("ratio", .float .half)], some [("ratio", .str "0.5".toList)]),
    ([("quiet", .bool true)], some [("quiet", .str "True".toList)]),
    ([("options", .obj [("a".toList, .int 1)])], some [("options", .str (dumps (.obj [("a".toList, .int 1)] : Json OneHalf)))]),
    ([("other", .str "x".toList)], none)]

/-- A round trip changes valid arguments or fails, for each of the kinds. -/
theorem argumentsBack_lossy :
    (∀ p ∈ lossyArguments, echoTool.accepts (dumps (.obj (named p.1))) = true ∧
      argumentsBack [echoTool] (echoMessage "Let me see." p.1) = p.2.map (fun back => dumps (.obj (named back))) ∧
      p.2.map (fun back => dumps (.obj (named back))) ≠ some (dumps (.obj (named p.1)))) ∧
    echoTool.accepts (dumps (.obj (named [("text", .str "x".toList)]))) = true ∧
    argumentsBack [echoTool] (echoMessage "As <function=other> says." [("text", .str "x".toList)]) = none := by
  refine ⟨?_, by decide +kernel, by decide +kernel⟩
  -- One evaluation for each kind.
  simp only [lossyArguments, List.forall_mem_cons]
  exact ⟨by decide +kernel, by decide +kernel, by decide +kernel, by decide +kernel, by decide +kernel,
    by decide +kernel, by decide +kernel, List.forall_mem_nil _⟩

end AgentSdk
