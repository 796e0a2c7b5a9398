import AgentSdk.EmulatedCalls
import AgentSdk.FunctionCallRoundTrip
/-!
# Accepted calls

A call that was parsed from a response is written out again with every later
request, and parsed again. The parser takes more than is ever written: any JSON
where an array is declared. What becomes of an accepted call depends on how
its values are written.
-/

namespace AgentSdk
open Lib

/-! ## White space -/

/-- The newlines around a value are stripped at least. -/
theorem strip_framed_length_le (t : Text) : (strip ('\n' :: (t ++ ['\n']))).length ≤ t.length := by
  have hlead : lstrip ('\n' :: (t ++ ['\n'])) = lstrip (t ++ ['\n']) := rfl
  rw [strip, hlead]
  obtain ⟨u, hu⟩ : lstrip (t ++ ['\n']) <:+ t ++ ['\n'] := List.dropWhile_suffix _
  rcases List.eq_nil_or_concat (lstrip (t ++ ['\n'])) with hnil | ⟨v, c, hv⟩
  · rw [hnil]
    exact Nat.zero_le _
  · rw [hv, List.concat_eq_append, ← List.append_assoc] at hu
    obtain ⟨hfront, hlast⟩ := List.append_inj' hu rfl
    cases hlast
    rw [hv, List.concat_eq_append, rstrip, List.rdropWhile_concat_pos _ _ _ isSpace_newline, ← hfront, List.length_append]
    exact (rstrip_length_le v).trans (Nat.le_add_left _ _)

/-! ## Values that are read back -/

section Values
variable {F : Type} [PyFloat F]

theorem solid_digits {t : Text} (h : ∀ d ∈ t, d.isDigit = true) : Solid t := fun c hc => isSpace_of_isDigit (h c hc)

theorem solid_markedDigits {marks : List Text} (hm : ∀ mark ∈ marks, Solid mark) {t : Text} (h : MarkedDigits marks t) :
    Solid t := by
  rcases h with rfl | ⟨mark, hmark, c, u, rfl, hdig⟩
  · exact nofun
  · exact (hm mark hmark).append (solid_digits hdig)

theorem solid_float (x : F) : Solid (JsonFloat.token x) := by
  rcases JsonFloat.isToken x with ⟨sign, i, f, e, htoken, hs, hi, hf, he, -⟩ | hnon
  · have hsign : Solid sign := by rcases hs with rfl | rfl <;> decide
    have hint : Solid i := by
      rcases hi with rfl | ⟨c, u, rfl, -, hdig⟩
      · decide
      · exact solid_digits hdig
    rw [htoken]
    exact ((hsign.append hint).append (solid_markedDigits (by decide) hf)).append (solid_markedDigits (by decide) he)
  · have hwords : ∀ w ∈ nonFinite, Solid w := by decide
    exact hwords _ hnon

theorem dumpsFields_last (kvs : List (Text × Json F)) : ∃ u, dumpsFields kvs = u ++ ['\x7d'] := by
  induction kvs with
  | nil => exact ⟨[], rfl⟩
  | cons p kvs ih =>
    obtain ⟨u, hu⟩ := ih
    exact ⟨',' :: ' ' :: (quoted p.1 ++ ':' :: ' ' :: (dumps p.2 ++ u)), by rw [dumpsFields, hu]; simp⟩

theorem strip_dumps_obj (kvs : List (Text × Json F)) : strip (dumps (.obj kvs)) = dumps (.obj kvs) := by
  obtain ⟨u, hu⟩ : ∃ u, dumps (.obj kvs) = '\x7b' :: (u ++ ['\x7d']) := by
    cases kvs with
    | nil => exact ⟨[], rfl⟩
    | cons p kvs =>
      obtain ⟨u, hu⟩ := dumpsFields_last kvs
      exact ⟨quoted p.1 ++ ':' :: ' ' :: (dumps p.2 ++ u), by rw [dumps, hu]; simp⟩
  rw [hu]
  refine strip_eq_iff.2 ⟨lstrip_cons (by decide), ?_⟩
  rw [← List.cons_append]
  exact rstrip_concat (by decide)

/-- A value that a parameter's text was read as, or could be. -/
def PropertySchema.Yields (prop : PropertySchema F) (v : Json F) : Prop :=
  ∃ name value, convertParam prop name (strip value) = .ok v

/-- A value whose text its declared type reads as the same value: `str()` writes
no JSON for the literals and for what is no finite number, and a text stands
without quotes. -/
def PropertySchema.ReadsBack (prop : PropertySchema F) : Json F → Prop
  | .null | .bool _ => False
  | .float x => JsonFloat.token x ∉ nonFinite
  | .str _ => prop.type ≠ some (.name "array".toList)
  | .int _ | .arr _ | .obj _ => True

variable {prop : PropertySchema F} {v : Json F}

/-- The three ways to read a parameter. -/
theorem convertParam_ok {name value : Text} (h : convertParam prop name value = .ok v) :
    (prop.type = some (.name "integer".toList) ∧ ∃ i, v = .int i) ∨
      (prop.type = some (.name "array".toList) ∧ loads value = some v) ∨
      (prop.type ≠ some (.name "integer".toList) ∧ prop.type ≠ some (.name "array".toList) ∧ v = .str value) := by
  unfold convertParam at h
  split at h
  · rename_i hint
    split at h
    · cases h
      exact .inl ⟨hint, _, rfl⟩
    · cases h
  · rename_i hint
    split at h
    · rename_i harr
      split at h
      · cases h
        exact .inr (.inl ⟨harr, ‹_›⟩)
      · cases h
    · cases h
      exact .inr (.inr ⟨hint, ‹_›, rfl⟩)

theorem PropertySchema.Yields.wellKeyed (h : prop.Yields v) : v.WellKeyed := by
  obtain ⟨name, value, h⟩ := h
  rcases convertParam_ok h with ⟨-, i, rfl⟩ | ⟨-, hload⟩ | ⟨-, -, rfl⟩
  · trivial
  · exact wellKeyed_loads hload
  · trivial

/-- `str()` of what is no finite number is no JSON. -/
theorem loads_pyStr_nonFinite {x : F} (hx : JsonFloat.token x ∈ nonFinite) :
    loads (F := F) (strip (pyStr (.float x : Json F))) = none := by
  simp only [nonFinite, List.mem_cons, List.not_mem_nil, or_false] at hx
  rcases hx with hx | hx | hx <;> rw [pyStr, hx] <;> rfl

theorem pyStr_finite {x : F} (hx : JsonFloat.token x ∉ nonFinite) :
    pyStr (.float x : Json F) = JsonFloat.token x := by
  simp only [nonFinite, List.mem_cons, List.not_mem_nil, or_false, not_or] at hx
  rw [pyStr, if_neg hx.1, if_neg hx.2.1, if_neg hx.2.2]

/-- A text without its quotes is not read as itself. -/
theorem loads_renderValue_str (s : Text) : loads (F := F) (strip (renderValue (.str s : Json F))) ≠ some (.str s) := by
  intro h
  have hshort := loads_str_length h
  have hle := strip_length_le (renderValue (.str s : Json F))
  rw [renderValue] at hshort hle
  split at hshort
  · have hframed := strip_framed_length_le s
    omega
  · rw [if_neg ‹_›] at hle
    omega

/-- What JSON reads of a written value. -/
theorem loads_renderValue (hv : v.WellKeyed) (harr : prop.type = some (.name "array".toList)) :
    loads (strip (renderValue v)) = some v ↔ prop.ReadsBack v := by
  cases v with
  | null =>
    refine ⟨fun h => ?_, False.elim⟩
    cases h
  | bool b =>
    refine ⟨fun h => ?_, False.elim⟩
    cases b <;> cases h
  | int i =>
    refine iff_of_true ?_ trivial
    show loads (strip (intText i)) = _
    rw [strip_intText]
    exact loads_dumps (v := (.int i : Json F)) hv
  | float x =>
    by_cases hx : JsonFloat.token x ∈ nonFinite
    · refine iff_of_false ?_ (not_not_intro hx)
      show ¬ loads (strip (pyStr (.float x : Json F))) = _
      rw [loads_pyStr_nonFinite hx]
      exact nofun
    · refine iff_of_true ?_ hx
      show loads (strip (pyStr (.float x : Json F))) = _
      rw [pyStr_finite hx, strip_of_no_space (solid_float x)]
      exact loads_dumps (v := (.float x : Json F)) hv
  | str s => exact iff_of_false (loads_renderValue_str s) (not_not_intro harr)
  | arr xs =>
    refine iff_of_true ?_ trivial
    rw [renderValue, strip_dumps_arr]
    exact loads_dumps hv
  | obj kvs =>
    refine iff_of_true ?_ trivial
    rw [renderValue, strip_dumps_obj]
    exact loads_dumps hv

/-- A value that was read is read again exactly when its type allows it. -/
theorem convertParam_renderValue (h : prop.Yields v) (name : Text) :
    convertParam prop name (strip (renderValue v)) = .ok v ↔ prop.ReadsBack v := by
  obtain ⟨name', value, hval⟩ := id h
  rcases convertParam_ok hval with ⟨hint, i, rfl⟩ | ⟨harr, -⟩ | ⟨hint, harr, rfl⟩
  · have hread : pyInt (strip (renderValue (.int i : Json F))) = some i := by
      show pyInt (strip (intText i)) = some i
      rw [strip_intText, pyInt_intText]
    refine iff_of_true ?_ trivial
    rw [convertParam, if_pos hint, hread]
  · have hint : prop.type ≠ some (.name "integer".toList) := by
      rw [harr]
      decide
    rw [← loads_renderValue h.wellKeyed harr, convertParam, if_neg hint, if_pos harr]
    cases loads (F := F) (strip (renderValue v)) with
    | none => simp
    | some w => simp
  · refine iff_of_true ?_ harr
    have hstrip : strip (renderValue (.str (strip value) : Json F)) = strip value := by
      rw [renderValue]
      split
      · exact strip_framed (strip_strip value) ‹_›
      · exact strip_strip value
    rw [convertParam, if_neg hint, if_neg harr, hstrip]

end Values

/-! ## Parameters that were accepted -/

section Params
variable {F : Type} [PyFloat F] {tool : FunctionTool F} {fnName : Text}

/-- What the parser has seen to for an argument. -/
structure FunctionTool.Admits (tool : FunctionTool F) (p : Text × Json F) : Prop where
  allowed : tool.Allows p.1
  enum : ((tool.property p.1).enum.all fun values => values.any (pyEq p.2)) = true
  yielded : (tool.property p.1).Yields p.2

theorem extractParam_ok {params params' : List (Text × Json F)} {q : Text × Text}
    (h : extractParam tool fnName params q = .ok params') :
    ∃ v, tool.Admits (q.1, v) ∧ convertParam (tool.property q.1) q.1 (strip q.2) = .ok v ∧
      params' = dictSet params q.1 v := by
  unfold extractParam at h
  split at h
  · cases h
  · rename_i hallow
    obtain ⟨v, hv, h⟩ := bind_ok h
    split at h
    · rename_i henum
      cases h
      refine ⟨v, ⟨?_, henum, q.1, q.2, hv⟩, hv, rfl⟩
      by_contra hno
      simp only [FunctionTool.Allows, not_or] at hno
      exact hallow ⟨hno.1, hno.2.1, hno.2.2⟩
    · cases h

theorem extractParam_admits {p : Text × Json F} (hp : tool.Admits p) {t : Text} (params : List (Text × Json F))
    (h : convertParam (tool.property p.1) p.1 (strip t) = .ok p.2) :
    extractParam tool fnName params (p.1, t) = .ok (dictSet params p.1 p.2) := by
  have hdeclared : ¬ (tool.properties ≠ [] ∧ p.1 ∉ tool.properties.map Prod.fst ∧ p.1 ≠ securityRisk) := by
    rintro ⟨hne, hkey, hrisk⟩
    rcases hp.allowed with hall | hall | hall
    · exact hne hall
    · exact hkey hall
    · exact hrisk hall
  rw [extractParam, if_neg hdeclared]
  simp only [h, bind, Except.bind]
  rw [if_pos hp.enum]
  rfl

theorem foldlM_admits {found : List (Text × Text)} {params params' : List (Text × Json F)}
    (hparams : ∀ p ∈ params, tool.Admits p) (hnd : (params.map Prod.fst).Nodup)
    (h : found.foldlM (extractParam tool fnName) params = .ok params') :
    (∀ p ∈ params', tool.Admits p) ∧ (params'.map Prod.fst).Nodup := by
  induction found generalizing params with
  | nil =>
    cases h
    exact ⟨hparams, hnd⟩
  | cons q found ih =>
    rw [List.foldlM_cons] at h
    obtain ⟨mid, hmid, h⟩ := bind_ok h
    obtain ⟨v, hv, -, rfl⟩ := extractParam_ok hmid
    refine ih (fun p hp => ?_) (nodup_dictSet q.1 v hnd) h
    rcases mem_dictSet hp with rfl | hp
    · exact hv
    · exact hparams p hp

/-- The arguments that were accepted. -/
structure FunctionTool.Accepted (tool : FunctionTool F) (args : List (Text × Json F)) : Prop where
  admits : ∀ p ∈ args, tool.Admits p
  nodup : (args.map Prod.fst).Nodup
  required : ∀ r ∈ tool.required, r ∈ args.map Prod.fst ∨ r = securityRisk

theorem extractAndValidateParams_ok {found : List (Text × Text)} {args : List (Text × Json F)}
    (h : extractAndValidateParams tool found fnName = .ok args) : tool.Accepted args := by
  obtain ⟨params, hfold, h⟩ := bind_ok h
  dsimp only at h
  split at h
  · rename_i hmissing
    cases h
    obtain ⟨hadmits, hnd⟩ := foldlM_admits (by simp) (by simp) hfold
    refine ⟨hadmits, hnd, fun r hr => ?_⟩
    have hin := List.filter_eq_nil_iff.1 hmissing r hr
    simpa [or_iff_not_imp_left] using hin
  · cases h

variable {args : List (Text × Json F)}

theorem FunctionTool.Accepted.wellKeyed (h : tool.Accepted args) : (Json.obj args).WellKeyed :=
  ⟨h.nodup, wellKeyedFields_iff.2 fun p hp => (h.admits p hp).yielded.wellKeyed⟩

/-- New keys go behind what is there. -/
theorem foldlM_prefix {found : List (Text × Text)} {params params' : List (Text × Json F)}
    (hnd : (params.map Prod.fst ++ found.map Prod.fst).Nodup)
    (h : found.foldlM (extractParam tool fnName) params = .ok params') : params <+: params' := by
  induction found generalizing params with
  | nil =>
    cases h
    exact List.prefix_rfl
  | cons q found ih =>
    rw [List.foldlM_cons] at h
    obtain ⟨mid, hmid, h⟩ := bind_ok h
    obtain ⟨v, -, -, rfl⟩ := extractParam_ok hmid
    have hnew : q.1 ∉ params.map Prod.fst := fun hq => (List.nodup_append.1 hnd).2.2 q.1 hq q.1 (by simp) rfl
    rw [dictSet_new v hnew] at h
    exact (List.prefix_append params [(q.1, v)]).trans (ih (by simpa using hnd) h)

/-- The written arguments are read one by one. -/
theorem foldlM_rendered {params : List (Text × Json F)} (hargs : ∀ p ∈ args, tool.Admits p)
    (hnd : (params.map Prod.fst ++ args.map Prod.fst).Nodup) :
    (args.map fun p => (p.1, renderValue p.2)).foldlM (extractParam tool fnName) params = .ok (params ++ args) ↔
      ∀ p ∈ args, (tool.property p.1).ReadsBack p.2 := by
  induction args generalizing params with
  | nil => simp [pure, Except.pure]
  | cons p args ih =>
    obtain ⟨hp, hargs⟩ := List.forall_mem_cons.1 hargs
    have hnew : p.1 ∉ params.map Prod.fst := fun hq => (List.nodup_append.1 hnd).2.2 p.1 hq p.1 (by simp) rfl
    have hnd' : ((params ++ [p]).map Prod.fst ++ args.map Prod.fst).Nodup := by simpa using hnd
    have hih := ih hargs hnd'
    rw [List.append_assoc, List.singleton_append] at hih
    rw [List.map_cons, List.foldlM_cons, List.forall_mem_cons, ← convertParam_renderValue hp.yielded p.1]
    constructor
    · intro h
      obtain ⟨mid, hmid, h⟩ := bind_ok h
      obtain ⟨v, -, hv, rfl⟩ := extractParam_ok hmid
      rw [dictSet_new v hnew] at h
      -- What was read stays where it is, so it was read as the argument.
      obtain ⟨rest, hrest⟩ := foldlM_prefix (by simpa [Function.comp_def] using hnd) h
      rw [List.append_assoc, List.append_cancel_left_eq, List.singleton_append] at hrest
      have hvp : (p.1, v) = p := (List.cons.inj hrest).1
      have hval : v = p.2 := congrArg Prod.snd hvp
      rw [hvp] at h
      rw [hval] at hv
      exact ⟨hv, hih.1 h⟩
    · rintro ⟨hv, hrest⟩
      rw [extractParam_admits hp params hv, dictSet_new p.2 hnew, ← hih.2 hrest]
      rfl

theorem extractAndValidateParams_iff (h : tool.Accepted args) :
    extractAndValidateParams tool (args.map fun p => (p.1, renderValue p.2)) fnName = .ok args ↔
      ∀ p ∈ args, (tool.property p.1).ReadsBack p.2 := by
  have hfold : (args.map fun p => (p.1, renderValue p.2)).foldlM (extractParam tool fnName) [] = .ok ([] ++ args) ↔
      ∀ p ∈ args, (tool.property p.1).ReadsBack p.2 := foldlM_rendered h.admits (by simpa using h.nodup)
  rw [List.nil_append] at hfold
  rw [← hfold]
  have hmissing : (tool.required.filter fun r => r ∉ args.map Prod.fst ∧ r ≠ securityRisk) = [] := by
    rw [List.filter_eq_nil_iff]
    intro r hr
    rcases h.required r hr with hin | hrisk
    · simp [hin]
    · simp [hrisk]
  constructor
  · intro h
    obtain ⟨params, hparams, h⟩ := bind_ok h
    dsimp only at h
    split at h
    · cases h
      exact hparams
    · cases h
  · intro h
    simp only [extractAndValidateParams, h, hmissing, bind, Except.bind, if_true]
    rfl

end Params

/-! ## Calls that were accepted -/

section Calls
variable {F : Type} [PyFloat F] {tools : List (FunctionTool F)} {tool : FunctionTool F} {args : List (Text × Json F)}

omit [PyFloat F] in
theorem resolveToolName_ok {name name' : Text} (h : resolveToolName tools name = .ok (name', tool)) :
    findTool tools name' = some tool := by
  unfold resolveToolName at h
  split at h
  · cases h
    exact ‹_›
  · dsimp only at h
    split at h
    · cases h
      exact ‹_›
    · cases h

theorem noCall_beforeCall (t : Text) : ¬ fnOpen <:+: beforeCall t := by
  intro h
  have hin := h.trans (strip_within _)
  cases hu : untilFirst fnOpen t with
  | none =>
    rw [hu] at hin
    have hsome : (untilFirst fnOpen t).isSome := untilFirst_isSome hin
    rw [hu] at hsome
    cases hsome
  | some r =>
    rw [hu] at hin
    exact noInfix_of_untilFirst (by decide) t r.1 r.2 hu hin

/-- The tool call of a message. -/
def AssistantMessage.ofCall (content : Option Content) (id : Text) (function : FunctionChunk) : AssistantMessage :=
  ⟨content, some [⟨some id, some "function".toList, some function⟩]⟩

/-- Written out behind the content and parsed again, the call is the same: its
name and, up to their text, its arguments. -/
def RoundTrips (tools : List (FunctionTool F)) (content : Option Content) (id : Text) (function : FunctionChunk) : Prop :=
  ∀ counter, ∃ content' arguments', convertRoundTrip tools (.ofCall content id function) counter =
      .ok (.call content' (emulatedId counter) ⟨function.name, arguments'⟩, counter + 1) ∧
    loads (F := F) arguments' = loads function.arguments

/-- A call that is accepted: its tool takes the arguments, and no call stands in
the prose that is left before it. -/
theorem convertAssistantToFncall_accepted {response : Option Text} {content : Content} {id : Text} {function : FunctionChunk}
    {counter n : Nat} (h : convertAssistantToFncall (response.map .text) tools counter = .ok (.call content id function, n)) :
    ∃ tool args, findTool tools function.name = some tool ∧ tool.Accepted args ∧
      function.arguments = dumps (.obj args) ∧ ¬ fnOpen <:+: content.lastText := by
  unfold convertAssistantToFncall at h
  obtain ⟨⟨content', found⟩, hfind, h⟩ := bind_ok h
  cases found with
  | none => cases h
  | some found =>
    obtain ⟨fnName, body⟩ := found
    obtain ⟨⟨name, tool⟩, hresolve, h⟩ := bind_ok h
    obtain ⟨args, hargs, h⟩ := bind_ok h
    cases h
    refine ⟨tool, args, resolveToolName_ok hresolve, extractAndValidateParams_ok hargs, rfl, ?_⟩
    obtain ⟨t, ht⟩ : ∃ t, contentOr (response.map .text) = .text t := by cases response <;> exact ⟨_, rfl⟩
    rw [ht] at hfind
    obtain ⟨rfl, -⟩ := Prod.mk.inj (Except.ok.inj hfind)
    exact noCall_beforeCall _

/-- How a clean call that was accepted comes back. -/
theorem roundTrips_iff {name : Text} (htool : findTool tools name = some tool) (hargs : tool.Accepted args)
    (hclean : CleanCall name args) {content : Option Content} (hprose : ¬ fnOpen <:+: (contentOr content).lastText)
    (id : Text) :
    RoundTrips tools content id ⟨name, dumps (.obj args)⟩ ↔ ∀ p ∈ args, (tool.property p.1).ReadsBack p.2 := by
  have hload := loads_dumps hargs.wellKeyed
  have hwrite : convertAssistantToNonFncall F (.ofCall content id ⟨name, dumps (.obj args)⟩) =
      .ok ((contentOr content).withCall (renderCall name args)) := by
    simp only [AssistantMessage.ofCall, convertAssistantToNonFncall, convertToolCallToString, hload, ne_eq,
      not_true_eq_false, if_false]
    rfl
  obtain ⟨content', hfind⟩ := findFunctionMatch_withCall hclean hprose
  have hresolve : resolveToolName tools name = .ok (name, tool) := by rw [resolveToolName, htool]
  have hparse : ∀ counter, convertRoundTrip tools (.ofCall content id ⟨name, dumps (.obj args)⟩) counter =
      (extractAndValidateParams tool (args.map fun p => (p.1, renderValue p.2)) name).map fun params =>
        (.call content'.stripCall (emulatedId counter) ⟨name, dumps (.obj params)⟩, counter + 1) := by
    intro counter
    simp only [convertRoundTrip, hwrite, convertAssistantToFncall, hfind, hresolve,
      normalizeParameterTags_body hclean.params, findAll_body hclean.params, bind, Except.bind]
    cases extractAndValidateParams tool (args.map fun p => (p.1, renderValue p.2)) name <;> rfl
  have hvalues : extractAndValidateParams tool (args.map fun p => (p.1, renderValue p.2)) name = .ok args ↔ _ :=
    extractAndValidateParams_iff hargs
  rw [← hvalues]
  constructor
  · intro h
    obtain ⟨_, arguments', hback, hsame⟩ := h 1
    rw [hparse] at hback
    obtain ⟨params, hparams, hcall⟩ := map_ok hback
    cases hcall
    have hkeyed := (extractAndValidateParams_ok hparams).wellKeyed
    rw [loads_dumps hkeyed, hload] at hsame
    cases hsame
    exact hparams
  · intro h counter
    refine ⟨content'.stripCall, dumps (.obj args), ?_, rfl⟩
    rw [hparse, h]
    rfl

/-- An accepted call comes back as it is when its text is clean and its values
are read back, and of the calls with a clean text only then. -/
theorem postResponsePromptMock_roundTrips {prompt : List (Option Content)} {response : Option Text} {content : Content}
    {id : Text} {function : FunctionChunk}
    (h : postResponsePromptMock tools prompt response = .ok (.call content id function)) :
    ∃ tool args, findTool tools function.name = some tool ∧ loads function.arguments = some (.obj args) ∧
      ¬ fnOpen <:+: content.lastText ∧
      (CleanCall function.name args → ∀ prose id', ¬ fnOpen <:+: (contentOr prose).lastText →
        (RoundTrips tools prose id' function ↔ ∀ p ∈ args, (tool.property p.1).ReadsBack p.2)) := by
  obtain ⟨counter, -, h⟩ := bind_ok h
  obtain ⟨⟨last, n⟩, hlast, h⟩ := bind_ok h
  cases h
  obtain ⟨tool, args, htool, hargs, harguments, hprose⟩ := convertAssistantToFncall_accepted hlast
  obtain ⟨name, arguments⟩ := function
  obtain rfl : arguments = dumps (.obj args) := harguments
  exact ⟨tool, args, htool, loads_dumps hargs.wellKeyed, hprose,
    fun hclean prose id' hprose' => roundTrips_iff htool hargs hclean hprose' id'⟩

end Calls

/-! ### A call that comes back and one that does not -/

/-- A response that calls the tool with some items. -/
def echoResponse (items : String) : Text :=
  "<function=echo>\n<parameter=items>".toList ++ items.toList ++ "</parameter>\n</function>".toList

def echoCall (args : List (String × Json OneHalf)) : ParsedMessage :=
  .call (.text []) (emulatedId 1) ⟨"echo".toList, dumps (.obj (named args))⟩

def listArguments : List (String × Json OneHalf) := [("items", .arr [.int 1, .null])]

theorem postResponsePromptMock_roundTrips_list :
    RoundTrips [echoTool] (some (.text [])) (emulatedId 1) ⟨"echo".toList, dumps (.obj (named listArguments))⟩ := by
  have haccepted : postResponsePromptMock [echoTool] [] (some (echoResponse "[1, null]")) = .ok (echoCall listArguments) :=
    toOption_eq_some (by decide +kernel)
  obtain ⟨tool, args, htool, hload, hprose, hiff⟩ := postResponsePromptMock_roundTrips haccepted
  obtain rfl : echoTool = tool := Option.some.inj htool
  have hkeyed : (Json.obj (named listArguments)).WellKeyed :=
    ⟨by decide, by simp [named, listArguments, WellKeyedFields, WellKeyedElems, Json.WellKeyed]⟩
  rw [loads_dumps hkeyed] at hload
  obtain rfl : named listArguments = args := Json.obj.inj (Option.some.inj hload)
  have hclean : ∀ p ∈ named listArguments, (p.1 ≠ [] ∧ '>' ∉ p.1) ∧ ¬ paramClose <:+: renderValue p.2 ∧
      ¬ fnClose <:+: renderParam p ∧ (∀ tag ∈ [thinkEnd, toolCallOpen], NoMatch (tagBeforeCall tag) (renderParam p) []) ∧
      NoMatch malformedParam (renderParam p) [] := by decide +kernel
  refine (hiff ⟨by decide, fun p hp => ?_⟩ (some (.text [])) _ hprose).2 fun p hp => ?_
  · obtain ⟨hname, hclosed, hinside, hunwrapped, hwell⟩ := hclean p hp
    exact ⟨hname, hclosed, hinside, hunwrapped, hwell⟩
  · simp only [named, listArguments, List.map_cons, List.map_nil, List.mem_cons, List.not_mem_nil, or_false] at hp
    rw [hp]
    trivial

/-- An accepted `null` is written as `None`, which the next request cannot read. -/
theorem not_roundTrips_null :
    ¬ ∀ response content id function,
      postResponsePromptMock [echoTool] [] response = .ok (.call content id function) →
        RoundTrips [echoTool] (some content) id function := by
  intro h
  have haccepted : postResponsePromptMock [echoTool] [] (some (echoResponse "null")) =
      .ok (echoCall [("items", .null)]) := toOption_eq_some (by decide +kernel)
  have hnone : (convertRoundTrip [echoTool] (.ofCall (some (.text [])) (emulatedId 1)
      ⟨"echo".toList, dumps (.obj (named [("items", .null)]))⟩) 1).toOption = none := by decide +kernel
  obtain ⟨content', arguments', hback, -⟩ := h _ _ _ _ haccepted 1
  rw [hback] at hnone
  cases hnone

end AgentSdk
