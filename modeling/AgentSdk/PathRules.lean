import AgentSdk.Lib.Regex
import AgentSdk.Lib.Rows
/-!
# Path rules

A rule is injected into the observation of a tool that touched a file, where a
glob of the rule matches the file's path. A glob is compiled to a regular
expression that has to match the whole path.
-/

namespace AgentSdk.PathRules
open Lib

/-! ## Globs -/

/-- A run of other characters stands as its characters. -/
inductive GlobToken where
  /-- `**/` -/
  | directories
  /-- `**` -/
  | anything
  /-- `*` -/
  | star
  /-- `?` -/
  | one
  | char (c : Char)
deriving DecidableEq

/-- The tokens of a glob, the longest operator first. -/
def globTokens : Text → List GlobToken
  | '*' :: '*' :: '/' :: rest => .directories :: globTokens rest
  | '*' :: '*' :: rest => .anything :: globTokens rest
  | '*' :: rest => .star :: globTokens rest
  | '?' :: rest => .one :: globTokens rest
  | c :: rest => .char c :: globTokens rest
  | [] => []

def dot : Regex Char := .one fun _ => true

/-- A character within a segment. -/
def notSlash : Regex Char := .one fun c => decide (c ≠ '/')

def globToRegex : GlobToken → Regex Char
  | .directories => .optional (.seq (.many dot) (.one fun c => decide (c = '/')))
  | .anything => .many dot
  | .star => .many notSlash
  | .one => notSlash
  | .char c => .one fun d => decide (d = c)

/-- A pattern without a slash matches at any depth. -/
def anchored (pattern : Text) : Text := if '/' ∈ pattern then pattern else ['*', '*', '/'] ++ pattern

def body : List GlobToken → Regex Char
  | [] => .empty
  | token :: tokens => .seq (globToRegex token) (body tokens)

def compilePathGlob (pattern : Text) : Regex Char := body (globTokens (anchored pattern))

def fullmatch (r : Regex Char) (path : Text) : Bool := (r.rests path).any List.isEmpty

def pathMatchesGlob (path pattern : Text) : Bool := !pattern.isEmpty && fullmatch (compilePathGlob pattern) path

/-! ## What a glob means -/

/-- A pattern against the text of one segment. -/
inductive Wildcard : Text → Text → Prop
  | nil : Wildcard [] []
  | star {p u s} : Wildcard p s → Wildcard ('*' :: p) (u ++ s)
  | one {p c s} : Wildcard p s → Wildcard ('?' :: p) (c :: s)
  | char {p c s} : c ≠ '*' → c ≠ '?' → Wildcard p s → Wildcard (c :: p) (c :: s)

/-- Segments of a pattern against those of a path: `**` stands for any number of segments, at the
end for at least one. -/
inductive Segments : List Text → List Text → Prop
  | done : Segments [] []
  | directories {pattern skipped path} : pattern ≠ [] → Segments pattern path →
      Segments (['*', '*'] :: pattern) (skipped ++ path)
  | rest {path} : path ≠ [] → Segments [['*', '*']] path
  | segment {p s pattern path} : p ≠ ['*', '*'] → Wildcard p s → Segments pattern path →
      Segments (p :: pattern) (s :: path)

/-- The segments of a pattern; a pattern without a slash stands below any directories. -/
def patternSegments (pattern : Text) : List Text :=
  if '/' ∈ pattern then pattern.splitOn '/' else [['*', '*'], pattern]

/-- `**` stands for itself, never next to other characters of a segment. -/
def WholeStars (segments : List Text) : Prop := ∀ p ∈ segments, ['*', '*'] <:+: p → p = ['*', '*']

/-! ## The tokens of a segment -/

variable {p s t u v : Text} {tokens : List GlobToken}

theorem plain_body (tokens : List GlobToken) : (body tokens).Plain := by
  induction tokens with
  | nil => trivial
  | cons token tokens ih =>
    refine ⟨?_, ih⟩
    cases token <;> simp [globToRegex, Regex.Plain, Regex.optional, dot, notSlash]

def Fits (tokens : List GlobToken) (s : Text) : Prop := (body tokens).Matches s []

theorem fits_cons {token : GlobToken} :
    Fits (token :: tokens) s ↔ ∃ u v, s = u ++ v ∧ (globToRegex token).Matches u [] ∧ Fits tokens v := by
  unfold Fits
  rw [body, Regex.matches_seq_iff]
  have hplain : (globToRegex token).Plain := (plain_body (token :: tokens)).1
  constructor
  · rintro ⟨u, v, rfl, hu, hv⟩
    exact ⟨u, v, rfl, hu.of_plain hplain, hv⟩
  · rintro ⟨u, v, rfl, hu, hv⟩
    exact ⟨u, v, rfl, hu.of_plain hplain, hv⟩

@[simp] theorem fits_nil : Fits [] s ↔ s = [] := Regex.matches_empty_iff

@[simp] theorem fits_anything : Fits (.anything :: tokens) s ↔ ∃ u v, s = u ++ v ∧ Fits tokens v := by
  simp [fits_cons, globToRegex, dot]

@[simp] theorem fits_star : Fits (.star :: tokens) s ↔ ∃ u v, s = u ++ v ∧ '/' ∉ u ∧ Fits tokens v := by
  have hsegment : ∀ u : Text, (∀ c ∈ u, c ≠ '/') ↔ '/' ∉ u := fun u =>
    ⟨fun h hu => h _ hu rfl, fun h c hc heq => h (heq ▸ hc)⟩
  simp only [fits_cons, globToRegex, notSlash, Regex.matches_many_one_iff, decide_eq_true_eq, hsegment]

@[simp] theorem fits_one : Fits (.one :: tokens) s ↔ ∃ c v, s = c :: v ∧ c ≠ '/' ∧ Fits tokens v := by
  simp only [fits_cons, globToRegex, notSlash, Regex.matches_one_iff, decide_eq_true_eq]
  constructor
  · rintro ⟨_, v, rfl, ⟨c, hc, rfl⟩, hv⟩
    exact ⟨c, v, rfl, hc, hv⟩
  · rintro ⟨c, v, rfl, hc, hv⟩
    exact ⟨[c], v, rfl, ⟨c, hc, rfl⟩, hv⟩

@[simp] theorem fits_char {c : Char} : Fits (.char c :: tokens) s ↔ ∃ v, s = c :: v ∧ Fits tokens v := by
  simp only [fits_cons, globToRegex, Regex.matches_one_iff, decide_eq_true_eq]
  constructor
  · rintro ⟨_, v, rfl, ⟨d, rfl, rfl⟩, hv⟩
    exact ⟨v, rfl, hv⟩
  · rintro ⟨v, rfl, hv⟩
    exact ⟨[c], v, rfl, ⟨c, rfl, rfl⟩, hv⟩

@[simp] theorem fits_directories :
    Fits (.directories :: tokens) s ↔ Fits tokens s ∨ ∃ u v, s = u ++ '/' :: v ∧ Fits tokens v := by
  simp only [fits_cons, globToRegex, dot, Regex.matches_optional_iff, Regex.matches_seq_iff, Regex.matches_one_iff,
    Regex.matches_many_one_iff, decide_eq_true_eq]
  constructor
  · rintro ⟨w, v, rfl, ⟨u, _, rfl, -, c, rfl, rfl⟩ | rfl, hv⟩
    · exact .inr ⟨u, v, by simp, hv⟩
    · exact .inl hv
  · rintro (h | ⟨u, v, rfl, hv⟩)
    · exact ⟨[], s, rfl, .inr rfl, h⟩
    · exact ⟨u ++ ['/'], v, by simp, .inl ⟨u, ['/'], rfl, fun _ _ => trivial, '/', rfl, rfl⟩, hv⟩

/-- The token of a character, outside of `**`. -/
def plainToken (c : Char) : GlobToken := if c = '*' then .star else if c = '?' then .one else .char c

theorem globTokens_cons {c : Char} (hstar : c = '*' → ∀ r, t ≠ '*' :: r) :
    globTokens (c :: t) = plainToken c :: globTokens t := by
  by_cases hc : c = '*'
  · subst hc
    have hnext := hstar rfl
    rw [globTokens]
    · rfl
    · rintro rest rfl
      exact hnext _ rfl
    · rintro rest rfl
      exact hnext _ rfl
  · by_cases hq : c = '?'
    · subst hq
      rw [globTokens]
      rfl
    · rw [globTokens]
      · rw [plainToken, if_neg hc, if_neg hq]
      · rintro rest rfl
        exact absurd rfl hc
      · rintro rest rfl
        exact absurd rfl hc
      · exact hc
      · exact hq

/-- A segment without `**` is read for itself. -/
theorem globTokens_append {r : Text} (hp : ¬ ['*', '*'] <:+: p) (hr : ∀ r', r ≠ '*' :: r') :
    globTokens (p ++ r) = p.map plainToken ++ globTokens r := by
  induction p with
  | nil => rfl
  | cons c p ih =>
    rw [List.cons_append, globTokens_cons, ih fun h => hp (h.trans (List.suffix_cons c p).isInfix)]
    · rfl
    · rintro rfl r' heq
      cases p with
      | nil => exact hr r' heq
      | cons d p =>
        obtain ⟨rfl, -⟩ := List.cons.inj heq
        exact hp ⟨[], p, rfl⟩

/-- The tokens of a segment match within one segment. -/
theorem fits_segment (hp : '/' ∉ p) :
    Fits (p.map plainToken ++ tokens) s ↔ ∃ u v, s = u ++ v ∧ '/' ∉ u ∧ Wildcard p u ∧ Fits tokens v := by
  induction p generalizing s with
  | nil =>
    constructor
    · exact fun h => ⟨[], s, rfl, List.not_mem_nil, .nil, h⟩
    · rintro ⟨u, v, rfl, -, hu, h⟩
      cases hu
      exact h
  | cons c p ih =>
    obtain ⟨hslash, hp⟩ := List.ne_and_not_mem_of_not_mem_cons hp
    have ih := fun s => @ih s hp
    rw [List.map_cons, List.cons_append, plainToken]
    by_cases hc : c = '*'
    · subst hc
      rw [if_pos rfl, fits_star]
      simp only [ih]
      constructor
      · rintro ⟨u, _, rfl, hu, u', v, rfl, hu', hw, h⟩
        exact ⟨u ++ u', v, (List.append_assoc ..).symm, by simp [hu, hu'], .star hw, h⟩
      · rintro ⟨w, v, rfl, hslash, hw, h⟩
        cases hw with
        | star hw =>
          rw [List.mem_append, not_or] at hslash
          exact ⟨_, _, List.append_assoc .., hslash.1, _, v, rfl, hslash.2, hw, h⟩
        | char hs => exact absurd rfl hs
    · rw [if_neg hc]
      by_cases hq : c = '?'
      · subst hq
        rw [if_pos rfl, fits_one]
        simp only [ih]
        constructor
        · rintro ⟨d, _, rfl, hd, u, v, rfl, hu, hw, h⟩
          exact ⟨d :: u, v, rfl, List.not_mem_cons_of_ne_of_not_mem (Ne.symm hd) hu, .one hw, h⟩
        · rintro ⟨w, v, rfl, hslash, hw, h⟩
          cases hw with
          | one hw =>
            obtain ⟨hd, hu⟩ := List.ne_and_not_mem_of_not_mem_cons hslash
            exact ⟨_, _, rfl, Ne.symm hd, _, v, rfl, hu, hw, h⟩
          | char _ hs => exact absurd rfl hs
      · rw [if_neg hq, fits_char]
        simp only [ih]
        constructor
        · rintro ⟨_, rfl, u, v, rfl, hu, hw, h⟩
          exact ⟨c :: u, v, rfl, List.not_mem_cons_of_ne_of_not_mem hslash hu, .char hc hq hw, h⟩
        · rintro ⟨w, v, rfl, hslash', hw, h⟩
          cases hw with
          | star => exact absurd rfl hc
          | one => exact absurd rfl hq
          | char _ _ hw =>
            exact ⟨_, rfl, _, v, rfl, (List.ne_and_not_mem_of_not_mem_cons hslash').2, hw, h⟩

/-! ## The segments of a path -/

variable {pattern path : List Text}

theorem segments_segment_iff (hp : p ≠ ['*', '*']) :
    Segments (p :: pattern) path ↔ ∃ s rest, path = s :: rest ∧ Wildcard p s ∧ Segments pattern rest := by
  constructor
  · intro h
    cases h with
    | directories => exact absurd rfl hp
    | rest => exact absurd rfl hp
    | segment _ hw h => exact ⟨_, _, rfl, hw, h⟩
  · rintro ⟨s, rest, rfl, hw, h⟩
    exact .segment hp hw h

theorem segments_directories_iff (hne : pattern ≠ []) :
    Segments (['*', '*'] :: pattern) path ↔ ∃ skipped rest, path = skipped ++ rest ∧ Segments pattern rest := by
  constructor
  · intro h
    cases h with
    | directories _ h => exact ⟨_, _, rfl, h⟩
    | rest => exact absurd rfl hne
    | segment hp => exact absurd rfl hp
  · rintro ⟨skipped, rest, rfl, h⟩
    exact .directories hne h

theorem path_ne_nil (h : Segments pattern path) (hne : pattern ≠ []) : path ≠ [] := by
  induction h with
  | done => exact absurd rfl hne
  | directories hne' _ ih => exact fun h => ih hne' (List.append_eq_nil_iff.1 h).2
  | rest h => exact h
  | segment => exact List.cons_ne_nil _ _

theorem intercalate_append {segs segs' : List Text} (h : segs ≠ []) (h' : segs' ≠ []) :
    List.intercalate ['/'] (segs ++ segs') = List.intercalate ['/'] segs ++ '/' :: List.intercalate ['/'] segs' := by
  induction segs with
  | nil => exact absurd rfl h
  | cons p segs ih =>
    cases segs with
    | nil => simp [List.intercalate_cons_of_ne_nil h']
    | cons q segs =>
      rw [List.cons_append, List.intercalate_cons_of_ne_nil (by simp), ih (List.cons_ne_nil _ _),
        List.intercalate_cons_of_ne_nil (List.cons_ne_nil _ _)]
      simp

/-- To leave out segments of a path is to go on after one of its slashes, or to leave out none. -/
theorem split_directories (hne : pattern ≠ []) :
    (∃ skipped rest, s.splitOn '/' = skipped ++ rest ∧ Segments pattern rest) ↔
      Segments pattern (s.splitOn '/') ∨ ∃ u v, s = u ++ '/' :: v ∧ Segments pattern (v.splitOn '/') := by
  constructor
  · rintro ⟨skipped, rest, hsplit, h⟩
    cases skipped with
    | nil => exact .inl (hsplit ▸ h)
    | cons p skipped =>
      have hrest := path_ne_nil h hne
      refine .inr ⟨List.intercalate ['/'] (p :: skipped), List.intercalate ['/'] rest, ?_, ?_⟩
      · rw [← intercalate_append (List.cons_ne_nil _ _) hrest, ← hsplit, List.intercalate_splitOn]
      · rwa [List.splitOn_intercalate _ (fun q hq hslash => ?_) hrest]
        have hmem : q ∈ s.splitOnP (· == '/') := by
          rw [← List.splitOn_eq_splitOnP, hsplit]
          exact List.mem_append_right _ hq
        simpa using not_sep_of_mem_splitOnP hmem '/' hslash
  · rintro (h | ⟨u, v, rfl, h⟩)
    · exact ⟨[], _, rfl, h⟩
    · exact ⟨u.splitOn '/', _, List.splitOn_append_cons_self u v, h⟩

/-- By the segments of the pattern; each is read by its own tokens. -/
theorem fits_segments {segs : List Text} (hne : segs ≠ []) (hslash : ∀ p ∈ segs, '/' ∉ p) (hstars : WholeStars segs) :
    Fits (globTokens (List.intercalate ['/'] segs)) s ↔ Segments segs (s.splitOn '/') := by
  induction segs generalizing s with
  | nil => exact absurd rfl hne
  | cons p segs ih =>
    have hp : p ≠ ['*', '*'] → ¬ ['*', '*'] <:+: p := fun h hin => h (hstars p List.mem_cons_self hin)
    have hpslash := hslash p List.mem_cons_self
    cases segs with
    | nil =>
      rw [List.intercalate_singleton]
      by_cases hstar : p = ['*', '*']
      · subst hstar
        refine iff_of_true ?_ (.rest (List.splitOn_ne_nil _ _))
        exact fits_anything.2 ⟨s, [], (List.append_nil s).symm, fits_nil.2 rfl⟩
      · have htokens : globTokens p = p.map plainToken ++ [] := by
          have happend := globTokens_append (r := []) (hp hstar) (fun _ h => by cases h)
          rwa [List.append_nil] at happend
        rw [htokens, fits_segment hpslash, segments_segment_iff hstar]
        constructor
        · rintro ⟨u, v, rfl, hu, hw, hv⟩
          rw [fits_nil.1 hv, List.append_nil]
          exact ⟨u, [], List.splitOn_eq_singleton hu, hw, .done⟩
        · rintro ⟨t, rest, hsplit, hw, hrest⟩
          cases hrest
          have hs : s = t := by
            have hjoin : List.intercalate ['/'] (s.splitOn '/') = s := List.intercalate_splitOn '/'
            rw [← hjoin, hsplit, List.intercalate_singleton]
          have hmem : s ∈ s.splitOnP (· == '/') := by
            rw [← List.splitOn_eq_splitOnP, hsplit, ← hs]
            exact List.mem_cons_self
          refine ⟨s, [], (List.append_nil s).symm, fun h => ?_, hs ▸ hw, fits_nil.2 rfl⟩
          simpa using not_sep_of_mem_splitOnP hmem '/' h
    | cons q segs =>
      have ih := fun s => @ih s (List.cons_ne_nil q segs) (fun p h => hslash p (List.mem_cons_of_mem _ h))
        fun p h => hstars p (List.mem_cons_of_mem _ h)
      rw [List.intercalate_cons_of_ne_nil (List.cons_ne_nil q segs)]
      generalize List.intercalate ['/'] (q :: segs) = rest at ih
      by_cases hstar : p = ['*', '*']
      · subst hstar
        rw [segments_directories_iff (List.cons_ne_nil q segs), split_directories (List.cons_ne_nil q segs)]
        simp only [← ih]
        exact fits_directories
      · have htokens : globTokens (p ++ ['/'] ++ rest) = p.map plainToken ++ .char '/' :: globTokens rest := by
          rw [List.append_assoc, globTokens_append (hp hstar) fun _ h => by cases h]
          rfl
        rw [htokens, fits_segment hpslash, segments_segment_iff hstar]
        simp only [fits_char, ih]
        constructor
        · rintro ⟨u, _, rfl, hu, hw, v, rfl, hv⟩
          exact ⟨u, _, List.splitOn_append_cons_self_of_not_mem hu v, hw, hv⟩
        · rintro ⟨u, path, hsplit, hw, h⟩
          have hpath := path_ne_nil h (List.cons_ne_nil q segs)
          have hclean : ∀ r ∈ u :: path, '/' ∉ r := by
            intro r hr hmem
            rw [← hsplit, List.splitOn_eq_splitOnP] at hr
            simpa using not_sep_of_mem_splitOnP hr '/' hmem
          refine ⟨u, '/' :: List.intercalate ['/'] path, ?_, hclean u List.mem_cons_self, hw, _, rfl, ?_⟩
          · have hjoin : List.intercalate ['/'] (s.splitOn '/') = s := List.intercalate_splitOn '/'
            rw [← hjoin, hsplit, List.intercalate_cons_of_ne_nil hpath]
            simp
          · rwa [List.splitOn_intercalate _ (fun r hr => hclean r (List.mem_cons_of_mem _ hr)) hpath]

theorem fullmatch_iff : fullmatch (body tokens) s = true ↔ Fits tokens s := by
  unfold fullmatch
  rw [List.any_eq_true]
  constructor
  · rintro ⟨t, ht, hnil⟩
    obtain ⟨u, rfl, hu⟩ := Regex.mem_rests_iff.1 ht
    rw [List.isEmpty_iff.1 hnil] at hu ⊢
    rwa [List.append_nil]
  · intro h
    exact ⟨[], Regex.mem_rests_iff.2 ⟨s, (List.append_nil s).symm, h⟩, rfl⟩

/-- A glob in which `**` is never next to other characters of a segment matches a path exactly if its
segments match those of the path: `**` any number of them, at the end at least one, and the
characters of another one within one segment; without a slash it stands below any directories. -/
theorem glob_matches_iff (pattern path : Text) (hne : pattern ≠ []) (hstars : WholeStars (pattern.splitOn '/')) :
    pathMatchesGlob path pattern = true ↔ Segments (patternSegments pattern) (path.splitOn '/') := by
  unfold pathMatchesGlob compilePathGlob anchored patternSegments
  rw [Bool.and_eq_true, fullmatch_iff, and_iff_right (by simpa using hne)]
  have hslash : ∀ p ∈ pattern.splitOn '/', '/' ∉ p := by
    intro p hp hmem
    rw [List.splitOn_eq_splitOnP] at hp
    simpa using not_sep_of_mem_splitOnP hp '/' hmem
  by_cases h : '/' ∈ pattern
  · rw [if_pos h, if_pos h, ← fits_segments (List.splitOn_ne_nil _ _) hslash hstars, List.intercalate_splitOn]
  · rw [if_neg h, if_neg h]
    rw [List.splitOn_eq_singleton h] at hslash hstars
    have hsegments := fits_segments (s := path) (List.cons_ne_nil ['*', '*'] [pattern])
      (List.forall_mem_cons.2 ⟨by decide, hslash⟩) (List.forall_mem_cons.2 ⟨fun _ => rfl, hstars⟩)
    rw [← hsegments]
    simp [List.intercalate_cons_of_ne_nil]

theorem glob_matches_iff_deep :
    pathMatchesGlob "src/api/v1/x.ts".toList "src/**/*.ts".toList = true ↔
      Segments (patternSegments "src/**/*.ts".toList) ("src/api/v1/x.ts".toList.splitOn '/') :=
  glob_matches_iff _ _ (by decide) (by unfold WholeStars; decide)

/-! ## Injection -/

/-- A skill; `paths` is empty unless its trigger is a `PathTrigger`. -/
structure Rule where
  name : String
  paths : List Text := []
  content : String
  location : Option String := none

def Rule.matchPathTrigger (rule : Rule) (path : Text) : Option Text := rule.paths.find? (pathMatchesGlob path)

def ruleBlock (rule : Rule) (trigger : Text) : String :=
  "<EXTRA_INFO>\nThe following rule applies because a file you touched matches \"" ++ String.ofList trigger ++
    "\". Follow it when working with matching files.\n" ++
    (match rule.location with
      | none | some "" => ""
      | some location => "Rule location: " ++ location ++ "\n") ++
    "\n" ++ rule.content ++ "\n</EXTRA_INFO>"

/-- The rules that match a path, with the first glob that does. -/
def matching (rules : List Rule) (path : Text) : List (Rule × Text) :=
  rules.filterMap fun rule => (rule.matchPathTrigger path).map fun trigger => (rule, trigger)

/-- The rendered rules and their names. -/
def getToolUseSuffix (rules : List Rule) (path : Text) (skip : List String) : Option (String × List String) :=
  if path.isEmpty then none
  else
    let recalled := matching (rules.filter fun rule => rule.name ∉ skip) path
    if recalled.isEmpty then none
    else some ("\n".intercalate (recalled.map fun r => ruleBlock r.1 r.2), recalled.map fun r => r.1.name)

/-- An event; `touched` is the file that an observation's action names, if it is in the workspace. -/
structure ObservationEvent where
  touched : Option Text
  extendedContent : List String := []
deriving DecidableEq

/-- The event with the rules it brings, and the rules that were injected so far. -/
def maybeInjectPathRules (context : Option (List Rule)) (event : ObservationEvent) (activated : List String) :
    ObservationEvent × List String :=
  match context, event.touched with
  | some rules, some path =>
    match getToolUseSuffix rules path activated with
    | none => (event, activated)
    | some (content, names) =>
      ({ event with extendedContent := event.extendedContent ++ [content] }, activated ++ names)
  | _, _ => (event, activated)

/-- Events one after the other, each under the context of its time. -/
def injectAll : List (Option (List Rule) × ObservationEvent) → List String → List ObservationEvent
  | [], _ => []
  | (context, event) :: steps, activated =>
    let (event', activated') := maybeInjectPathRules context event activated
    event' :: injectAll steps activated'

/-- The rules of its context that match what the event touched. -/
def touchedRules : Option (List Rule) × ObservationEvent → List (Rule × Text)
  | (some rules, event) =>
    match event.touched with
    | some path => if path.isEmpty then [] else matching rules path
    | none => []
  | (none, _) => []

def touchedNames (step : Option (List Rule) × ObservationEvent) : List String := (touchedRules step).map fun r => r.1.name

/-- The event that brings these rules. -/
def ObservationEvent.withRules (event : ObservationEvent) (recalled : List (Rule × Text)) : ObservationEvent :=
  if recalled.isEmpty then event
  else { event with
    extendedContent := event.extendedContent ++ ["\n".intercalate (recalled.map fun r => ruleBlock r.1 r.2)] }

/-- The rules that are left of those that match are those that match of the rules left. -/
theorem matching_filter (rules : List Rule) (path : Text) (p : String → Bool) :
    matching (rules.filter fun rule => p rule.name) path = (matching rules path).filter fun r => p r.1.name := by
  unfold matching
  rw [List.filterMap_filter, List.filter_filterMap]
  refine List.filterMap_congr fun rule _ => ?_
  cases rule.matchPathTrigger path with
  | none => split <;> rfl
  | some trigger => by_cases hp : p rule.name = true <;> simp [hp, Option.filter_some]

/-- What a step does: the rules that match, but for those injected so far, are
rendered, and their names count as injected. -/
theorem maybeInjectPathRules_eq (context : Option (List Rule)) (event : ObservationEvent) (activated : List String) :
    maybeInjectPathRules context event activated =
      (event.withRules ((touchedRules (context, event)).filter fun r => r.1.name ∉ activated),
        activated ++ ((touchedRules (context, event)).filter fun r => r.1.name ∉ activated).map fun r => r.1.name) := by
  unfold maybeInjectPathRules touchedRules ObservationEvent.withRules
  cases context with
  | none => simp
  | some rules =>
    obtain ⟨touched, extended⟩ := event
    cases touched with
    | none => simp
    | some path =>
      dsimp only
      unfold getToolUseSuffix
      by_cases hpath : path.isEmpty = true
      · simp [hpath]
      · have hleft := matching_filter rules path fun name => decide (name ∉ activated)
        simp only [if_neg hpath, hleft]
        by_cases hnone : ((matching rules path).filter fun r => decide (r.1.name ∉ activated)).isEmpty = true
        · simp only [if_pos hnone]
          rw [List.isEmpty_iff.1 hnone, List.map_nil, List.append_nil]
        · simp only [if_neg hnone]

/-- After a step the rules that it touched count as injected. -/
theorem mem_activated (context : Option (List Rule)) (event : ObservationEvent) (activated : List String) (name : String) :
    name ∈ (maybeInjectPathRules context event activated).2 ↔ name ∈ activated ∨ name ∈ touchedNames (context, event) := by
  rw [maybeInjectPathRules_eq, List.mem_append, touchedNames, List.mem_map, List.mem_map]
  simp only [List.mem_filter, decide_eq_true_eq]
  constructor
  · rintro (h | ⟨r, ⟨hr, -⟩, rfl⟩)
    · exact .inl h
    · exact .inr ⟨r, hr, rfl⟩
  · rintro (h | ⟨r, hr, rfl⟩)
    · exact .inl h
    · by_cases hold : r.1.name ∈ activated
      · exact .inl hold
      · exact .inr ⟨r, ⟨hr, hold⟩, rfl⟩

/-- A rule comes with the first event that touches a file its globs match, and with that one only: each
event gets, rendered in order, the rules of its context that match what it touched, but for those whose
names matched earlier, under the context of that time, or had been injected before. -/
theorem rules_at_first_touch (steps : List (Option (List Rule) × ObservationEvent)) (activated : List String) :
    injectAll steps activated = steps.mapIdx fun i step => step.2.withRules ((touchedRules step).filter fun r =>
      r.1.name ∉ activated ∧ ∀ earlier ∈ steps.take i, r.1.name ∉ touchedNames earlier) := by
  induction steps generalizing activated with
  | nil => rfl
  | cons step steps ih =>
    obtain ⟨context, event⟩ := step
    rw [List.mapIdx_cons, injectAll]
    refine List.cons_eq_cons.2 ⟨?_, ?_⟩
    · show (maybeInjectPathRules context event activated).1 = _
      rw [maybeInjectPathRules_eq]
      simp
    · show injectAll steps (maybeInjectPathRules context event activated).2 = _
      rw [ih]
      refine congrArg (fun f => List.mapIdx f steps) (funext fun i => funext fun step => ?_)
      congr 1
      refine List.filter_congr fun r _ => decide_eq_decide.2 ?_
      rw [mem_activated, List.take_succ_cons, List.forall_mem_cons, not_or, and_assoc]

end AgentSdk.PathRules
