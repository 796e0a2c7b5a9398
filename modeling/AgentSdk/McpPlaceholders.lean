import AgentSdk.FunctionCalls
import AgentSdk.Lib.Dict
import AgentSdk.Lib.Result
import AgentSdk.Lib.Runs
import AgentSdk.Lib.Substitute
/-!
# Placeholders of MCP servers

`expand_mcp_servers` replaces the placeholders of an agent's MCP servers by secrets,
environment values and defaults, when a conversation loads its plugins and at each
`load_plugin`. Forks and reloads carry the servers on as data. Every symbol is marked
with where it came from, which is kept for the statement only.
-/

namespace AgentSdk.McpPlaceholders
open Lib

/-! ## Texts with their origin -/

inductive Origin where
  /-- Written in a declaration. -/
  | declared
  /-- From a secret or an environment value. -/
  | value
  /-- From an Agent Plugins package. -/
  | package
deriving DecidableEq, Repr

structure Symbol where
  char : Char
  origin : Origin
deriving DecidableEq, Repr

abbrev MarkedText := List Symbol

def chars (t : MarkedText) : Text := t.map Symbol.char

def mark (o : Origin) (t : Text) : MarkedText := t.map (⟨·, o⟩)

/-! ## Placeholders -/

/-- What `_BRACED_VAR_PATTERN` matches. -/
structure Reference where
  varName : Text
  defaultValue : Option MarkedText
deriving DecidableEq, Repr

def isNameChar (s : Symbol) : Bool := s.char.isAlphanum || s.char = '_'

/-- The rest of a reference behind `$\x7bNAME`, and its length. -/
def referenceEnd : MarkedText → Option (Option MarkedText × Nat)
  | [] => none
  | s :: rest =>
    if s.char = '}' then some (none, 1)
    else
      match s.char, rest with
      | ':', dash :: rest =>
        let value := rest.takeWhile fun s => s.char ≠ '}'
        if dash.char = '-' ∧ value.length < rest.length then some (some value, value.length + 3) else none
      | _, _ => none

/-- The match of `_BRACED_VAR_PATTERN` at the head of a text. -/
def matchReference : MarkedText → Option (Reference × Nat)
  | dollar :: brace :: rest =>
    let name := rest.takeWhile isNameChar
    if dollar.char = '$' ∧ brace.char = '{' ∧ name.head?.any (fun s => !s.char.isDigit) then
      (referenceEnd (rest.drop name.length)).map fun e => (⟨chars name, e.1⟩, 2 + name.length + e.2)
    else none
  | _ => none

theorem matchReference_pos {t : MarkedText} {r : Reference} {n : Nat} (h : matchReference t = some (r, n)) : 0 < n := by
  unfold matchReference at h
  split at h
  · dsimp only at h
    split at h
    · obtain ⟨e, -, heq⟩ := Option.map_eq_some_iff.1 h
      cases heq
      omega
    · cases h
  · cases h

def bracedVarPattern : Finder Symbol Reference := ⟨matchReference, matchReference_pos⟩

/-- The secrets of the conversation and the environment. -/
structure Sources where
  getSecret : Text → Option Text
  environ : Text → Option Text

/-- How a reference is resolved: `variables`, secrets, environment, default. -/
abbrev Resolver := Reference → Option MarkedText

namespace Sources

/-- `expand_mcp_variables` of a conversation. -/
def resolver (src : Sources) : Resolver := fun r =>
  match src.getSecret r.varName with
  | some v => some (mark .value v)
  | none =>
    match src.environ r.varName with
    | some v => some (mark .value v)
    | none => r.defaultValue

/-- `expand_mcp_variables` of `load_mcp_config`: without secrets and defaults. -/
def loadResolver (src : Sources) (skillRoot : Text) : Resolver := fun r =>
  if r.varName = "SKILL_ROOT".toList then some (mark .declared skillRoot)
  else (src.environ r.varName).map (mark .value)

end Sources

def expandText (ρ : Resolver) (t : MarkedText) : MarkedText := bracedVarPattern.replace ρ t

/-- The references in a text that are replaced. -/
def replacedIn (ρ : Resolver) (t : MarkedText) : List MarkedText := bracedVarPattern.replaced ρ t

/-! ## Servers -/

inductive Transport where
  | stdio
  | http
  | streamableHttp
  | sse
deriving DecidableEq, Repr

inductive Strategy where
  | none
  | apiKey
  | bearer
  | basic
  | header
  | oauth2
deriving DecidableEq, Repr

/-- An auth credential: its secrets and its other texts by their field or header. -/
structure AuthCredential (τ : Type) where
  strategy : Strategy
  secrets : List (List τ × List τ) := []
  texts : List (List τ × List τ) := []
deriving DecidableEq, Repr

/-- The data of an `MCPServer` over texts of `τ`. -/
structure ServerData (τ : Type) where
  url : Option (List τ) := none
  transport : Option Transport := none
  command : Option (List τ) := none
  args : Option (List (List τ)) := none
  env : List (List τ × List τ) := []
  cwd : Option (List τ) := none
  description : Option (List τ) := none
  icon : Option (List τ) := none
  headers : List (List τ × List τ) := []
  auth : Option (AuthCredential τ) := none
  enabled : Bool := true
deriving DecidableEq, Repr

def dictTexts (d : List (MarkedText × MarkedText)) : List MarkedText := d.flatMap fun p => [p.1, p.2]

/-- `{f(k): f(v) for k, v in d.items()}`. -/
def mapDict (f : MarkedText → MarkedText) (d : List (MarkedText × MarkedText)) : List (MarkedText × MarkedText) :=
  labelUpdate chars [] (d.map fun p => (f p.1, f p.2))

/-- `validate_secret` drops these. -/
def isBlank (t : MarkedText) : Bool := (chars t).all isSpace || chars t = "**********".toList

def validateSecretMap (d : List (MarkedText × MarkedText)) : List (MarkedText × MarkedText) :=
  d.filter fun p => !isBlank p.2

namespace ServerData

/-- The symbols marked with their origin. -/
def mark (o : Origin) (d : ServerData Char) : ServerData Symbol :=
  let one := McpPlaceholders.mark o
  let dict := List.map fun p : Text × Text => (one p.1, one p.2)
  { url := d.url.map one, transport := d.transport, command := d.command.map one, args := d.args.map (List.map one),
    env := dict d.env, cwd := d.cwd.map one, description := d.description.map one, icon := d.icon.map one,
    headers := dict d.headers,
    auth := d.auth.map fun a => { strategy := a.strategy, secrets := dict a.secrets, texts := dict a.texts },
    enabled := d.enabled }

/-- Every string of the dump. -/
def texts (d : ServerData Symbol) : List MarkedText :=
  d.url.toList ++ (d.command.toList ++ (d.args.getD [] ++ (dictTexts d.env ++ (d.cwd.toList ++ (d.description.toList ++
    (d.icon.toList ++ (dictTexts d.headers ++
      (d.auth.toList.flatMap fun a => dictTexts a.secrets ++ dictTexts a.texts))))))))

/-- `expand_value` on the dump. -/
def mapTexts (f : MarkedText → MarkedText) (d : ServerData Symbol) : ServerData Symbol :=
  { d with
    url := d.url.map f
    command := d.command.map f
    args := d.args.map (List.map f)
    env := mapDict f d.env
    cwd := d.cwd.map f
    description := d.description.map f
    icon := d.icon.map f
    headers := mapDict f d.headers
    auth := d.auth.map fun a => { a with secrets := mapDict f a.secrets, texts := mapDict f a.texts } }

/-- What the field validators make of the data. -/
def validated (d : ServerData Symbol) : ServerData Symbol :=
  { d with
    env := validateSecretMap d.env
    headers := validateSecretMap d.headers
    auth := d.auth.map fun a => { a with secrets := validateSecretMap a.secrets } }

def DistinctKeys (d : List (MarkedText × MarkedText)) : Prop := (d.map fun p => chars p.1).Nodup

/-- What a dict and the validators of `MCPServer` see to. -/
structure Valid (d : ServerData Symbol) : Prop where
  validated_eq : d.validated = d
  keys : ∀ dict ∈ [d.env, d.headers] ++ d.auth.toList.flatMap (fun a => [a.secrets, a.texts]), DistinctKeys dict
  url : d.url ≠ some []
  command : d.command ≠ some []
  stdio : d.transport = some .stdio → d.command.isSome
  remote : ∀ t ∈ d.transport, t ≠ .stdio → d.url.isSome
  authorization : d.auth.isSome → ∀ p ∈ d.headers, (chars p.1).map Char.toLower ≠ "authorization".toList

instance DistinctKeys.decidable (d : List (MarkedText × MarkedText)) : Decidable (DistinctKeys d) :=
  inferInstanceAs (Decidable (List.Nodup _))

instance Valid.decidable (d : ServerData Symbol) : Decidable d.Valid :=
  decidable_of_iff
    (d.validated = d ∧
      (∀ dict ∈ [d.env, d.headers] ++ d.auth.toList.flatMap (fun a => [a.secrets, a.texts]), DistinctKeys dict) ∧
      d.url ≠ some [] ∧ d.command ≠ some [] ∧ (d.transport = some .stdio → d.command.isSome) ∧
      (∀ t ∈ d.transport, t ≠ .stdio → d.url.isSome) ∧
      (d.auth.isSome → ∀ p ∈ d.headers, (chars p.1).map Char.toLower ≠ "authorization".toList))
    ⟨fun ⟨a, b, c, e, f, g, h⟩ => ⟨a, b, c, e, f, g, h⟩, fun ⟨a, b, c, e, f, g, h⟩ => ⟨a, b, c, e, f, g, h⟩⟩

end ServerData

structure MCPServer where
  data : ServerData Symbol
  literalValues : Bool := false
  valid : data.Valid
deriving DecidableEq

namespace MCPServer

/-- `model_validate`; `none` is a `ValidationError`. -/
def modelValidate (d : ServerData Symbol) : Option MCPServer :=
  if h : d.validated.Valid then some ⟨d.validated, false, h⟩ else none

def asLiteral (s : MCPServer) : MCPServer := { s with literalValues := true }

/-- A dump with its secrets and back. -/
def reloaded (s : MCPServer) : MCPServer := { s with literalValues := false }

/-- A dump without its secrets and back. -/
def redacted (s : MCPServer) : Option MCPServer :=
  modelValidate { s.data with env := [], headers := [], auth := s.data.auth.map fun a => { a with secrets := [] } }

end MCPServer

/-! ## Dumps of valid servers -/

section Texts
variable {f : MarkedText → MarkedText} {d : ServerData Symbol} {o : Origin}

theorem mapDict_eq_self {dict : List (MarkedText × MarkedText)} (hf : ∀ t ∈ dictTexts dict, f t = t)
    (hkeys : ServerData.DistinctKeys dict) : mapDict f dict = dict := by
  have hsame : (dict.map fun p => (f p.1, f p.2)) = dict := by
    conv_rhs => rw [← List.map_id dict]
    refine List.map_congr_left fun p hp => ?_
    have hmem : ∀ t ∈ [p.1, p.2], t ∈ dictTexts dict := fun t ht => List.mem_flatMap.2 ⟨p, hp, ht⟩
    rw [hf _ (hmem _ (by simp)), hf _ (hmem _ (by simp))]
    rfl
  rw [mapDict, hsame]
  exact labelUpdate_eq (by rw [List.nil_append]; exact hkeys)

theorem map_eq_self {t : Option MarkedText} (hf : ∀ u ∈ t.toList, f u = u) : t.map f = t := by
  cases t with
  | none => rfl
  | some u => rw [Option.map_some, hf u (List.mem_singleton_self u)]

/-- A valid server stays when no text of it changes. -/
theorem ServerData.mapTexts_eq_self (hf : ∀ t ∈ d.texts, f t = t) (hd : d.Valid) : d.mapTexts f = d := by
  simp only [ServerData.texts, List.mem_append] at hf
  have hargs : d.args.map (List.map f) = d.args := by
    cases hargs : d.args with
    | none => rfl
    | some args =>
      have hmap : args.map f = args.map id :=
        List.map_congr_left fun t ht => hf t (.inr (.inr (.inl (by rw [hargs]; exact ht))))
      rw [Option.map_some, hmap, List.map_id]
  have hauth : (d.auth.map fun a => ({ a with secrets := mapDict f a.secrets, texts := mapDict f a.texts } :
      AuthCredential Symbol)) = d.auth := by
    cases hauth : d.auth with
    | none => rfl
    | some a =>
      have hmem : ∀ t ∈ dictTexts a.secrets ++ dictTexts a.texts, f t = t := by
        intro t ht
        refine hf t (.inr (.inr (.inr (.inr (.inr (.inr (.inr (.inr ?_))))))))
        exact List.mem_flatMap.2 ⟨a, by rw [hauth]; exact List.mem_singleton_self a, ht⟩
      have hkey : ∀ dict ∈ [a.secrets, a.texts], ServerData.DistinctKeys dict := by
        intro dict hdict
        refine hd.keys dict (List.mem_append_right _ (List.mem_flatMap.2 ⟨a, ?_, hdict⟩))
        rw [hauth]
        exact List.mem_singleton_self a
      rw [Option.map_some, mapDict_eq_self (fun t ht => hmem t (List.mem_append_left _ ht)) (hkey _ (by simp)),
        mapDict_eq_self (fun t ht => hmem t (List.mem_append_right _ ht)) (hkey _ (by simp))]
  have henv := mapDict_eq_self (fun t ht => hf t (.inr (.inr (.inr (.inl ht))))) (hd.keys d.env (by simp))
  have hheaders := mapDict_eq_self (fun t ht => hf t (.inr (.inr (.inr (.inr (.inr (.inr (.inr (.inl ht)))))))))
    (hd.keys d.headers (by simp))
  simp only [ServerData.mapTexts, hargs, hauth, henv, hheaders, map_eq_self fun t ht => hf t (.inl ht),
    map_eq_self fun t ht => hf t (.inr (.inl ht)), map_eq_self fun t ht => hf t (.inr (.inr (.inr (.inr (.inl ht))))),
    map_eq_self fun t ht => hf t (.inr (.inr (.inr (.inr (.inr (.inl ht)))))),
    map_eq_self fun t ht => hf t (.inr (.inr (.inr (.inr (.inr (.inr (.inl ht)))))))]

/-- Every symbol is from `o`. -/
def ServerData.From (o : Origin) (d : ServerData Symbol) : Prop := ∀ t ∈ d.texts, ∀ s ∈ t, s.origin = o

theorem origin_of_mem_mark {t : Text} {s : Symbol} (h : s ∈ mark o t) : s.origin = o := by
  obtain ⟨c, -, rfl⟩ := List.mem_map.1 h
  rfl

theorem marked_of_mem {x : Option Text} {t : MarkedText} (h : t ∈ (x.map (mark o)).toList) : ∃ u, t = mark o u := by
  cases x with
  | none => cases h
  | some u => exact ⟨u, List.mem_singleton.1 h⟩

theorem marked_of_mem_dict {dict : List (Text × Text)} {t : MarkedText}
    (h : t ∈ dictTexts (dict.map fun p => (mark o p.1, mark o p.2))) : ∃ u, t = mark o u := by
  obtain ⟨p, hp, ht⟩ := List.mem_flatMap.1 h
  obtain ⟨q, -, rfl⟩ := List.mem_map.1 hp
  simp only [List.mem_cons, List.not_mem_nil, or_false] at ht
  rcases ht with rfl | rfl
  · exact ⟨_, rfl⟩
  · exact ⟨_, rfl⟩

theorem from_mark (d : ServerData Char) : (d.mark o).From o := by
  intro t ht s hs
  have hmarked : ∃ u, t = mark o u := by
    simp only [ServerData.texts, ServerData.mark, List.mem_append] at ht
    rcases ht with h | h | h | h | h | h | h | h | h
    · exact marked_of_mem h
    · exact marked_of_mem h
    · cases hargs : d.args with
      | none => simp [hargs] at h
      | some args =>
        rw [hargs] at h
        obtain ⟨u, -, rfl⟩ := List.mem_map.1 h
        exact ⟨u, rfl⟩
    · exact marked_of_mem_dict h
    · exact marked_of_mem h
    · exact marked_of_mem h
    · exact marked_of_mem h
    · exact marked_of_mem_dict h
    · cases hauth : d.auth with
      | none => simp [hauth] at h
      | some a =>
        rw [hauth] at h
        obtain ⟨b, hb, hmem⟩ := List.mem_flatMap.1 h
        rw [List.mem_singleton.1 hb] at hmem
        rcases List.mem_append.1 hmem with hmem | hmem
        · exact marked_of_mem_dict hmem
        · exact marked_of_mem_dict hmem
  obtain ⟨u, rfl⟩ := hmarked
  exact origin_of_mem_mark hs

/-- No symbol is of a package. -/
def Unpackaged (t : MarkedText) : Prop := ∀ s ∈ t, s.origin ≠ .package

theorem unpackaged_mark (t : Text) : Unpackaged (mark .declared t) := by
  intro s hs
  rw [origin_of_mem_mark hs]
  exact nofun

theorem unpackaged_declared (d : ServerData Char) : ∀ t ∈ (d.mark .declared).texts, Unpackaged t := by
  intro t ht s hs
  rw [from_mark d t ht s hs]
  exact nofun

theorem dictTexts_mapDict {dict : List (MarkedText × MarkedText)} {t : MarkedText} (h : t ∈ dictTexts (mapDict f dict)) :
    ∃ u ∈ dictTexts dict, t = f u := by
  obtain ⟨p, hp, ht⟩ := List.mem_flatMap.1 h
  rcases mem_labelUpdate hp with hp | ⟨hp, -⟩
  · obtain ⟨q, hq, rfl⟩ := List.mem_map.1 hp
    simp only [List.mem_cons, List.not_mem_nil, or_false] at ht
    rcases ht with rfl | rfl
    · exact ⟨q.1, List.mem_flatMap.2 ⟨q, hq, by simp⟩, rfl⟩
    · exact ⟨q.2, List.mem_flatMap.2 ⟨q, hq, by simp⟩, rfl⟩
  · cases hp

theorem texts_mapTexts {t : MarkedText} (h : t ∈ (d.mapTexts f).texts) : ∃ u ∈ d.texts, t = f u := by
  have hone : ∀ {x : Option MarkedText}, t ∈ (x.map f).toList → ∃ u ∈ x.toList, t = f u := by
    intro x hx
    cases x with
    | none => cases hx
    | some u => exact ⟨u, List.mem_singleton_self u, List.mem_singleton.1 hx⟩
  simp only [ServerData.texts, ServerData.mapTexts, List.mem_append] at h ⊢
  rcases h with h | h | h | h | h | h | h | h | h
  · obtain ⟨u, hu, rfl⟩ := hone h
    exact ⟨u, .inl hu, rfl⟩
  · obtain ⟨u, hu, rfl⟩ := hone h
    exact ⟨u, .inr (.inl hu), rfl⟩
  · cases hargs : d.args with
    | none => simp [hargs] at h
    | some args =>
      rw [hargs] at h
      obtain ⟨u, hu, rfl⟩ := List.mem_map.1 h
      exact ⟨u, .inr (.inr (.inl hu)), rfl⟩
  · obtain ⟨u, hu, rfl⟩ := dictTexts_mapDict h
    exact ⟨u, .inr (.inr (.inr (.inl hu))), rfl⟩
  · obtain ⟨u, hu, rfl⟩ := hone h
    exact ⟨u, .inr (.inr (.inr (.inr (.inl hu)))), rfl⟩
  · obtain ⟨u, hu, rfl⟩ := hone h
    exact ⟨u, .inr (.inr (.inr (.inr (.inr (.inl hu))))), rfl⟩
  · obtain ⟨u, hu, rfl⟩ := hone h
    exact ⟨u, .inr (.inr (.inr (.inr (.inr (.inr (.inl hu)))))), rfl⟩
  · obtain ⟨u, hu, rfl⟩ := dictTexts_mapDict h
    exact ⟨u, .inr (.inr (.inr (.inr (.inr (.inr (.inr (.inl hu))))))), rfl⟩
  · cases hauth : d.auth with
    | none => simp [hauth] at h
    | some a =>
      rw [hauth] at h
      obtain ⟨b, hb, hmem⟩ := List.mem_flatMap.1 h
      rw [List.mem_singleton.1 hb] at hmem
      have hpart : ∃ u ∈ dictTexts a.secrets ++ dictTexts a.texts, t = f u := by
        rcases List.mem_append.1 hmem with hmem | hmem
        · obtain ⟨u, hu, rfl⟩ := dictTexts_mapDict hmem
          exact ⟨u, List.mem_append_left _ hu, rfl⟩
        · obtain ⟨u, hu, rfl⟩ := dictTexts_mapDict hmem
          exact ⟨u, List.mem_append_right _ hu, rfl⟩
      obtain ⟨u, hu, rfl⟩ := hpart
      refine ⟨u, .inr (.inr (.inr (.inr (.inr (.inr (.inr (.inr ?_))))))), rfl⟩
      exact List.mem_flatMap.2 ⟨a, List.mem_singleton_self a, hu⟩

/-- The loader of a plugin puts values in, and nothing of a package. -/
theorem unpackaged_load (src : Sources) (skillRoot : Text) {t : MarkedText} (h : Unpackaged t) :
    Unpackaged (expandText (src.loadResolver skillRoot) t) := by
  intro s hs
  rcases Finder.mem_replace hs with hs | ⟨r, v, hv, hs⟩
  · exact h s hs
  · unfold Sources.loadResolver at hv
    split at hv
    · cases hv
      exact unpackaged_mark skillRoot s hs
    · obtain ⟨value, -, rfl⟩ := Option.map_eq_some_iff.1 hv
      rw [origin_of_mem_mark hs]
      exact nofun

theorem dictTexts_validated (dict : List (MarkedText × MarkedText)) : dictTexts (validateSecretMap dict) ⊆ dictTexts dict :=
  fun _ ht => let ⟨p, hp, ht⟩ := List.mem_flatMap.1 ht
    List.mem_flatMap.2 ⟨p, List.mem_of_mem_filter hp, ht⟩

theorem texts_validated (d : ServerData Symbol) : d.validated.texts ⊆ d.texts := by
  intro t ht
  simp only [ServerData.texts, ServerData.validated, List.mem_append] at ht ⊢
  refine ht.imp id (Or.imp id (Or.imp id (Or.imp (fun h => dictTexts_validated _ h) (Or.imp id (Or.imp id (Or.imp id
    (Or.imp (fun h => dictTexts_validated _ h) fun h => ?_)))))))
  cases hauth : d.auth with
  | none => simp [hauth] at h
  | some a =>
    rw [hauth] at h
    obtain ⟨b, hb, hmem⟩ := List.mem_flatMap.1 h
    rw [List.mem_singleton.1 hb] at hmem
    refine List.mem_flatMap.2 ⟨a, List.mem_singleton_self a, ?_⟩
    rcases List.mem_append.1 hmem with hmem | hmem
    · exact List.mem_append_left _ (dictTexts_validated _ hmem)
    · exact List.mem_append_right _ hmem

end Texts

namespace MCPServer

theorem of_modelValidate {d : ServerData Symbol} {s : MCPServer} (h : modelValidate d = some s) :
    s.data = d.validated ∧ s.literalValues = false := by
  unfold modelValidate at h
  split at h
  · cases h
    exact ⟨rfl, rfl⟩
  · cases h

theorem modelValidate_data (s : MCPServer) : (modelValidate s.data).map data = some s.data := by
  have hv := s.valid.validated_eq
  rw [modelValidate, dif_pos (hv.symm ▸ s.valid)]
  exact congrArg some hv

end MCPServer

/-! ## Expansion -/

/-- A server of an agent, and for the statement what was declared and under which
name, and whether it was expanded since. -/
structure Entry where
  server : MCPServer
  declaredName : MarkedText
  declared : MCPServer
  expanded : Bool := false
deriving DecidableEq

/-- `AgentBase.mcp_config`, a dict by the characters of the names. -/
abbrev McpConfig := List (MarkedText × Entry)

/-- A server as it is declared. -/
def Entry.fresh (name : MarkedText) (s : MCPServer) : MarkedText × Entry := (name, ⟨s, name, s, false⟩)

/-- `coerce_mcp_config`: one server that does not pass fails all. -/
def coerceMcpConfig (pairs : List (MarkedText × Entry × ServerData Symbol)) : Option McpConfig :=
  pairs.mapM fun p => (MCPServer.modelValidate p.2.2).map fun s => (p.1, { p.2.1 with server := s, expanded := true })

/-- `expand_mcp_variables` on the servers that are not literal. -/
def expandable (ρ : Resolver) (servers : McpConfig) : List (MarkedText × Entry × ServerData Symbol) :=
  (servers.filter fun p => !p.2.server.literalValues).map fun p =>
    (expandText ρ p.1, p.2, p.2.server.data.mapTexts (expandText ρ))

/-- `expand_mcp_servers`; `none` is a `ValidationError`. -/
def expandMcpServers (ρ : Resolver) (servers : McpConfig) : Option McpConfig :=
  (coerceMcpConfig (labelUpdate chars [] (expandable ρ servers))).map (labelUpdate chars servers)

/-- The references that `expand_mcp_servers` replaces, each with the entry it is in. -/
def replacements (ρ : Resolver) (servers : McpConfig) : List (Entry × MarkedText) :=
  servers.flatMap fun p =>
    if p.2.server.literalValues then []
    else (p.1 :: p.2.server.data.texts).flatMap fun t => (replacedIn ρ t).map fun m => (p.2, m)

/-! ## Plugins -/

inductive Plugin where
  /-- A Claude plugin with the servers of its `.mcp.json`. -/
  | claudeCode (skillRoot : Text) (servers : List (Text × ServerData Char))
  /-- An Agent Plugins package; its loader has expanded its own two placeholders. -/
  | agentPlugins (servers : List (Text × ServerData Char))

namespace Plugin

/-- `Plugin.mcp_config`; a configuration that fails is left out. -/
def mcpConfig (src : Sources) : Plugin → McpConfig
  | claudeCode skillRoot servers =>
    let ρ := src.loadResolver skillRoot
    let expanded := servers.map fun p =>
      (expandText ρ (mark .declared p.1), (p.2.mark .declared).mapTexts (expandText ρ))
    let loaded := (labelUpdate chars [] expanded).mapM fun p => (MCPServer.modelValidate p.2).map fun s => Entry.fresh p.1 s
    loaded.getD []
  | agentPlugins servers =>
    labelUpdate chars [] (servers.filterMap fun p =>
      (MCPServer.modelValidate (p.2.mark .package)).map fun s => Entry.fresh (mark .package p.1) s.asLiteral)

/-- The references that are replaced while the plugin is loaded. -/
def replacements (src : Sources) : Plugin → List MarkedText
  | claudeCode skillRoot servers =>
    servers.flatMap fun p => (mark .declared p.1 :: (p.2.mark .declared).texts).flatMap (replacedIn (src.loadResolver skillRoot))
  | agentPlugins _ => []

/-- `add_mcp_config_to`. -/
def addMcpConfigTo (src : Sources) (servers : McpConfig) (p : Plugin) : McpConfig :=
  labelUpdate chars servers (p.mcpConfig src)

end Plugin

/-! ## The conversation -/

/-- The servers of an agent that a caller passes; those of packages are literal. -/
structure AgentServers where
  servers : List (Text × ServerData Char)
  packages : List (Text × ServerData Char) := []

/-- `none` where they cannot be built. -/
def AgentServers.mcpConfig (a : AgentServers) : Option McpConfig :=
  (a.servers.mapM fun p =>
    (MCPServer.modelValidate (p.2.mark .declared)).map fun s => Entry.fresh (mark .declared p.1) s).bind fun servers =>
  (a.packages.mapM fun p =>
    (MCPServer.modelValidate (p.2.mark .package)).map fun s => Entry.fresh (mark .package p.1) s.asLiteral).map fun packages =>
  labelUpdate chars [] (servers ++ packages)

structure Conversation where
  mcpConfig : McpConfig := []
  pluginsLoaded : Bool := false
  agentReady : Bool := false
  /-- The references that were replaced so far, for the statement. -/
  replaced : List MarkedText := []
  /-- The servers that were connected to. -/
  connected : McpConfig := []

inductive Action where
  /-- `_ensure_plugins_loaded`, with the plugins that it finds. -/
  | ensurePluginsLoaded (plugins : List Plugin)
  /-- The rest of `_ensure_agent_ready`. -/
  | ensureAgentReady
  | loadPlugin (plugin : Plugin)
  /-- The conversation goes on as its fork. -/
  | fork (agent : Option AgentServers)
  /-- The conversation goes on from its persisted state. -/
  | reload (agent : Option AgentServers)

namespace Conversation

variable (src : Sources) (cipher : Bool)

def enabledMcpServers (servers : McpConfig) : McpConfig := servers.filter fun p => p.2.server.data.enabled

/-- `model_dump` with its secrets and `model_validate`. -/
def reloadedConfig (servers : McpConfig) : McpConfig := servers.map fun p => (p.1, { p.2 with server := p.2.server.reloaded })

def redactedConfig (servers : McpConfig) : Option McpConfig :=
  servers.mapM fun p => p.2.server.redacted.map fun s => (p.1, { p.2 with server := s })

/-- The servers and those of the plugins, before they are expanded. -/
def merged (c : Conversation) (plugins : List Plugin) : McpConfig :=
  plugins.foldl (Plugin.addMcpConfigTo src) c.mcpConfig

def ensurePluginsLoaded (c : Conversation) (plugins : List Plugin) : Conversation :=
  let merged := c.merged src plugins
  let c := { c with replaced := c.replaced ++ plugins.flatMap (Plugin.replacements src) ++
    (replacements src.resolver merged).map Prod.snd }
  match expandMcpServers src.resolver merged with
  | none => c
  | some mcpConfig => { c with mcpConfig, pluginsLoaded := true }

def loadPlugin (c : Conversation) (plugin : Plugin) : Conversation :=
  let own := plugin.mcpConfig src
  let merged := c.merged src [plugin]
  let c := { c with replaced := c.replaced ++ plugin.replacements src ++
    (replacements src.resolver own ++ replacements src.resolver merged).map Prod.snd }
  match expandMcpServers src.resolver own, expandMcpServers src.resolver merged with
  | some runtime, some mcpConfig =>
    { c with
      mcpConfig
      connected := c.connected ++ (if c.agentReady then enabledMcpServers runtime else []) }
  | _, _ => c

/-- The servers of the agent that `fork` copies, which is the source's if none is passed. -/
def forkServers (c : Conversation) : Option AgentServers → Option McpConfig
  | none => some (reloadedConfig c.mcpConfig)
  | some a => a.mcpConfig.map reloadedConfig

/-- The servers of the agent in `base_state.json`, or of the one that the caller passes. -/
def resumeServers (c : Conversation) : Option AgentServers → Option McpConfig
  | none => if cipher then some (reloadedConfig c.mcpConfig) else redactedConfig c.mcpConfig
  | some a => a.mcpConfig

def step (c : Conversation) : Action → Option Conversation
  | .ensurePluginsLoaded plugins => if c.pluginsLoaded then none else some (ensurePluginsLoaded src c plugins)
  | .ensureAgentReady =>
    if c.pluginsLoaded ∧ c.agentReady = false then
      some { c with agentReady := true, connected := c.connected ++ enabledMcpServers c.mcpConfig }
    else none
  | .loadPlugin plugin => if c.pluginsLoaded then some (loadPlugin src c plugin) else none
  | .fork agent => (c.forkServers agent).map fun mcpConfig =>
    { c with mcpConfig, pluginsLoaded := false, agentReady := false }
  | .reload agent => (c.resumeServers cipher agent).map fun mcpConfig =>
    { c with mcpConfig, pluginsLoaded := false, agentReady := false }

/-! ## Placeholders are expanded once -/

/-- What is connected to under a name is what was declared, expanded at most once. -/
def Settled (ρ : Resolver) (p : MarkedText × Entry) : Prop :=
  if p.2.declared.literalValues then p.2.server.data = p.2.declared.data
  else if p.2.expanded then
    p.1 = expandText ρ p.2.declaredName ∧
      (MCPServer.modelValidate (p.2.declared.data.mapTexts (expandText ρ))).map MCPServer.data = some p.2.server.data
  -- A server whose name is expanded stays under its old name, too, as it is.
  else p.2.server.data = p.2.declared.data ∧ p.1 = p.2.declaredName ∧ chars (expandText ρ p.1) ≠ chars p.1

structure Sound (c : Conversation) : Prop where
  /-- No symbol of a secret, an environment value or a package was part of a
  reference that was replaced. -/
  once : ∀ m ∈ c.replaced, ∀ s ∈ m, s.origin = .declared
  same : ∀ p ∈ c.connected, Settled src.resolver p

/-- A server to expand that has a reference to resolve was not expanded before and is no package's, and
no value has come to stand in the reference. -/
def Entry.Expandable (ρ : Resolver) (p : MarkedText × Entry) : Prop :=
  p.2.server.literalValues = false → ∀ t ∈ p.1 :: p.2.server.data.texts, ∀ m ∈ replacedIn ρ t,
    p.2.expanded = false ∧ p.2.declared.literalValues = false ∧ ∀ s ∈ m, s.origin ≠ .value

instance Entry.Expandable.decidable (ρ : Resolver) (p : MarkedText × Entry) : Decidable (Entry.Expandable ρ p) :=
  inferInstanceAs (Decidable (_ → ∀ _ ∈ _, _))

/-- The servers may be expanded. -/
def Clean (ρ : Resolver) (servers : McpConfig) : Prop := ∀ p ∈ servers, Entry.Expandable ρ p

instance Clean.decidable (ρ : Resolver) (servers : McpConfig) : Decidable (Clean ρ servers) :=
  inferInstanceAs (Decidable (∀ _ ∈ _, _))

/-- Nothing is lost in a dump without secrets. -/
def NoSecrets (servers : McpConfig) : Prop :=
  ∀ p ∈ servers, p.2.server.data.env = [] ∧ p.2.server.data.headers = [] ∧ ∀ a ∈ p.2.server.data.auth, a.secrets = []

instance NoSecrets.decidable (servers : McpConfig) : Decidable (NoSecrets servers) :=
  inferInstanceAs (Decidable (∀ _ ∈ _, _))

/-- Where servers are expanded, none with a reference to resolve was expanded before or
is a package's, and no value stands in the reference; a reload has a cipher, an agent of
the caller, or no secrets to lose. -/
def Allowed (c : Conversation) : Action → Prop
  | .ensurePluginsLoaded plugins => Clean src.resolver (c.merged src plugins)
  | .loadPlugin plugin => Clean src.resolver (plugin.mcpConfig src) ∧ Clean src.resolver (c.merged src [plugin])
  | .reload agent => agent = none → cipher = false → NoSecrets c.mcpConfig
  | .ensureAgentReady | .fork _ => True

instance Allowed.decidable (c : Conversation) (a : Action) : Decidable (Allowed src cipher c a) := by
  cases a <;> unfold Allowed <;> infer_instance

/-! ## Entries -/

/-- What is known of an entry between two expansions. -/
structure EntryOk (ρ : Resolver) (p : MarkedText × Entry) : Prop where
  literal : p.2.server.literalValues = true → p.2.declared.literalValues = true
  package : p.2.declared.literalValues = true →
    p.2.server.data = p.2.declared.data ∧ p.2.declared.data.From .package
  fresh : p.2.declared.literalValues = false → p.2.expanded = false →
    p.2.server.data = p.2.declared.data ∧ p.1 = p.2.declaredName
  expanded : p.2.declared.literalValues = false → p.2.expanded = true → p.1 = expandText ρ p.2.declaredName ∧
    (MCPServer.modelValidate (p.2.declared.data.mapTexts (expandText ρ))).map MCPServer.data = some p.2.server.data
  unpackaged : p.2.declared.literalValues = false → ∀ t ∈ p.2.declaredName :: p.2.declared.data.texts, Unpackaged t

section Entries
variable {ρ : Resolver} {servers : McpConfig}

theorem EntryOk.settled {p : MarkedText × Entry} (h : EntryOk ρ p) (hexpanded : p.2.expanded = true) : Settled ρ p := by
  unfold Settled
  split
  · exact (h.package ‹_›).1
  · rename_i hdeclared
    exact h.expanded (by simpa using hdeclared) hexpanded

/-- An entry that a caller or a plugin brings in. -/
theorem entryOk_fresh {name : MarkedText} {s : MCPServer} (h : s.literalValues = true → s.data.From .package)
    (hown : s.literalValues = false → ∀ t ∈ name :: s.data.texts, Unpackaged t) : EntryOk ρ (Entry.fresh name s) :=
  ⟨id, fun hliteral => ⟨rfl, h hliteral⟩, fun _ _ => ⟨rfl, rfl⟩, nofun, hown⟩

/-- What is replaced in a clean expansion stands in a declaration. -/
theorem EntryOk.declared {p : MarkedText × Entry} (h : EntryOk ρ p) (hexpandable : Entry.Expandable ρ p)
    (hliteral : p.2.server.literalValues = false) {t m : MarkedText} (ht : t ∈ p.1 :: p.2.server.data.texts)
    (hm : m ∈ replacedIn ρ t) : ∀ s ∈ m, s.origin = .declared := by
  intro s hs
  obtain ⟨hfresh, hdeclared, hvalue⟩ := hexpandable hliteral t ht m hm
  obtain ⟨hdata, hname⟩ := h.fresh hdeclared hfresh
  rw [hdata, hname] at ht
  have hst : s ∈ t := (Finder.mem_replaced hm).2 hs
  cases horigin : s.origin with
  | declared => rfl
  | value => exact absurd horigin (hvalue s hs)
  | package => exact absurd horigin (h.unpackaged hdeclared t ht s hst)

/-- What a clean expansion makes of an expandable entry. -/
theorem EntryOk.expand {n : MarkedText} {e : Entry} (hexpandable : Entry.Expandable ρ (n, e)) (h : EntryOk ρ (n, e))
    (hliteral : e.server.literalValues = false) {s : MCPServer}
    (hs : MCPServer.modelValidate (e.server.data.mapTexts (expandText ρ)) = some s) :
    EntryOk ρ (expandText ρ n, { e with server := s, expanded := true }) := by
  obtain ⟨-, hfalse⟩ := MCPServer.of_modelValidate hs
  -- Where nothing is replaced the name and the data stay.
  have hstays : (∀ t ∈ e.server.data.texts, replacedIn ρ t = []) → s.data = e.server.data := by
    intro hnone
    have hsame := ServerData.mapTexts_eq_self (fun t ht => Finder.replace_eq_self (hnone t ht)) e.server.valid
    rw [show (e.server.data.mapTexts (expandText ρ)) = e.server.data from hsame] at hs
    have hdata := MCPServer.modelValidate_data e.server
    rw [hs] at hdata
    exact Option.some.inj hdata
  refine ⟨fun htrue => ?_, fun hdeclared => ?_, nofun, fun hdeclared _ => ?_, h.unpackaged⟩
  · rw [hfalse] at htrue
    cases htrue
  · obtain ⟨hdata, hfrom⟩ := h.package hdeclared
    refine ⟨?_, hfrom⟩
    rw [← hdata]
    refine hstays fun t ht => List.eq_nil_iff_forall_not_mem.2 fun m hm => ?_
    have hown := (hexpandable hliteral t (List.mem_cons_of_mem _ ht) m hm).2.1
    rw [hdeclared] at hown
    cases hown
  · cases hexpanded : e.expanded with
    | false =>
      obtain ⟨hdata, hname⟩ := h.fresh hdeclared hexpanded
      refine ⟨by rw [← hname], ?_⟩
      show (MCPServer.modelValidate (e.declared.data.mapTexts (expandText ρ))).map MCPServer.data = some s.data
      rw [← hdata, hs]
      rfl
    | true =>
      obtain ⟨hname, hdata⟩ := h.expanded hdeclared hexpanded
      have hnone : ∀ t ∈ n :: e.server.data.texts, replacedIn ρ t = [] := by
        intro t ht
        refine List.eq_nil_iff_forall_not_mem.2 fun m hm => ?_
        have hfresh := (hexpandable hliteral t ht m hm).1
        rw [hexpanded] at hfresh
        cases hfresh
      have hn : expandText ρ n = n := Finder.replace_eq_self (hnone n List.mem_cons_self)
      refine ⟨hn.trans hname, ?_⟩
      show (MCPServer.modelValidate (e.declared.data.mapTexts (expandText ρ))).map MCPServer.data = some s.data
      rw [hstays fun t ht => hnone t (List.mem_cons_of_mem _ ht)]
      exact hdata

theorem coerceMcpConfig_spec {pairs : List (MarkedText × Entry × ServerData Symbol)} {coerced : McpConfig}
    (h : coerceMcpConfig pairs = some coerced) :
    List.Forall₂ (fun q p => ∃ s, MCPServer.modelValidate q.2.2 = some s ∧ p = (q.1, { q.2.1 with server := s, expanded := true }))
      pairs coerced := by
  refine forall_of_mapM (fun q p hqp => ?_) h
  obtain ⟨s, hs, rfl⟩ := Option.map_eq_some_iff.1 hqp
  exact ⟨s, hs, rfl⟩

theorem keys_coerceMcpConfig {pairs : List (MarkedText × Entry × ServerData Symbol)} {coerced : McpConfig}
    (h : coerceMcpConfig pairs = some coerced) : coerced.map (fun p => chars p.1) = pairs.map (fun p => chars p.1) := by
  have hall := coerceMcpConfig_spec h
  clear h
  induction hall with
  | nil => rfl
  | cons hqp _ ih =>
    obtain ⟨s, -, rfl⟩ := hqp
    exact congrArg _ ih

/-- A clean expansion settles every entry. -/
theorem entries_expandMcpServers (hclean : Clean ρ servers) (hok : ∀ p ∈ servers, EntryOk ρ p) {result : McpConfig}
    (h : expandMcpServers ρ servers = some result) : ∀ p ∈ result, EntryOk ρ p ∧ Settled ρ p := by
  obtain ⟨coerced, hc, rfl⟩ := Option.map_eq_some_iff.1 h
  intro p hp
  rcases mem_labelUpdate hp with hnew | ⟨hold, hother⟩
  · obtain ⟨q, hq, s, hs, rfl⟩ := exists_of_forall₂ (coerceMcpConfig_spec hc) hnew
    rcases mem_labelUpdate hq with hq | ⟨hq, -⟩
    · obtain ⟨r, hr, rfl⟩ := List.mem_map.1 hq
      obtain ⟨hr, hliteral⟩ := List.mem_filter.1 hr
      have hentry := (hok r hr).expand (hclean r hr) (by simpa using hliteral) hs
      exact ⟨hentry, hentry.settled rfl⟩
    · cases hq
  · have hentry := hok p hold
    refine ⟨hentry, ?_⟩
    cases hexpanded : p.2.expanded with
    | true => exact hentry.settled hexpanded
    | false =>
      unfold Settled
      split
      · exact (hentry.package ‹_›).1
      · rename_i hdeclared
        have hdeclared : p.2.declared.literalValues = false := by simpa using hdeclared
        obtain ⟨hdata, hname⟩ := hentry.fresh hdeclared hexpanded
        rw [if_neg (by simp [hexpanded])]
        refine ⟨hdata, hname, fun hsame => ?_⟩
        -- An expandable entry that keeps its name is replaced by what it expands to.
        have hliteral : p.2.server.literalValues = false := by
          cases hl : p.2.server.literalValues with
          | false => rfl
          | true => rw [hentry.literal hl] at hdeclared; cases hdeclared
        have hkey : chars (expandText ρ p.1) ∈ coerced.map (fun p => chars p.1) := by
          rw [keys_coerceMcpConfig hc]
          refine keys_labelUpdate (.inl ?_)
          rw [expandable, List.map_map]
          exact List.mem_map.2 ⟨p, List.mem_filter.2 ⟨hold, by simp [hliteral]⟩, rfl⟩
        obtain ⟨q, hq, heq⟩ := List.mem_map.1 hkey
        exact hother q hq (hsame.symm.trans heq.symm)

theorem entries_labelUpdate {new : McpConfig} (hok : ∀ p ∈ servers, EntryOk ρ p) (hnew : ∀ p ∈ new, EntryOk ρ p) :
    ∀ p ∈ labelUpdate chars servers new, EntryOk ρ p := by
  intro p hp
  rcases mem_labelUpdate hp with hp | ⟨hp, -⟩
  · exact hnew p hp
  · exact hok p hp

theorem entryOk_declared {name : MarkedText} {s : MCPServer} {d : ServerData Symbol}
    (hs : MCPServer.modelValidate d = some s) (hown : ∀ t ∈ name :: d.texts, Unpackaged t) :
    EntryOk ρ (Entry.fresh name s) := by
  obtain ⟨hdata, hfalse⟩ := MCPServer.of_modelValidate hs
  refine entryOk_fresh (fun hliteral => ?_) fun _ t ht => hown t ?_
  · rw [hfalse] at hliteral
    cases hliteral
  · rw [hdata] at ht
    exact List.cons_subset_cons _ (texts_validated d) ht

theorem entryOk_package {name : MarkedText} {s : MCPServer} {d : ServerData Char}
    (hs : MCPServer.modelValidate (d.mark .package) = some s) : EntryOk ρ (Entry.fresh name s.asLiteral) := by
  refine entryOk_fresh (fun _ t ht => ?_) fun hfalse => by cases hfalse
  have hdata : s.asLiteral.data = (d.mark .package).validated := (MCPServer.of_modelValidate hs).1
  rw [hdata] at ht
  exact from_mark d t (texts_validated _ ht)

theorem entries_plugin (plugin : Plugin) : ∀ p ∈ plugin.mcpConfig src, EntryOk ρ p := by
  intro p hp
  cases plugin with
  | claudeCode skillRoot servers =>
    simp only [Plugin.mcpConfig] at hp
    cases hloaded : (labelUpdate chars [] (servers.map fun p => (expandText (src.loadResolver skillRoot) (mark .declared p.1),
        (p.2.mark .declared).mapTexts (expandText (src.loadResolver skillRoot))))).mapM
          fun p => (MCPServer.modelValidate p.2).map fun s => Entry.fresh p.1 s with
    | none =>
      rw [hloaded] at hp
      cases hp
    | some loaded =>
      rw [hloaded] at hp
      obtain ⟨q, hmem, hq⟩ := mem_of_mapM hloaded hp
      obtain ⟨s, hs, rfl⟩ := Option.map_eq_some_iff.1 hq
      refine entryOk_declared hs ?_
      rcases mem_labelUpdate hmem with hmem | ⟨hmem, -⟩
      · obtain ⟨r, -, rfl⟩ := List.mem_map.1 hmem
        intro t ht
        rcases List.mem_cons.1 ht with rfl | ht
        · exact unpackaged_load src skillRoot (unpackaged_mark r.1)
        · obtain ⟨u, hu, rfl⟩ := texts_mapTexts ht
          exact unpackaged_load src skillRoot (unpackaged_declared r.2 u hu)
      · cases hmem
  | agentPlugins servers =>
    rcases mem_labelUpdate hp with hp | ⟨hp, -⟩
    · obtain ⟨q, -, hq⟩ := List.mem_filterMap.1 hp
      obtain ⟨s, hs, rfl⟩ := Option.map_eq_some_iff.1 hq
      exact entryOk_package hs
    · cases hp

theorem entries_merged {c : Conversation} (hok : ∀ p ∈ c.mcpConfig, EntryOk ρ p) (plugins : List Plugin) :
    ∀ p ∈ c.merged src plugins, EntryOk ρ p := by
  unfold merged
  generalize c.mcpConfig = servers at hok
  induction plugins generalizing servers with
  | nil => exact hok
  | cons plugin plugins ih => exact ih _ (entries_labelUpdate hok (entries_plugin src plugin))

theorem entries_agentServers {a : AgentServers} (h : a.mcpConfig = some servers) : ∀ p ∈ servers, EntryOk ρ p := by
  unfold AgentServers.mcpConfig at h
  obtain ⟨own, hown, h⟩ := Option.bind_eq_some_iff.1 h
  obtain ⟨packages, hpackages, rfl⟩ := Option.map_eq_some_iff.1 h
  refine entries_labelUpdate (List.forall_mem_nil _) fun p hp => ?_
  rcases List.mem_append.1 hp with hp | hp
  · obtain ⟨q, -, hq⟩ := mem_of_mapM hown hp
    obtain ⟨s, hs, rfl⟩ := Option.map_eq_some_iff.1 hq
    exact entryOk_declared hs (List.forall_mem_cons.2 ⟨unpackaged_mark q.1, unpackaged_declared q.2⟩)
  · obtain ⟨q, -, hq⟩ := mem_of_mapM hpackages hp
    obtain ⟨s, hs, rfl⟩ := Option.map_eq_some_iff.1 hq
    exact entryOk_package hs

/-- Only the mark of a package is lost in a dump. -/
theorem EntryOk.ofData {name : MarkedText} {e : Entry} (h : EntryOk ρ (name, e)) {s : MCPServer} (hs : s.data = e.server.data)
    (hliteral : s.literalValues = false) : EntryOk ρ (name, { e with server := s }) := by
  refine ⟨fun htrue => ?_, fun hdeclared => ?_, fun hdeclared hfresh => ?_, fun hdeclared hexpanded => ?_,
    h.unpackaged⟩
  · rw [hliteral] at htrue
    cases htrue
  · exact ⟨hs.trans (h.package hdeclared).1, (h.package hdeclared).2⟩
  · exact ⟨hs.trans (h.fresh hdeclared hfresh).1, (h.fresh hdeclared hfresh).2⟩
  · obtain ⟨hname, hdata⟩ := h.expanded hdeclared hexpanded
    exact ⟨hname, hdata.trans (congrArg some hs.symm)⟩

theorem entries_reloaded (hok : ∀ p ∈ servers, EntryOk ρ p) : ∀ p ∈ reloadedConfig servers, EntryOk ρ p := by
  intro p hp
  obtain ⟨⟨name, e⟩, hq, rfl⟩ := List.mem_map.1 hp
  exact (hok _ hq).ofData rfl rfl

theorem redacted_eq_self {d : ServerData Symbol} (henv : d.env = []) (hheaders : d.headers = [])
    (hauth : ∀ a ∈ d.auth, a.secrets = []) :
    ({ d with env := [], headers := [], auth := d.auth.map fun a => { a with secrets := [] } } : ServerData Symbol) = d := by
  obtain ⟨url, transport, command, args, env, cwd, description, icon, headers, auth, enabled⟩ := d
  have hcred : (auth.map fun a => ({ a with secrets := [] } : AuthCredential Symbol)) = auth := by
    cases auth with
    | none => rfl
    | some a => rw [Option.map_some, ← hauth a rfl]
  simp only at henv hheaders
  rw [hcred, henv, hheaders]

theorem entries_redacted (hok : ∀ p ∈ servers, EntryOk ρ p) (hnone : NoSecrets servers) {config : McpConfig}
    (h : redactedConfig servers = some config) : ∀ p ∈ config, EntryOk ρ p := by
  intro p hp
  obtain ⟨⟨name, e⟩, hq, hpq⟩ := mem_of_mapM h hp
  obtain ⟨s, hs, rfl⟩ := Option.map_eq_some_iff.1 hpq
  obtain ⟨henv, hheaders, hauth⟩ := hnone _ hq
  have hsame := redacted_eq_self henv hheaders hauth
  rw [MCPServer.redacted, hsame] at hs
  have hdata := MCPServer.modelValidate_data e.server
  rw [hs] at hdata
  exact (hok _ hq).ofData (Option.some.inj hdata) (MCPServer.of_modelValidate hs).2

theorem entries_forkServers {c : Conversation} (hok : ∀ p ∈ c.mcpConfig, EntryOk ρ p) {agent : Option AgentServers}
    (h : c.forkServers agent = some servers) : ∀ p ∈ servers, EntryOk ρ p := by
  cases agent with
  | none =>
    cases h
    exact entries_reloaded hok
  | some a =>
    obtain ⟨own, hown, rfl⟩ := Option.map_eq_some_iff.1 h
    exact entries_reloaded (entries_agentServers hown)

theorem entries_resumeServers {cipher : Bool} {c : Conversation} (hok : ∀ p ∈ c.mcpConfig, EntryOk ρ p)
    {agent : Option AgentServers} (hnone : agent = none → cipher = false → NoSecrets c.mcpConfig)
    (h : c.resumeServers cipher agent = some servers) : ∀ p ∈ servers, EntryOk ρ p := by
  cases agent with
  | some a => exact entries_agentServers h
  | none =>
    cases cipher with
    | true =>
      cases h
      exact entries_reloaded hok
    | false => exact entries_redacted hok (hnone rfl rfl) h

end Entries

/-! ## Runs -/

structure Consistent (c : Conversation) : Prop where
  entries : ∀ p ∈ c.mcpConfig, EntryOk src.resolver p
  loaded : c.pluginsLoaded = true → ∀ p ∈ c.mcpConfig, Settled src.resolver p
  sound : c.Sound src

section Runs
variable {src : Sources} {cipher : Bool} {c : Conversation}

/-- A plugin is loaded from its own text only. -/
theorem declared_of_mem_replacements {plugin : Plugin} {m : MarkedText} (h : m ∈ plugin.replacements src) :
    ∀ s ∈ m, s.origin = .declared := by
  cases plugin with
  | claudeCode skillRoot servers =>
    obtain ⟨p, -, hp⟩ := List.mem_flatMap.1 h
    obtain ⟨t, ht, hm⟩ := List.mem_flatMap.1 hp
    intro s hs
    have hst : s ∈ t := (Finder.mem_replaced hm).2 hs
    rcases List.mem_cons.1 ht with rfl | ht
    · exact origin_of_mem_mark hst
    · exact from_mark p.2 t ht s hst
  | agentPlugins servers => cases h

theorem Clean.declared {servers : McpConfig} {ρ : Resolver} (h : Clean ρ servers) (hok : ∀ p ∈ servers, EntryOk ρ p)
    {m : MarkedText} (hm : m ∈ (replacements ρ servers).map Prod.snd) : ∀ s ∈ m, s.origin = .declared := by
  obtain ⟨r, hr, rfl⟩ := List.mem_map.1 hm
  obtain ⟨p, hp, hr⟩ := List.mem_flatMap.1 hr
  cases hliteral : p.2.server.literalValues with
  | true => simp [hliteral] at hr
  | false =>
    rw [hliteral, if_neg Bool.false_ne_true] at hr
    obtain ⟨t, ht, hr⟩ := List.mem_flatMap.1 hr
    obtain ⟨m, hreplaced, rfl⟩ := List.mem_map.1 hr
    exact (hok p hp).declared (h p hp) hliteral ht hreplaced

theorem Consistent.ensurePluginsLoaded (hc : c.Consistent src) {plugins : List Plugin}
    (hclean : Clean src.resolver (c.merged src plugins)) : (c.ensurePluginsLoaded src plugins).Consistent src := by
  have honce : ∀ m ∈ c.replaced ++ plugins.flatMap (Plugin.replacements src) ++
      (replacements src.resolver (c.merged src plugins)).map Prod.snd, ∀ s ∈ m, s.origin = .declared := by
    intro m hm
    rcases List.mem_append.1 hm with hm | hm
    · rcases List.mem_append.1 hm with hm | hm
      · exact hc.sound.once m hm
      · obtain ⟨plugin, -, hm⟩ := List.mem_flatMap.1 hm
        exact declared_of_mem_replacements hm
    · exact hclean.declared (entries_merged src hc.entries plugins) hm
  unfold Conversation.ensurePluginsLoaded
  dsimp only
  split
  · exact ⟨hc.entries, hc.loaded, honce, hc.sound.same⟩
  · rename_i mcpConfig hconfig
    have hentries := entries_expandMcpServers hclean (entries_merged src hc.entries plugins) hconfig
    exact ⟨fun p hp => (hentries p hp).1, fun _ p hp => (hentries p hp).2, honce, hc.sound.same⟩

theorem settled_connected {old new : McpConfig} {ρ : Resolver} (hold : ∀ p ∈ old, Settled ρ p) (hnew : ∀ p ∈ new, Settled ρ p) :
    ∀ p ∈ old ++ enabledMcpServers new, Settled ρ p := by
  intro p hp
  rcases List.mem_append.1 hp with hp | hp
  · exact hold p hp
  · exact hnew p (List.mem_of_mem_filter hp)

theorem Consistent.loadPlugin (hc : c.Consistent src) {plugin : Plugin} (hown : Clean src.resolver (plugin.mcpConfig src))
    (hclean : Clean src.resolver (c.merged src [plugin])) : (c.loadPlugin src plugin).Consistent src := by
  have honce : ∀ m ∈ c.replaced ++ plugin.replacements src ++ (replacements src.resolver (plugin.mcpConfig src) ++
      replacements src.resolver (c.merged src [plugin])).map Prod.snd, ∀ s ∈ m, s.origin = .declared := by
    intro m hm
    rcases List.mem_append.1 hm with hm | hm
    · rcases List.mem_append.1 hm with hm | hm
      · exact hc.sound.once m hm
      · exact declared_of_mem_replacements hm
    · rw [List.map_append, List.mem_append] at hm
      rcases hm with hm | hm
      · exact hown.declared (entries_plugin src plugin) hm
      · exact hclean.declared (entries_merged src hc.entries [plugin]) hm
  unfold Conversation.loadPlugin
  dsimp only
  split
  · rename_i runtime mcpConfig hruntime hconfig
    have hentries := entries_expandMcpServers hclean (entries_merged src hc.entries [plugin]) hconfig
    have hconnect := entries_expandMcpServers hown (entries_plugin src plugin) hruntime
    refine ⟨fun p hp => (hentries p hp).1, fun _ p hp => (hentries p hp).2, honce, ?_⟩
    dsimp only
    split
    · exact settled_connected hc.sound.same fun p hp => (hconnect p hp).2
    · rw [List.append_nil]
      exact hc.sound.same
  · exact ⟨hc.entries, hc.loaded, honce, hc.sound.same⟩

theorem Consistent.step {c' : Conversation} {a : Action} (hc : c.Consistent src) (hok : c.Allowed src cipher a)
    (h : c.step src cipher a = some c') : c'.Consistent src := by
  cases a with
  | ensurePluginsLoaded plugins =>
    simp only [Conversation.step] at h
    split at h
    · cases h
    · cases h
      exact hc.ensurePluginsLoaded hok
  | ensureAgentReady =>
    simp only [Conversation.step] at h
    split at h
    · rename_i hready
      cases h
      exact ⟨hc.entries, hc.loaded, hc.sound.once, settled_connected hc.sound.same (hc.loaded hready.1)⟩
    · cases h
  | loadPlugin plugin =>
    simp only [Conversation.step] at h
    split at h
    · cases h
      exact hc.loadPlugin hok.1 hok.2
    · cases h
  | fork agent =>
    obtain ⟨servers, hservers, rfl⟩ := Option.map_eq_some_iff.1 h
    exact ⟨entries_forkServers hc.entries hservers, nofun, hc.sound.once, hc.sound.same⟩
  | reload agent =>
    obtain ⟨servers, hservers, rfl⟩ := Option.map_eq_some_iff.1 h
    exact ⟨entries_resumeServers hc.entries hok hservers, nofun, hc.sound.once, hc.sound.same⟩

/-- A conversation with the servers of its agent. -/
def start (mcpConfig : McpConfig) : Conversation := { mcpConfig }

end Runs

/-- One secret and no environment. -/
def oneSecret : Sources where
  getSecret name := if name = "TOKEN".toList then some "s3cret".toList else none
  environ _ := none

def stdioServer (arg : String) : ServerData Char :=
  { transport := some .stdio, command := some "run".toList, args := some [arg.toList] }

end Conversation

end AgentSdk.McpPlaceholders
