import AgentSdk.Lib.JsonSchema
/-!
# Tool schemas

The model is shown a simplified schema of a tool's parameters: references are
replaced by what they refer to and an `anyOf` by one of its branches. Here is
which values the simplified schema accepts.
-/

namespace AgentSdk.ToolSchema
open Lib

variable {F : Type}

/-! ## Processing a schema -/

def objectType : TypeKeyword := .name "object".toList

def arrayType : TypeKeyword := .name "array".toList

def nullType : TypeKeyword := .name "null".toList

def shallowExpandCircularRef : JsonSchema F → SchemaNode F
  | .node refDef => { type := some objectType, description := refDef.description }
  | .bool _ => { type := some objectType }

/-- `ref_path.split("/")[-1]` -/
def refName (refPath : Text) : Text := (refPath.reverse.takeWhile (· ≠ '/')).reverse

/-- The definition that processing replaces a reference by. -/
def resolve (defs : Defs F) (node : SchemaNode F) : Option (Text × JsonSchema F) :=
  match node.ref with
  | some refPath =>
    if definitionsPath <+: refPath then (dictGet defs (refName refPath)).map fun d => (refName refPath, d) else none
  | none => none

/-- The members of an `anyOf` that are `true` or an object not of type `null`. -/
def nonNullTypes (members : List (Option (JsonSchema F))) : List (JsonSchema F) :=
  members.filterMap fun
    | some (.bool true) => some (.bool true)
    | some (.node t) => if t.type = some nullType then none else some (.node t)
    | some (.bool false) => none
    | none => none

def isFalse : Option (JsonSchema F) → Bool
  | some (.bool false) => true
  | _ => false

/-- The member of an `anyOf` that is processed. -/
def chosen (members : List (Option (JsonSchema F))) : Option (JsonSchema F) :=
  match nonNullTypes members with
  | t :: _ => some t
  | [] => if members.any isFalse then some (.bool false) else none

/-- The definitions not being processed yet. -/
def unvisited (defs : Defs F) (visiting : List Text) : List (Text × JsonSchema F) :=
  defs.filter fun d => d.1 ∉ visiting

theorem resolve_mem {defs : Defs F} {node : SchemaNode F} {name : Text} {d : JsonSchema F}
    (h : resolve defs node = some (name, d)) : (name, d) ∈ defs := by
  unfold resolve at h
  split at h
  · split at h
    · obtain ⟨_, hd, heq⟩ := Option.map_eq_some_iff.mp h
      obtain ⟨rfl, rfl⟩ := Prod.mk.inj heq
      exact mem_of_dictGet hd
    · cases h
  · cases h

theorem unvisited_lt {defs : Defs F} {visiting : List Text} {name : Text} {d : JsonSchema F}
    (h : (name, d) ∈ defs) (hv : name ∉ visiting) :
    (unvisited defs (name :: visiting)).length < (unvisited defs visiting).length := by
  have hsub : (unvisited defs (name :: visiting)).length ≤
      ((unvisited defs visiting).filter fun e => e.1 ≠ name).length := by
    rw [unvisited, unvisited, List.filter_filter]
    exact le_of_eq (congrArg List.length (List.filter_congr fun e _ => by simp [not_or]))
  refine hsub.trans_lt (List.length_filter_lt_length_iff_exists.mpr ⟨(name, d), ?_, by simp⟩)
  exact List.mem_filter.mpr ⟨h, by simpa using hv⟩

theorem chosen_mem {members : List (Option (JsonSchema F))} {t : JsonSchema F} (h : chosen members = some t) :
    some t ∈ members := by
  unfold chosen at h
  split at h
  · rename_i t' ts heq
    obtain rfl := Option.some.inj h
    have hmem : t' ∈ nonNullTypes members := by simp [heq]
    obtain ⟨m, hm, hmt⟩ := List.mem_filterMap.mp hmem
    cases m with
    | none => cases hmt
    | some s =>
      cases s with
      | bool b =>
        cases b with
        | true => obtain rfl := Option.some.inj hmt; exact hm
        | false => cases hmt
      | node k =>
        simp only at hmt
        split at hmt
        · cases hmt
        · obtain rfl := Option.some.inj hmt; exact hm
  · split at h
    · rename_i hany
      obtain rfl := Option.some.inj h
      obtain ⟨m, hm, hf⟩ := List.any_eq_true.mp hany
      cases m with
      | none => simp [isFalse] at hf
      | some s =>
        cases s with
        | bool b => cases b with
          | false => exact hm
          | true => simp [isFalse] at hf
        | node k => simp [isFalse] at hf
    · cases h

def processSchemaNode (defs : Defs F) (visiting : List Text) :
    JsonSchema F → SchemaNode F
  | .bool true => {}
  | .bool false => { never := true }
  | .node node =>
    match resolved : resolve defs node with
    | some (name, refDef) =>
      if name ∈ visiting then shallowExpandCircularRef refDef
      else processSchemaNode defs (name :: visiting) refDef
    | none =>
      let processed : SchemaNode F :=
        match _branch : node.anyOf.bind chosen with
        | some t => processSchemaNode defs visiting t
        | none => {}
      let result := { processed with
        type := processed.type <|> node.type
        description := node.description <|> processed.description }
      let result :=
        match _listed : node.properties with
        | some properties =>
          if node.type = some objectType then
            { result with
              type := some objectType
              properties := some (properties.map fun p : Text × JsonSchema F => (p.1, .node (processSchemaNode defs visiting p.2)))
              required := node.required <|> result.required }
          else result
        | none => result
      let result :=
        match _elements : node.items with
        | some items =>
          if node.type = some arrayType then
            { result with type := some arrayType, items := some (.node (processSchemaNode defs visiting items)) }
          else result
        | none => result
      { result with enum := node.enum <|> result.enum }
termination_by s => ((unvisited defs visiting).length, sizeOf s)
decreasing_by
  · exact Prod.Lex.left _ _ (unvisited_lt (resolve_mem resolved) (by assumption))
  · obtain ⟨members, hm, hc⟩ := Option.bind_eq_some_iff.mp _branch
    exact Prod.Lex.right _ (Part.member hm (chosen_mem hc)).size
  · exact Prod.Lex.right _ (Part.property _listed (by assumption)).size
  · exact Prod.Lex.right _ (Part.items _elements).size

section
variable {defs : Defs F} {visiting : List Text} {node : SchemaNode F}

theorem process_circular {name : Text} {d : JsonSchema F} (h : resolve defs node = some (name, d)) (hv : name ∈ visiting) :
    processSchemaNode defs visiting (.node node) = shallowExpandCircularRef d := by
  rw [processSchemaNode]
  split
  · rename_i name' d' h'
    obtain ⟨rfl, rfl⟩ := Prod.mk.inj (Option.some.inj (h.symm.trans h'))
    rw [if_pos hv]
  · rename_i h'
    cases h.symm.trans h'

theorem process_follow {name : Text} {d : JsonSchema F} (h : resolve defs node = some (name, d)) (hv : name ∉ visiting) :
    processSchemaNode defs visiting (.node node) = processSchemaNode defs (name :: visiting) d := by
  rw [processSchemaNode]
  split
  · rename_i name' d' h'
    obtain ⟨rfl, rfl⟩ := Prod.mk.inj (Option.some.inj (h.symm.trans h'))
    rw [if_neg hv]
  · rename_i h'
    cases h.symm.trans h'

/-- The result of the chosen branch of an `anyOf`. -/
def branchResult (defs : Defs F) (visiting : List Text) (node : SchemaNode F) :
    SchemaNode F :=
  match node.anyOf.bind chosen with
  | some t => processSchemaNode defs visiting t
  | none => {}

/-- Where each keyword of a result comes from: the node, its subschemas (through `child`) or the
result `b` of its branch. -/
structure Assembled (child : JsonSchema F → JsonSchema F) (node b result : SchemaNode F) : Prop where
  ref : result.ref = b.ref
  anyOf : result.anyOf = b.anyOf
  never : result.never = b.never
  others : result.others = b.others
  type : result.type =
    if node.type = some objectType ∧ node.properties.isSome ∨ node.type = some arrayType ∧ node.items.isSome then node.type
    else b.type <|> node.type
  properties : result.properties =
    if node.type = some objectType then
      (node.properties.map fun ps => ps.map fun p => (p.1, child p.2)) <|> b.properties
    else b.properties
  required : result.required =
    if node.type = some objectType ∧ node.properties.isSome then node.required <|> b.required else b.required
  items : result.items = if node.type = some arrayType then node.items.map child <|> b.items else b.items
  enum : result.enum = (node.enum <|> b.enum)

theorem object_ne_array : objectType ≠ arrayType := by decide

/-- The source's recursion, for a node that is not replaced by a definition. -/
theorem process_node (h : resolve defs node = none) :
    Assembled (fun s => .node (processSchemaNode defs visiting s)) node (branchResult defs visiting node)
      (processSchemaNode defs visiting (.node node)) := by
  have hb : (match _branch : node.anyOf.bind chosen with
      | some t => processSchemaNode defs visiting t
      | none => {}) = branchResult defs visiting node := by
    unfold branchResult
    split <;> rename_i heq <;> rw [heq]
  rw [processSchemaNode]
  split
  · rename_i h'
    cases h.symm.trans h'
  · simp only [hb]
    have := object_ne_array
    constructor <;> cases node.properties <;> cases node.items <;> by_cases ho : node.type = some objectType <;>
      by_cases ha : node.type = some arrayType <;> simp_all

end

/-- Induction along the processing of a schema. -/
theorem processing_induction (defs : Defs F) {P : List Text → JsonSchema F → Prop}
    (bool : ∀ visiting b, P visiting (.bool b))
    (circular : ∀ visiting node name d, resolve defs node = some (name, d) → name ∈ visiting → P visiting (.node node))
    (follow : ∀ visiting node name d, resolve defs node = some (name, d) → name ∉ visiting → P (name :: visiting) d →
      P visiting (.node node))
    (plain : ∀ visiting node, resolve defs node = none → (∀ s, Part (.node node) s → P visiting s) → P visiting (.node node))
    (visiting : List Text) (s : JsonSchema F) : P visiting s :=
  match s with
  | .bool b => bool visiting b
  | .node node =>
    match h : resolve defs node with
    | some (name, d) =>
      if hv : name ∈ visiting then circular visiting node name d h hv
      else follow visiting node name d h hv (processing_induction defs bool circular follow plain (name :: visiting) d)
    | none => plain visiting node h fun s _ => processing_induction defs bool circular follow plain visiting s
termination_by ((unvisited defs visiting).length, sizeOf s)
decreasing_by
  · exact Prod.Lex.left _ _ (unvisited_lt (resolve_mem h) hv)
  · exact Prod.Lex.right _ (Part.size (by assumption))

/-! ## What a processed schema consists of -/

/-- A schema object without references and branches, of the keywords that are kept. -/
def Simple (k : SchemaNode F) : Prop := k.ref = none ∧ k.anyOf = none ∧ k.others = []

/-- Every schema object in `k`, itself included, is simple. -/
def SimpleThroughout (k : SchemaNode F) : Prop := ∀ j, Inside (.node k) (.node j) → Simple j

theorem simple_of_bare {k : SchemaNode F} (hk : Simple k) (hp : k.properties = none) (hi : k.items = none) :
    SimpleThroughout k := by
  refine forall_within_iff.mpr ⟨hk, forall_part_iff.mpr ?_⟩
  simp [hp, hi, hk.2.1]

theorem Assembled.simple {child : JsonSchema F → SchemaNode F} {node b result : SchemaNode F}
    (h : Assembled (fun s => .node (child s)) node b result) (hb : SimpleThroughout b)
    (hc : ∀ s, Part (.node node) s → SimpleThroughout (child s)) : SimpleThroughout result := by
  obtain ⟨⟨hr, ha, ho⟩, hparts⟩ := forall_within_iff.mp hb
  refine forall_within_iff.mpr ⟨⟨h.ref.trans hr, h.anyOf.trans ha, h.others.trans ho⟩, ?_⟩
  intro s hs j hj
  cases hs with
  | @property _ ps name _ hps hmem =>
    rw [h.properties] at hps
    split at hps
    · cases hn : node.properties with
      | none => exact hparts s (.property (by simpa [hn] using hps) hmem) j hj
      | some qs =>
        obtain rfl : qs.map (fun p => (p.1, .node (child p.2))) = ps := by simpa [hn] using hps
        obtain ⟨q, hq, heq⟩ := List.mem_map.mp hmem
        obtain ⟨rfl, rfl⟩ := Prod.mk.inj heq
        exact hc q.2 (.property hn hq) j hj
    · exact hparts s (.property hps hmem) j hj
  | items hi =>
    rw [h.items] at hi
    split at hi
    · cases hn : node.items with
      | none => exact hparts s (.items (by simpa [hn] using hi)) j hj
      | some t =>
        obtain rfl : .node (child t) = s := by simpa [hn] using hi
        exact hc t (.items hn) j hj
    · exact hparts s (.items hi) j hj
  | member hm _ => simp [h.anyOf, ha] at hm

/-- Whatever the schema: the simplified one has no reference, no `anyOf` and none of the other keywords, at any depth. -/
theorem processed_is_simple (defs : Defs F) (visiting : List Text) (s : JsonSchema F) :
    SimpleThroughout (processSchemaNode defs visiting s) := by
  induction visiting, s using processing_induction defs with
  | bool visiting b => cases b <;> rw [processSchemaNode] <;> exact simple_of_bare ⟨rfl, rfl, rfl⟩ rfl rfl
  | circular visiting node name d h hv =>
    rw [process_circular h hv]
    cases d <;> exact simple_of_bare ⟨rfl, rfl, rfl⟩ rfl rfl
  | follow visiting node name d h hv ih =>
    rw [process_follow h hv]
    exact ih
  | plain visiting node h ih =>
    refine (process_node h).simple ?_ ih
    unfold branchResult
    split
    · rename_i t ht
      obtain ⟨ms, hms, hc⟩ := Option.bind_eq_some_iff.mp ht
      exact ih t (.member hms (chosen_mem hc))
    · exact simple_of_bare ⟨rfl, rfl, rfl⟩ rfl rfl

end AgentSdk.ToolSchema
