import AgentSdk.Lib.Json
import Mathlib.Logic.Relation
/-!
# JSON Schema

Schemas and the values they accept. A schema accepts a value if finitely many
steps into subschemas and through references show it, so a reference that only
leads back to itself accepts nothing.
-/

namespace AgentSdk.Lib

/-! ## Reading dicts -/

section
variable {κ β : Type _} [DecidableEq κ]

def dictGet (d : List (κ × β)) (k : κ) : Option β := d.lookup k

theorem dictGet_append (d e : List (κ × β)) (k : κ) : dictGet (d ++ e) k = (dictGet d k).or (dictGet e k) :=
  List.lookup_append

@[simp] theorem dictGet_cons (p : κ × β) (d : List (κ × β)) (k : κ) :
    dictGet (p :: d) k = if k = p.1 then some p.2 else dictGet d k := by
  unfold dictGet
  rw [List.lookup_cons]
  split <;> simp_all

theorem mem_of_dictGet {d : List (κ × β)} {k : κ} {v : β} (h : dictGet d k = some v) : (k, v) ∈ d :=
  Lib.mem_of_lookup h

theorem mem_keys_iff {d : List (κ × β)} {k : κ} : k ∈ d.map Prod.fst ↔ dictGet d k ≠ none := by
  rw [dictGet, ne_eq, List.lookup_eq_none_iff]
  constructor
  · intro hk hall
    obtain ⟨p, hp, rfl⟩ := List.mem_map.mp hk
    simpa using hall p hp
  · intro hall
    by_contra hk
    exact hall fun p hp => bne_iff_ne.mpr fun heq => hk (heq ▸ List.mem_map_of_mem hp)

end

/-! ## Schemas -/

inductive TypeKeyword where
  | name (t : Text)
  | names (ts : List Text)
deriving DecidableEq

/-- The keywords of a schema object whose subschemas are `S`. -/
structure Keywords (F S : Type) where
  ref : Option Text := none
  type : Option TypeKeyword := none
  /-- A member that is no schema is `none`. -/
  anyOf : Option (List (Option S)) := none
  description : Option Text := none
  properties : Option (List (Text × S)) := none
  required : Option (List Text) := none
  items : Option S := none
  enum : Option (List (Json F)) := none
  /-- `"not": {}` -/
  never : Bool := false
  /-- The keywords that are not above. -/
  others : List (Text × Json F) := []

inductive JsonSchema (F : Type) where
  | bool (b : Bool)
  | node (k : Keywords F (JsonSchema F))

/-- A schema object. -/
abbrev SchemaNode (F : Type) := Keywords F (JsonSchema F)

/-- The definitions of a document by name. -/
abbrev Defs (F : Type) := List (Text × JsonSchema F)

variable {F : Type}

/-- The direct subschemas of a schema. -/
inductive Part : JsonSchema F → JsonSchema F → Prop
  | property {k ps name s} : k.properties = some ps → (name, s) ∈ ps → Part (.node k) s
  | items {k s} : k.items = some s → Part (.node k) s
  | member {k ms s} : k.anyOf = some ms → some s ∈ ms → Part (.node k) s

theorem Part.size {s t : JsonSchema F} (h : Part s t) : sizeOf t < sizeOf s := by
  cases h with
  | @property k ps name _ hps hmem =>
    obtain ⟨⟩ := k
    subst hps
    have := List.sizeOf_lt_of_mem hmem
    simp only [JsonSchema.node.sizeOf_spec, Keywords.mk.sizeOf_spec, Option.some.sizeOf_spec, Prod.mk.sizeOf_spec] at this ⊢
    omega
  | @items k _ hs =>
    obtain ⟨⟩ := k
    subst hs
    simp only [JsonSchema.node.sizeOf_spec, Keywords.mk.sizeOf_spec, Option.some.sizeOf_spec]
    omega
  | @member k ms _ hms hmem =>
    obtain ⟨⟩ := k
    subst hms
    have := List.sizeOf_lt_of_mem hmem
    simp only [JsonSchema.node.sizeOf_spec, Keywords.mk.sizeOf_spec, Option.some.sizeOf_spec] at this ⊢
    omega

/-- `t` is the schema `s` or lies in it. -/
def Inside (s t : JsonSchema F) : Prop := Relation.ReflTransGen Part s t

theorem forall_part_iff {k : SchemaNode F} {Q : JsonSchema F → Prop} :
    (∀ s, Part (.node k) s → Q s) ↔
      (∀ ps, k.properties = some ps → ∀ p ∈ ps, Q p.2) ∧ (∀ s, k.items = some s → Q s) ∧
        ∀ ms, k.anyOf = some ms → ∀ s, some s ∈ ms → Q s := by
  constructor
  · intro h
    exact ⟨fun ps hps p hp => h p.2 (.property hps hp), fun s hs => h s (.items hs), fun ms hms s hs => h s (.member hms hs)⟩
  · rintro ⟨hp, hi, hm⟩ s hs
    cases hs with
    | property hps hmem => exact hp _ hps _ hmem
    | items hs => exact hi _ hs
    | member hms hs => exact hm _ hms _ hs

theorem forall_within_iff {k : SchemaNode F} {P : SchemaNode F → Prop} :
    (∀ j, Inside (.node k) (.node j) → P j) ↔ P k ∧ ∀ s, Part (.node k) s → ∀ j, Inside s (.node j) → P j := by
  constructor
  · intro h
    exact ⟨h k .refl, fun s hs j hj => h j (.head hs hj)⟩
  · rintro ⟨hk, hs⟩ j hj
    rcases Relation.ReflTransGen.cases_head hj with heq | ⟨s, hp, hw⟩
    · obtain rfl := JsonSchema.node.inj heq
      exact hk
    · exact hs s hp j hw

/-! ## Acceptance -/

/-- What a validator decides besides the keywords above. -/
structure Validator (F : Type) where
  /-- A float without a fractional part is an integer. -/
  whole : F → Bool
  same : Json F → Json F → Bool
  other : Text → Json F → Json F → Bool
  /-- A reference that does not name a definition of the document. -/
  foreign : Text → Json F → Bool

def hasType (V : Validator F) (t : Text) : Json F → Bool
  | .null => t = "null".toList
  | .bool _ => t = "boolean".toList
  | .int _ => t = "integer".toList ∨ t = "number".toList
  | .float x => t = "number".toList ∨ t = "integer".toList ∧ V.whole x
  | .str _ => t = "string".toList
  | .arr _ => t = "array".toList
  | .obj _ => t = "object".toList

def TypeKeyword.holds (V : Validator F) (v : Json F) : TypeKeyword → Bool
  | .name t => hasType V t v
  | .names ts => ts.any fun t => hasType V t v

def definitionsPath : Text := "#/$defs/".toList

/-- A name that stands in a JSON pointer as it is. -/
def PlainName (name : Text) : Prop := '/' ∉ name ∧ '~' ∉ name ∧ '%' ∉ name

instance (name : Text) : Decidable (PlainName name) := by unfold PlainName; infer_instance

/-- The definition that a reference leads to. -/
def target (defs : Defs F) (r : Text) : Option (JsonSchema F) :=
  if definitionsPath <+: r ∧ PlainName (r.drop definitionsPath.length) then
    dictGet defs (r.drop definitionsPath.length)
  else none

section
variable (V : Validator F) (defs : Defs F)

/-- The keywords of a schema object against a value, where `P` is the acceptance of its subschemas. -/
structure Meets (P : JsonSchema F → Json F → Prop) (k : SchemaNode F) (v : Json F) : Prop where
  definition : ∀ r s, k.ref = some r → target defs r = some s → P s v
  foreign : ∀ r, k.ref = some r → target defs r = none → V.foreign r v = true
  type : ∀ t, k.type = some t → t.holds V v = true
  anyOf : ∀ ms, k.anyOf = some ms → ∃ s, some s ∈ ms ∧ P s v
  properties : ∀ ps, k.properties = some ps → ∀ fields, v = .obj fields →
    ∀ p ∈ ps, ∀ x, dictGet fields p.1 = some x → P p.2 x
  required : ∀ names, k.required = some names → ∀ fields, v = .obj fields → ∀ name ∈ names, name ∈ fields.map Prod.fst
  items : ∀ s, k.items = some s → ∀ xs, v = .arr xs → ∀ x ∈ xs, P s x
  enum : ∀ vs, k.enum = some vs → ∃ w ∈ vs, V.same v w = true
  never : k.never = false
  others : ∀ o ∈ k.others, V.other o.1 o.2 v = true

/-- `n` steps deep. -/
def AcceptsWithin : Nat → JsonSchema F → Json F → Prop
  | 0, _, _ => False
  | _ + 1, .bool b, _ => b = true
  | n + 1, .node k, v => Meets V defs (AcceptsWithin n) k v

def Accepts (s : JsonSchema F) (v : Json F) : Prop := ∃ n, AcceptsWithin V defs n s v

variable {V defs}

theorem Meets.mono {P Q : JsonSchema F → Json F → Prop} {k : SchemaNode F} {v : Json F}
    (h : ∀ s v, P s v → Q s v) (hm : Meets V defs P k v) : Meets V defs Q k v where
  definition := fun r s hr hs => h _ _ (hm.definition r s hr hs)
  foreign := hm.foreign
  type := hm.type
  anyOf := fun ms hms => (hm.anyOf ms hms).imp fun _ hs => ⟨hs.1, h _ _ hs.2⟩
  properties := fun ps hps fields hv p hp x hx => h _ _ (hm.properties ps hps fields hv p hp x hx)
  required := hm.required
  items := fun s hs xs hv x hx => h _ _ (hm.items s hs xs hv x hx)
  enum := hm.enum
  never := hm.never
  others := hm.others

theorem AcceptsWithin.mono {n m : Nat} (h : n ≤ m) {s : JsonSchema F} {v : Json F}
    (ha : AcceptsWithin V defs n s v) : AcceptsWithin V defs m s v := by
  induction n generalizing m s v with
  | zero => exact ha.elim
  | succ n ih =>
    obtain ⟨m, rfl⟩ : ∃ l, m = l + 1 := ⟨m - 1, by omega⟩
    cases s with
    | bool b => exact ha
    | node k => exact Meets.mono (fun _ _ => ih (by omega)) ha

/-- Finitely many bounds have a common one. -/
theorem exists_common {α : Type _} {P : Nat → α → Prop} (mono : ∀ {n m x}, n ≤ m → P n x → P m x) {l : List α}
    (h : ∀ x ∈ l, ∃ n, P n x) : ∃ n, ∀ x ∈ l, P n x := by
  induction l with
  | nil => exact ⟨0, by simp⟩
  | cons x l ih =>
    obtain ⟨n, hn⟩ := h x (by simp)
    obtain ⟨m, hm⟩ := ih fun y hy => h y (by simp [hy])
    refine ⟨max n m, ?_⟩
    intro y hy
    rcases List.mem_cons.mp hy with rfl | hy
    · exact mono (by omega) hn
    · exact mono (by omega) (hm y hy)

@[simp] theorem accepts_bool (b : Bool) (v : Json F) : Accepts V defs (.bool b) v ↔ b = true :=
  ⟨fun ⟨n, h⟩ => by cases n with | zero => exact h.elim | succ n => exact h, fun h => ⟨1, h⟩⟩

theorem exists_common_option {α : Type _} {P : Nat → α → Prop} (mono : ∀ {n m x}, n ≤ m → P n x → P m x) {o : Option α}
    (h : ∀ x, o = some x → ∃ n, P n x) : ∃ n, ∀ x, o = some x → P n x := by
  obtain ⟨n, hn⟩ := exists_common (P := P) (l := o.toList) mono fun x hx => h x (by simpa using hx)
  exact ⟨n, fun x hx => hn x (by simpa using hx)⟩

/-- The keywords of a schema are told by what its subschemas accept. -/
theorem accepts_node {k : SchemaNode F} {v : Json F} :
    Accepts V defs (.node k) v ↔ Meets V defs (Accepts V defs) k v := by
  constructor
  · rintro ⟨n, h⟩
    cases n with
    | zero => exact h.elim
    | succ n => exact Meets.mono (fun _ _ hs => ⟨n, hs⟩) h
  · intro h
    obtain ⟨a, ha⟩ := exists_common_option (o := k.ref.bind (target defs)) (P := fun n s => AcceptsWithin V defs n s v)
      (fun hnm hs => hs.mono hnm) fun s hs => by
        obtain ⟨r, hr, ht⟩ := Option.bind_eq_some_iff.mp hs
        exact h.definition r s hr ht
    obtain ⟨b, hb⟩ := exists_common_option (o := k.anyOf) (P := fun n ms => ∃ s, some s ∈ ms ∧ AcceptsWithin V defs n s v)
      (fun hnm hs => hs.imp fun _ hs => ⟨hs.1, hs.2.mono hnm⟩) fun ms hms => by
        obtain ⟨s, hmem, n, hn⟩ := h.anyOf ms hms
        exact ⟨n, s, hmem, hn⟩
    obtain ⟨c, hc⟩ := exists_common_option (o := k.properties)
      (P := fun n (ps : List (Text × JsonSchema F)) => ∀ p ∈ ps, ∀ fields, v = .obj fields →
        ∀ x, dictGet fields p.1 = some x → AcceptsWithin V defs n p.2 x)
      (fun hnm hs p hp fields hv x hx => (hs p hp fields hv x hx).mono hnm) fun ps hps => by
        refine exists_common (fun hnm hs fields hv x hx => (hs fields hv x hx).mono hnm) fun p hp => ?_
        by_cases hv : ∃ fields x, v = .obj fields ∧ dictGet fields p.1 = some x
        · obtain ⟨fields, x, rfl, hx⟩ := hv
          obtain ⟨n, hn⟩ := h.properties ps hps fields rfl p hp x hx
          refine ⟨n, fun fields' hf y hy => ?_⟩
          obtain rfl := Json.obj.inj hf
          obtain rfl := Option.some.inj (hx.symm.trans hy)
          exact hn
        · exact ⟨0, fun fields hf x hx => (hv ⟨fields, x, hf, hx⟩).elim⟩
    obtain ⟨d, hd⟩ := exists_common_option (o := k.items)
      (P := fun n s => ∀ xs, v = .arr xs → ∀ x ∈ xs, AcceptsWithin V defs n s x)
      (fun hnm hs xs hv x hx => (hs xs hv x hx).mono hnm) fun s hs => by
        by_cases hv : ∃ xs, v = .arr xs
        · obtain ⟨xs, rfl⟩ := hv
          obtain ⟨n, hn⟩ := exists_common (P := fun n x => AcceptsWithin V defs n s x) (fun hnm hs => hs.mono hnm)
            (h.items s hs xs rfl)
          exact ⟨n, fun ys hys => Json.arr.inj hys ▸ hn⟩
        · exact ⟨0, fun xs hxs => (hv ⟨xs, hxs⟩).elim⟩
    refine ⟨a + b + c + d + 1, ?_⟩
    exact { h with
      definition := fun r s hr hs => (ha s (by simp [hr, hs])).mono (by omega)
      anyOf := fun ms hms => (hb ms hms).imp fun _ hs => ⟨hs.1, hs.2.mono (by omega)⟩
      properties := fun ps hps fields hv p hp x hx => (hc ps hps p hp fields hv x hx).mono (by omega)
      items := fun s hs xs hv x hx => (hd s hs xs hv x hx).mono (by omega) }

end

/-! ## Values without nulls -/

/-- No `null`, at any depth. -/
inductive NullFree : Json F → Prop
  | bool (b : Bool) : NullFree (.bool b)
  | int (i : Int) : NullFree (.int i)
  | float (x : F) : NullFree (.float x)
  | str (s : Text) : NullFree (.str s)
  | arr {xs} : (∀ x ∈ xs, NullFree x) → NullFree (.arr xs)
  | obj {fields} : (∀ p ∈ fields, NullFree p.2) → NullFree (.obj fields)

theorem NullFree.elem {xs : List (Json F)} (h : NullFree (.arr xs)) : ∀ x ∈ xs, NullFree x := by
  cases h with
  | arr h => exact h

theorem NullFree.field {fields : List (Text × Json F)} (h : NullFree (.obj fields)) {name : Text} {x : Json F}
    (hx : dictGet fields name = some x) : NullFree x := by
  cases h with
  | obj h => exact h _ (mem_of_dictGet hx)

/-- A schema of type `null` accepts only `null`. -/
theorem not_null_type (V : Validator F) {v : Json F} (hv : NullFree v) :
    (TypeKeyword.name "null".toList).holds V v = false := by
  cases hv <;> simp [TypeKeyword.holds, hasType]

end AgentSdk.Lib
