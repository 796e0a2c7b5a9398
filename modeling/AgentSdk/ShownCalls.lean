import AgentSdk.ToolSchema
/-!
# The calls a shown schema allows

The simplified schema accepts every call the original accepts, as long as the
call has no nulls, an `anyOf` has one branch left and only objects are
circular. Where nothing but annotations is dropped, it accepts no other call.
-/

namespace AgentSdk.ToolSchema
open Lib Relation

variable {F : Type} {V : Validator F} {defs : Defs F}

/-! ## References -/

/-- The definition `a` refers to the definition `b`. -/
def Mentions (defs : Defs F) (a b : Text) : Prop :=
  ∃ d node d', (a, d) ∈ defs ∧ Inside d (.node node) ∧ resolve defs node = some (b, d')

def Circular (defs : Defs F) (name : Text) : Prop := TransGen (Mentions defs) name name

/-- The definitions in `visiting` lead to every reference in `s`. -/
def Leads (defs : Defs F) (visiting : List Text) (s : JsonSchema F) : Prop :=
  ∀ a ∈ visiting, ∀ node, Inside s (.node node) → ∀ b d, resolve defs node = some (b, d) → TransGen (Mentions defs) a b

theorem Leads.part {visiting : List Text} {s t : JsonSchema F} (h : Leads defs visiting s) (hp : Part s t) :
    Leads defs visiting t := fun a ha node hw => h a ha node (.head hp hw)

theorem Leads.follow {visiting : List Text} {node : SchemaNode F} {name : Text} {d : JsonSchema F}
    (h : Leads defs visiting (.node node)) (hr : resolve defs node = some (name, d)) : Leads defs (name :: visiting) d := by
  intro a ha node' hw b d' hb
  have hstep : Mentions defs name b := ⟨d, node', d', resolve_mem hr, hw, hb⟩
  rcases List.mem_cons.mp ha with rfl | ha
  · exact .single hstep
  · exact .tail (h a ha node .refl name d hr) hstep

theorem Leads.circular {visiting : List Text} {node : SchemaNode F} {name : Text} {d : JsonSchema F}
    (h : Leads defs visiting (.node node)) (hr : resolve defs node = some (name, d)) (hv : name ∈ visiting) :
    Circular defs name := h name hv node .refl name d hr

theorem refName_plain {r : Text} (hr : definitionsPath <+: r) (hp : PlainName (r.drop definitionsPath.length)) :
    refName r = r.drop definitionsPath.length := by
  obtain ⟨name, rfl⟩ := hr
  rw [List.drop_left] at hp ⊢
  have hslash : definitionsPath.reverse = '/' :: "sfed$/#".toList := by decide
  rw [refName, List.reverse_append, hslash, List.takeWhile_append_of_pos]
  · simp
  · intro c hc
    simpa using fun h : c = '/' => hp.1 (h ▸ List.mem_reverse.mp hc)

/-! ## Schemas that are not narrowed -/

/-- The conditions on a schema object under which processing it does not narrow it. -/
structure Widened (node : SchemaNode F) : Prop where
  /-- A reference into the definitions names one of them as it is. -/
  ref : ∀ r, node.ref = some r → definitionsPath <+: r → PlainName (r.drop definitionsPath.length)
  /-- The branch that is processed accepts whatever another one does. -/
  anyOf : ∀ ms, node.anyOf = some ms → (nonNullTypes ms).length ≤ 1 ∨ (nonNullTypes ms).head? = some (.bool true)

/-- A property of every schema object of a document. -/
def Everywhere (P : SchemaNode F → Prop) (defs : Defs F) (s : JsonSchema F) : Prop :=
  (∀ node, Inside s (.node node) → P node) ∧ ∀ d ∈ defs, ∀ node, Inside d.2 (.node node) → P node

theorem Everywhere.part {P : SchemaNode F → Prop} {s t : JsonSchema F} (h : Everywhere P defs s)
    (hp : Part s t) : Everywhere P defs t := ⟨fun node hw => h.1 node (.head hp hw), h.2⟩

theorem Everywhere.follow {P : SchemaNode F → Prop} {s d : JsonSchema F} {name : Text}
    (h : Everywhere P defs s) (hd : (name, d) ∈ defs) : Everywhere P defs d := ⟨h.2 _ hd, h.2⟩

theorem resolve_target {node : SchemaNode F} (h : Widened node) {name : Text} {d : JsonSchema F}
    (hr : resolve defs node = some (name, d)) : ∃ r, node.ref = some r ∧ target defs r = some d := by
  unfold resolve at hr
  split at hr
  · rename_i r href
    split at hr
    · rename_i hpre
      have hp := h.ref r href hpre
      obtain ⟨_, hd, heq⟩ := Option.map_eq_some_iff.mp hr
      obtain ⟨-, rfl⟩ := Prod.mk.inj heq
      refine ⟨r, href, ?_⟩
      rw [target, if_pos ⟨hpre, hp⟩, ← hd, refName_plain hpre hp]
    · cases hr
  · cases hr

/-- A member that accepts a value without nulls is not dropped. -/
theorem mem_nonNullTypes {ms : List (Option (JsonSchema F))} {s : JsonSchema F} {v : Json F} (hs : some s ∈ ms)
    (hv : NullFree v) (ha : Accepts V defs s v) : s ∈ nonNullTypes ms := by
  refine List.mem_filterMap.mpr ⟨some s, hs, ?_⟩
  cases s with
  | bool b =>
    obtain rfl : b = true := by simpa using ha
    rfl
  | node k =>
    have hk : k.type ≠ some nullType := by
      intro ht
      have := (accepts_node.mp ha).type _ ht
      rw [nullType, not_null_type V hv] at this
      cases this
    simp only [if_neg hk]

theorem accepts_empty (v : Json F) : Accepts V defs (.node {}) v := by
  refine accepts_node.mpr ?_
  constructor <;> simp

theorem alternative {α : Type _} {a b : Option α} {x : α} (h : (a <|> b) = some x) : a = some x ∨ b = some x := by
  cases a with
  | none => exact .inr (by simpa using h)
  | some y => exact .inl (by simpa using h)

/-- The keywords of an assembled result hold where the node's and the branch's do. -/
theorem Assembled.meets {child : JsonSchema F → JsonSchema F} {node b result : SchemaNode F} {v : Json F}
    (h : Assembled child node b result) (hv : NullFree v)
    (hn : Meets V defs (fun s x => Part (.node node) s → NullFree x → Accepts V [] (child s) x) node v)
    (hb : Meets V [] (Accepts V []) b v) : Meets V [] (Accepts V []) result v where
  definition := by rw [h.ref]; exact hb.definition
  foreign := by rw [h.ref]; exact hb.foreign
  anyOf := by rw [h.anyOf]; exact hb.anyOf
  never := by rw [h.never]; exact hb.never
  others := by rw [h.others]; exact hb.others
  type := by
    intro t ht
    rw [h.type] at ht
    split at ht
    · exact hn.type t ht
    · exact (alternative ht).elim (hb.type t) (hn.type t)
  properties := by
    intro ps hps
    rw [h.properties] at hps
    split at hps
    · rcases alternative hps with hps | hps
      · obtain ⟨qs, hqs, rfl⟩ := Option.map_eq_some_iff.mp hps
        rintro fields rfl p hp x hx
        obtain ⟨q, hq, rfl⟩ := List.mem_map.mp hp
        exact hn.properties qs hqs fields rfl q hq x hx (.property hqs hq) (hv.field hx)
      · exact hb.properties ps hps
    · exact hb.properties ps hps
  required := by
    intro names hnames
    rw [h.required] at hnames
    split at hnames
    · exact (alternative hnames).elim (hn.required names) (hb.required names)
    · exact hb.required names hnames
  items := by
    intro s hs
    rw [h.items] at hs
    split at hs
    · rcases alternative hs with hs | hs
      · obtain ⟨t, ht, rfl⟩ := Option.map_eq_some_iff.mp hs
        rintro xs rfl x hx
        exact hn.items t ht xs rfl x hx (.items ht) (hv.elem x hx)
      · exact hb.items s hs
    · exact hb.items s hs
  enum := by
    intro vs hvs
    rw [h.enum] at hvs
    exact (alternative hvs).elim (hn.enum vs) (hb.enum vs)

/-- What is chosen from an `anyOf` accepts what the `anyOf` accepts, if it is null-free. -/
theorem branch_accepts {visiting : List Text} {node : SchemaNode F} {v : Json F} (hw : Widened node)
    (hv : NullFree v) (hm : Meets V defs (Accepts V defs) node v)
    (ih : ∀ s, Part (.node node) s → Accepts V defs s v → Accepts V [] (.node (processSchemaNode defs visiting s)) v) :
    Accepts V [] (.node (branchResult defs visiting node)) v := by
  unfold branchResult
  split
  · rename_i t ht
    obtain ⟨ms, hms, hc⟩ := Option.bind_eq_some_iff.mp ht
    obtain ⟨s, hs, ha⟩ := hm.anyOf ms hms
    have hmem := mem_nonNullTypes hs hv ha
    rcases hw.anyOf ms hms with hlen | hhead
    · -- only one member is left, so it is the one that accepts
      have hone : nonNullTypes ms = [s] := by
        match h : nonNullTypes ms, hlen, hmem with
        | [t], _, hmem => rw [List.mem_singleton.mp hmem]
      have : chosen ms = some s := by rw [chosen, hone]
      obtain rfl := Option.some.inj (this.symm.trans hc)
      exact ih s (.member hms hs) ha
    · have : chosen ms = some (.bool true) := by
        cases h : nonNullTypes ms with
        | nil => simp [h] at hhead
        | cons t ts =>
          rw [h, List.head?_cons] at hhead
          rw [chosen, h]
          exact hhead
      obtain rfl := Option.some.inj (this.symm.trans hc)
      rw [processSchemaNode]
      exact accepts_empty v
  · exact accepts_empty v

/-- The circular definitions of a document are of objects. -/
def ObjectCycles (V : Validator F) (defs : Defs F) : Prop :=
  ∀ name d, (name, d) ∈ defs → Circular defs name → ∀ v, Accepts V defs d v → ∃ fields, v = .obj fields

theorem widened_accepts (hcycles : ObjectCycles V defs) (visiting : List Text) (s : JsonSchema F) :
    Leads defs visiting s → Everywhere Widened defs s → ∀ v, NullFree v → Accepts V defs s v →
      Accepts V [] (.node (processSchemaNode defs visiting s)) v := by
  induction visiting, s using processing_induction defs with
  | bool visiting b =>
    intro _ _ v _ ha
    obtain rfl : b = true := by simpa using ha
    rw [processSchemaNode]
    exact accepts_empty v
  | circular visiting node name d h hv =>
    intro hlead hev v _ ha
    obtain ⟨r, hr, ht⟩ := resolve_target (hev.1 node .refl) h
    obtain ⟨fields, rfl⟩ :=
      hcycles name d (resolve_mem h) (hlead.circular h hv) v ((accepts_node.mp ha).definition r d hr ht)
    rw [process_circular h hv]
    refine accepts_node.mpr ?_
    cases d <;> constructor <;> simp [shallowExpandCircularRef, objectType, TypeKeyword.holds, hasType]
  | follow visiting node name d h hv ih =>
    intro hlead hev v hn ha
    obtain ⟨r, hr, ht⟩ := resolve_target (hev.1 node .refl) h
    rw [process_follow h hv]
    exact ih (hlead.follow h) (hev.follow (resolve_mem h)) v hn ((accepts_node.mp ha).definition r d hr ht)
  | plain visiting node h ih =>
    intro hlead hev v hn ha
    have hm := accepts_node.mp ha
    have hchild : ∀ s, Part (.node node) s → ∀ x, NullFree x → Accepts V defs s x →
        Accepts V [] (.node (processSchemaNode defs visiting s)) x :=
      fun s hs x hx => ih s hs (hlead.part hs) (hev.part hs) x hx
    have hbranch := branch_accepts (hev.1 node .refl) hn hm fun s hs => hchild s hs v hn
    have hchildren : Meets V defs (fun s x => Part (.node node) s → NullFree x →
        Accepts V [] (.node (processSchemaNode defs visiting s)) x) node v :=
      hm.mono fun s x hx hs hnx => hchild s hs x hnx hx
    exact accepts_node.mpr ((process_node h).meets hn hchildren (accepts_node.mp hbranch))

theorem leads_nil (s : JsonSchema F) : Leads defs [] s := fun _ ha => absurd ha List.not_mem_nil

/-- Whatever call without nulls a document accepts, its simplified schema accepts. -/
theorem shown_schema_wider {s : JsonSchema F} (hev : Everywhere Widened defs s) (hcycles : ObjectCycles V defs) {v : Json F}
    (hv : NullFree v) (ha : Accepts V defs s v) : Accepts V [] (.node (processSchemaNode defs [] s)) v :=
  widened_accepts hcycles [] s (leads_nil s) hev v hv ha

/-- A validator that compares texts only. -/
def textValidator : Validator Unit where
  whole _ := false
  same
    | .str a, .str b => a = b
    | _, _ => false
  other _ _ _ := true
  foreign _ _ := false

def entryRef : JsonSchema Unit := .node { ref := some "#/$defs/Entry".toList }

/-- A linked list. -/
def entry : JsonSchema Unit :=
  .node
    { type := some objectType
      properties := some [("next".toList, .node { anyOf := some [some entryRef, some (.node { type := some nullType })] })] }

theorem entryRef_widened : ∀ node, Inside entryRef (.node node) → Widened node := by
  refine forall_within_iff.mpr ⟨⟨?_, by simp⟩, forall_part_iff.mpr (by simp)⟩
  rintro _ ⟨⟩ _
  decide

theorem entry_widened : ∀ node, Inside entry (.node node) → Widened node := by
  have hnull : ∀ node, Inside (.node (F := Unit) { type := some nullType }) (.node node) → Widened node :=
    forall_within_iff.mpr ⟨⟨by simp, by simp⟩, forall_part_iff.mpr (by simp)⟩
  refine forall_within_iff.mpr ⟨⟨by simp, by simp⟩, forall_part_iff.mpr ⟨?_, by simp, by simp⟩⟩
  rintro _ ⟨⟩ p hp
  rw [List.mem_singleton.mp hp]
  refine forall_within_iff.mpr ⟨⟨by simp, ?_⟩, forall_part_iff.mpr ⟨by simp, by simp, ?_⟩⟩
  · rintro _ ⟨⟩
    exact .inl (by decide)
  · rintro _ ⟨⟩ s hs
    rcases List.mem_cons.mp hs with heq | hs
    · exact Option.some.inj heq ▸ entryRef_widened
    · exact Option.some.inj (List.mem_singleton.mp hs) ▸ hnull

def entryDefs : Defs Unit := [("Entry".toList, entry)]

theorem entry_objectCycles : ObjectCycles textValidator entryDefs := by
  intro name d hd _ v h
  obtain ⟨rfl, rfl⟩ := Prod.mk.inj (List.mem_singleton.mp hd)
  have := (accepts_node.mp h).type objectType rfl
  cases v with
  | obj fields => exact ⟨fields, rfl⟩
  | _ => simp [objectType, TypeKeyword.holds, hasType] at this

theorem entryRef_accepts {v : Json Unit} (h : Accepts textValidator entryDefs entry v) :
    Accepts textValidator entryDefs entryRef v := by
  have htarget : target entryDefs "#/$defs/Entry".toList = some entry := rfl
  refine accepts_node.mpr ?_
  constructor
  · rintro _ s ⟨⟩ hs
    obtain rfl := Option.some.inj (htarget.symm.trans hs)
    exact h
  · rintro _ ⟨⟩ hs
    cases htarget.symm.trans hs
  all_goals simp

theorem entry_accepts {fields : List (Text × Json Unit)}
    (h : ∀ x, dictGet fields "next".toList = some x → Accepts textValidator entryDefs entryRef x) :
    Accepts textValidator entryDefs entry (.obj fields) := by
  refine accepts_node.mpr ?_
  constructor
  case type =>
    rintro _ ⟨⟩
    rfl
  case properties =>
    intro ps hps fields' hf p hp x hx
    obtain rfl := Option.some.inj hps
    obtain rfl := Json.obj.inj hf
    rw [List.mem_singleton.mp hp] at hx ⊢
    refine accepts_node.mpr ?_
    constructor
    case anyOf =>
      rintro _ ⟨⟩
      exact ⟨entryRef, List.mem_cons_self, h x hx⟩
    all_goals simp
  all_goals simp

/-- Two entries of a linked list, read with the schema that refers to itself. -/
theorem shown_schema_wider_entry :
    Accepts textValidator [] (.node (processSchemaNode entryDefs [] entryRef)) (.obj [("next".toList, .obj [])]) := by
  have hev : Everywhere Widened entryDefs entryRef := ⟨entryRef_widened, by simpa [entryDefs] using entry_widened⟩
  refine shown_schema_wider hev entry_objectCycles ?_ ?_
  · refine .obj fun p hp => ?_
    rw [List.mem_singleton.mp hp]
    exact .obj (by simp)
  · refine entryRef_accepts (entry_accepts fun x hx => ?_)
    obtain rfl : Json.obj [] = x := by simpa [dictGet] using hx
    exact entryRef_accepts (entry_accepts (by simp [dictGet]))

/-! ## Schemas that keep their meaning -/

/-- Nothing but a reference, an `anyOf`, annotations and a description. -/
def Untyped (node : SchemaNode F) : Prop :=
  node.type = none ∧ node.properties = none ∧ node.required = none ∧ node.items = none ∧ node.enum = none

/-- The conditions on a schema object under which no restriction of it is dropped. -/
structure Exact (V : Validator F) (defs : Defs F) (node : SchemaNode F) : Prop where
  ref : node.ref ≠ none → resolve defs node ≠ none ∧ node.anyOf = none ∧ Untyped node
  anyOf : ∀ ms, node.anyOf = some ms → chosen ms ≠ none ∧ Untyped node
  properties : node.properties ≠ none → node.type = some objectType
  required : node.required ≠ none → node.properties ≠ none
  items : node.items ≠ none → node.type = some arrayType
  never : node.never = false
  /-- The other keywords are annotations. -/
  others : ∀ o ∈ node.others, ∀ v, V.other o.1 o.2 v = true

theorem Exact.meets_ref {node : SchemaNode F} (h : Exact V defs node) {r : Text} {d : JsonSchema F} {v : Json F}
    (hr : node.ref = some r) (hd : target defs r = some d) (ha : Accepts V defs d v) :
    Meets V defs (Accepts V defs) node v := by
  obtain ⟨-, hany, ht, hp, hq, hi, he⟩ := h.ref (by simp [hr])
  constructor
  · rintro r' s hr' hs
    obtain rfl := Option.some.inj (hr.symm.trans hr')
    obtain rfl := Option.some.inj (hd.symm.trans hs)
    exact ha
  · rintro r' hr' hs
    obtain rfl := Option.some.inj (hr.symm.trans hr')
    cases hd.symm.trans hs
  · simp [ht]
  · simp [hany]
  · simp [hp]
  · simp [hq]
  · simp [hi]
  · simp [he]
  · exact h.never
  · exact fun o ho => h.others o ho v

/-- An `anyOf` on its own keeps the meaning of the branch that is processed. -/
theorem Exact.meets_anyOf {child : JsonSchema F → JsonSchema F} {node b result : SchemaNode F} {v : Json F}
    (h : Exact V defs node) (ha : Assembled child node b result) {ms : List (Option (JsonSchema F))} (href : node.ref = none)
    (hms : node.anyOf = some ms) (hm : Meets V [] (Accepts V []) result v)
    (hbranch : Meets V [] (Accepts V []) b v → ∃ s, some s ∈ ms ∧ Accepts V defs s v) :
    Meets V defs (Accepts V defs) node v := by
  obtain ⟨-, ht, hp, hq, hi, he⟩ := h.anyOf ms hms
  have hb : Meets V [] (Accepts V []) b v :=
    { definition := by have := hm.definition; rwa [ha.ref] at this
      foreign := by have := hm.foreign; rwa [ha.ref] at this
      type := by have := hm.type; simpa [ha.type, ht] using this
      anyOf := by have := hm.anyOf; rwa [ha.anyOf] at this
      properties := by have := hm.properties; simpa only [ha.properties, ht, reduceCtorEq, if_false] using this
      required := by have := hm.required; simpa only [ha.required, ht, reduceCtorEq, false_and, if_false] using this
      items := by have := hm.items; simpa only [ha.items, ht, reduceCtorEq, if_false] using this
      enum := by have := hm.enum; simpa [ha.enum, he] using this
      never := by have := hm.never; rwa [ha.never] at this
      others := by have := hm.others; rwa [ha.others] at this }
  constructor
  · simp [href]
  · simp [href]
  · simp [ht]
  · intro ms' hms'
    obtain rfl := Option.some.inj (hms.symm.trans hms')
    exact hbranch hb
  · simp [hp]
  · simp [hq]
  · simp [hi]
  · simp [he]
  · exact h.never
  · exact fun o ho => h.others o ho v

theorem Exact.meets_plain {child : JsonSchema F → JsonSchema F} {node result : SchemaNode F} {v : Json F}
    (h : Exact V defs node) (ha : Assembled child node {} result) (href : node.ref = none) (hany : node.anyOf = none)
    (hm : Meets V [] (Accepts V []) result v)
    (hc : ∀ s, Part (.node node) s → ∀ x, Accepts V [] (child s) x → Accepts V defs s x) :
    Meets V defs (Accepts V defs) node v where
  definition := by simp [href]
  foreign := by simp [href]
  anyOf := by simp [hany]
  never := h.never
  others := fun o ho => h.others o ho v
  type := by
    have := hm.type
    rw [ha.type] at this
    simpa using this
  properties := by
    rintro ps hps fields rfl p hp x hx
    have hmem : (p.1, child p.2) ∈ ps.map fun p => (p.1, child p.2) := List.mem_map.mpr ⟨p, hp, rfl⟩
    have hps' : result.properties = some (ps.map fun p => (p.1, child p.2)) := by
      rw [ha.properties, if_pos (h.properties (by simp [hps])), hps]
      rfl
    exact hc p.2 (.property hps hp) x (hm.properties _ hps' fields rfl _ hmem x hx)
  required := by
    intro names hnames
    have hp := h.required (by simp [hnames])
    refine hm.required names ?_
    rw [ha.required, if_pos ⟨h.properties hp, Option.isSome_iff_ne_none.mpr hp⟩, hnames]
    rfl
  items := by
    rintro s hs xs rfl x hx
    have hs' : result.items = some (child s) := by
      rw [ha.items, if_pos (h.items (by simp [hs])), hs]
      rfl
    exact hc s (.items hs) x (hm.items _ hs' xs rfl x hx)
  enum := by
    intro vs hvs
    refine hm.enum vs ?_
    rw [ha.enum, hvs]
    rfl

theorem exact_accepts (hacyclic : ∀ name, ¬ Circular defs name) (visiting : List Text) (s : JsonSchema F) :
    Leads defs visiting s → Everywhere (fun node => Widened node ∧ Exact V defs node) defs s →
      ∀ v, Accepts V [] (.node (processSchemaNode defs visiting s)) v → Accepts V defs s v := by
  induction visiting, s using processing_induction defs with
  | bool visiting b =>
    intro _ _ v ha
    cases b with
    | true => simp
    | false =>
      rw [processSchemaNode] at ha
      cases (accepts_node.mp ha).never
  | circular visiting node name d h hv => exact fun hlead _ => absurd (hlead.circular h hv) (hacyclic name)
  | follow visiting node name d h hv ih =>
    intro hlead hev v ha
    obtain ⟨hw, he⟩ := hev.1 node .refl
    obtain ⟨r, hr, ht⟩ := resolve_target hw h
    rw [process_follow h hv] at ha
    exact accepts_node.mpr (he.meets_ref hr ht (ih (hlead.follow h) (hev.follow (resolve_mem h)) v ha))
  | plain visiting node h ih =>
    intro hlead hev v ha
    obtain ⟨-, he⟩ := hev.1 node .refl
    have href : node.ref = none := by
      by_contra hr
      exact (he.ref hr).1 h
    have hchild : ∀ s, Part (.node node) s → ∀ x, Accepts V [] (.node (processSchemaNode defs visiting s)) x →
        Accepts V defs s x := fun s hs => ih s hs (hlead.part hs) (hev.part hs)
    have hnode := @process_node _ _ visiting _ h
    refine accepts_node.mpr ?_
    cases hany : node.anyOf with
    | none =>
      have hb : branchResult defs visiting node = {} := by simp [branchResult, hany]
      exact he.meets_plain (hb ▸ hnode) href hany (accepts_node.mp ha) hchild
    | some ms =>
      obtain ⟨t, hc⟩ := Option.ne_none_iff_exists'.mp (he.anyOf ms hany).1
      have hb : branchResult defs visiting node = processSchemaNode defs visiting t := by simp [branchResult, hany, hc]
      refine he.meets_anyOf (hb ▸ hnode) href hany (accepts_node.mp ha) fun hm => ⟨t, chosen_mem hc, ?_⟩
      exact hchild t (.member hany (chosen_mem hc)) v (accepts_node.mpr hm)

/-- A document that keeps its meaning. -/
structure Faithful (V : Validator F) (defs : Defs F) (s : JsonSchema F) : Prop where
  everywhere : Everywhere (fun node => Widened node ∧ Exact V defs node) defs s
  acyclic : ∀ name, ¬ Circular defs name

theorem Faithful.own {s : JsonSchema F} (h : Faithful V defs s) {v : Json F}
    (ha : Accepts V [] (.node (processSchemaNode defs [] s)) v) : Accepts V defs s v :=
  exact_accepts h.acyclic [] s (leads_nil s) h.everywhere v ha

theorem Faithful.shown {s : JsonSchema F} (h : Faithful V defs s) {v : Json F} (hv : NullFree v)
    (ha : Accepts V defs s v) : Accepts V [] (.node (processSchemaNode defs [] s)) v := by
  have hcycles : ObjectCycles V defs := fun name _ _ hc => absurd hc (h.acyclic name)
  refine widened_accepts hcycles [] s (leads_nil s) ⟨?_, ?_⟩ v hv ha
  · exact fun node hw => (h.everywhere.1 node hw).1
  · exact fun d hd node hw => (h.everywhere.2 d hd node hw).1

theorem acyclic_nil (name : Text) : ¬ Circular (F := F) [] name := by
  intro h
  obtain ⟨_, ⟨_, _, _, hmem, _⟩, _⟩ := TransGen.head'_iff.mp h
  cases hmem

/-- Where processing drops nothing but annotations, the shown schema and the tool's own accept the same calls. -/
theorem shown_schema_exact {s : JsonSchema F} (h : Faithful V defs s) {v : Json F} (hv : NullFree v) :
    Accepts V [] (.node (processSchemaNode defs [] s)) v ↔ Accepts V defs s v :=
  ⟨h.own, h.shown hv⟩

/-- An optional query. -/
def query : SchemaNode Unit :=
  { type := some objectType
    properties := some [("query".toList, .node { anyOf := some [some (.node { type := some (.name "string".toList) }),
      some (.node { type := some nullType })] })] }

theorem typed_kept (t : TypeKeyword) : ∀ node, Inside (.node { type := some t }) (.node node) →
    Widened node ∧ Exact textValidator [] node :=
  forall_within_iff.mpr ⟨⟨⟨by simp, by simp⟩, by constructor <;> simp⟩, forall_part_iff.mpr (by simp)⟩

theorem query_faithful : Faithful textValidator [] (.node query) := by
  have hown : Widened query ∧ Exact textValidator [] query :=
    ⟨⟨by simp [query], by simp [query]⟩, by constructor <;> simp [query]⟩
  have hparts : ∀ s, Part (.node query) s → ∀ node, Inside s (.node node) →
      Widened node ∧ Exact textValidator [] node := by
    refine forall_part_iff.mpr ⟨?_, by simp [query], by simp [query]⟩
    rintro _ ⟨⟩ p hp
    rw [List.mem_singleton.mp hp]
    refine forall_within_iff.mpr ⟨⟨⟨by simp, ?_⟩, ?_⟩, forall_part_iff.mpr ⟨by simp, by simp, ?_⟩⟩
    · rintro _ ⟨⟩
      exact .inl (by decide)
    · constructor <;> simp [Untyped, chosen, nonNullTypes, nullType]
    · rintro _ ⟨⟩ s hs
      rcases List.mem_cons.mp hs with heq | hs
      · exact Option.some.inj heq ▸ typed_kept _
      · exact Option.some.inj (List.mem_singleton.mp hs) ▸ typed_kept _
  exact ⟨⟨forall_within_iff.mpr ⟨hown, hparts⟩, by simp⟩, acyclic_nil⟩

def queryCall : List (Text × Json Unit) := [("query".toList, .str "x".toList)]

theorem queryCall_nullFree : NullFree (.obj queryCall) := .obj fun p hp => by
  rw [List.mem_singleton.mp hp]
  exact .str _

theorem shown_schema_exact_query :
    Accepts textValidator [] (.node (processSchemaNode [] [] (.node query))) (.obj queryCall) ↔
      Accepts textValidator [] (.node query) (.obj queryCall) := shown_schema_exact query_faithful queryCall_nullFree

end AgentSdk.ToolSchema
