import AgentSdk.ShownCalls
/-!
# Calls of an MCP tool

An MCP tool is shown to the model by its processed input schema, with a
`security_risk` and a `summary` besides the tool's own arguments. The agent
takes both out of a call again before the tool's server sees it.
-/

namespace AgentSdk.ToolSchema
open Lib

variable {F : Type}

/-! ## The shown schema -/

/-- `MCPToolDefinition`, as far as its schema is shown and its calls are read. -/
structure McpTool (F : Type) where
  inputSchema : SchemaNode F
  /-- `inputSchema["$defs"]` -/
  defs : Defs F := []
  readOnlyHint : Bool := false

/-- The field in which the model says how risky a call is. -/
def securityRiskName : Text := "security_risk".toList

/-- The field in which the model says what a call does. -/
def summaryName : Text := "summary".toList

def stringType : TypeKeyword := .name "string".toList

/-- `SecurityRisk`. -/
def securityRisks : List Text := ["UNKNOWN", "LOW", "MEDIUM", "HIGH"].map String.toList

/-- The schema of `security_risk`. -/
def securityRiskField : JsonSchema F :=
  .node
    { type := some stringType
      description := some "The LLM's assessment of the safety risk of this action.".toList
      enum := some (securityRisks.map .str) }

/-- The schema of `summary`. -/
def summaryField : JsonSchema F :=
  .node
    { type := some stringType
      description := some ("A concise summary (approximately 10 words) describing what this specific action does. " ++
        "Focus on the key operation and target. Example: 'List all Python files in current directory'").toList }

/-- The fields of `priority` first. -/
def prioritizeSchemaFields {α : Type _} (priority : List Text) (properties : List (Text × α)) : List (Text × α) :=
  (priority.filterMap fun k => (dictGet properties k).map fun p => (k, p)) ++ properties.filter fun p => p.1 ∉ priority

/-- Whether the model is asked for a `security_risk`. -/
def asksRisk (tool : McpTool F) (addSecurityRiskPrediction : Bool) : Prop :=
  addSecurityRiskPrediction ∧ tool.readOnlyHint = false

instance (tool : McpTool F) (addSecurityRiskPrediction : Bool) : Decidable (asksRisk tool addSecurityRiskPrediction) := by
  unfold asksRisk
  infer_instance

/-- `_get_tool_schema`, with the fields that the model is asked for in front of the others. -/
def getToolSchema (tool : McpTool F) (addSecurityRiskPrediction : Bool) : SchemaNode F :=
  let schema := processSchemaNode tool.defs [] (.node tool.inputSchema)
  let properties := schema.properties.getD []
  let properties :=
    if asksRisk tool addSecurityRiskPrediction then dictSet properties securityRiskName securityRiskField
    else properties
  let properties :=
    if summaryName ∈ properties.map Prod.fst then properties else dictSet properties summaryName summaryField
  { schema with properties := some (prioritizeSchemaFields [securityRiskName, summaryName] properties) }

/-! ## The arguments that are handed on -/

/-- The parameters that the tool declares. -/
def declared (tool : McpTool F) : List Text := (tool.inputSchema.properties.getD []).map Prod.fst

/-- `_tool_has_summary_param`. -/
def toolHasSummaryParam (tool : McpTool F) : Bool := summaryName ∈ declared tool

/-- `_extract_security_risk`, as far as it takes the field out. -/
def extractSecurityRisk (arguments : List (Text × Json F)) : List (Text × Json F) :=
  arguments.filter fun a => a.1 ≠ securityRiskName

/-- `_extract_summary`, as far as it takes the field out. -/
def extractSummary (tool : McpTool F) (arguments : List (Text × Json F)) : List (Text × Json F) :=
  if toolHasSummaryParam tool then arguments else arguments.filter fun a => a.1 ≠ summaryName

/-- The arguments of a call that are handed to `action_from_arguments` of the tool. -/
def toolArguments (tool : McpTool F) (arguments : List (Text × Json F)) : List (Text × Json F) :=
  extractSummary tool (extractSecurityRisk arguments)

/-! ## What the shown schema consists of -/

/-- A tool whose parameters are objects, told by their properties alone. -/
structure Regular (V : Validator F) (tool : McpTool F) : Prop where
  faithful : Faithful V tool.defs (.node tool.inputSchema)
  type : tool.inputSchema.type = some objectType
  ref : tool.inputSchema.ref = none
  anyOf : tool.inputSchema.anyOf = none
  enum : tool.inputSchema.enum = none
  nodup : (declared tool).Nodup
  required : ∀ names, tool.inputSchema.required = some names → ∀ name ∈ names, name ∈ declared tool
  /-- The tool has no `security_risk` of its own. -/
  free : securityRiskName ∉ declared tool

section
variable {α : Type _} {priority : List Text} {properties : List (Text × α)} {p : Text × α}

theorem mem_of_prioritized (h : p ∈ prioritizeSchemaFields priority properties) : p ∈ properties := by
  rcases List.mem_append.mp h with h | h
  · obtain ⟨k, -, hk⟩ := List.mem_filterMap.mp h
    obtain ⟨v, hv, rfl⟩ := Option.map_eq_some_iff.mp hk
    exact mem_of_dictGet hv
  · exact List.mem_of_mem_filter h

theorem prioritized_of_mem (hd : (properties.map Prod.fst).Nodup) (h : p ∈ properties) :
    p ∈ prioritizeSchemaFields priority properties := by
  by_cases hp : p.1 ∈ priority
  · refine List.mem_append_left _ (List.mem_filterMap.mpr ⟨p.1, hp, ?_⟩)
    rw [dictGet, lookup_of_mem hd h]
    rfl
  · exact List.mem_append_right _ (List.mem_filter.mpr ⟨h, by simpa using hp⟩)

end

section
variable {V : Validator F} {tool : McpTool F} {risk : Bool}

theorem assembled (h : Regular V tool) :
    Assembled (fun s => .node (processSchemaNode tool.defs [] s)) tool.inputSchema {}
      (processSchemaNode tool.defs [] (.node tool.inputSchema)) := by
  have hr : resolve tool.defs tool.inputSchema = none := by simp [resolve, h.ref]
  have hb : branchResult tool.defs [] tool.inputSchema = {} := by simp [branchResult, h.anyOf]
  exact hb ▸ process_node hr

/-- The tool's own properties as they are shown. -/
def shownProperties (tool : McpTool F) : List (Text × JsonSchema F) :=
  (processSchemaNode tool.defs [] (.node tool.inputSchema)).properties.getD []

theorem keys_shown (h : Regular V tool) : (shownProperties tool).map Prod.fst = declared tool := by
  rw [shownProperties, (assembled h).properties, if_pos h.type, declared]
  cases tool.inputSchema.properties with
  | none => rfl
  | some ps => simp [Function.comp_def]

/-- The fields that are added to the tool's own. -/
def addedProperties (tool : McpTool F) (risk : Bool) : List (Text × JsonSchema F) :=
  (if asksRisk tool risk then [(securityRiskName, securityRiskField)] else []) ++
    if toolHasSummaryParam tool then [] else [(summaryName, summaryField)]

theorem add_summary {properties : List (Text × JsonSchema F)}
    (h : summaryName ∈ properties.map Prod.fst ↔ toolHasSummaryParam tool = true) :
    (if summaryName ∈ properties.map Prod.fst then properties else dictSet properties summaryName summaryField) =
      properties ++ if toolHasSummaryParam tool then [] else [(summaryName, summaryField)] := by
  by_cases hs : summaryName ∈ properties.map Prod.fst
  · rw [if_pos hs, if_pos (h.mp hs), List.append_nil]
  · rw [if_neg hs, if_neg fun ht => hs (h.mpr ht), dictSet_new _ hs]

theorem getToolSchema_properties (h : Regular V tool) :
    (getToolSchema tool risk).properties =
      some (prioritizeSchemaFields [securityRiskName, summaryName] (shownProperties tool ++ addedProperties tool risk)) := by
  have hrisk : securityRiskName ∉ (shownProperties tool).map Prod.fst := keys_shown h ▸ h.free
  have hne : summaryName ≠ securityRiskName := by decide
  have hsummary : summaryName ∈ (shownProperties tool).map Prod.fst ↔ toolHasSummaryParam tool = true := by
    rw [keys_shown h, toolHasSummaryParam, decide_eq_true_eq]
  simp only [getToolSchema, Option.some.injEq]
  rw [← shownProperties]
  congr 1
  by_cases ha : asksRisk tool risk
  · rw [if_pos ha, dictSet_new _ hrisk, addedProperties, if_pos ha, ← List.append_assoc]
    exact add_summary (by simpa [hne] using hsummary)
  · rw [if_neg ha, addedProperties, if_neg ha, List.nil_append]
    exact add_summary hsummary

theorem nodup_shown (h : Regular V tool) : ((shownProperties tool ++ addedProperties tool risk).map Prod.fst).Nodup := by
  have hne : securityRiskName ≠ summaryName := by decide
  rw [List.map_append, keys_shown h, List.nodup_append]
  refine ⟨h.nodup, ?_, ?_⟩
  · unfold addedProperties
    split <;> split <;> simp [hne]
  · rintro name hname _ hadd rfl
    obtain ⟨p, hp, rfl⟩ := List.mem_map.mp hadd
    rcases List.mem_append.mp hp with hp | hp
    · split at hp
      · rw [List.mem_singleton.mp hp] at hname
        exact h.free hname
      · cases hp
    · split at hp
      · cases hp
      · rename_i hs
        rw [List.mem_singleton.mp hp] at hname
        exact hs (by simpa [toolHasSummaryParam] using hname)

theorem shown_accepts_iff (h : Regular V tool) {fields : List (Text × Json F)} :
    Accepts V [] (.node (getToolSchema tool risk)) (.obj fields) ↔
      Accepts V [] (.node (processSchemaNode tool.defs [] (.node tool.inputSchema))) (.obj fields) ∧
        ∀ p ∈ addedProperties tool risk, ∀ x, dictGet fields p.1 = some x → Accepts V [] p.2 x := by
  constructor
  · intro ha
    have hm := accepts_node.mp ha
    have hprops := hm.properties _ (getToolSchema_properties h) fields rfl
    constructor
    · refine accepts_node.mpr { hm with properties := ?_ }
      intro ps hps fields' hf p hp x hx
      obtain rfl := Json.obj.inj hf
      have hown : p ∈ shownProperties tool := by rwa [shownProperties, hps]
      exact hprops p (prioritized_of_mem (nodup_shown h) (List.mem_append_left _ hown)) x hx
    · intro p hp x hx
      exact hprops p (prioritized_of_mem (nodup_shown h) (List.mem_append_right _ hp)) x hx
  · rintro ⟨ha, hadd⟩
    have hm := accepts_node.mp ha
    refine accepts_node.mpr { hm with properties := ?_ }
    intro ps hps fields' hf p hp x hx
    obtain rfl := Json.obj.inj hf
    obtain rfl := Option.some.inj ((getToolSchema_properties h).symm.trans hps)
    rcases List.mem_append.mp (mem_of_prioritized hp) with hp | hp
    · cases hr : (processSchemaNode tool.defs [] (.node tool.inputSchema)).properties with
      | none => simp [shownProperties, hr] at hp
      | some qs => exact hm.properties qs hr fields rfl p (by simpa [shownProperties, hr] using hp) x hx
    · exact hadd p hp x hx

/-- The tool's own part of the shown schema looks at the declared arguments only. -/
theorem processed_congr (h : Regular V tool) {fields fields' : List (Text × Json F)}
    (hsame : ∀ name ∈ declared tool, dictGet fields' name = dictGet fields name)
    (ha : Accepts V [] (.node (processSchemaNode tool.defs [] (.node tool.inputSchema))) (.obj fields)) :
    Accepts V [] (.node (processSchemaNode tool.defs [] (.node tool.inputSchema))) (.obj fields') := by
  have hm := accepts_node.mp ha
  have hA := assembled h
  refine accepts_node.mpr ?_
  constructor
  · simp [hA.ref]
  · simp [hA.ref]
  · intro t ht
    have := hm.type t ht
    cases t <;> exact this
  · simp [hA.anyOf]
  · intro ps hps f hf p hp x hx
    obtain rfl := Json.obj.inj hf
    have hown : p ∈ shownProperties tool := by rwa [shownProperties, hps]
    have hname : p.1 ∈ declared tool := keys_shown h ▸ List.mem_map_of_mem hown
    exact hm.properties ps hps fields rfl p hp x (hsame p.1 hname ▸ hx)
  · intro names hnames f hf name hname
    obtain rfl := Json.obj.inj hf
    have hdecl : name ∈ declared tool := by
      rw [hA.required] at hnames
      split at hnames
      · exact h.required names (by simpa using hnames) name hname
      · cases hnames
    have hkey := hm.required names hnames fields rfl name hname
    exact mem_keys_iff.mpr (hsame name hdecl ▸ mem_keys_iff.mp hkey)
  · intro s _ xs hxs
    cases hxs
  · simp [hA.enum, h.enum]
  · exact hm.never
  · simp [hA.others]

/-! ## Calls -/

theorem toolArguments_get (h : Regular V tool) (fields : List (Text × Json F)) {name : Text} (hname : name ∈ declared tool) :
    dictGet (toolArguments tool fields) name = dictGet fields name := by
  have hrisk : name ≠ securityRiskName := fun he => h.free (he ▸ hname)
  unfold toolArguments extractSummary extractSecurityRisk dictGet
  split
  · rw [lookup_filter_ne, if_neg hrisk]
  · rename_i hs
    have hsummary : name ≠ summaryName := fun he => hs (decide_eq_true (he ▸ hname))
    rw [lookup_filter_ne, if_neg hsummary, lookup_filter_ne, if_neg hrisk]

/-- What the model adds to a tool's arguments, given a risk and a summary. -/
def addedArguments (tool : McpTool F) (risk : Bool) (r summary : Text) : List (Text × Json F) :=
  (if asksRisk tool risk then [(securityRiskName, .str r)] else []) ++
    if toolHasSummaryParam tool then [] else [(summaryName, .str summary)]

/-- Arguments of the tool that are not mistaken for added ones. -/
def Own (tool : McpTool F) (arguments : List (Text × Json F)) : Prop :=
  securityRiskName ∉ arguments.map Prod.fst ∧ (summaryName ∈ arguments.map Prod.fst → summaryName ∈ declared tool)

theorem toolArguments_added {arguments : List (Text × Json F)} (hown : Own tool arguments) (risk : Bool)
    (r summary : Text) :
    toolArguments tool (arguments ++ addedArguments tool risk r summary) = arguments := by
  have hne : summaryName ≠ securityRiskName := by decide
  have hrisk : arguments.filter (fun a => a.1 ≠ securityRiskName) = arguments :=
    List.filter_eq_self.mpr fun a ha => decide_eq_true fun he => hown.1 (he ▸ List.mem_map_of_mem ha)
  unfold toolArguments extractSummary extractSecurityRisk addedArguments
  rw [List.filter_append, hrisk, List.filter_append]
  by_cases hs : toolHasSummaryParam tool
  · rw [if_pos hs, if_pos hs]
    split <;> simp
  · have hsummary : arguments.filter (fun a => a.1 ≠ summaryName) = arguments :=
      List.filter_eq_self.mpr fun a ha => decide_eq_true fun he =>
        hs (decide_eq_true (hown.2 (he ▸ List.mem_map_of_mem ha)))
    rw [if_neg hs, if_neg hs, List.filter_append, hsummary]
    split <;> simp [hne]

theorem accepts_string {description : Option Text} {enum : Option (List (Json F))} {x : Text}
    (he : ∀ vs, enum = some vs → ∃ w ∈ vs, V.same (.str x) w = true) :
    Accepts V [] (.node { type := some stringType, description := description, enum := enum }) (.str x) := by
  refine accepts_node.mpr ?_
  constructor <;> simp [stringType, TypeKeyword.holds, hasType]
  simpa using he

theorem added_accepts (hsame : ∀ x, V.same (.str x) (.str x) = true) {arguments : List (Text × Json F)}
    (hown : Own tool arguments) {r : Text} (hr : r ∈ securityRisks) (summary : Text) {p : Text × JsonSchema F}
    (hp : p ∈ addedProperties tool risk) {x : Json F}
    (hx : dictGet (arguments ++ addedArguments tool risk r summary) p.1 = some x) : Accepts V [] p.2 x := by
  have hne : summaryName ≠ securityRiskName := by decide
  have hnone : ∀ name, name ∉ arguments.map Prod.fst → dictGet arguments name = none := fun name hn => by
    by_contra h
    exact hn (mem_keys_iff.mpr h)
  rw [dictGet_append] at hx
  rcases List.mem_append.mp hp with hp | hp
  · split at hp
    · rename_i hask
      obtain rfl := List.mem_singleton.mp hp
      obtain rfl : Json.str r = x := by
        rw [hnone _ hown.1, Option.none_or, addedArguments, if_pos hask, List.singleton_append, dictGet_cons,
          if_pos rfl] at hx
        exact Option.some.inj hx
      refine accepts_string ?_
      rintro vs ⟨⟩
      exact ⟨.str r, List.mem_map_of_mem hr, hsame r⟩
    · cases hp
  · split at hp
    · cases hp
    · rename_i hs
      obtain rfl := List.mem_singleton.mp hp
      have hkey : summaryName ∉ arguments.map Prod.fst := fun hk => hs (decide_eq_true (hown.2 hk))
      obtain rfl : Json.str summary = x := by
        rw [hnone _ hkey, Option.none_or, addedArguments, if_neg hs, dictGet_append, dictGet_cons, if_pos rfl] at hx
        have hrisk : dictGet (if asksRisk tool risk then [(securityRiskName, Json.str (F := F) r)] else [])
            summaryName = none := by
          split
          · rw [dictGet_cons, if_neg hne]
            rfl
          · rfl
        rw [hrisk, Option.none_or] at hx
        exact Option.some.inj hx
      exact accepts_string (by simp)

end

def queryTool : McpTool Unit := { inputSchema := query }

theorem queryTool_regular : Regular textValidator queryTool where
  faithful := query_faithful
  type := rfl
  ref := rfl
  anyOf := rfl
  enum := rfl
  nodup := by decide
  required := by rintro _ ⟨⟩
  free := by decide

theorem queryCall_accepted : Accepts textValidator [] (.node query) (.obj queryCall) := by
  refine accepts_node.mpr ?_
  constructor
  case type =>
    rintro _ ⟨⟩
    rfl
  case properties =>
    intro ps hps fields hf p hp x hx
    obtain rfl := Option.some.inj hps
    obtain rfl := Json.obj.inj hf
    rw [List.mem_singleton.mp hp] at hx ⊢
    obtain rfl : Json.str "x".toList = x := Option.some.inj hx
    refine accepts_node.mpr ?_
    constructor
    case anyOf =>
      rintro _ ⟨⟩
      exact ⟨_, List.mem_cons_self, accepts_string (by simp)⟩
    all_goals simp
  all_goals simp [query]

end AgentSdk.ToolSchema
