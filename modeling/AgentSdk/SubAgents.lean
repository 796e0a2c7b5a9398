import AgentSdk.Lib.Json
import AgentSdk.Lib.Result
import AgentSdk.Lib.Runs
import Mathlib.Data.List.Dedup
import Mathlib.Data.List.Sort
import Mathlib.Data.String.Basic
/-!
# Sub-agents

How a delegation tool makes a sub-agent: the tool's own `SubAgentScope`, the
check of the sub-agent's tools against the delegating agent's, the MCP servers it
inherits and the scope that its own delegation tools get.
-/

namespace AgentSdk
open Lib

/-! ## Tool names -/

/-- A tool class; `ref` is its identity. -/
structure ToolClass where
  ref : Nat
  className : String
  name : String
  conversationLocal : Bool := false
  isClientTool : Bool := false
deriving DecidableEq, Repr

/-- `BUILT_IN_TOOL_CLASSES`, in the order of the dict. -/
def builtInToolClasses : List ToolClass :=
  [{ ref := 0, className := "FinishTool", name := "finish" },
    { ref := 1, className := "ThinkTool", name := "think" },
    { ref := 2, className := "InvokeSkillTool", name := "invoke_skill" },
    { ref := 3, className := "SwitchLLMTool", name := "switch_llm" },
    { ref := 4, className := "VisionInspectTool", name := "inspect_image_with_vision" },
    { ref := 5, className := "ClassifyAndSwitchLLMTool", name := "classify_and_switch_llm" }]

def builtinToolClass (name : String) : Option ToolClass :=
  match builtInToolClasses.find? (·.className = name) with
  | some tool => some tool
  | none => builtInToolClasses.find? (·.name = name)

/-- `_TOOL_CLASSES`. -/
abbrev ToolRegistry := String → Option ToolClass

namespace ToolRegistry

def registeredToolClass (reg : ToolRegistry) (name : String) : Option ToolClass :=
  match reg name with
  | some toolClass => if toolClass.isClientTool then none else some toolClass
  | none => none

def effectiveBuiltinClass (reg : ToolRegistry) (name : String) : Option ToolClass :=
  match builtinToolClass name with
  | none => none
  | some builtin =>
    if reg.registeredToolClass name = none ∨ reg.registeredToolClass name = some builtin then some builtin else none

def canonicalToolName (reg : ToolRegistry) (name : String) : String :=
  match reg.effectiveBuiltinClass name with
  | none => name
  | some builtin => if reg.effectiveBuiltinClass builtin.name ≠ some builtin then name else builtin.name

/-- `_conversation_local`. -/
def conversationLocal (reg : ToolRegistry) (name : String) : Bool :=
  match reg.registeredToolClass name with
  | some toolClass => toolClass.conversationLocal
  | none => (reg.effectiveBuiltinClass name).any (·.conversationLocal)

end ToolRegistry

/-! ## Scopes -/

structure SubAgentScope where
  tools : Bool := false
  mcpServers : Bool := false
deriving DecidableEq, Repr

inductive FieldValue where
  | none
  | bool (b : Bool)
  | number (q : Rat)
  | str (s : String)
  | other
deriving DecidableEq

/-- A value in a tool's params, as far as `sub_agent_scope` reads it. -/
inductive ParamValue where
  | scalar (v : FieldValue)
  | emptyList
  | dict (fields : List (String × FieldValue))
  | scope (s : SubAgentScope)
  | other
deriving DecidableEq

def ParamValue.truthy : ParamValue → Bool
  | .scalar .none | .scalar (.bool false) | .emptyList | .dict [] => false
  | .scalar (.number q) => q ≠ 0
  | .scalar (.str s) => s ≠ ""
  | _ => true

/-- How a field of type `bool` reads a value. -/
def FieldValue.toBool? : FieldValue → Option Bool
  | .bool b => some b
  | .number q => if q = 1 then some true else if q = 0 then some false else .none
  | .str s =>
    if s.toLower ∈ ["true", "t", "1", "on", "y", "yes"] then some true
    else if s.toLower ∈ ["false", "f", "0", "off", "n", "no"] then some false
    else .none
  | .none | .other => .none

namespace SubAgentScope

def field? (fields : List (String × FieldValue)) (key : String) : Option Bool :=
  match fields.lookup key with
  | none => some false
  | some v => v.toBool?

def modelValidate : ParamValue → Option SubAgentScope
  | .scope s => some s
  | .dict fields =>
    if fields.all fun f => f.1 ∈ ["tools", "mcp_servers"] then do
      let tools ← field? fields "tools"
      let mcpServers ← field? fields "mcp_servers"
      some { tools, mcpServers }
    else none
  | _ => none

/-- `mcp_servers` is left out. -/
def modelDump (s : SubAgentScope) : ParamValue := .dict [("tools", .bool s.tools)]

def restricts (s : SubAgentScope) : Bool := s.tools

end SubAgentScope

/-! ## Agents -/

structure ToolSpec where
  name : String
  params : List (String × ParamValue) := []
deriving DecidableEq

/-- An agent with its MCP servers; `isAgent` tells an `Agent` from the other
kinds, of the given type name. -/
structure AgentSpec (μ : Type) where
  isAgent : Bool := true
  typeName : String := "Agent"
  tools : List ToolSpec := []
  includeDefaultTools : List String := []
  mcpConfig : List (String × μ) := []
deriving DecidableEq

def subAgentScopeParam : String := "sub_agent_scope"

def delegationToolNames : List String := ["task_tool_set", "workflow_tool_set", "workflow"]

namespace ToolSpec

/-- `SubAgentScope.model_validate(params.get("sub_agent_scope") or {})`; a tool
set and a workflow tool make the same of their parameter. -/
def scope? (tool : ToolSpec) : Option SubAgentScope :=
  match tool.params.lookup subAgentScopeParam with
  | some v => if v.truthy then SubAgentScope.modelValidate v else SubAgentScope.modelValidate (.dict [])
  | none => SubAgentScope.modelValidate (.dict [])

/-- `_narrowed`; `none` for a validation error. -/
def narrowed (tool : ToolSpec) (scope : SubAgentScope) : Option ToolSpec := do
  let current ← tool.scope?
  let merged : SubAgentScope := { tools := scope.tools || current.tools }
  some { tool with params := dictSet tool.params subAgentScopeParam merged.modelDump }

end ToolSpec

section
variable {μ : Type} (reg : ToolRegistry)

def isDelegationTool (tool : ToolSpec) : Bool := reg.canonicalToolName tool.name ∈ delegationToolNames

/-- `scope_delegation_tools`. -/
def scopeDelegationTools (tools : List ToolSpec) (scope : SubAgentScope) : Option (List ToolSpec) :=
  if scope.restricts then
    tools.mapM fun tool => if isDelegationTool reg tool then tool.narrowed scope else some tool
  else some tools

/-- `_tool_names` of an agent. -/
def toolNames (agent : AgentSpec μ) : List String :=
  (agent.tools.map (·.name) ++ agent.includeDefaultTools).map reg.canonicalToolName

def SubAgentScope.missingFrom (scope : SubAgentScope) (parent subAgent : AgentSpec μ) : List String :=
  if scope.tools then
    (((toolNames reg subAgent).dedup.filter fun name =>
      name ∉ toolNames reg parent ∧ reg.conversationLocal name = false).insertionSort (· ≤ ·))
  else []

def inheritMcpConfig (parent subAgent : AgentSpec μ) : AgentSpec μ := { subAgent with mcpConfig := parent.mcpConfig }

inductive SubAgentError where
  | valueError (text : String)
  | validationError
deriving DecidableEq

/-- `_get_sub_agent_from_factory`, with what the factory made and the name of
its definition. -/
def getSubAgentFromFactory (scope : SubAgentScope) (parent : AgentSpec μ) (name : String) (subAgent : AgentSpec μ) :
    Except SubAgentError (AgentSpec μ) :=
  if scope.restricts ∧ ¬ subAgent.isAgent then
    .error (.valueError s!"Agent '{name}' runs as {subAgent.typeName}, whose tools cannot be checked.")
  else
    let missing := scope.missingFrom reg parent subAgent
    if missing ≠ [] then
      let names := ", ".intercalate missing
      .error (.valueError s!"Agent '{name}' uses {names}, which this agent does not have.")
    else
      match scopeDelegationTools reg subAgent.tools scope with
      | some tools => .ok { inheritMcpConfig parent subAgent with tools }
      | none => .error .validationError

/-- A link of a delegation chain: one of the agent's delegation tools, and what
a registered factory makes. -/
structure DelegationLink (μ : Type) where
  tool : ToolSpec
  name : String
  made : AgentSpec μ

/-- The tool's scope goes to its `TaskManager`, by whichever of the tools. -/
def delegate (agent : AgentSpec μ) (link : DelegationLink μ) : Option (AgentSpec μ) :=
  if link.tool ∈ agent.tools ∧ isDelegationTool reg link.tool = true then do
    let scope ← link.tool.scope?
    (getSubAgentFromFactory reg scope agent link.name link.made).toOption
  else none

/-! ## What has to hold -/

/-- The tool carries a scope that restricts the sub-agents' tools. -/
def ToolSpec.Restricts (tool : ToolSpec) : Prop := ∃ scope, tool.scope? = some scope ∧ scope.tools = true

structure Within (root agent : AgentSpec μ) : Prop where
  tools : ∀ name ∈ toolNames reg agent, reg.conversationLocal name = false → name ∈ toolNames reg root
  mcp : agent.mcpConfig = root.mcpConfig
  restricted : ∀ tool ∈ agent.tools, isDelegationTool reg tool = true → tool.Restricts

/-! ## A link -/

variable {reg}

theorem modelValidate_modelDump (scope : SubAgentScope) :
    SubAgentScope.modelValidate scope.modelDump = some { tools := scope.tools } := by
  rfl

namespace ToolSpec

theorem scope?_of_lookup {tool : ToolSpec} {scope : SubAgentScope}
    (h : tool.params.lookup subAgentScopeParam = some scope.modelDump) : tool.scope? = some { tools := scope.tools } := by
  have htruthy : scope.modelDump.truthy = true := rfl
  rw [scope?, h]
  dsimp only
  rw [if_pos htruthy, modelValidate_modelDump]

/-- A narrowed tool has the scope that it is narrowed to. -/
theorem narrowed_spec {tool tool' : ToolSpec} {scope : SubAgentScope} (hscope : scope.tools = true)
    (h : tool.narrowed scope = some tool') : tool'.name = tool.name ∧ tool'.Restricts := by
  obtain ⟨current, -, h⟩ := Option.bind_eq_some_iff.1 h
  cases h
  refine ⟨rfl, _, scope?_of_lookup ((lookup_dictSet _ _ _ _).trans (if_pos rfl)), ?_⟩
  simp [hscope]

end ToolSpec

/-- The names stay, and delegation tools get the scope. -/
theorem scopeDelegationTools_spec {tools tools' : List ToolSpec} {scope : SubAgentScope} (hscope : scope.tools = true)
    (h : scopeDelegationTools reg tools scope = some tools') :
    List.Forall₂ (fun t t' => t'.name = t.name ∧ (isDelegationTool reg t' = true → t'.Restricts)) tools tools' := by
  rw [scopeDelegationTools, SubAgentScope.restricts, if_pos hscope] at h
  refine forall_of_mapM (fun t t' ht => ?_) h
  split at ht
  · obtain ⟨hname, hrestricts⟩ := ToolSpec.narrowed_spec hscope ht
    exact ⟨hname, fun _ => hrestricts⟩
  · rename_i hnot
    cases ht
    exact ⟨rfl, fun hdel => absurd hdel hnot⟩

theorem mem_missingFrom {scope : SubAgentScope} (hscope : scope.tools = true) {parent subAgent : AgentSpec μ}
    {name : String} :
    name ∈ scope.missingFrom reg parent subAgent ↔
      name ∈ toolNames reg subAgent ∧ name ∉ toolNames reg parent ∧ reg.conversationLocal name = false := by
  rw [SubAgentScope.missingFrom, if_pos hscope, (List.perm_insertionSort _ _).mem_iff, List.mem_filter, List.mem_dedup,
    decide_eq_true_eq]

theorem names_of_forall₂ {tools tools' : List ToolSpec} {P : ToolSpec → ToolSpec → Prop}
    (h : List.Forall₂ (fun t t' => t'.name = t.name ∧ P t t') tools tools') :
    tools'.map (·.name) = tools.map (·.name) := by
  induction h with
  | nil => rfl
  | cons hab _ ih => rw [List.map_cons, List.map_cons, hab.1, ih]

theorem exists_of_forall₂ {α β : Type} {P : α → β → Prop} {l : List α} {l' : List β} (h : List.Forall₂ P l l') {b : β}
    (hb : b ∈ l') : ∃ a, P a b := by
  induction h with
  | nil => cases hb
  | cons hab _ ih =>
    rcases List.mem_cons.1 hb with rfl | hb
    · exact ⟨_, hab⟩
    · exact ih hb

/-- A sub-agent made under a restricting scope stays within the one that
delegates to it. -/
theorem within_getSubAgentFromFactory {scope : SubAgentScope} (hscope : scope.tools = true)
    {parent subAgent agent : AgentSpec μ} {name : String}
    (h : getSubAgentFromFactory reg scope parent name subAgent = .ok agent) : Within reg parent agent := by
  unfold getSubAgentFromFactory at h
  split at h
  · cases h
  · dsimp only at h
    split at h
    · cases h
    · rename_i hmissing
      rw [not_not] at hmissing
      split at h
      · rename_i tools htools
        cases h
        have hspec := scopeDelegationTools_spec hscope htools
        have hnames : toolNames reg { inheritMcpConfig parent subAgent with tools } = toolNames reg subAgent := by
          rw [toolNames, names_of_forall₂ hspec]
          rfl
        refine ⟨fun n hn hlocal => ?_, rfl, fun tool htool hdel => ?_⟩
        · rw [hnames] at hn
          by_contra hnot
          have hmem := (mem_missingFrom hscope).2 ⟨hn, hnot, hlocal⟩
          rw [hmissing] at hmem
          cases hmem
        · obtain ⟨t, ht⟩ := exists_of_forall₂ hspec htool
          exact ht.2 hdel
      · cases h

theorem Within.trans {root parent agent : AgentSpec μ} (h : Within reg root parent) (h' : Within reg parent agent) :
    Within reg root agent :=
  ⟨fun n hn hlocal => h.tools n (h'.tools n hn hlocal) hlocal, h'.mcp.trans h.mcp, h'.restricted⟩

theorem Within.delegate {root parent agent : AgentSpec μ} {link : DelegationLink μ} (h : Within reg root parent)
    (hlink : delegate reg parent link = some agent) : Within reg root agent := by
  unfold AgentSdk.delegate at hlink
  split at hlink
  · rename_i htool
    obtain ⟨scope, hscope, hmade⟩ := Option.bind_eq_some_iff.1 hlink
    obtain ⟨scope', hscope', hrestricts⟩ := h.restricted link.tool htool.1 htool.2
    cases hscope.symm.trans hscope'
    cases hresult : getSubAgentFromFactory reg scope parent link.name link.made with
    | error e =>
      rw [hresult] at hmade
      cases hmade
    | ok made =>
      rw [hresult] at hmade
      cases hmade
      exact h.trans (within_getSubAgentFromFactory hrestricts hresult)
  · cases hlink

/-! ## Chains -/

/-- Every agent at the end of a delegation chain of any length. -/
theorem within_of_reaches (reg : ToolRegistry) {root agent : AgentSpec μ}
    (hroot : ∀ tool ∈ root.tools, isDelegationTool reg tool = true → tool.Restricts)
    (h : Reaches (delegate reg) (fun _ _ => True) root agent) : Within reg root agent := by
  refine h.invariant ⟨fun _ hn _ => hn, rfl, hroot⟩ fun _ _ _ hs _ ht => ?_
  exact hs.delegate ht

end

/-! ## A chain of two links -/

def trackerRegistry : ToolRegistry := fun name =>
  if name = "task_tracker" then
    some { ref := 6, className := "TaskTrackerTool", name := "task_tracker", conversationLocal := true }
  else none

def delegatingAgent : AgentSpec Nat where
  tools := [{ name := "terminal" }, { name := "task_tool_set", params := [(subAgentScopeParam, .scope { tools := true })] },
    { name := "workflow", params := [(subAgentScopeParam, .dict [("tools", .bool true)])] }]
  includeDefaultTools := ["FinishTool"]
  mcpConfig := [("files", 1)]

/-- A factory's agent with a workflow tool of its own, and one with less; the
first names a built-in tool by its tool name. -/
def delegationLinks : List (DelegationLink Nat) :=
  [{ tool := { name := "task_tool_set", params := [(subAgentScopeParam, .scope { tools := true })] }
     name := "planner"
     made :=
      { tools := [{ name := "workflow" }, { name := "task_tracker" }, { name := "finish" }], mcpConfig := [("web", 2)] } },
    { tool := { name := "workflow", params := [(subAgentScopeParam, .dict [("tools", .bool true)])] }
      name := "worker"
      made := { tools := [{ name := "task_tracker" }], includeDefaultTools := ["FinishTool"] } }]

theorem within_of_reaches_two :
    ∃ agent, exec (delegate trackerRegistry) delegatingAgent delegationLinks = some agent ∧
      Within trackerRegistry delegatingAgent agent ∧ agent.tools = [{ name := "task_tracker" }] ∧
      agent.mcpConfig = [("files", 1)] := by
  have hrun : (exec (delegate trackerRegistry) delegatingAgent delegationLinks).map
      (fun agent => (agent.tools, agent.mcpConfig)) = some ([{ name := "task_tracker" }], [("files", 1)]) := by
    decide +kernel
  have hroot : ∀ tool ∈ delegatingAgent.tools, isDelegationTool trackerRegistry tool = true → tool.Restricts := by
    intro tool htool hdel
    simp only [delegatingAgent, List.mem_cons, List.not_mem_nil, or_false] at htool
    rcases htool with rfl | rfl | rfl
    · exact absurd hdel (by decide +kernel)
    · exact ⟨{ tools := true }, by decide +kernel, rfl⟩
    · exact ⟨{ tools := true }, by decide +kernel, rfl⟩
  obtain ⟨agent, hagent, hval⟩ := Option.map_eq_some_iff.1 hrun
  simp only [Prod.mk.injEq] at hval
  exact ⟨agent, hagent, within_of_reaches trackerRegistry hroot (reaches_of_exec .init hagent), hval⟩

end AgentSdk
