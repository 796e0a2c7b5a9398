import AgentSdk.Lib.Dict
import AgentSdk.Lib.Effects
/-!
# Loading plugins

A conversation loads its plugins when it is first used, then makes its agent
ready, and `load_plugin` adds a plugin of a marketplace at any later time. What a
call changed before it raised stays changed: the programs below run in
`EStateM`.
-/

namespace AgentSdk.PluginLoading
open Lib

/-! ## Plugins -/

/-- A skill, as far as plugins are merged by it. -/
structure Skill where
  name : String
  content : String
  isAgentskillsFormat : Bool := false
  disableModelInvocation : Bool := false
deriving DecidableEq

/-- `MarketplaceRegistration`; the ref may hold variables. -/
structure MarketplaceRegistration where
  name : String
  source : String
  ref : Option String := none
deriving DecidableEq

/-- What the agent is told of its skills and marketplaces. -/
structure AgentContext where
  skills : List Skill := []
  registeredMarketplaces : List MarketplaceRegistration := []
  loadProjectSkills : Bool := false
  disabledSkills : List String := []
  loadMemory : Bool := false
  memoryContext : Option String := none
deriving DecidableEq

/-- An MCP server; its command or URL is a parameter. -/
structure Server (σ : Type) where
  enabled : Bool := true
  config : σ
deriving DecidableEq

/-- Servers by their names. -/
abbrev McpConfig (σ : Type) := List (String × Server σ)

/-- The hooks of each event. -/
structure HookConfig (η : Type) where
  preToolUse : List η := []
  postToolUse : List η := []
  userPromptSubmit : List η := []
  sessionStart : List η := []
  sessionEnd : List η := []
  stop : List η := []
deriving DecidableEq

/-- A sub-agent that a plugin brings along. -/
structure AgentDefinition where
  name : String
  content : String

/-- Where a plugin is fetched from. -/
structure PluginSource where
  source : String
  ref : Option String := none
  repoPath : Option String := none

/-- What is recorded of a plugin, with its credentials redacted. -/
structure ResolvedPluginSource where
  source : String
  resolvedRef : Option String
  repoPath : Option String
  originalRef : Option String
deriving DecidableEq

/-- The commands stand as the skills that `to_skill` makes of them. -/
structure Plugin (σ η : Type) where
  name : String
  skills : List Skill := []
  commands : List Skill := []
  mcpConfig : McpConfig σ := []
  hooks : Option (HookConfig η) := none
  agents : List AgentDefinition := []

section
variable {σ η : Type}

/-- `is_empty`. -/
def HookConfig.isEmpty (config : HookConfig η) : Bool :=
  config.preToolUse.isEmpty && config.postToolUse.isEmpty && config.userPromptSubmit.isEmpty &&
    config.sessionStart.isEmpty && config.sessionEnd.isEmpty && config.stop.isEmpty

/-- `HookConfig.merge`: nothing when no event has a hook. -/
def HookConfig.merge (configs : List (HookConfig η)) : Option (HookConfig η) :=
  if configs.isEmpty then none
  else
    let merged : HookConfig η := {
      preToolUse := configs.flatMap (·.preToolUse)
      postToolUse := configs.flatMap (·.postToolUse)
      userPromptSubmit := configs.flatMap (·.userPromptSubmit)
      sessionStart := configs.flatMap (·.sessionStart)
      sessionEnd := configs.flatMap (·.sessionEnd)
      stop := configs.flatMap (·.stop) }
    if merged.isEmpty then none else some merged

/-- `from_plugin_source`. -/
def ResolvedPluginSource.fromPluginSource (redact : String → String) (spec : PluginSource) (resolvedRef : Option String) :
    ResolvedPluginSource :=
  { source := redact spec.source, resolvedRef, repoPath := spec.repoPath, originalRef := spec.ref }

/-- `merge_skills_by_name`: a name keeps its first skill. -/
def mergeSkillsByName (primary secondary : List Skill) : List Skill :=
  secondary.foldl (fun merged skill => if skill.name ∈ merged.map (·.name) then merged else merged ++ [skill]) primary

namespace Plugin

/-- `get_all_skills`. -/
def getAllSkills (plugin : Plugin σ η) : List Skill := plugin.skills ++ plugin.commands

/-- `add_skills_to`: a plugin's skill takes the place of one with its name. -/
def addSkillsTo (plugin : Plugin σ η) (context : Option AgentContext) : AgentContext :=
  let existing := (context.map (·.skills)).getD []
  let skills := (dictOf ((existing ++ plugin.getAllSkills).map fun skill => (skill.name, skill))).map Prod.snd
  { context.getD {} with skills }

/-- `add_mcp_config_to`: a plugin's server takes the place of one with its name. -/
def addMcpConfigTo (plugin : Plugin σ η) (mcpConfig : McpConfig σ) : McpConfig σ :=
  plugin.mcpConfig.foldl (fun config entry => dictSet config entry.1 entry.2) mcpConfig

end Plugin

end

/-- `enabled_mcp_servers`. -/
def enabledMcpServers {σ : Type} (config : McpConfig σ) : McpConfig σ := config.filter (·.2.enabled)

/-! ## The conversation -/

/-- A tool; the client is that of an `MCPToolExecutor`. -/
structure Tool where
  name : String
  client : Option Nat := none
  /-- An instance of a class of `BUILT_IN_TOOL_CLASSES`. -/
  builtin : Bool := false
deriving DecidableEq

/-- The agent with the tools that it has. -/
structure Agent (σ : Type) where
  agentContext : Option AgentContext := none
  mcpConfig : McpConfig σ := []
  filterToolsRegex : Option (String → Bool) := none
  supportsOpenhandsTools : Bool := true
  tools : List (String × Tool) := []
  initialized : Bool := false

/-- What a conversation's file holds of an agent. -/
structure AgentSpec (σ : Type) where
  agentContext : Option AgentContext
  mcpConfig : McpConfig σ
deriving DecidableEq

/-- The agent without its tools. -/
def Agent.spec {σ : Type} (agent : Agent σ) : AgentSpec σ := ⟨agent.agentContext, agent.mcpConfig⟩

/-- The fields of `base_state.json` that a load of plugins writes. -/
structure BaseState (σ η : Type) where
  agent : AgentSpec σ
  hookConfig : Option (HookConfig η)
deriving DecidableEq

/-- A hook processor; each one has a number of its own. -/
structure HookProcessor (η : Type) where
  id : Nat
  config : HookConfig η
deriving DecidableEq

/-- The hooks of a session that were run. -/
inductive Session where
  | started (processor : Nat)
  | ended (processor : Nat)
deriving DecidableEq

/-- `base` is what the state has of `base_state.json`, and `disk` that file, none without a
file store. `openClients` are the MCP clients that are not closed, `sessions` the hook sessions that were
started and ended. -/
structure Conversation (σ η : Type) where
  agent : Agent σ
  base : BaseState σ η
  disk : Option (BaseState σ η) := none
  saveDepth : Nat := 0
  dirty : Bool := false
  pluginSpecs : List PluginSource := []
  mcpConfigFromParent : Bool := false
  pendingHookConfig : Option (HookConfig η) := none
  hookProcessor : Option (HookProcessor η) := none
  nextProcessor : Nat := 0
  sessions : List Session := []
  resolvedPlugins : Option (List ResolvedPluginSource) := none
  pluginsLoaded : Bool := false
  agentReady : Bool := false
  registered : List String := []
  openClients : List Nat := []
  nextClient : Nat := 0

/-- The text of an exception. -/
abbrev Error := String

/-- What a call gets from outside the conversation. -/
structure Outside (σ η : Type) where
  redact : String → String
  expandRef : String → Except Error String
  /-- The plugins and standalone skills that the registered marketplaces load by themselves. -/
  autoLoads : List MarketplaceRegistration → Except Error (List PluginSource × List Skill)
  resolvePlugin : List MarketplaceRegistration → String → Except Error PluginSource
  /-- The path and the resolved ref. -/
  fetch : PluginSource → Except Error (String × Option String)
  load : String → Except Error (Plugin σ η)
  ambient : Except Error (List (Plugin σ η))
  projectSkills : Except Error (List Skill)
  memory : Except Error (Option String)
  expandServers : McpConfig σ → Except Error (McpConfig σ)
  /-- The names of the client's tools; an error leaves no client open. -/
  createTools : McpConfig σ → Except Error (List String)
  /-- Whether the name was free. -/
  registerAgent : AgentDefinition → Except Error Bool
  registerFileAgents : Except Error Unit
  sessionEnd : HookConfig η → Except Error Unit
  sessionStart : HookConfig η → Except Error Unit
  save : BaseState σ η → Except Error Unit
  specTools : Except Error (List String)
  builtinTools : Except Error (List String)
  skillTools : Except Error (List String)
  initState : Except Error Unit
  injectContext : Except Error Unit

/-- Nothing raises, and there is nothing to find but an empty plugin. -/
def Outside.quiet (σ η : Type) : Outside σ η where
  redact := id
  expandRef := .ok
  autoLoads _ := .ok ([], [])
  resolvePlugin _ pluginRef := .ok { source := pluginRef }
  fetch spec := .ok (spec.source, none)
  load path := .ok { name := path }
  ambient := .ok []
  projectSkills := .ok []
  memory := .ok none
  expandServers := .ok
  createTools _ := .ok []
  registerAgent _ := .ok true
  registerFileAgents := .ok ()
  sessionEnd _ := .ok ()
  sessionStart _ := .ok ()
  save _ := .ok ()
  specTools := .ok []
  builtinTools := .ok []
  skillTools := .ok []
  initState := .ok ()
  injectContext := .ok ()

/-- A method of the conversation. -/
abbrev Program (σ η : Type) := EStateM Error (Conversation σ η)

section
variable {σ η α : Type} [DecidableEq σ] [DecidableEq η] (w : Outside σ η)

/-- A call whose result comes from outside. -/
def outside (x : Except Error α) : Program σ η α := fun s =>
  match x with
  | .ok a => .ok a s
  | .error e => .error e s

/-! ## The saved state -/

/-- `_save_base_state`: without a file store nothing is written. -/
def saveBaseState : Program σ η Unit := fun s =>
  match s.disk with
  | none => .ok () s
  | some _ =>
    match w.save s.base with
    | .ok _ => .ok () { s with disk := some s.base }
    | .error e => .error e s

/-- `ConversationState.__setattr__` on a field of the file. -/
def setBase (base : BaseState σ η) : Program σ η Unit := fun s =>
  if s.disk.isNone || base = s.base then .ok () { s with base }
  else if 0 < s.saveDepth then .ok () { s with base, dirty := true }
  else saveBaseState w { s with base }

/-- `ConversationState.__exit__`: the outermost exit saves what has changed. -/
def exitState : Program σ η Unit := fun s =>
  if s.saveDepth - 1 = 0 ∧ s.dirty then
    match saveBaseState w { s with saveDepth := s.saveDepth - 1 } with
    | .ok _ s' => .ok () { s' with dirty := false }
    | .error e s' => .error e s'
  else .ok () { s with saveDepth := s.saveDepth - 1 }

/-- `with self._state`: what `__exit__` raises takes the place of what the block raised. -/
def withState (block : Program σ η α) : Program σ η α := fun s =>
  match block { s with saveDepth := s.saveDepth + 1 } with
  | .ok a s' =>
    match exitState w s' with
    | .ok _ s'' => .ok a s''
    | .error e s'' => .error e s''
  | .error e s' =>
    match exitState w s' with
    | .ok _ s'' => .error e s''
    | .error e' s'' => .error e' s''

/-! ## Hooks -/

/-- `run_session_end` of a processor. -/
def runSessionEnd (processor : HookProcessor η) : Program σ η Unit := do
  modify fun s => { s with sessions := s.sessions ++ [.ended processor.id] }
  outside (w.sessionEnd processor.config)

/-- The processor of a merged configuration, and its `SessionStart` hooks. -/
def installHooks (config : HookConfig η) : Program σ η Unit := do
  modify fun s => { s with
    hookProcessor := some ⟨s.nextProcessor, config⟩
    nextProcessor := s.nextProcessor + 1
    sessions := s.sessions ++ [.started s.nextProcessor] }
  outside (w.sessionStart config)

/-- `_merge_runtime_plugin_hooks`: the session of the old processor ends before the new one starts. -/
def mergeRuntimePluginHooks (pluginHooks : HookConfig η) : Program σ η Unit := do
  let s ← get
  let mergedConfig :=
    match s.base.hookConfig with
    | some existing => HookConfig.merge [existing, pluginHooks]
    | none => some pluginHooks
  match mergedConfig with
  | none => pure ()
  | some config =>
    s.hookProcessor.forM (runSessionEnd w)
    setBase w { s.base with hookConfig := some config }
    modify fun s => { s with pendingHookConfig := some config }
    installHooks w config

/-! ## Tools -/

/-- `_runtime_mcp_tools`: no tools where the client cannot be created. -/
def runtimeMcpTools (mcpConfig : McpConfig σ) : Program σ η (List Tool) := do
  if (enabledMcpServers mcpConfig).isEmpty then pure []
  else
    match w.createTools (enabledMcpServers mcpConfig) with
    | .error _ => pure []
    | .ok names => do
      let s ← get
      set { s with openClients := s.nextClient :: s.openClients, nextClient := s.nextClient + 1 }
      return names.map fun name => { name, client := some s.nextClient }

/-- The tools of the servers that the agent has. -/
def runtimeMcpToolsForAgent : Program σ η (List Tool) := do
  let s ← get
  if s.agent.mcpConfig.isEmpty then pure [] else runtimeMcpTools w s.agent.mcpConfig

/-- A skill that the model may invoke. -/
def AgentContext.hasInvocableSkills (context : AgentContext) : Bool :=
  context.skills.any fun skill => skill.isAgentskillsFormat && !skill.disableModelInvocation

/-- `_runtime_skill_tools_for_agent`: the tool that invokes skills, unless it is there. -/
def runtimeSkillToolsForAgent : Program σ η (List Tool) := do
  let s ← get
  if !(s.agent.agentContext.map AgentContext.hasInvocableSkills).getD false then pure []
  else if !s.agent.initialized then throw "Agent not initialized; call _initialize() before use"
  else if (s.agent.tools.lookup "invoke_skill").isSome then pure []
  else do
    let names ← outside w.skillTools
    return names.map fun name => { name, builtin := true }

/-- Whether a tool passes the filter; built-in tools do. -/
def Agent.keeps (agent : Agent σ) (tool : Tool) : Bool :=
  tool.builtin || (agent.filterToolsRegex.map fun passes => passes tool.name).getD true

/-- A tool takes the name of another one that is not of the same client. -/
def Agent.conflicts (agent : Agent σ) (tool : Tool) : Bool :=
  match agent.tools.lookup tool.name with
  | none => false
  | some existing => existing.client.isNone || existing.client ≠ tool.client

/-- Tools under their names. -/
def setTools (tools : List (String × Tool)) (new : List Tool) : List (String × Tool) :=
  new.foldl (fun tools tool => dictSet tools tool.name tool) tools

/-- `add_runtime_tools`: all of the tools, or none of them. -/
def addRuntimeTools (tools : List Tool) : Program σ η Unit := do
  let s ← get
  let kept := tools.filter s.agent.keeps
  if !s.agent.initialized then pure ()
  else if ¬ (kept.map Tool.name).Nodup then throw "Duplicate runtime tool names found"
  else if kept.any s.agent.conflicts then throw "Duplicate tool names found"
  else set { s with agent := { s.agent with tools := setTools s.agent.tools kept } }

/-- An executor of an MCP tool closes its client. -/
def closeRuntimeTools (tools : List Tool) : Program σ η Unit :=
  modify fun s => { s with openClients := s.openClients.filter fun client => some client ∉ tools.map (·.client) }

/-- `AgentBase._initialize`. -/
def initializeAgent : Program σ η Unit := do
  let s ← get
  if s.agent.initialized then pure ()
  else do
    let specTools ← outside w.specTools
    let builtinTools ← outside w.builtinTools
    let tools := (specTools.map fun name => ({ name } : Tool)).filter s.agent.keeps ++
      builtinTools.map fun name => ({ name, builtin := true } : Tool)
    if ¬ (tools.map Tool.name).Nodup then throw "Duplicate tool names found"
    else set { s with agent := { s.agent with tools := setTools [] tools, initialized := true } }

/-! ## The first use -/

/-- A ref that is missing or empty is not expanded. -/
def expandOption (ref : Option String) : Program σ η (Option String) :=
  match ref with
  | none => pure none
  | some "" => pure (some "")
  | some ref => do return some (← outside (w.expandRef ref))

/-- Of a registration only a ref that is not empty is kept. -/
def expandRegistrations (registrations : List MarketplaceRegistration) : Program σ η (List MarketplaceRegistration) :=
  registrations.mapM fun registration => do
    let source ← outside (w.expandRef registration.source)
    let ref ← expandOption w (registration.ref.filter (· ≠ ""))
    return { registration with source, ref }

/-- No servers need no expansion. -/
def expandMcp (mcp : McpConfig σ) : Program σ η (McpConfig σ) :=
  if mcp.isEmpty then pure mcp else outside (w.expandServers mcp)

/-- The sub-agents one by one; a name that is taken stays as it is. -/
def registerPluginAgents (agents : List AgentDefinition) : Program σ η Unit :=
  agents.forM fun agent => do
    let isNew ← outside (w.registerAgent agent)
    modify fun s => { s with registered := if isNew then s.registered ++ [agent.name] else s.registered }

/-- What plugins are merged into before the agent is replaced. -/
structure Merged (σ η : Type) where
  context : Option AgentContext
  mcp : McpConfig σ
  hasMcpConfig : Bool
  hooks : List (HookConfig η) := []
  agents : List AgentDefinition := []
  explicitPluginNames : List String := []
  /-- Something other than a plugin to load or an MCP server changed the agent. -/
  changed : Bool := false

/-- A plugin is merged into what is there. -/
def Merged.add (merged : Merged σ η) (plugin : Plugin σ η) : Merged σ η :=
  let mcp := plugin.addMcpConfigTo merged.mcp
  { merged with
    context := some (plugin.addSkillsTo merged.context)
    mcp
    hasMcpConfig := merged.hasMcpConfig || !mcp.isEmpty
    hooks := merged.hooks ++ plugin.hooks.toList.filter fun hooks => !hooks.isEmpty
    agents := merged.agents ++ plugin.agents }

/-- The refs of a source are expanded once. -/
def fetchSpec (spec : PluginSource) (sourceRefsExpanded : Bool) : Program σ η (String × Option String) :=
  if sourceRefsExpanded then outside (w.fetch spec)
  else do
    let source ← outside (w.expandRef spec.source)
    let ref ← expandOption w spec.ref
    outside (w.fetch { spec with source, ref })

/-- A plugin to load; the refs of a marketplace are expanded already. -/
def loadSpec (merged : Merged σ η) : PluginSource × Bool → Program σ η (Merged σ η)
  | (spec, sourceRefsExpanded) => do
    let (path, resolvedRef) ← fetchSpec w spec sourceRefsExpanded
    let resolved := ResolvedPluginSource.fromPluginSource w.redact spec resolvedRef
    modify fun s => { s with resolvedPlugins := s.resolvedPlugins.map (· ++ [resolved]) }
    let plugin ← outside (w.load path)
    return { merged.add plugin with explicitPluginNames := merged.explicitPluginNames ++ [plugin.name] }

/-- Ambient plugins whose names are not those of explicit ones; a failure leaves them out. -/
def Merged.addAmbient (merged : Merged σ η) : Merged σ η :=
  let plugins := w.ambient.toOption.getD []
  (plugins.filter fun plugin => plugin.name ∉ merged.explicitPluginNames).foldl
    (fun merged plugin => { merged.add plugin with changed := true }) merged

/-- Skills of the project, where the context asks for them; a failure leaves them out. -/
def Merged.addProjectSkills (merged : Merged σ η) : Merged σ η :=
  match merged.context with
  | none => merged
  | some context =>
    let projectSkills := w.projectSkills.toOption.getD []
    if context.loadProjectSkills && !projectSkills.isEmpty then
      let skills := (mergeSkillsByName projectSkills context.skills).filter fun skill => skill.name ∉ context.disabledSkills
      { merged with context := some { context with skills }, changed := true }
    else merged

/-- The memory, where the context asks for it; a failure leaves it out. -/
def Merged.addMemory (merged : Merged σ η) : Merged σ η :=
  match merged.context with
  | none => merged
  | some context =>
    match context.loadMemory, w.memory.toOption.join with
    | true, some memory =>
      if memory = "" then merged
      else { merged with context := some { context with memoryContext := some memory }, changed := true }
    | _, _ => merged

/-- What the marketplaces of the context load by themselves. -/
def autoLoads (context : Option AgentContext) : Program σ η (List PluginSource × List Skill) :=
  match context with
  | none => pure ([], [])
  | some context =>
    if context.registeredMarketplaces.isEmpty then pure ([], [])
    else do
      let registrations ← expandRegistrations w context.registeredMarketplaces
      outside (w.autoLoads registrations)

/-- The hooks of the plugins behind the configured ones. -/
def finalHookConfig (pending : Option (HookConfig η)) (pluginHooks : List (HookConfig η)) : Option (HookConfig η) :=
  match HookConfig.merge pluginHooks with
  | none => pending
  | some hooks =>
    match pending with
    | none => some hooks
    | some pending => HookConfig.merge [pending, hooks]

/-- The servers of a parent are expanded already. -/
def expandMerged (s : Conversation σ η) (mcp : McpConfig σ) : Program σ η (McpConfig σ) :=
  if s.mcpConfigFromParent then pure s.agent.mcpConfig else expandMcp w mcp

/-- The new agent is in place before it is saved. -/
def replaceAgent (changed : Bool) (context : Option AgentContext) (mcp : McpConfig σ) : Program σ η Unit :=
  if !changed then pure ()
  else do
    modify fun s => { s with agent := { s.agent with agentContext := context, mcpConfig := mcp } }
    withState w do
      let s ← get
      setBase w { s.base with agent := s.agent.spec }

/-- The hook processor of all hooks; it starts the session. -/
def setUpHooks (pluginHooks : List (HookConfig η)) : Program σ η Unit := do
  let s ← get
  match finalHookConfig s.pendingHookConfig pluginHooks with
  | none => pure ()
  | some config =>
    setBase w { s.base with hookConfig := some config }
    installHooks w config

/-- The standalone skills of the marketplaces are the first to be merged. -/
def Merged.start (agent : Agent σ) (skills : List Skill) : Merged σ η where
  context := if skills.isEmpty then agent.agentContext else
    agent.agentContext.map fun context => { context with skills := mergeSkillsByName context.skills skills }
  mcp := agent.mcpConfig
  hasMcpConfig := !agent.mcpConfig.isEmpty
  changed := !skills.isEmpty

/-- The body of `_ensure_plugins_loaded`. `_plugins_loaded` is set at its end. -/
def loadPlugins : Program σ η Unit := do
  let s ← get
  let (sources, skills) ← autoLoads w s.agent.agentContext
  let pluginsToLoad := sources.map (·, true) ++ s.pluginSpecs.map (·, false)
  modify fun s => { s with resolvedPlugins := if pluginsToLoad.isEmpty then s.resolvedPlugins else some [] }
  let loaded ← pluginsToLoad.foldlM (loadSpec w) (Merged.start s.agent skills)
  let merged := ((loaded.addAmbient w).addProjectSkills w).addMemory w
  let mcp ← expandMerged w s merged.mcp
  replaceAgent w (!pluginsToLoad.isEmpty || merged.hasMcpConfig || merged.changed) merged.context mcp
  registerPluginAgents w merged.agents
  setUpHooks w merged.hooks
  modify fun s => { s with pluginsLoaded := true }

/-- `_ensure_plugins_loaded`. -/
def ensurePluginsLoaded : Program σ η Unit := do
  let s ← get
  if s.pluginsLoaded then pure () else loadPlugins w

/-- The agent announces itself: the system prompt, and the context of the session hooks. -/
def announce : Program σ η Unit := do
  outside w.initState
  let s ← get
  if s.hookProcessor.isSome then outside w.injectContext else pure ()

/-- `runtime_mcp_tools` is empty as long as `_initialize` may raise. -/
def startAgent : Program σ η Unit := do
  let s ← get
  if s.agent.supportsOpenhandsTools then do
    initializeAgent w
    let tools ← runtimeMcpToolsForAgent w
    tryCatch (do addRuntimeTools tools; announce w) fun e => do
      closeRuntimeTools tools
      throw e
  else announce w

/-- `_ensure_agent_ready`. -/
def ensureAgentReady : Program σ η Unit := do
  let s ← get
  if s.agentReady then pure ()
  else withState w do
    ensurePluginsLoaded w
    outside w.registerFileAgents
    startAgent w
    modify fun s => { s with agentReady := true }

/-! ## A plugin of a marketplace -/

/-- The marketplaces of the context, with their refs expanded. -/
def marketplaceRegistryFromContext : Program σ η (List MarketplaceRegistration) := do
  let s ← get
  match s.agent.agentContext with
  | none => throw "No agent context available. Configure agent_context with registered_marketplaces to use load_plugin()."
  | some context =>
    if context.registeredMarketplaces.isEmpty then
      throw "No marketplaces registered. Configure registered_marketplaces in AgentContext to use load_plugin()."
    else expandRegistrations w context.registeredMarketplaces

/-- A plugin with what it makes of the agent. -/
structure PreparedPlugin (σ η : Type) where
  spec : PluginSource
  resolvedRef : Option String
  plugin : Plugin σ η
  runtimePluginMcp : McpConfig σ
  context : AgentContext
  mcp : McpConfig σ

/-- `load_plugin` as far as it only reads. -/
def preparePlugin (pluginRef : String) : Program σ η (PreparedPlugin σ η) := do
  let registrations ← marketplaceRegistryFromContext w
  let spec ← outside (w.resolvePlugin registrations pluginRef)
  let source ← outside (w.expandRef spec.source)
  let ref ← expandOption w spec.ref
  let (path, resolvedRef) ← outside (w.fetch { spec with source, ref })
  let plugin ← outside (w.load path)
  let runtimePluginMcp ← expandMcp w plugin.mcpConfig
  let s ← get
  let mcp ← expandMcp w (plugin.addMcpConfigTo s.agent.mcpConfig)
  return { spec, resolvedRef, plugin, runtimePluginMcp, context := plugin.addSkillsTo s.agent.agentContext, mcp }

/-- What the plugin changes, once its tools are there. -/
def applyPlugin (prepared : PreparedPlugin σ η) (runtimeTools : List Tool) : Program σ η Unit := do
  modify fun s => { s with agent := { s.agent with agentContext := some prepared.context, mcpConfig := prepared.mcp } }
  registerPluginAgents w prepared.plugin.agents
  (prepared.plugin.hooks.filter fun hooks => !hooks.isEmpty).forM (mergeRuntimePluginHooks w)
  let resolved := ResolvedPluginSource.fromPluginSource w.redact prepared.spec prepared.resolvedRef
  modify fun s => { s with resolvedPlugins := some (s.resolvedPlugins.getD [] ++ [resolved]) }
  let s ← get
  setBase w { s.base with agent := s.agent.spec }
  if s.agentReady then do
    let skillTools ← runtimeSkillToolsForAgent w
    tryCatch (addRuntimeTools (runtimeTools ++ skillTools)) fun e => do
      closeRuntimeTools runtimeTools
      throw e
  else pure ()

/-- `load_plugin`. The tools of the plugin are created before it changes anything. -/
def loadPlugin (pluginRef : String) : Program σ η Unit := do
  ensurePluginsLoaded w
  let prepared ← preparePlugin w pluginRef
  let s ← get
  let runtimeTools ← runtimeMcpTools w (if s.agentReady then prepared.runtimePluginMcp else [])
  withState w (applyPlugin w prepared runtimeTools)

end

end AgentSdk.PluginLoading
