import AgentSdk.PluginLoading
/-!
# Calls that raise

What a call of `load_plugin`, or a start of the agent, leaves behind when it
raises, and what becomes of the MCP tools over a whole run of calls.
-/

namespace AgentSdk.PluginLoading
open Lib

variable {σ η α β : Type} {w : Outside σ η} {s s' s'' : Conversation σ η}

theorem ends_outside {x : Except Error α} {Q : α → Conversation σ η → Prop} {R : Error → Conversation σ η → Prop}
    (hok : ∀ a, x = .ok a → Q a s) (herror : ∀ e, x = .error e → R e s) : Ends (outside x) s Q R := by
  cases x with
  | ok a => exact hok a rfl
  | error e => exact herror e rfl

/-! ## Programs that only read -/

def Reads (x : Program σ η α) : Prop := ∀ s, Ends x s (fun _ s' => s' = s) fun _ s' => s' = s

theorem Reads.pure (a : α) : Reads (Pure.pure a : Program σ η α) := fun _ => .pure rfl

theorem Reads.throw (e : Error) : Reads (throw e : Program σ η α) := fun _ => .throw rfl

theorem Reads.get : Reads (get : Program σ η (Conversation σ η)) := fun _ => rfl

theorem Reads.outside (x : Except Error α) : Reads (outside x : Program σ η α) :=
  fun _ => ends_outside (fun _ _ => rfl) fun _ _ => rfl

theorem Reads.bind {x : Program σ η α} {f : α → Program σ η β} (hx : Reads x) (hf : ∀ a, Reads (f a)) :
    Reads (x >>= f) := by
  intro s
  refine Ends.bind (hx s) ?_
  rintro a s' rfl
  exact hf a s'

/-- The program only reads, and no more of the conversation than the agent. -/
def Asks (x : Program σ η α) : Prop := ∀ s s', s'.agent = s.agent →
  (∃ a, x s = .ok a s ∧ x s' = .ok a s') ∨ ∃ e, x s = .error e s ∧ x s' = .error e s'

theorem Asks.reads {x : Program σ η α} (h : Asks x) : Reads x := by
  intro s
  unfold Ends
  rcases h s s rfl with ⟨a, ha, -⟩ | ⟨e, he, -⟩
  · rw [ha]
  · rw [he]

theorem Asks.pure (a : α) : Asks (Pure.pure a : Program σ η α) := fun _ _ _ => .inl ⟨a, rfl, rfl⟩

theorem Asks.throw (e : Error) : Asks (throw e : Program σ η α) := fun _ _ _ => .inr ⟨e, rfl, rfl⟩

theorem Asks.outside (x : Except Error α) : Asks (outside x : Program σ η α) := by
  intro s s' _
  cases x with
  | ok a => exact .inl ⟨a, rfl, rfl⟩
  | error e => exact .inr ⟨e, rfl, rfl⟩

theorem Asks.bind {x : Program σ η α} {f : α → Program σ η β} (hx : Asks x) (hf : ∀ a, Asks (f a)) :
    Asks (x >>= f) := by
  intro s s' hagent
  simp only [Bind.bind, EStateM.bind]
  rcases hx s s' hagent with ⟨a, ha, ha'⟩ | ⟨e, he, he'⟩
  · rw [ha, ha']
    exact hf a s s' hagent
  · rw [he, he']
    exact .inr ⟨e, rfl, rfl⟩

theorem Asks.get_then {k : Conversation σ η → Program σ η α} (hsame : ∀ s s', s'.agent = s.agent → k s' = k s)
    (hk : ∀ s, Asks (k s)) : Asks (get >>= k) := by
  intro s s' hagent
  show (∃ a, k s s = .ok a s ∧ k s' s' = .ok a s') ∨ ∃ e, k s s = .error e s ∧ k s' s' = .error e s'
  rw [hsame s s' hagent]
  exact hk s s s' hagent

theorem Asks.mapM {f : α → Program σ η β} (hf : ∀ a, Asks (f a)) (as : List α) : Asks (as.mapM f) := by
  induction as with
  | nil => exact .pure []
  | cons a as ih =>
    rw [List.mapM_cons]
    exact (hf a).bind fun b => ih.bind fun bs => .pure _

theorem Asks.ok_iff {x : Program σ η α} (h : Asks x) (hagent : s'.agent = s.agent) {a : α} :
    x s' = .ok a s' ↔ x s = .ok a s := by
  rcases h s s' hagent with ⟨b, hb, hb'⟩ | ⟨e, he, he'⟩
  · simp [hb, hb']
  · simp [he, he']

theorem Asks.error_iff {x : Program σ η α} (h : Asks x) (hagent : s'.agent = s.agent) {e : Error} :
    x s' = .error e s' ↔ x s = .error e s := by
  rcases h s s' hagent with ⟨b, hb, hb'⟩ | ⟨e, he, he'⟩
  · simp [hb, hb']
  · simp [he, he']

/-! ## The end of a block -/

variable (w)

/-- The file after the state was left. -/
def leftDisk (s : Conversation σ η) : Option (BaseState σ η) :=
  if s.saveDepth - 1 = 0 ∧ s.dirty then
    s.disk.map fun old =>
      match w.save s.base with
      | .ok _ => s.base
      | .error _ => old
  else s.disk

/-- Leaving the state changes the file and the marks of a save, whether it raises or not. -/
def Left (s s' : Conversation σ η) : Prop :=
  s'.disk = leftDisk w s ∧ ∃ depth dirty disk, s' = { s with saveDepth := depth, dirty := dirty, disk := disk }

theorem exitState_ends (s : Conversation σ η) : Ends (exitState w) s (fun _ => Left w s) fun _ => Left w s := by
  unfold Ends exitState saveBaseState Left leftDisk
  by_cases hsave : s.saveDepth - 1 = 0 ∧ s.dirty
  · cases hdisk : s.disk with
    | none => simp only [if_pos hsave, Option.map_none]; exact ⟨trivial, _, _, _, rfl⟩
    | some old =>
      cases hw : w.save s.base with
      | ok u => simp only [if_pos hsave, Option.map_some]; exact ⟨trivial, _, _, _, rfl⟩
      | error e => simp only [if_pos hsave, Option.map_some]; exact ⟨trivial, _, _, _, rfl⟩
  · simp only [if_neg hsave]
    exact ⟨trivial, _, _, _, rfl⟩

theorem ends_withState {x : Program σ η α} {Q : α → Conversation σ η → Prop} {R : Error → Conversation σ η → Prop}
    {Q' : α → Conversation σ η → Prop} {R' : Conversation σ η → Prop}
    (hx : Ends x { s with saveDepth := s.saveDepth + 1 } Q R)
    (hok : ∀ a s₁ s₂, Q a s₁ → Left w s₁ s₂ → Q' a s₂ ∧ R' s₂)
    (herror : ∀ e s₁ s₂, R e s₁ → Left w s₁ s₂ → R' s₂) :
    Ends (withState w x) s Q' fun _ => R' := by
  unfold Ends at hx ⊢
  unfold withState
  cases hrun : x { s with saveDepth := s.saveDepth + 1 } with
  | ok a s₁ =>
    rw [hrun] at hx
    have hexit := exitState_ends w s₁
    unfold Ends at hexit
    cases hleft : exitState w s₁ with
    | ok u s₂ =>
      rw [hleft] at hexit
      simp only [hleft]
      exact (hok a s₁ s₂ hx hexit).1
    | error e s₂ =>
      rw [hleft] at hexit
      simp only [hleft]
      exact (hok a s₁ s₂ hx hexit).2
  | error e s₁ =>
    rw [hrun] at hx
    have hexit := exitState_ends w s₁
    unfold Ends at hexit
    cases hleft : exitState w s₁ with
    | ok u s₂ =>
      rw [hleft] at hexit
      simp only [hleft]
      exact herror e s₁ s₂ hx hexit
    | error e' s₂ =>
      rw [hleft] at hexit
      simp only [hleft]
      exact herror e s₁ s₂ hx hexit

/-! ## Before anything changes -/

theorem expandOption_asks (ref : Option String) : Asks (expandOption w ref) := by
  unfold expandOption
  split
  · exact .pure _
  · exact .pure _
  · exact (Asks.outside _).bind fun _ => .pure _

theorem expandRegistrations_asks (registrations : List MarketplaceRegistration) :
    Asks (expandRegistrations w registrations) := by
  refine Asks.mapM (fun registration => (Asks.outside _).bind fun source => ?_) registrations
  exact (expandOption_asks w _).bind fun ref => .pure _

theorem expandMcp_asks (mcp : McpConfig σ) : Asks (expandMcp w mcp) := by
  unfold expandMcp
  split
  · exact .pure _
  · exact .outside _

theorem registry_asks : Asks (marketplaceRegistryFromContext w) := by
  refine Asks.get_then (fun s s' h => by simp only [h]) fun s => ?_
  split
  · exact .throw _
  · split
    · exact .throw _
    · exact expandRegistrations_asks w _

theorem preparePlugin_asks (pluginRef : String) : Asks (preparePlugin w pluginRef) := by
  refine (registry_asks w).bind fun registrations => ?_
  refine (Asks.outside _).bind fun spec => (Asks.outside _).bind fun source => ?_
  refine (expandOption_asks w _).bind fun ref => (Asks.outside _).bind fun ⟨path, resolvedRef⟩ => ?_
  refine (Asks.outside _).bind fun plugin => (expandMcp_asks w _).bind fun runtimePluginMcp => ?_
  exact Asks.get_then (fun s s' h => by simp only [h]) fun s => (expandMcp_asks w _).bind fun mcp => .pure _

theorem preparePlugin_reads (pluginRef : String) : Reads (preparePlugin w pluginRef) := (preparePlugin_asks w pluginRef).reads

theorem preparePlugin_ends (pluginRef : String) (s : Conversation σ η) :
    Ends (preparePlugin w pluginRef) s (fun prepared s' => s' = s ∧ preparePlugin w pluginRef s = .ok prepared s)
      fun e s' => s' = s ∧ preparePlugin w pluginRef s = .error e s := by
  have hreads := preparePlugin_reads w pluginRef s
  unfold Ends at hreads ⊢
  cases h : preparePlugin w pluginRef s with
  | ok prepared s' =>
    rw [h] at hreads
    exact ⟨hreads, by rw [show s' = s from hreads]⟩
  | error e s' =>
    rw [h] at hreads
    exact ⟨hreads, by rw [show s' = s from hreads]⟩

/-! ## A plugin that is not loaded -/

/-- What a failed call has to leave as it was. -/
structure Unchanged (s s' : Conversation σ η) : Prop where
  agent : s'.agent = s.agent
  base : s'.base = s.base
  disk : s'.disk = s.disk
  pendingHookConfig : s'.pendingHookConfig = s.pendingHookConfig
  hookProcessor : s'.hookProcessor = s.hookProcessor
  sessions : s'.sessions = s.sessions
  resolvedPlugins : s'.resolvedPlugins = s.resolvedPlugins
  openClients : s'.openClients = s.openClients

omit w in
theorem Unchanged.rfl : Unchanged s s := ⟨by rfl, by rfl, by rfl, by rfl, by rfl, by rfl, by rfl, by rfl⟩

omit w in
theorem Unchanged.trans (h : Unchanged s s') (h' : Unchanged s' s'') : Unchanged s s'' :=
  ⟨h'.agent.trans h.agent, h'.base.trans h.base, h'.disk.trans h.disk, h'.pendingHookConfig.trans h.pendingHookConfig,
    h'.hookProcessor.trans h.hookProcessor, h'.sessions.trans h.sessions, h'.resolvedPlugins.trans h.resolvedPlugins,
    h'.openClients.trans h.openClients⟩

omit w in
theorem Unchanged.symm (h : Unchanged s s') : Unchanged s' s :=
  ⟨h.agent.symm, h.base.symm, h.disk.symm, h.pendingHookConfig.symm, h.hookProcessor.symm, h.sessions.symm,
    h.resolvedPlugins.symm, h.openClients.symm⟩

/-- The servers of the plugin are connected to. -/
def OpensClient (s : Conversation σ η) (prepared : PreparedPlugin σ η) : Prop :=
  s.agentReady = true ∧ (enabledMcpServers prepared.runtimePluginMcp).isEmpty = false ∧
    ∃ names, w.createTools (enabledMcpServers prepared.runtimePluginMcp) = .ok names

/-- A save that failed earlier is made up for when the state is left. -/
def SavesLate (s : Conversation σ η) : Prop :=
  s.saveDepth = 0 ∧ s.dirty = true ∧ w.save s.base = .ok () ∧ ∃ old, s.disk = some old ∧ old ≠ s.base

/-- The call raises before it changes anything, or where it registers agents and has changed
nothing up to there. -/
def RaisesClean (s : Conversation σ η) (pluginRef : String) : Prop :=
  (∃ e, preparePlugin w pluginRef s = .error e s) ∨
    ∃ prepared, preparePlugin w pluginRef s = .ok prepared s ∧
      (∃ agent ∈ prepared.plugin.agents, ∃ e, w.registerAgent agent = .error e) ∧
      some prepared.context = s.agent.agentContext ∧ prepared.mcp = s.agent.mcpConfig ∧
      ¬ OpensClient w s prepared ∧ ¬ SavesLate w s

/-- A plugin finds the same conversation. -/
structure Steady (s s' : Conversation σ η) : Prop where
  unchanged : Unchanged s s'
  ready : s'.agentReady = s.agentReady
  late : SavesLate w s' ↔ SavesLate w s

variable {w} in
theorem Steady.rfl : Steady w s s := ⟨.rfl, by rfl, .rfl⟩

variable {w} in
theorem Steady.trans (h : Steady w s s') (h' : Steady w s' s'') : Steady w s s'' :=
  ⟨h.unchanged.trans h'.unchanged, h'.ready.trans h.ready, h'.late.trans h.late⟩

variable {w} in
theorem Steady.raisesClean (h : Steady w s s') (pluginRef : String) :
    RaisesClean w s' pluginRef ↔ RaisesClean w s pluginRef := by
  have hagent := h.unchanged.agent
  unfold RaisesClean OpensClient
  simp only [(preparePlugin_asks w pluginRef).ok_iff hagent, (preparePlugin_asks w pluginRef).error_iff hagent,
    h.ready, h.late, hagent]

theorem leftDisk_eq_iff {depth : Nat} (hdepth : s.saveDepth = depth + 1) :
    leftDisk w s = s.disk ↔ ¬ SavesLate w { s with saveDepth := depth } := by
  unfold leftDisk SavesLate
  rw [hdepth, Nat.add_sub_cancel]
  by_cases hsave : depth = 0 ∧ s.dirty = true
  · rw [if_pos hsave]
    cases hdisk : s.disk with
    | none => simp
    | some old =>
      cases hw : w.save s.base with
      | ok u => simp [hsave, eq_comm]
      | error e => simp
  · rw [if_neg hsave]
    simp only [true_iff]
    rintro ⟨h, hdirty, -⟩
    exact hsave ⟨h, hdirty⟩

/-- Agents are registered up to the first one that raises. -/
theorem registerPluginAgents_ends (agents : List AgentDefinition) (s : Conversation σ η) :
    Ends (registerPluginAgents w agents) s
      (fun _ s' => (∃ names, s' = { s with registered := names }) ∧ ∀ agent ∈ agents, ∀ e, w.registerAgent agent ≠ .error e)
      fun _ s' => (∃ names, s' = { s with registered := names }) ∧
        ∃ agent ∈ agents, ∃ e, w.registerAgent agent = .error e := by
  induction agents generalizing s with
  | nil => exact .pure ⟨⟨_, rfl⟩, fun agent h => absurd h List.not_mem_nil⟩
  | cons agent agents ih =>
    show Ends (_ >>= fun _ => registerPluginAgents w agents) s _ _
    refine Ends.bind (Q := fun _ s' =>
      (∃ names, s' = { s with registered := names }) ∧ ∀ e, w.registerAgent agent ≠ .error e) ?_ ?_
    · refine Ends.bind (Q := fun _ s' => s' = s ∧ ∀ e, w.registerAgent agent ≠ .error e) ?_ ?_
      · refine ends_outside (fun isNew h => ⟨rfl, fun e he => ?_⟩) fun e h => ⟨⟨_, rfl⟩, agent, List.mem_cons_self, e, h⟩
        rw [h] at he
        cases he
      · rintro isNew s' ⟨rfl, h⟩
        split
        · exact ⟨⟨_, rfl⟩, h⟩
        · exact ⟨⟨_, rfl⟩, h⟩
    · rintro ⟨⟩ s' ⟨⟨names, rfl⟩, h⟩
      refine (ih _).mono ?_ ?_
      · rintro ⟨⟩ s' ⟨⟨names', rfl⟩, hrest⟩
        exact ⟨⟨_, rfl⟩, List.forall_mem_cons.2 ⟨h, hrest⟩⟩
      · rintro e s' ⟨⟨names', rfl⟩, agent', hmem, herror⟩
        exact ⟨⟨_, rfl⟩, agent', List.mem_cons_of_mem _ hmem, herror⟩

/-- The resolved plugins and the steps of hook sessions. -/
def marks (s : Conversation σ η) : Nat := (s.resolvedPlugins.getD []).length + s.sessions.length

theorem marks_unchanged (h : Unchanged s s') : marks s' = marks s := by
  unfold marks
  rw [h.resolvedPlugins, h.sessions]

theorem marks_left (h : Left w s s') : marks s' = marks s := by
  obtain ⟨-, depth, dirty, disk, rfl⟩ := h
  rfl

theorem addRuntimeTools_marks (tools : List Tool) :
    Ends (addRuntimeTools tools : Program σ η Unit) s (fun _ s' => marks s' = marks s) fun _ s' => marks s' = marks s := by
  refine Ends.get_then ?_
  dsimp only
  split
  · exact .pure rfl
  · split
    · exact .throw rfl
    · split
      · exact .throw rfl
      · rfl

theorem runtimeSkillTools_reads : Reads (runtimeSkillToolsForAgent w) := by
  refine Reads.get.bind fun s => ?_
  split
  · exact .pure _
  · split
    · exact .throw _
    · split
      · exact .pure _
      · exact (Reads.outside _).bind fun _ => .pure _

theorem endSession_marks (processor : Option (HookProcessor η)) :
    Ends (processor.forM (runSessionEnd w)) s
      (fun _ s' => marks s ≤ marks s' ∧ s'.saveDepth = s.saveDepth) fun _ s' => marks s < marks s' := by
  cases processor with
  | none => exact .pure ⟨Nat.le_refl _, rfl⟩
  | some previous =>
    refine Ends.modify_then (ends_outside (fun _ _ => ?_) fun _ _ => ?_)
    · simp [marks]
    · simp [marks]

theorem installHooks_marks (config : HookConfig η) :
    Ends (installHooks w config) s (fun _ s' => marks s < marks s' ∧ s'.saveDepth = s.saveDepth)
      fun _ s' => marks s < marks s' := by
  refine Ends.modify_then (ends_outside (fun _ _ => ?_) fun _ _ => ?_)
  · simp [marks]
  · simp [marks]

/-- A client is opened, and its tools are returned. -/
theorem runtimeMcpTools_ends (config : McpConfig σ) :
    Ends (runtimeMcpTools w config) s
      (fun tools s' => (tools = [] ∧ s' = s ∧ ∀ names, (enabledMcpServers config).isEmpty = false →
          w.createTools (enabledMcpServers config) ≠ .ok names) ∨
        ∃ names, w.createTools (enabledMcpServers config) = .ok names ∧ (enabledMcpServers config).isEmpty = false ∧
          tools = names.map (fun name => { name, client := some s.nextClient }) ∧
          s' = { s with openClients := s.nextClient :: s.openClients, nextClient := s.nextClient + 1 })
      fun _ _ => False := by
  unfold runtimeMcpTools
  split
  · rename_i hempty
    exact .pure (.inl ⟨rfl, rfl, fun _ h => by simp [hempty] at h⟩)
  · rename_i hnonempty
    split
    · rename_i e herror
      refine .pure (.inl ⟨rfl, rfl, fun names _ h => ?_⟩)
      rw [herror] at h
      cases h
    · rename_i names hnames
      exact Ends.get_then (.inr ⟨names, hnames, by simpa using hnonempty, rfl, rfl⟩)

variable [DecidableEq σ] [DecidableEq η]

/-- Under `with self._state` a field is set without a save. -/
theorem setBase_inside (base : BaseState σ η) (hdepth : 0 < s.saveDepth) :
    Ends (setBase w base) s (fun _ s' => ∃ dirty, s' = { s with base, dirty }) fun _ _ => False := by
  unfold Ends setBase
  by_cases h : (s.disk.isNone || decide (base = s.base)) = true
  · simp only [if_pos h]
    exact ⟨s.dirty, rfl⟩
  · simp only [if_neg h, if_pos hdepth]
    exact ⟨true, rfl⟩

/-- Merging hooks that raises has ended the previous session or started a new one. -/
theorem mergeHooks_marks (hooks : HookConfig η) (hdepth : 0 < s.saveDepth) :
    Ends (mergeRuntimePluginHooks w hooks) s (fun _ s' => marks s ≤ marks s' ∧ s'.saveDepth = s.saveDepth)
      fun _ s' => marks s < marks s' := by
  refine Ends.get_then ?_
  dsimp only
  split
  · exact .pure ⟨Nat.le_refl _, rfl⟩
  refine (endSession_marks w _).bind ?_
  rintro ⟨⟩ s₁ ⟨hmarks, hsame⟩
  refine Ends.bind ((setBase_inside w _ (by omega)).mono (fun _ _ h => h) fun _ _ h => h.elim) ?_
  rintro ⟨⟩ s₂ ⟨dirty, rfl⟩
  refine Ends.modify_then ((installHooks_marks w _).mono ?_ ?_)
  · rintro ⟨⟩ s₃ ⟨hlt, hdepth₃⟩
    exact ⟨Nat.le_trans hmarks (Nat.le_of_lt hlt), hdepth₃.trans hsame⟩
  · rintro e s₃ hlt
    exact Nat.lt_of_le_of_lt hmarks hlt

/-- Once the agents are registered, what raises comes after a mark that the call has left. -/
theorem applied_marks (prepared : PreparedPlugin σ η) (tools : List Tool) (hdepth : 0 < s.saveDepth) :
    Ends (do
      (prepared.plugin.hooks.filter fun hooks => !hooks.isEmpty).forM (mergeRuntimePluginHooks w)
      let resolved := ResolvedPluginSource.fromPluginSource w.redact prepared.spec prepared.resolvedRef
      modify fun s => { s with resolvedPlugins := some (s.resolvedPlugins.getD [] ++ [resolved]) }
      let s ← get
      setBase w { s.base with agent := s.agent.spec }
      if s.agentReady then do
        let skillTools ← runtimeSkillToolsForAgent w
        tryCatch (addRuntimeTools (tools ++ skillTools)) fun e => do
          closeRuntimeTools tools
          throw e
      else pure ()) s (fun _ s' => marks s < marks s') fun _ s' => marks s < marks s' := by
  refine Ends.bind (Q := fun _ s' => marks s ≤ marks s' ∧ s'.saveDepth = s.saveDepth) ?_ ?_
  · cases prepared.plugin.hooks.filter fun hooks => !hooks.isEmpty with
    | none => exact .pure ⟨Nat.le_refl _, rfl⟩
    | some hooks => exact mergeHooks_marks w hooks hdepth
  rintro ⟨⟩ s₁ ⟨hmarks, hsame⟩
  refine Ends.modify_then (Ends.get_then ?_)
  have hlt : ∀ {s₂ : Conversation σ η}, s₂.resolvedPlugins = some (s₁.resolvedPlugins.getD [] ++
      [ResolvedPluginSource.fromPluginSource w.redact prepared.spec prepared.resolvedRef]) →
      s₂.sessions = s₁.sessions → marks s < marks s₂ := by
    intro s₂ hresolved hsessions
    unfold marks at hmarks ⊢
    rw [hresolved, hsessions, Option.getD_some, List.length_append, List.length_singleton]
    omega
  have hdepth₁ : 0 < s₁.saveDepth := hsame ▸ hdepth
  refine Ends.bind ((setBase_inside w _ ?_).mono (fun _ _ h => h) fun _ _ h => h.elim) ?_
  · exact hdepth₁
  rintro ⟨⟩ s₂ ⟨dirty, rfl⟩
  split
  · refine Ends.bind ((runtimeSkillTools_reads w _).mono (fun _ _ h => h) ?_) ?_
    · rintro e s' rfl
      exact hlt rfl rfl
    · rintro skillTools s' rfl
      refine Ends.tryCatch ((addRuntimeTools_marks _).mono ?_ fun _ _ h => h) ?_
      · intro _ s' h
        rw [h]
        exact hlt rfl rfl
      · intro e s' h
        refine Ends.modify_then (.throw ?_)
        show marks s < marks s'
        rw [h]
        exact hlt rfl rfl
  · exact .pure (hlt rfl rfl)

/-- Where its agents are being registered the call has replaced the agent already; from there on it has
left a mark in the resolved plugins or the hook sessions, and the clash of a tool's name comes last. -/
theorem loaded_ends (pluginRef : String) (s : Conversation σ η) :
    Ends (do
      let prepared ← preparePlugin w pluginRef
      let s ← get
      let runtimeTools ← runtimeMcpTools w (if s.agentReady then prepared.runtimePluginMcp else [])
      withState w (applyPlugin w prepared runtimeTools)) s
      (fun _ _ => True) fun _ s' => Unchanged s s' ↔ RaisesClean w s pluginRef := by
  refine Ends.bind ((preparePlugin_ends w pluginRef s).mono (fun _ _ h => h) ?_) ?_
  · rintro e s₂ ⟨rfl, hprepare⟩
    exact ⟨fun _ => .inl ⟨e, hprepare⟩, fun _ => ⟨rfl, rfl, rfl, rfl, rfl, rfl, rfl, rfl⟩⟩
  rintro prepared s₂ ⟨rfl, hprepare⟩
  refine Ends.get_then (Ends.bind ((runtimeMcpTools_ends w _).mono (fun _ _ h => h) fun _ _ h => h.elim) ?_)
  intro tools s₃ hopen
  -- Whether a client was opened is known before anything is changed.
  have hopen' : (s₃ = s₂ ∧ ¬ OpensClient w s₂ prepared) ∨
      s₃ = { s₂ with openClients := s₂.nextClient :: s₂.openClients, nextClient := s₂.nextClient + 1 } ∧
        OpensClient w s₂ prepared := by
    unfold OpensClient
    cases hready : s₂.agentReady with
    | true =>
      rw [hready, if_pos rfl] at hopen
      rcases hopen with ⟨-, rfl, hnone⟩ | ⟨names, hnames, hnonempty, -, rfl⟩
      · exact .inl ⟨rfl, fun ⟨_, hnonempty, names, h⟩ => hnone names hnonempty h⟩
      · exact .inr ⟨rfl, rfl, hnonempty, names, hnames⟩
    | false =>
      rw [hready, if_neg Bool.false_ne_true] at hopen
      rcases hopen with ⟨-, rfl, -⟩ | ⟨names, -, hnonempty, -⟩
      · exact .inl ⟨rfl, fun h => Bool.noConfusion h.1⟩
      · cases hnonempty
  clear hopen
  obtain ⟨clients, next, rfl, hclients⟩ : ∃ clients next, s₃ = { s₂ with openClients := clients, nextClient := next } ∧
      (clients = s₂.openClients ↔ ¬ OpensClient w s₂ prepared) := by
    rcases hopen' with ⟨rfl, h⟩ | ⟨rfl, h⟩
    · exact ⟨_, _, rfl, fun _ => h, fun _ => rfl⟩
    · exact ⟨_, _, rfl, fun hsame => absurd hsame (List.cons_ne_self _ _), fun hnot => absurd h hnot⟩
  clear hopen'
  -- Behind the registration of the agents the marks only grow, so that nothing can be as it was.
  have hlater : ∀ s₄ s₅, marks s₂ < marks s₄ → (∀ agent ∈ prepared.plugin.agents, ∀ e, w.registerAgent agent ≠ .error e) →
      Left w s₄ s₅ → (Unchanged s₂ s₅ ↔ RaisesClean w s₂ pluginRef) := by
    intro s₄ s₅ hlt hregister hleft
    rw [← marks_left w hleft] at hlt
    refine iff_of_false (fun h => Nat.lt_irrefl _ (marks_unchanged h ▸ hlt)) ?_
    rintro (⟨e, herror⟩ | ⟨prepared', hprepare', ⟨agent, hmem, e, herror⟩, -⟩)
    · rw [hprepare] at herror
      cases herror
    · rw [hprepare] at hprepare'
      cases hprepare'
      exact hregister agent hmem e herror
  refine ends_withState w (Q := fun _ s₄ =>
      marks s₂ < marks s₄ ∧ ∀ agent ∈ prepared.plugin.agents, ∀ e, w.registerAgent agent ≠ .error e)
    (R := fun _ s₄ => (marks s₂ < marks s₄ ∧ ∀ agent ∈ prepared.plugin.agents, ∀ e, w.registerAgent agent ≠ .error e) ∨
      (∃ names, s₄ = { s₂ with
        agent := { s₂.agent with agentContext := some prepared.context, mcpConfig := prepared.mcp }
        saveDepth := s₂.saveDepth + 1
        openClients := clients
        nextClient := next
        registered := names }) ∧ ∃ agent ∈ prepared.plugin.agents, ∃ e, w.registerAgent agent = .error e) ?_ ?_ ?_
  · refine Ends.modify_then (Ends.bind ((registerPluginAgents_ends w _ _).mono (fun _ _ h => h) fun e s₄ h => .inr h) ?_)
    rintro ⟨⟩ s₄ ⟨⟨names, rfl⟩, hregister⟩
    exact (applied_marks w prepared tools (Nat.succ_pos _)).mono (fun _ s₅ h => ⟨h, hregister⟩)
      fun _ s₅ h => .inl ⟨h, hregister⟩
  · rintro ⟨⟩ s₄ s₅ ⟨hlt, hregister⟩ hleft
    exact ⟨trivial, hlater s₄ s₅ hlt hregister hleft⟩
  · rintro e s₄ s₅ (⟨hlt, hregister⟩ | ⟨⟨names, rfl⟩, hraise⟩) hleft
    · exact hlater s₄ s₅ hlt hregister hleft
    -- The agents raised: all that may differ is the agent, the client and a save made up for.
    obtain ⟨hdisk, depth, dirty, disk, rfl⟩ := hleft
    have hlate : disk = s₂.disk ↔ ¬ SavesLate w s₂ := by
      rw [show disk = _ from hdisk]
      exact leftDisk_eq_iff w (s := { s₂ with saveDepth := s₂.saveDepth + 1 }) rfl
    constructor
    · intro h
      have hagent := h.agent
      rw [Agent.mk.injEq] at hagent
      exact .inr ⟨prepared, hprepare, hraise, hagent.1, hagent.2.1, hclients.1 h.openClients, hlate.1 h.disk⟩
    · rintro (⟨e, herror⟩ | ⟨prepared', hprepare', -, hcontext, hmcp, hclosed, hsaved⟩)
      · rw [hprepare] at herror
        cases herror
      · rw [hprepare] at hprepare'
        cases hprepare'
        refine ⟨?_, rfl, hlate.2 hsaved, rfl, rfl, rfl, rfl, hclients.2 hclosed⟩
        rw [hcontext, hmcp]

/-- A call of `load_plugin` that raises leaves a conversation whose plugins are loaded as it was
exactly if it raises before it changes anything. -/
theorem failed_load_unchanged_iff (w : Outside σ η) (s : Conversation σ η) (pluginRef : String)
    (hloaded : s.pluginsLoaded = true) (e : Error) (s' : Conversation σ η)
    (h : loadPlugin w pluginRef s = .error e s') : Unchanged s s' ↔ RaisesClean w s pluginRef := by
  refine Ends.of_error (Q := fun _ _ => True) (R := fun _ s' => Unchanged s s' ↔ RaisesClean w s pluginRef) ?_ h
  refine Ends.bind (Q := fun _ s₁ => s₁ = s) (Ends.get_then ?_) ?_
  · rw [if_pos hloaded]
    exact .pure rfl
  rintro ⟨⟩ s₁ rfl
  exact loaded_ends w pluginRef s₁

/-- A plugin with one server, whose tool has the name of a tool that is there. -/
theorem failed_load_unchanged_iff_clash :
    let w : Outside Unit Unit := { Outside.quiet Unit Unit with
      load := fun path => .ok { name := path, mcpConfig := [("m", { config := () })] }
      createTools := fun _ => .ok ["t"] }
    let context : AgentContext := { registeredMarketplaces := [{ name := "m", source := "m" }] }
    let s : Conversation Unit Unit := {
      agent := { agentContext := some context, tools := [("t", { name := "t" })], initialized := true }
      base := { agent := ⟨some context, []⟩, hookConfig := none }
      pluginsLoaded := true
      agentReady := true }
    Unchanged s { s with
        agent := { s.agent with mcpConfig := [("m", { config := () })] }
        base := { agent := ⟨some context, [("m", { config := () })]⟩, hookConfig := none }
        resolvedPlugins := some [{ source := "p", resolvedRef := none, repoPath := none, originalRef := none }]
        nextClient := 1 } ↔
      RaisesClean w s "p" :=
  failed_load_unchanged_iff _ _ _ rfl _ _ rfl

/-! ## The plugins of the first use -/

def pluginsToLoad (s : Conversation σ η) (sources : List PluginSource) : List (PluginSource × Bool) :=
  sources.map (·, true) ++ s.pluginSpecs.map (·, false)

/-- The plugins are loaded one after another, and listed anew as they are resolved. -/
def resolveAll (s : Conversation σ η) (sources : List PluginSource) (skills : List Skill) :
    EStateM.Result Error (Conversation σ η) (Merged σ η) :=
  (pluginsToLoad s sources).foldlM (loadSpec w) (Merged.start s.agent skills)
    { s with resolvedPlugins := if (pluginsToLoad s sources).isEmpty then s.resolvedPlugins else some [] }

/-- The first use is about to give the agent what was merged; the resolved plugins have come out as they
were, and `replaces` is whether there is anything to give. -/
def Merges (s : Conversation σ η) (merged : Merged σ η) (replaces : Bool) : Prop :=
  ∃ sources skills loaded, autoLoads w s.agent.agentContext s = .ok (sources, skills) s ∧
    resolveAll w s sources skills = .ok loaded s ∧
    merged = ((loaded.addAmbient w).addProjectSkills w).addMemory w ∧
    replaces = (!(pluginsToLoad s sources).isEmpty || merged.hasMcpConfig || merged.changed)

/-- The agent is not replaced, or by one that has what it has. -/
def SameAgent (s : Conversation σ η) (merged : Merged σ η) (mcp : McpConfig σ) (replaces : Bool) : Prop :=
  replaces = true →
    merged.context = s.agent.agentContext ∧ mcp = s.agent.mcpConfig ∧ s.base.agent = s.agent.spec ∧ ¬ SavesLate w s

/-- A save that failed earlier fails again when the state is left. -/
def SaveRaises (s : Conversation σ η) : Prop :=
  s.saveDepth = 0 ∧ s.dirty = true ∧ s.disk.isSome = true ∧ ∃ e, w.save s.base = .error e

/-- The first use raises before it changes anything. -/
def FirstUseRaises (s : Conversation σ η) : Prop :=
  s.pluginsLoaded = false ∧ ((∃ e, autoLoads w s.agent.agentContext s = .error e s) ∨
    (∃ sources skills e, autoLoads w s.agent.agentContext s = .ok (sources, skills) s ∧
      resolveAll w s sources skills = .error e s) ∨
    ∃ merged replaces, Merges w s merged replaces ∧ ((∃ e, expandMerged w s merged.mcp s = .error e s) ∨
      ∃ mcp, expandMerged w s merged.mcp s = .ok mcp s ∧ SameAgent w s merged mcp replaces ∧
        (replaces = true ∧ SaveRaises w s ∨ ∃ agent ∈ merged.agents, ∃ e, w.registerAgent agent = .error e)))

/-- The plugins are loaded, or loading them changes nothing. -/
def FirstUsePasses (s : Conversation σ η) : Prop :=
  s.pluginsLoaded = true ∨ ∃ merged replaces mcp, Merges w s merged replaces ∧
    expandMerged w s merged.mcp s = .ok mcp s ∧ SameAgent w s merged mcp replaces ∧
    finalHookConfig s.pendingHookConfig merged.hooks = none

/-- The call raises before it changes anything, in what it loads first or in its own plugin. -/
def RaisesCleanly (s : Conversation σ η) (pluginRef : String) : Prop :=
  FirstUseRaises w s ∨ FirstUsePasses w s ∧ RaisesClean w s pluginRef

/-- A block that does nothing is left with nothing changed, unless a save is made up for. -/
theorem withState_idle {x : Program σ η α} {a : α}
    (hx : x { s with saveDepth := s.saveDepth + 1 } = .ok a { s with saveDepth := s.saveDepth + 1 })
    (hlate : ¬ SavesLate w s) :
    Ends (withState w x) s (fun _ s' => Steady w s s' ∧ ¬ SaveRaises w s) fun _ s' => Unchanged s s' ∧ SaveRaises w s := by
  unfold Ends withState
  rw [hx]
  unfold exitState saveBaseState
  simp only [Nat.add_sub_cancel]
  by_cases hsave : s.saveDepth = 0 ∧ s.dirty = true
  · have hclean : ∀ s₁ : Conversation σ η, s₁.dirty = false → (SavesLate w s₁ ↔ SavesLate w s) := by
      intro s₁ hdirty
      refine iff_of_false (fun h => ?_) hlate
      rw [h.2.1] at hdirty
      cases hdirty
    cases hdisk : s.disk with
    | none =>
      simp only [if_pos hsave]
      refine ⟨⟨⟨rfl, rfl, hdisk.symm, rfl, rfl, rfl, rfl, rfl⟩, rfl, hclean _ rfl⟩, ?_⟩
      rintro ⟨-, -, hsome, -⟩
      rw [hdisk] at hsome
      cases hsome
    | some old =>
      cases hw : w.save s.base with
      | ok u =>
        have hold : old = s.base := by
          by_contra hne
          exact hlate ⟨hsave.1, hsave.2, hw, old, hdisk, hne⟩
        simp only [if_pos hsave]
        refine ⟨⟨⟨rfl, rfl, (hdisk.trans (congrArg some hold)).symm, rfl, rfl, rfl, rfl, rfl⟩, rfl, hclean _ rfl⟩, ?_⟩
        rintro ⟨-, -, -, e, he⟩
        rw [hw] at he
        cases he
      | error e =>
        simp only [if_pos hsave]
        exact ⟨⟨rfl, rfl, hdisk.symm, rfl, rfl, rfl, rfl, rfl⟩, hsave.1, hsave.2, hdisk ▸ rfl, e, hw⟩
  · simp only [if_neg hsave]
    exact ⟨.rfl, fun h => hsave ⟨h.1, h.2.1⟩⟩

theorem replaceAgent_ends {merged : Merged σ η} {mcp : McpConfig σ} {replaces : Bool} (h : SameAgent w s merged mcp replaces) :
    Ends (replaceAgent w replaces merged.context mcp) s
      (fun _ s' => Steady w s s' ∧ ¬ (replaces = true ∧ SaveRaises w s))
      fun _ s' => Unchanged s s' ∧ replaces = true ∧ SaveRaises w s := by
  unfold replaceAgent
  cases replaces with
  | false => exact .pure ⟨.rfl, fun h => Bool.noConfusion h.1⟩
  | true =>
    obtain ⟨hcontext, hmcp, hspec, hlate⟩ := h rfl
    rw [if_neg (by decide), hcontext, hmcp]
    refine Ends.modify_then ((withState_idle w (s := s) (a := ()) ?_ hlate).mono ?_ ?_)
    · show setBase w { s.base with agent := s.agent.spec } { s with saveDepth := s.saveDepth + 1 } = _
      rw [← hspec]
      simp [setBase]
    · rintro ⟨⟩ s' ⟨hsteady, hno⟩
      exact ⟨hsteady, fun h => hno h.2⟩
    · rintro e s' ⟨hunchanged, hraises⟩
      exact ⟨hunchanged, rfl, hraises⟩

/-- What is left of the first use once everything is merged. -/
theorem loadPlugins_ends {merged : Merged σ η} {replaces : Bool} (h : Merges w s merged replaces)
    {Q R : Conversation σ η → Prop}
    (hrest : Ends (do
      let mcp ← expandMerged w s merged.mcp
      replaceAgent w replaces merged.context mcp
      registerPluginAgents w merged.agents
      setUpHooks w merged.hooks
      modify fun s => { s with pluginsLoaded := true }) s (fun _ => Q) fun _ => R) :
    Ends (loadPlugins w) s (fun _ => Q) fun _ => R := by
  obtain ⟨sources, skills, loaded, hloads, hresolve, rfl, rfl⟩ := h
  unfold loadPlugins
  refine Ends.get_then ?_
  refine Ends.bind (Q := fun r s' => r = (sources, skills) ∧ s' = s) (Ends.ok hloads ⟨rfl, rfl⟩) ?_
  rintro _ s₀ ⟨rfl, rfl⟩
  refine Ends.modify_then ?_
  refine Ends.bind (Q := fun r s₁ => r = loaded ∧ s₁ = s₀) (Ends.ok hresolve ⟨rfl, rfl⟩) ?_
  rintro _ _ ⟨rfl, rfl⟩
  exact hrest

theorem firstUse_raises (h : FirstUseRaises w s) :
    Ends (ensurePluginsLoaded w) s (fun _ _ => False) fun _ => Unchanged s := by
  obtain ⟨hnew, hraises⟩ := h
  refine Ends.get_then ?_
  rw [if_neg (by rw [hnew]; exact Bool.false_ne_true)]
  rcases hraises with ⟨e, he⟩ | ⟨sources, skills, e, hloads, he⟩ | ⟨merged, replaces, hmerges, hraises⟩
  · exact Ends.get_then (Ends.bind (Q := fun _ _ => False) (Ends.error he .rfl) fun _ _ h => h.elim)
  · refine Ends.get_then (Ends.bind (Q := fun r s' => r = (sources, skills) ∧ s' = s) (Ends.ok hloads ⟨rfl, rfl⟩) ?_)
    rintro _ _ ⟨rfl, rfl⟩
    exact Ends.modify_then (Ends.bind (Q := fun _ _ => False) (Ends.error he .rfl) fun _ _ h => h.elim)
  refine loadPlugins_ends w (Q := fun _ => False) hmerges ?_
  rcases hraises with ⟨e, he⟩ | ⟨mcp, hmcp, hsame, hraises⟩
  · exact Ends.bind (Q := fun _ _ => False) (Ends.error he .rfl) fun _ _ h => h.elim
  refine Ends.bind (Q := fun r s' => r = mcp ∧ s' = s) (Ends.ok hmcp ⟨rfl, rfl⟩) ?_
  rintro _ _ ⟨rfl, rfl⟩
  refine Ends.bind ((replaceAgent_ends w hsame).mono (fun _ _ h => h) fun _ _ h => h.1) ?_
  rintro ⟨⟩ s₁ ⟨hsteady, hsaved⟩
  obtain ⟨agent, hmem, e, he⟩ := hraises.resolve_left hsaved
  refine Ends.bind (Q := fun _ _ => False) ((registerPluginAgents_ends w _ s₁).mono ?_ ?_) fun _ _ h => h.elim
  · rintro ⟨⟩ s₂ ⟨-, hnone⟩
    exact hnone agent hmem e he
  · rintro e s₂ ⟨⟨names, rfl⟩, -⟩
    exact hsteady.unchanged.trans ⟨rfl, rfl, rfl, rfl, rfl, rfl, rfl, rfl⟩

theorem firstUse_passes (h : FirstUsePasses w s) :
    Ends (ensurePluginsLoaded w) s (fun _ s' => Steady w s s') fun _ s' => Unchanged s s' ∧ FirstUseRaises w s := by
  refine Ends.get_then ?_
  split
  · exact .pure .rfl
  rename_i hnew
  have hnew : s.pluginsLoaded = false := by simpa using hnew
  rcases h with hloaded | ⟨merged, replaces, mcp, hmerges, hmcp, hsame, hhooks⟩
  · rw [hnew] at hloaded
    cases hloaded
  refine loadPlugins_ends w (R := fun s' => Unchanged s s' ∧ FirstUseRaises w s) hmerges ?_
  refine Ends.bind (Q := fun r s' => r = mcp ∧ s' = s) (Ends.ok hmcp ⟨rfl, rfl⟩) ?_
  rintro _ _ ⟨rfl, rfl⟩
  refine Ends.bind ((replaceAgent_ends w hsame).mono (fun _ _ h => h) ?_) ?_
  · rintro e s₁ ⟨hunchanged, hsave⟩
    exact ⟨hunchanged, hnew, .inr (.inr ⟨_, _, hmerges, .inr ⟨_, hmcp, hsame, .inl hsave⟩⟩)⟩
  rintro ⟨⟩ s₁ ⟨hsteady, -⟩
  refine Ends.bind ((registerPluginAgents_ends w _ s₁).mono (fun _ _ h => h) ?_) ?_
  · rintro e s₂ ⟨⟨names, rfl⟩, hraise⟩
    refine ⟨hsteady.unchanged.trans ⟨rfl, rfl, rfl, rfl, rfl, rfl, rfl, rfl⟩, hnew, ?_⟩
    exact .inr (.inr ⟨_, _, hmerges, .inr ⟨_, hmcp, hsame, .inr hraise⟩⟩)
  rintro ⟨⟩ s₂ ⟨⟨names, rfl⟩, -⟩
  refine Ends.bind (Q := fun _ s' => s' = { s₁ with registered := names }) (Ends.get_then ?_) ?_
  · rw [show ({ s₁ with registered := names } : Conversation σ η).pendingHookConfig = s₁.pendingHookConfig from rfl,
      hsteady.unchanged.pendingHookConfig, hhooks]
    exact .pure rfl
  rintro ⟨⟩ s₃ rfl
  exact .modify (hsteady.trans ⟨⟨rfl, rfl, rfl, rfl, rfl, rfl, rfl, rfl⟩, rfl, .rfl⟩)

/-- A call of `load_plugin` that raises before it changes anything leaves the conversation as it was,
and where the first use passes no other call that raises does: nothing is rolled back. -/
theorem failed_load_changes_nothing (w : Outside σ η) (s : Conversation σ η) (pluginRef : String) (e : Error)
    (s' : Conversation σ η) (h : loadPlugin w pluginRef s = .error e s') :
    (RaisesCleanly w s pluginRef → Unchanged s s') ∧
      (FirstUsePasses w s → Unchanged s s' → RaisesCleanly w s pluginRef) := by
  have hpasses : FirstUsePasses w s → Unchanged s s' ∧ FirstUseRaises w s ∨ (Unchanged s s' ↔ RaisesClean w s pluginRef) := by
    intro hfirst
    refine Ends.of_error (Q := fun _ _ => True) (R := fun _ s' => Unchanged s s' ∧ FirstUseRaises w s ∨
      (Unchanged s s' ↔ RaisesClean w s pluginRef)) ?_ h
    refine Ends.bind ((firstUse_passes w hfirst).mono (fun _ _ h => h) fun _ _ h => .inl h) ?_
    rintro ⟨⟩ s₁ hsteady
    refine (loaded_ends w pluginRef s₁).mono (fun _ _ h => h) fun _ s₂ hclean => .inr ?_
    rw [← hsteady.raisesClean pluginRef, ← hclean]
    exact ⟨hsteady.unchanged.symm.trans, hsteady.unchanged.trans⟩
  constructor
  · rintro (hfirst | ⟨hfirst, hclean⟩)
    · refine Ends.of_error (Q := fun _ _ => True) (R := fun _ => Unchanged s) ?_ h
      exact Ends.bind (firstUse_raises w hfirst) fun _ _ h => h.elim
    · rcases hpasses hfirst with ⟨hunchanged, -⟩ | hiff
      · exact hunchanged
      · exact hiff.2 hclean
  · intro hfirst hunchanged
    rcases hpasses hfirst with ⟨-, hraises⟩ | hiff
    · exact .inl hraises
    · exact .inr ⟨hfirst, hiff.1 hunchanged⟩

def marketContext : AgentContext := { registeredMarketplaces := [{ name := "m", source := "m" }] }

/-- An agent with a tool named `t`, and a plugin with a server that lists one of that name. -/
def holdsTool : Conversation Unit Unit where
  agent := { agentContext := some marketContext, tools := [("t", { name := "t" })], initialized := true }
  base := { agent := ⟨some marketContext, []⟩, hookConfig := none }
  pluginsLoaded := true
  agentReady := true

def sameTool : Outside Unit Unit :=
  { Outside.quiet Unit Unit with
    load := fun path => .ok { name := path, mcpConfig := [("m", { config := () })] }
    createTools := fun _ => .ok ["t"] }

def clashed : Conversation Unit Unit :=
  { holdsTool with
    agent := { holdsTool.agent with mcpConfig := [("m", { config := () })] }
    base := { agent := ⟨some marketContext, [("m", { config := () })]⟩, hookConfig := none }
    resolvedPlugins := some [{ source := "p", resolvedRef := none, repoPath := none, originalRef := none }]
    nextClient := 1 }

theorem loadPlugin_clashes : loadPlugin sameTool "p" holdsTool = .error "Duplicate tool names found" clashed := rfl

theorem failed_load_changes_nothing_clash :
    (RaisesCleanly sameTool holdsTool "p" → Unchanged holdsTool clashed) ∧
      (FirstUsePasses sameTool holdsTool → Unchanged holdsTool clashed → RaisesCleanly sameTool holdsTool "p") :=
  failed_load_changes_nothing _ _ _ _ _ loadPlugin_clashes

/-- The name is refused when the servers, the saved agent and the resolved plugins are changed already. -/
theorem failed_load_leaves_servers :
    ∃ e s', loadPlugin sameTool "p" holdsTool = .error e s' ∧ ¬ Unchanged holdsTool s' := by
  refine ⟨_, _, loadPlugin_clashes, fun h => ?_⟩
  have hservers := congrArg Agent.mcpConfig h.agent
  cases hservers

end AgentSdk.PluginLoading
