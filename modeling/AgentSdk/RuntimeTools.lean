import AgentSdk.PluginFailures
/-!
# MCP tools over a run of calls

The tools that an agent holds and the clients behind them, over every run of
starts and of calls of `load_plugin`.
-/

namespace AgentSdk.PluginLoading
open Lib

variable {σ η α β γ : Type} {w : Outside σ η} {s s' s'' : Conversation σ η}

/-! ## Programs that leave the tools alone -/

/-- What the tools of an agent and their clients depend on. -/
structure ToolState where
  tools : List (String × Tool)
  initialized : Bool
  filterToolsRegex : Option (String → Bool)
  supportsOpenhandsTools : Bool
  openClients : List Nat
  nextClient : Nat
  agentReady : Bool

def toolState (s : Conversation σ η) : ToolState where
  tools := s.agent.tools
  initialized := s.agent.initialized
  filterToolsRegex := s.agent.filterToolsRegex
  supportsOpenhandsTools := s.agent.supportsOpenhandsTools
  openClients := s.openClients
  nextClient := s.nextClient
  agentReady := s.agentReady

abbrev SameTools (s s' : Conversation σ η) : Prop := toolState s' = toolState s

/-- What only the first use, a start and the tools of a plugin change. -/
def calmState (s : Conversation σ η) : ToolState × Bool := (toolState s, s.pluginsLoaded)

/-- Whether it raises or not, the program leaves this part of the conversation as it was. -/
def Keeps (part : Conversation σ η → γ) (x : Program σ η α) : Prop :=
  ∀ s, Ends x s (fun _ s' => part s' = part s) fun _ s' => part s' = part s

abbrev KeepsTools (x : Program σ η α) : Prop := Keeps toolState x

section
variable {part : Conversation σ η → γ}

theorem Reads.keeps {x : Program σ η α} (h : Reads x) : Keeps part x := fun s =>
  (h s).mono (fun _ _ h => h ▸ rfl) fun _ _ h => h ▸ rfl

theorem Keeps.tools {x : Program σ η α} (h : Keeps calmState x) : KeepsTools x := fun s =>
  (h s).mono (fun _ _ h => congrArg Prod.fst h) fun _ _ h => congrArg Prod.fst h

theorem Keeps.pure (a : α) : Keeps part (Pure.pure a : Program σ η α) := (Reads.pure a).keeps

theorem Keeps.outside (x : Except Error α) : Keeps part (outside x : Program σ η α) := (Reads.outside x).keeps

theorem Keeps.modify {g : Conversation σ η → Conversation σ η} (h : ∀ s, part (g s) = part s) :
    Keeps part (modify g : Program σ η PUnit) := fun s => Ends.modify (T := fun _ s' => part s' = part s) (h s)

theorem Keeps.bind {x : Program σ η α} {f : α → Program σ η β} (hx : Keeps part x) (hf : ∀ a, Keeps part (f a)) :
    Keeps part (x >>= f) := fun s =>
  (hx s).bind fun a s₁ h₁ => (hf a s₁).mono (fun _ _ h => h.trans h₁) fun _ _ h => h.trans h₁

theorem Keeps.foldlM {f : β → α → Program σ η β} (hf : ∀ b a, Keeps part (f b a)) (b : β) (as : List α) :
    Keeps part (as.foldlM f b) := by
  induction as generalizing b with
  | nil => exact .pure b
  | cons a as ih =>
    rw [List.foldlM_cons]
    exact (hf b a).bind fun b => ih b

theorem Keeps.forM {f : α → Program σ η PUnit} (hf : ∀ a, Keeps part (f a)) (as : List α) : Keeps part (as.forM f) := by
  induction as with
  | nil => exact .pure _
  | cons a as ih => exact (hf a).bind fun _ => ih

theorem Keeps.optionForM {f : α → Program σ η PUnit} (hf : ∀ a, Keeps part (f a)) (a : Option α) :
    Keeps part (a.forM f) := by
  cases a with
  | none => exact .pure _
  | some a => exact hf a

end

variable (w)

theorem left_calm (h : Left w s s') : calmState s' = calmState s := by
  obtain ⟨-, depth, dirty, disk, rfl⟩ := h
  exact rfl

theorem left_sameTools (h : Left w s s') : SameTools s s' := congrArg Prod.fst (left_calm w h)

theorem Keeps.withState {x : Program σ η α} (hx : Keeps calmState x) : Keeps calmState (withState w x) := by
  intro s
  refine ends_withState w (Q := fun _ s₁ => calmState s₁ = calmState s) (R := fun _ s₁ => calmState s₁ = calmState s)
    ?_ ?_ ?_
  · exact hx { s with saveDepth := s.saveDepth + 1 }
  · intro a s₁ s₂ h hleft
    exact ⟨(left_calm w hleft).trans h, (left_calm w hleft).trans h⟩
  · intro e s₁ s₂ h hleft
    exact (left_calm w hleft).trans h

theorem saveBaseState_keeps : Keeps calmState (saveBaseState w) := by
  intro s
  unfold Ends saveBaseState
  cases s.disk with
  | none => rfl
  | some old => cases w.save s.base <;> rfl

theorem fetchSpec_reads (spec : PluginSource) (expanded : Bool) : Reads (fetchSpec w spec expanded) := by
  unfold fetchSpec
  split
  · exact .outside _
  · exact (Reads.outside _).bind fun source => (expandOption_asks w _).reads.bind fun ref => .outside _

theorem loadSpec_keeps (merged : Merged σ η) (spec : PluginSource × Bool) : Keeps calmState (loadSpec w merged spec) := by
  refine (fetchSpec_reads w _ _).keeps.bind fun ⟨path, resolvedRef⟩ => ?_
  exact (Keeps.modify (by intro s; rfl)).bind fun _ => (Keeps.outside _).bind fun plugin => .pure _

theorem autoLoads_reads (context : Option AgentContext) : Reads (autoLoads w context) := by
  unfold autoLoads
  split
  · exact .pure _
  · split
    · exact .pure _
    · exact (expandRegistrations_asks w _).reads.bind fun _ => .outside _

theorem expandMerged_reads (s : Conversation σ η) (mcp : McpConfig σ) : Reads (expandMerged w s mcp) := by
  unfold expandMerged
  split
  · exact .pure _
  · exact (expandMcp_asks w _).reads

theorem registerPluginAgents_keeps (agents : List AgentDefinition) : Keeps calmState (registerPluginAgents w agents) :=
  .forM (fun agent => (Keeps.outside _).bind fun isNew => .modify (by intro s; rfl)) agents

theorem installHooks_keeps (config : HookConfig η) : Keeps calmState (installHooks w config) :=
  (Keeps.modify (by intro s; rfl)).bind fun _ => .outside _

theorem runSessionEnd_keeps (processor : HookProcessor η) : Keeps calmState (runSessionEnd w processor) :=
  (Keeps.modify (by intro s; rfl)).bind fun _ => .outside _

section
variable [DecidableEq σ] [DecidableEq η]

theorem setBase_keeps (base : BaseState σ η) : Keeps calmState (setBase w base) := by
  intro s
  unfold Ends setBase
  by_cases h : (s.disk.isNone || decide (base = s.base)) = true
  · simp only [if_pos h]
    exact rfl
  · by_cases hdepth : 0 < s.saveDepth
    · simp only [if_neg h, if_pos hdepth]
      exact rfl
    · simp only [if_neg h, if_neg hdepth]
      exact saveBaseState_keeps w { s with base }

theorem replaceAgent_keeps (changed : Bool) (context : Option AgentContext) (mcp : McpConfig σ) :
    Keeps calmState (replaceAgent w changed context mcp) := by
  unfold replaceAgent
  split
  · exact .pure _
  · refine (Keeps.modify (by intro s; rfl)).bind fun _ => Keeps.withState w ?_
    exact Reads.get.keeps.bind fun s => setBase_keeps w _

theorem setUpHooks_keeps (hooks : List (HookConfig η)) : Keeps calmState (setUpHooks w hooks) := by
  refine Reads.get.keeps.bind fun s => ?_
  split
  · exact .pure _
  · exact (setBase_keeps w _).bind fun _ => installHooks_keeps w _

theorem mergeHooks_keeps (hooks : HookConfig η) : Keeps calmState (mergeRuntimePluginHooks w hooks) := by
  refine Reads.get.keeps.bind fun s => ?_
  dsimp only
  split
  · exact .pure _
  · refine (Keeps.optionForM (runSessionEnd_keeps w) _).bind fun _ => ?_
    refine (setBase_keeps w _).bind fun _ => ?_
    exact (Keeps.modify (by intro s; rfl)).bind fun _ => installHooks_keeps w _

theorem loadPlugins_keepsTools : KeepsTools (loadPlugins w) := by
  refine Reads.get.keeps.bind fun s => ?_
  refine (autoLoads_reads w _).keeps.bind fun ⟨sources, skills⟩ => ?_
  refine (Keeps.modify (by intro s; rfl)).bind fun _ => ?_
  refine (Keeps.foldlM (loadSpec_keeps w) _ _).tools.bind fun loaded => ?_
  refine (expandMerged_reads w s _).keeps.bind fun mcp => ?_
  refine (replaceAgent_keeps w _ _ _).tools.bind fun _ => ?_
  refine (registerPluginAgents_keeps w _).tools.bind fun _ => ?_
  exact (setUpHooks_keeps w _).tools.bind fun _ => .modify (by intro s; rfl)

theorem ensurePluginsLoaded_keepsTools : KeepsTools (ensurePluginsLoaded w) := by
  refine Reads.get.keeps.bind fun s => ?_
  split
  · exact .pure _
  · exact loadPlugins_keepsTools w

end

/-! ## One call -/

/-- A tool has its name as key, and its client is one that was opened. -/
structure Tidy (t : ToolState) : Prop where
  names : ∀ e ∈ t.tools, e.2.name = e.1
  keys : (t.tools.map Prod.fst).Nodup
  known : ∀ e ∈ t.tools, ∀ c, e.2.client = some c → c < t.nextClient
  opened : ∀ c ∈ t.openClients, c < t.nextClient
  empty : t.initialized = false → t.tools = []

/-- Tools and clients that were there stay as they are. -/
structure Extends (t t' : ToolState) : Prop where
  tidy : Tidy t'
  kept : ∀ e ∈ t.tools, e ∈ t'.tools
  new : ∀ e ∈ t'.tools, e ∈ t.tools ∨ ∀ c, e.2.client = some c → t.nextClient ≤ c
  clients : ∀ c < t.nextClient, c ∈ t'.openClients ↔ c ∈ t.openClients
  next : t.nextClient ≤ t'.nextClient

variable {t t' t'' : ToolState}

theorem Extends.rfl (h : Tidy t) : Extends t t :=
  ⟨h, fun _ he => he, fun _ he => .inl he, fun _ _ => .rfl, Nat.le_refl _⟩

theorem Extends.trans (h : Extends t t') (h' : Extends t' t'') : Extends t t'' where
  tidy := h'.tidy
  kept e he := h'.kept e (h.kept e he)
  new e he := by
    rcases h'.new e he with he | he
    · exact h.new e he
    · exact .inr fun c hc => Nat.le_trans h.next (he c hc)
  clients c hc := (h'.clients c (Nat.lt_of_lt_of_le hc h.next)).trans (h.clients c hc)
  next := Nat.le_trans h.next h'.next

theorem setTools_eq {tools : List (String × Tool)} {new : List Tool}
    (h : ((tools ++ new.map fun tool => (tool.name, tool)).map Prod.fst).Nodup) :
    setTools tools new = tools ++ new.map fun tool => (tool.name, tool) := by
  rw [← foldl_dictSet h, List.foldl_map, setTools]

/-- Tools of new clients are added to those that are there, all or none. -/
theorem addRuntimeTools_ends (tools : List Tool) (hkeys : (s.agent.tools.map Prod.fst).Nodup)
    (hfresh : ∀ tool ∈ tools, tool.client.isSome → ∀ e ∈ s.agent.tools, e.2.client ≠ tool.client) :
    Ends (addRuntimeTools tools : Program σ η Unit) s
      (fun _ s' => s' = s ∧ s.agent.initialized = false ∨ ∃ kept : List Tool,
        kept = tools.filter s.agent.keeps ∧ s.agent.initialized = true ∧
        ((s.agent.tools ++ kept.map fun tool => (tool.name, tool)).map Prod.fst).Nodup ∧
        s' = { s with agent := { s.agent with tools := s.agent.tools ++ kept.map fun tool => (tool.name, tool) } })
      fun _ s' => s' = s := by
  refine Ends.get_then ?_
  dsimp only
  split
  · rename_i hinit
    exact .pure (.inl ⟨rfl, by simpa using hinit⟩)
  rename_i hinit
  split
  · exact .throw rfl
  rename_i hnodup
  split
  · exact .throw rfl
  rename_i hconflicts
  have hnodup := not_not.1 hnodup
  have hnew : ∀ tool ∈ tools.filter s.agent.keeps, tool.name ∉ s.agent.tools.map Prod.fst := by
    intro tool htool hmem
    obtain ⟨e, he, hname⟩ := List.mem_map.1 hmem
    have hlookup : s.agent.tools.lookup tool.name = some e.2 := lookup_of_mem hkeys (hname ▸ he)
    refine hconflicts (List.any_eq_true.2 ⟨tool, htool, ?_⟩)
    rw [Agent.conflicts, hlookup]
    cases hclient : e.2.client with
    | none => simp [hclient]
    | some c =>
      have hne : some c ≠ tool.client := by
        intro heq
        exact hfresh tool (List.mem_of_mem_filter htool) (heq ▸ rfl) e he (hclient.trans heq)
      simp [hclient, hne]
  have hall : ((s.agent.tools ++ (tools.filter s.agent.keeps).map fun tool => (tool.name, tool)).map Prod.fst).Nodup := by
    rw [List.map_append, List.map_map, List.nodup_append]
    refine ⟨hkeys, hnodup, ?_⟩
    rintro a ha b hb rfl
    obtain ⟨tool, htool, rfl⟩ := List.mem_map.1 hb
    exact hnew tool htool ha
  refine .inr ⟨_, rfl, by simpa using hinit, hall, ?_⟩
  rw [setTools_eq hall]

theorem Extends.append (h : Extends t t') {new : List Tool}
    (hkeys : ((t'.tools ++ new.map fun tool => (tool.name, tool)).map Prod.fst).Nodup)
    (hnew : ∀ tool ∈ new, ∀ c, tool.client = some c → t.nextClient ≤ c ∧ c < t'.nextClient)
    (hinit : t'.initialized = true) :
    Extends t { t' with tools := t'.tools ++ new.map fun tool => (tool.name, tool) } where
  tidy := by
    refine ⟨?_, hkeys, ?_, h.tidy.opened, fun h => by rw [hinit] at h; cases h⟩
    · intro e he
      rcases List.mem_append.1 he with he | he
      · exact h.tidy.names e he
      · obtain ⟨tool, -, rfl⟩ := List.mem_map.1 he
        rfl
    · intro e he c hc
      rcases List.mem_append.1 he with he | he
      · exact h.tidy.known e he c hc
      · obtain ⟨tool, htool, rfl⟩ := List.mem_map.1 he
        exact (hnew tool htool c hc).2
  kept e he := List.mem_append_left _ (h.kept e he)
  new e he := by
    rcases List.mem_append.1 he with he | he
    · exact h.new e he
    · obtain ⟨tool, htool, rfl⟩ := List.mem_map.1 he
      exact .inr fun c hc => (hnew tool htool c hc).1
  clients := h.clients
  next := h.next

/-- A client is opened, which no tool that is there belongs to. -/
theorem Extends.openClient (h : Extends t t') :
    Extends t { t' with openClients := t'.nextClient :: t'.openClients, nextClient := t'.nextClient + 1 } where
  tidy := by
    refine ⟨h.tidy.names, h.tidy.keys, fun e he c hc => Nat.lt_succ_of_lt (h.tidy.known e he c hc), ?_, h.tidy.empty⟩
    intro c hc
    rcases List.mem_cons.1 hc with rfl | hc
    · exact Nat.lt_succ_self _
    · exact Nat.lt_succ_of_lt (h.tidy.opened c hc)
  kept := h.kept
  new := h.new
  clients c hc := by
    have hne : c ≠ t'.nextClient := Nat.ne_of_lt (Nat.lt_of_lt_of_le hc h.next)
    rw [List.mem_cons, or_iff_right hne, h.clients c hc]
  next := Nat.le_succ_of_le h.next

/-- Only clients that were opened meanwhile are closed. -/
theorem Extends.close (h : Extends t t') {closed : List (Option Nat)} (hclosed : ∀ c, some c ∈ closed → t.nextClient ≤ c) :
    Extends t { t' with openClients := t'.openClients.filter fun c => some c ∉ closed } where
  tidy := ⟨h.tidy.names, h.tidy.keys, h.tidy.known, fun c hc => h.tidy.opened c (List.mem_of_mem_filter hc), h.tidy.empty⟩
  kept := h.kept
  new := h.new
  clients c hc := by
    have hopen : some c ∉ closed := fun h => Nat.not_le_of_lt hc (hclosed c h)
    rw [List.mem_filter, ← h.clients c hc]
    simp [hopen]
  next := h.next

/-- The tools of new clients work: their clients are open. -/
def NewOpen (t t' : ToolState) : Prop := ∀ e ∈ t'.tools, ∀ c, e.2.client = some c → t.nextClient ≤ c → c ∈ t'.openClients

theorem NewOpen.of_same (htidy : Tidy t) (h : t'.tools = t.tools) : NewOpen t t' := by
  intro e he c hc hle
  rw [h] at he
  exact absurd (htidy.known e he c hc) (Nat.not_lt_of_le hle)

/-- `_initialize` leaves no tool with a client. -/
theorem initializeAgent_ends (htidy : Tidy (toolState s)) :
    Ends (initializeAgent w) s
      (fun _ s' => s'.agent.initialized = true ∧ Extends (toolState s) (toolState s') ∧
        (∀ e ∈ s'.agent.tools, e ∈ s.agent.tools ∨ e.2.client = none) ∧
        ∃ tools initialized, s' = { s with agent := { s.agent with tools, initialized } })
      fun _ s' => s' = s := by
  refine Ends.get_then ?_
  split
  · rename_i hinit
    exact .pure ⟨hinit, .rfl htidy, fun _ he => .inl he, _, _, rfl⟩
  rename_i hinit
  refine Ends.bind (Q := fun _ s' => s' = s) (ends_outside (fun _ _ => rfl) fun _ _ => rfl) ?_
  rintro specTools s₁ rfl
  refine Ends.bind (Q := fun _ s' => s' = s₁) (ends_outside (fun _ _ => rfl) fun _ _ => rfl) ?_
  rintro builtinTools s₂ rfl
  dsimp only
  split
  · exact .throw rfl
  rename_i hnodup
  have hnodup := not_not.1 hnodup
  have hempty : s₂.agent.tools = [] := htidy.empty (Bool.not_eq_true _ ▸ hinit)
  generalize htools : (specTools.map fun name => ({ name } : Tool)).filter s₂.agent.keeps ++
    builtinTools.map (fun name => ({ name, builtin := true } : Tool)) = tools at hnodup ⊢
  have hnone : ∀ tool ∈ tools, tool.client = none := by
    rw [← htools]
    intro tool htool
    rcases List.mem_append.1 htool with htool | htool
    · obtain ⟨name, -, rfl⟩ := List.mem_map.1 (List.mem_of_mem_filter htool)
      rfl
    · obtain ⟨name, -, rfl⟩ := List.mem_map.1 htool
      rfl
  have hkeys : ((([] : List (String × Tool)) ++ tools.map fun tool : Tool => (tool.name, tool)).map Prod.fst).Nodup := by
    rw [List.nil_append, List.map_map]
    exact hnodup
  rw [setTools_eq hkeys, ← hempty]
  refine ⟨rfl, ?_, ?_, _, _, rfl⟩
  · have hstart : Extends (toolState s₂) { toolState s₂ with initialized := true } :=
      ⟨⟨htidy.names, htidy.keys, htidy.known, htidy.opened, fun h => by cases h⟩, fun _ he => he,
        fun _ he => .inl he, fun _ _ => .rfl, Nat.le_refl _⟩
    have hkeys' : ((s₂.agent.tools ++ tools.map fun tool : Tool => (tool.name, tool)).map Prod.fst).Nodup := by
      rw [hempty]
      exact hkeys
    refine hstart.append hkeys' ?_ rfl
    intro tool htool c hc
    rw [hnone tool htool] at hc
    cases hc
  · intro e he
    rcases List.mem_append.1 he with he | he
    · exact .inl he
    · obtain ⟨tool, htool, rfl⟩ := List.mem_map.1 he
      exact .inr (hnone tool htool)

/-- Nothing but the tools, and the clients, is changed. -/
def OnlyTools (s s' : Conversation σ η) : Prop := ∃ tools initialized openClients nextClient,
  s' = { s with agent := { s.agent with tools, initialized }, openClients, nextClient }

theorem OnlyTools.trans (h : OnlyTools s s') (h' : OnlyTools s' s'') : OnlyTools s s'' := by
  obtain ⟨_, _, _, _, rfl⟩ := h
  obtain ⟨_, _, _, _, rfl⟩ := h'
  exact ⟨_, _, _, _, rfl⟩

theorem announce_reads : Reads (announce w) := by
  refine (Reads.outside _).bind fun _ => Reads.get.bind fun s => ?_
  split
  · exact .outside _
  · exact .pure _

/-- The tools that a raising start has left in the map are those of a client that is closed. -/
def ClosedNew (tools : List Tool) (t : ToolState) (s' : Conversation σ η) : Prop :=
  ∀ e ∈ s'.agent.tools, ∀ c, e.2.client = some c → t.nextClient ≤ c →
    c ∉ s'.openClients ∧ s'.agent.initialized = true ∧ e.2 ∈ tools.filter s'.agent.keeps

theorem addAndAnnounce_ends {tools : List Tool} (h : Extends t (toolState s))
    (hold : ∀ e ∈ s.agent.tools, ∀ c, e.2.client = some c → c < t.nextClient)
    (htools : ∀ tool ∈ tools, ∃ c, tool.client = some c ∧ t.nextClient ≤ c ∧ c ∈ s.openClients) :
    Ends (tryCatch (do addRuntimeTools tools; announce w) fun e => do
        closeRuntimeTools tools
        throw e) s
      (fun _ s' => Extends t (toolState s') ∧ NewOpen t (toolState s') ∧ OnlyTools s s')
      fun _ s' => Extends t (toolState s') ∧ ClosedNew tools t s' ∧ OnlyTools s s' := by
  have hfresh : ∀ tool ∈ tools, tool.client.isSome → ∀ e ∈ s.agent.tools, e.2.client ≠ tool.client := by
    intro tool htool _ e he hsame
    obtain ⟨c, hc, hle, -⟩ := htools tool htool
    exact Nat.not_lt_of_le hle (hold e he c (hsame.trans hc))
  have hclosed : ∀ c, some c ∈ tools.map (·.client) → t.nextClient ≤ c := by
    intro c hc
    obtain ⟨tool, htool, heq⟩ := List.mem_map.1 hc
    obtain ⟨c', hc', hle, -⟩ := htools tool htool
    rw [heq] at hc'
    cases hc'
    exact hle
  -- Before the call no tool has a client of the new ones.
  have hnone : NewOpen t (toolState s) := fun e he c hc hle => absurd (hold e he c hc) (Nat.not_lt_of_le hle)
  have hadded : ∀ s₁, (∃ kept : List Tool, kept = tools.filter s.agent.keeps ∧ s.agent.initialized = true ∧
      ((s.agent.tools ++ kept.map fun tool => (tool.name, tool)).map Prod.fst).Nodup ∧
      s₁ = { s with agent := { s.agent with tools := s.agent.tools ++ kept.map fun tool => (tool.name, tool) } }) →
      Extends t (toolState s₁) ∧ OnlyTools s s₁ ∧ ∀ e ∈ s₁.agent.tools, ∀ c, e.2.client = some c → t.nextClient ≤ c →
        c ∈ s₁.openClients ∧ s₁.agent.initialized = true ∧ e.2 ∈ tools.filter s₁.agent.keeps := by
    rintro s₁ ⟨kept, rfl, hinit, hkeys, rfl⟩
    refine ⟨h.append hkeys ?_ hinit, ⟨_, _, _, _, rfl⟩, ?_⟩
    · intro tool htool c hc
      obtain ⟨c', hc', hle, hopen⟩ := htools tool (List.mem_of_mem_filter htool)
      rw [hc] at hc'
      cases hc'
      exact ⟨hle, h.tidy.opened c hopen⟩
    · intro e he c hc hle
      rcases List.mem_append.1 he with he | he
      · exact absurd (hold e he c hc) (Nat.not_lt_of_le hle)
      · obtain ⟨tool, htool, rfl⟩ := List.mem_map.1 he
        obtain ⟨c', hc', -, hopen⟩ := htools tool (List.mem_of_mem_filter htool)
        rw [show tool.client = some c from hc] at hc'
        cases hc'
        exact ⟨hopen, hinit, htool⟩
  -- The block, without its handler: a tool of a new client is one of those given.
  have hbody : Ends (do addRuntimeTools tools; announce w) s
      (fun _ s' => Extends t (toolState s') ∧ NewOpen t (toolState s') ∧ OnlyTools s s')
      fun _ s' => Extends t (toolState s') ∧ OnlyTools s s' ∧
        ∀ e ∈ s'.agent.tools, ∀ c, e.2.client = some c → t.nextClient ≤ c →
          s'.agent.initialized = true ∧ e.2 ∈ tools.filter s'.agent.keeps := by
    have hsame : Extends t (toolState s) ∧ OnlyTools s s ∧ ∀ e ∈ s.agent.tools, ∀ c, e.2.client = some c →
        t.nextClient ≤ c → s.agent.initialized = true ∧ e.2 ∈ tools.filter s.agent.keeps :=
      ⟨h, ⟨_, _, _, _, rfl⟩, fun e he c hc hle => absurd (hold e he c hc) (Nat.not_lt_of_le hle)⟩
    refine Ends.bind ((addRuntimeTools_ends tools h.tidy.keys hfresh).mono (fun _ _ h => h) ?_) ?_
    · rintro e s₁ rfl
      exact hsame
    rintro ⟨⟩ s₁ (⟨rfl, -⟩ | hkept)
    · refine (announce_reads w _).mono ?_ ?_
      · rintro ⟨⟩ s' rfl
        exact ⟨h, hnone, hsame.2.1⟩
      · rintro e s' rfl
        exact hsame
    · obtain ⟨hextends, honly, hnew⟩ := hadded s₁ hkept
      refine (announce_reads w _).mono ?_ ?_
      · rintro ⟨⟩ s' rfl
        exact ⟨hextends, fun e he c hc hle => (hnew e he c hc hle).1, honly⟩
      · rintro e s' rfl
        exact ⟨hextends, honly, fun e he c hc hle => (hnew e he c hc hle).2⟩
  -- The handler closes these clients.
  refine hbody.tryCatch ?_
  rintro e s₁ ⟨hextends, honly, hnew⟩
  refine Ends.modify_then (.throw ⟨hextends.close hclosed, ?_, honly.trans ⟨_, _, _, _, rfl⟩⟩)
  intro e he c hc hle
  obtain ⟨hinit, hmem⟩ := hnew e he c hc hle
  refine ⟨fun hopen => ?_, hinit, hmem⟩
  have hclose := (List.mem_filter.1 hopen).2
  rw [decide_eq_true_eq] at hclose
  exact hclose (List.mem_map.2 ⟨e.2, List.mem_of_mem_filter hmem, hc⟩)

/-- A start of the agent makes a client of its own for its MCP servers. -/
def StartsClient (s : Conversation σ η) : Prop :=
  s.agent.initialized = true ∧ s.agent.supportsOpenhandsTools = true ∧ (enabledMcpServers s.agent.mcpConfig).isEmpty = false

/-- The new tools in the map belong to closed clients, and their names are kept by the filter. -/
def LeftClosed (t : ToolState) (s' : Conversation σ η) : Prop :=
  ∀ e ∈ s'.agent.tools, ∀ c, e.2.client = some c → t.nextClient ≤ c →
    c ∉ s'.openClients ∧ StartsClient s' ∧ s'.agent.keeps { name := e.1 } = true

theorem LeftClosed.of_same (htidy : Tidy t) (h : s'.agent.tools = t.tools) : LeftClosed t s' := by
  intro e he c hc hle
  rw [h] at he
  exact absurd (htidy.known e he c hc) (Nat.not_lt_of_le hle)

theorem runtimeMcpToolsForAgent_ends :
    Ends (runtimeMcpToolsForAgent w) s
      (fun tools s' => (tools = [] ∧ s' = s ∧ ∀ names, (enabledMcpServers s.agent.mcpConfig).isEmpty = false →
          w.createTools (enabledMcpServers s.agent.mcpConfig) ≠ .ok names) ∨
        ∃ names, w.createTools (enabledMcpServers s.agent.mcpConfig) = .ok names ∧
          (enabledMcpServers s.agent.mcpConfig).isEmpty = false ∧
          tools = names.map (fun name => { name, client := some s.nextClient }) ∧
          s' = { s with openClients := s.nextClient :: s.openClients, nextClient := s.nextClient + 1 })
      fun _ _ => False := by
  refine Ends.get_then ?_
  split
  · rename_i hempty
    refine .pure (.inl ⟨rfl, rfl, fun _ h => ?_⟩)
    rw [List.isEmpty_iff.1 hempty] at h
    cases h
  · exact runtimeMcpTools_ends w _

theorem startAgent_ends (htidy : Tidy (toolState s)) :
    Ends (startAgent w) s
      (fun _ s' => Extends (toolState s) (toolState s') ∧ NewOpen (toolState s) (toolState s') ∧ OnlyTools s s')
      fun _ s' => Extends (toolState s) (toolState s') ∧ LeftClosed (toolState s) s' ∧ OnlyTools s s' := by
  refine Ends.get_then ?_
  split
  · rename_i hsupports
    refine Ends.bind ((initializeAgent_ends w htidy).mono (fun _ _ h => h) ?_) ?_
    · rintro e s' rfl
      exact ⟨.rfl htidy, .of_same htidy rfl, _, _, _, _, rfl⟩
    rintro ⟨⟩ s₁ ⟨hinit, hextends, hold, tools₁, initialized₁, rfl⟩
    generalize hs₁ : ({ s with agent := { s.agent with tools := tools₁, initialized := initialized₁ } } :
      Conversation σ η) = s₁ at *
    have honly : OnlyTools s s₁ := ⟨_, _, _, _, hs₁.symm⟩
    have hknown : ∀ e ∈ s₁.agent.tools, ∀ c, e.2.client = some c → c < (toolState s).nextClient := by
      intro e he c hc
      rcases hold e he with he | hnone
      · exact htidy.known e he c hc
      · rw [hnone] at hc
        cases hc
    refine Ends.bind ((runtimeMcpToolsForAgent_ends w).mono (fun _ _ h => h) fun _ _ h => h.elim) ?_
    rintro tools s₂ (⟨rfl, rfl, -⟩ | ⟨names, hnames, hnonempty, rfl, rfl⟩)
    · refine (addAndAnnounce_ends w hextends hknown fun tool h => absurd h List.not_mem_nil).mono ?_ ?_
      · rintro ⟨⟩ s' ⟨hextends', hopen, honly'⟩
        exact ⟨hextends', hopen, honly.trans honly'⟩
      · rintro e s' ⟨hextends', hclosed, honly'⟩
        refine ⟨hextends', fun e he c hc hle => ?_, honly.trans honly'⟩
        exact absurd (hclosed e he c hc hle).2.2 List.not_mem_nil
    · have hown : ∀ tool ∈ names.map (fun name => ({ name, client := some s₁.nextClient } : Tool)), ∃ c,
          tool.client = some c ∧ (toolState s).nextClient ≤ c ∧ c ∈ s₁.nextClient :: s₁.openClients := by
        intro tool htool
        obtain ⟨name, -, rfl⟩ := List.mem_map.1 htool
        exact ⟨_, rfl, hextends.next, List.mem_cons_self⟩
      refine (addAndAnnounce_ends w (s := { s₁ with
        openClients := s₁.nextClient :: s₁.openClients
        nextClient := s₁.nextClient + 1 }) hextends.openClient hknown hown).mono ?_ ?_
      · rintro ⟨⟩ s' ⟨hextends', hopen, honly'⟩
        exact ⟨hextends', hopen, honly.trans (OnlyTools.trans ⟨_, _, _, _, rfl⟩ honly')⟩
      · rintro e s' ⟨hextends', hclosed, honly'⟩
        refine ⟨hextends', fun e he c hc hle => ?_, honly.trans (OnlyTools.trans ⟨_, _, _, _, rfl⟩ honly')⟩
        obtain ⟨hnot, hinit', hmem⟩ := hclosed e he c hc hle
        obtain ⟨hmem, hkeeps⟩ := List.mem_filter.1 hmem
        obtain ⟨name, -, heq⟩ := List.mem_map.1 hmem
        have hname : e.1 = name := by
          rw [← hextends'.tidy.names e he, ← heq]
        obtain ⟨_, _, _, _, rfl⟩ := honly'
        refine ⟨hnot, ⟨hinit', ?_, hnonempty⟩, ?_⟩
        · rw [← hs₁]
          exact hsupports
        · rw [hname]
          rw [← heq] at hkeeps
          exact hkeeps
  · refine (announce_reads w _).mono ?_ ?_
    · rintro ⟨⟩ s' rfl
      exact ⟨.rfl htidy, .of_same htidy rfl, _, _, _, _, rfl⟩
    · rintro e s' rfl
      exact ⟨.rfl htidy, .of_same htidy rfl, _, _, _, _, rfl⟩

theorem Extends.ready (h : Extends t t') (ready : Bool) : Extends t { t' with agentReady := ready } :=
  ⟨⟨h.tidy.names, h.tidy.keys, h.tidy.known, h.tidy.opened, h.tidy.empty⟩, h.kept, h.new, h.clients, h.next⟩

theorem runtimeSkillTools_ends :
    Ends (runtimeSkillToolsForAgent w) s (fun tools s' => s' = s ∧ ∀ tool ∈ tools, tool.client = none)
      fun _ s' => s' = s := by
  refine Ends.get_then ?_
  split
  · exact .pure ⟨rfl, fun _ h => absurd h List.not_mem_nil⟩
  split
  · exact .throw rfl
  split
  · exact .pure ⟨rfl, fun _ h => absurd h List.not_mem_nil⟩
  refine Ends.bind (Q := fun _ s' => s' = s) (ends_outside (fun _ _ => rfl) fun _ _ => rfl) ?_
  rintro names s' rfl
  refine .pure ⟨rfl, fun tool htool => ?_⟩
  obtain ⟨name, -, rfl⟩ := List.mem_map.1 htool
  rfl

/-- Tools of a client that `load_plugin` opened are added to the map, or the client is closed. -/
theorem addLoaded_ends {tools : List Tool} (h : Extends t (toolState s))
    (hold : ∀ e ∈ s.agent.tools, ∀ c, e.2.client = some c → c < t.nextClient)
    (htools : ∀ tool ∈ tools, ∃ c, tool.client = some c ∧ t.nextClient ≤ c ∧ c ∈ s.openClients) :
    Ends (do
      let skillTools ← runtimeSkillToolsForAgent w
      tryCatch (addRuntimeTools (tools ++ skillTools)) fun e => do
        closeRuntimeTools tools
        throw e) s
      (fun _ s' => Extends t (toolState s') ∧ NewOpen t (toolState s'))
      fun _ s' => Extends t (toolState s') ∧ NewOpen t (toolState s') := by
  have hnone : NewOpen t (toolState s) := fun e he c hc hle => absurd (hold e he c hc) (Nat.not_lt_of_le hle)
  have hclosed : ∀ c, some c ∈ tools.map (·.client) → t.nextClient ≤ c := by
    intro c hc
    obtain ⟨tool, htool, heq⟩ := List.mem_map.1 hc
    obtain ⟨c', hc', hle, -⟩ := htools tool htool
    rw [heq] at hc'
    cases hc'
    exact hle
  refine Ends.bind ((runtimeSkillTools_ends w).mono (fun _ _ h => h) ?_) ?_
  · rintro e s' rfl
    exact ⟨h, hnone⟩
  rintro skillTools s' ⟨rfl, hskill⟩
  have hclient : ∀ tool ∈ tools ++ skillTools, ∀ c, tool.client = some c → t.nextClient ≤ c ∧ c ∈ s'.openClients := by
    intro tool htool c hc
    rcases List.mem_append.1 htool with htool | htool
    · obtain ⟨c', hc', hle, hopen⟩ := htools tool htool
      rw [hc] at hc'
      cases hc'
      exact ⟨hle, hopen⟩
    · rw [hskill tool htool] at hc
      cases hc
  have hfresh : ∀ tool ∈ tools ++ skillTools, tool.client.isSome → ∀ e ∈ s'.agent.tools, e.2.client ≠ tool.client := by
    intro tool htool hsome e he hsame
    obtain ⟨c, hc⟩ := Option.isSome_iff_exists.1 hsome
    exact Nat.not_lt_of_le (hclient tool htool c hc).1 (hold e he c (hsame.trans hc))
  refine Ends.tryCatch (addRuntimeTools_ends _ h.tidy.keys hfresh |>.mono ?_ fun _ _ h => h) ?_
  · rintro ⟨⟩ s₁ (⟨rfl, -⟩ | ⟨kept, hkept, hinit, hkeys, rfl⟩)
    · exact ⟨h, hnone⟩
    have hmem : ∀ tool ∈ kept, tool ∈ tools ++ skillTools := fun tool htool => List.mem_of_mem_filter (hkept ▸ htool)
    refine ⟨h.append hkeys (fun tool htool c hc => ?_) hinit, fun e he c hc hle => ?_⟩
    · obtain ⟨hle, hopen⟩ := hclient tool (hmem tool htool) c hc
      exact ⟨hle, h.tidy.opened c hopen⟩
    · rcases List.mem_append.1 he with he | he
      · exact absurd (hold e he c hc) (Nat.not_lt_of_le hle)
      · obtain ⟨tool, htool, rfl⟩ := List.mem_map.1 he
        exact (hclient tool (hmem tool htool) c hc).2
  · rintro e s₁ rfl
    exact Ends.modify_then (.throw ⟨h.close hclosed, fun e he c hc hle => absurd (hold e he c hc) (Nat.not_lt_of_le hle)⟩)

/-- The tools in the map work. -/
def AllOpen (s : Conversation σ η) : Prop := ∀ e ∈ s.agent.tools, ∀ c, e.2.client = some c → c ∈ s.openClients

omit w in
theorem allOpen_iff (h : Extends (toolState s) (toolState s')) (htidy : Tidy (toolState s)) :
    AllOpen s' ↔ AllOpen s ∧ NewOpen (toolState s) (toolState s') := by
  constructor
  · intro hopen
    refine ⟨fun e he c hc => ?_, fun e he c hc _ => hopen e he c hc⟩
    exact (h.clients c (htidy.known e he c hc)).1 (hopen e (h.kept e he) c hc)
  · rintro ⟨hopen, hnew⟩ e he c hc
    by_cases hle : s.nextClient ≤ c
    · exact hnew e he c hc hle
    · have hlt : c < s.nextClient := Nat.lt_of_not_le hle
      rcases h.new e he with he | he
      · exact (h.clients c hlt).2 (hopen e he c hc)
      · exact absurd (he c hc) hle

omit w in
theorem tidy_new (htools : s.agent.tools = []) (hopen : s.openClients = []) : Tidy (toolState s) where
  names e he := by
    rw [show (toolState s).tools = [] from htools] at he
    cases he
  keys := by
    rw [show (toolState s).tools = [] from htools]
    exact List.nodup_nil
  known e he := by
    rw [show (toolState s).tools = [] from htools] at he
    cases he
  opened c hc := by
    rw [show (toolState s).openClients = [] from hopen] at hc
    cases hc
  empty _ := htools

section
variable [DecidableEq σ] [DecidableEq η]

theorem ensurePluginsLoaded_ends :
    Ends (ensurePluginsLoaded w) s (fun _ s' => SameTools s s' ∧ s'.pluginsLoaded = true) fun _ s' => SameTools s s' := by
  have hloaded : Ends (ensurePluginsLoaded w) s (fun _ s' => s'.pluginsLoaded = true) fun _ _ => True := by
    refine Ends.get_then ?_
    split
    · rename_i h
      exact .pure h
    · refine Ends.get_then (Ends.trivial.bind fun _ _ _ => Ends.trivial.bind fun _ _ _ => ?_)
      refine Ends.trivial.bind fun _ _ _ => Ends.trivial.bind fun _ _ _ => Ends.trivial.bind fun _ _ _ => ?_
      exact Ends.trivial.bind fun _ _ _ => Ends.trivial.bind fun _ _ _ => .modify rfl
  exact ((ensurePluginsLoaded_keepsTools w s).and hloaded).mono (fun _ _ h => h) fun _ _ h => h.1

/-- A start that raises before the agent is ready has tools in the map only of a closed client. -/
theorem ensureAgentReady_ends (htidy : Tidy (toolState s)) :
    Ends (ensureAgentReady w) s
      (fun _ s' => Extends (toolState s) (toolState s') ∧ NewOpen (toolState s) (toolState s'))
      fun _ s' => Extends (toolState s) (toolState s') ∧ (s'.agentReady = true ∧ NewOpen (toolState s) (toolState s') ∨
        s'.agentReady = false ∧ LeftClosed (toolState s) s' ∧
          ((∃ e ∈ s'.agent.tools, ∃ c, e.2.client = some c ∧ s.nextClient ≤ c) → s'.pluginsLoaded = true)) := by
  refine Ends.get_then ?_
  split
  · exact .pure ⟨.rfl htidy, .of_same htidy rfl⟩
  rename_i hready
  have hready : s.agentReady = false := by simpa using hready
  have hsame : ∀ s₁ : Conversation σ η, SameTools s s₁ → Extends (toolState s) (toolState s₁) ∧ s₁.agentReady = false ∧
      LeftClosed (toolState s) s₁ ∧
        ((∃ e ∈ s₁.agent.tools, ∃ c, e.2.client = some c ∧ s.nextClient ≤ c) → s₁.pluginsLoaded = true) := by
    intro s₁ h
    have htools : s₁.agent.tools = s.agent.tools := congrArg ToolState.tools h
    refine ⟨by rw [show toolState s₁ = _ from h]; exact .rfl htidy, (congrArg ToolState.agentReady h).trans hready,
      .of_same htidy htools, ?_⟩
    rintro ⟨e, he, c, hc, hle⟩
    rw [htools] at he
    exact absurd (htidy.known e he c hc) (Nat.not_lt_of_le hle)
  refine ends_withState w
    (Q := fun _ s₁ => Extends (toolState s) (toolState s₁) ∧ NewOpen (toolState s) (toolState s₁) ∧ s₁.agentReady = true)
    (R := fun _ s₁ => Extends (toolState s) (toolState s₁) ∧ s₁.agentReady = false ∧ LeftClosed (toolState s) s₁ ∧
      ((∃ e ∈ s₁.agent.tools, ∃ c, e.2.client = some c ∧ s.nextClient ≤ c) → s₁.pluginsLoaded = true)) ?_ ?_ ?_
  · refine Ends.bind ((ensurePluginsLoaded_ends w).mono (fun _ _ h => h) fun _ s₁ h => hsame s₁ h) ?_
    rintro ⟨⟩ s₁ ⟨h₁, hloaded⟩
    refine Ends.bind ((Reads.outside w.registerFileAgents s₁).mono (fun _ _ h => h) ?_) ?_
    · rintro e s₂ rfl
      exact hsame s₂ h₁
    rintro ⟨⟩ s₂ rfl
    have htidy₂ : Tidy (toolState s₂) := h₁ ▸ htidy
    have hready₂ : s₂.agentReady = false := (congrArg ToolState.agentReady h₁).trans hready
    have h₁ : toolState s = toolState s₂ := h₁.symm
    refine Ends.bind ((startAgent_ends w htidy₂).mono (fun _ _ h => h) ?_) ?_
    · rintro e s₃ ⟨hextends, hclosed, _, _, _, _, rfl⟩
      rw [h₁]
      exact ⟨hextends, hready₂, hclosed, fun _ => hloaded⟩
    · rintro ⟨⟩ s₃ ⟨hextends, hopen, -⟩
      refine .modify ?_
      rw [h₁]
      exact ⟨hextends.ready true, hopen, rfl⟩
  · rintro ⟨⟩ s₁ s₂ ⟨hextends, hopen, hready₁⟩ ⟨-, _, _, _, rfl⟩
    exact ⟨⟨hextends, hopen⟩, hextends, .inl ⟨hready₁, hopen⟩⟩
  · rintro e s₁ s₂ ⟨hextends, hready₁, hclosed, hloaded⟩ ⟨-, _, _, _, rfl⟩
    exact ⟨hextends, .inr ⟨hready₁, hclosed, hloaded⟩⟩

/-- Only the last step of `applyPlugin` touches the tools, and only once the agent is ready. -/
theorem applyPlugin_last (prepared : PreparedPlugin σ η) (tools : List Tool) {T : Conversation σ η → Prop}
    (hcalm : ∀ s₁, calmState s₁ = calmState s → T s₁)
    (hadd : ∀ s₁, calmState s₁ = calmState s → s₁.agentReady = true → Ends (do
      let skillTools ← runtimeSkillToolsForAgent w
      tryCatch (addRuntimeTools (tools ++ skillTools)) fun e => do
        closeRuntimeTools tools
        throw e) s₁ (fun _ => T) fun _ => T) :
    Ends (applyPlugin w prepared tools) s (fun _ => T) fun _ => T := by
  refine Ends.modify_then ?_
  refine Ends.bind ((registerPluginAgents_keeps w _ _).mono (fun _ _ h => h) fun _ s₁ h₁ => hcalm s₁ h₁) ?_
  rintro ⟨⟩ s₁ h₁
  refine Ends.bind ((Keeps.optionForM (mergeHooks_keeps w) _ s₁).mono (fun _ _ h => h)
    fun _ s₂ h₂ => hcalm s₂ (h₂.trans h₁)) ?_
  rintro ⟨⟩ s₂ h₂
  refine Ends.modify_then (Ends.get_then ?_)
  refine Ends.bind ((setBase_keeps w _ _).mono (fun _ _ h => h) fun _ s₃ h₃ => hcalm s₃ (h₃.trans (h₂.trans h₁))) ?_
  rintro ⟨⟩ s₃ h₃
  have h₃ : calmState s₃ = calmState s := h₃.trans (h₂.trans h₁)
  split
  · rename_i hready
    exact hadd s₃ h₃ ((congrArg (·.1.agentReady) (h₃.trans (h₂.trans h₁).symm)).trans hready)
  · exact .pure (hcalm s₃ h₃)

theorem applyPlugin_ends (prepared : PreparedPlugin σ η) {tools : List Tool} (h : Extends t (toolState s))
    (hold : ∀ e ∈ s.agent.tools, ∀ c, e.2.client = some c → c < t.nextClient)
    (htools : ∀ tool ∈ tools, ∃ c, tool.client = some c ∧ t.nextClient ≤ c ∧ c ∈ s.openClients) :
    Ends (applyPlugin w prepared tools) s (fun _ s' => Extends t (toolState s') ∧ NewOpen t (toolState s'))
      fun _ s' => Extends t (toolState s') ∧ NewOpen t (toolState s') := by
  refine applyPlugin_last w prepared tools ?_ ?_
  · intro s₁ h₁
    rw [show toolState s₁ = toolState s from congrArg Prod.fst h₁]
    exact ⟨h, fun e he c hc hle => absurd (hold e he c hc) (Nat.not_lt_of_le hle)⟩
  · intro s₁ h₁ _
    have htools₁ : s₁.agent.tools = s.agent.tools := congrArg (·.1.tools) h₁
    have hopen₁ : s₁.openClients = s.openClients := congrArg (·.1.openClients) h₁
    have hsame : toolState s₁ = toolState s := congrArg Prod.fst h₁
    refine addLoaded_ends w (hsame ▸ h) ?_ ?_
    · rw [htools₁]
      exact hold
    · rw [hopen₁]
      exact htools

/-- Whether it raises or not, `load_plugin` puts no tool in the map whose client is closed. -/
theorem loadPlugin_ends (pluginRef : String) (htidy : Tidy (toolState s)) :
    Ends (loadPlugin w pluginRef) s
      (fun _ s' => Extends (toolState s) (toolState s') ∧ NewOpen (toolState s) (toolState s'))
      fun _ s' => Extends (toolState s) (toolState s') ∧ NewOpen (toolState s) (toolState s') := by
  have hsame : ∀ s₁ : Conversation σ η, SameTools s s₁ →
      Extends (toolState s) (toolState s₁) ∧ NewOpen (toolState s) (toolState s₁) := by
    intro s₁ h₁
    rw [show toolState s₁ = _ from h₁]
    exact ⟨.rfl htidy, .of_same htidy rfl⟩
  refine Ends.bind ((ensurePluginsLoaded_keepsTools w s).mono (fun _ _ h => h) fun _ s₁ h₁ => hsame s₁ h₁) ?_
  rintro ⟨⟩ s₁ h₁
  refine Ends.bind (((preparePlugin_reads w pluginRef).keeps s₁).mono (fun _ _ h => h)
    fun _ s₂ h₂ => hsame s₂ (h₂.trans h₁)) ?_
  intro prepared s₂ h₂
  have h₂ : toolState s₂ = toolState s := h₂.trans h₁
  have hold : ∀ e ∈ s₂.agent.tools, ∀ c, e.2.client = some c → c < (toolState s).nextClient := by
    rw [show s₂.agent.tools = s.agent.tools from congrArg ToolState.tools h₂]
    exact htidy.known
  have hextends : Extends (toolState s) (toolState s₂) := by
    rw [h₂]
    exact .rfl htidy
  have hleave : ∀ (s₃ : Conversation σ η) (tools : List Tool),
      Ends (applyPlugin w prepared tools) { s₃ with saveDepth := s₃.saveDepth + 1 }
        (fun _ s' => Extends (toolState s) (toolState s') ∧ NewOpen (toolState s) (toolState s'))
        (fun _ s' => Extends (toolState s) (toolState s') ∧ NewOpen (toolState s) (toolState s')) →
      Ends (withState w (applyPlugin w prepared tools)) s₃
        (fun _ s' => Extends (toolState s) (toolState s') ∧ NewOpen (toolState s) (toolState s'))
        fun _ s' => Extends (toolState s) (toolState s') ∧ NewOpen (toolState s) (toolState s') := by
    intro s₃ tools hrun
    refine ends_withState w hrun ?_ ?_
    · rintro ⟨⟩ s₄ s₅ h hleft
      rw [left_sameTools w hleft]
      exact ⟨h, h⟩
    · rintro e s₄ s₅ h hleft
      rw [left_sameTools w hleft]
      exact h
  refine Ends.get_then (Ends.bind ((runtimeMcpTools_ends w _).mono (fun _ _ h => h) fun _ _ h => h.elim) ?_)
  rintro tools s₃ (⟨rfl, rfl, -⟩ | ⟨names, -, -, rfl, rfl⟩)
  · exact hleave _ _ (applyPlugin_ends w prepared (s := { s₃ with saveDepth := s₃.saveDepth + 1 }) hextends hold
      fun tool h => absurd h List.not_mem_nil)
  · refine hleave _ _ (applyPlugin_ends w prepared (s := { s₂ with
      openClients := s₂.nextClient :: s₂.openClients
      nextClient := s₂.nextClient + 1
      saveDepth := s₂.saveDepth + 1 }) hextends.openClient hold fun tool htool => ?_)
    obtain ⟨name, -, rfl⟩ := List.mem_map.1 htool
    exact ⟨_, rfl, hextends.next, List.mem_cons_self⟩

/-! ## Runs of calls -/

inductive Call (σ η : Type) where
  | start (w : Outside σ η)
  | load (w : Outside σ η) (pluginRef : String)

def Call.program : Call σ η → Program σ η Unit
  | .start w => ensureAgentReady w
  | .load w pluginRef => loadPlugin w pluginRef

/-- A call that raises leaves what it has changed. -/
def Call.apply (s : Conversation σ η) (call : Call σ η) : Conversation σ η :=
  match call.program s with
  | .ok _ s' => s'
  | .error _ s' => s'

def applyAll (s : Conversation σ η) (calls : List (Call σ η)) : Conversation σ η := calls.foldl Call.apply s

omit w in
theorem apply_cases (call : Call σ η) {Q : Unit → Conversation σ η → Prop} {R : Error → Conversation σ η → Prop}
    (h : Ends call.program s Q R) : (call.program s = .ok () (call.apply s) ∧ Q () (call.apply s)) ∨
      ∃ e, call.program s = .error e (call.apply s) ∧ R e (call.apply s) := by
  unfold Ends at h
  unfold Call.apply
  cases hrun : call.program s with
  | ok u s' =>
    rw [hrun] at h
    exact .inl ⟨rfl, h⟩
  | error e s' =>
    rw [hrun] at h
    exact .inr ⟨e, rfl, h⟩

/-- A start that raises once it has registered the tools of the client that it opened. -/
def RaisesRegistered (s : Conversation σ η) : Prop :=
  ∃ error s', ensureAgentReady w s = .error error s' ∧ s'.agentReady = false ∧
    ∃ e ∈ s'.agent.tools, ∃ c, e.2.client = some c ∧ s.nextClient ≤ c

omit w in
theorem apply_extends (call : Call σ η) (htidy : Tidy (toolState s)) :
    Extends (toolState s) (toolState (call.apply s)) ∧
      (NewOpen (toolState s) (toolState (call.apply s)) ↔ ∀ w, call = .start w → ¬ RaisesRegistered w s) := by
  cases call with
  | load w pluginRef =>
    rcases apply_cases (.load w pluginRef) (loadPlugin_ends w pluginRef htidy) with ⟨-, h⟩ | ⟨e, -, h⟩
    · exact ⟨h.1, iff_of_true h.2 fun _ h => by cases h⟩
    · exact ⟨h.1, iff_of_true h.2 fun _ h => by cases h⟩
  | start w =>
    rcases apply_cases (.start w) (ensureAgentReady_ends w htidy) with ⟨hrun, h⟩ | ⟨error, hrun, hextends, hleft⟩
    · refine ⟨h.1, iff_of_true h.2 ?_⟩
      rintro w' ⟨⟩ ⟨error, s', hraise, -⟩
      rw [show ensureAgentReady w s = _ from hrun] at hraise
      cases hraise
    refine ⟨hextends, ?_⟩
    constructor
    · rintro hopen w' ⟨⟩ ⟨error', s', hraise, hready, e, he, c, hc, hle⟩
      rw [show ensureAgentReady w s = _ from hrun] at hraise
      cases hraise
      rcases hleft with ⟨hready', -⟩ | ⟨-, hclosed, -⟩
      · rw [hready] at hready'
        cases hready'
      · exact (hclosed e he c hc hle).1 (hopen e he c hc hle)
    · intro hno
      rcases hleft with ⟨-, hopen⟩ | ⟨hready, -, -⟩
      · exact hopen
      · intro e he c hc hle
        exact absurd ⟨error, _, hrun, hready, e, he, c, hc, hle⟩ (hno w rfl)

omit w in
theorem tidy_applyAll (calls : List (Call σ η)) (htidy : Tidy (toolState s)) : Tidy (toolState (applyAll s calls)) := by
  induction calls generalizing s with
  | nil => exact htidy
  | cons call calls ih => exact ih (apply_extends call htidy).1.tidy

omit w in
theorem allOpen_applyAll (calls : List (Call σ η)) (htidy : Tidy (toolState s)) :
    AllOpen (applyAll s calls) ↔ AllOpen s ∧
      ∀ pre w post, calls = pre ++ .start w :: post → ¬ RaisesRegistered w (applyAll s pre) := by
  induction calls generalizing s with
  | nil =>
    refine ⟨fun h => ⟨h, fun pre w post h => ?_⟩, fun h => h.1⟩
    exact absurd h.symm (List.append_ne_nil_of_right_ne_nil _ (List.cons_ne_nil _ _))
  | cons call calls ih =>
    obtain ⟨hextends, hnew⟩ := apply_extends call htidy
    rw [show applyAll s (call :: calls) = applyAll (call.apply s) calls from rfl, ih hextends.tidy,
      allOpen_iff hextends htidy, hnew]
    constructor
    · rintro ⟨⟨hopen, hcall⟩, hcalls⟩
      refine ⟨hopen, fun pre w post h => ?_⟩
      cases pre with
      | nil =>
        cases h
        exact hcall w rfl
      | cons call' pre =>
        cases h
        exact hcalls pre w post rfl
    · rintro ⟨hopen, hall⟩
      refine ⟨⟨hopen, fun w h => hall [] w calls (h ▸ rfl)⟩, fun pre w post h => ?_⟩
      exact hall (call :: pre) w post (h ▸ rfl)

/-- After any run of starts and of calls of `load_plugin`, raising or not, every MCP tool in the
agent's map has an open client exactly if no start of the run raised once it had registered the tools of
its own client: such a start closes the client and leaves its tools. -/
theorem tools_open_iff (s : Conversation σ η) (htools : s.agent.tools = []) (hopen : s.openClients = [])
    (calls : List (Call σ η)) :
    AllOpen (applyAll s calls) ↔
      ∀ pre w post, calls = pre ++ .start w :: post → ¬ RaisesRegistered w (applyAll s pre) := by
  rw [allOpen_applyAll calls (tidy_new htools hopen), and_iff_right]
  intro e he
  rw [htools] at he
  cases he

/-- A conversation with one MCP server, and an outside where the system prompt cannot be made. -/
def oneServer : Conversation Unit Unit where
  agent := { mcpConfig := [("m", { config := () })] }
  base := { agent := ⟨none, [("m", { config := () })]⟩, hookConfig := none }

def noPrompt : Outside Unit Unit :=
  { Outside.quiet Unit Unit with createTools := fun _ => .ok ["t"], initState := .error "no prompt" }

theorem tools_open_iff_prompt : AllOpen (applyAll oneServer [.start noPrompt]) ↔
    ∀ pre w post, [Call.start noPrompt] = pre ++ .start w :: post → ¬ RaisesRegistered w (applyAll oneServer pre) :=
  tools_open_iff _ rfl rfl _

/-! ## Starts that are tried again -/

/-- The agent has its tools, one of them with this name and of an MCP client, but is not ready. -/
structure Stuck (name : String) (s : Conversation σ η) : Prop where
  ready : s.agentReady = false
  loaded : s.pluginsLoaded = true
  initialized : s.agent.initialized = true
  supports : s.agent.supportsOpenhandsTools = true
  keeps : s.agent.keeps { name } = true
  tidy : Tidy (toolState s)
  held : name ∈ s.agent.tools.map Prod.fst

omit w [DecidableEq σ] [DecidableEq η] in
theorem Stuck.of_calm {name : String} (h : Stuck name s) (hcalm : calmState s' = calmState s) : Stuck name s' where
  ready := (congrArg (·.1.agentReady) hcalm).trans h.ready
  loaded := (congrArg Prod.snd hcalm).trans h.loaded
  initialized := (congrArg (·.1.initialized) hcalm).trans h.initialized
  supports := (congrArg (·.1.supportsOpenhandsTools) hcalm).trans h.supports
  keeps := by
    have hfilter : s'.agent.filterToolsRegex = s.agent.filterToolsRegex := congrArg (·.1.filterToolsRegex) hcalm
    have hkeeps := h.keeps
    unfold Agent.keeps at hkeeps ⊢
    rw [hfilter]
    exact hkeeps
  tidy := by
    rw [show toolState s' = toolState s from congrArg Prod.fst hcalm]
    exact h.tidy
  held := by
    rw [show s'.agent.tools = s.agent.tools from congrArg (·.1.tools) hcalm]
    exact h.held

theorem Stuck.ensurePluginsLoaded {name : String} (h : Stuck name s) :
    Ends (ensurePluginsLoaded w) s (fun _ s' => s' = s) fun _ _ => False := by
  refine Ends.get_then ?_
  rw [if_pos h.loaded]
  exact .pure rfl

/-- As long as the agent is not ready, `load_plugin` opens no client and adds no tool. -/
theorem Stuck.load {name : String} (h : Stuck name s) (pluginRef : String) :
    Ends (loadPlugin w pluginRef) s (fun _ => Stuck name) fun _ => Stuck name := by
  refine Ends.bind ((h.ensurePluginsLoaded w).mono (fun _ _ h => h) fun _ _ h => h.elim) ?_
  rintro ⟨⟩ s₁ rfl
  refine Ends.bind ((preparePlugin_reads w pluginRef s₁).mono (fun _ _ h => h) ?_) ?_
  · rintro e s₂ rfl
    exact h
  rintro prepared s₂ rfl
  refine Ends.get_then (Ends.bind ((runtimeMcpTools_ends w _).mono (fun _ _ h => h) fun _ _ h => h.elim) ?_)
  rw [if_neg (by rw [h.ready]; exact Bool.false_ne_true)]
  rintro tools s₃ (⟨rfl, rfl, -⟩ | ⟨names, -, hnonempty, -⟩)
  · refine ends_withState w (Q := fun _ => Stuck name) (R := fun _ => Stuck name) ?_ ?_ ?_
    · refine applyPlugin_last w prepared [] (fun s₄ h₄ => h.of_calm h₄) fun s₄ h₄ hready => ?_
      rw [(h.of_calm h₄).ready] at hready
      cases hready
    · exact fun _ s₄ s₅ h₄ hleft => ⟨h₄.of_calm (left_calm w hleft), h₄.of_calm (left_calm w hleft)⟩
    · exact fun _ s₄ s₅ h₄ hleft => h₄.of_calm (left_calm w hleft)
  · cases hnonempty

/-- The servers that a start would connect to list a tool of this name. -/
def ListsTool (s : Conversation σ η) (name : String) : Prop :=
  (enabledMcpServers s.agent.mcpConfig).isEmpty = false ∧
    ∃ names, w.createTools (enabledMcpServers s.agent.mcpConfig) = .ok names ∧ name ∈ names

/-- The name of a tool that was left in the map is taken: what lists it again is refused. -/
theorem Stuck.start {name : String} (h : Stuck name s) (hlists : ListsTool w s name) :
    Ends (ensureAgentReady w) s (fun _ _ => False) fun _ => Stuck name := by
  refine Ends.get_then ?_
  rw [if_neg (by rw [h.ready]; exact Bool.false_ne_true)]
  refine ends_withState w (Q := fun _ _ => False) (R := fun _ => Stuck name) ?_ (fun _ _ _ h => h.elim)
    fun _ s₁ s₂ h₁ hleft => h₁.of_calm (left_calm w hleft)
  have hlists : ListsTool w { s with saveDepth := s.saveDepth + 1 } name := hlists
  have h : Stuck name { s with saveDepth := s.saveDepth + 1 } := h.of_calm rfl
  generalize ({ s with saveDepth := s.saveDepth + 1 } : Conversation σ η) = s at h hlists
  obtain ⟨hnonempty, names, hnames, hname⟩ := hlists
  refine Ends.bind ((h.ensurePluginsLoaded w).mono (fun _ _ h => h) fun _ _ h => h.elim) ?_
  rintro ⟨⟩ s₁ rfl
  refine Ends.bind (Q := fun _ s' => s' = s₁) (ends_outside (fun _ _ => rfl) fun _ _ => h) ?_
  rintro ⟨⟩ s₂ rfl
  refine Ends.bind (Q := fun _ _ => False) ?_ fun _ _ h => h.elim
  refine Ends.get_then ?_
  rw [if_pos h.supports]
  refine Ends.bind (Q := fun _ s' => s' = s₂) (Ends.get_then ?_) ?_
  · rw [if_pos h.initialized]
    exact .pure rfl
  rintro ⟨⟩ s₃ rfl
  refine Ends.bind ((runtimeMcpToolsForAgent_ends w).mono (fun _ _ h => h) fun _ _ h => h.elim) ?_
  rintro tools s₄ (⟨-, -, hnone⟩ | ⟨names', hnames', -, rfl, rfl⟩)
  · exact absurd hnames (hnone names hnonempty)
  rw [hnames] at hnames'
  cases hnames'
  have hopened := (Extends.rfl h.tidy).openClient
  generalize htools : names.map (fun name => ({ name, client := some s₃.nextClient } : Tool)) = tools
  have hclient : ∀ tool ∈ tools, tool.client = some s₃.nextClient := by
    rw [← htools]
    intro tool htool
    obtain ⟨name, -, rfl⟩ := List.mem_map.1 htool
    rfl
  have hfresh : ∀ tool ∈ tools, tool.client.isSome → ∀ e ∈ s₃.agent.tools, e.2.client ≠ tool.client := by
    intro tool htool _ e he hsame
    rw [hclient tool htool] at hsame
    exact Nat.lt_irrefl _ (h.tidy.known e he _ hsame)
  have hnamed : name ∈ ((tools.filter s₃.agent.keeps).map fun tool => (tool.name, tool)).map Prod.fst := by
    rw [List.map_map]
    refine List.mem_map.2 ⟨{ name, client := some s₃.nextClient }, List.mem_filter.2 ⟨?_, h.keeps⟩, rfl⟩
    rw [← htools]
    exact List.mem_map.2 ⟨name, hname, rfl⟩
  have hadd := addRuntimeTools_ends (s := { s₃ with
    openClients := s₃.nextClient :: s₃.openClients
    nextClient := s₃.nextClient + 1 }) tools h.tidy.keys hfresh
  -- The name is refused, so no tool is added and the new client is closed.
  have hrefused : Ends (addRuntimeTools tools)
      { s₃ with openClients := s₃.nextClient :: s₃.openClients, nextClient := s₃.nextClient + 1 } (fun _ _ => False)
      fun _ s' => s' = { s₃ with openClients := s₃.nextClient :: s₃.openClients, nextClient := s₃.nextClient + 1 } := by
    refine hadd.mono ?_ fun _ _ h => h
    rintro ⟨⟩ s' (⟨-, hinit⟩ | ⟨kept, rfl, -, hkeys, -⟩)
    · rw [h.initialized] at hinit
      cases hinit
    · rw [List.map_append, List.nodup_append] at hkeys
      exact hkeys.2.2 name h.held name hnamed rfl
  refine Ends.tryCatch (hrefused.bind fun _ _ h => h.elim) ?_
  rintro e s' rfl
  have hclosed : ∀ c, some c ∈ tools.map (·.client) → s₃.nextClient ≤ c := by
    intro c hc
    obtain ⟨tool, htool, heq⟩ := List.mem_map.1 hc
    rw [hclient tool htool] at heq
    cases heq
    exact Nat.le_refl _
  exact Ends.modify_then (.throw ⟨h.ready, h.loaded, h.initialized, h.supports, h.keeps, (hopened.close hclosed).tidy, h.held⟩)

omit w in
/-- Once stuck, the agent stays so through every call, as long as each start finds the name listed. -/
theorem Stuck.applyAll {name : String} (h : Stuck name s) (later : List (Call σ η))
    (hlists : ∀ pre w' post, later = pre ++ .start w' :: post → ListsTool w' (applyAll s pre) name) :
    Stuck name (applyAll s later) ∧ ∀ pre w' post, later = pre ++ .start w' :: post →
      ∃ error s', ensureAgentReady w' (PluginLoading.applyAll s pre) = .error error s' := by
  induction later generalizing s with
  | nil =>
    refine ⟨h, fun pre w' post hnil => ?_⟩
    exact absurd hnil.symm (List.append_ne_nil_of_right_ne_nil _ (List.cons_ne_nil _ _))
  | cons call later ih =>
    have hcall : Stuck name (call.apply s) ∧ ∀ w', call = .start w' → ∃ error s', ensureAgentReady w' s = .error error s' := by
      cases call with
      | start w₁ =>
        rcases apply_cases (.start w₁) (h.start w₁ (hlists [] w₁ later rfl)) with ⟨-, h⟩ | ⟨error, hrun, hstuck⟩
        · exact h.elim
        · refine ⟨hstuck, ?_⟩
          rintro w' ⟨⟩
          exact ⟨error, _, hrun⟩
      | load w₁ pluginRef =>
        refine ⟨?_, fun w' h => nomatch h⟩
        rcases apply_cases (.load w₁ pluginRef) (h.load w₁ pluginRef) with ⟨-, h⟩ | ⟨-, -, h⟩
        · exact h
        · exact h
    obtain ⟨hlast, hall⟩ := ih hcall.1 fun pre w' post h => hlists (call :: pre) w' post (h ▸ rfl)
    refine ⟨hlast, fun pre w' post hsplit => ?_⟩
    cases pre with
    | nil =>
      cases hsplit
      exact hcall.2 w' rfl
    | cons call' pre =>
      cases hsplit
      exact hall pre w' post rfl

/-- A start that raised once it had registered a tool is never made good, whatever starts and calls of
`load_plugin` follow: as long as the servers of each later start list a tool of that name, the start
raises, and the agent does not get ready. -/
theorem start_never_recovers (s : Conversation σ η) (htools : s.agent.tools = []) (hopen : s.openClients = [])
    (calls : List (Call σ η)) (w : Outside σ η) (error : Error) (s' : Conversation σ η)
    (hraise : ensureAgentReady w (applyAll s calls) = .error error s') (hready : s'.agentReady = false)
    (e : String × Tool) (he : e ∈ s'.agent.tools) (c : Nat) (hc : e.2.client = some c)
    (hown : (applyAll s calls).nextClient ≤ c) (later : List (Call σ η))
    (hlists : ∀ pre w' post, later = pre ++ .start w' :: post → ListsTool w' (applyAll s' pre) e.1) :
    (applyAll s' later).agentReady = false ∧ ∀ pre w' post, later = pre ++ .start w' :: post →
      ∃ error' s'', ensureAgentReady w' (applyAll s' pre) = .error error' s'' := by
  have htidy := tidy_applyAll calls (tidy_new htools hopen)
  have hstuck : Stuck e.1 s' := by
    obtain ⟨hextends, ⟨hready', -⟩ | ⟨-, hclosed, hloaded⟩⟩ := (ensureAgentReady_ends w htidy).of_error hraise
    · rw [hready] at hready'
      cases hready'
    · obtain ⟨-, ⟨hinit, hsupports, -⟩, hkeeps⟩ := hclosed e he c hc hown
      exact ⟨hready, hloaded ⟨e, he, c, hc, hown⟩, hinit, hsupports, hkeeps, hextends.tidy, List.mem_map_of_mem he⟩
  obtain ⟨hlast, hall⟩ := hstuck.applyAll later hlists
  exact ⟨hlast.ready, hall⟩

/-- What a start leaves that could not make the system prompt. -/
def leftBehind : Conversation Unit Unit where
  agent := { oneServer.agent with tools := [("t", { name := "t", client := some 0 })], initialized := true }
  base := oneServer.base
  pluginsLoaded := true
  nextClient := 1

theorem leftBehind_eq : ensureAgentReady noPrompt oneServer = .error "no prompt" leftBehind := rfl

/-- The system prompt could not be made; a plugin is loaded, and the next start finds the name of its
own tool taken. -/
theorem start_never_recovers_prompt :
    let prompt : Outside Unit Unit := { noPrompt with initState := .ok () }
    (applyAll leftBehind [.load prompt "p", .start prompt]).agentReady = false ∧
      ∀ pre w post, [Call.load prompt "p", .start prompt] = pre ++ .start w :: post →
        ∃ error s', ensureAgentReady w (applyAll leftBehind pre) = .error error s' := by
  intro prompt
  refine start_never_recovers oneServer rfl rfl [] noPrompt "no prompt" leftBehind leftBehind_eq rfl
    ("t", { name := "t", client := some 0 }) (List.mem_singleton.2 rfl) 0 rfl (Nat.le_refl 0) _ ?_
  rintro (_ | ⟨_, _ | ⟨_, _ | ⟨_, _⟩⟩⟩) w post h
  · cases h
  · cases h
    exact ⟨rfl, ["t"], rfl, List.mem_singleton.2 rfl⟩
  · cases h
  · cases h

end

end AgentSdk.PluginLoading
