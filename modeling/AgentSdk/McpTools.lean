import AgentSdk.Lib.Runs
import Mathlib.Data.List.Nodup
import Mathlib.Logic.Function.Basic
/-!
# MCP tools

The tools of an agent and the MCP clients that advertise some of them: the
refresh of a client and its two callbacks, the registration of the tools that
`create_tools` returned, and the replacement of the agent by a copy.
-/

namespace AgentSdk
open Lib

/-- A tool as a server lists it. -/
structure McpTool (φ : Type) where
  name : String
  form : φ
deriving DecidableEq, Repr

/-- A tool of an agent; the client is that of an `MCPToolExecutor`. -/
structure RuntimeTool (γ φ : Type) where
  client : Option γ := none
  form : φ
deriving DecidableEq, Repr

/-- `AgentBase._tools`. -/
abbrev ToolMap (γ φ : Type) := String → Option (RuntimeTool γ φ)

section
variable {γ φ : Type} [DecidableEq γ] [DecidableEq φ] (passes : String → Bool)

def DistinctNames (tools : List (McpTool φ)) : Prop := (tools.map (·.name)).Nodup

instance distinctNamesDecidable (tools : List (McpTool φ)) : Decidable (DistinctNames tools) :=
  inferInstanceAs (Decidable (List.Nodup _))

/-- The tool that a dict by name has. -/
def toolNamed (tools : List (McpTool φ)) (name : String) : Option (McpTool φ) :=
  tools.reverse.find? (·.name = name)

/-! ## The agent -/

namespace ToolMap

/-- `{**tools, **{tool.name: tool for tool in new}}`. -/
def updated (m : ToolMap γ φ) (c : γ) (tools : List (McpTool φ)) : ToolMap γ φ := fun name =>
  match toolNamed tools name with
  | some tool => some { client := some c, form := tool.form }
  | none => m name

def conflicts (m : ToolMap γ φ) (c : γ) (tools : List (McpTool φ)) : List (McpTool φ) :=
  tools.filter fun tool => (m tool.name).any fun existing => existing.client ≠ some c

/-- `none` where a `ValueError` is raised. -/
def addRuntimeTools (m : ToolMap γ φ) (c : γ) (tools : List (McpTool φ)) : Option (ToolMap γ φ) :=
  let tools := tools.filter fun tool => passes tool.name
  if DistinctNames tools ∧ m.conflicts c tools = [] then some (m.updated c tools) else none

def onMcpToolsChanged (m : ToolMap γ φ) (c : γ) (tools : List (McpTool φ)) : Option (ToolMap γ φ) :=
  if DistinctNames tools ∧ m.conflicts c tools = [] then do
    let additions := tools.filter fun tool => (m tool.name).isNone
    let replacements := tools.filter fun tool => (m tool.name).isSome
    let added ← m.addRuntimeTools passes c additions
    some (added.updated c replacements)
  else none

/-- The tools that the client does not own. -/
def without (m : ToolMap γ φ) (c : γ) : ToolMap γ φ := fun name => (m name).filter fun tool => tool.client ≠ some c

def onMcpToolsReconciled (m : ToolMap γ φ) (c : γ) (tools : List (McpTool φ)) : Option (ToolMap γ φ) :=
  if DistinctNames tools then
    let tools := tools.filter fun tool => passes tool.name
    if m.conflicts c tools = [] then some ((m.without c).updated c tools) else none
  else none

end ToolMap

/-! ## Clients and refreshes -/

/-- A client from its connection to the registration of the tools that were
returned for it. -/
inductive ClientPc (φ : Type) where
  | absent
  | connecting (listed : Option (List (McpTool φ)))
  | connected
  | returned (tools : List (McpTool φ))
  | registered
  | closed
deriving DecidableEq, Repr

/-- The refresh that has the client's `_refresh_lock`. A callback reads
`self.agent` before it writes the map of that agent. -/
inductive RefreshPc (φ : Type) where
  | idle
  | listing
  | listed (tools : List (McpTool φ))
  | toChange (added tools : List (McpTool φ))
  | changing (added tools : List (McpTool φ)) (agent : Nat)
  | toReconcile (tools : List (McpTool φ))
  | reconciling (tools : List (McpTool φ)) (agent : Nat)
deriving DecidableEq, Repr

/-- The snapshot of a refresh whose callbacks are not through. -/
def RefreshPc.pending? : RefreshPc φ → Option (List (McpTool φ))
  | .idle | .listing | .listed _ => none
  | .toChange _ tools | .changing _ tools _ | .toReconcile tools | .reconciling tools _ => some tools

def addedTools (tools listing : List (McpTool φ)) : List (McpTool φ) :=
  listing.filter fun tool => toolNamed tools tool.name = none

def updatedTools (tools listing : List (McpTool φ)) : List (McpTool φ) :=
  listing.filter fun tool => (toolNamed tools tool.name).any (· ≠ tool)

def removedTools (tools listing : List (McpTool φ)) : List (McpTool φ) :=
  tools.filter fun tool => tool.name ∉ listing.map (·.name)

/-- The callbacks that a listing asks for. -/
def afterListing (tools listing : List (McpTool φ)) : RefreshPc φ :=
  if addedTools tools listing ≠ [] then .toChange (addedTools tools listing) listing
  else if updatedTools tools listing ≠ [] ∨ removedTools tools listing ≠ [] then .toReconcile listing
  else .idle

inductive McpOp (γ φ : Type) where
  | serverChange (c : γ) (tools : List (McpTool φ))
  | connect (c : γ)
  | listInitial (c : γ)
  | connected (c : γ)
  | notified (c : γ)
  | list (c : γ)
  | refreshFailed (c : γ)
  | applyListing (c : γ)
  | readAgent (c : γ)
  | callback (c : γ)
  | returnTools (c : γ)
  | register (c : γ)
  | copyAgent
  | replaceAgent
deriving DecidableEq

/-- `server` is what the servers advertise, `tools` each client's `_tools`;
agents are numbered, and `copied` is the copy that is not yet the conversation's
agent. -/
structure McpWorld (γ φ : Type) where
  server : γ → List (McpTool φ)
  clients : γ → ClientPc φ := fun _ => .absent
  tools : γ → List (McpTool φ) := fun _ => []
  refresh : γ → RefreshPc φ := fun _ => .idle
  agents : Nat → ToolMap γ φ
  agent : Nat := 0
  copied : Option Nat := none
  nextAgent : Nat := 1

namespace McpWorld

/-- After `_initialize`, which makes the tools that are not MCP tools. -/
def initial (server : γ → List (McpTool φ)) (base : String → Option φ) : McpWorld γ φ where
  server := server
  agents := fun _ name => (base name).map fun form => { form }

def setClient (s : McpWorld γ φ) (c : γ) (pc : ClientPc φ) : McpWorld γ φ :=
  { s with clients := Function.update s.clients c pc }

def setRefresh (s : McpWorld γ φ) (c : γ) (pc : RefreshPc φ) : McpWorld γ φ :=
  { s with refresh := Function.update s.refresh c pc }

def setTools (s : McpWorld γ φ) (c : γ) (tools : List (McpTool φ)) : McpWorld γ φ :=
  { s with tools := Function.update s.tools c tools }

/-- A callback's exception is logged, and the map stays. -/
def setMap (s : McpWorld γ φ) (agent : Nat) (m : Option (ToolMap γ φ)) : McpWorld γ φ :=
  { s with agents := Function.update s.agents agent (m.getD (s.agents agent)) }

def step (s : McpWorld γ φ) : McpOp γ φ → Option (McpWorld γ φ)
  | .serverChange c tools => some { s with server := Function.update s.server c tools }
  | .connect c => if s.clients c = .absent then some (s.setClient c (.connecting none)) else none
  | .listInitial c =>
    if s.clients c = .connecting none then some (s.setClient c (.connecting (some (s.server c)))) else none
  | .connected c =>
    -- on the client's loop, which a callback keeps busy
    match s.clients c, (s.refresh c).pending? with
    | .connecting (some tools), none => some ((s.setTools c tools).setClient c .connected)
    | _, _ => none
  | .notified c =>
    if s.clients c ≠ .absent ∧ s.clients c ≠ .closed ∧ s.refresh c = .idle then some (s.setRefresh c .listing) else none
  | .list c => if s.refresh c = .listing then some (s.setRefresh c (.listed (s.server c))) else none
  | .refreshFailed c => if s.refresh c = .listing then some (s.setRefresh c .idle) else none
  | .applyListing c =>
    match s.refresh c with
    | .listed tools => some ((s.setRefresh c (afterListing (s.tools c) tools)).setTools c tools)
    | _ => none
  | .readAgent c =>
    match s.refresh c with
    | .toChange added tools => some (s.setRefresh c (.changing added tools s.agent))
    | .toReconcile tools => some (s.setRefresh c (.reconciling tools s.agent))
    | _ => none
  | .callback c =>
    match s.refresh c with
    | .changing added tools agent =>
      some ((s.setMap agent ((s.agents agent).onMcpToolsChanged passes c added)).setRefresh c (.toReconcile tools))
    | .reconciling tools agent =>
      some ((s.setMap agent ((s.agents agent).onMcpToolsReconciled passes c tools)).setRefresh c .idle)
    | _ => none
  | .returnTools c => if s.clients c = .connected then some (s.setClient c (.returned (s.tools c))) else none
  | .register c =>
    -- under the state lock, as the replacement of the agent
    match s.clients c, s.copied with
    | .returned tools, none =>
      match (s.agents s.agent).addRuntimeTools passes c tools with
      | some m => some ((s.setMap s.agent (some m)).setClient c .registered)
      | none => some (s.setClient c .closed)
    | _, _ => none
  | .copyAgent =>
    match s.copied with
    | none =>
      some { s with
        agents := Function.update s.agents s.nextAgent (s.agents s.agent)
        copied := some s.nextAgent
        nextAgent := s.nextAgent + 1 }
    | some _ => none
  | .replaceAgent => s.copied.map fun agent => { s with agent := agent, copied := none }

/-! ## What has to hold -/

/-- No refresh, registration or replacement is in flight. -/
def Quiescent (s : McpWorld γ φ) : Prop :=
  s.copied = none ∧
    ∀ c, s.refresh c = .idle ∧ (s.clients c = .absent ∨ s.clients c = .registered ∨ s.clients c = .closed)

/-- The non-MCP tools, unchanged, and for each client the tools of its last
listing that pass the filter. -/
def Tracks (base : String → Option φ) (s : McpWorld γ φ) : Prop :=
  ∀ name tool, s.agents s.agent name = some tool ↔
    match tool.client with
    | none => base name = some tool.form
    | some c => { name, form := tool.form } ∈ s.tools c ∧ passes name = true

/-! ## The condition -/

/-- The agent that a write has to reach. -/
def target (s : McpWorld γ φ) : Nat := s.copied.getD s.agent

def map (s : McpWorld γ φ) : ToolMap γ φ := s.agents s.target

end McpWorld

/-- The map has the client's tools in this listing, and no others of it. -/
def UpToDate (m : ToolMap γ φ) (c : γ) (tools : List (McpTool φ)) : Prop :=
  ∀ name form, m name = some { client := some c, form } ↔ { name, form } ∈ tools ∧ passes name = true

namespace McpWorld

/-- A reconcile writes the agent that is not replaced, or has nothing to write;
the initial listing leaves out no name that a refresh has listed; the returned
tools are registered without a conflict, and are still listed or will be
reconciled. -/
def Allowed (s : McpWorld γ φ) : McpOp γ φ → Prop
  | .callback c => ∀ tools agent, s.refresh c = .reconciling tools agent →
      (((s.agents agent).onMcpToolsReconciled passes c tools).isSome ∧ agent = s.target) ∨
        UpToDate passes s.map c tools
  | .connected c => ∀ tools, s.clients c = .connecting (some tools) →
      ∀ tool ∈ s.tools c, passes tool.name = true → tool.name ∈ tools.map (·.name)
  | .register c => ∀ tools, s.clients c = .returned tools →
      ((s.agents s.agent).addRuntimeTools passes c tools).isSome ∧
        ((s.refresh c).pending?.isSome ∨ ∀ tool ∈ tools, passes tool.name = true → tool ∈ s.tools c)
  | _ => True

end McpWorld

end

/-! ## The maps -/

section
variable {γ φ : Type} {passes : String → Bool}

theorem toolNamed_some {tools : List (McpTool φ)} {name : String} {tool : McpTool φ}
    (h : toolNamed tools name = some tool) : tool ∈ tools ∧ tool.name = name := by
  have hmem := List.mem_of_find?_eq_some h
  have hname := List.find?_some h
  exact ⟨List.mem_reverse.1 hmem, of_decide_eq_true hname⟩

theorem toolNamed_none {tools : List (McpTool φ)} {name : String} :
    toolNamed tools name = none ↔ name ∉ tools.map (·.name) := by
  rw [toolNamed, List.find?_eq_none]
  constructor
  · intro h hmem
    obtain ⟨tool, htool, rfl⟩ := List.mem_map.1 hmem
    exact h tool (List.mem_reverse.2 htool) (decide_eq_true rfl)
  · intro h tool htool hname
    exact h (List.mem_map.2 ⟨tool, List.mem_reverse.1 htool, of_decide_eq_true hname⟩)

theorem eq_of_distinctNames {tools : List (McpTool φ)} (h : DistinctNames tools) {t t' : McpTool φ} (ht : t ∈ tools)
    (ht' : t' ∈ tools) (hname : t.name = t'.name) : t = t' :=
  List.inj_on_of_nodup_map h ht ht' hname

/-- Only tools of the client are added, changed or dropped. -/
def OwnedBy (c : γ) (m m' : ToolMap γ φ) : Prop :=
  ∀ name tool, tool.client ≠ some c → (m' name = some tool ↔ m name = some tool)

namespace OwnedBy
variable {c : γ} {m m' m'' : ToolMap γ φ}

theorem refl (c : γ) (m : ToolMap γ φ) : OwnedBy c m m := fun _ _ _ => Iff.rfl

theorem trans (h : OwnedBy c m m') (h' : OwnedBy c m' m'') : OwnedBy c m m'' :=
  fun name tool hne => (h' name tool hne).trans (h name tool hne)

end OwnedBy

end

section
variable {γ φ : Type} [DecidableEq γ] {passes : String → Bool}

namespace OwnedBy
variable {c : γ} {m m' m'' : ToolMap γ φ}

omit [DecidableEq γ] in
/-- An update that overwrites no tool of another owner. -/
theorem updated {tools : List (McpTool φ)}
    (h : ∀ tool ∈ tools, ∀ existing, m tool.name = some existing → existing.client = some c) :
    OwnedBy c m (m.updated c tools) := by
  intro name tool hne
  rw [ToolMap.updated]
  split
  · rename_i found hfound
    obtain ⟨hmem, rfl⟩ := toolNamed_some hfound
    refine ⟨fun heq => ?_, fun heq => absurd (h found hmem tool heq) hne⟩
    cases heq
    exact absurd rfl hne
  · exact Iff.rfl

theorem without (c : γ) (m : ToolMap γ φ) : OwnedBy c m (m.without c) := by
  intro name tool hne
  rw [ToolMap.without, Option.filter_eq_some_iff, decide_eq_true_eq]
  exact ⟨fun h => h.1, fun h => ⟨h, hne⟩⟩

end OwnedBy

namespace ToolMap

theorem client_of_conflicts {m : ToolMap γ φ} {c : γ} {tools : List (McpTool φ)} (h : m.conflicts c tools = [])
    {tool : McpTool φ} (htool : tool ∈ tools) {existing : RuntimeTool γ φ} (hexisting : m tool.name = some existing) :
    existing.client = some c := by
  have hnot := List.filter_eq_nil_iff.1 h tool htool
  rw [hexisting, Option.any_some, decide_eq_true_eq, not_not] at hnot
  exact hnot

theorem addRuntimeTools_spec {m m' : ToolMap γ φ} {c : γ} {tools : List (McpTool φ)}
    (h : m.addRuntimeTools passes c tools = some m') :
    OwnedBy c m m' ∧ DistinctNames (tools.filter fun tool => passes tool.name) ∧
      m' = m.updated c (tools.filter fun tool => passes tool.name) := by
  unfold addRuntimeTools at h
  dsimp only at h
  split at h
  · rename_i hok
    cases h
    exact ⟨.updated fun tool htool _ hexisting => client_of_conflicts hok.2 htool hexisting, hok.1, rfl⟩
  · cases h

theorem ownedBy_onMcpToolsChanged {m m' : ToolMap γ φ} {c : γ} {tools : List (McpTool φ)}
    (h : m.onMcpToolsChanged passes c tools = some m') : OwnedBy c m m' := by
  unfold onMcpToolsChanged at h
  split at h
  · rename_i hok
    obtain ⟨added, hadded, h⟩ := Option.bind_eq_some_iff.1 h
    cases h
    obtain ⟨hown, -⟩ := addRuntimeTools_spec hadded
    refine hown.trans (.updated fun tool htool existing hexisting => ?_)
    obtain ⟨hmem, hsome⟩ := List.mem_filter.1 htool
    -- what the map has under this name is the client's, before and after the additions
    by_contra hne
    exact hne (client_of_conflicts hok.2 hmem ((hown _ _ hne).1 hexisting))
  · cases h

theorem onMcpToolsReconciled_spec {m m' : ToolMap γ φ} {c : γ} {tools : List (McpTool φ)}
    (h : m.onMcpToolsReconciled passes c tools = some m') : OwnedBy c m m' ∧ UpToDate passes m' c tools := by
  unfold onMcpToolsReconciled at h
  split at h
  · rename_i hdistinct
    dsimp only at h
    split at h
    · rename_i hconflicts
      cases h
      constructor
      · refine (OwnedBy.without c m).trans (.updated fun tool htool existing hexisting => ?_)
        exact client_of_conflicts hconflicts htool (Option.filter_eq_some_iff.1 hexisting).1
      · intro name form
        have hfiltered : DistinctNames (tools.filter fun tool => passes tool.name) :=
          List.Nodup.sublist (List.filter_sublist.map _) hdistinct
        rw [updated]
        split
        · rename_i found hfound
          obtain ⟨hmem, rfl⟩ := toolNamed_some hfound
          have hin := List.mem_filter.1 hmem
          constructor
          · rintro h
            cases h
            exact hin
          · rintro ⟨htool, -⟩
            rw [eq_of_distinctNames hdistinct hin.1 htool rfl]
        · rename_i hnone
          constructor
          · intro h
            obtain ⟨-, hne⟩ := Option.filter_eq_some_iff.1 h
            exact absurd rfl (of_decide_eq_true hne)
          · rintro ⟨htool, hpasses⟩
            exact absurd (List.mem_map_of_mem (List.mem_filter.2 ⟨htool, hpasses⟩)) (toolNamed_none.1 hnone)
    · cases h
  · cases h

end ToolMap

end

/-! ## A client -/

section
variable {γ φ : Type} {passes : String → Bool}

/-- Every tool of the client has a listed name. -/
def Covered (passes : String → Bool) (m : ToolMap γ φ) (c : γ) (tools : List (McpTool φ)) : Prop :=
  ∀ name form, m name = some { client := some c, form } → name ∈ tools.map (·.name) ∧ passes name = true

/-- The registration will bring every listed tool. -/
def ClientPc.Brings (tools : List (McpTool φ)) : ClientPc φ → Prop
  | .connected => True
  | .returned snapshot => ∀ tool ∈ tools, tool ∈ snapshot
  | _ => False

/-- The map is up to date with the client, or will be by a reconcile that is
pending or by the registration. -/
def InSync (passes : String → Bool) (m : ToolMap γ φ) (c : γ) (tools : List (McpTool φ)) (pc : ClientPc φ)
    (refresh : RefreshPc φ) : Prop :=
  match refresh.pending? with
  | some snapshot => snapshot = tools
  | none => UpToDate passes m c tools ∨ (Covered passes m c tools ∧ pc.Brings tools)

theorem UpToDate.covered {m : ToolMap γ φ} {c : γ} {tools : List (McpTool φ)} (h : UpToDate passes m c tools) :
    Covered passes m c tools := by
  intro name form hm
  obtain ⟨hmem, hpasses⟩ := (h name form).1 hm
  exact ⟨List.mem_map_of_mem hmem, hpasses⟩

theorem InSync.of_pending {m : ToolMap γ φ} {c : γ} {tools : List (McpTool φ)} {pc : ClientPc φ} {r : RefreshPc φ}
    (h : r.pending? = some tools) : InSync passes m c tools pc r := by
  rw [InSync, h]

theorem InSync.of_upToDate {m : ToolMap γ φ} {c : γ} {tools : List (McpTool φ)} {pc : ClientPc φ} {r : RefreshPc φ}
    (h : UpToDate passes m c tools) (hr : r.pending? = none) : InSync passes m c tools pc r := by
  rw [InSync, hr]
  exact .inl h

theorem InSync.of_brings {m : ToolMap γ φ} {c : γ} {tools : List (McpTool φ)} {pc : ClientPc φ} {r : RefreshPc φ}
    (h : Covered passes m c tools) (hpc : pc.Brings tools) (hr : r.pending? = none) : InSync passes m c tools pc r := by
  rw [InSync, hr]
  exact .inr ⟨h, hpc⟩

/-- Where no registration is under way, the client's tools are as listed. -/
theorem InSync.upToDate {m : ToolMap γ φ} {c : γ} {tools : List (McpTool φ)} {pc : ClientPc φ} {r : RefreshPc φ}
    (h : InSync passes m c tools pc r) (hr : r.pending? = none) (hpc : ¬ pc.Brings tools) :
    UpToDate passes m c tools := by
  rw [InSync, hr] at h
  exact h.resolve_right fun hbrings => hpc hbrings.2

/-- Only the map's tools of the client and what is pending matter. -/
theorem InSync.congr {m m' : ToolMap γ φ} {c : γ} {tools : List (McpTool φ)} {pc : ClientPc φ} {r r' : RefreshPc φ}
    (h : InSync passes m c tools pc r)
    (hm : ∀ name form, m' name = some { client := some c, form } ↔ m name = some { client := some c, form })
    (hr : r'.pending? = r.pending?) : InSync passes m' c tools pc r' := by
  rw [InSync] at h ⊢
  rw [hr]
  cases hpending : r.pending? with
  | some snapshot =>
    rw [hpending] at h
    exact h
  | none =>
    rw [hpending] at h
    rcases h with hup | ⟨hcov, hpc⟩
    · exact .inl fun name form => (hm name form).trans (hup name form)
    · exact .inr ⟨fun name form h => hcov name form ((hm name form).1 h), hpc⟩

/-! ### A listing -/

variable [DecidableEq φ]

/-- A listing that asks for no callback has the same names and no new tool. -/
theorem listing_of_idle {tools listing : List (McpTool φ)} (h : (afterListing tools listing).pending? = none) :
    (∀ tool ∈ listing, tool ∈ tools) ∧ ∀ tool ∈ tools, tool.name ∈ listing.map (·.name) := by
  unfold afterListing at h
  split at h
  · cases h
  · rename_i hadded
    split at h
    · cases h
    · rename_i hchanged
      rw [not_or, not_not, not_not] at hchanged
      rw [not_not] at hadded
      constructor
      · intro tool htool
        have hprior := List.filter_eq_nil_iff.1 hadded tool htool
        have hsame := List.filter_eq_nil_iff.1 hchanged.1 tool htool
        rw [decide_eq_true_eq] at hprior
        obtain ⟨prior, hfound⟩ := Option.ne_none_iff_exists'.1 hprior
        rw [hfound, Option.any_some, decide_eq_true_eq, not_not] at hsame
        exact hsame ▸ (toolNamed_some hfound).1
      · intro tool htool
        have hkept := List.filter_eq_nil_iff.1 hchanged.2 tool htool
        rwa [decide_eq_true_eq, not_not] at hkept

theorem pending_afterListing {tools listing snapshot : List (McpTool φ)}
    (h : (afterListing tools listing).pending? = some snapshot) : snapshot = listing := by
  unfold afterListing at h
  split at h
  · cases h
    rfl
  · split at h
    · cases h
      rfl
    · cases h

theorem InSync.applyListing {m : ToolMap γ φ} {c : γ} {tools listing : List (McpTool φ)} {pc : ClientPc φ}
    {r : RefreshPc φ} (h : InSync passes m c tools pc r) (hr : r.pending? = none) :
    InSync passes m c listing pc (afterListing tools listing) := by
  cases hpending : (afterListing tools listing).pending? with
  | some snapshot => exact .of_pending (pending_afterListing hpending ▸ hpending)
  | none =>
    obtain ⟨hsub, hnames⟩ := listing_of_idle hpending
    have hcovered : Covered passes m c tools → Covered passes m c listing := by
      intro hcov name form hm
      obtain ⟨hmem, hpasses⟩ := hcov name form hm
      obtain ⟨tool, htool, rfl⟩ := List.mem_map.1 hmem
      exact ⟨hnames tool htool, hpasses⟩
    rw [InSync, hr] at h
    rcases h with hup | ⟨hcov, hbrings⟩
    · refine .of_upToDate (fun name form => ⟨fun hm => ?_, fun hin => ?_⟩) hpending
      · obtain ⟨hname, hpasses⟩ := hcovered hup.covered name form hm
        obtain ⟨tool, htool, rfl⟩ := List.mem_map.1 hname
        -- the listed tool of this name is the map's
        have hlisted := (hup tool.name tool.form).2 ⟨hsub tool htool, hpasses⟩
        cases hm.symm.trans hlisted
        exact ⟨htool, hpasses⟩
      · exact (hup name form).2 ⟨hsub _ hin.1, hin.2⟩
    · refine .of_brings (hcovered hcov) ?_ hpending
      cases pc with
      | connected => exact trivial
      | returned snapshot => exact fun tool htool => hbrings tool (hsub tool htool)
      | absent => exact hbrings
      | connecting listed => exact hbrings
      | registered => exact hbrings
      | closed => exact hbrings

/-! ### A registration -/

variable [DecidableEq γ]

omit [DecidableEq φ] in
/-- The registration of tools that are all listed. -/
theorem InSync.register {m m' : ToolMap γ φ} {c : γ} {tools snapshot : List (McpTool φ)} {r : RefreshPc φ}
    (h : InSync passes m c tools (.returned snapshot) r) (hm : m.addRuntimeTools passes c snapshot = some m')
    (hlisted : r.pending?.isSome ∨ ∀ tool ∈ snapshot, passes tool.name = true → tool ∈ tools) :
    InSync passes m' c tools .registered r := by
  obtain ⟨-, hdistinct, rfl⟩ := ToolMap.addRuntimeTools_spec hm
  cases hpending : r.pending? with
  | some pending =>
    rw [InSync, hpending] at h
    exact .of_pending (h ▸ hpending)
  | none =>
    rw [InSync, hpending] at h
    rw [hpending] at hlisted
    replace hlisted := hlisted.resolve_left Bool.false_ne_true
    refine .of_upToDate (fun name form => ?_) hpending
    rw [ToolMap.updated]
    split
    · rename_i found hfound
      obtain ⟨hmem, rfl⟩ := toolNamed_some hfound
      obtain ⟨hin, hpasses⟩ := List.mem_filter.1 hmem
      constructor
      · intro heq
        cases heq
        exact ⟨hlisted found hin hpasses, hpasses⟩
      · rintro ⟨htool, -⟩
        rcases h with hup | ⟨-, hbrings⟩
        · have hold := (hup _ _).2 ⟨htool, hpasses⟩
          have hnew := (hup _ _).2 ⟨hlisted found hin hpasses, hpasses⟩
          exact hnew.symm.trans hold
        · have hsnapshot : { name := found.name, form } ∈ snapshot.filter fun tool => passes tool.name :=
            List.mem_filter.2 ⟨hbrings _ htool, hpasses⟩
          rw [eq_of_distinctNames hdistinct hmem hsnapshot rfl]
    · rename_i hnone
      rcases h with hup | ⟨hcov, hbrings⟩
      · exact hup name form
      · -- a listed name that passes is one of the returned tools
        have hnot : ∀ tool ∈ tools, passes tool.name = true → tool.name ≠ name := by
          rintro tool htool hpasses rfl
          exact toolNamed_none.1 hnone (List.mem_map_of_mem (List.mem_filter.2 ⟨hbrings tool htool, hpasses⟩))
        constructor
        · intro hold
          obtain ⟨hname, hpasses⟩ := hcov name form hold
          obtain ⟨tool, htool, rfl⟩ := List.mem_map.1 hname
          exact absurd rfl (hnot tool htool hpasses)
        · rintro ⟨htool, hpasses⟩
          exact absurd rfl (hnot _ htool hpasses)

end

/-! ## Runs -/

section
variable {γ φ : Type} {passes : String → Bool} {base : String → Option φ}

namespace McpWorld

/-- The invariant, on the map that every write has to reach. -/
structure Consistent (passes : String → Bool) (base : String → Option φ) (s : McpWorld γ φ) : Prop where
  base : ∀ name form, s.map name = some { client := none, form } ↔ base name = some form
  clients : ∀ c, InSync passes s.map c (s.tools c) (s.clients c) (s.refresh c)

theorem Consistent.initial (server : γ → List (McpTool φ)) : Consistent passes base (initial server base) := by
  have hmap : ∀ name tool, (McpWorld.initial server base).map name = some tool ↔
      ∃ form, base name = some form ∧ { client := none, form } = tool :=
    fun name tool => Option.map_eq_some_iff
  refine ⟨fun name form => ?_, fun c => .of_upToDate (fun name form => ?_) rfl⟩
  · rw [hmap]
    constructor
    · rintro ⟨_, hform, heq⟩
      cases heq
      exact hform
    · exact fun hform => ⟨form, hform, rfl⟩
  · rw [hmap]
    constructor
    · rintro ⟨_, -, heq⟩
      cases heq
    · rintro ⟨hmem, -⟩
      cases hmem

/-- A step that is about none, and keeps the map. -/
theorem Consistent.of_map {s t : McpWorld γ φ} (h : Consistent passes base s) (hmap : t.map = s.map)
    (hframe : t.tools = s.tools ∧ t.clients = s.clients ∧ t.refresh = s.refresh) : Consistent passes base t := by
  obtain ⟨htools, hclients, hrefresh⟩ := hframe
  refine ⟨fun name form => ?_, fun c => ?_⟩
  · rw [hmap]
    exact h.base name form
  · rw [hmap, htools, hclients, hrefresh]
    exact h.clients c

theorem map_setMap {s : McpWorld γ φ} {agent : Nat} {m : Option (ToolMap γ φ)} :
    (s.setMap agent m).map = if agent = s.target then m.getD s.map else s.map := by
  show Function.update s.agents agent (m.getD (s.agents agent)) s.target = _
  by_cases heq : agent = s.target
  · rw [if_pos heq, heq, Function.update_self]
    rfl
  · rw [if_neg heq, Function.update_of_ne (Ne.symm heq)]
    rfl

/-- A callback changes the agent's tools of its own client only. -/
theorem ownedBy_setMap {s : McpWorld γ φ} {c : γ} {agent : Nat} {m : Option (ToolMap γ φ)}
    (h : ∀ m', m = some m' → OwnedBy c (s.agents agent) m') : OwnedBy c s.map (s.setMap agent m).map := by
  rw [map_setMap]
  split
  · rename_i heq
    cases m with
    | none => exact .refl c _
    | some m' =>
      have hown := h m' rfl
      rw [heq] at hown
      exact hown
  · exact .refl c _

end McpWorld

end

section
variable {γ φ : Type} [DecidableEq γ] {passes : String → Bool} {base : String → Option φ}

namespace McpWorld

/-- A step that is about one client. -/
theorem Consistent.of_client {s t : McpWorld γ φ} (h : Consistent passes base s) (c : γ)
    (hown : OwnedBy c s.map t.map)
    (hframe : ∀ c', c' ≠ c → t.tools c' = s.tools c' ∧ t.clients c' = s.clients c' ∧ t.refresh c' = s.refresh c')
    (hc : InSync passes t.map c (t.tools c) (t.clients c) (t.refresh c)) : Consistent passes base t := by
  refine ⟨fun name form => (hown name _ (by simp)).trans (h.base name form), fun c' => ?_⟩
  by_cases heq : c' = c
  · exact heq ▸ hc
  · obtain ⟨htools, hclient, hrefresh⟩ := hframe c' heq
    rw [htools, hclient, hrefresh]
    exact (h.clients c').congr (fun name form => hown name _ fun hsome => heq (Option.some.inj hsome)) rfl

/-- A client's own step, with the map as it was. -/
theorem Consistent.setClient {s : McpWorld γ φ} (h : Consistent passes base s) (c : γ) {pc : ClientPc φ}
    (hc : InSync passes s.map c (s.tools c) pc (s.refresh c)) : Consistent passes base (s.setClient c pc) := by
  refine h.of_client c (.refl c _) (fun c' hne => ⟨rfl, Function.update_of_ne hne _ _, rfl⟩) ?_
  show InSync passes s.map c (s.tools c) (Function.update s.clients c pc c) (s.refresh c)
  rw [Function.update_self]
  exact hc

theorem Consistent.setRefresh {s : McpWorld γ φ} (h : Consistent passes base s) (c : γ) {pc : RefreshPc φ}
    (hc : InSync passes s.map c (s.tools c) (s.clients c) pc) : Consistent passes base (s.setRefresh c pc) := by
  refine h.of_client c (.refl c _) (fun c' hne => ⟨rfl, rfl, Function.update_of_ne hne _ _⟩) ?_
  show InSync passes s.map c (s.tools c) (s.clients c) (Function.update s.refresh c pc c)
  rw [Function.update_self]
  exact hc

/-- A refresh that stays before or within its callbacks. -/
theorem Consistent.moveRefresh {s : McpWorld γ φ} (h : Consistent passes base s) {c : γ} {pc pc' : RefreshPc φ}
    (hc : s.refresh c = pc) (hpc : pc'.pending? = pc.pending?) : Consistent passes base (s.setRefresh c pc') := by
  refine h.setRefresh c ((h.clients c).congr (fun _ _ => Iff.rfl) ?_)
  rw [hc, hpc]

end McpWorld

end

section
variable {γ φ : Type} [DecidableEq γ] [DecidableEq φ] {passes : String → Bool} {base : String → Option φ}

namespace McpWorld

attribute [local simp] step

theorem Consistent.callback {s t : McpWorld γ φ} {c : γ} (h : Consistent passes base s)
    (hok : s.Allowed passes (.callback c)) (ht : s.step passes (.callback c) = some t) : Consistent passes base t := by
  dsimp only [step] at ht
  split at ht
  · rename_i added tools agent hrefresh
    cases ht
    refine h.of_client c (ownedBy_setMap fun m' => ToolMap.ownedBy_onMcpToolsChanged)
      (fun c' hne => ⟨rfl, rfl, Function.update_of_ne hne _ _⟩) ?_
    -- the reconcile is still to come
    have hin := h.clients c
    rw [InSync, hrefresh] at hin
    refine .of_pending ((congrArg RefreshPc.pending? (Function.update_self c _ s.refresh)).trans ?_)
    exact congrArg some hin
  · rename_i tools agent hrefresh
    cases ht
    have hin := h.clients c
    rw [InSync, hrefresh] at hin
    have htools : tools = s.tools c := hin
    refine h.of_client c (ownedBy_setMap fun m' hm => (ToolMap.onMcpToolsReconciled_spec hm).1)
      (fun c' hne => ⟨rfl, rfl, Function.update_of_ne hne _ _⟩) ?_
    refine .of_upToDate ?_ (congrArg RefreshPc.pending? (Function.update_self c _ s.refresh))
    show UpToDate passes (s.setMap agent _).map c (s.tools c)
    rw [map_setMap, ← htools]
    rcases hok tools agent hrefresh with ⟨hsome, heq⟩ | hup
    · obtain ⟨m, hm⟩ := Option.isSome_iff_exists.1 hsome
      rw [if_pos heq, hm]
      exact (ToolMap.onMcpToolsReconciled_spec hm).2
    · split
      · rename_i heq
        cases hm : (s.agents agent).onMcpToolsReconciled passes c tools with
        | none => exact hup
        | some m => exact (ToolMap.onMcpToolsReconciled_spec hm).2
      · exact hup
  · cases ht

theorem Consistent.register {s t : McpWorld γ φ} {c : γ} (h : Consistent passes base s)
    (hok : s.Allowed passes (.register c)) (ht : s.step passes (.register c) = some t) : Consistent passes base t := by
  dsimp only [step] at ht
  split at ht
  · rename_i snapshot hclient hcopied
    obtain ⟨hsome, hlisted⟩ := hok snapshot hclient
    obtain ⟨m, hm⟩ := Option.isSome_iff_exists.1 hsome
    rw [hm] at ht
    cases ht
    have htarget : s.agent = s.target := by rw [target, hcopied, Option.getD_none]
    refine h.of_client c (ownedBy_setMap fun m' hm' => ?_) (fun c' hne => ⟨rfl, Function.update_of_ne hne _ _, rfl⟩) ?_
    · cases hm'
      exact (ToolMap.addRuntimeTools_spec hm).1
    · show InSync passes (s.setMap s.agent (some m)).map c (s.tools c) (Function.update s.clients c .registered c)
        (s.refresh c)
      rw [map_setMap, if_pos htarget, Function.update_self]
      have hin := h.clients c
      rw [hclient] at hin
      rw [htarget] at hm
      exact hin.register hm hlisted
  · cases ht

theorem Consistent.connect {s t : McpWorld γ φ} {c : γ} (h : Consistent passes base s)
    (ht : s.step passes (.connect c) = some t) : Consistent passes base t := by
  dsimp only [McpWorld.step] at ht
  split at ht
  · rename_i hclient
    cases ht
    refine h.setClient c ?_
    have hin := h.clients c
    rw [hclient] at hin
    exact hin
  · cases ht

theorem Consistent.listInitial {s t : McpWorld γ φ} {c : γ} (h : Consistent passes base s)
    (ht : s.step passes (.listInitial c) = some t) : Consistent passes base t := by
  dsimp only [McpWorld.step] at ht
  split at ht
  · rename_i hclient
    cases ht
    refine h.setClient c ?_
    have hin := h.clients c
    rw [hclient] at hin
    exact hin
  · cases ht

theorem Consistent.connected {s t : McpWorld γ φ} {c : γ} (h : Consistent passes base s)
    (hok : s.Allowed passes (.connected c)) (ht : s.step passes (.connected c) = some t) : Consistent passes base t := by
  dsimp only [McpWorld.step] at ht
  split at ht
  · rename_i tools hclient hrefresh
    cases ht
    refine h.of_client c (.refl c _)
      (fun c' hne => ⟨Function.update_of_ne hne _ _, Function.update_of_ne hne _ _, rfl⟩) ?_
    show InSync passes s.map c (Function.update s.tools c tools c) (Function.update s.clients c .connected c)
      (s.refresh c)
    rw [Function.update_self, Function.update_self]
    have hin := h.clients c
    rw [hclient] at hin
    have hup := hin.upToDate hrefresh id
    refine .of_brings (fun name form hm => ?_) trivial hrefresh
    obtain ⟨hmem, hpasses⟩ := (hup name form).1 hm
    exact ⟨hok tools hclient _ hmem hpasses, hpasses⟩
  · cases ht

theorem Consistent.notified {s t : McpWorld γ φ} {c : γ} (h : Consistent passes base s)
    (ht : s.step passes (.notified c) = some t) : Consistent passes base t := by
  dsimp only [McpWorld.step] at ht
  split at ht
  · rename_i hidle
    cases ht
    exact h.moveRefresh hidle.2.2 rfl
  · cases ht

theorem Consistent.list {s t : McpWorld γ φ} {c : γ} (h : Consistent passes base s)
    (ht : s.step passes (.list c) = some t) : Consistent passes base t := by
  dsimp only [McpWorld.step] at ht
  split at ht
  · rename_i hlisting
    cases ht
    exact h.moveRefresh hlisting rfl
  · cases ht

theorem Consistent.refreshFailed {s t : McpWorld γ φ} {c : γ} (h : Consistent passes base s)
    (ht : s.step passes (.refreshFailed c) = some t) : Consistent passes base t := by
  dsimp only [McpWorld.step] at ht
  split at ht
  · rename_i hlisting
    cases ht
    exact h.moveRefresh hlisting rfl
  · cases ht

theorem Consistent.applyListing {s t : McpWorld γ φ} {c : γ} (h : Consistent passes base s)
    (ht : s.step passes (.applyListing c) = some t) : Consistent passes base t := by
  dsimp only [McpWorld.step] at ht
  split at ht
  · rename_i tools hrefresh
    cases ht
    refine h.of_client c (.refl c _)
      (fun c' hne => ⟨Function.update_of_ne hne _ _, rfl, Function.update_of_ne hne _ _⟩) ?_
    show InSync passes s.map c (Function.update s.tools c tools c) (s.clients c)
      (Function.update s.refresh c (afterListing (s.tools c) tools) c)
    rw [Function.update_self, Function.update_self]
    exact (h.clients c).applyListing (congrArg RefreshPc.pending? hrefresh)
  · cases ht

theorem Consistent.readAgent {s t : McpWorld γ φ} {c : γ} (h : Consistent passes base s)
    (ht : s.step passes (.readAgent c) = some t) : Consistent passes base t := by
  dsimp only [McpWorld.step] at ht
  split at ht
  · rename_i added tools hrefresh
    cases ht
    exact h.moveRefresh hrefresh rfl
  · rename_i tools hrefresh
    cases ht
    exact h.moveRefresh hrefresh rfl
  · cases ht

theorem Consistent.returnTools {s t : McpWorld γ φ} {c : γ} (h : Consistent passes base s)
    (ht : s.step passes (.returnTools c) = some t) : Consistent passes base t := by
  dsimp only [McpWorld.step] at ht
  split at ht
  · rename_i hclient
    cases ht
    refine h.setClient c ?_
    have hin := h.clients c
    rw [hclient] at hin
    unfold InSync at hin ⊢
    cases hpending : (s.refresh c).pending? with
    | some snapshot =>
      rw [hpending] at hin
      exact hin
    | none =>
      rw [hpending] at hin
      exact hin.imp_right fun hcov => ⟨hcov.1, fun tool htool => htool⟩
  · cases ht

theorem Consistent.copyAgent {s t : McpWorld γ φ} (h : Consistent passes base s)
    (ht : s.step passes .copyAgent = some t) : Consistent passes base t := by
  dsimp only [McpWorld.step] at ht
  split at ht
  · rename_i hcopied
    cases ht
    -- the copy has the map of the agent
    have hmap : Function.update s.agents s.nextAgent (s.agents s.agent) s.nextAgent = s.map := by
      rw [Function.update_self, map, target, hcopied, Option.getD_none]
    exact h.of_map hmap ⟨rfl, rfl, rfl⟩
  · cases ht

theorem Consistent.replaceAgent {s t : McpWorld γ φ} (h : Consistent passes base s)
    (ht : s.step passes .replaceAgent = some t) : Consistent passes base t := by
  obtain ⟨agent, hcopied, ht⟩ := Option.map_eq_some_iff.1 ht
  cases ht
  have htarget : s.target = agent := by rw [target, hcopied, Option.getD_some]
  have hmap : s.agents agent = s.map := by rw [map, htarget]
  exact h.of_map hmap ⟨rfl, rfl, rfl⟩

theorem Consistent.step {s t : McpWorld γ φ} {op : McpOp γ φ} (h : Consistent passes base s)
    (hok : s.Allowed passes op) (ht : s.step passes op = some t) : Consistent passes base t := by
  cases op with
  | serverChange c tools =>
    cases ht
    exact h.of_map rfl ⟨rfl, rfl, rfl⟩
  | connect c => exact h.connect ht
  | listInitial c => exact h.listInitial ht
  | connected c => exact h.connected hok ht
  | notified c => exact h.notified ht
  | list c => exact h.list ht
  | refreshFailed c => exact h.refreshFailed ht
  | applyListing c => exact h.applyListing ht
  | readAgent c => exact h.readAgent ht
  | callback c => exact h.callback hok ht
  | returnTools c => exact h.returnTools ht
  | register c => exact h.register hok ht
  | copyAgent => exact h.copyAgent ht
  | replaceAgent => exact h.replaceAgent ht

/-- Every run: wherever nothing is in flight, the agent's tools are its own and
those that the clients listed last. -/
theorem tracks_of_reaches (passes : String → Bool) (server : γ → List (McpTool φ)) (base : String → Option φ)
    {s : McpWorld γ φ} (h : Reaches (step passes) (Allowed passes) (initial server base) s) (hq : s.Quiescent) :
    s.Tracks passes base := by
  have hcons : Consistent passes base s :=
    h.invariant (.initial server) fun _ _ _ hs hok ht => hs.step hok ht
  obtain ⟨hcopied, hidle⟩ := hq
  have hmap : s.map = s.agents s.agent := by rw [map, target, hcopied, Option.getD_none]
  rintro name ⟨client, form⟩
  rw [← hmap]
  cases client with
  | none => exact hcons.base name form
  | some c =>
    obtain ⟨hrefresh, hclient⟩ := hidle c
    refine ((hcons.clients c).upToDate (congrArg RefreshPc.pending? hrefresh) ?_) name form
    rcases hclient with hpc | hpc | hpc <;>
      · rw [hpc]
        exact id

/-! ## A run with two clients -/

/-- A condition that can be checked: a reconcile finds the agent that it read. -/
def direct (passes : String → Bool) (s : McpWorld γ φ) : McpOp γ φ → Bool
  | .callback c =>
    match s.refresh c with
    | .reconciling tools agent =>
      ((s.agents agent).onMcpToolsReconciled passes c tools).isSome && decide (agent = s.target)
    | _ => true
  | .connected c =>
    match s.clients c with
    | .connecting (some tools) =>
      (s.tools c).all fun tool => !passes tool.name || decide (tool.name ∈ tools.map (·.name))
    | _ => true
  | .register c =>
    match s.clients c with
    | .returned tools =>
      ((s.agents s.agent).addRuntimeTools passes c tools).isSome &&
        ((s.refresh c).pending?.isSome || tools.all fun tool => !passes tool.name || decide (tool ∈ s.tools c))
    | _ => true
  | _ => true

theorem allowed_of_direct {s : McpWorld γ φ} {op : McpOp γ φ} (h : s.direct passes op = true) : s.Allowed passes op := by
  cases op with
  | callback c =>
    intro tools agent hrefresh
    rw [direct, hrefresh] at h
    simp only [Bool.and_eq_true, decide_eq_true_eq] at h
    exact .inl h
  | connected c =>
    intro tools hclient tool htool hpasses
    rw [direct, hclient] at h
    have hall := List.all_eq_true.1 h tool htool
    rw [hpasses, Bool.not_true, Bool.false_or, decide_eq_true_eq] at hall
    exact hall
  | register c =>
    intro tools hclient
    rw [direct, hclient] at h
    simp only [Bool.and_eq_true, Bool.or_eq_true] at h
    refine ⟨h.1, h.2.imp_right fun hall tool htool hpasses => ?_⟩
    have hin := List.all_eq_true.1 hall tool htool
    rw [hpasses, Bool.not_true, Bool.false_or, decide_eq_true_eq] at hin
    exact hin
  | _ => trivial

/-- The first client's server changes before its tools are registered, and
again while a plugin replaces the agent. -/
def pluginOps : List (McpOp Bool Nat) :=
  [.connect false, .listInitial false, .connected false, .returnTools false,
    .serverChange false [⟨"read", 1⟩, ⟨"write", 0⟩, ⟨"debug", 0⟩], .notified false, .list false, .applyListing false,
    .readAgent false, .callback false, .register false, .readAgent false, .callback false,
    .connect true, .listInitial true, .connected true, .returnTools true, .serverChange false [⟨"write", 2⟩],
    .notified false, .list false, .applyListing false, .copyAgent, .replaceAgent, .readAgent false, .register true,
    .callback false]

def pluginServers : Bool → List (McpTool Nat)
  | false => [⟨"read", 0⟩]
  | true => [⟨"search", 5⟩]

theorem tracks_of_reaches_plugin :
    ∃ s, Reaches (step (· ≠ "debug")) (Allowed (· ≠ "debug"))
        (initial pluginServers fun name => if name = "terminal" then some 9 else none) s ∧
      s.Quiescent ∧ s.Tracks (· ≠ "debug") (fun name => if name = "terminal" then some 9 else none) ∧
      ["terminal", "read", "write", "debug", "search"].map (s.agents s.agent) =
        [some ⟨none, 9⟩, none, some ⟨some false, 2⟩, none, some ⟨some true, 5⟩] := by
  have hrun : (execAllowed (step (· ≠ "debug")) (fun s op => s.direct (· ≠ "debug") op = true)
      (initial pluginServers fun name => if name = "terminal" then some 9 else none) pluginOps).map
        (fun s => (decide (s.copied = none ∧ s.refresh false = .idle ∧ s.refresh true = .idle ∧
          s.clients false = .registered ∧ s.clients true = .registered),
          ["terminal", "read", "write", "debug", "search"].map (s.agents s.agent))) =
      some (true, [some ⟨none, 9⟩, none, some ⟨some false, 2⟩, none, some ⟨some true, 5⟩]) := by
    decide +kernel
  obtain ⟨s, hs, hval⟩ := Option.map_eq_some_iff.1 hrun
  simp only [Prod.mk.injEq, decide_eq_true_eq] at hval
  obtain ⟨⟨hcopied, hfalse, htrue, hfalse', htrue'⟩, hmap⟩ := hval
  have hq : s.Quiescent := by
    refine ⟨hcopied, fun c => ?_⟩
    cases c with
    | false => exact ⟨hfalse, .inr (.inl hfalse')⟩
    | true => exact ⟨htrue, .inr (.inl htrue')⟩
  have hreach := (reaches_of_execAllowed .init hs).mono fun _ _ => allowed_of_direct
  exact ⟨s, hreach, hq, tracks_of_reaches _ _ _ hreach hq, hmap⟩

/-- One client, no other tools. The tool that `create_tools` returned goes away
before it is registered, and the reconcile finds nothing to drop. -/
theorem tracks_stale_snapshot :
    ¬ ∀ s, Reaches (step fun _ => true) (fun _ _ => True) (initial (fun _ : Unit => [⟨"read", 0⟩]) fun _ => none) s →
      s.Quiescent → s.Tracks (fun _ => true) (fun _ : String => (none : Option Nat)) := by
  intro hall
  have hrun : (exec (step fun _ => true) (initial (fun _ : Unit => [⟨"read", 0⟩]) fun _ => none)
      [.connect (), .listInitial (), .connected (), .returnTools (), .serverChange () [], .notified (), .list (),
        .applyListing (), .readAgent (), .callback (), .register ()]).map
        (fun s => (decide (s.copied = none ∧ s.refresh () = .idle ∧ s.clients () = .registered),
          s.tools (), s.agents s.agent "read")) =
      some (true, [], some ⟨some (), 0⟩) := by
    decide +kernel
  obtain ⟨s, hs, hval⟩ := Option.map_eq_some_iff.1 hrun
  simp only [Prod.mk.injEq, decide_eq_true_eq] at hval
  obtain ⟨⟨hcopied, hrefresh, hclient⟩, htools, hmap⟩ := hval
  have htracks := hall s (reaches_of_exec .init hs) ⟨hcopied, fun _ => ⟨hrefresh, .inr (.inl hclient)⟩⟩
  have hlisted : ⟨"read", 0⟩ ∈ s.tools () ∧ _ := (htracks "read" ⟨some (), 0⟩).1 hmap
  rw [htools] at hlisted
  cases hlisted.1

end McpWorld

end

end AgentSdk
