import AgentSdk.ConversationLifecycle
import AgentSdk.Lib.Effects
import Mathlib.Data.List.TakeWhile
/-!
# Creations that fail

A start, a fork or a child start on `ConversationService`, step by step, with a
step that raises. An exception leaves behind what was changed before it; what is
cleaned up is what a handler of the source cleans up. Each call runs on its own.
-/

namespace AgentSdk.ConversationService.Creation
open Lib

abbrev EventID := String
abbrev SecretName := String

/-- `CODEX_AUTH_SECRET_NAME`. -/
def codexAuthSecretName : SecretName := "CODEX_AUTH_JSON"

inductive Binding where
  /-- Brought by `activate_credential_binding`. -/
  | runtime (n : Nat)
  /-- `LocalVersionedCredentialBinding` of the server's own store. -/
  | localStore
deriving DecidableEq

/-- Pending credential bindings of a conversation, by secret name. -/
abbrev Bindings := SecretName → Option Binding

def Bindings.empty : Bindings := fun _ => none

inductive Agent where
  | llm
  | acp (server : String)
deriving DecidableEq

/-- `_is_codex_agent`. -/
def Agent.isCodex : Agent → Bool
  | .llm => false
  | .acp server => server = "codex"

structure Stored where
  /-- `secret_refs` of the launched profile; `none` allows every secret. -/
  secretRefs : Option (List SecretName) := none
  parent : Option ConversationId := none
  forkedFrom : Option ConversationId := none
deriving DecidableEq

/-- `_profile_allows_secret`. -/
def Stored.allowsSecret (stored : Stored) (name : SecretName) : Bool :=
  stored.secretRefs.all fun refs => name ∈ refs

/-- A persistence directory: `base_state.json` with its agent, the events, `meta.json`. -/
structure Directory where
  agent : Option Agent := none
  events : List EventID := []
  saved : Bool := false
deriving DecidableEq

structure Record where
  stored : Stored
  directory : Directory

structure Service where
  stored : Stored
  bindings : Bindings

structure Server where
  /-- The catalog, each entry with its directory. -/
  records : ConversationId → Option Record := fun _ => none
  /-- `_event_services`, of which each is open. -/
  services : ConversationId → Option Service := fun _ => none
  /-- Persistence directories that the catalog does not know. -/
  strays : ConversationId → Option Directory := fun _ => none
  bindings : ConversationId → Bindings := fun _ => .empty

inductive Raise where
  | exception
  /-- `ConversationLeaseHeldError`. -/
  | leaseHeld
  /-- `CancelledError`, which `except Exception` lets through. -/
  | cancelled
deriving DecidableEq

/-- The steps of `_start_event_service` that can raise. -/
inductive StartStep where
  /-- `_agent_from_base_state`. -/
  | agent
  /-- `_has_local_codex_credential`. -/
  | localCredential
  /-- The constructor of `EventService`. -/
  | construct
  | mkdir
  /-- The lease and what follows up to the conversation. -/
  | claim
  /-- `LocalConversation`, before it has written its state. -/
  | conversation
  /-- What `start` does with the conversation. -/
  | setup
  | subscribe
  | saveMeta
  /-- The service has been shut down in between. -/
  | detached
deriving DecidableEq

inductive Step where
  /-- The preparation of a launch. -/
  | prepare
  /-- `_prepare_persisted_runtime` of the source, or a binding that it requires. -/
  | prepareRuntime
  | load (step : StartStep)
  /-- Before the fork has a directory. -/
  | forkCheck
  | forkCopy
  /-- The temporary conversation is closed. -/
  | forkClose
  | start (step : StartStep)
  /-- Behind the registration. -/
  | respond
deriving DecidableEq

/-- What the environment answers. -/
structure Faults where
  fault : Option (Step × Raise) := none
  /-- How many events a fork has copied when its copy raises. -/
  copied : Nat := 0
  /-- `safe_rmtree` succeeds. -/
  rmtree : Bool := true
  /-- The server's own store has the codex credential. -/
  localCodex : Bool := false

abbrev Program := EStateM Raise Server

def raiseAt (f : Faults) (step : Step) : Program Unit := fun s =>
  match f.fault with
  | some (at_, r) => if at_ = step then .error r s else .ok () s
  | none => .ok () s

/-! ## The state -/

namespace Server

def setBindings (s : Server) (id : ConversationId) (b : Bindings) : Server :=
  { s with bindings := Function.update s.bindings id b }

/-- A write below the persistence directory. Of a conversation of the catalog it is
there with all that is written when a service starts. -/
def modifyDirectory (s : Server) (id : ConversationId) (g : Directory → Directory) : Server :=
  if (s.records id).isSome then s
  else { s with strays := Function.update s.strays id (some (g ((s.strays id).getD {}))) }

def directory (s : Server) (id : ConversationId) : Option Directory :=
  match s.records id with
  | some record => some record.directory
  | none => s.strays id

/-- `_agent_from_base_state`. -/
def agentFromBaseState (s : Server) (id : ConversationId) : Option Agent := (s.directory id).bind Directory.agent

def removeDirectory (s : Server) (id : ConversationId) : Server :=
  { s with strays := Function.update s.strays id none }

/-- The entries in `_event_services` and in the catalog. -/
def register (s : Server) (id : ConversationId) (stored : Stored) (bindings : Bindings) : Server :=
  { s with
    services := Function.update s.services id (some ⟨stored, bindings⟩)
    records := Function.update s.records id (some ⟨stored, (s.directory id).getD {}⟩)
    strays := Function.update s.strays id none }

/-- `_has_conversation`. -/
def Known (s : Server) (id : ConversationId) : Prop := (s.records id).isSome ∨ (s.services id).isSome

instance Known.decidable (s : Server) (id : ConversationId) : Decidable (s.Known id) :=
  inferInstanceAs (Decidable (_ ∨ _))

end Server

/-! ## Starting an event service -/

/-- The server's own codex credential is looked up. -/
def needsLocal (stored : Stored) (agent : Option Agent) (pending : Bindings) : Bool :=
  stored.allowsSecret codexAuthSecretName && (pending codexAuthSecretName).isNone && agent.any Agent.isCodex

/-- What `_resolve_credential_bindings` makes of the pending bindings. -/
def resolvedBindings (localCodex : Bool) (stored : Stored) (agent : Option Agent) (pending : Bindings) : Bindings :=
  match agent with
  | none | some .llm => .empty
  | some (.acp _) => fun name =>
    if name = codexAuthSecretName ∧ needsLocal stored agent pending ∧ localCodex then some .localStore
    else if stored.allowsSecret name then pending name else none

def resolveCredentialBindings (f : Faults) (at_ : StartStep → Step) (id : ConversationId) (stored : Stored)
    (agent : Option Agent) : Program Bindings := do
  let pending := (← get).bindings id
  modify fun s => s.setBindings id .empty
  if needsLocal stored agent pending then
    raiseAt f (at_ .localCredential)
    return resolvedBindings f.localCodex stored agent pending
  else
    return resolvedBindings f.localCodex stored agent pending

/-- The `LocalConversation` of `EventService.start`: a base state that is there is resumed. -/
def openConversation (f : Faults) (at_ : StartStep → Step) (id : ConversationId) (launched : Option Agent) :
    Program Unit := do
  match (← get).agentFromBaseState id, launched with
  | some _, _ => raiseAt f (at_ .conversation)
  | none, none => throw .exception
  | none, some agent =>
    raiseAt f (at_ .conversation)
    modify fun s => s.modifyDirectory id fun d => { d with agent := some agent }

/-- The `try` of `_start_event_service`: `EventService.start`, the subscribers, `save_meta`. -/
def startService (f : Faults) (at_ : StartStep → Step) (id : ConversationId) (launched : Option Agent) :
    Program Unit := do
  raiseAt f (at_ .mkdir)
  modify fun s => s.modifyDirectory id fun d => d
  raiseAt f (at_ .claim)
  openConversation f at_ id launched
  raiseAt f (at_ .setup)
  raiseAt f (at_ .subscribe)
  raiseAt f (at_ .saveMeta)
  modify fun s => s.modifyDirectory id fun d => { d with saved := true }
  raiseAt f (at_ .detached)

/-- The agent that decides over the bindings: the launched one, or that of the base state. -/
def launchedAgent (f : Faults) (at_ : StartStep → Step) (id : ConversationId) (launched persisted : Option Agent) :
    Program (Option Agent) :=
  match launched.or persisted with
  | some agent => return some agent
  | none => do
    raiseAt f (at_ .agent)
    return (← get).agentFromBaseState id

/-- The `except Exception` of `_start_event_service`: each binding goes back unless a new one is pending. -/
def startFailed (id : ConversationId) (bindings : Bindings) (r : Raise) : Program Unit := do
  modify fun s =>
    if r = .cancelled then s else s.setBindings id fun name => (s.bindings id name).or (bindings name)
  throw r

/-- `_start_event_service`. -/
def startEventService (f : Faults) (at_ : StartStep → Step) (id : ConversationId) (stored : Stored)
    (launched persisted : Option Agent) : Program Unit := do
  let agent ← launchedAgent f at_ id launched persisted
  let bindings ← resolveCredentialBindings f at_ id stored agent
  raiseAt f (at_ .construct)
  tryCatch (startService f at_ id launched) (startFailed id bindings)
  modify fun s => s.register id stored bindings

/-! ## The three creations -/

/-- `_get_or_load_event_service`, with what the service has stored. -/
def getOrLoadEventService (f : Faults) (id : ConversationId) : Program (Option Stored) := do
  match (← get).services id with
  | some service => return some service.stored
  | none =>
    match (← get).records id with
    | none => return none
    | some record =>
      raiseAt f .prepareRuntime
      tryCatch (do
          startEventService f .load id record.stored none none
          return some record.stored)
        fun r => if r = .leaseHeld then return none else throw r

/-- `_launch_prepared_conversation` without a first message. -/
def launchPreparedConversation (f : Faults) (id : ConversationId) (stored : Stored) (launched : Agent) :
    Program Unit := do
  if (← get).Known id then
    throw .exception
  else
    startEventService f .start id stored (some launched) none
    raiseAt f .respond

/-- The agent of an open conversation, which has its state. -/
def Server.openAgent (s : Server) (id : ConversationId) : Agent := (s.agentFromBaseState id).getD .llm

/-- `LocalConversation.fork` in the directory of the new id, and the close of its result. -/
def copyConversation (f : Faults) (source id : ConversationId) (slice : List EventID → Option (List EventID)) :
    Program Agent := do
  raiseAt f .forkCheck
  let agent := (← get).openAgent source
  match slice (((← get).directory source).getD {}).events with
  | none => throw .exception
  | some events =>
    modify fun s => s.modifyDirectory id fun d => { d with agent := some agent }
    let old := (((← get).directory id).getD {}).events
    let copied := if f.fault.any (fun p => p.1 = .forkCopy) then events.take f.copied else events
    -- An event that is there already is refused.
    let fresh := copied.takeWhile fun e => e ∉ old
    modify fun s => s.modifyDirectory id fun d => { d with events := d.events ++ fresh }
    if fresh ≠ copied then
      throw .exception
    else
      raiseAt f .forkCopy
      raiseAt f .forkClose
      return agent

inductive Request where
  | start (id : ConversationId) (stored : Stored) (agent : Agent)
  /-- `slice` is what of the source's log is copied: all, or the branch of an event that is there. -/
  | fork (source id : ConversationId) (slice : List EventID → Option (List EventID))
  | child (parent id : ConversationId)

def Request.id : Request → ConversationId
  | .start id _ _ | .fork _ id _ | .child _ id => id

/-- `_start_conversation`; a known id is reused. -/
def startConversation (f : Faults) (id : ConversationId) (stored : Stored) (agent : Agent) : Program Unit := do
  if (← get).Known id then
    return
  else
    raiseAt f .prepare
    launchPreparedConversation f id stored agent

/-- The `except Exception` of `fork_conversation`. -/
def forkFailed (f : Faults) (id : ConversationId) (r : Raise) : Program Unit := do
  modify fun s => if r ≠ .cancelled ∧ f.rmtree then s.removeDirectory id else s
  throw r

/-- `fork_conversation` with the source's service in hand. -/
def forkLoaded (f : Faults) (source id : ConversationId) (slice : List EventID → Option (List EventID))
    (stored : Stored) : Program Unit := do
  if (← get).Known id then
    throw .exception
  else
    let agent ← copyConversation f source id slice
    tryCatch (startEventService f .start id { stored with forkedFrom := some source } none (some agent))
      (forkFailed f id)
    raiseAt f .respond

def forkConversation (f : Faults) (source id : ConversationId) (slice : List EventID → Option (List EventID)) :
    Program Unit := do
  if ((← get).records id).isSome then
    throw .exception
  else
    match ← getOrLoadEventService f source with
    | none => return
    | some stored => forkLoaded f source id slice stored

/-- `start_child_conversation` with the parent's service in hand. -/
def startChildLoaded (f : Faults) (parent id : ConversationId) (stored : Stored) : Program Unit := do
  let agent := (← get).openAgent parent
  raiseAt f .prepare
  launchPreparedConversation f id { stored with parent := some parent, forkedFrom := none } agent

def startChildConversation (f : Faults) (parent id : ConversationId) : Program Unit := do
  match ← getOrLoadEventService f parent with
  | none => return
  | some stored => startChildLoaded f parent id stored

def create (f : Faults) : Request → Program Unit
  | .start id stored agent => startConversation f id stored agent
  | .fork source id slice => forkConversation f source id slice
  | .child parent id => startChildConversation f parent id

/-! ## What a step leaves behind -/

section
variable {f : Faults} {at_ : StartStep → Step} {s s' : Server} {id : ConversationId} {r : Raise}

/-- The step does not raise. -/
def Passes (f : Faults) (step : Step) : Prop := ∀ r, f.fault ≠ some (step, r)

theorem raiseAt_ends (f : Faults) (step : Step) (s : Server) :
    Ends (raiseAt f step) s (fun _ s' => s' = s ∧ Passes f step) (fun r s' => f.fault = some (step, r) ∧ s' = s) := by
  unfold Ends raiseAt Passes
  cases hf : f.fault with
  | none => exact ⟨rfl, nofun⟩
  | some p =>
    obtain ⟨other, r⟩ := p
    dsimp only
    by_cases hstep : other = step
    · rw [if_pos hstep]
      exact ⟨by rw [hstep], rfl⟩
    · rw [if_neg hstep]
      refine ⟨rfl, fun r' hr' => hstep ?_⟩
      cases hr'
      rfl

theorem raiseAt_then {step : Step} {k : Unit → Program α} {P : α → Server → Prop} {R : Raise → Server → Prop}
    (hraise : ∀ r, f.fault = some (step, r) → R r s) (hk : Passes f step → Ends (k ()) s P R) :
    Ends (raiseAt f step >>= k) s P R := by
  refine .bind ((raiseAt_ends f step s).mono (fun _ _ h => h) ?_) ?_
  · rintro r _ ⟨hf, rfl⟩
    exact hraise r hf
  · rintro _ _ ⟨rfl, hpass⟩
    exact hk hpass

theorem modifyDirectory_comp (s : Server) (id : ConversationId) (g k : Directory → Directory) :
    (s.modifyDirectory id g).modifyDirectory id k = s.modifyDirectory id (k ∘ g) := by
  unfold Server.modifyDirectory
  by_cases hknown : (s.records id).isSome
  · simp only [if_pos hknown]
  · simp only [if_neg hknown, Function.update_self, Option.getD_some, Function.update_idem, Function.comp_apply]

/-- Only the directory has been written. -/
def Wrote (s : Server) (id : ConversationId) (s' : Server) : Prop := ∃ g, s' = s.modifyDirectory id g

theorem Wrote.modify {s₁ : Server} (h : Wrote s id s₁) (g : Directory → Directory) :
    Wrote s id (s₁.modifyDirectory id g) := by
  obtain ⟨k, rfl⟩ := h
  exact ⟨g ∘ k, modifyDirectory_comp s id k g⟩

theorem Wrote.services (h : Wrote s id s') : s'.services = s.services := by
  obtain ⟨g, rfl⟩ := h
  unfold Server.modifyDirectory
  split <;> rfl

/-- Steps in the `try` whose failure finds the directory made. -/
def StartStep.Late : StartStep → Prop
  | .agent | .localCredential | .construct | .mkdir => False
  | .claim | .conversation | .setup | .subscribe | .saveMeta | .detached => True

/-- A step of `start` raises, or there is no agent to start with. -/
def RaisesLate (f : Faults) (at_ : StartStep → Step) (s : Server) (id : ConversationId) (launched : Option Agent)
    (r : Raise) : Prop :=
  (∃ step : StartStep, step.Late ∧ f.fault = some (at_ step, r)) ∨
    r = .exception ∧ launched = none ∧ s.agentFromBaseState id = none

/-- A step of `start` behind its `mkdir`. -/
theorem raiseAt_late {step : StartStep} {launched : Option Agent} {s₁ : Server} {k : Unit → Program α}
    {P : α → Server → Prop} (hlate : step.Late) (hs : Wrote s id s₁)
    (hk : Passes f (at_ step) → Ends (k ()) s₁ P fun r s' => RaisesLate f at_ s id launched r ∧ Wrote s id s') :
    Ends (raiseAt f (at_ step) >>= k) s₁ P fun r s' => RaisesLate f at_ s id launched r ∧ Wrote s id s' :=
  raiseAt_then (fun _ hf => ⟨.inl ⟨step, hlate, hf⟩, hs⟩) hk

theorem agentFromBaseState_open (s : Server) (id : ConversationId) :
    (s.modifyDirectory id fun d => d).agentFromBaseState id = s.agentFromBaseState id := by
  unfold Server.agentFromBaseState Server.directory Server.modifyDirectory
  cases hrecord : s.records id with
  | some record => simp [hrecord]
  | none => cases s.strays id <;> simp [hrecord]

theorem openConversation_ends (f : Faults) (at_ : StartStep → Step) {s s₁ : Server} (hs : Wrote s id s₁)
    (hagent : s₁.agentFromBaseState id = s.agentFromBaseState id) (launched : Option Agent) :
    Ends (openConversation f at_ id launched) s₁
      (fun _ s' => Wrote s id s' ∧ Passes f (at_ .conversation) ∧ (launched = none → s.agentFromBaseState id ≠ none))
      (fun r s' => RaisesLate f at_ s id launched r ∧ Wrote s id s') := by
  unfold openConversation
  refine .get_then ?_
  have hlate : StartStep.Late .conversation := trivial
  split
  · rename_i agent hsome
    refine (raiseAt_ends f (at_ .conversation) s₁).mono ?_ ?_
    · rintro _ _ ⟨rfl, hpass⟩
      refine ⟨hs, hpass, fun _ hnone => ?_⟩
      rw [hagent, hnone] at hsome
      cases hsome
    · rintro r _ ⟨hf, rfl⟩
      exact ⟨.inl ⟨_, hlate, hf⟩, hs⟩
  · rename_i hnone
    exact .throw ⟨.inr ⟨rfl, rfl, hagent ▸ hnone⟩, hs⟩
  · exact raiseAt_late hlate hs fun hpass => .modify ⟨hs.modify _, hpass, nofun⟩

/-- `start` and what follows it in the `try` have gone through. -/
structure Started (f : Faults) (at_ : StartStep → Step) (s : Server) (id : ConversationId) (launched : Option Agent) :
    Prop where
  mkdir : Passes f (at_ .mkdir)
  late : ∀ step : StartStep, step.Late → Passes f (at_ step)
  agent : launched = none → s.agentFromBaseState id ≠ none

theorem startService_ends (f : Faults) (at_ : StartStep → Step) (s : Server) (id : ConversationId)
    (launched : Option Agent) :
    Ends (startService f at_ id launched) s (fun _ s' => Wrote s id s' ∧ Started f at_ s id launched)
      (fun r s' => (f.fault = some (at_ .mkdir, r) ∧ s' = s) ∨ RaisesLate f at_ s id launched r ∧ Wrote s id s') := by
  unfold startService
  refine raiseAt_then (fun _ hf => .inl ⟨hf, rfl⟩) fun hmkdir => .modify_then ?_
  refine .mono (Q := fun _ s' => Wrote s id s' ∧ Started f at_ s id launched) ?_ (fun _ _ h => h) fun _ _ h => .inr h
  have hwrote : Wrote s id (s.modifyDirectory id fun d => d) := ⟨_, rfl⟩
  refine raiseAt_late trivial hwrote fun hclaim => ?_
  have hopen := openConversation_ends f at_ hwrote (agentFromBaseState_open s id) launched
  refine .bind hopen fun _ s₁ ⟨hs₁, hconversation, hagent⟩ => ?_
  refine raiseAt_late trivial hs₁ fun hsetup => raiseAt_late trivial hs₁ fun hsubscribe => ?_
  refine raiseAt_late trivial hs₁ fun hsave => .modify_then ?_
  refine (raiseAt_ends f (at_ .detached) _).mono ?_ ?_
  · rintro _ _ ⟨rfl, hdetached⟩
    refine ⟨hs₁.modify _, hmkdir, fun step hlate => ?_, hagent⟩
    cases step with
    | claim => exact hclaim
    | conversation => exact hconversation
    | setup => exact hsetup
    | subscribe => exact hsubscribe
    | saveMeta => exact hsave
    | detached => exact hdetached
    | _ => exact hlate.elim
  · rintro r _ ⟨hf, rfl⟩
    exact ⟨.inl ⟨.detached, trivial, hf⟩, hs₁.modify _⟩

theorem resolveCredentialBindings_ends (f : Faults) (at_ : StartStep → Step) (s : Server) (id : ConversationId)
    (stored : Stored) (agent : Option Agent) :
    Ends (resolveCredentialBindings f at_ id stored agent) s
      (fun b s' => b = resolvedBindings f.localCodex stored agent (s.bindings id) ∧ s' = s.setBindings id .empty ∧
        (needsLocal stored agent (s.bindings id) → Passes f (at_ .localCredential)))
      (fun r s' => f.fault = some (at_ .localCredential, r) ∧ needsLocal stored agent (s.bindings id) ∧
        s' = s.setBindings id .empty) := by
  unfold resolveCredentialBindings
  refine .get_then (.modify_then ?_)
  split
  · rename_i hneeds
    exact raiseAt_then (fun _ hf => ⟨hf, hneeds, rfl⟩) fun hpass => .pure ⟨rfl, rfl, fun _ => hpass⟩
  · rename_i hneeds
    exact .pure ⟨rfl, rfl, fun h => absurd h hneeds⟩

/-- The agent that decides over the bindings. -/
def startAgent (s : Server) (id : ConversationId) (launched persisted : Option Agent) : Option Agent :=
  (launched.or persisted).or (s.agentFromBaseState id)

theorem launchedAgent_ends (f : Faults) (at_ : StartStep → Step) (s : Server) (id : ConversationId)
    (launched persisted : Option Agent) :
    Ends (launchedAgent f at_ id launched persisted) s
      (fun a s' => a = startAgent s id launched persisted ∧ s' = s ∧
        (launched.or persisted = none → Passes f (at_ .agent)))
      (fun r s' => launched.or persisted = none ∧ f.fault = some (at_ .agent, r) ∧ s' = s) := by
  unfold launchedAgent startAgent
  split
  · rename_i agent hagent
    refine .pure ⟨?_, rfl, fun hnone => ?_⟩
    · rw [hagent, Option.some_or]
    · rw [hagent] at hnone
      cases hnone
  · rename_i hagent
    refine raiseAt_then (fun _ hf => ⟨hagent, hf, rfl⟩) fun hpass => .get_then (.pure ⟨?_, rfl, fun _ => hpass⟩)
    rw [hagent, Option.none_or]

/-- The pending bindings behind the `except` of `_start_event_service`. -/
def bindingsBehind (f : Faults) (s : Server) (id : ConversationId) (stored : Stored) (agent : Option Agent)
    (r : Raise) : Bindings :=
  if r = .cancelled then .empty else resolvedBindings f.localCodex stored agent (s.bindings id)

/-- How `_start_event_service` can raise. -/
inductive Stopped (f : Faults) (at_ : StartStep → Step) (s : Server) (id : ConversationId) (stored : Stored)
    (launched persisted : Option Agent) : Raise → Server → Prop
  | agent {r : Raise} : launched.or persisted = none → f.fault = some (at_ .agent, r) →
      Stopped f at_ s id stored launched persisted r s
  | localCredential {r : Raise} : needsLocal stored (startAgent s id launched persisted) (s.bindings id) →
      f.fault = some (at_ .localCredential, r) →
      Stopped f at_ s id stored launched persisted r (s.setBindings id .empty)
  | construct {r : Raise} : f.fault = some (at_ .construct, r) →
      Stopped f at_ s id stored launched persisted r (s.setBindings id .empty)
  | mkdir {r : Raise} : f.fault = some (at_ .mkdir, r) → Stopped f at_ s id stored launched persisted r
      (s.setBindings id (bindingsBehind f s id stored (startAgent s id launched persisted) r))
  | late {r : Raise} {s₁ : Server} : RaisesLate f at_ s id launched r →
      (launched.or persisted = none → Passes f (at_ .agent)) → Wrote s id s₁ →
      Stopped f at_ s id stored launched persisted r
        (s₁.setBindings id (bindingsBehind f s id stored (startAgent s id launched persisted) r))

/-- Nothing on the way to the registration raises. -/
structure Goes (f : Faults) (at_ : StartStep → Step) (s : Server) (id : ConversationId) (stored : Stored)
    (launched persisted : Option Agent) : Prop where
  agent : launched.or persisted = none → Passes f (at_ .agent)
  localCredential : needsLocal stored (startAgent s id launched persisted) (s.bindings id) →
    Passes f (at_ .localCredential)
  construct : Passes f (at_ .construct)
  started : Started f at_ s id launched

theorem Stopped.services {stored : Stored} {launched persisted : Option Agent}
    (h : Stopped f at_ s id stored launched persisted r s') : s'.services = s.services := by
  cases h with
  | late _ _ hwrote => exact hwrote.services
  | _ => rfl

/-- Services that are registered stay so. -/
def Keeps (s s' : Server) : Prop := ∀ c, (s.services c).isSome → (s'.services c).isSome

theorem keeps_of_services (h : s'.services = s.services) : Keeps s s' := by
  intro c hc
  rw [h]
  exact hc

theorem keeps_register (s : Server) (id : ConversationId) (stored : Stored) (b : Bindings) :
    Keeps s (s.register id stored b) := by
  intro c hc
  by_cases hid : c = id
  · simp [Server.register, hid]
  · simpa [Server.register, hid] using hc

theorem modifyDirectory_setBindings (s : Server) (id : ConversationId) (b : Bindings) (g : Directory → Directory) :
    (s.setBindings id b).modifyDirectory id g = (s.modifyDirectory id g).setBindings id b := by
  unfold Server.modifyDirectory Server.setBindings
  by_cases hknown : (s.records id).isSome
  · simp only [if_pos hknown]
  · simp only [if_neg hknown]

theorem Wrote.setBindings {b : Bindings} (h : Wrote (s.setBindings id b) id s') :
    ∃ s₁, Wrote s id s₁ ∧ s' = s₁.setBindings id b := by
  obtain ⟨g, rfl⟩ := h
  exact ⟨_, ⟨g, rfl⟩, modifyDirectory_setBindings s id b g⟩

theorem setBindings_setBindings (s : Server) (id : ConversationId) (b c : Bindings) :
    (s.setBindings id b).setBindings id c = s.setBindings id c := by
  unfold Server.setBindings
  rw [Function.update_idem]

/-- From no pending bindings the `except` gives those back that were resolved. -/
theorem startFailed_ends (s : Server) (id : ConversationId) (b : Bindings) (r : Raise) {Q : Unit → Server → Prop} :
    Ends (startFailed id b r) (s.setBindings id .empty) Q
      (fun e s' => e = r ∧ s' = s.setBindings id (if r = .cancelled then .empty else b)) := by
  unfold startFailed
  refine .modify_then (.throw ⟨rfl, ?_⟩)
  by_cases hr : r = .cancelled
  · simp only [if_pos hr]
  · simp only [if_neg hr]
    rw [setBindings_setBindings]
    congr 1
    funext name
    simp [Server.setBindings, Bindings.empty]

theorem startEventService_ends (f : Faults) (at_ : StartStep → Step) (s : Server) (id : ConversationId)
    (stored : Stored) (launched persisted : Option Agent) :
    Ends (startEventService f at_ id stored launched persisted) s
      (fun _ s' => (s'.services id).isSome ∧ (s'.records id).isSome ∧ Keeps s s' ∧
        Goes f at_ s id stored launched persisted)
      (Stopped f at_ s id stored launched persisted) := by
  unfold startEventService
  refine .bind ((launchedAgent_ends f at_ s id launched persisted).mono (fun _ _ h => h) ?_) ?_
  · rintro r _ ⟨hagent, hf, rfl⟩
    exact .agent hagent hf
  rintro _ s ⟨rfl, rfl, hagent⟩
  refine .bind ((resolveCredentialBindings_ends f at_ s id stored _).mono (fun _ _ h => h) ?_) ?_
  · rintro r _ ⟨hf, hneeds, rfl⟩
    exact .localCredential hneeds hf
  rintro b _ ⟨rfl, rfl, hlocal⟩
  refine raiseAt_then (fun _ hf => .construct hf) fun hconstruct => ?_
  let T : Unit → Server → Prop := fun _ s₁ => s₁.services = s.services ∧ Started f at_ s id launched
  have hstart : Ends (startService f at_ id launched) (s.setBindings id .empty) T _ :=
    (startService_ends f at_ (s.setBindings id .empty) id launched).mono
      (fun _ _ h => ⟨h.1.services, h.2.mkdir, h.2.late, h.2.agent⟩) fun _ _ h => h
  refine .bind (Q := T) (hstart.tryCatch ?_) fun _ s₁ hstarted => ?_
  · rintro r _ (⟨hf, rfl⟩ | ⟨hlate, hwrote⟩)
    · have hfailed := startFailed_ends (Q := T) s id
        (resolvedBindings f.localCodex stored (startAgent s id launched persisted) (s.bindings id)) r
      refine hfailed.mono (fun _ _ h => h) ?_
      rintro _ _ ⟨rfl, rfl⟩
      exact .mkdir hf
    · obtain ⟨s₁, hs₁, rfl⟩ := hwrote.setBindings
      have hfailed := startFailed_ends (Q := T) s₁ id
        (resolvedBindings f.localCodex stored (startAgent s id launched persisted) (s.bindings id)) r
      refine hfailed.mono (fun _ _ h => h) ?_
      rintro _ _ ⟨rfl, rfl⟩
      exact .late hlate hagent hs₁
  · refine .modify ⟨?_, ?_, fun c hc => keeps_register s₁ id stored _ c ?_, hagent, hlocal, hconstruct, hstarted.2⟩
    · simp [Server.register]
    · simp [Server.register]
    · rw [hstarted.1]
      exact hc

end

section
variable {f : Faults} {s s' : Server} {id : ConversationId} {r : Raise}

/-! ## The pending bindings -/

theorem setBindings_eq_iff {b : Bindings} : s.setBindings id b = s ↔ b = s.bindings id := by
  constructor
  · intro h
    have hid := congrArg (fun s => s.bindings id) h
    simpa [Server.setBindings] using hid
  · rintro rfl
    simp [Server.setBindings]

/-- Behind the `except` all pending bindings are back: none is left out by the
profile or because the agent takes none, and none joins. -/
def BindingsBack (f : Faults) (stored : Stored) (agent : Option Agent) (pending : Bindings) (r : Raise) : Prop :=
  if r = .cancelled then pending = .empty
  else (∀ name, pending name ≠ none → (∃ server, agent = some (.acp server)) ∧ stored.allowsSecret name) ∧
    ¬ (needsLocal stored agent pending ∧ f.localCodex)

theorem resolvedBindings_eq_iff {stored : Stored} {agent : Option Agent} {pending : Bindings} {localCodex : Bool} :
    resolvedBindings localCodex stored agent pending = pending ↔
      (∀ name, pending name ≠ none → (∃ server, agent = some (.acp server)) ∧ stored.allowsSecret name) ∧
        ¬ (needsLocal stored agent pending ∧ localCodex) := by
  have hplain : (agent = none ∨ agent = some .llm) → resolvedBindings localCodex stored agent pending = .empty ∧
      ¬ needsLocal stored agent pending := by
    rintro (rfl | rfl)
    · exact ⟨rfl, by simp [needsLocal]⟩
    · exact ⟨rfl, by simp [needsLocal, Agent.isCodex]⟩
  have hother : (agent = none ∨ agent = some .llm) → (resolvedBindings localCodex stored agent pending = pending ↔
      (∀ name, pending name ≠ none → (∃ server, agent = some (.acp server)) ∧ stored.allowsSecret name) ∧
        ¬ (needsLocal stored agent pending ∧ localCodex)) := by
    intro hagent
    obtain ⟨hempty, hneeds⟩ := hplain hagent
    rw [hempty]
    constructor
    · rintro rfl
      exact ⟨fun name h => absurd rfl h, fun h => hneeds h.1⟩
    · rintro ⟨hall, -⟩
      funext name
      refine (Decidable.byContradiction fun hne => ?_ : pending name = none).symm
      obtain ⟨⟨server, rfl⟩, -⟩ := hall name hne
      rcases hagent with h | h <;> cases h
  match agent with
  | none => exact hother (.inl rfl)
  | some .llm => exact hother (.inr rfl)
  | some (.acp server) =>
    constructor
    · intro h
      have hjoins : ¬ (needsLocal stored (some (.acp server)) pending ∧ localCodex) := by
        rintro ⟨hneeds, hlocal⟩
        have hcodex := congrFun h codexAuthSecretName
        simp only [resolvedBindings, hneeds, hlocal, and_self, if_pos] at hcodex
        simp only [needsLocal, Bool.and_eq_true, Option.isNone_iff_eq_none] at hneeds
        rw [hneeds.1.2] at hcodex
        cases hcodex
      refine ⟨fun name hname => ⟨⟨server, rfl⟩, Decidable.byContradiction fun hallow => hname ?_⟩, hjoins⟩
      rw [← congrFun h name]
      simp only [resolvedBindings]
      rw [if_neg fun hcond => hjoins hcond.2, if_neg hallow]
    · rintro ⟨hall, hjoins⟩
      funext name
      simp only [resolvedBindings]
      rw [if_neg fun hcond => hjoins hcond.2]
      split
      · rfl
      · rename_i hallow
        exact (Decidable.byContradiction fun hne => hallow (hall name hne).2 : pending name = none).symm

theorem bindingsBehind_eq_iff {stored : Stored} {agent : Option Agent} :
    bindingsBehind f s id stored agent r = s.bindings id ↔ BindingsBack f stored agent (s.bindings id) r := by
  unfold bindingsBehind BindingsBack
  split
  · exact eq_comm
  · exact resolvedBindings_eq_iff

/-! ## Directories -/

theorem Wrote.eq_of_known (h : Wrote s id s') (hknown : (s.records id).isSome) : s' = s := by
  obtain ⟨g, rfl⟩ := h
  rw [Server.modifyDirectory, if_pos hknown]

/-- A write to an unknown id is there afterwards. -/
theorem Wrote.stray (h : Wrote s id s') (hnew : s.records id = none) :
    ∃ d, s' = { s with strays := Function.update s.strays id (some d) } := by
  obtain ⟨g, rfl⟩ := h
  exact ⟨_, by rw [Server.modifyDirectory, if_neg (by rw [hnew]; exact Bool.false_ne_true)]⟩

end

/-! ## A failed creation leaves nothing -/

/-- Nothing is there for the id. -/
structure New (s : Server) (id : ConversationId) : Prop where
  record : s.records id = none
  service : s.services id = none
  stray : s.strays id = none

/-- A creation that raised has left the server as it was. -/
structure LeavesNothing (f : Faults) (request : Request) (s s' : Server) : Prop where
  /-- The catalog, and with it the source with its directory. -/
  records : s'.records = s.records
  services : s'.services = s.services
  bindings : s'.bindings = s.bindings
  strays : ∀ c, c ≠ request.id → s'.strays c = s.strays c
  directory : s'.strays request.id = none
  again : ∀ g, create g request s' = create g request s

theorem leavesNothing_iff {f : Faults} {request : Request} {s s' : Server} (hnew : New s request.id) :
    LeavesNothing f request s s' ↔ s' = s := by
  constructor
  · intro h
    obtain ⟨records, services, strays, bindings⟩ := s'
    have hstrays : strays = s.strays := by
      funext c
      by_cases hc : c = request.id
      · have hdir := h.directory
        rw [hc, hnew.stray]
        exact hdir
      · exact h.strays c hc
    obtain rfl := h.records
    obtain rfl := h.services
    obtain rfl := h.bindings
    obtain rfl := hstrays
    rfl
  · rintro rfl
    exact ⟨rfl, rfl, rfl, fun _ _ => rfl, hnew.stray, fun _ => rfl⟩

/-- The launch of a prepared conversation raises before its directory is made, and
its pending bindings are back. -/
def LaunchClean (f : Faults) (stored : Stored) (agent : Agent) (pending : Bindings) : Prop :=
  match f.fault with
  | some (.start .localCredential, _) | some (.start .construct, _) => pending = .empty
  | some (.start .mkdir, r) => BindingsBack f stored (some agent) pending r
  | some (.start _, _) | some (.respond, _) => False
  | _ => True

/-- The load of a source raises, and its pending bindings are back. -/
def LoadClean (f : Faults) (record : Record) (pending : Bindings) : Prop :=
  match f.fault with
  | some (.prepareRuntime, _) | some (.load .agent, _) => True
  | some (.load .localCredential, _) =>
    (needsLocal record.stored record.directory.agent pending ∨ record.directory.agent = none) ∧ pending = .empty
  | some (.load .construct, _) => pending = .empty
  | some (.load _, r) => BindingsBack f record.stored record.directory.agent pending r
  | _ => record.directory.agent = none ∧ pending = .empty

/-- A fork raises before it has a directory, or `fork_conversation` removes it and the
pending bindings are back. -/
def ForkClean (f : Faults) (stored : Stored) (agent : Agent) (pending : Bindings) : Prop :=
  match f.fault with
  | some (.start .localCredential, r) | some (.start .construct, r) => r ≠ .cancelled ∧ f.rmtree ∧ pending = .empty
  | some (.start _, r) => r ≠ .cancelled ∧ f.rmtree ∧ BindingsBack f stored (some agent) pending r
  | some (.forkCopy, _) | some (.forkClose, _) | some (.respond, _) => False
  | _ => True

/-- A source whose service is not registered is loaded, and stays loaded. -/
def SourceClean (f : Faults) (s : Server) (source : ConversationId) (loaded : Stored → Prop) : Prop :=
  match s.services source, s.records source with
  | some service, _ => loaded service.stored
  | none, some record => LoadClean f record (s.bindings source)
  | none, none => True

/-- The creations whose failure leaves nothing behind. -/
def Clean (f : Faults) (s : Server) : Request → Prop
  | .start id stored agent => LaunchClean f stored agent (s.bindings id)
  | .fork source id slice => SourceClean f s source fun stored =>
    slice ((s.directory source).getD {}).events = none ∨
      ForkClean f { stored with forkedFrom := some source } (s.openAgent source) (s.bindings id)
  | .child parent id => SourceClean f s parent fun stored =>
    LaunchClean f { stored with parent := some parent, forkedFrom := none } (s.openAgent parent) (s.bindings id)

section
variable {f : Faults} {s s' : Server} {id : ConversationId} {r : Raise}

theorem New.unknown (h : New s id) : ¬ s.Known id := by
  rintro (hrecord | hservice)
  · rw [h.record] at hrecord
    cases hrecord
  · rw [h.service] at hservice
    cases hservice

/-- With its directory made, the id is no longer as it was. -/
theorem Wrote.ne (h : Wrote s id s') (hnew : New s id) (b : Bindings) : s'.setBindings id b ≠ s ∧ s' ≠ s := by
  obtain ⟨d, rfl⟩ := h.stray hnew.record
  refine ⟨fun heq => ?_, fun heq => ?_⟩
  · have hstray := congrArg (fun s => s.strays id) heq
    simp [Server.setBindings, hnew.stray] at hstray
  · have hstray := congrArg (fun s => s.strays id) heq
    simp [hnew.stray] at hstray

theorem launchPreparedConversation_ends (hnew : New s id) (stored : Stored) (agent : Agent) :
    Ends (launchPreparedConversation f id stored agent) s (fun _ _ => True)
      (fun _ s' => s' = s ↔ LaunchClean f stored agent (s.bindings id)) := by
  unfold launchPreparedConversation
  refine .get_then ?_
  rw [if_neg hnew.unknown]
  refine .bind ((startEventService_ends f .start s id stored (some agent) none).mono (fun _ _ h => h) ?_) ?_
  · rintro r s' hstop
    cases hstop with
    | agent hnone => cases hnone
    | localCredential hneeds hf =>
      simp only [LaunchClean, hf]
      rw [setBindings_eq_iff]
      exact eq_comm
    | construct hf =>
      simp only [LaunchClean, hf]
      rw [setBindings_eq_iff]
      exact eq_comm
    | mkdir hf =>
      simp only [LaunchClean, hf]
      rw [setBindings_eq_iff]
      exact bindingsBehind_eq_iff
    | late hlate _ hwrote =>
      refine iff_of_false (hwrote.ne hnew _).1 ?_
      obtain ⟨step, hstep, hf⟩ | ⟨-, hnone, -⟩ := hlate
      · simp only [LaunchClean, hf]
        cases step <;> first | exact hstep.elim | exact not_false
      · cases hnone
  · rintro _ s₁ ⟨-, hrecord, -, -⟩
    refine (raiseAt_ends f .respond s₁).mono (fun _ _ _ => trivial) ?_
    rintro r _ ⟨hf, rfl⟩
    refine iff_of_false (fun heq => ?_) ?_
    · rw [heq, hnew.record] at hrecord
      cases hrecord
    · simp only [LaunchClean, hf]
      exact not_false

theorem startConversation_ends (hnew : New s id) (stored : Stored) (agent : Agent) :
    Ends (startConversation f id stored agent) s (fun _ _ => True)
      (fun _ s' => s' = s ↔ Clean f s (.start id stored agent)) := by
  unfold startConversation
  refine .get_then ?_
  rw [if_neg hnew.unknown]
  refine raiseAt_then (fun r hf => ?_) fun _ => launchPreparedConversation_ends hnew stored agent
  simp only [Clean, LaunchClean, hf]

/-- With a source that was not loaded before, the call has loaded it. -/
structure Loaded (f : Faults) (s : Server) (source : ConversationId) (s' : Server) : Prop where
  before : s.services source = none
  after : (s'.services source).isSome
  unclean : ∃ record, s.records source = some record ∧ ¬ LoadClean f record (s.bindings source)

theorem bindingsBack_none {stored : Stored} {pending : Bindings} :
    BindingsBack f stored none pending r ↔ pending = .empty := by
  unfold BindingsBack
  split
  · exact Iff.rfl
  · have hresolved : resolvedBindings f.localCodex stored none pending = .empty := rfl
    rw [← resolvedBindings_eq_iff, hresolved]
    exact eq_comm

theorem loadStopped_iff {record : Record} (hrecord : s.records id = some record) (hprepared : Passes f .prepareRuntime)
    (hstop : Stopped f .load s id record.stored none none r s') : s' = s ↔ LoadClean f record (s.bindings id) := by
  have hagent : startAgent s id none none = record.directory.agent := by
    simp [startAgent, Server.agentFromBaseState, Server.directory, hrecord]
  have hknown : (s.records id).isSome := by
    rw [hrecord]
    rfl
  cases hstop with
  | agent _ hf => simp only [LoadClean, hf]
  | localCredential hneeds hf =>
    simp only [LoadClean, hf]
    rw [setBindings_eq_iff]
    rw [hagent] at hneeds
    exact ⟨fun h => ⟨.inl hneeds, h.symm⟩, fun h => h.2.symm⟩
  | construct hf =>
    simp only [LoadClean, hf]
    rw [setBindings_eq_iff]
    exact eq_comm
  | mkdir hf =>
    simp only [LoadClean, hf]
    rw [setBindings_eq_iff, hagent]
    exact bindingsBehind_eq_iff
  | late hlate hpass hwrote =>
    rw [hwrote.eq_of_known hknown, setBindings_eq_iff, hagent]
    obtain ⟨step, hstep, hf⟩ | ⟨rfl, -, hnone⟩ := hlate
    · simp only [LoadClean, hf]
      cases step <;> first | exact hstep.elim | exact bindingsBehind_eq_iff
    · -- There is no base state to load from.
      have hnoAgent : record.directory.agent = none := by
        rw [← hagent, startAgent, hnone]
        rfl
      have hempty : bindingsBehind f s id record.stored none .exception = .empty := rfl
      rw [hnoAgent, hempty, eq_comm]
      unfold LoadClean
      rw [hnoAgent]
      split
      · exact absurd ‹_› (hprepared _)
      · exact absurd ‹_› (hpass rfl _)
      · exact ⟨fun h => ⟨.inr rfl, h⟩, And.right⟩
      · exact Iff.rfl
      · exact bindingsBack_none.symm
      · exact ⟨fun h => ⟨rfl, h⟩, And.right⟩

/-- A load that goes through was not one whose failure would have been clean. -/
theorem not_loadClean_of_goes {record : Record} (hrecord : s.records id = some record)
    (hprepared : Passes f .prepareRuntime) (hgoes : Goes f .load s id record.stored none none) :
    ¬ LoadClean f record (s.bindings id) := by
  have hagent : startAgent s id none none = record.directory.agent := by
    simp [startAgent, Server.agentFromBaseState, Server.directory, hrecord]
  have hstate : record.directory.agent ≠ none := by
    have := hgoes.started.agent rfl
    simpa [Server.agentFromBaseState, Server.directory, hrecord] using this
  unfold LoadClean
  split
  · exact absurd ‹_› (hprepared _)
  · exact absurd ‹_› (hgoes.agent rfl _)
  · rintro ⟨hneeds | hnone, -⟩
    · exact hgoes.localCredential (hagent ▸ hneeds) _ ‹_›
    · exact hstate hnone
  · exact absurd ‹_› (hgoes.construct _)
  · rename_i step r hagent hlocal hconstruct hf
    cases step with
    | agent => exact absurd hf (hgoes.agent rfl _)
    | localCredential => exact (hlocal rfl).elim
    | construct => exact absurd hf (hgoes.construct _)
    | mkdir => exact absurd hf (hgoes.started.mkdir _)
    | _ => exact absurd hf (hgoes.started.late _ (by trivial) _)
  · exact fun h => hstate h.1

theorem getOrLoadEventService_ends (f : Faults) (s : Server) (id : ConversationId) :
    Ends (getOrLoadEventService f id) s
      (fun o s' => ∀ stored, o = some stored →
        (s' = s ∧ ∃ service, s.services id = some service ∧ service.stored = stored) ∨ Loaded f s id s')
      (fun _ s' => s.services id = none ∧ ∃ record, s.records id = some record ∧
        (s' = s ↔ LoadClean f record (s.bindings id))) := by
  unfold getOrLoadEventService
  refine .get_then ?_
  cases hservice : s.services id with
  | some service =>
    refine .pure ?_
    rintro _ ⟨⟩
    exact .inl ⟨rfl, service, rfl, rfl⟩
  | none =>
    refine .get_then ?_
    cases hrecord : s.records id with
    | none => exact .pure nofun
    | some record =>
      refine raiseAt_then (fun r hf => ⟨rfl, record, rfl, ?_⟩) fun hprepared => ?_
      · simp only [LoadClean, hf]
      have hstart := startEventService_ends f .load s id record.stored none none
      have hload : Ends (startEventService f .load id record.stored none none >>= fun _ => pure (some record.stored)) s
          (fun _ s' => Loaded f s id s') (Stopped f .load s id record.stored none none) := by
        refine .bind hstart ?_
        rintro _ s₁ ⟨hafter, -, -, hgoes⟩
        exact .pure ⟨hservice, hafter, record, hrecord, not_loadClean_of_goes hrecord hprepared hgoes⟩
      refine (hload.mono (fun _ _ h _ _ => .inr h) fun _ _ h => h).tryCatch fun r s₁ hstop => ?_
      split
      · exact .pure nofun
      · exact .throw ⟨rfl, record, rfl, loadStopped_iff hrecord hprepared hstop⟩

/-- The copy has made the directory of the fork, with the agent of the source. -/
structure Copied (f : Faults) (s : Server) (id : ConversationId) (agent : Agent) (s' : Server) : Prop where
  wrote : Wrote s id s'
  agent : s'.agentFromBaseState id = some agent
  copy : Passes f .forkCopy
  close : Passes f .forkClose

theorem copyConversation_ends (hnew : New s id) (f : Faults) (source : ConversationId)
    (slice : List EventID → Option (List EventID)) :
    Ends (copyConversation f source id slice) s
      (fun agent s' => agent = s.openAgent source ∧ slice ((s.directory source).getD {}).events ≠ none ∧
        Copied f s id agent s')
      (fun r s' => (s' = s ∧ ((∃ r, f.fault = some (.forkCheck, r)) ∨ slice ((s.directory source).getD {}).events = none)) ∨
        (slice ((s.directory source).getD {}).events ≠ none ∧ Wrote s id s' ∧
          (f.fault = some (.forkCopy, r) ∨ f.fault = some (.forkClose, r)))) := by
  unfold copyConversation
  refine raiseAt_then (fun r hf => .inl ⟨rfl, .inl ⟨r, hf⟩⟩) fun _ => .get_then (.get_then ?_)
  split
  · rename_i hnone
    exact .throw (.inl ⟨rfl, .inr hnone⟩)
  · rename_i events hevents
    have hslice : slice ((s.directory source).getD {}).events ≠ none := by
      rw [hevents]
      exact Option.some_ne_none _
    refine .modify_then (.get_then (.modify_then ?_))
    -- A directory that was just made has no events, so that each one is fresh.
    have hold : (((s.modifyDirectory id fun d => { d with agent := some (s.openAgent source) }).directory id).getD
        {}).events = [] := by
      simp [Server.modifyDirectory, Server.directory, hnew.record, hnew.stray]
    rw [hold]
    have hfresh : ∀ copied : List EventID, copied.takeWhile (fun e => e ∉ ([] : List EventID)) = copied := by
      intro copied
      exact List.takeWhile_eq_self_iff.2 fun e _ => by simp
    rw [hfresh, if_neg (fun h => h rfl)]
    have hwrote : Wrote s id (s.modifyDirectory id fun d => { d with agent := some (s.openAgent source) }) := ⟨_, rfl⟩
    refine raiseAt_then (fun r hf => .inr ⟨hslice, hwrote.modify _, .inl hf⟩) fun hcopy => ?_
    refine raiseAt_then (fun r hf => .inr ⟨hslice, hwrote.modify _, .inr hf⟩) fun hclose => ?_
    refine .pure ⟨rfl, hslice, hwrote.modify _, ?_, hcopy, hclose⟩
    rw [modifyDirectory_comp]
    simp [Server.modifyDirectory, Server.agentFromBaseState, Server.directory, hnew.record, hnew.stray]

/-- Removed again, the directory leaves nothing of what was written to it. -/
theorem Wrote.removeDirectory (h : Wrote s id s') (hnew : New s id) (b : Bindings) :
    (s'.setBindings id b).removeDirectory id = s.setBindings id b := by
  obtain ⟨d, rfl⟩ := h.stray hnew.record
  have hstrays : Function.update s.strays id none = s.strays := by
    rw [← hnew.stray]
    exact Function.update_eq_self id s.strays
  simp [Server.removeDirectory, Server.setBindings, Function.update_idem, hstrays]

/-- What the handler of the fork leaves of a directory with pending bindings `b`. -/
theorem forkFailed_ends (hnew : New s id) (hwrote : Wrote s id s') (b : Bindings) {Q : Unit → Server → Prop} :
    Ends (forkFailed f id r) (s'.setBindings id b) Q
      (fun _ s₂ => s₂ = s ↔ r ≠ .cancelled ∧ f.rmtree ∧ b = s.bindings id) := by
  unfold forkFailed
  refine .modify_then (.throw ?_)
  by_cases hr : r ≠ .cancelled ∧ f.rmtree
  · rw [if_pos hr, hwrote.removeDirectory hnew, setBindings_eq_iff]
    exact ⟨fun h => ⟨hr.1, hr.2, h⟩, fun h => h.2.2⟩
  · rw [if_neg hr]
    exact iff_of_false (hwrote.ne hnew b).1 fun h => hr ⟨h.1, h.2.1⟩

theorem Wrote.trans {s₁ s₂ : Server} (h : Wrote s id s₁) (h' : Wrote s₁ id s₂) : Wrote s id s₂ := by
  obtain ⟨g, rfl⟩ := h'
  exact h.modify g

/-- A fork whose service does not start. -/
theorem forkStopped_ends (hnew : New s id) {agent : Agent} {s₁ s₂ : Server} {stored : Stored}
    (hcopied : Copied f s id agent s₁) (hstop : Stopped f .start s₁ id stored none (some agent) r s₂)
    {Q : Unit → Server → Prop} :
    Ends (forkFailed f id r) s₂ Q (fun _ s' => s' = s ↔ ForkClean f stored agent (s.bindings id)) := by
  have hwrote := hcopied.wrote
  have hpending : s₁.bindings id = s.bindings id := by
    obtain ⟨d, rfl⟩ := hwrote.stray hnew.record
    rfl
  have hagent : startAgent s₁ id none (some agent) = some agent := rfl
  cases hstop with
  | agent hnone => cases hnone
  | localCredential _ hf =>
    refine (forkFailed_ends hnew hwrote .empty).mono (fun _ _ h => h) fun _ _ h => h.trans ?_
    simp only [ForkClean, hf]
    rw [eq_comm (a := Bindings.empty)]
  | construct hf =>
    refine (forkFailed_ends hnew hwrote .empty).mono (fun _ _ h => h) fun _ _ h => h.trans ?_
    simp only [ForkClean, hf]
    rw [eq_comm (a := Bindings.empty)]
  | mkdir hf =>
    refine (forkFailed_ends hnew hwrote _).mono (fun _ _ h => h) fun _ _ h => h.trans ?_
    simp only [ForkClean, hf]
    rw [hagent, ← hpending, bindingsBehind_eq_iff]
  | late hlate _ hwrote' =>
    refine (forkFailed_ends hnew (hwrote.trans hwrote') _).mono (fun _ _ h => h) fun _ _ h => h.trans ?_
    rw [hagent, ← hpending, bindingsBehind_eq_iff]
    obtain ⟨step, hstep, hf⟩ | ⟨-, -, hnone⟩ := hlate
    · simp only [ForkClean, hf]
      cases step <;> first | exact hstep.elim | exact Iff.rfl
    · rw [hcopied.agent] at hnone
      cases hnone

theorem forkLoaded_ends (hnew : New s id) (f : Faults) (source : ConversationId)
    (slice : List EventID → Option (List EventID)) (stored : Stored) :
    Ends (forkLoaded f source id slice stored) s (fun _ _ => True)
      (fun _ s' => s' = s ↔ slice ((s.directory source).getD {}).events = none ∨
        ForkClean f { stored with forkedFrom := some source } (s.openAgent source) (s.bindings id)) := by
  unfold forkLoaded
  refine .get_then ?_
  rw [if_neg hnew.unknown]
  refine .bind ((copyConversation_ends hnew f source slice).mono (fun _ _ h => h) ?_) ?_
  · rintro r s' (⟨rfl, hcause⟩ | ⟨hslice, hwrote, hcause⟩)
    · refine iff_of_true rfl ?_
      rcases hcause with ⟨r', hf⟩ | hnone
      · refine .inr ?_
        simp only [ForkClean, hf]
      · exact .inl hnone
    · refine iff_of_false (hwrote.ne hnew .empty).2 ?_
      rintro (hnone | hclean)
      · exact hslice hnone
      · rcases hcause with hf | hf
        · simp only [ForkClean, hf] at hclean
        · simp only [ForkClean, hf] at hclean
  rintro _ s₁ ⟨rfl, hslice, hcopied⟩
  have hstart := startEventService_ends f .start s₁ id { stored with forkedFrom := some source } none
    (some (s.openAgent source))
  have htry := (hstart.mono (fun _ _ h => h.2.1) fun _ _ h => h).tryCatch fun r s₂ hstop =>
    forkStopped_ends hnew hcopied hstop
  refine .bind (htry.mono (fun _ _ h => h) fun _ _ h => h.trans (or_iff_right hslice).symm) fun _ s₂ hrecord => ?_
  refine (raiseAt_ends f .respond s₂).mono (fun _ _ _ => trivial) ?_
  rintro r _ ⟨hf, rfl⟩
  refine iff_of_false (fun heq => ?_) ?_
  · rw [heq, hnew.record] at hrecord
    cases hrecord
  · rw [or_iff_right hslice]
    simp only [ForkClean, hf]
    exact not_false

/-! ## With a source that was just loaded -/

theorem Keeps.trans {s₁ s₂ : Server} (h : Keeps s s₁) (h' : Keeps s₁ s₂) : Keeps s s₂ := fun c hc => h' c (h c hc)

theorem launchPreparedConversation_keeps (f : Faults) (s : Server) (id : ConversationId) (stored : Stored)
    (agent : Agent) :
    Ends (launchPreparedConversation f id stored agent) s (fun _ _ => True) (fun _ s' => Keeps s s') := by
  unfold launchPreparedConversation
  refine .get_then ?_
  split
  · exact .throw fun _ hc => hc
  · have hstart := startEventService_ends f .start s id stored (some agent) none
    refine .bind (hstart.mono (fun _ _ h => h.2.2.1) fun _ _ h => keeps_of_services h.services) fun _ s₁ hs₁ => ?_
    refine (raiseAt_ends f .respond s₁).mono (fun _ _ _ => trivial) ?_
    rintro r _ ⟨-, rfl⟩
    exact hs₁

theorem startChildLoaded_keeps (f : Faults) (s : Server) (parent id : ConversationId) (stored : Stored) :
    Ends (startChildLoaded f parent id stored) s (fun _ _ => True) (fun _ s' => Keeps s s') := by
  unfold startChildLoaded
  refine .get_then (raiseAt_then (fun r _ _ hc => hc) fun _ => ?_)
  exact launchPreparedConversation_keeps f s id _ _

theorem copyConversation_services (f : Faults) (s : Server) (source id : ConversationId)
    (slice : List EventID → Option (List EventID)) :
    Ends (copyConversation f source id slice) s (fun _ s' => s'.services = s.services)
      (fun _ s' => s'.services = s.services) := by
  unfold copyConversation
  refine raiseAt_then (fun r _ => rfl) fun _ => .get_then (.get_then ?_)
  split
  · exact .throw rfl
  · refine .modify_then (.get_then (.modify_then ?_))
    have hservices : ∀ g k, ((s.modifyDirectory id g).modifyDirectory id k).services = s.services := fun g k =>
      (Wrote.modify ⟨g, rfl⟩ k).services
    -- However many events were copied.
    generalize (if f.fault.any (fun p => p.1 = .forkCopy) then _ else _) = copied
    split
    · exact .throw (hservices _ _)
    · refine raiseAt_then (fun r _ => hservices _ _) fun _ => raiseAt_then (fun r _ => hservices _ _) fun _ => ?_
      exact .pure (hservices _ _)

theorem forkLoaded_keeps (f : Faults) (s : Server) (source id : ConversationId)
    (slice : List EventID → Option (List EventID)) (stored : Stored) :
    Ends (forkLoaded f source id slice stored) s (fun _ _ => True) (fun _ s' => Keeps s s') := by
  unfold forkLoaded
  refine .get_then ?_
  split
  · exact .throw fun _ hc => hc
  · refine .bind ((copyConversation_services f s source id slice).mono (fun _ _ h => h) fun _ _ h =>
      keeps_of_services h) fun agent s₁ hs₁ => ?_
    have hcopied := keeps_of_services hs₁
    have hstart := startEventService_ends f .start s₁ id { stored with forkedFrom := some source } none (some agent)
    refine .bind (Q := fun _ s₂ => Keeps s s₂) ((hstart.mono (fun _ _ h => hcopied.trans h.2.2.1) fun _ _ h =>
      h.services).tryCatch fun r s₂ hs₂ => ?_) fun _ s₂ hs₂ => ?_
    · have hstopped : Keeps s s₂ := hcopied.trans (keeps_of_services hs₂)
      unfold forkFailed
      refine .modify_then (.throw ?_)
      split
      · exact hstopped
      · exact hstopped
    · refine (raiseAt_ends f .respond s₂).mono (fun _ _ _ => trivial) ?_
      rintro r _ ⟨-, rfl⟩
      exact hs₂

/-- A creation that raised behind the load of its source has left the source loaded. -/
theorem Loaded.iff {source : ConversationId} {s₁ : Server} (h : Loaded f s source s₁) (hkeeps : Keeps s₁ s')
    {loaded : Stored → Prop} : s' = s ↔ SourceClean f s source loaded := by
  have hafter := hkeeps source h.after
  obtain ⟨record, hrecord, hunclean⟩ := h.unclean
  refine iff_of_false (fun heq => ?_) ?_
  · rw [heq, h.before] at hafter
    cases hafter
  · unfold SourceClean
    rw [h.before, hrecord]
    exact hunclean

/-! ## Every creation -/

theorem create_ends (f : Faults) (s : Server) (request : Request) (hnew : New s request.id) :
    Ends (create f request) s (fun _ _ => True) (fun _ s' => s' = s ↔ Clean f s request) := by
  cases request with
  | start id stored agent => exact startConversation_ends hnew stored agent
  | fork source id slice =>
    have hid : New s id := hnew
    unfold create forkConversation
    refine .get_then ?_
    rw [if_neg (by rw [hid.record]; exact Bool.false_ne_true)]
    refine .bind ((getOrLoadEventService_ends f s source).mono (fun _ _ h => h) ?_) ?_
    · rintro r s' ⟨hservice, record, hrecord, hiff⟩
      simp only [Clean, SourceClean, hservice, hrecord]
      exact hiff
    · rintro o s₁ ho
      cases o with
      | none => exact .pure trivial
      | some stored =>
        rcases ho stored rfl with ⟨rfl, service, hservice, rfl⟩ | hloaded
        · simp only [Clean, SourceClean, hservice]
          exact forkLoaded_ends hid f source slice service.stored
        · simp only [Clean]
          exact (forkLoaded_keeps f s₁ source id slice stored).mono (fun _ _ h => h) fun _ _ h => hloaded.iff h
  | child parent id =>
    have hid : New s id := hnew
    unfold create startChildConversation
    refine .bind ((getOrLoadEventService_ends f s parent).mono (fun _ _ h => h) ?_) ?_
    · rintro r s' ⟨hservice, record, hrecord, hiff⟩
      simp only [Clean, SourceClean, hservice, hrecord]
      exact hiff
    · rintro o s₁ ho
      cases o with
      | none => exact .pure trivial
      | some stored =>
        rcases ho stored rfl with ⟨rfl, service, hservice, rfl⟩ | hloaded
        · simp only [Clean, SourceClean, hservice]
          unfold startChildLoaded
          refine .get_then (raiseAt_then (fun r hf => ?_) fun _ => launchPreparedConversation_ends hid _ _)
          simp only [LaunchClean, hf]
        · simp only [Clean]
          exact (startChildLoaded_keeps f s₁ parent id stored).mono (fun _ _ h => h) fun _ _ h => hloaded.iff h

/-- A creation that raised has left nothing behind if and only if it raised before
its directory was made (or `fork_conversation` removed it), with its source loaded
before and its pending bindings given back. -/
theorem leavesNothing_iff_clean {f : Faults} {s s' : Server} {request : Request} {r : Raise} (hnew : New s request.id)
    (h : create f request s = .error r s') : LeavesNothing f request s s' ↔ Clean f s request :=
  (leavesNothing_iff hnew).trans ((create_ends f s request hnew).of_error h)

end

/-! ## Creations that fail -/

/-- A server with one conversation that is open. -/
def openServer : Server :=
  { records := fun c => if c = 1 then some ⟨{}, { agent := some .llm, events := ["a", "b"], saved := true }⟩ else none
    services := fun c => if c = 1 then some ⟨{}, .empty⟩ else none }

/-- A fork whose webhook subscriber cannot be reached. -/
def unreachable : Faults := { fault := some (.start .subscribe, .exception) }

theorem leavesNothing_iff_clean_fork :
    ∃ s', create unreachable (.fork 1 2 some) openServer = .error .exception s' ∧
      LeavesNothing unreachable (.fork 1 2 some) openServer s' := by
  refine ⟨_, rfl, (leavesNothing_iff_clean ⟨rfl, rfl, rfl⟩ rfl).2 (.inr ⟨nofun, rfl, ?_⟩)⟩
  exact ⟨fun name hname => absurd rfl hname, fun hneeds => absurd hneeds.1 (by decide)⟩

/-- The same failure of a child start keeps the directory of the child. -/
theorem child_leaves_directory :
    ¬ ∀ (f : Faults) (s s' : Server) (request : Request) (r : Raise), New s request.id →
      create f request s = .error r s' → LeavesNothing f request s s' := by
  intro hall
  have h := hall unreachable openServer _ (.child 1 2) .exception ⟨rfl, rfl, rfl⟩ rfl
  exact absurd h.directory (by decide)

end AgentSdk.ConversationService.Creation
