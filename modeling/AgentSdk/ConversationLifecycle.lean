import AgentSdk.Lib.Dict
import AgentSdk.Lib.Gate
/-!
# The lifecycle of conversations

The operations of `ConversationService` that open and close event services:
starts, loads, forks and deletions in a section of their conversation, idle
eviction, sandbox pause and shutdown in an exclusive one. A step is what a task
does between two awaits. The lock of the condition behind `_conversation_lifecycle`
is free at every await, so a task never waits for it.
-/

namespace AgentSdk.ConversationService
open Lib

abbrev ConversationId := Nat
abbrev ServiceId := Nat
abbrev TaskId := Nat

/-! ## Operations -/

/-- An operation in a section of its conversation. -/
inductive Op where
  /-- `_launch_prepared_conversation`, with a request that may reattach to an id that is taken. -/
  | start (reuse : Bool)
  /-- `_start_conversation` of a known id. -/
  | reuse
  | load
  | fork
  /-- `delete_conversation`, which keeps the dict that it has seen before its section. -/
  | delete (version : Nat)
deriving DecidableEq

inductive ExclusiveOp where
  | evict
  | pause
  | shutdown
deriving DecidableEq

/-- How far an operation is in its section. -/
inductive Body where
  | entered
  /-- Awaits before the event service exists. -/
  | preparing
  /-- `_start_event_service` up to the registration. -/
  | starting (service : ServiceId) (version : Nat)
  /-- The `close` behind a failed start. -/
  | aborting (service : ServiceId)
  /-- The `close` of a deletion. -/
  | deleting (service : ServiceId)
deriving DecidableEq

inductive ExclusiveBody where
  | entered
  /-- The `__aexit__` of a service that was popped, and the ids behind it. -/
  | evicting (service : ServiceId) (todo : List ConversationId)
  /-- A `gather` of all `__aexit__`s. -/
  | closingAll (todo failed : List ConversationId)
deriving DecidableEq

inductive Job where
  | section (op : Op) (body : Body)
  | exclusive (op : ExclusiveOp) (body : ExclusiveBody)
deriving DecidableEq

/-- How a `close` ends, and whether the conversation stays open where it does not succeed. -/
inductive CloseResult where
  | done
  | raised (credential stays : Bool)
  | cancelled (stays : Bool)
deriving DecidableEq

def CloseResult.stays : CloseResult → Bool
  | .done => false
  | .raised _ stays | .cancelled stays => stays

/-- The service that a job has outside the dict. -/
def Job.owned : Job → Option ServiceId
  | .section _ (.starting x _) | .section _ (.aborting x) | .exclusive _ (.evicting x _) => some x
  | .section _ .entered | .section _ .preparing | .section _ (.deleting _) | .exclusive _ .entered
  | .exclusive _ (.closingAll _ _) => none

/-- Nothing has been begun. -/
def Job.Quiet : Job → Prop
  | .section _ .entered | .exclusive _ .entered => True
  | .section _ _ | .exclusive _ _ => False

theorem Job.Quiet.owned {j : Job} (h : j.Quiet) : j.owned = none := by
  rcases j with ⟨op, _ | _ | ⟨y, v⟩ | y | y⟩ | ⟨op, _ | ⟨y, todo⟩ | ⟨todo, failed⟩⟩ <;> first | rfl | exact h.elim

/-! ## The service -/

structure World where
  gate : Gate TaskId ConversationId := .initial
  job : TaskId → Option Job := fun _ => none
  /-- `_event_services`, and how many dicts it has been. -/
  eventServices : Option (List (ConversationId × ServiceId)) := some []
  version : Nat := 0
  /-- The ids in `_conversation_records`. -/
  records : List ConversationId
  nextService : ServiceId := 0
  idOf : ServiceId → ConversationId := fun _ => 0
  isOpen : ServiceId → Bool := fun _ => false

inductive Action where
  | call (t : TaskId) (op : Op) (c : ConversationId)
  | callExclusive (t : TaskId) (op : ExclusiveOp)
  | enter (t : TaskId)
  | take (t : TaskId)
  | takeExclusive (t : TaskId)
  | drained (t : TaskId)
  | giveUp (t : TaskId)
  | decide (t : TaskId) (attach : Bool)
  | raises (t : TaskId)
  | create (t : TaskId)
  | opens (t : TaskId)
  | registers (t : TaskId)
  | startFails (t : TaskId)
  | aborted (t : TaskId) (result : CloseResult)
  | deleted (t : TaskId) (result : CloseResult)
  | cancel (t : TaskId)
  | choose (t : TaskId) (idle : List ConversationId)
  | evicted (t : TaskId) (result : CloseResult)
  | closeAll (t : TaskId)
  | closedOne (t : TaskId) (c : ConversationId) (result : CloseResult)
  | settle (t : TaskId)
  | cancelAll (t : TaskId) (kept : List ConversationId)
deriving DecidableEq

namespace World

/-- A service behind `__aenter__`, with what its catalog was loaded with. -/
def initial (records : List ConversationId) : World := { records }

def dict (s : World) : List (ConversationId × ServiceId) := s.eventServices.getD []

/-- `_event_services` with the entries of some ids only. -/
def keep (s : World) (p : ConversationId → Bool) : Option (List (ConversationId × ServiceId)) :=
  s.eventServices.map (List.filter fun e => p e.1)

/-- The registered service of an id, when it is open. -/
def live (s : World) (c : ConversationId) : Option ServiceId := (s.dict.lookup c).filter s.isOpen

def hasConversation (s : World) (c : ConversationId) : Bool :=
  s.eventServices.isSome && (decide (c ∈ s.records) || (s.live c).isSome)

def setJob (s : World) (t : TaskId) (job : Option Job) : World := { s with job := Function.update s.job t job }

def become (s : World) (t : TaskId) (op : Op) (body : Body) : World := s.setJob t (some (.section op body))

/-- The task's section is over. -/
def leave (s : World) (t : TaskId) : Option World :=
  (s.gate.step (.leave t)).map fun gate => { s.setJob t none with gate }

def move (s : World) (m : GateMove TaskId ConversationId) : Option World := (s.gate.step m).map fun gate => { s with gate }

/-- What becomes of a service in its `close`. -/
def close (s : World) (x : ServiceId) (result : CloseResult) : World :=
  { s with isOpen := Function.update s.isOpen x (s.isOpen x && result.stays) }

/-- Behind `_get_or_load_event_service_locked`: a deletion goes on. -/
def obtained (s : World) (t : TaskId) (op : Op) (x : ServiceId) : Option World :=
  match op with
  | .delete _ => some (s.become t op (.deleting x))
  | .start _ | .reuse | .load | .fork => s.leave t

/-- `_get_or_load_event_service_locked`. -/
def getOrLoad (s : World) (t : TaskId) (op : Op) (c : ConversationId) : Option World :=
  match s.live c with
  | some x => s.obtained t op x
  | none => if c ∈ s.records then some (s.become t op .preparing) else s.leave t

/-- `_reuse_existing_conversation_locked`; it loads the conversation for a credential only. -/
def reattach (s : World) (t : TaskId) (op : Op) (c : ConversationId) (attach : Bool) : Option World :=
  match s.live c with
  | some _ => { s with records := if c ∈ s.records then s.records else s.records ++ [c] }.leave t
  | none => if attach then s.getOrLoad t op c else s.leave t

def enterSection (s : World) (t : TaskId) (op : Op) (c : ConversationId) (attach : Bool) : Option World :=
  if s.eventServices = none then s.leave t
  else
    match op with
    | .load | .delete _ => s.getOrLoad t op c
    | .reuse => s.reattach t op c attach
    | .start reuse =>
      if s.hasConversation c then
        if reuse then s.reattach t op c attach else s.leave t
      else some (s.become t op .preparing)
    | .fork => if s.hasConversation c then s.leave t else some (s.become t op .preparing)

/-- The next service of an eviction is popped and closed. -/
def evictNext (s : World) (t : TaskId) : List ConversationId → Option World
  | [] => s.leave t
  | c :: todo =>
    match s.dict.lookup c with
    | none => s.evictNext t todo
    | some x =>
      some { s.setJob t (some (.exclusive .evict (.evicting x todo))) with
        eventServices := s.keep (· ≠ c) }

/-- What is done before the section: an unknown id is not looked for. -/
def callable (s : World) (op : Op) (c : ConversationId) : Prop :=
  s.eventServices ≠ none ∧
    match op with
    | .load => c ∈ s.dict.map Prod.fst ∨ c ∈ s.records
    | .delete version => version = s.version ∧ (c ∈ s.dict.map Prod.fst ∨ c ∈ s.records)
    | .reuse => s.hasConversation c
    | .fork => c ∉ s.records
    | .start _ => True

instance callable.decidable (s : World) (op : Op) (c : ConversationId) : Decidable (s.callable op c) := by
  unfold callable
  cases op <;> infer_instance

def step (s : World) : Action → Option World
  | .call t op c =>
    if s.callable op c then (s.move (.call t c)).map fun s => s.become t op .entered else none
  | .callExclusive t op => (s.move (.callExclusive t)).map fun s => s.setJob t (some (.exclusive op .entered))
  | .enter t => s.move (.enter t)
  | .take t => s.move (.take t)
  | .takeExclusive t => s.move (.takeExclusive t)
  | .drained t => s.move (.drained t)
  -- Cancelled at a lock.
  | .giveUp t =>
    match s.gate.phase t with
    | .waiting _ | .queued _ | .contending | .draining => s.leave t
    | .idle | .inside _ | .exclusive => none
  | .decide t attach =>
    match s.gate.phase t, s.job t with
    | .inside c, some (.section op .entered) => s.enterSection t op c attach
    | _, _ => none
  -- A missing binding, a copy or a credential that cannot be had.
  | .raises t =>
    match s.job t with
    | some (.section _ .preparing) => s.leave t
    | _ => none
  | .create t =>
    match s.gate.phase t, s.job t with
    | .inside c, some (.section op .preparing) =>
      some { s.become t op (.starting s.nextService s.version) with
        nextService := s.nextService + 1
        idOf := Function.update s.idOf s.nextService c }
    | _, _ => none
  | .opens t =>
    match s.job t with
    | some (.section _ (.starting x _)) => some { s with isOpen := Function.update s.isOpen x true }
    | _ => none
  | .registers t =>
    match s.gate.phase t, s.job t with
    | .inside c, some (.section op (.starting x version)) =>
      if s.isOpen x then
        match s.eventServices with
        | some d =>
          if s.version = version then
            { s.become t op .entered with
              eventServices := some (dictSet d c x)
              records := if c ∈ s.records then s.records else s.records ++ [c] }.obtained t op x
          else some (s.become t op (.aborting x))
        | none => some (s.become t op (.aborting x))
      else none
    | _, _ => none
  | .startFails t =>
    match s.job t with
    | some (.section op (.starting x _)) => some (s.become t op (.aborting x))
    | _ => none
  | .aborted t result =>
    match s.job t with
    | some (.section _ (.aborting x)) => (s.close x result).leave t
    | _ => none
  | .deleted t result =>
    match s.gate.phase t, s.job t with
    | .inside c, some (.section (.delete version) (.deleting x)) =>
      match result with
      -- A credential that cannot be synchronised refuses the deletion.
      | .raised true _ | .cancelled _ => (s.close x result).leave t
      | .done | .raised false _ =>
        { s.close x result with
          eventServices := if s.version = version then s.keep (· ≠ c) else s.eventServices
          records := s.records.filter (· ≠ c) }.leave t
    | _, _ => none
  | .cancel t =>
    match s.job t with
    | some (.section _ .preparing) | some (.section _ (.starting _ _)) => s.leave t
    | _ => none
  | .choose t idle =>
    match s.gate.phase t, s.job t with
    | .exclusive, some (.exclusive .evict .entered) =>
      if s.eventServices = none then s.leave t
      else if idle.Nodup ∧ ∀ c ∈ idle, (s.live c).isSome then s.evictNext t idle
      else none
    | _, _ => none
  | .evicted t result =>
    match s.job t with
    | some (.exclusive .evict (.evicting x todo)) =>
      match result with
      | .cancelled _ => (s.close x result).leave t
      | .done | .raised _ _ => (s.close x result).evictNext t todo
    | _ => none
  | .closeAll t =>
    match s.gate.phase t, s.job t with
    | .exclusive, some (.exclusive op .entered) =>
      if op = .evict then none
      else
        match s.eventServices with
        | some d => some (s.setJob t (some (.exclusive op (.closingAll (d.map Prod.fst) []))))
        | none => s.leave t
    | _, _ => none
  | .closedOne t c result =>
    match s.job t with
    | some (.exclusive op (.closingAll todo failed)) =>
      if c ∈ todo then
        match s.dict.lookup c with
        | some x =>
          some ((s.close x result).setJob t (some (.exclusive op (.closingAll (todo.erase c)
            (if result = .done then failed else failed ++ [c])))))
        | none => none
      else none
    | _ => none
  | .settle t =>
    match s.job t with
    | some (.exclusive .pause (.closingAll [] failed)) =>
      { s with eventServices := s.keep (· ∈ failed) }.leave t
    | some (.exclusive .shutdown (.closingAll [] failed)) =>
      { s with
        eventServices := if failed = [] then none else s.keep (· ∈ failed)
        records := s.records.filter (· ∈ failed)
        version := s.version + 1 }.leave t
    | _ => none
  -- The children are cancelled, too; the dict is not touched any more.
  | .cancelAll t kept =>
    match s.job t with
    | some (.exclusive _ (.closingAll todo _)) =>
      { s with
        isOpen := fun x => s.isOpen x && !s.dict.any fun p => p.2 = x && p.1 ∈ todo && p.1 ∉ kept }.leave t
    | _ => none

/-! ## What is asked of the service -/

/-- The service that a task has outside the dict. -/
def owned (s : World) (t : TaskId) : Option ServiceId := (s.job t).bind Job.owned

/-- An operation on the id is in its section, or evicts its service. -/
def InFlight (s : World) (t : TaskId) (c : ConversationId) : Prop :=
  s.gate.phase t = .inside c ∨ (s.gate.phase t = .exclusive ∧ ∃ x ∈ s.owned t, s.idOf x = c)

structure Sound (s : World) : Prop where
  oneLive : ∀ x y, s.isOpen x → s.isOpen y → s.idOf x = s.idOf y → x = y
  registered : ∀ x, s.isOpen x → (∀ t, ¬ s.InFlight t (s.idOf x)) → (s.idOf x, x) ∈ s.dict
  excludes : ∀ t u c, s.gate.phase t = .exclusive → s.gate.phase u ≠ .inside c
  reenters : (∀ t, s.gate.phase t = .idle) → ∀ t,
    (∀ c, ∃ g, exec Gate.step s.gate [.call t c, .enter t, .take t] = some g ∧ g.phase t = .inside c) ∧
      ∃ g, exec Gate.step s.gate [.callExclusive t, .takeExclusive t, .drained t] = some g ∧ g.phase t = .exclusive

/-- A service that is no longer registered is closed, whatever happens: the close
behind a failed start and the close of an eviction close it, a deletion is refused
where its close does not succeed, and no start is cancelled behind `open`. -/
def Allowed (s : World) : Action → Prop
  | .aborted t result | .evicted t result => ∀ x ∈ s.owned t, s.isOpen x → result.stays = false
  | .cancel t => ∀ x ∈ s.owned t, s.isOpen x = false
  | .deleted _ result => result ≠ .raised false true
  | _ => True

instance Allowed.decidable (s : World) (a : Action) : Decidable (s.Allowed a) := by
  cases a <;> unfold Allowed <;> infer_instance

/-! ## The invariant -/

/-- No open service is registered for the id. -/
def Vacant (s : World) (c : ConversationId) : Prop := ∀ x, (c, x) ∈ s.dict → s.isOpen x = false

/-- What holds where a task is. -/
def Stands (s : World) (t : TaskId) : Job → Prop
  | .section _ .entered | .exclusive _ .entered => True
  | .section _ .preparing => ∃ c, s.gate.phase t = .inside c ∧ s.Vacant c
  | .section _ (.starting x _) | .section _ (.aborting x) =>
    ∃ c, s.gate.phase t = .inside c ∧ s.Vacant c ∧ (c, x) ∉ s.dict ∧ x < s.nextService ∧ s.idOf x = c
  | .section _ (.deleting x) => ∃ c, s.gate.phase t = .inside c ∧ (c, x) ∈ s.dict
  | .exclusive _ (.evicting x _) => s.gate.phase t = .exclusive ∧ x < s.nextService ∧ ∀ y, (s.idOf x, y) ∉ s.dict
  | .exclusive _ (.closingAll todo failed) =>
    s.gate.phase t = .exclusive ∧ ∀ p ∈ s.dict, s.isOpen p.2 → p.1 ∈ todo ∨ p.1 ∈ failed

structure Consistent (s : World) : Prop where
  gate : s.gate.Consistent
  keys : (s.dict.map Prod.fst).Nodup
  entry : ∀ p ∈ s.dict, s.idOf p.2 = p.1 ∧ p.2 < s.nextService
  created : ∀ x, s.isOpen x → x < s.nextService
  kept : ∀ x, s.isOpen x → (s.idOf x, x) ∈ s.dict ∨ ∃ t, s.owned t = some x
  job : ∀ t, ∀ j ∈ s.job t, s.Stands t j

theorem owned_eq_some {s : World} {t : TaskId} {x : ServiceId} :
    s.owned t = some x ↔ ∃ j, s.job t = some j ∧ j.owned = some x := Option.bind_eq_some_iff

/-- Where a task stands that has a service outside the dict. -/
theorem Consistent.of_owned {s : World} (h : s.Consistent) {t : TaskId} {x : ServiceId} (hx : s.owned t = some x) :
    (s.gate.phase t = .inside (s.idOf x) ∧ s.Vacant (s.idOf x)) ∨
      (s.gate.phase t = .exclusive ∧ ∀ y, (s.idOf x, y) ∉ s.dict) := by
  obtain ⟨j, hj, hx⟩ := owned_eq_some.1 hx
  have hstands := h.job t j hj
  rcases j with ⟨op, _ | _ | ⟨y, v⟩ | y | y⟩ | ⟨op, _ | ⟨y, todo⟩ | ⟨todo, failed⟩⟩ <;> cases hx
  · obtain ⟨c, hphase, hvacant, -, -, rfl⟩ := hstands
    exact .inl ⟨hphase, hvacant⟩
  · obtain ⟨c, hphase, hvacant, -, -, rfl⟩ := hstands
    exact .inl ⟨hphase, hvacant⟩
  · exact .inr ⟨hstands.1, hstands.2.2⟩

/-- Two tasks do not have services of one id. -/
theorem Consistent.owner_unique {s : World} (h : s.Consistent) {t u : TaskId} {x y : ServiceId}
    (hx : s.owned t = some x) (hy : s.owned u = some y) (hid : s.idOf x = s.idOf y) : t = u := by
  rcases h.of_owned hx with ⟨htx, -⟩ | ⟨htx, -⟩ <;> rcases h.of_owned hy with ⟨huy, -⟩ | ⟨huy, -⟩
  · rw [← hid] at huy
    exact h.gate.inside_unique htx huy
  · refine absurd ?_ (h.gate.alone (u := t) huy)
    rw [htx]
    trivial
  · refine absurd ?_ (h.gate.alone (u := u) htx)
    rw [huy]
    trivial
  · refine h.gate.exclusive_unique ?_ ?_
    · rw [htx]
      trivial
    · rw [huy]
      trivial

/-- A service in the dict and one outside are not both open. -/
theorem Consistent.not_both {s : World} (h : s.Consistent) {t : TaskId} {x y : ServiceId} (hx : s.isOpen x)
    (hdict : (s.idOf y, x) ∈ s.dict) (hy : s.owned t = some y) : False := by
  rcases h.of_owned hy with ⟨-, hvacant⟩ | ⟨-, hpopped⟩
  · have hclosed := hvacant x hdict
    rw [hx] at hclosed
    cases hclosed
  · exact hpopped x hdict

theorem Consistent.sound {s : World} (h : s.Consistent) : s.Sound where
  oneLive x y hx hy hid := by
    rcases h.kept x hx with hdx | ⟨t, htx⟩ <;> rcases h.kept y hy with hdy | ⟨u, huy⟩
    · rw [← hid] at hdy
      exact value_unique h.keys hdx hdy
    · rw [hid] at hdx
      exact (h.not_both hx hdx huy).elim
    · rw [← hid] at hdy
      exact (h.not_both hy hdy htx).elim
    · obtain rfl := h.owner_unique htx huy hid
      rw [htx] at huy
      exact Option.some.inj huy
  registered x hx hno := by
    rcases h.kept x hx with hdict | ⟨t, ht⟩
    · exact hdict
    · refine absurd ?_ (hno t)
      rcases h.of_owned ht with ⟨hin, -⟩ | ⟨hex, -⟩
      · exact .inl hin
      · exact .inr ⟨hex, x, ht, rfl⟩
  excludes t u c ht hu := by
    refine absurd ?_ (h.gate.alone (u := u) ht)
    rw [hu]
    trivial
  reenters hidle t := ⟨h.gate.enter_of_idle hidle t, h.gate.enterExclusive_of_idle hidle t⟩

/-! ## What a step preserves -/

section Frame
variable {s s' : World} {t u : TaskId} {c : ConversationId}

/-- A job that is not begun stands anywhere, and has no service. -/
theorem Stands.of_quiet {j : Job} (h : j.Quiet) : s.Stands t j := by
  rcases j with ⟨op, _ | _ | ⟨y, v⟩ | y | y⟩ | ⟨op, _ | ⟨y, todo⟩ | ⟨todo, failed⟩⟩ <;> trivial

/-- Outside of its section a task has not begun. -/
theorem Stands.quiet {j : Job} (h : s.Stands t j) (hin : ∀ c, s.gate.phase t ≠ .inside c)
    (hex : s.gate.phase t ≠ .exclusive) : j.Quiet := by
  rcases j with ⟨op, _ | _ | ⟨y, v⟩ | y | y⟩ | ⟨op, _ | ⟨y, todo⟩ | ⟨todo, failed⟩⟩
  · trivial
  · exact absurd h.choose_spec.1 (hin _)
  · exact absurd h.choose_spec.1 (hin _)
  · exact absurd h.choose_spec.1 (hin _)
  · exact absurd h.choose_spec.1 (hin _)
  · trivial
  · exact absurd h.1 hex
  · exact absurd h.1 hex

/-- A job stands where it did when nothing of its conversation has changed. -/
theorem Stands.frame {j : Job} (h : s.Stands u j) (hphase : s'.gate.phase u = s.gate.phase u)
    (hsec : ∀ c, s.gate.phase u = .inside c →
      (∀ x, (c, x) ∈ s'.dict ↔ (c, x) ∈ s.dict) ∧ ∀ x, (c, x) ∈ s.dict → s'.isOpen x = s.isOpen x)
    (hex : s.gate.phase u = .exclusive → s'.dict = s.dict ∧ s'.isOpen = s.isOpen)
    (hid : ∀ x < s.nextService, s'.idOf x = s.idOf x) (hnext : s.nextService ≤ s'.nextService) : s'.Stands u j := by
  have hvacant : ∀ c, s.gate.phase u = .inside c → s.Vacant c → s'.Vacant c := by
    intro c hc hv x hx
    obtain ⟨hdict, hopen⟩ := hsec c hc
    have hx' := (hdict x).1 hx
    rw [hopen x hx']
    exact hv x hx'
  rcases j with ⟨op, _ | _ | ⟨y, v⟩ | y | y⟩ | ⟨op, _ | ⟨y, todo⟩ | ⟨todo, failed⟩⟩
  · trivial
  · obtain ⟨c, hc, hv⟩ := h
    exact ⟨c, by rw [hphase, hc], hvacant c hc hv⟩
  · obtain ⟨c, hc, hv, hno, hy, hyc⟩ := h
    have hno' : (c, y) ∉ s'.dict := fun hin => hno (((hsec c hc).1 y).1 hin)
    exact ⟨c, by rw [hphase, hc], hvacant c hc hv, hno', Nat.lt_of_lt_of_le hy hnext, by rw [hid y hy, hyc]⟩
  · obtain ⟨c, hc, hv, hno, hy, hyc⟩ := h
    have hno' : (c, y) ∉ s'.dict := fun hin => hno (((hsec c hc).1 y).1 hin)
    exact ⟨c, by rw [hphase, hc], hvacant c hc hv, hno', Nat.lt_of_lt_of_le hy hnext, by rw [hid y hy, hyc]⟩
  · obtain ⟨c, hc, hy⟩ := h
    exact ⟨c, by rw [hphase, hc], ((hsec c hc).1 y).2 hy⟩
  · trivial
  · obtain ⟨hu, hy, hpopped⟩ := h
    refine ⟨by rw [hphase, hu], Nat.lt_of_lt_of_le hy hnext, fun z => ?_⟩
    rw [hid y hy, (hex hu).1]
    exact hpopped z
  · obtain ⟨hu, hrest⟩ := h
    refine ⟨by rw [hphase, hu], fun p hp ho => ?_⟩
    rw [(hex hu).1] at hp
    rw [(hex hu).2] at ho
    exact hrest p hp ho

/-- A task waits for its section, or gives it up. -/
theorem Consistent.move {m : GateMove TaskId ConversationId} {g : Gate TaskId ConversationId} (h : s.Consistent)
    (hgate : s.gate.step m = some g) (hjobs : ∀ u ≠ m.task, s'.job u = s.job u)
    (hjob : ∀ j ∈ s'.job m.task, j.Quiet) (hown : ∀ x ∈ s.owned m.task, s.isOpen x = false) (hg : s'.gate = g)
    (hdict : s'.dict = s.dict) (hopen : s'.isOpen = s.isOpen) (hid : s'.idOf = s.idOf)
    (hnext : s'.nextService = s.nextService) : s'.Consistent where
  gate := by
    rw [hg]
    exact h.gate.step m hgate
  keys := by
    rw [hdict]
    exact h.keys
  entry := by
    rw [hdict, hid, hnext]
    exact h.entry
  created := by
    rw [hopen, hnext]
    exact h.created
  kept x hx := by
    rw [hopen] at hx
    rw [hid, hdict]
    refine (h.kept x hx).imp_right fun ⟨u, hu⟩ => ⟨u, ?_⟩
    have hne : u ≠ m.task := by
      rintro rfl
      have hclosed := hown x hu
      rw [hx] at hclosed
      cases hclosed
    rwa [owned, hjobs u hne]
  job u j hj := by
    by_cases hu : u = m.task
    · rw [hu] at hj
      exact Stands.of_quiet (hjob j hj)
    · rw [hjobs u hu] at hj
      refine (h.job u j hj).frame ?_ (fun c _ => ⟨fun x => by rw [hdict], fun x _ => by rw [hopen]⟩)
        (fun _ => ⟨hdict, hopen⟩) (fun x _ => by rw [hid]) hnext.ge
      rw [hg]
      exact Gate.step_phase_ne hgate hu

theorem Consistent.leave (h : s.Consistent) (hown : ∀ x ∈ s.owned t, s.isOpen x = false) (hstep : s.leave t = some s') :
    s'.Consistent := by
  obtain ⟨g, hg, rfl⟩ := Option.map_eq_some_iff.1 hstep
  refine h.move hg (fun u hu => Function.update_of_ne hu ..) (fun j hj => ?_) hown rfl rfl rfl rfl rfl
  have hnone : j ∈ Function.update s.job t none t := hj
  rw [Function.update_self] at hnone
  cases hnone

/-- A step inside a section, on what belongs to its conversation. -/
theorem Consistent.inSection (h : s.Consistent) (ht : s.gate.phase t = .inside c) (hgate : s'.gate = s.gate)
    (hjobs : ∀ u ≠ t, s'.job u = s.job u) (hdict : ∀ k x, k ≠ c → ((k, x) ∈ s'.dict ↔ (k, x) ∈ s.dict))
    (hnext : s.nextService ≤ s'.nextService) (hid : ∀ x < s.nextService, s'.idOf x = s.idOf x)
    (hopen : ∀ x, s.idOf x ≠ c → s'.isOpen x = s.isOpen x) (hcreated : ∀ x, s'.isOpen x → x < s.nextService)
    (hkeys : (s'.dict.map Prod.fst).Nodup) (hentry : ∀ x, (c, x) ∈ s'.dict → s'.idOf x = c ∧ x < s'.nextService)
    (hkept : ∀ x, s'.isOpen x → s.idOf x = c → (c, x) ∈ s'.dict ∨ s'.owned t = some x)
    (hjob : ∀ j ∈ s'.job t, s'.Stands t j) : s'.Consistent where
  gate := by
    rw [hgate]
    exact h.gate
  keys := hkeys
  entry := by
    rintro ⟨k, x⟩ hp
    by_cases hk : k = c
    · rw [hk] at hp ⊢
      exact hentry x hp
    · obtain ⟨hidx, hlt⟩ := h.entry (k, x) ((hdict k x hk).1 hp)
      exact ⟨by rw [hid x hlt]; exact hidx, Nat.lt_of_lt_of_le hlt hnext⟩
  created x hx := Nat.lt_of_lt_of_le (hcreated x hx) hnext
  kept x hx := by
    rw [hid x (hcreated x hx)]
    by_cases hxc : s.idOf x = c
    · rw [hxc]
      exact (hkept x hx hxc).imp_right fun ho => ⟨t, ho⟩
    · have hold : s.isOpen x := by rwa [hopen x hxc] at hx
      rcases h.kept x hold with hin | ⟨u, hu⟩
      · exact .inl ((hdict _ _ hxc).2 hin)
      · refine .inr ⟨u, ?_⟩
        have hne : u ≠ t := by
          rintro rfl
          rcases h.of_owned hu with ⟨hphase, -⟩ | ⟨hphase, -⟩
          · rw [ht, Phase.inside.injEq] at hphase
            exact hxc hphase.symm
          · rw [ht] at hphase
            cases hphase
        rwa [owned, hjobs u hne]
  job u j hj := by
    by_cases hu : u = t
    · rw [hu] at hj ⊢
      exact hjob j hj
    · rw [hjobs u hu] at hj
      refine (h.job u j hj).frame (by rw [hgate]) (fun k hk => ?_) (fun hex => ?_) hid hnext
      · have hkc : k ≠ c := by
          rintro rfl
          exact hu (h.gate.inside_unique hk ht)
        refine ⟨fun x => hdict k x hkc, fun x hx => hopen x ?_⟩
        rw [(h.entry (k, x) hx).1]
        exact hkc
      · refine absurd ?_ (h.gate.alone (u := t) hex)
        rw [ht]
        trivial

/-- A step of an exclusive section: no other task is anywhere. -/
theorem Consistent.inExclusive (h : s.Consistent) (ht : s.gate.phase t = .exclusive) (hgate : s'.gate = s.gate)
    (hjobs : ∀ u ≠ t, s'.job u = s.job u) (hdict : ∀ p ∈ s'.dict, p ∈ s.dict) (hnext : s'.nextService = s.nextService)
    (hid : s'.idOf = s.idOf) (hopen : ∀ x, s'.isOpen x → s.isOpen x) (hkeys : (s'.dict.map Prod.fst).Nodup)
    (hkept : ∀ x, s'.isOpen x → (s.idOf x, x) ∈ s.dict ∨ s.owned t = some x →
      (s.idOf x, x) ∈ s'.dict ∨ s'.owned t = some x)
    (hjob : ∀ j ∈ s'.job t, s'.Stands t j) : s'.Consistent where
  gate := by
    rw [hgate]
    exact h.gate
  keys := hkeys
  entry := by
    rw [hid, hnext]
    exact fun p hp => h.entry p (hdict p hp)
  created := by
    rw [hnext]
    exact fun x hx => h.created x (hopen x hx)
  kept x hx := by
    rw [hid]
    refine (hkept x hx ?_).imp_right fun ho => ⟨t, ho⟩
    refine (h.kept x (hopen x hx)).imp_right fun ⟨u, hu⟩ => ?_
    rcases h.of_owned hu with ⟨hphase, -⟩ | ⟨hphase, -⟩
    · refine absurd ?_ (h.gate.alone (u := u) ht)
      rw [hphase]
      trivial
    · obtain rfl := h.gate.exclusive_unique (t := t) (u := u) (by rw [ht]; trivial) (by rw [hphase]; trivial)
      exact hu
  job u j hj := by
    by_cases hu : u = t
    · rw [hu] at hj ⊢
      exact hjob j hj
    · rw [hjobs u hu] at hj
      refine Stands.of_quiet ((h.job u j hj).quiet (fun k hk => ?_) fun hex => ?_)
      · refine absurd ?_ (h.gate.alone (u := u) ht)
        rw [hk]
        trivial
      · exact hu (h.gate.exclusive_unique (by rw [hex]; trivial) (by rw [ht]; trivial))

end Frame

/-! ### Sections of a conversation -/

section Sections
variable {s s' : World} {t : TaskId} {c : ConversationId} {op : Op} {x : ServiceId} {result : CloseResult}

theorem owned_of_job {j : Job} (hj : s.job t = some j) : s.owned t = j.owned := by
  rw [owned, hj]
  rfl

theorem owned_of_quiet {j : Job} (hj : s.job t = some j) (h : j.Quiet) : s.owned t = none := by
  rw [owned_of_job hj, h.owned]

theorem owned_become (b : Body) : (s.become t op b).owned t = (Job.section op b).owned :=
  owned_of_job (Function.update_self ..)

theorem Consistent.kept_inside (h : s.Consistent) (ht : s.gate.phase t = .inside c) (hx : s.isOpen x)
    (hxc : s.idOf x = c) : (c, x) ∈ s.dict ∨ s.owned t = some x := by
  rcases h.kept x hx with hdict | ⟨u, hu⟩
  · rw [hxc] at hdict
    exact .inl hdict
  · rcases h.of_owned hu with ⟨hphase, -⟩ | ⟨hphase, -⟩
    · rw [hxc] at hphase
      obtain rfl := h.gate.inside_unique hphase ht
      exact .inr hu
    · refine absurd ?_ (h.gate.alone (u := t) hphase)
      rw [ht]
      trivial

theorem Consistent.become (h : s.Consistent) (ht : s.gate.phase t = .inside c) {b : Body}
    (hkept : ∀ x, s.owned t = some x → s.isOpen x → (Job.section op b).owned = some x)
    (hstands : s.Stands t (.section op b)) : (s.become t op b).Consistent := by
  refine h.inSection ht rfl (fun u hu => Function.update_of_ne hu ..) (fun _ _ _ => Iff.rfl) (Nat.le_refl _)
    (fun _ _ => rfl) (fun _ _ => rfl) h.created h.keys (fun y hy => h.entry (c, y) hy) (fun y hy hyc => ?_) fun j hj => ?_
  · rw [owned_become]
    exact (h.kept_inside ht hy hyc).imp_right fun hown => hkept y hown hy
  · have hjob : j ∈ Function.update s.job t (some (.section op b)) t := hj
    rw [Function.update_self] at hjob
    cases hjob
    exact hstands.frame rfl (fun _ _ => ⟨fun _ => Iff.rfl, fun _ _ => rfl⟩) (fun _ => ⟨rfl, rfl⟩) (fun _ _ => rfl)
      (Nat.le_refl _)

/-- Nothing open is left behind by a task without a service. -/
theorem closed_of_owned_none (hown : s.owned t = none) : ∀ x ∈ s.owned t, s.isOpen x = false := by
  rw [hown]
  exact nofun

theorem mem_dict_of_live (hlive : s.live c = some x) : (c, x) ∈ s.dict ∧ s.isOpen x := by
  obtain ⟨hlookup, hopen⟩ := Option.filter_eq_some_iff.1 hlive
  exact ⟨mem_of_lookup hlookup, hopen⟩

theorem Consistent.vacant (h : s.Consistent) (hlive : s.live c = none) : s.Vacant c := by
  intro x hx
  have hlookup := lookup_of_mem h.keys hx
  rw [live, hlookup, Option.filter_eq_none_iff] at hlive
  simpa using hlive x rfl

theorem Consistent.obtained (h : s.Consistent) (ht : s.gate.phase t = .inside c) (hown : s.owned t = none)
    (hx : (c, x) ∈ s.dict) (hstep : s.obtained t op x = some s') : s'.Consistent := by
  unfold World.obtained at hstep
  split at hstep
  · cases hstep
    refine h.become ht (fun y hy => ?_) ⟨c, ht, hx⟩
    rw [hown] at hy
    cases hy
  all_goals exact h.leave (closed_of_owned_none hown) hstep

theorem Consistent.getOrLoad (h : s.Consistent) (ht : s.gate.phase t = .inside c) (hown : s.owned t = none)
    (hstep : s.getOrLoad t op c = some s') : s'.Consistent := by
  unfold World.getOrLoad at hstep
  split at hstep
  · rename_i x hlive
    exact h.obtained ht hown (mem_dict_of_live hlive).1 hstep
  · rename_i hlive
    split at hstep
    · cases hstep
      refine h.become ht (fun y hy => ?_) ⟨c, ht, h.vacant hlive⟩
      rw [hown] at hy
      cases hy
    · exact h.leave (closed_of_owned_none hown) hstep

/-- The catalog does not matter. -/
theorem Consistent.withRecords (h : s.Consistent) (records : List ConversationId) : { s with records }.Consistent := by
  refine ⟨h.gate, h.keys, h.entry, h.created, h.kept, fun u j hj => ?_⟩
  exact (h.job u j hj).frame rfl (fun _ _ => ⟨fun _ => Iff.rfl, fun _ _ => rfl⟩) (fun _ => ⟨rfl, rfl⟩) (fun _ _ => rfl)
    (Nat.le_refl _)

theorem Consistent.reattach (h : s.Consistent) (ht : s.gate.phase t = .inside c) (hown : s.owned t = none)
    {attach : Bool} (hstep : s.reattach t op c attach = some s') : s'.Consistent := by
  unfold World.reattach at hstep
  split at hstep
  · exact (h.withRecords (if c ∈ s.records then s.records else s.records ++ [c])).leave (closed_of_owned_none hown) hstep
  · split at hstep
    · exact h.getOrLoad ht hown hstep
    · exact h.leave (closed_of_owned_none hown) hstep

theorem hasConversation_false (hnone : s.eventServices ≠ none) (h : s.hasConversation c = false) : s.live c = none := by
  have hsome : s.eventServices.isSome := Option.isSome_iff_ne_none.2 hnone
  simpa [hasConversation, hsome] using And.right (by simpa [hasConversation, hsome] using h)

theorem Consistent.enterSection (h : s.Consistent) (ht : s.gate.phase t = .inside c) (hown : s.owned t = none)
    {attach : Bool} (hstep : s.enterSection t op c attach = some s') : s'.Consistent := by
  unfold World.enterSection at hstep
  split at hstep
  · exact h.leave (closed_of_owned_none hown) hstep
  · rename_i hsome
    have hprepare : s.hasConversation c = false → (s.become t op .preparing).Consistent := by
      intro hno
      refine h.become ht (fun y hy => ?_) ⟨c, ht, h.vacant (hasConversation_false hsome hno)⟩
      rw [hown] at hy
      cases hy
    split at hstep
    · exact h.getOrLoad ht hown hstep
    · exact h.getOrLoad ht hown hstep
    · exact h.reattach ht hown hstep
    · split at hstep
      · split at hstep
        · exact h.reattach ht hown hstep
        · exact h.leave (closed_of_owned_none hown) hstep
      · rename_i hno
        cases hstep
        exact hprepare (by simpa using hno)
    · split at hstep
      · exact h.leave (closed_of_owned_none hown) hstep
      · rename_i hno
        cases hstep
        exact hprepare (by simpa using hno)

theorem Consistent.create (h : s.Consistent) (ht : s.gate.phase t = .inside c)
    (hj : s.job t = some (.section op .preparing)) (version : Nat) :
    { s.become t op (.starting s.nextService version) with
      nextService := s.nextService + 1
      idOf := Function.update s.idOf s.nextService c }.Consistent := by
  have hnew : ∀ x < s.nextService, Function.update s.idOf s.nextService c x = s.idOf x :=
    fun x hx => Function.update_of_ne (Nat.ne_of_lt hx) ..
  have hvacant : s.Vacant c := by
    obtain ⟨c', hc', hv⟩ := h.job t _ hj
    rw [ht] at hc'
    cases hc'
    exact hv
  refine h.inSection ht rfl (fun u hu => Function.update_of_ne hu ..) (fun _ _ _ => Iff.rfl) (Nat.le_succ _) hnew
    (fun _ _ => rfl) h.created h.keys (fun y hy => ?_) (fun y hy hyc => ?_) fun j hj' => ?_
  · obtain ⟨hid, hlt⟩ := h.entry (c, y) hy
    exact ⟨(hnew y hlt).trans hid, Nat.lt_succ_of_lt hlt⟩
  · rcases h.kept_inside ht hy hyc with hdict | hown
    · exact .inl hdict
    · rw [owned_of_job hj] at hown
      cases hown
  · have hjob : j ∈ Function.update s.job t (some (.section op (.starting s.nextService version))) t := hj'
    rw [Function.update_self] at hjob
    cases hjob
    refine ⟨c, ht, hvacant, fun hin => ?_, Nat.lt_succ_self _, Function.update_self ..⟩
    exact absurd (h.entry _ hin).2 (Nat.lt_irrefl _)

theorem Consistent.opens (h : s.Consistent) {version : Nat} (hj : s.job t = some (.section op (.starting x version))) :
    { s with isOpen := Function.update s.isOpen x true }.Consistent := by
  obtain ⟨c, ht, hvacant, hno, hlt, hid⟩ := h.job t _ hj
  have hother : ∀ y, y ≠ x → Function.update s.isOpen x true y = s.isOpen y := fun y hy => Function.update_of_ne hy ..
  refine h.inSection ht rfl (fun _ _ => rfl) (fun _ _ _ => Iff.rfl) (Nat.le_refl _) (fun _ _ => rfl) (fun y hy => ?_)
    (fun y hy => ?_) h.keys (fun y hy => h.entry (c, y) hy) (fun y hy hyc => ?_) fun j hj' => ?_
  · refine hother y ?_
    rintro rfl
    exact hy hid
  · by_cases hyx : y = x
    · rwa [hyx]
    · exact h.created y (by rwa [← hother y hyx])
  · by_cases hyx : y = x
    · rw [hyx]
      exact .inr (owned_of_job hj)
    · exact h.kept_inside ht (by rwa [← hother y hyx]) hyc
  · have hjob : j ∈ s.job t := hj'
    rw [hj] at hjob
    cases hjob
    refine ⟨c, ht, fun y hy => ?_, hno, hlt, hid⟩
    rw [← hvacant y hy]
    refine hother y ?_
    rintro rfl
    exact hno hy

theorem Consistent.registers (h : s.Consistent) (ht : s.gate.phase t = .inside c) {version : Nat}
    (hj : s.job t = some (.section op (.starting x version))) {d : List (ConversationId × ServiceId)}
    (hd : s.eventServices = some d) (records : List ConversationId) :
    { s.become t op .entered with eventServices := some (dictSet d c x), records }.Consistent := by
  obtain ⟨c', hc', hvacant, hno, hlt, hid⟩ := h.job t _ hj
  rw [ht, Phase.inside.injEq] at hc'
  subst hc'
  have hdict : s.dict = d := by rw [dict, hd]; rfl
  refine h.inSection ht rfl (fun u hu => Function.update_of_ne hu ..) (fun k y hk => ?_) (Nat.le_refl _)
    (fun _ _ => rfl) (fun _ _ => rfl) h.created ?_ (fun y hy => ?_) (fun y hy hyc => ?_) fun j hj' => ?_
  · rw [hdict]
    show (k, y) ∈ dictSet d c x ↔ _
    simp [mem_dictSet_iff, hk]
  · have hkeys := h.keys
    rw [hdict] at hkeys
    exact nodup_dictSet c x hkeys
  · have hmem : (c, y) ∈ dictSet d c x := hy
    rcases mem_dictSet_iff.1 hmem with ⟨-, rfl⟩ | ⟨hne, -⟩
    · exact ⟨hid, hlt⟩
    · exact absurd rfl hne
  · left
    show (c, y) ∈ dictSet d c x
    rw [mem_dictSet_iff]
    rcases h.kept_inside ht hy hyc with hin | hown
    · have hclosed := hvacant y hin
      rw [show s.isOpen y from hy] at hclosed
      cases hclosed
    · rw [owned_of_job hj] at hown
      cases hown
      exact .inl ⟨rfl, rfl⟩
  · have hjob : j ∈ Function.update s.job t (some (.section op .entered)) t := hj'
    rw [Function.update_self] at hjob
    cases hjob
    trivial

/-- Services that close. -/
theorem Consistent.closes (h : s.Consistent) {isOpen : ServiceId → Bool} (hle : ∀ x, isOpen x → s.isOpen x) :
    { s with isOpen }.Consistent := by
  have hvacant : ∀ c, s.Vacant c → ({ s with isOpen } : World).Vacant c := by
    intro c hv y hy
    cases ho : isOpen y with
    | false => exact ho
    | true =>
      have hclosed := hv y hy
      rw [hle y ho] at hclosed
      cases hclosed
  refine ⟨h.gate, h.keys, h.entry, fun y hy => h.created y (hle y hy), fun y hy => h.kept y (hle y hy), fun u j hj => ?_⟩
  have hstands := h.job u j hj
  rcases j with ⟨op, _ | _ | ⟨y, v⟩ | y | y⟩ | ⟨op, _ | ⟨y, todo⟩ | ⟨todo, failed⟩⟩
  · trivial
  · obtain ⟨c, hc, hv⟩ := hstands
    exact ⟨c, hc, hvacant c hv⟩
  · obtain ⟨c, hc, hv, hrest⟩ := hstands
    exact ⟨c, hc, hvacant c hv, hrest⟩
  · obtain ⟨c, hc, hv, hrest⟩ := hstands
    exact ⟨c, hc, hvacant c hv, hrest⟩
  · exact hstands
  · trivial
  · exact hstands
  · exact ⟨hstands.1, fun p hp ho => hstands.2 p hp (hle p.2 ho)⟩

theorem close_le (y : ServiceId) (hy : (s.close x result).isOpen y) : s.isOpen y := by
  have hupdate : Function.update s.isOpen x (s.isOpen x && result.stays) y = true := hy
  by_cases hyx : y = x
  · rw [hyx, Function.update_self, Bool.and_eq_true] at hupdate
    rw [hyx]
    exact hupdate.1
  · rwa [Function.update_of_ne hyx] at hupdate

theorem close_closed (h : s.isOpen x → result.stays = false) : (s.close x result).isOpen x = false := by
  have hupdate : (s.close x result).isOpen x = (s.isOpen x && result.stays) := Function.update_self ..
  rw [hupdate]
  cases ho : s.isOpen x with
  | false => rfl
  | true => exact h ho

theorem Consistent.close (h : s.Consistent) : (s.close x result).Consistent := h.closes close_le

theorem leave_setJob (s : World) (t : TaskId) (j : Option Job) : (s.setJob t j).leave t = s.leave t := by
  have hjob : Function.update (Function.update s.job t j) t none = Function.update s.job t none :=
    Function.update_idem ..
  unfold leave setJob
  simp only [hjob]

theorem dict_keep (p : ConversationId → Bool) : (s.keep p).getD [] = s.dict.filter fun e => p e.1 := by
  unfold keep dict
  cases s.eventServices <;> rfl

/-- A deletion that goes through drops a closed service. -/
theorem Consistent.drop (h : s.Consistent) (ht : s.gate.phase t = .inside c) (hj : s.job t = some (.section op (.deleting x)))
    (hclosed : s.isOpen x = false) {services : Option (List (ConversationId × ServiceId))}
    (hservices : services = s.keep (· ≠ c) ∨ services = s.eventServices) (records : List ConversationId) :
    { s.setJob t (some (.section op .entered)) with eventServices := services, records }.Consistent := by
  obtain ⟨c', hc', hin⟩ := h.job t _ hj
  rw [ht, Phase.inside.injEq] at hc'
  subst hc'
  have hdict : services.getD [] = s.dict.filter (fun e => decide (e.1 ≠ c)) ∨ services.getD [] = s.dict := by
    rcases hservices with rfl | rfl
    · exact .inl (dict_keep _)
    · exact .inr rfl
  refine h.inSection ht rfl (fun u hu => Function.update_of_ne hu ..) (fun k y hk => ?_) (Nat.le_refl _)
    (fun _ _ => rfl) (fun _ _ => rfl) h.created ?_ (fun y hy => ?_) (fun y hy hyc => ?_) fun j hj' => ?_
  · show (k, y) ∈ services.getD [] ↔ _
    rcases hdict with hd | hd
    · simp [hd, hk]
    · rw [hd]
  · show ((services.getD []).map Prod.fst).Nodup
    rcases hdict with hd | hd
    · rw [hd]
      exact nodup_filter_keys _ h.keys
    · rw [hd]
      exact h.keys
  · have hmem : (c, y) ∈ services.getD [] := hy
    refine h.entry (c, y) ?_
    rcases hdict with hd | hd
    · rw [hd] at hmem
      exact List.mem_of_mem_filter hmem
    · rwa [hd] at hmem
  · -- What is open has another id than the one that was deleted.
    exfalso
    have hopen : s.isOpen y := hy
    rcases h.kept_inside ht hopen hyc with hdy | hown
    · rw [value_unique h.keys hdy hin, hclosed] at hopen
      cases hopen
    · rw [owned_of_job hj] at hown
      cases hown
  · have hjob : j ∈ Function.update s.job t (some (.section op .entered)) t := hj'
    rw [Function.update_self] at hjob
    cases hjob
    trivial

end Sections

/-! ### Exclusive sections -/

section Exclusive
variable {s s' : World} {t : TaskId} {op : ExclusiveOp} {x : ServiceId} {result : CloseResult}

/-- The section goes on, and some ids may be gone from the dict. -/
theorem Consistent.goesOn (h : s.Consistent) (ht : s.gate.phase t = .exclusive)
    (hown : ∀ y ∈ s.owned t, s.isOpen y = false) {b : ExclusiveBody}
    {services : Option (List (ConversationId × ServiceId))} (records : List ConversationId) (version : Nat)
    (hsub : (services.getD []).Sublist s.dict)
    (hgone : ∀ p ∈ s.dict, s.isOpen p.2 → p ∈ services.getD [] ∨ (Job.exclusive op b).owned = some p.2)
    (hstands : ({ s with eventServices := services } : World).Stands t (.exclusive op b)) :
    { s.setJob t (some (.exclusive op b)) with eventServices := services, records, version }.Consistent := by
  have hjob : Function.update s.job t (some (.exclusive op b)) t = some (.exclusive op b) := Function.update_self ..
  refine h.inExclusive ht rfl (fun u hu => Function.update_of_ne hu ..) (fun p hp => hsub.subset hp) rfl rfl
    (fun _ hy => hy) (h.keys.sublist (hsub.map _)) (fun y hy hold => ?_) fun j hj => ?_
  · rcases hold with hin | hy'
    · refine (hgone _ hin hy).imp_right fun hnew => ?_
      rw [owned_of_job hjob, hnew]
    · have hclosed := hown y hy'
      rw [show s.isOpen y from hy] at hclosed
      cases hclosed
  · have hj' : j ∈ Function.update s.job t (some (.exclusive op b)) t := hj
    rw [hjob] at hj'
    cases hj'
    cases b <;> exact hstands

theorem Consistent.evictNext (h : s.Consistent) (ht : s.gate.phase t = .exclusive)
    (hown : ∀ y ∈ s.owned t, s.isOpen y = false) {todo : List ConversationId} (hstep : s.evictNext t todo = some s') :
    s'.Consistent := by
  induction todo with
  | nil => exact h.leave hown hstep
  | cons c todo ih =>
    unfold World.evictNext at hstep
    split at hstep
    · exact ih hstep
    · rename_i x hx
      cases hstep
      have hin := mem_of_lookup hx
      have hdict := dict_keep (s := s) (· ≠ c)
      refine h.goesOn ht hown s.records s.version ?_ (fun p hp hopen => ?_) ⟨ht, (h.entry _ hin).2, fun y hy => ?_⟩
      · rw [hdict]
        exact List.filter_sublist
      · by_cases hpc : p.1 = c
        · refine .inr ?_
          obtain ⟨k, y⟩ := p
          obtain rfl : k = c := hpc
          rw [value_unique h.keys hp hin]
          rfl
        · left
          rw [hdict]
          exact List.mem_filter.2 ⟨hp, by simpa using hpc⟩
      · have hmem : (s.idOf x, y) ∈ (s.keep (· ≠ c)).getD [] := hy
        rw [hdict, List.mem_filter] at hmem
        simp [(h.entry _ hin).1] at hmem

theorem Consistent.settles (h : s.Consistent) (ht : s.gate.phase t = .exclusive) {failed : List ConversationId}
    (hj : s.job t = some (.exclusive op (.closingAll [] failed))) {services : Option (List (ConversationId × ServiceId))}
    (hservices : services = s.keep (· ∈ failed) ∨ (failed = [] ∧ services = none)) (records : List ConversationId)
    (version : Nat) :
    { s.setJob t (some (.exclusive op .entered)) with eventServices := services, records, version }.Consistent := by
  obtain ⟨-, hrest⟩ := h.job t _ hj
  have hkept : ∀ p ∈ s.dict, s.isOpen p.2 → p.1 ∈ failed := fun p hp ho => by simpa using hrest p hp ho
  have hown : ∀ y ∈ s.owned t, s.isOpen y = false := closed_of_owned_none (owned_of_job hj)
  refine h.goesOn ht hown records version ?_ (fun p hp ho => .inl ?_) trivial
  · rcases hservices with rfl | ⟨-, rfl⟩
    · rw [dict_keep]
      exact List.filter_sublist
    · exact List.nil_sublist _
  · have hfailed := hkept p hp ho
    rcases hservices with rfl | ⟨rfl, rfl⟩
    · rw [dict_keep, List.mem_filter]
      exact ⟨hp, by simpa using hfailed⟩
    · cases hfailed

theorem Consistent.closedOne (h : s.Consistent) {todo failed : List ConversationId} {c : ConversationId}
    (hj : s.job t = some (.exclusive op (.closingAll todo failed))) (hx : s.dict.lookup c = some x) :
    ((s.close x result).setJob t (some (.exclusive op (.closingAll (todo.erase c)
      (if result = .done then failed else failed ++ [c]))))).Consistent := by
  obtain ⟨ht, hrest⟩ := h.job t _ hj
  have hin := mem_of_lookup hx
  have hown : ∀ y ∈ (s.close x result).owned t, (s.close x result).isOpen y = false :=
    closed_of_owned_none (owned_of_job hj)
  have hclose : (s.close x result).Consistent := h.close
  refine hclose.goesOn ht hown s.records s.version (List.Sublist.refl _)
    (fun p hp _ => .inl hp) ⟨ht, fun p hp ho => ?_⟩
  have hold := hrest p hp (close_le p.2 ho)
  split
  · rename_i hdone
    by_cases hpc : p.1 = c
    · -- Its service is the one that was closed.
      obtain ⟨k, y⟩ := p
      obtain rfl : k = c := hpc
      rw [value_unique h.keys hp hin, close_closed (by rw [hdone]; exact fun _ => rfl)] at ho
      cases ho
    · exact hold.imp_left fun htodo => (List.mem_erase_of_ne hpc).2 htodo
  · by_cases hpc : p.1 = c
    · simp [hpc]
    · rw [List.mem_append]
      exact hold.imp (fun htodo => (List.mem_erase_of_ne hpc).2 htodo) .inl

end Exclusive

/-! ### Every step -/

section Step
variable {s s' : World} {t : TaskId}

theorem move_eq {m : GateMove TaskId ConversationId} (h : s.move m = some s') :
    ∃ g, s.gate.step m = some g ∧ s' = { s with gate := g } := by
  obtain ⟨g, hg, rfl⟩ := Option.map_eq_some_iff.1 h
  exact ⟨g, hg, rfl⟩

/-- A call, and the waiting before a section. -/
theorem Consistent.waits (h : s.Consistent) {m : GateMove TaskId ConversationId} {g : Gate TaskId ConversationId}
    (hg : s.gate.step m = some g) (hm : m ≠ .leave m.task) {job : Option Job} (hjob : job = s.job m.task ∨ ∃ j, job = some j ∧ j.Quiet) :
    { s.setJob m.task job with gate := g }.Consistent := by
  obtain ⟨hin, hex⟩ := Gate.outside_of_step hg hm
  have hquiet : ∀ j ∈ s.job m.task, j.Quiet := fun j hj => (h.job _ j hj).quiet hin hex
  refine h.move hg (fun u hu => Function.update_of_ne hu ..) (fun j hj => ?_) (fun x hx => ?_) rfl rfl rfl rfl rfl
  · have hj' : j ∈ Function.update s.job m.task job m.task := hj
    rw [Function.update_self] at hj'
    rcases hjob with rfl | ⟨i, rfl, hi⟩
    · exact hquiet j hj'
    · cases hj'
      exact hi
  · obtain ⟨j, hj, hown⟩ := owned_eq_some.1 hx
    rw [(hquiet j hj).owned] at hown
    cases hown

theorem Consistent.waits_same (h : s.Consistent) {m : GateMove TaskId ConversationId} (hstep : s.move m = some s')
    (hm : m ≠ .leave m.task) : s'.Consistent := by
  obtain ⟨g, hg, rfl⟩ := move_eq hstep
  have hsame := h.waits hg hm (.inl rfl)
  rwa [setJob, Function.update_eq_self] at hsame

attribute [local simp] World.step

theorem Consistent.giveUp (h : s.Consistent) (hstep : s.step (.giveUp t) = some s') : s'.Consistent := by
  have hout : (∀ c, s.gate.phase t ≠ .inside c) ∧ s.gate.phase t ≠ .exclusive ∧ s.leave t = some s' := by
    unfold World.step at hstep
    dsimp only at hstep
    split at hstep
    all_goals first
      | (rename_i ht; refine ⟨?_, ?_, hstep⟩ <;> simp [ht])
      | cases hstep
  obtain ⟨hin, hex, hleave⟩ := hout
  refine h.leave (fun x hx => ?_) hleave
  obtain ⟨j, hj, hown⟩ := owned_eq_some.1 hx
  rw [((h.job t j hj).quiet hin hex).owned] at hown
  cases hown

theorem Consistent.stepDecide {attach : Bool} (h : s.Consistent) (hstep : s.step (.decide t attach) = some s') :
    s'.Consistent := by
  unfold World.step at hstep
  dsimp only at hstep
  split at hstep
  · rename_i ht hj
    exact h.enterSection ht (owned_of_job hj) hstep
  · cases hstep

theorem Consistent.stepRaises (h : s.Consistent) (hstep : s.step (.raises t) = some s') : s'.Consistent := by
  unfold World.step at hstep
  dsimp only at hstep
  split at hstep
  · rename_i hj
    exact h.leave (closed_of_owned_none (owned_of_job hj)) hstep
  · cases hstep

theorem Consistent.stepCreate (h : s.Consistent) (hstep : s.step (.create t) = some s') : s'.Consistent := by
  unfold World.step at hstep
  dsimp only at hstep
  split at hstep
  · rename_i ht hj
    cases hstep
    exact h.create ht hj s.version
  · cases hstep

theorem Consistent.stepOpens (h : s.Consistent) (hstep : s.step (.opens t) = some s') : s'.Consistent := by
  unfold World.step at hstep
  dsimp only at hstep
  split at hstep
  · rename_i hj
    cases hstep
    exact h.opens hj
  · cases hstep

/-- A start that fails is closed next. -/
theorem Consistent.abort (h : s.Consistent) {op : Op} {x : ServiceId} {version : Nat}
    (hj : s.job t = some (.section op (.starting x version))) : (s.become t op (.aborting x)).Consistent := by
  obtain ⟨c, ht, hrest⟩ := h.job t _ hj
  refine h.become ht (fun y hy _ => ?_) ⟨c, ht, hrest⟩
  rw [owned_of_job hj] at hy
  exact hy

theorem Consistent.stepRegisters (h : s.Consistent) (hstep : s.step (.registers t) = some s') : s'.Consistent := by
  unfold World.step at hstep
  dsimp only at hstep
  split at hstep
  · rename_i c op x version ht hj
    split at hstep
    · split at hstep
      · rename_i d hd
        split at hstep
        · refine (h.registers ht hj hd _).obtained ht (owned_of_quiet (Function.update_self ..) trivial) ?_ hstep
          show (c, x) ∈ dictSet d c x
          exact mem_dictSet_iff.2 (.inl ⟨rfl, rfl⟩)
        · cases hstep
          exact h.abort hj
      · cases hstep
        exact h.abort hj
    · cases hstep
  · cases hstep

theorem Consistent.stepStartFails (h : s.Consistent) (hstep : s.step (.startFails t) = some s') : s'.Consistent := by
  unfold World.step at hstep
  dsimp only at hstep
  split at hstep
  · rename_i hj
    cases hstep
    exact h.abort hj
  · cases hstep

/-- Behind a `close` that leaves nothing open the task may leave. -/
theorem Consistent.leave_closed (h : s.Consistent) {x : ServiceId} {result : CloseResult} (hx : s.owned t = some x)
    (hclosed : s.isOpen x → result.stays = false) (hstep : (s.close x result).leave t = some s') : s'.Consistent := by
  refine h.close.leave (fun y hy => ?_) hstep
  have hyx : some y = some x := hx ▸ hy.symm
  cases hyx
  exact close_closed hclosed

theorem Consistent.stepAborted (h : s.Consistent) {result : CloseResult} (hok : s.Allowed (.aborted t result))
    (hstep : s.step (.aborted t result) = some s') : s'.Consistent := by
  unfold World.step at hstep
  dsimp only at hstep
  split at hstep
  · rename_i hj
    have hown := owned_of_job hj
    exact h.leave_closed hown (hok _ hown) hstep
  · cases hstep

theorem Consistent.stepDeleted (h : s.Consistent) {result : CloseResult} (hok : s.Allowed (.deleted t result))
    (hstep : s.step (.deleted t result) = some s') : s'.Consistent := by
  unfold World.step at hstep
  dsimp only at hstep
  split at hstep
  · rename_i c version x ht hj
    have hown : (s.close x result).owned t = none := owned_of_job hj
    have hdrop : result.stays = false → ∀ records,
        { s.close x result with
          eventServices := if s.version = version then s.keep (· ≠ c) else s.eventServices, records }.leave t = some s' →
        s'.Consistent := by
      intro hstays records hleave
      have hservices : (if s.version = version then s.keep (· ≠ c) else s.eventServices) =
          (s.close x result).keep (· ≠ c) ∨
          (if s.version = version then s.keep (· ≠ c) else s.eventServices) = (s.close x result).eventServices := by
        split
        · exact .inl rfl
        · exact .inr rfl
      rw [← leave_setJob _ t (some (.section (.delete version) .entered))] at hleave
      exact (h.close.drop ht hj (close_closed fun _ => hstays) hservices records).leave
        (closed_of_owned_none (owned_of_quiet (Function.update_self ..) trivial)) hleave
    split at hstep
    · exact h.close.leave (closed_of_owned_none hown) hstep
    · exact h.close.leave (closed_of_owned_none hown) hstep
    · exact hdrop rfl _ hstep
    · rename_i stays
      refine hdrop ?_ _ hstep
      cases stays with
      | false => rfl
      | true => exact absurd rfl hok
  · cases hstep

theorem Consistent.stepCancel (h : s.Consistent) (hok : s.Allowed (.cancel t)) (hstep : s.step (.cancel t) = some s') :
    s'.Consistent := by
  unfold World.step at hstep
  dsimp only at hstep
  split at hstep
  · exact h.leave hok hstep
  · exact h.leave hok hstep
  · cases hstep

theorem Consistent.stepChoose (h : s.Consistent) {idle : List ConversationId} (hstep : s.step (.choose t idle) = some s') :
    s'.Consistent := by
  unfold World.step at hstep
  dsimp only at hstep
  split at hstep
  · rename_i ht hj
    have hown : ∀ x ∈ s.owned t, s.isOpen x = false := closed_of_owned_none (owned_of_job hj)
    split at hstep
    · exact h.leave hown hstep
    · split at hstep
      · exact h.evictNext ht hown hstep
      · cases hstep
  · cases hstep

theorem Consistent.stepEvicted (h : s.Consistent) {result : CloseResult} (hok : s.Allowed (.evicted t result))
    (hstep : s.step (.evicted t result) = some s') : s'.Consistent := by
  unfold World.step at hstep
  dsimp only at hstep
  split at hstep
  · rename_i x todo hj
    have hown := owned_of_job hj
    have hnext : (s.close x result).evictNext t todo = some s' → s'.Consistent := by
      refine h.close.evictNext (h.job t _ hj).1 fun y hy => ?_
      have hyx : s.owned t = some y := hy
      rw [hown] at hyx
      cases hyx
      exact close_closed (hok _ hown)
    split at hstep
    · exact h.leave_closed hown (hok _ hown) hstep
    · exact hnext hstep
    · exact hnext hstep
  · cases hstep

theorem Consistent.stepCloseAll (h : s.Consistent) (hstep : s.step (.closeAll t) = some s') : s'.Consistent := by
  unfold World.step at hstep
  dsimp only at hstep
  split at hstep
  · rename_i op ht hj
    have hown : ∀ x ∈ s.owned t, s.isOpen x = false := closed_of_owned_none (owned_of_job hj)
    split at hstep
    · cases hstep
    · split at hstep
      · rename_i d hd
        cases hstep
        have hdict : s.dict = d := by rw [dict, hd]; rfl
        refine h.goesOn ht hown s.records s.version (List.Sublist.refl _) (fun p hp _ => .inl hp) ⟨ht, fun p hp _ => .inl ?_⟩
        rw [← hdict]
        exact List.mem_map_of_mem (f := Prod.fst) hp
      · exact h.leave hown hstep
  · cases hstep

theorem Consistent.stepClosedOne (h : s.Consistent) {c : ConversationId} {result : CloseResult}
    (hstep : s.step (.closedOne t c result) = some s') : s'.Consistent := by
  unfold World.step at hstep
  dsimp only at hstep
  split at hstep
  · rename_i hj
    split at hstep
    · split at hstep
      · rename_i hx
        cases hstep
        exact h.closedOne hj hx
      · cases hstep
    · cases hstep
  · cases hstep

theorem Consistent.stepSettle (h : s.Consistent) (hstep : s.step (.settle t) = some s') : s'.Consistent := by
  unfold World.step at hstep
  dsimp only at hstep
  split at hstep
  · rename_i failed hj
    rw [← leave_setJob _ t (some (.exclusive .pause .entered))] at hstep
    exact (h.settles (h.job t _ hj).1 hj (.inl rfl) s.records s.version).leave
      (closed_of_owned_none (owned_of_quiet (Function.update_self ..) trivial)) hstep
  · rename_i failed hj
    rw [← leave_setJob _ t (some (.exclusive .shutdown .entered))] at hstep
    refine (h.settles (h.job t _ hj).1 hj ?_ _ _).leave (closed_of_owned_none (owned_of_quiet (Function.update_self ..) trivial)) hstep
    split
    · exact .inr ⟨‹_›, rfl⟩
    · exact .inl rfl
  · cases hstep

theorem Consistent.stepCancelAll (h : s.Consistent) {kept : List ConversationId}
    (hstep : s.step (.cancelAll t kept) = some s') : s'.Consistent := by
  unfold World.step at hstep
  dsimp only at hstep
  split at hstep
  · rename_i todo failed hj
    have hclosed : { s with
        isOpen := fun x => s.isOpen x && !s.dict.any fun p => p.2 = x && p.1 ∈ todo && p.1 ∉ kept }.Consistent :=
      h.closes fun x hx => ((Bool.and_eq_true _ _).mp hx).1
    exact hclosed.leave (closed_of_owned_none (owned_of_job hj)) hstep
  · cases hstep

end Step

theorem Consistent.step {s s' : World} (h : s.Consistent) (a : Action) (hok : s.Allowed a) (hstep : s.step a = some s') :
    s'.Consistent := by
  cases a with
  | call t op c =>
    unfold World.step at hstep
    dsimp only at hstep
    split at hstep
    · obtain ⟨s₁, hmove, rfl⟩ := Option.map_eq_some_iff.1 hstep
      obtain ⟨g, hg, rfl⟩ := move_eq hmove
      exact h.waits hg nofun (.inr ⟨_, rfl, trivial⟩)
    · cases hstep
  | callExclusive t op =>
    obtain ⟨s₁, hmove, rfl⟩ := Option.map_eq_some_iff.1 hstep
    obtain ⟨g, hg, rfl⟩ := move_eq hmove
    exact h.waits hg nofun (.inr ⟨_, rfl, trivial⟩)
  | enter t => exact h.waits_same hstep nofun
  | take t => exact h.waits_same hstep nofun
  | takeExclusive t => exact h.waits_same hstep nofun
  | drained t => exact h.waits_same hstep nofun
  | giveUp t => exact h.giveUp hstep
  | decide t attach => exact h.stepDecide hstep
  | raises t => exact h.stepRaises hstep
  | create t => exact h.stepCreate hstep
  | opens t => exact h.stepOpens hstep
  | registers t => exact h.stepRegisters hstep
  | startFails t => exact h.stepStartFails hstep
  | aborted t result => exact h.stepAborted hok hstep
  | deleted t result => exact h.stepDeleted hok hstep
  | cancel t => exact h.stepCancel hok hstep
  | choose t idle => exact h.stepChoose hstep
  | evicted t result => exact h.stepEvicted hok hstep
  | closeAll t => exact h.stepCloseAll hstep
  | closedOne t c result => exact h.stepClosedOne hstep
  | settle t => exact h.stepSettle hstep
  | cancelAll t kept => exact h.stepCancelAll hstep

theorem consistent_initial (records : List ConversationId) : (initial records).Consistent where
  gate := Gate.consistent_initial
  keys := List.nodup_nil
  entry := nofun
  created := nofun
  kept := nofun
  job := nofun

/-- In every run in which what is dropped is closed, a conversation has one live
service, and the dict knows it; the sections exclude each other and can be
entered again. -/
theorem sound_of_reaches {records : List ConversationId} {s : World} (h : Reaches step Allowed (initial records) s) :
    s.Sound := by
  have hcons : s.Consistent := h.invariant (consistent_initial records) fun _ a _ hs hok ht => hs.step a hok ht
  exact hcons.sound

/-! ## Runs with and without a lost service -/

/-- A load that opens its service and gets to its registration. -/
def loadActions (t : TaskId) (c : ConversationId) : List Action :=
  [.call t .load c, .enter t, .take t, .decide t false, .create t, .opens t, .registers t]

/-- A start and a load; an eviction that waits for the load and keeps a third
task out; starts that fail before and behind `open`; a deletion that a credential
refuses; a pause; and two shutdowns, the first with a failure. -/
def mixedActions : List Action :=
  [.call 0 (.start true) 1, .enter 0, .take 0, .decide 0 false, .create 0, .opens 0, .registers 0,
    .call 1 .load 7, .enter 1, .take 1, .decide 1 false, .callExclusive 2 .evict, .takeExclusive 2, .call 3 .load 1,
    .create 1, .opens 1, .registers 1, .drained 2, .choose 2 [1], .evicted 2 (.raised false false),
    .enter 3, .take 3, .decide 3 false, .create 3, .startFails 3, .aborted 3 .done,
    .call 4 .fork 9, .enter 4, .take 4, .decide 4 false, .create 4, .opens 4, .startFails 4, .aborted 4 (.cancelled false),
    .call 5 (.delete 0) 7, .enter 5, .take 5, .decide 5 false, .deleted 5 (.raised true true),
    .callExclusive 6 .pause, .takeExclusive 6, .drained 6, .closeAll 6, .closedOne 6 7 .done, .settle 6] ++
    loadActions 7 7 ++ loadActions 8 1 ++
    [.callExclusive 9 .shutdown, .takeExclusive 9, .drained 9, .closeAll 9, .closedOne 9 1 (.raised true true),
      .closedOne 9 7 .done, .settle 9,
      .callExclusive 9 .shutdown, .takeExclusive 9, .drained 9, .closeAll 9, .closedOne 9 1 .done, .settle 9]

theorem sound_of_reaches_mixed :
    ∃ s, execAllowed step Allowed (initial [7]) mixedActions = some s ∧ s.Sound ∧ s.nextService = 6 ∧ s.eventServices = none := by
  have hrun : (execAllowed step Allowed (initial [7]) mixedActions).map (fun s => (s.nextService, s.eventServices)) =
      some (6, none) := by decide +kernel
  obtain ⟨s, hs, hval⟩ := Option.map_eq_some_iff.1 hrun
  simp only [Prod.mk.injEq] at hval
  exact ⟨s, hs, sound_of_reaches (reaches_of_execAllowed .init hs), hval⟩

/-- An eviction drops a service whose close a credential refuses, and the next
access opens a second one. -/
theorem two_services_after_eviction : ¬ ∀ s, Reaches step (fun _ _ => True) (initial [7]) s → s.Sound := by
  intro hall
  have hrun : (exec step (initial [7])
      (loadActions 0 7 ++
        [.callExclusive 1 .evict, .takeExclusive 1, .drained 1, .choose 1 [7], .evicted 1 (.raised true true)] ++
        loadActions 2 7)).map (fun s => (s.isOpen 0, s.isOpen 1, s.idOf 0, s.idOf 1)) = some (true, true, 7, 7) := by
    decide +kernel
  obtain ⟨s, hs, hval⟩ := Option.map_eq_some_iff.1 hrun
  simp only [Prod.mk.injEq] at hval
  obtain ⟨hfirst, hsecond, hid, hid'⟩ := hval
  have hsame := (hall s (reaches_of_exec .init hs)).oneLive 0 1 hfirst hsecond (by rw [hid, hid'])
  exact absurd hsame (by decide)

end World

end AgentSdk.ConversationService
