import AgentSdk.Confirmation
import AgentSdk.LastUserMessage
/-!
# Run requests

Messages with `run=True` and the runs that answer them. A request that finds a
run at work leaves a flag behind. The task of that run reads the flag when it
is done, then looks at the status, then asks for another run; messages and
stops come in between.
-/

namespace AgentSdk.RunRequests
open Lib ConversationState LocalConversation Agent EventService

/-- A finished task that has read, and cleared, the rerun flag. -/
structure Tail where
  rerunRequested : Bool
  rerunGeneration : Nat
deriving DecidableEq, Repr

/-- The service with the ends of its tasks step by step; `reruns` are those
about to ask for another run. Kept for the statements only: the messages with
`run=True` since which no run has started, and those since which neither a run
nor a step has. An explicit stop after a message takes it off both. -/
structure World where
  service : EventService.World
  closing : Bool := false
  tails : List Tail := []
  reruns : Nat := 0
  unstarted : List EventID := []
  unread : List EventID := []

inductive Op where
  | service (op : EventService.Op)
  | readFlag
  | checkStatus (tail : Tail)
  | rerun
  | close

/-- The message that asks for a run. A stop while it is stored already applies to it. -/
def accepted (w : EventService.World) : EventService.Op → Option EventID
  | .sendMessage m (some generation) => if generation = w.explicitInterruptGeneration then some m.id.id else none
  | _ => none

def isStop : EventService.Op → Bool
  | .stopRequest => true
  | _ => false

/-- The agent begins a step, with everything that is stored. -/
def beginsStep (w : EventService.World) : EventService.Op → Bool
  | .iterate env =>
    match w.run with
    | some ⟨_, .iterating _⟩ =>
      match startRound env w.session with
      | .ok (.step _) => true
      | _ => false
    | _ => false
  | _ => false

namespace World

def init (native : Bool) (maxIterationPerRun : Nat) (s : Session) : World :=
  { service := .init native maxIterationPerRun s }

/-- Everything but the ends of the tasks. -/
def serve (w : World) (op : EventService.Op) : Option World :=
  (w.service.step op).map fun service =>
    let served := isStop op || (w.service.run.isNone && service.run.isSome)
    let message := (accepted w.service op).toList
    { w with
      service
      unstarted := (if served then [] else w.unstarted) ++ message
      unread := (if served || beginsStep w.service op then [] else w.unread) ++ message }

/-- The task is no longer the current one, its last state is published, and it
takes the flag with the generation of this moment. -/
def readFlag (w : World) : Option World :=
  if w.service.rearms = 0 then none
  else
    some { w with
      service := { w.service with rearms := w.service.rearms - 1, rerunRequested := false }
      tails := ⟨w.service.rerunRequested, w.service.explicitInterruptGeneration⟩ :: w.tails }

/-- `should_restart`. -/
def checkStatus (w : World) (tail : Tail) : Option World :=
  if tail ∉ w.tails then none
  else
    let shouldRestart := tail.rerunRequested ∧ w.service.explicitInterruptGeneration = tail.rerunGeneration ∧
      w.service.session.state.executionStatus = .idle
    some { w with tails := w.tails.erase tail, reruns := if shouldRestart then w.reruns + 1 else w.reruns }

/-- Refused, the request is left to the task that is at work now. -/
def rerun (w : World) : Option World :=
  if w.reruns = 0 then none
  else
    match w.service.startRun [] with
    | some service => some { w with service, reruns := w.reruns - 1, unstarted := [], unread := [] }
    | none => some { w with service := { w.service with rerunRequested := true }, reruns := w.reruns - 1 }

/-- `close`, up to where it refuses everything else. -/
def close (w : World) : World := { w with service := w.service.stopRequest, closing := true }

def step (w : World) (op : Op) : Option World :=
  if w.closing then none
  else
    match op with
    | .service .rearm => none
    | .service op => w.serve op
    | .readFlag => w.readFlag
    | .checkStatus tail => w.checkStatus tail
    | .rerun => w.rerun
    | .close => some w.close

/-- No task, and no request on its way to one. -/
structure Quiescent (w : World) : Prop where
  open' : w.closing = false
  run : w.service.run = none
  requests : w.service.requests = []
  rearms : w.service.rearms = 0
  tails : w.tails = []
  reruns : w.reruns = 0

end World

/-- A task that still holds a request finds the conversation idle, or finished
with no other run at work. -/
def Op.Allowed (w : World) : Op → Prop
  | .checkStatus tail =>
    tail.rerunRequested = true → tail.rerunGeneration = w.service.explicitInterruptGeneration →
      w.service.session.state.executionStatus = .idle ∨
        w.service.session.state.executionStatus = .finished ∧ w.service.run.isNone
  | _ => True

instance Op.decidableAllowed (w : World) (op : Op) : Decidable (op.Allowed w) := by
  cases op <;> unfold Op.Allowed <;> infer_instance

/-! ## The status -/

section Status
variable {s s' : Session}

theorem onEvent_status {e : Event} (h : s.onEvent e = .ok s') : s'.state.executionStatus = s.state.executionStatus := by
  obtain ⟨state, happ, h⟩ := bind_ok h
  have hstatus := (appendEvent_fields happ).2
  dsimp only at h
  split at h
  · cases h
    split
    · unfold Session.setLastUserMessageId
      split
      · exact hstatus
      · rw [(notify_fields _ _ _).2]
        exact hstatus
    · exact hstatus
  · cases h
    exact hstatus

theorem onEvents_status {es : List Event} (h : s.onEvents es = .ok s') :
    s'.state.executionStatus = s.state.executionStatus := by
  induction es generalizing s with
  | nil =>
    cases h
    rfl
  | cons e es ih =>
    obtain ⟨t, ht, h⟩ := bind_ok h
    rw [ih h, onEvent_status ht]

theorem blockMessage_status (s : Session) (id : EventID) (reason : String) :
    (s.blockMessage id reason).state.executionStatus = s.state.executionStatus := by
  unfold Session.blockMessage
  split
  · rfl
  · exact (notify_fields _ _ _).2

theorem emitUserMessage_status {m : MessageRun} (h : emitUserMessage m s = .ok s') :
    s'.state.executionStatus = s.state.executionStatus := by
  obtain ⟨t, ht, h⟩ := bind_ok h
  have hooks := onEvents_status ht
  cases hb : m.blockReason with
  | none =>
    rw [hb] at h
    rw [onEvent_status h, hooks]
  | some reason =>
    rw [hb] at h
    rw [onEvent_status h, ← hooks]
    exact blockMessage_status t _ _

theorem answerAll_status {answer : EventID → ActionEvent → Event} {actions : List Event}
    (h : answerAll answer actions s = .ok s') : s'.state.executionStatus = s.state.executionStatus := by
  induction actions generalizing s with
  | nil =>
    cases h
    rfl
  | cons e es ih =>
    unfold answerAll at h
    cases ha : e.action? with
    | none =>
      rw [ha] at h
      exact ih h
    | some a =>
      rw [ha] at h
      obtain ⟨t, ht, h⟩ := bind_ok h
      rw [ih h, onEvent_status ht]

theorem sendMessage_status {m : MessageRun} (h : sendMessage m s = .ok s') :
    s'.state.executionStatus ≠ .finished ∧
      (s'.state.executionStatus = .running → s.state.executionStatus = .running) := by
  unfold sendMessage at h
  split at h
  · rw [emitUserMessage_status h, setExecutionStatus_status]
    exact ⟨nofun, nofun⟩
  · rename_i hopen
    rw [not_or] at hopen
    rw [emitUserMessage_status h]
    exact ⟨hopen.1, id⟩

theorem rejectPendingActions_status {ids : EventID → NewId} {reason : String}
    (h : rejectPendingActions ids reason s = .ok s') :
    s'.state.executionStatus = .idle ∨ s'.state.executionStatus = s.state.executionStatus := by
  obtain ⟨branch, -, h⟩ := bind_ok h
  change answerAll _ _ (if _ then _ else s) = _ at h
  split at h
  · rw [answerAll_status h, setExecutionStatus_status]
    exact .inl rfl
  · exact .inr (answerAll_status h)

theorem pause_status {new : NewId} (h : pause new s = .ok s') :
    s'.state.executionStatus = .paused ∨ s'.state.executionStatus = s.state.executionStatus := by
  unfold pause at h
  split at h
  · rw [onEvent_status h, setExecutionStatus_status]
    exact .inl rfl
  · cases h
    exact .inr rfl

theorem interrupted_status {ids : EventID → NewId} {new : NewId} (h : interrupted ids new s = .ok s') :
    s'.state.executionStatus = .paused := by
  obtain ⟨t, -, h⟩ := bind_ok h
  rw [onEvent_status h, setExecutionStatus_status]

theorem fail_status {new : NewId} {code : String} (h : fail new code s = .ok s') :
    s'.state.executionStatus = .error := by
  rw [onEvent_status h, setExecutionStatus_status]

theorem startRound_status {env : RoundEnv} {r : RoundStart} (h : startRound env s = .ok r) :
    match r with
    | .stop t => t = s ∧ s.state.executionStatus ≠ .running
    | .again t => t.state.executionStatus ≠ .finished
    | .step _ => True := by
  unfold startRound at h
  split at h
  · rename_i hstatus
    cases h
    exact ⟨rfl, by simp [hstatus]⟩
  · rename_i hstatus
    cases h
    exact ⟨rfl, by simp [hstatus]⟩
  · rename_i hstatus
    split at h
    · obtain ⟨t, ht, h⟩ := bind_ok h
      cases h
      dsimp only
      rw [setExecutionStatus_status]
      nofun
    · cases h
      exact ⟨rfl, by simp [hstatus]⟩
  · obtain ⟨⟨t, stuck⟩, ht, h⟩ := bind_ok h
    dsimp only at h
    split at h
    · rename_i hstuck
      cases h
      unfold checkStuckOrNudge at ht
      split at ht
      · cases ht
        cases hstuck
      · obtain ⟨u, -, ht⟩ := bind_ok ht
        cases ht
        cases hstuck
      · cases ht
        dsimp only
        rw [setExecutionStatus_status]
        nofun
    · cases h
      trivial

/-- The limits end a round with an error, or leave the status as it is. -/
theorem checkLimits_status {env : RoundEnv} {max n : Nat} {finished again : Bool}
    (h : checkLimits env max n finished s = .ok (s', again)) :
    (s'.state.executionStatus = s.state.executionStatus ∨ s'.state.executionStatus = .error) ∧
      (again = false → s'.state.executionStatus ≠ .running) := by
  unfold checkLimits at h
  split at h
  · rename_i hwait
    cases h
    exact ⟨.inl rfl, fun _ => by simp [hwait]⟩
  · split at h
    · obtain ⟨t, ht, h⟩ := bind_ok h
      cases h
      rw [fail_status ht]
      exact ⟨.inr rfl, nofun⟩
    · split at h
      · split at h
        · rename_i hfinished
          cases h
          exact ⟨.inl rfl, fun _ => by simp [hfinished]⟩
        · obtain ⟨t, ht, h⟩ := bind_ok h
          cases h
          rw [fail_status ht]
          exact ⟨.inr rfl, nofun⟩
      · cases h
        exact ⟨.inl rfl, nofun⟩

/-- A round is finished only when no message came in during the step. -/
theorem finishRound_status {env : RoundEnv} {max n : Nat} {last : Option EventID} {again : Bool}
    (h : finishRound env max n last s = .ok (s', again)) :
    (s'.state.executionStatus = .finished → s.state.lastUserMessageId = last) ∧
      (again = false → s'.state.executionStatus ≠ .running) := by
  -- What follows the rejection, if there was one.
  have hrest : ∀ t : Session,
      (if max ≤ n then .ok (t.setExecutionStatus .idle, false)
        else checkLimits env max n (s.state.executionStatus = .finished) (t.setExecutionStatus .running)) =
          .ok (s', again) →
      s'.state.executionStatus ≠ .finished ∧ (again = false → s'.state.executionStatus ≠ .running) := by
    intro t h
    split at h
    · cases h
      rw [setExecutionStatus_status]
      exact ⟨nofun, fun _ => nofun⟩
    · obtain ⟨hstatus, hagain⟩ := checkLimits_status h
      rw [setExecutionStatus_status] at hstatus
      refine ⟨?_, hagain⟩
      rcases hstatus with hstatus | hstatus <;> rw [hstatus] <;> nofun
  unfold finishRound at h
  dsimp only at h
  split at h
  · have hspec : s'.state.executionStatus ≠ .finished ∧ (again = false → s'.state.executionStatus ≠ .running) := by
      split at h
      · obtain ⟨t, -, h⟩ := bind_ok h
        exact hrest t h
      · exact hrest s h
    exact ⟨fun hfinished => absurd hfinished hspec.1, hspec.2⟩
  · rename_i hnone
    obtain ⟨hstatus, hagain⟩ := checkLimits_status h
    refine ⟨fun hfinished => ?_, hagain⟩
    rcases hstatus with hstatus | hstatus
    · by_contra hne
      exact hnone ⟨hne, .inl (hstatus ▸ hfinished)⟩
    · rw [hfinished] at hstatus
      cases hstatus

end Status

/-! ## One operation of the service -/

/-- What holds of the run. Where no step is at work a conversation is finished
only with every message read. During a step a message that came in shows as
another last user message. -/
def Stage (w : EventService.World) (unread : List EventID) : Prop :=
  match w.run.map Run.phase with
  | none | some (.starting _) | some .ending =>
    w.session.state.executionStatus ≠ .running ∧ (w.session.state.executionStatus = .finished → unread = [])
  | some (.iterating _) => w.session.state.executionStatus = .finished → unread = []
  | some (.sampling _ last _) | some (.analyzing _ last _ _) =>
    w.native = true ∧ (∀ id ∈ last, id ∈ w.session.state.events.ids) ∧
      (unread ≠ [] → w.session.state.lastUserMessageId ≠ last)

/-- The requests are as they were. -/
structure SameRequests (w w' : EventService.World) : Prop where
  generation : w'.explicitInterruptGeneration = w.explicitInterruptGeneration
  requests : w'.requests = w.requests
  flag : w'.rerunRequested = w.rerunRequested
  rearms : w'.rearms = w.rearms
  run : w'.run.isSome = w.run.isSome

/-- The run, or the session, has moved on. -/
structure Moved (w w' : EventService.World) (unread : List EventID) : Prop extends SameRequests w w' where
  knowsLast : w'.session.state.KnowsLast
  stage : Stage w' unread

section Service
variable {w w' : EventService.World} {s : Session} {unread : List EventID}

theorem stage_idle (hrun : w.run = none) (hstatus : w.session.state.executionStatus ≠ .running)
    (hfinished : w.session.state.executionStatus = .finished → unread = []) : Stage w unread := by
  unfold Stage
  rw [hrun]
  exact ⟨hstatus, hfinished⟩

/-- Without a run, or with one that begins or ends, nothing is running. -/
theorem Stage.idle (h : Stage w unread)
    (hrun : w.run.map Run.phase = none ∨ w.run.map Run.phase = some .ending ∨
      ∃ generation, w.run.map Run.phase = some (.starting generation)) :
    w.session.state.executionStatus ≠ .running ∧ (w.session.state.executionStatus = .finished → unread = []) := by
  unfold Stage at h
  rcases hrun with hrun | hrun | ⟨_, hrun⟩ <;> rw [hrun] at h <;> exact h

theorem Stage.nil (h : Stage w unread) : Stage w [] := by
  unfold Stage at h ⊢
  split at h
  · exact ⟨h.1, fun _ => rfl⟩
  · exact ⟨h.1, fun _ => rfl⟩
  · exact ⟨h.1, fun _ => rfl⟩
  · exact fun _ => rfl
  · exact ⟨h.1, h.2.1, fun hne => absurd rfl hne⟩
  · exact ⟨h.1, h.2.1, fun hne => absurd rfl hne⟩

/-- The session moves on and the run stays where it is. -/
theorem Moved.move (hk : w.session.state.KnowsLast) (h : Stage w unread) {how : EventID → Settlement}
    (ht : Tracks w.session.state s.state)
    (hrunning : s.state.executionStatus = .running → w.session.state.executionStatus = .running)
    (hfinished : s.state.executionStatus = .finished → w.session.state.executionStatus = .finished) :
    Moved w (w.move how s) unread := by
  refine ⟨⟨rfl, rfl, rfl, rfl, rfl⟩, ht.knowsLast hk, ?_⟩
  have hend : (w.session.state.executionStatus ≠ .running ∧
        (w.session.state.executionStatus = .finished → unread = [])) →
      s.state.executionStatus ≠ .running ∧ (s.state.executionStatus = .finished → unread = []) :=
    fun hs => ⟨fun hr => hs.1 (hrunning hr), fun hf => hs.2 (hfinished hf)⟩
  have hduring : ∀ {last : Option EventID}, (w.native = true ∧ (∀ id ∈ last, id ∈ w.session.state.events.ids) ∧
        (unread ≠ [] → w.session.state.lastUserMessageId ≠ last)) →
      w.native = true ∧ (∀ id ∈ last, id ∈ s.state.events.ids) ∧ (unread ≠ [] → s.state.lastUserMessageId ≠ last) :=
    fun hs => ⟨hs.1, fun id hid => ht.ids (hs.2.1 id hid), fun hne => ht.ne_of_ne hs.2.1 (hs.2.2 hne)⟩
  have hrun : (w.move how s).run = w.run := rfl
  unfold Stage at h ⊢
  rw [hrun]
  split at h
  · exact hend h
  · exact hend h
  · exact hend h
  · exact fun hf => h (hfinished hf)
  · exact hduring h
  · exact hduring h

/-- The run ends. -/
theorem Moved.ending (hsame : SameRequests w w') (hphase : w'.run.map Run.phase = some .ending)
    (hk : w'.session.state.KnowsLast) (hstatus : w'.session.state.executionStatus ≠ .running)
    (hfinished : w'.session.state.executionStatus = .finished → unread = []) : Moved w w' unread := by
  refine ⟨hsame, hk, ?_⟩
  unfold Stage
  rw [hphase]
  exact ⟨hstatus, hfinished⟩

theorem startRun_ok {approved : List EventID} (hw : w.startRun approved = some w') :
    w.run = none ∧ w'.run.isSome = true ∧ w'.session = w.session ∧ Stage w' [] := by
  unfold EventService.World.startRun at hw
  split at hw
  · cases hw
  · rename_i hfree
    simp only [not_or, Bool.not_eq_true, Option.isSome_eq_false_iff, Option.isNone_iff_eq_none] at hfree
    cases hw
    exact ⟨hfree.1, rfl, rfl, hfree.2, fun _ => rfl⟩

/-- Only a run refuses another one. -/
theorem startRun_none {approved : List EventID} (h : Stage w unread) (hw : w.startRun approved = none) :
    w.run.isSome = true := by
  unfold EventService.World.startRun at hw
  split at hw
  · rename_i hbusy
    rcases hbusy with hrun | hrunning
    · exact hrun
    · by_contra hnone
      rw [Bool.not_eq_true, Option.isSome_eq_false_iff, Option.isNone_iff_eq_none] at hnone
      exact (h.idle (.inl (by rw [hnone]; rfl))).1 hrunning
  · cases hw

theorem start_moved (hk : w.session.state.KnowsLast) (h : Stage w unread) (hw : w.start = some w') :
    Moved w w' unread := by
  unfold EventService.World.start at hw
  split at hw
  · rename_i approved generation hrun
    have hphase : w.run.map Run.phase = some (.starting generation) := by rw [hrun]; rfl
    obtain ⟨hstatus, hfinished⟩ := h.idle (.inr (.inr ⟨generation, hphase⟩))
    have hsome : w.run.isSome = true := by rw [hrun]; rfl
    split at hw
    · cases hw
      exact .ending ⟨rfl, rfl, rfl, rfl, hsome.symm⟩ rfl hk hstatus hfinished
    · cases hw
      refine ⟨⟨rfl, rfl, rfl, rfl, hsome.symm⟩, ?_, ?_⟩
      · dsimp only [EventService.World.move, EventService.World.enter]
        split <;> first
          | exact (tracks_setExecutionStatus w.session .running).knowsLast hk
          | exact hk
      · change (Session.state _).executionStatus = _ → _
        dsimp only [EventService.World.move, EventService.World.enter]
        split
        case h_5 => exact hfinished
        all_goals
          rw [setExecutionStatus_status]
          nofun
  · cases hw

theorem failRun_moved {approved : List EventID} {new : NewId} {code : String} (hk : w.session.state.KnowsLast)
    (hrun : w.run.isSome = true) (hw : w.failRun approved new code = some w') : Moved w w' unread := by
  obtain ⟨t, ht, rfl⟩ := Option.map_eq_some_iff.1 hw
  have ht := toOption_eq_some ht
  have hstatus := fail_status ht
  refine .ending ⟨rfl, rfl, rfl, rfl, hrun.symm⟩ rfl ((fail_tracks ht).knowsLast hk) ?_ ?_
  · change t.state.executionStatus ≠ _
    rw [hstatus]
    nofun
  · change t.state.executionStatus = _ → _
    rw [hstatus]
    nofun

theorem stepFailed_moved {approved : List EventID} {env : RoundEnv} {e : StepError} (hk : w.session.state.KnowsLast)
    (hrun : w.run.isSome = true) (hw : w.stepFailed approved env e = some w') : Moved w w' unread := by
  cases e with
  | value _ => cases hw
  | malformedHistory => exact failRun_moved hk hrun hw
  | contextWindowExceed => exact failRun_moved hk hrun hw

/-- A round ends after a step from the state `s`. -/
theorem endRound_moved {approved : List EventID} {n : Nat} {last : Option EventID} {env : RoundEnv}
    (hk : s.state.KnowsLast) (hrun : w.run.isSome = true)
    (hduring : unread ≠ [] → w.native = true ∧ s.state.lastUserMessageId ≠ last)
    (hw : w.endRound approved n last env s = some w') : Moved w w' unread := by
  obtain ⟨⟨t, again⟩, hresult, rfl⟩ := Option.map_eq_some_iff.1 hw
  have hresult := toOption_eq_some hresult
  have hnative : ∀ u : EventService.World, (u.move (World.executed approved) s).ask.native = u.native := by
    intro u
    unfold EventService.World.ask
    split <;> rfl
  have hspec : t.state.KnowsLast ∧ (t.state.executionStatus = .finished → unread = []) ∧
      (again = false → t.state.executionStatus ≠ .running) := by
    rw [hnative] at hresult
    split at hresult
    · obtain ⟨hfinished, hagain⟩ := finishRound_status hresult
      refine ⟨(finishRound_tracks hresult).knowsLast hk, fun hf => ?_, hagain⟩
      by_contra hne
      exact (hduring hne).2 (hfinished hf)
    · rename_i hsync
      refine ⟨(checkLimits_tracks hresult).knowsLast hk, fun _ => ?_, (checkLimits_status hresult).2⟩
      by_contra hne
      exact hsync (hduring hne).1
  have hsame : ∀ approved phase, SameRequests w
      (((w.move (World.executed approved) s).ask.move (fun _ => .rejected superseded) t).enter approved phase) := by
    intro approved phase
    unfold EventService.World.ask
    split <;> exact ⟨rfl, rfl, rfl, rfl, hrun.symm⟩
  obtain ⟨hknows, hfinished, hagain⟩ := hspec
  refine ⟨hsame _ _, hknows, ?_⟩
  cases again with
  | true => exact hfinished
  | false => exact ⟨hagain rfl, hfinished⟩

theorem iterate_moved {env : RoundEnv} (hk : w.session.state.KnowsLast) (h : Stage w unread)
    (hw : w.iterate env = some w') : Moved w w' (if beginsStep w (.iterate env) then [] else unread) := by
  unfold EventService.World.iterate at hw
  split at hw
  · rename_i approved n hrun
    have hphase : w.run.map Run.phase = some (.iterating n) := by rw [hrun]; rfl
    have hsome : w.run.isSome = true := by rw [hrun]; rfl
    unfold Stage at h
    rw [hphase] at h
    cases hstart : startRound env w.session with
    | error e =>
      rw [hstart] at hw
      cases hw
    | ok r =>
      rw [hstart] at hw
      have hstatus := startRound_status hstart
      have hknows := (startRound_tracks hstart).knowsLast hk
      cases r with
      | stop s =>
        have hnone : beginsStep w (.iterate env) = false := by simp [beginsStep, hrun, hstart]
        rw [hnone]
        cases hw
        obtain ⟨rfl, hstatus⟩ := hstatus
        exact .ending ⟨rfl, rfl, rfl, rfl, hsome.symm⟩ rfl hknows hstatus h
      | again s =>
        have hnone : beginsStep w (.iterate env) = false := by simp [beginsStep, hrun, hstart]
        rw [hnone]
        cases hw
        exact ⟨⟨rfl, rfl, rfl, rfl, hsome.symm⟩, hknows, fun hf => absurd hf hstatus⟩
      | step s =>
        -- Whatever was unread is read by this step.
        have hbegins : beginsStep w (.iterate env) = true := by simp [beginsStep, hrun, hstart]
        rw [hbegins, if_pos rfl]
        have hlift : ∀ {v}, Moved (w.move (fun _ => .lost) s) v [] → Moved w v [] := by
          rintro v ⟨⟨h₁, h₂, h₃, h₄, h₅⟩, hv, hstage⟩
          exact ⟨⟨h₁, h₂, h₃, h₄, h₅⟩, hv, hstage⟩
        dsimp only [RoundStart.session] at hknows hw ⊢
        refine hlift ?_
        split at hw
        · rename_i hnative
          cases hbegin : astepBegin env.step s with
          | error e =>
            rw [hbegin] at hw
            exact stepFailed_moved hknows hsome hw
          | ok half =>
            have htracks := astepBegin_tracks hbegin
            rw [hbegin] at hw
            cases half with
            | done t => exact endRound_moved (htracks.knowsLast hknows) hsome (fun hne => absurd rfl hne) hw
            | sampling t =>
              cases hw
              refine ⟨⟨rfl, rfl, rfl, rfl, hsome.symm⟩, htracks.knowsLast hknows, hnative, ?_, fun hne => absurd rfl hne⟩
              exact fun id hid => htracks.ids (hknows id hid)
        · cases hstep : Agent.step env.step s with
          | error e =>
            rw [hstep] at hw
            exact stepFailed_moved hknows hsome hw
          | ok t =>
            rw [hstep] at hw
            exact endRound_moved ((step_tracks hstep).knowsLast hknows) hsome (fun hne => absurd rfl hne) hw
  · cases hw

theorem Stage.during (h : Stage w unread) {approved : List EventID} {n : Nat} {last : Option EventID} {env : RoundEnv}
    (hrun : w.run = some ⟨approved, .sampling n last env⟩ ∨ ∃ actions, w.run = some ⟨approved, .analyzing n last env actions⟩) :
    w.run.isSome = true ∧ w.native = true ∧ (∀ id ∈ last, id ∈ w.session.state.events.ids) ∧
      (unread ≠ [] → w.session.state.lastUserMessageId ≠ last) := by
  unfold Stage at h
  rcases hrun with hrun | ⟨actions, hrun⟩ <;> rw [hrun] at h ⊢ <;> exact ⟨rfl, h⟩

theorem respond_moved (hk : w.session.state.KnowsLast) (h : Stage w unread) (hw : w.respond = some w') : Moved w w' unread := by
  unfold EventService.World.respond at hw
  split at hw
  · rename_i approved n last env hrun
    obtain ⟨hsome, hnative, hlast, hduring⟩ := h.during (.inl hrun)
    cases hrespond : astepRespond env.step w.session with
    | error e =>
      rw [hrespond] at hw
      exact stepFailed_moved hk hsome hw
    | ok q =>
      rw [hrespond] at hw
      have htracks := astepRespond_tracks hrespond
      cases q with
      | done t =>
        exact endRound_moved (htracks.knowsLast hk) hsome (fun hne => ⟨hnative, htracks.ne_of_ne hlast (hduring hne)⟩) hw
      | analyzing t actions =>
        cases hw
        refine ⟨⟨rfl, rfl, rfl, rfl, hsome.symm⟩, htracks.knowsLast hk, hnative, ?_, ?_⟩
        · exact fun id hid => htracks.ids (hlast id hid)
        · exact fun hne => htracks.ne_of_ne hlast (hduring hne)
  · cases hw

theorem analyzed_moved (hk : w.session.state.KnowsLast) (h : Stage w unread) (hw : w.analyzed = some w') : Moved w w' unread := by
  unfold EventService.World.analyzed at hw
  split at hw
  · rename_i approved n last env actions hrun
    obtain ⟨hsome, hnative, hlast, hduring⟩ := h.during (.inr ⟨actions, hrun⟩)
    obtain ⟨t, ht, hw⟩ := Option.bind_eq_some_iff.1 hw
    have htracks := decideToolCalls_tracks (toOption_eq_some ht)
    exact endRound_moved (htracks.knowsLast hk) hsome (fun hne => ⟨hnative, htracks.ne_of_ne hlast (hduring hne)⟩) hw
  · cases hw

theorem cancel_moved {ids : EventID → NewId} {new : NewId} (hk : w.session.state.KnowsLast)
    (hw : w.cancel ids new = some w') : Moved w w' unread := by
  unfold EventService.World.cancel at hw
  split at hw
  case h_3 => cases hw
  all_goals
    rename_i hrun
    obtain ⟨t, ht, rfl⟩ := Option.map_eq_some_iff.1 hw
    have ht := toOption_eq_some ht
    have hstatus := interrupted_status ht
    have hsome : w.run.isSome = true := by rw [hrun]; rfl
    refine .ending ⟨rfl, rfl, rfl, rfl, hsome.symm⟩ rfl ((interrupted_tracks ht).knowsLast hk) ?_ ?_
    · change t.state.executionStatus ≠ _
      rw [hstatus]
      nofun
    · change t.state.executionStatus = _ → _
      rw [hstatus]
      nofun

theorem raised_moved {new : NewId} {code : String} (hk : w.session.state.KnowsLast)
    (hw : w.raised new code = some w') : Moved w w' unread := by
  unfold EventService.World.raised at hw
  split at hw
  case h_4 => cases hw
  all_goals
    rename_i hrun
    exact failRun_moved hk (by rw [hrun]; rfl) hw

end Service

/-! ## The invariant -/

/-- Somebody will look after the messages that are unread. -/
def World.Pending (w : World) : Prop :=
  w.service.explicitInterruptGeneration ∈ w.service.requests ∨
    (w.service.rerunRequested = true ∧ (w.service.run.isSome = true ∨ w.service.rearms ≠ 0)) ∨
    (∃ tail ∈ w.tails, tail.rerunRequested = true ∧ tail.rerunGeneration = w.service.explicitInterruptGeneration) ∨
    w.reruns ≠ 0

structure Inv (w : World) : Prop where
  knowsLast : w.service.session.state.KnowsLast
  stage : Stage w.service w.unread
  pending : w.unread ≠ [] → w.Pending

section Steps
variable {w w' : World}

theorem Inv.unread_of_quiescent (h : Inv w) (hq : w.Quiescent) : w.unread = [] := by
  by_contra hne
  rcases h.pending hne with hin | ⟨-, hrun | hrearms⟩ | ⟨tail, htail, -⟩ | hreruns
  · rw [hq.requests] at hin
    cases hin
  · rw [hq.run] at hrun
    cases hrun
  · exact hrearms hq.rearms
  · rw [hq.tails] at htail
    cases htail
  · exact hreruns hq.reruns

/-- Operations that leave the requests alone. -/
theorem Inv.moved (h : Inv w) {op : EventService.Op} (hstop : isStop op = false) (haccepted : accepted w.service op = none)
    (hw : w.serve op = some w')
    (hm : ∀ {service}, w.service.step op = some service →
      Moved w.service service (if beginsStep w.service op then [] else w.unread)) : Inv w' := by
  obtain ⟨service, hservice, rfl⟩ := Option.map_eq_some_iff.1 hw
  obtain ⟨hsame, hknows, hstage⟩ := hm hservice
  have hnotStarted : (w.service.run.isNone && service.run.isSome) = false := by
    rw [hsame.run]
    cases w.service.run <;> rfl
  simp only [hstop, haccepted, hnotStarted, Bool.false_or, Option.toList_none, List.append_nil]
  refine ⟨hknows, hstage, fun hne => ?_⟩
  have hne : w.unread ≠ [] := by
    intro hnil
    simp [hnil] at hne
  have hp := h.pending hne
  unfold World.Pending at hp ⊢
  dsimp only
  rwa [hsame.generation, hsame.requests, hsame.flag, hsame.rearms, hsame.run]

/-- A run starts. -/
theorem Inv.started (h : Inv w) {op : EventService.Op} (hw : w.serve op = some w')
    (haccepted : accepted w.service op = none) (hrun : w.service.run = none)
    (hservice : ∀ {service}, w.service.step op = some service → service.run.isSome = true ∧
      service.session = w.service.session ∧ Stage service []) : Inv w' := by
  obtain ⟨service, hstep, rfl⟩ := Option.map_eq_some_iff.1 hw
  obtain ⟨hsome, hsession, hstage⟩ := hservice hstep
  simp only [hrun, hsome, haccepted, Option.isNone_none, Bool.and_true, Bool.or_true, Bool.true_or, if_true,
    Option.toList_none, List.append_nil]
  refine ⟨?_, hstage, fun hne => absurd rfl hne⟩
  dsimp only
  rw [hsession]
  exact h.knowsLast

/-- A message is stored. The conversation is not finished, and a step that is at work will notice. -/
theorem stage_sendMessage {service : EventService.World} {s : Session} {m : MessageRun} {unread : List EventID}
    (h : Stage service unread) (hs : sendMessage m service.session = .ok s) (how : EventID → Settlement)
    (requests : List Nat) (unread' : List EventID) : Stage { service.move how s with requests } unread' := by
  obtain ⟨htracks, hnew, hlast⟩ := sendMessage_last hs
  obtain ⟨hfinished, hrunning⟩ := sendMessage_status hs
  have hduring : ∀ {last : Option EventID}, (∀ id ∈ last, id ∈ service.session.state.events.ids) →
      (∀ id ∈ last, id ∈ s.state.events.ids) ∧ (unread' ≠ [] → s.state.lastUserMessageId ≠ last) := by
    intro last hin
    refine ⟨fun id hid => htracks.ids (hin id hid), fun _ heq => ?_⟩
    exact hnew (hin _ (heq ▸ hlast))
  have hrun : ({ service.move how s with requests } : EventService.World).run = service.run := rfl
  unfold Stage at h ⊢
  rw [hrun]
  split at h
  · exact ⟨fun hr => h.1 (hrunning hr), fun hf => absurd hf hfinished⟩
  · exact ⟨fun hr => h.1 (hrunning hr), fun hf => absurd hf hfinished⟩
  · exact ⟨fun hr => h.1 (hrunning hr), fun hf => absurd hf hfinished⟩
  · exact fun hf => absurd hf hfinished
  · exact ⟨h.1, hduring h.2.1⟩
  · exact ⟨h.1, hduring h.2.1⟩

theorem Inv.step_sendMessage (h : Inv w) {m : MessageRun} {run : Option Nat}
    (hw : w.serve (.sendMessage m run) = some w') : Inv w' := by
  obtain ⟨service, hservice, rfl⟩ := Option.map_eq_some_iff.1 hw
  dsimp only [EventService.World.step, EventService.World.sendMessage] at hservice
  split at hservice
  · cases hservice
  · obtain ⟨s, hs, rfl⟩ := Option.map_eq_some_iff.1 hservice
    have hs := toOption_eq_some hs
    have hnotStarted : (w.service.run.isNone && (w.service.move (fun _ => Settlement.lost) s).run.isSome) = false := by
      change (w.service.run.isNone && w.service.run.isSome) = false
      cases w.service.run <;> rfl
    refine ⟨(sendMessage_last hs).1.knowsLast h.knowsLast, stage_sendMessage h.stage hs _ _ _, fun hne => ?_⟩
    simp only [isStop, beginsStep, hnotStarted, Bool.false_or, Bool.false_eq_true, if_false] at hne
    cases hm : accepted w.service (.sendMessage m run) with
    | some id =>
      have hrun : run = some w.service.explicitInterruptGeneration := by
        cases run with
        | none => cases hm
        | some generation =>
          simp only [accepted] at hm
          split at hm
          · rw [‹generation = _›]
          · cases hm
      refine .inl ?_
      dsimp only [EventService.World.move]
      rw [hrun]
      simp
    | none =>
      rw [hm, Option.toList_none, List.append_nil] at hne
      rcases h.pending hne with hin | hp
      · exact .inl (List.mem_append_left _ hin)
      · exact .inr hp

theorem Inv.step_messageRun (h : Inv w) {generation : Nat} (hw : w.serve (.messageRun generation) = some w') :
    Inv w' := by
  obtain ⟨service, hservice, rfl⟩ := Option.map_eq_some_iff.1 hw
  dsimp only [EventService.World.step, EventService.World.messageRun] at hservice
  split at hservice
  · cases hservice
  · split at hservice
    · -- Stopped meanwhile: what is unread waits for another request.
      rename_i hstopped
      cases hservice
      have hnotStarted : (w.service.run.isNone && w.service.run.isSome) = false := by cases w.service.run <;> rfl
      simp only [isStop, beginsStep, accepted, hnotStarted, Bool.false_or, Bool.false_eq_true, if_false,
        Option.toList_none, List.append_nil]
      refine ⟨h.knowsLast, h.stage, fun hne => ?_⟩
      rcases h.pending hne with hin | hp
      · exact .inl ((List.mem_erase_of_ne hstopped).2 hin)
      · exact .inr hp
    · cases hservice
      have hstage : Stage { w.service with requests := w.service.requests.erase generation } w.unread := h.stage
      cases hstart : EventService.World.startRun { w.service with requests := w.service.requests.erase generation } [] with
      | some service =>
        obtain ⟨hnone, hsome, hsession, hstage'⟩ := startRun_ok hstart
        simp only [Option.getD_some, isStop, beginsStep, accepted, show w.service.run = none from hnone, hsome,
          Option.isNone_none, Bool.and_true, Bool.or_true, Bool.true_or, if_true, Option.toList_none, List.append_nil]
        refine ⟨?_, hstage', fun hne => absurd rfl hne⟩
        dsimp only
        rw [hsession]
        exact h.knowsLast
      | none =>
        have hsome := startRun_none hstage hstart
        change w.service.run.isSome = true at hsome
        refine ⟨h.knowsLast, ?_, fun _ => .inr (.inl ⟨rfl, .inl hsome⟩)⟩
        simp only [Option.getD_none, isStop, beginsStep, accepted, Option.isNone_eq_false_iff.2 hsome, Bool.false_and,
          Bool.false_or, Bool.false_eq_true, if_false, Option.toList_none, List.append_nil]
        exact h.stage

theorem Inv.step_finish (h : Inv w) (hw : w.serve .finish = some w') : Inv w' := by
  obtain ⟨service, hservice, rfl⟩ := Option.map_eq_some_iff.1 hw
  dsimp only [EventService.World.step, EventService.World.finish] at hservice
  split at hservice
  · rename_i approved hrun
    cases hservice
    have hphase : w.service.run.map Run.phase = some .ending := by rw [hrun]; rfl
    obtain ⟨hstatus, hfinished⟩ := h.stage.idle (.inr (.inl hphase))
    simp only [isStop, beginsStep, accepted, Option.isSome_none, Bool.and_false, Bool.or_false, Bool.false_eq_true,
      if_false, Option.toList_none, List.append_nil]
    refine ⟨h.knowsLast, stage_idle rfl hstatus hfinished, fun hne => ?_⟩
    rcases h.pending hne with hin | ⟨hflag, -⟩ | hp
    · exact .inl hin
    · exact .inr (.inl ⟨hflag, .inr (Nat.succ_ne_zero _)⟩)
    · exact .inr (.inr hp)
  · cases hservice

theorem Inv.step_stopRequest (h : Inv w) (hw : w.serve .stopRequest = some w') : Inv w' := by
  obtain ⟨service, hservice, rfl⟩ := Option.map_eq_some_iff.1 hw
  cases hservice
  exact ⟨h.knowsLast, h.stage.nil, fun hne => absurd rfl hne⟩

theorem Inv.serve (h : Inv w) {op : EventService.Op} (hop : op ≠ .rearm) (hw : w.serve op = some w') : Inv w' := by
  cases op with
  | sendMessage m run => exact h.step_sendMessage hw
  | messageRun generation => exact h.step_messageRun hw
  | requestRun =>
    obtain ⟨service, hservice, -⟩ := Option.map_eq_some_iff.1 hw
    refine h.started hw rfl (startRun_ok hservice).1 fun hservice => ?_
    obtain ⟨-, hsome, hsession, hstage⟩ := startRun_ok hservice
    exact ⟨hsome, hsession, hstage⟩
  | rejectPendingActions ids reason =>
    refine h.moved rfl rfl hw fun hservice => ?_
    obtain ⟨s, hs, rfl⟩ := Option.map_eq_some_iff.1 hservice
    have hs := toOption_eq_some hs
    have hstatus := rejectPendingActions_status hs
    refine .move h.knowsLast h.stage (rejectPendingActions_tracks hs) ?_ ?_
    · intro hr
      rw [hr] at hstatus
      exact (hstatus.resolve_left nofun).symm
    · intro hf
      rw [hf] at hstatus
      exact (hstatus.resolve_left nofun).symm
  | stopRequest => exact h.step_stopRequest hw
  | pause new =>
    refine h.moved rfl rfl hw fun hservice => ?_
    obtain ⟨s, hs, rfl⟩ := Option.map_eq_some_iff.1 hservice
    have hs := toOption_eq_some hs
    have hstatus := pause_status hs
    refine .move h.knowsLast h.stage (pause_tracks hs) ?_ ?_
    · intro hr
      rw [hr] at hstatus
      exact (hstatus.resolve_left nofun).symm
    · intro hf
      rw [hf] at hstatus
      exact (hstatus.resolve_left nofun).symm
  | cancel ids new => exact h.moved rfl rfl hw fun hservice => cancel_moved h.knowsLast hservice
  | background new name =>
    refine h.moved rfl rfl hw fun hservice => ?_
    obtain ⟨s, hs, rfl⟩ := Option.map_eq_some_iff.1 hservice
    have hs := toOption_eq_some hs
    have hstatus := onEvent_status hs
    exact .move h.knowsLast h.stage (tracks_onEvent hs) (fun hr => hstatus ▸ hr) fun hf => hstatus ▸ hf
  | start => exact h.moved rfl rfl hw fun hservice => start_moved h.knowsLast h.stage hservice
  | iterate env => exact h.moved rfl rfl hw fun hservice => iterate_moved h.knowsLast h.stage hservice
  | respond => exact h.moved rfl rfl hw fun hservice => respond_moved h.knowsLast h.stage hservice
  | analyzed => exact h.moved rfl rfl hw fun hservice => analyzed_moved h.knowsLast h.stage hservice
  | raised new code => exact h.moved rfl rfl hw fun hservice => raised_moved h.knowsLast hservice
  | finish => exact h.step_finish hw
  | rearm => exact absurd rfl hop

/-! ## The end of a task -/

theorem Inv.step_readFlag (h : Inv w) (hw : w.readFlag = some w') : Inv w' := by
  unfold World.readFlag at hw
  split at hw
  · cases hw
  · cases hw
    refine ⟨h.knowsLast, h.stage, fun hne => ?_⟩
    rcases h.pending hne with hin | ⟨hflag, -⟩ | ⟨tail, htail, hset⟩ | hreruns
    · exact .inl hin
    · exact .inr (.inr (.inl ⟨_, List.mem_cons_self, hflag, rfl⟩))
    · exact .inr (.inr (.inl ⟨tail, List.mem_cons_of_mem _ htail, hset⟩))
    · exact .inr (.inr (.inr hreruns))

theorem Inv.step_checkStatus (h : Inv w) {tail : Tail} (hok : (Op.checkStatus tail).Allowed w)
    (hw : w.checkStatus tail = some w') : Inv w' := by
  unfold World.checkStatus at hw
  split at hw
  · cases hw
  · cases hw
    refine ⟨h.knowsLast, h.stage, fun hne => ?_⟩
    rcases h.pending hne with hin | hflag | ⟨other, hother, hset, hgeneration⟩ | hreruns
    · exact .inl hin
    · exact .inr (.inl hflag)
    · by_cases heq : other = tail
      · -- The request that this task holds: it is passed on, as nothing is unread otherwise.
        subst heq
        rcases hok hset hgeneration with hidle | ⟨hfinished, hnone⟩
        · refine .inr (.inr (.inr ?_))
          dsimp only
          rw [if_pos ⟨hset, hgeneration.symm, hidle⟩]
          exact Nat.succ_ne_zero _
        · rw [Option.isNone_iff_eq_none] at hnone
          exact absurd ((h.stage.idle (.inl (by rw [hnone]; rfl))).2 hfinished) hne
      · exact .inr (.inr (.inl ⟨other, (List.mem_erase_of_ne heq).2 hother, hset, hgeneration⟩))
    · refine .inr (.inr (.inr ?_))
      dsimp only
      split
      · exact Nat.succ_ne_zero _
      · exact hreruns

theorem Inv.step_rerun (h : Inv w) (hw : w.rerun = some w') : Inv w' := by
  unfold World.rerun at hw
  split at hw
  · cases hw
  · cases hstart : w.service.startRun [] with
    | some service =>
      rw [hstart] at hw
      cases hw
      obtain ⟨-, -, hsession, hstage⟩ := startRun_ok hstart
      refine ⟨?_, hstage, fun hne => absurd rfl hne⟩
      dsimp only
      rw [hsession]
      exact h.knowsLast
    | none =>
      rw [hstart] at hw
      cases hw
      have hsome := startRun_none h.stage hstart
      exact ⟨h.knowsLast, h.stage, fun _ => .inr (.inl ⟨rfl, .inl hsome⟩)⟩

theorem Inv.step {op : Op} (h : w.closing = false → Inv w) (hok : op.Allowed w) (hw : w.step op = some w') :
    w'.closing = false → Inv w' := by
  intro hopen'
  unfold World.step at hw
  split at hw
  · cases hw
  · rename_i hopen
    have hinv := h (by simpa using hopen)
    split at hw
    · cases hw
    · exact hinv.serve (by rintro rfl; simp_all) hw
    · exact hinv.step_readFlag hw
    · exact hinv.step_checkStatus hok hw
    · exact hinv.step_rerun hw
    · cases hw
      cases hopen'

end Steps

/-- **No run request is lost.** As long as each finished task that holds a
request finds the conversation idle, or finished without another run: when
nothing is at work any more, each message with `run=True` was followed by a run,
a step or an explicit stop. -/
theorem unread_of_reaches {native : Bool} {maxIterationPerRun : Nat} {s : Session} {w : World}
    (hstatus : s.state.executionStatus ≠ .running) (hlast : s.state.KnowsLast)
    (h : Reaches World.step (fun w op => op.Allowed w) (.init native maxIterationPerRun s) w) (hq : w.Quiescent) :
    w.unread = [] := by
  have hinit : Inv (.init native maxIterationPerRun s) := by
    have hask : (EventService.World.init native maxIterationPerRun s).run = none ∧
        (EventService.World.init native maxIterationPerRun s).session = s := by
      unfold EventService.World.init EventService.World.ask
      split <;> exact ⟨rfl, rfl⟩
    refine ⟨?_, stage_idle hask.1 ?_ fun _ => rfl, fun hne => absurd rfl hne⟩
    · dsimp only [World.init]
      rw [hask.2]
      exact hlast
    · dsimp only [World.init]
      rw [hask.2]
      exact hstatus
  have hinv : w.closing = false → Inv w :=
    h.invariant (I := fun w => w.closing = false → Inv w) (fun _ => hinit) fun _ _ _ hi hok hw => Inv.step hi hok hw
  exact (hinv hq.open').unread_of_quiescent hq

namespace FollowUpExample

def message (new : NewId) (text : String) : MessageRun := { originalId := new.id, id := new, content := [text] }

/-- The LLM answers with a message, which finishes the conversation. -/
def replying (messageId : NewId) : RoundEnv where
  step :=
    { llm := .response
        { id := "response", message := { role := .assistant, content := ["Done."] }
          messageId, nudgeId := { id := "nudge" } }
      call _ := { actionId := { id := "action" }, errorId := { id := "error" }, parsed := .invalid "" "" "" }
      tool _ := { resultId := { id := "observation" }, outcome := .cancelled }
      rejectionId _ := { id := "hook" } }
  feedbackId := { id := "feedback" }
  errorId := { id := "failure" }
  rejectId _ := { id := "rejection" }

def ask (new : NewId) (text : String) : List Op :=
  [.service (.sendMessage (message new text) (some 0)), .service (.messageRun 0)]

/-- The second message comes in while the LLM answers the first. -/
def followUp : List Op :=
  ask { id := "message-1" } "Build it." ++ [.service .start, .service (.iterate (replying { id := "reply-1" }))] ++
    ask { id := "message-2" } "Test it, too." ++
    [.service .respond, .service (.iterate (replying { id := "reply-2" })), .service .respond,
      .service (.iterate (replying { id := "reply-3" })), .service .finish, .readFlag, .checkStatus ⟨true, 0⟩]

def start : Session := { state := {} }

theorem start_knowsLast : start.state.KnowsLast := by simp [KnowsLast, start]

def answered : Option World := execAllowed World.step (fun w op => op.Allowed w) (.init true 500 start) followUp

theorem answered_eq : ∃ w, answered = some w ∧ w.Quiescent ∧ w.unstarted = ["message-2"] := by
  have hrun : answered.map (fun w => ((w.closing, w.service.run.isNone, w.service.requests, w.service.rearms),
      w.tails, w.reruns, w.unstarted)) = some ((false, true, [], 0), [], 0, ["message-2"]) := by decide +kernel
  obtain ⟨w, hw, heq⟩ := Option.map_eq_some_iff.1 hrun
  simp only [Prod.mk.injEq, Option.isNone_iff_eq_none] at heq
  obtain ⟨⟨hopen, hnone, hrequests, hrearms⟩, htails, hreruns, hunstarted⟩ := heq
  exact ⟨w, hw, ⟨hopen, hnone, hrequests, hrearms, htails, hreruns⟩, hunstarted⟩

end FollowUpExample

open FollowUpExample in
theorem unread_followUp : ∃ w, answered = some w ∧ w.Quiescent ∧ w.unread = [] := by
  obtain ⟨w, hw, hq, -⟩ := answered_eq
  exact ⟨w, hw, hq, unread_of_reaches (by decide) start_knowsLast (reaches_of_execAllowed .init hw) hq⟩

open FollowUpExample in
/-- The run at work answers the second message: no other run starts for it. -/
theorem unstarted_followUp :
    ¬ ∀ native maxIterationPerRun s w, s.state.executionStatus ≠ .running → s.state.KnowsLast →
      Reaches World.step (fun _ _ => True) (.init native maxIterationPerRun s) w → w.Quiescent → w.unstarted = [] := by
  intro h
  obtain ⟨w, hw, hq, hunstarted⟩ := answered_eq
  have hreaches := (reaches_of_execAllowed .init hw).mono fun _ _ _ => trivial
  rw [h _ _ start w (by decide) start_knowsLast hreaches hq] at hunstarted
  cases hunstarted

end AgentSdk.RunRequests
