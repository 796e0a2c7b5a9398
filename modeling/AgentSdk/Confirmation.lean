import AgentSdk.RunLoop
import AgentSdk.Lib.Runs
/-!
# Confirmation

`EventService` around the run loop: messages with and without `run=True`, run
requests, rejections, pauses and interrupts come in wherever the loop has given
the state lock away. A message is no confirmation: the actions that await one
are executed only for a request that came after the question.
-/

namespace AgentSdk
open Lib

/-! ## Pending actions -/

namespace ConversationState
variable {s t : ConversationState} {tools : List Event}

def pendingActions (s : ConversationState) : List Event :=
  match s.activeBranch with
  | .ok branch => getUnmatchedActions branch
  | .error _ => []

def pendingIds (s : ConversationState) : List EventID := s.pendingActions.map Event.id

theorem pendingActions_eq {l : List Event} (h : s.events.Branch s.resolveActiveLeaf l) :
    s.pendingActions = getUnmatchedActions l := by
  rw [pendingActions, activeBranch_eq h]

theorem Valid.pendingIds_subset (hs : s.Valid) {id : EventID} (h : id ∈ s.pendingIds) : id ∈ s.events.ids := by
  obtain ⟨l, hl⟩ := hs.exists_branch
  rw [pendingIds, pendingActions_eq hl] at h
  obtain ⟨e, he, rfl⟩ := List.mem_map.1 h
  exact EventLog.mem_ids.2 ⟨e, EventLog.Branch.subset hl (getUnmatchedActions_subset l he), rfl⟩

/-- What is pending after some work was pending before, or is new. -/
theorem pending_of_emits (hs : s.Valid) (h : Emits s t tools) {id : EventID} (hid : id ∈ t.pendingIds) :
    id ∈ s.pendingIds ∨ id ∉ s.events.ids := by
  obtain ⟨l, hl⟩ := hs.exists_branch
  obtain ⟨new, hnew, htools⟩ := h.branch l hl
  rw [pendingIds, pendingActions_eq hnew, getUnmatchedActions_append, List.map_append, List.mem_append] at hid
  rcases hid with hid | hid
  · obtain ⟨e, he, rfl⟩ := List.mem_map.1 hid
    rw [pendingIds, pendingActions_eq hl]
    exact .inl (List.mem_map_of_mem (List.mem_of_mem_filter he))
  · obtain ⟨e, he, rfl⟩ := List.mem_map.1 hid
    obtain ⟨added, hadded, htools'⟩ := h.log
    have hmem : e.unstamped ∈ (added.filter Event.isToolEvent).map Event.unstamped := by
      rw [htools', ← htools]
      refine List.mem_map_of_mem (List.mem_filter.2 ⟨getUnmatchedActions_subset new he, ?_⟩)
      exact isToolEvent_of_isExecutable (isExecutable_of_mem_getUnmatchedActions he)
    obtain ⟨f, hf, hfe⟩ := List.mem_map.1 hmem
    have hnodup := t.events.idsNodup
    rw [hadded, List.map_append] at hnodup
    rw [← (Event.unstamped_eq_iff.1 hfe).1]
    exact .inr fun hin => (List.disjoint_of_nodup_append hnodup) hin (List.mem_map_of_mem (List.mem_of_mem_filter hf))

/-- Work without calls and answers leaves pending what was. -/
theorem pendingIds_eq (hs : s.Valid) (h : Emits s t []) : t.pendingIds = s.pendingIds := by
  obtain ⟨l, hl⟩ := hs.exists_branch
  obtain ⟨new, hnew, htools⟩ := h.branch l hl
  have hnil : new.filter Event.isToolEvent = [] := List.map_eq_nil_iff.1 htools
  have hl' : (l ++ new).filter Event.isToolEvent = l.filter Event.isToolEvent := by
    rw [List.filter_append, hnil, List.append_nil]
  rw [pendingIds, pendingIds, pendingActions_eq hnew, pendingActions_eq hl, ← getUnmatchedActions_filter, hl',
    getUnmatchedActions_filter]

end ConversationState

open ConversationState LocalConversation in
/-- Nothing is pending after a rejection. -/
theorem LocalConversation.pendingIds_rejectPendingActions {s s' : Session} {ids : EventID → NewId} {reason : String}
    (hs : s.state.Valid) (h : rejectPendingActions ids reason s = .ok s') : s'.state.pendingIds = [] := by
  obtain ⟨l, hl⟩ := hs.exists_branch
  obtain ⟨new, hnew, htools⟩ := (rejectPendingActions_emits hs (activeBranch_eq hl) h).branch l hl
  rw [pendingIds, pendingActions_eq hnew, getUnmatchedActions_append, List.map_eq_nil_iff, List.append_eq_nil_iff]
  have hback : ∀ o : Event, o ∈ (new.filter Event.isToolEvent).map Event.unstamped → ∃ o' ∈ new, o'.body = o.body := by
    intro o ho
    obtain ⟨o', ho', rfl⟩ := List.mem_map.1 ho
    exact ⟨o', List.mem_of_mem_filter ho', rfl⟩
  constructor
  · rw [List.filter_eq_nil_iff]
    intro e he
    obtain ⟨a, ha, -⟩ := Event.isExecutable_iff.1 (isExecutable_of_mem_getUnmatchedActions he)
    obtain ⟨o, ho, hbody⟩ := hback (userRejection ids reason e.id a) (by
      rw [htools]
      exact List.mem_filterMap.2 ⟨e, he, by rw [ha]; rfl⟩)
    have hans : o.answers e = true := by
      simp [Event.answers, hbody, userRejection, NewId.event]
    simp only [List.all_eq_true, not_forall]
    exact ⟨o, ho, by simp [hans]⟩
  · rw [List.eq_nil_iff_forall_not_mem]
    intro e he
    have hx := isExecutable_of_mem_getUnmatchedActions he
    have hmem : e.unstamped ∈ (new.filter Event.isToolEvent).map Event.unstamped :=
      List.mem_map_of_mem (List.mem_filter.2 ⟨getUnmatchedActions_subset new he, isToolEvent_of_isExecutable hx⟩)
    rw [htools] at hmem
    obtain ⟨f, -, hf⟩ := List.mem_filterMap.1 hmem
    obtain ⟨a, -, hfa⟩ := Option.map_eq_some_iff.1 hf
    have hbody : (userRejection ids reason f.id a).body = e.body := by rw [hfa, Event.unstamped_body]
    simp [Event.isExecutable, ← hbody, userRejection, NewId.event] at hx

/-! ## The service -/

namespace EventService
open LocalConversation Agent ConversationState

inductive RunPhase where
  | starting (generation : Nat)
  | iterating (iteration : Nat)
  | sampling (iteration : Nat) (lastUserMessageId : Option EventID) (env : RoundEnv)
  | analyzing (iteration : Nat) (lastUserMessageId : Option EventID) (env : RoundEnv) (actions : List Event)
  | ending

/-- How an action that awaited confirmation came to its end. -/
inductive Settlement where
  | rejected (reason : String)
  | interrupted
  | executed (approved : Bool)
  | lost
deriving DecidableEq, Repr

/-- The task of a run. Kept for the statements only: the actions that the
request for the run approves, which are those pending when it came in. A
message approves none. -/
structure Run where
  approved : List EventID
  phase : RunPhase

/-- One conversation of the service. `requests` are the messages with
`run=True` that still have to ask for their run, each with the generation it
read; `rearms` are finished tasks that have still to look at the rerun flag.
Kept for the statements only: the actions the user was asked about, and how
those that were settled were. -/
structure World where
  session : Session
  native : Bool
  maxIterationPerRun : Nat
  run : Option Run := none
  rerunRequested : Bool := false
  explicitInterruptGeneration : Nat := 0
  requests : List Nat := []
  rearms : Nat := 0
  asked : List EventID := []
  settled : List (EventID × Settlement) := []

inductive Op where
  | sendMessage (m : MessageRun) (run : Option Nat)
  | messageRun (generation : Nat)
  | requestRun
  | rejectPendingActions (ids : EventID → NewId) (reason : String)
  | stopRequest
  | pause (new : NewId)
  | cancel (ids : EventID → NewId) (new : NewId)
  | background (new : NewId) (name : String)
  | start
  | iterate (env : RoundEnv)
  | respond
  | analyzed
  | raised (new : NewId) (code : String)
  | finish
  | rearm

namespace World

/-- The session moves on. -/
def move (w : World) (how : EventID → Settlement) (s : Session) : World :=
  let left := w.session.state.pendingIds.filter fun id => id ∈ w.asked ∧ id ∉ s.state.pendingIds
  { w with session := s, settled := w.settled ++ left.map fun id => (id, how id) }

/-- The user is asked when a step ends in `WAITING_FOR_CONFIRMATION`. -/
def ask (w : World) : World :=
  if w.session.state.executionStatus = .waitingForConfirmation then
    { w with asked := w.asked ++ w.session.state.pendingIds }
  else w

def enter (w : World) (approved : List EventID) (phase : RunPhase) : World :=
  { w with run := some { approved, phase } }

/-- A conversation as it is created or resumed. -/
def init (native : Bool) (maxIterationPerRun : Nat) (s : Session) : World :=
  ask { session := s, native, maxIterationPerRun }

/-- `run`, refused while there is a run. -/
def startRun (w : World) (approved : List EventID) : Option World :=
  if w.run.isSome ∨ w.session.state.executionStatus = .running then none
  else some (w.enter approved (.starting w.explicitInterruptGeneration))

/-- `send_message` up to the request for a run, which remembers the generation
from before the message was stored. -/
def sendMessage (w : World) (m : MessageRun) (run : Option Nat) : Option World :=
  if run.any (w.explicitInterruptGeneration < ·) then none
  else (LocalConversation.sendMessage m w.session).toOption.map fun s =>
    { w.move (fun _ => .lost) s with requests := w.requests ++ run.toList }

/-- The request of a message is dropped after an explicit stop; refused, it is
left to the running task. -/
def messageRun (w : World) (generation : Nat) : Option World :=
  if generation ∉ w.requests then none
  else
    let w := { w with requests := w.requests.erase generation }
    if w.explicitInterruptGeneration ≠ generation then some w
    else some ((w.startRun []).getD { w with rerunRequested := true })

/-- The run request of a user, also to accept what is pending. -/
def requestRun (w : World) : Option World := w.startRun w.session.state.pendingIds

def rejectPendingActions (w : World) (ids : EventID → NewId) (reason : String) : Option World :=
  (LocalConversation.rejectPendingActions ids reason w.session).toOption.map (w.move fun _ => .rejected reason)

/-- What `pause` and `interrupt` do first. -/
def stopRequest (w : World) : World :=
  { w with explicitInterruptGeneration := w.explicitInterruptGeneration + 1, rerunRequested := false }

def pause (w : World) (new : NewId) : Option World :=
  (LocalConversation.pause new w.session).toOption.map (w.move fun _ => .lost)

/-- The task of `arun` is cancelled where it waits without the lock. -/
def cancel (w : World) (ids : EventID → NewId) (new : NewId) : Option World :=
  match w.run with
  | some ⟨approved, .sampling _ _ _⟩ | some ⟨approved, .analyzing _ _ _ _⟩ =>
    (interrupted ids new w.session).toOption.map fun s => (w.move (fun _ => .interrupted) s).enter approved .ending
  | _ => none

/-- Statistics and logs are stored from other threads. -/
def background (w : World) (new : NewId) (name : String) : Option World :=
  (w.session.onEvent (new.event (.other name))).toOption.map (w.move fun _ => .lost)

/-- The run begins, unless it was stopped before. -/
def start (w : World) : Option World :=
  match w.run with
  | some ⟨approved, .starting generation⟩ =>
    if w.explicitInterruptGeneration ≠ generation then some (w.enter approved .ending)
    else
      let s := match w.session.state.executionStatus with
        | .idle | .paused | .error | .stuck => w.session.setExecutionStatus .running
        | _ => w.session
      some ((w.move (fun _ => .lost) s).enter approved (.iterating 0))
  | _ => none

/-- A run ends with an error. -/
def failRun (w : World) (approved : List EventID) (new : NewId) (code : String) : Option World :=
  (fail new code w.session).toOption.map fun s => (w.move (fun _ => .lost) s).enter approved .ending

/-- An error of the step, before it has stored anything. Its event ids are
new, so that the log does not refuse them. -/
def stepFailed (w : World) (approved : List EventID) (env : RoundEnv) : StepError → Option World
  | .value _ => none
  | .malformedHistory => w.failRun approved env.errorId "LLMMalformedConversationHistoryError"
  | .contextWindowExceed => w.failRun approved env.errorId "LLMContextWindowExceedError"

def executed (approved : List EventID) (id : EventID) : Settlement := .executed (id ∈ approved)

/-- The step is done, and the round goes on to its end. -/
def endRound (w : World) (approved : List EventID) (iteration : Nat) (lastUserMessageId : Option EventID)
    (env : RoundEnv) (s : Session) : Option World :=
  let w := (w.move (executed approved) s).ask
  let finished := s.state.executionStatus = .finished
  let result :=
    if w.native then finishRound env w.maxIterationPerRun (iteration + 1) lastUserMessageId s
    else checkLimits env w.maxIterationPerRun (iteration + 1) finished s
  result.toOption.map fun (s, again) =>
    (w.move (fun _ => .rejected superseded) s).enter approved (if again then .iterating (iteration + 1) else .ending)

def iterate (w : World) (env : RoundEnv) : Option World :=
  match w.run with
  | some ⟨approved, .iterating n⟩ =>
    match startRound env w.session with
    | .error _ => none
    | .ok (.stop s) => some ((w.move (fun _ => .lost) s).enter approved .ending)
    | .ok (.again s) => some ((w.move (fun _ => .lost) s).enter approved (.iterating n))
    | .ok (.step s) =>
      let w := w.move (fun _ => .lost) s
      if w.native then
        match astepBegin env.step s with
        | .error e => w.stepFailed approved env e
        | .ok (.done t) => w.endRound approved n s.state.lastUserMessageId env t
        | .ok (.sampling t) =>
          some ((w.move (executed approved) t).enter approved (.sampling n s.state.lastUserMessageId env))
      else
        match step env.step s with
        | .error e => w.stepFailed approved env e
        | .ok t => w.endRound approved n s.state.lastUserMessageId env t
  | _ => none

def respond (w : World) : Option World :=
  match w.run with
  | some ⟨approved, .sampling n last env⟩ =>
    match astepRespond env.step w.session with
    | .error e => w.stepFailed approved env e
    | .ok (.done t) => w.endRound approved n last env t
    | .ok (.analyzing t actions) =>
      some ((w.move (executed approved) t).enter approved (.analyzing n last env actions))
  | _ => none

def analyzed (w : World) : Option World :=
  match w.run with
  | some ⟨approved, .analyzing n last env actions⟩ =>
    (decideToolCalls env.step actions w.session).toOption.bind (w.endRound approved n last env)
  | _ => none

/-- The LLM call fails, or something else that the run stops at. -/
def raised (w : World) (new : NewId) (code : String) : Option World :=
  match w.run with
  | some ⟨approved, .iterating _⟩ | some ⟨approved, .sampling _ _ _⟩ | some ⟨approved, .analyzing _ _ _ _⟩ =>
    w.failRun approved new code
  | _ => none

/-- The task is done with publishing and no longer counts as running. -/
def finish (w : World) : Option World :=
  match w.run with
  | some ⟨_, .ending⟩ => some { w with run := none, rearms := w.rearms + 1 }
  | _ => none

/-- What a finished task does for the messages that were refused. -/
def rearm (w : World) : Option World :=
  if w.rearms = 0 then none
  else
    let rerunRequested := w.rerunRequested
    let w := { w with rearms := w.rearms - 1, rerunRequested := false }
    if rerunRequested ∧ w.session.state.executionStatus = .idle then
      some ((w.startRun []).getD { w with rerunRequested := true })
    else some w

def step (w : World) : Op → Option World
  | .sendMessage m run => w.sendMessage m run
  | .messageRun generation => w.messageRun generation
  | .requestRun => w.requestRun
  | .rejectPendingActions ids reason => w.rejectPendingActions ids reason
  | .stopRequest => some w.stopRequest
  | .pause new => w.pause new
  | .cancel ids new => w.cancel ids new
  | .background new name => w.background new name
  | .start => w.start
  | .iterate env => w.iterate env
  | .respond => w.respond
  | .analyzed => w.analyzed
  | .raised new code => w.raised new code
  | .finish => w.finish
  | .rearm => w.rearm

/-- The actions the user was asked about and has not answered. -/
def unanswered (w : World) : List EventID := w.asked.filter (· ∈ w.session.state.pendingIds)

/-- Does the operation start a run for a message? -/
def startsForMessage (w : World) : Op → Bool
  | .messageRun generation =>
    generation = w.explicitInterruptGeneration ∧ w.run.isNone ∧ w.session.state.executionStatus ≠ .running
  | .rearm => w.rerunRequested ∧ w.run.isNone ∧ w.session.state.executionStatus = .idle
  | _ => false

end World

/-- No run starts for a message while the user owes an answer. -/
def Op.Allowed (w : World) (op : Op) : Prop := w.startsForMessage op = true → w.unanswered = []

instance Op.decidableAllowed (w : World) (op : Op) : Decidable (op.Allowed w) :=
  inferInstanceAs (Decidable (_ → _))

/-- What the user was asked about is executed only when a request approved it;
otherwise it was rejected, cancelled by an interrupt, or still waits. -/
structure NeverConfirms (w : World) : Prop where
  settled : ∀ p ∈ w.settled, p.2 = .executed true ∨ p.2 = .interrupted ∨ ∃ reason, p.2 = .rejected reason
  waiting : ∀ id ∈ w.asked, id ∈ w.session.state.pendingIds ∨ ∃ how, (id, how) ∈ w.settled

/-! ## The invariant -/

/-- What is asked and pending is approved. -/
def Approves (w : World) (approved : List EventID) : Prop := ∀ id ∈ w.unanswered, id ∈ approved

/-- The part of the invariant that does not look at the run. -/
structure Sound (w : World) : Prop where
  valid : w.session.state.Valid
  asked : ∀ id ∈ w.asked, id ∈ w.session.state.events.ids
  never : NeverConfirms w

structure Inv (w : World) : Prop extends Sound w where
  approved : ∀ approved phase, w.run = some ⟨approved, phase⟩ → phase ≠ .ending → Approves w approved

section
variable {w w' : World} {s : Session} {approved : List EventID} {how : EventID → Settlement}

theorem World.mem_unanswered {id : EventID} :
    id ∈ w.unanswered ↔ id ∈ w.asked ∧ id ∈ w.session.state.pendingIds := by
  simp [World.unanswered]

/-- Nothing that was asked becomes pending again. -/
theorem Sound.unanswered_move (h : Sound w) (hg : w.session.state.Grows s.state) :
    (w.move how s).unanswered ⊆ w.unanswered := by
  intro id hid
  obtain ⟨hasked, hpending⟩ := World.mem_unanswered.1 hid
  obtain ⟨tools, he⟩ := hg
  rcases pending_of_emits h.valid he hpending with hp | hn
  · exact World.mem_unanswered.2 ⟨hasked, hp⟩
  · exact absurd (h.asked id hasked) hn

/-- The session moves on and settles what was asked in a proper way. -/
theorem Sound.move (h : Sound w) (hg : w.session.state.Grows s.state)
    (hhow : ∀ id ∈ w.unanswered, id ∉ s.state.pendingIds →
      how id = .executed true ∨ how id = .interrupted ∨ ∃ reason, how id = .rejected reason) :
    Sound (w.move how s) := by
  have hleft : ∀ id, id ∈ (w.session.state.pendingIds.filter fun id => id ∈ w.asked ∧ id ∉ s.state.pendingIds) ↔
      id ∈ w.unanswered ∧ id ∉ s.state.pendingIds := by
    intro id
    rw [World.mem_unanswered, List.mem_filter]
    simp only [decide_eq_true_eq]
    tauto
  refine ⟨hg.valid, fun id hid => ?_, fun p hp => ?_, fun id hid => ?_⟩
  · obtain ⟨tools, he⟩ := hg
    obtain ⟨new, hnew, -⟩ := he.log
    rw [show (w.move how s).session.state.events.ids = _ from congrArg (List.map Event.id) hnew, List.map_append]
    exact List.mem_append_left _ (h.asked id hid)
  · rcases List.mem_append.1 hp with hp | hp
    · exact h.never.settled p hp
    · obtain ⟨id, hid, rfl⟩ := List.mem_map.1 hp
      exact hhow id ((hleft id).1 hid).1 ((hleft id).1 hid).2
  · by_cases hs : id ∈ s.state.pendingIds
    · exact .inl hs
    · rcases h.never.waiting id hid with hp | ⟨how', hp⟩
      · have hmem := (hleft id).2 ⟨World.mem_unanswered.2 ⟨hid, hp⟩, hs⟩
        exact .inr ⟨how id, List.mem_append_right _ (List.mem_map_of_mem hmem)⟩
      · exact .inr ⟨how', List.mem_append_left _ hp⟩

/-- Work without calls and answers settles nothing. -/
theorem Sound.move_lost (h : Sound w) (he : Emits w.session.state s.state []) : Sound (w.move how s) := by
  refine h.move he.grows fun id hid hn => ?_
  rw [pendingIds_eq h.valid he] at hn
  exact absurd (World.mem_unanswered.1 hid).2 hn

/-- A step of the agent executes what is approved. -/
theorem Sound.move_executed (h : Sound w) (ha : Approves w approved) (hg : w.session.state.Grows s.state) :
    Sound (w.move (World.executed approved) s) :=
  h.move hg fun id hid _ => .inl (by simp [World.executed, ha id hid])

theorem Sound.ask (h : Sound w) : Sound w.ask := by
  unfold World.ask
  split
  · refine ⟨h.valid, fun id hid => ?_, h.never.settled, fun id hid => ?_⟩
    · rcases List.mem_append.1 hid with hid | hid
      · exact h.asked id hid
      · exact h.valid.pendingIds_subset hid
    · rcases List.mem_append.1 hid with hid | hid
      · exact h.never.waiting id hid
      · exact .inl hid
  · exact h

/-- The rest of the world does not matter. -/
theorem Sound.congr (h : Sound w) (hs : w'.session = w.session) (ha : w'.asked = w.asked)
    (hd : w'.settled = w.settled) : Sound w' := by
  refine ⟨hs ▸ h.valid, ?_, ?_, ?_⟩
  · rw [ha, hs]
    exact h.asked
  · rw [hd]
    exact h.never.settled
  · rw [ha, hs, hd]
    exact h.never.waiting

theorem Sound.enter (h : Sound w) {phase : RunPhase} (ha : phase ≠ .ending → Approves w approved) :
    Inv (w.enter approved phase) := by
  refine ⟨h.congr rfl rfl rfl, ?_⟩
  rintro _ _ ⟨⟩
  exact ha

theorem Sound.idle (h : Sound w) (hrun : w.run = none) : Inv w := ⟨h, by simp [hrun]⟩

theorem Approves.move (ha : Approves w approved) (h : Sound w) (hg : w.session.state.Grows s.state) :
    Approves (w.move how s) approved := fun id hid => ha id (h.unanswered_move hg hid)

/-- The session moves on and the run stays where it is. -/
theorem Inv.moved (h : Inv w) (hg : w.session.state.Grows s.state) (hs : Sound (w.move how s)) : Inv (w.move how s) :=
  ⟨hs, fun approved phase hrun hp => (h.approved approved phase hrun hp).move h.toSound hg⟩

theorem Inv.move_lost (h : Inv w) (he : Emits w.session.state s.state []) : Inv (w.move how s) :=
  h.moved he.grows (h.toSound.move_lost he)

end

/-! ## One operation -/

section
variable {w w' : World} {s : Session} {approved : List EventID}

theorem inv_startRun (h : Sound w) (ha : Approves w approved) (hw : w.startRun approved = some w') : Inv w' := by
  unfold World.startRun at hw
  split at hw
  · cases hw
  · cases hw
    exact h.enter fun _ => ha

theorem approves_nil (h : w.unanswered = []) : Approves w approved := by
  intro id hid
  rw [h] at hid
  cases hid

/-- A run for a message starts, or the request is left to the running task. -/
theorem inv_startForMessage (h : Inv w) (hok : w.run = none → w.session.state.executionStatus ≠ .running → w.unanswered = []) :
    Inv ((w.startRun []).getD { w with rerunRequested := true }) := by
  cases hw : w.startRun [] with
  | none => exact ⟨h.toSound.congr rfl rfl rfl, h.approved⟩
  | some w' =>
    refine inv_startRun h.toSound (approves_nil ?_) hw
    unfold World.startRun at hw
    split at hw
    · cases hw
    · rename_i hfree
      simp only [not_or, Bool.not_eq_true, Option.isSome_eq_false_iff, Option.isNone_iff_eq_none] at hfree
      exact hok hfree.1 hfree.2

theorem inv_failRun {new : NewId} {code : String} (h : Sound w) (hw : w.failRun approved new code = some w') : Inv w' := by
  obtain ⟨s, hs, rfl⟩ := Option.map_eq_some_iff.1 hw
  exact (h.move_lost (fail_emits h.valid (toOption_eq_some hs))).enter fun hp => absurd rfl hp

theorem inv_stepFailed {env : RoundEnv} {e : StepError} (h : Sound w) (hw : w.stepFailed approved env e = some w') :
    Inv w' := by
  cases e with
  | value _ => cases hw
  | malformedHistory => exact inv_failRun h hw
  | contextWindowExceed => exact inv_failRun h hw

/-- The end of a round goes on only when nothing is left to be confirmed. -/
theorem finishRound_spec {env : RoundEnv} {max n : Nat} {last : Option EventID} {again : Bool} {s' : Session}
    (hs : s.state.Valid) (h : finishRound env max n last s = .ok (s', again)) :
    s.state.Grows s'.state ∧
      (s.state.executionStatus = .waitingForConfirmation → again = true → s'.state.pendingIds = []) := by
  -- What follows the rejection, if there was one.
  have hrest : ∀ t : Session, s.state.Grows t.state →
      (s.state.executionStatus = .waitingForConfirmation → t.state.pendingIds = []) →
      (if max ≤ n then .ok (t.setExecutionStatus .idle, false)
        else checkLimits env max n (s.state.executionStatus = .finished) (t.setExecutionStatus .running)) =
          .ok (s', again) →
      s.state.Grows s'.state ∧
        (s.state.executionStatus = .waitingForConfirmation → again = true → s'.state.pendingIds = []) := by
    intro t hg hnone h
    split at h
    · cases h
      exact ⟨hg.trans (emits_setExecutionStatus hg.valid _).grows, fun _ hagain => by cases hagain⟩
    · have hrun := emits_setExecutionStatus hg.valid .running
      have hlimits := hrun.trans (checkLimits_emits hrun.valid h)
      refine ⟨hg.trans hlimits.grows, fun hw _ => ?_⟩
      rw [pendingIds_eq hg.valid hlimits]
      exact hnone hw
  unfold finishRound at h
  dsimp only at h
  split at h
  · split at h
    · obtain ⟨t, ht, h⟩ := bind_ok h
      obtain ⟨l, hl⟩ := hs.exists_branch
      exact hrest t (rejectPendingActions_emits hs (activeBranch_eq hl) ht).grows
        (fun _ => pendingIds_rejectPendingActions hs ht) h
    · exact hrest s (Emits.refl hs).grows (fun hw => absurd hw ‹_›) h
  · refine ⟨(checkLimits_emits hs h).grows, fun hw hagain => ?_⟩
    rw [checkLimits_waiting hw h] at hagain
    cases hagain

theorem inv_endRound {n : Nat} {last : Option EventID} {env : RoundEnv} (h : Sound w) (ha : Approves w approved)
    (hg : w.session.state.Grows s.state) (hw : w.endRound approved n last env s = some w') : Inv w' := by
  obtain ⟨⟨t, again⟩, hresult, rfl⟩ := Option.map_eq_some_iff.1 hw
  have hresult := toOption_eq_some hresult
  have hspec : s.state.Grows t.state ∧
      (s.state.executionStatus = .waitingForConfirmation → again = true → t.state.pendingIds = []) := by
    split at hresult
    · exact finishRound_spec hg.valid hresult
    · refine ⟨(checkLimits_emits hg.valid hresult).grows, fun hwait hagain => ?_⟩
      rw [checkLimits_waiting hwait hresult] at hagain
      cases hagain
  have hmoved := h.move_executed ha hg
  have hask := hmoved.ask
  have hsession : (w.move (World.executed approved) s).ask.session = s := by
    unfold World.ask
    split <;> rfl
  have hg' : (w.move (World.executed approved) s).ask.session.state.Grows t.state := by
    rw [hsession]
    exact hspec.1
  refine (hask.move hg' fun _ _ _ => .inr (.inr ⟨_, rfl⟩)).enter fun hphase => ?_
  have hagain : again = true := by
    cases again with
    | true => rfl
    | false => exact absurd rfl hphase
  by_cases hwait : s.state.executionStatus = .waitingForConfirmation
  · -- Asked just now, and rejected in the same round.
    refine approves_nil (List.filter_eq_nil_iff.2 fun id _ => ?_)
    change ¬ decide (id ∈ t.state.pendingIds) = true
    rw [hspec.2 hwait hagain]
    simp
  · refine Approves.move ?_ hask hg'
    have hnone : (w.move (World.executed approved) s).ask = w.move (World.executed approved) s := if_neg hwait
    rw [hnone]
    exact ha.move h hg

theorem inv_iterate {env : RoundEnv} (h : Inv w) (hw : w.iterate env = some w') : Inv w' := by
  unfold World.iterate at hw
  split at hw
  · rename_i approved n hrun
    have ha : Approves w approved := h.approved _ _ hrun nofun
    cases hstart : startRound env w.session with
    | error e =>
      rw [hstart] at hw
      cases hw
    | ok r =>
      have he := startRound_emits h.valid hstart
      have hmoved : Sound (w.move (fun _ => .lost) r.session) := h.toSound.move_lost he
      have ha' : Approves (w.move (fun _ => .lost) r.session) approved := ha.move h.toSound he.grows
      rw [hstart] at hw
      cases r with
      | stop s =>
        cases hw
        exact hmoved.enter fun hp => absurd rfl hp
      | again s =>
        cases hw
        exact hmoved.enter fun _ => ha'
      | step s =>
        dsimp only [RoundStart.session] at hw hmoved ha' he
        split at hw
        · cases hbegin : astepBegin env.step s with
          | error e =>
            rw [hbegin] at hw
            exact inv_stepFailed hmoved hw
          | ok half =>
            have hg := astepBegin_grows he.valid hbegin
            rw [hbegin] at hw
            cases half with
            | done t => exact inv_endRound hmoved ha' hg hw
            | sampling t =>
              cases hw
              exact (hmoved.move_executed ha' hg).enter fun _ => ha'.move hmoved hg
        · cases hstep : Agent.step env.step s with
          | error e =>
            rw [hstep] at hw
            exact inv_stepFailed hmoved hw
          | ok t =>
            rw [hstep] at hw
            exact inv_endRound hmoved ha' (step_grows he.valid hstep) hw
  · cases hw

theorem inv_respond (h : Inv w) (hw : w.respond = some w') : Inv w' := by
  unfold World.respond at hw
  split at hw
  · rename_i approved n last env hrun
    have ha : Approves w approved := h.approved _ _ hrun nofun
    cases hrespond : astepRespond env.step w.session with
    | error e =>
      rw [hrespond] at hw
      exact inv_stepFailed h.toSound hw
    | ok r =>
      have hg := astepRespond_grows h.valid hrespond
      rw [hrespond] at hw
      cases r with
      | done t => exact inv_endRound h.toSound ha hg hw
      | analyzing t actions =>
        cases hw
        exact (h.toSound.move_executed ha hg).enter fun _ => ha.move h.toSound hg
  · cases hw

theorem inv_analyzed (h : Inv w) (hw : w.analyzed = some w') : Inv w' := by
  unfold World.analyzed at hw
  split at hw
  · rename_i approved n last env actions hrun
    obtain ⟨s, hs, hw⟩ := Option.bind_eq_some_iff.1 hw
    exact inv_endRound h.toSound (h.approved _ _ hrun nofun) (decideToolCalls_grows h.valid (toOption_eq_some hs)) hw
  · cases hw

theorem inv_start (h : Inv w) (hw : w.start = some w') : Inv w' := by
  unfold World.start at hw
  split at hw
  · rename_i approved generation hrun
    split at hw
    · cases hw
      exact h.toSound.enter fun hp => absurd rfl hp
    · cases hw
      have he : Emits w.session.state (match w.session.state.executionStatus with
          | .idle | .paused | .error | .stuck => w.session.setExecutionStatus .running
          | _ => w.session).state [] := by
        split
        all_goals first
          | exact emits_setExecutionStatus h.valid _
          | exact Emits.refl h.valid
      exact (h.toSound.move_lost he).enter fun _ => (h.approved _ _ hrun nofun).move h.toSound he.grows
  · cases hw

theorem inv_cancel {ids : EventID → NewId} {new : NewId} (h : Inv w) (hw : w.cancel ids new = some w') : Inv w' := by
  unfold World.cancel at hw
  split at hw
  case h_3 => cases hw
  all_goals
    obtain ⟨s, hs, rfl⟩ := Option.map_eq_some_iff.1 hw
    have hg := interrupted_grows h.valid (toOption_eq_some hs)
    exact (h.toSound.move hg fun _ _ _ => .inr (.inl rfl)).enter fun hp => absurd rfl hp

theorem inv_raised {new : NewId} {code : String} (h : Inv w) (hw : w.raised new code = some w') : Inv w' := by
  unfold World.raised at hw
  split at hw
  case h_4 => cases hw
  all_goals exact inv_failRun h.toSound hw

theorem inv_finish (h : Inv w) (hw : w.finish = some w') : Inv w' := by
  unfold World.finish at hw
  split at hw
  · cases hw
    exact Sound.idle (w := { w with run := none, rearms := w.rearms + 1 }) (h.toSound.congr rfl rfl rfl) rfl
  · cases hw

theorem inv_messageRun {generation : Nat} (h : Inv w) (hok : (Op.messageRun generation).Allowed w)
    (hw : w.messageRun generation = some w') : Inv w' := by
  unfold World.messageRun at hw
  split at hw
  · cases hw
  · have h' : Inv { w with requests := w.requests.erase generation } := ⟨h.toSound.congr rfl rfl rfl, h.approved⟩
    dsimp only at hw
    split at hw
    · cases hw
      exact h'
    · rename_i hgen
      cases hw
      refine inv_startForMessage h' fun hrun hstatus => hok ?_
      simp_all [World.startsForMessage]

theorem inv_rearm (h : Inv w) (hok : Op.rearm.Allowed w) (hw : w.rearm = some w') : Inv w' := by
  unfold World.rearm at hw
  split at hw
  · cases hw
  · have h' : Inv { w with rearms := w.rearms - 1, rerunRequested := false } := ⟨h.toSound.congr rfl rfl rfl, h.approved⟩
    dsimp only at hw
    split at hw
    · rename_i hre
      cases hw
      refine inv_startForMessage h' fun hrun _ => hok ?_
      simp_all [World.startsForMessage]
    · cases hw
      exact h'

theorem Inv.step {op : Op} (h : Inv w) (hok : op.Allowed w) (hw : w.step op = some w') : Inv w' := by
  cases op with
  | sendMessage m run =>
    dsimp only [World.step, World.sendMessage] at hw
    split at hw
    · cases hw
    · obtain ⟨s, hs, rfl⟩ := Option.map_eq_some_iff.1 hw
      have hmoved : Inv (w.move (fun _ => .lost) s) := h.move_lost (sendMessage_emits h.valid (toOption_eq_some hs))
      exact ⟨hmoved.toSound.congr rfl rfl rfl, hmoved.approved⟩
  | messageRun generation => exact inv_messageRun h hok hw
  | requestRun => exact inv_startRun h.toSound (fun id hid => (World.mem_unanswered.1 hid).2) hw
  | rejectPendingActions ids reason =>
    obtain ⟨s, hs, rfl⟩ := Option.map_eq_some_iff.1 hw
    obtain ⟨l, hl⟩ := h.valid.exists_branch
    have hg := (rejectPendingActions_emits h.valid (activeBranch_eq hl) (toOption_eq_some hs)).grows
    exact h.moved hg (h.toSound.move hg fun _ _ _ => .inr (.inr ⟨_, rfl⟩))
  | stopRequest =>
    cases hw
    exact ⟨h.toSound.congr rfl rfl rfl, h.approved⟩
  | pause new =>
    obtain ⟨s, hs, rfl⟩ := Option.map_eq_some_iff.1 hw
    exact h.move_lost (pause_emits h.valid (toOption_eq_some hs))
  | cancel ids new => exact inv_cancel h hw
  | background new name =>
    obtain ⟨s, hs, rfl⟩ := Option.map_eq_some_iff.1 hw
    exact h.move_lost (emits_onEvent h.valid rfl (toOption_eq_some hs))
  | start => exact inv_start h hw
  | iterate env => exact inv_iterate h hw
  | respond => exact inv_respond h hw
  | analyzed => exact inv_analyzed h hw
  | raised new code => exact inv_raised h hw
  | finish => exact inv_finish h hw
  | rearm => exact inv_rearm h hok hw

end

/-- In a run without such starts no message is taken for a confirmation. -/
theorem neverConfirms_of_reaches {native : Bool} {maxIterationPerRun : Nat} {s : Session} {w : World}
    (hs : s.state.Valid)
    (h : Reaches World.step (fun w op => op.Allowed w) (.init native maxIterationPerRun s) w) : NeverConfirms w := by
  have hinit : Sound { session := s, native, maxIterationPerRun : World } := ⟨hs, nofun, nofun, nofun⟩
  have hinv : Inv (.init native maxIterationPerRun s) := by
    refine hinit.ask.idle ?_
    unfold World.ask
    split <;> rfl
  exact (h.invariant hinv fun _ _ _ hi hok hw => hi.step hok hw).never

/-! ## "No, don't"

An action awaits confirmation and the user says no, with `run=True`: after the
loop has stopped, and while the step is still at work. -/

namespace SupersededExample

def message (new : NewId) (text : String) : MessageRun := { originalId := new.id, id := new, content := [text] }

def terminalCall : MessageToolCall := ⟨"call", "terminal", "rm -r build"⟩

/-- The LLM proposes a call, and every call needs a confirmation. -/
def proposing : RoundEnv where
  step :=
    { llm := .response
        { id := "response", message := { role := .assistant, content := [], toolCalls := some [terminalCall] }
          messageId := { id := "reply" }, nudgeId := { id := "nudge" } }
      call _ :=
        { actionId := { id := "action" }, errorId := { id := "error" }
          parsed := .valid (.other "rm") "terminal" "rm -r build" }
      tool _ := { resultId := { id := "observation" }, outcome := .observation ["ok"] [] }
      rejectionId _ := { id := "hook" }
      shouldConfirm _ := true }
  feedbackId := { id := "feedback" }
  errorId := { id := "failure" }
  rejectId _ := { id := "rejection" }

def proposal : List Op :=
  [.sendMessage (message { id := "message-1" } "Clean up.") (some 0), .messageRun 0, .start, .iterate proposing]

def no : List Op := [.sendMessage (message { id := "message-2" } "No, don't.") (some 0), .messageRun 0]

/-- The loop has stopped and the task is done. -/
def late : List Op := proposal ++ [.respond, .finish, .rearm] ++ no ++ [.start, .iterate proposing]

/-- The step still waits for the LLM. -/
def early : List Op := proposal ++ no ++ [.respond]

def start : World := .init true 500 { state := {} }

theorem start_valid : ({} : ConversationState).Valid := ⟨fun i e h => by simp at h, nofun⟩

def rejected : Option World := execAllowed World.step (fun w op => op.Allowed w) start early

end SupersededExample

open SupersededExample in
/-- A message that comes in during the step rejects the action. -/
theorem neverConfirms_early :
    ∃ w, rejected = some w ∧ w.settled = [("action", .rejected superseded)] ∧ NeverConfirms w := by
  have hrun : rejected.map (·.settled) = some [("action", .rejected superseded)] := by decide
  obtain ⟨w, hw, hsettled⟩ := Option.map_eq_some_iff.1 hrun
  exact ⟨w, hw, hsettled, neverConfirms_of_reaches SupersededExample.start_valid (reaches_of_execAllowed .init hw)⟩

open SupersededExample in
/-- A message that comes in after the run executes it. -/
theorem executed_late :
    ¬ ∀ native maxIterationPerRun s w, s.state.Valid →
      Reaches World.step (fun _ _ => True) (.init native maxIterationPerRun s) w → NeverConfirms w := by
  intro h
  have hrun : (exec World.step SupersededExample.start late).map (·.settled) = some [("action", .executed false)] := by decide
  obtain ⟨w, hw, hsettled⟩ := Option.map_eq_some_iff.1 hrun
  have hnever := (h _ _ _ w SupersededExample.start_valid (reaches_of_exec .init hw)).settled ("action", .executed false)
  rw [hsettled] at hnever
  have := hnever List.mem_cons_self
  simp at this

end EventService

end AgentSdk
