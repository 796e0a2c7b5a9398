import AgentSdk.Lib.Runs
import AgentSdk.RunSlot
import Mathlib.Data.List.Basic
/-!
# Run permits

The services of a server and the permits their runs, goal loops and ACP
restarts hold. The runs of one chain share the permit of the session, which is
returned when no run and no pin needs it any more.
-/

namespace AgentSdk.RunPermits
open Lib

/-- A synchronous run in its thread. An exited one has a callback to come. -/
inductive Worker where
  | none | executing | exited | settled
deriving DecidableEq, Repr

/-- A run task. A task that is done has a callback to come. -/
inductive TaskStage where
  | scheduled | running | tail | done | settled
deriving DecidableEq, Repr

structure RunTask where
  slot : Nat
  stage : TaskStage := .scheduled
  worker : Worker := .none
deriving DecidableEq, Repr

/-- `not task.done()`. -/
def RunTask.live (task : RunTask) : Bool := task.stage = .scheduled ∨ task.stage = .running ∨ task.stage = .tail

/-- The task or its worker will still settle. -/
def RunTask.pending (task : RunTask) : Bool :=
  task.stage ≠ .settled ∨ task.worker = .executing ∨ task.worker = .exited

inductive GoalStage where
  | scheduled | running
deriving DecidableEq, Repr

inductive ServicePhase where
  | active | closing | closed
deriving DecidableEq, Repr

/-- One conversation. `supersedes` are the messages that interrupt a run to
start another; `waiting` says that a re-armed run waits for capacity. Of the
rerun flags it matters only whether one of them is set. -/
structure Service where
  runSessionSlot : Option Nat := none
  runSessionPins : Nat := 0
  runTask : Option Nat := none
  tasks : List RunTask := []
  rerunRequested : Bool := false
  goal : Option GoalStage := none
  supersedes : Nat := 0
  waiting : Bool := false
  phase : ServicePhase := .active
deriving DecidableEq, Repr

/-- The current task is live. -/
def Service.isRunning (s : Service) : Bool := s.runTask.any fun t => s.tasks[t]?.any RunTask.live

/-- The server; `reservations` are the slots that requests have acquired. -/
structure World where
  limiter : Limiter
  services : Nat → Service := fun _ => {}
  reservations : List Nat := []

inductive Op where
  | run (i : Nat) (runSlot : Option Nat)
  | waitForCapacity (i : Nat)
  | waited (i : Nat) (cancelled : Bool)
  | begin (i t : Nat)
  | startWorker (i t : Nat)
  | workerExits (i t : Nat)
  | workerSettles (i t : Nat)
  | bodyEnds (i t : Nat)
  | clearRunTask (i t : Nat)
  | setRerunRequested (i : Nat) (requested : Bool)
  | taskDone (i t : Nat)
  | taskSettles (i t : Nat)
  | interrupted (i : Nat)
  | startGoalLoop (i : Nat)
  | goalBegins (i : Nat)
  | goalEnds (i : Nat)
  | cancelGoal (i : Nat)
  | supersede (i : Nat)
  | endSupersede (i : Nat)
  | reserve
  | release (slot : Nat)
  | close (i : Nat)
  | endClose (i : Nat)

namespace World

def set (w : World) (i : Nat) (s : Service) : World := { w with services := Function.update w.services i s }

/-- `_maybe_end_run_session`, called from the run task `current` or from elsewhere. -/
def maybeEndRunSession (w : World) (i : Nat) (current : Option Nat) : World :=
  let s := w.services i
  match s.runSessionSlot with
  | none => w
  | some owner =>
    if 0 < s.runSessionPins then w
    else if s.isRunning ∧ (s.runTask ≠ current ∨ s.rerunRequested) then w
    else { w.set i { s with runSessionSlot := none } with limiter := w.limiter.release owner }

/-- `_unpin_run_session`. -/
def unpinRunSession (w : World) (i : Nat) : World :=
  let s := w.services i
  (w.set i { s with runSessionPins := s.runSessionPins - 1 }).maybeEndRunSession i none

/-- `settle` of a task as it is now: a thread that still executes settles itself when it exits. -/
def settle (w : World) (i : Nat) (task : RunTask) (current : Option Nat) : World :=
  if task.worker = .executing then w
  else { w with limiter := w.limiter.release task.slot }.maybeEndRunSession i current

/-- A task changes. -/
def setTask (w : World) (i t : Nat) (task : RunTask) : World :=
  let s := w.services i
  w.set i { s with tasks := s.tasks.set t task }

/-- A task with what it has to be, changed. -/
def onTask (w : World) (i t : Nat) (f : RunTask → Option (World → World)) : Option World :=
  ((w.services i).tasks[t]?).bind fun task => (f task).map fun g => g w

/-- The task of the run is created: the session's permit is shared with it. -/
def createTask (w : World) (i : Nat) (limiter : Limiter) (owner : Nat) : Option World :=
  let s := w.services i
  (limiter.share owner).map fun (limiter, slot) =>
    { w.set i
        { s with runSessionSlot := some owner, runTask := some s.tasks.length, tasks := s.tasks ++ [{ slot }], waiting := false }
      with limiter }

/-- `run` gets past its checks. -/
def mayRun (s : Service) : Bool := s.phase = .active ∧ ¬ s.isRunning ∧ ¬ s.waiting

/-- `run`. -/
def run (w : World) (i : Nat) (runSlot : Option Nat) : Option World :=
  let s := w.services i
  if ¬ mayRun s ∨ ¬ runSlot.all (· ∈ w.reservations) then none
  else
    match s.runSessionSlot, runSlot with
    | some owner, none => w.createTask i w.limiter owner
    | some owner, some slot => w.createTask i (w.limiter.release slot) owner
    | none, some slot => (w.limiter.share slot).bind fun (limiter, owner) => w.createTask i limiter owner
    | none, none => w.limiter.acquire.bind fun (limiter, owner) => w.createTask i limiter owner

/-- `_schedule_goal_loop`. -/
def startGoalLoop (w : World) (i : Nat) : Option World :=
  let s := w.services i
  if ¬ mayRun s ∨ s.goal.isSome then none
  else
    w.limiter.acquire.map fun (limiter, slot) =>
      let s := { s with runSessionPins := s.runSessionPins + 1, goal := some .scheduled }
      match s.runSessionSlot with
      | none => { w.set i { s with runSessionSlot := some slot } with limiter }
      | some _ => { w.set i s with limiter := limiter.release slot }

def step (w : World) : Op → Option World
  | .run i runSlot => w.run i runSlot
  | .waitForCapacity i =>
    let s := w.services i
    if mayRun s ∧ s.runSessionSlot = none then some (w.set i { s with waiting := true }) else none
  | .waited i cancelled =>
    let s := w.services i
    if ¬ s.waiting then none
    else if cancelled then some (w.set i { s with waiting := false })
    else w.limiter.acquire.bind fun (limiter, owner) => w.createTask i limiter owner
  | .begin i t => w.onTask i t fun task =>
    if task.stage = .scheduled then some fun w => w.setTask i t { task with stage := .running } else none
  | .startWorker i t => w.onTask i t fun task =>
    if task.stage = .running ∧ task.worker = .none then some fun w => w.setTask i t { task with worker := .executing }
    else none
  | .workerExits i t => w.onTask i t fun task =>
    if task.worker = .executing then some fun w => w.setTask i t { task with worker := .exited } else none
  | .workerSettles i t => w.onTask i t fun task =>
    let task' := { task with worker := .settled }
    if task.worker = .exited then some fun w => (w.setTask i t task').settle i task' none else none
  | .bodyEnds i t => w.onTask i t fun task =>
    let task' := { task with stage := .tail }
    if task.stage = .running then some fun w => (w.setTask i t task').settle i task' (some t) else none
  | .clearRunTask i t => w.onTask i t fun task =>
    if task.stage = .tail then some fun w => w.set i { w.services i with runTask := none } else none
  | .setRerunRequested i requested => some (w.set i { w.services i with rerunRequested := requested })
  | .taskDone i t => w.onTask i t fun task =>
    -- Cancelled before its first step, a task is done without its `finally`.
    if task.stage = .scheduled ∨ task.stage = .tail then some fun w => w.setTask i t { task with stage := .done } else none
  | .taskSettles i t => w.onTask i t fun task =>
    let task' := { task with stage := .settled }
    if task.stage = .done then some fun w => (w.setTask i t task').settle i task' none else none
  | .interrupted i => if (w.services i).isRunning then none else some (w.set i { w.services i with runTask := none })
  | .startGoalLoop i => w.startGoalLoop i
  | .goalBegins i =>
    let s := w.services i
    if s.goal = some .scheduled then some (w.set i { s with goal := some .running }) else none
  | .goalEnds i =>
    let s := w.services i
    if s.goal = some .running then some ((w.set i { s with goal := none }).unpinRunSession i) else none
  | .cancelGoal i =>
    let s := w.services i
    -- Neither does a goal loop that has not begun run its `finally`; one that has comes to its end later.
    if s.goal = some .scheduled then some (w.set i { s with goal := none }) else some w
  | .supersede i =>
    let s := w.services i
    some (w.set i { s with supersedes := s.supersedes + 1, runSessionPins := s.runSessionPins + 1 })
  | .endSupersede i =>
    let s := w.services i
    if s.supersedes = 0 then none
    else some ((w.set i { s with supersedes := s.supersedes - 1 }).unpinRunSession i)
  | .reserve => w.limiter.acquire.map fun (limiter, slot) =>
    { w with limiter, reservations := slot :: w.reservations }
  | .release slot => if slot ∈ w.reservations then some { w with limiter := w.limiter.release slot } else none
  | .close i => some (w.set i { w.services i with rerunRequested := false, runSessionPins := 0, phase := .closing })
  | .endClose i =>
    let s := w.services i
    if s.phase ≠ .closing ∨ s.goal.isSome then none
    else
      let s := { s with runTask := if s.isRunning then none else s.runTask }
      let w := (w.set i s).maybeEndRunSession i none
      some (w.set i { w.services i with phase := .closed })

end World

/-- No run, goal loop or restart is under way, and none is being closed. -/
structure Service.Idle (s : Service) : Prop where
  tasks : ∀ task ∈ s.tasks, task.pending = false
  goal : s.goal = none
  supersedes : s.supersedes = 0
  phase : s.phase ≠ .closing

structure World.Idle (w : World) : Prop where
  services : ∀ i, (w.services i).Idle
  reservations : ∀ slot ∈ w.reservations, w.limiter.permit slot = none

/-- Only `close` cancels a goal loop before its first step. -/
def Op.Allowed (w : World) : Op → Prop
  | .cancelGoal i => (w.services i).goal = some .scheduled → (w.services i).phase = .closing
  | _ => True

instance Op.decidableAllowed (w : World) (op : Op) : Decidable (op.Allowed w) := by
  cases op <;> unfold Op.Allowed <;> infer_instance

/-- A slot is in use. -/
def World.Uses (w : World) (slot : Nat) : Prop :=
  slot ∈ w.reservations ∨ ∃ i, (w.services i).runSessionSlot = some slot ∨
    ∃ task ∈ (w.services i).tasks, task.slot = slot ∧ task.pending = true

/-- The tokens taken belong to the permits that are held, each by a request, a
session or a run; a permit that nobody holds has returned its token once; and
when nothing is under way all tokens are back. -/
structure PermitsConserved (w : World) : Prop where
  taken : w.limiter.maxConcurrentRuns.isSome = true → w.limiter.taken = w.limiter.livePermits
  returned : ∀ permit ∈ w.limiter.permits,
    permit.returned = if w.limiter.maxConcurrentRuns.isSome ∧ permit.refs = 0 then 1 else 0
  held : ∀ slot p, w.limiter.permit slot = some p → w.Uses slot
  back : w.Idle → w.limiter.taken = 0

/-! ## The invariant -/

/-- Something will end the session. -/
def Service.Needed (s : Service) : Prop :=
  (∃ task ∈ s.tasks, task.pending = true) ∨ s.goal.isSome = true ∨ s.supersedes ≠ 0 ∨ s.phase = .closing

/-- What holds of a service whether or not its session is still needed. -/
structure Service.Sound (s : Service) : Prop where
  pins : s.runSessionPins ≤ s.supersedes + if s.phase = .active ∧ s.goal.isSome then 1 else 0
  waiting : s.waiting = true → s.runSessionSlot = none

structure Service.Inv (s : Service) : Prop extends s.Sound where
  session : s.runSessionSlot.isSome = true → s.Needed

structure Inv (w : World) : Prop where
  conserved : w.limiter.Conserved
  used : ∀ slot p, w.limiter.permit slot = some p → w.Uses slot
  services : ∀ i, (w.services i).Inv

/-- The session of one service may have to end. -/
structure Almost (w : World) (i : Nat) : Prop where
  conserved : w.limiter.Conserved
  used : ∀ slot p, w.limiter.permit slot = some p → w.Uses slot
  sound : (w.services i).Sound
  others : ∀ j, j ≠ i → (w.services j).Inv

section Frame
variable {w w' : World} {i : Nat} {s : Service} {slot : Nat}

@[simp] theorem World.services_set_self (w : World) (i : Nat) (s : Service) : (w.set i s).services i = s := by
  simp [World.set]

theorem World.services_set_ne {j : Nat} (h : j ≠ i) : (w.set i s).services j = w.services j := by
  simp [World.set, h]

/-- The slots in use when a service changes. -/
theorem World.Uses.set (h : w.Uses slot)
    (hsession : (w.services i).runSessionSlot = some slot → s.runSessionSlot = some slot)
    (htasks : ∀ task ∈ (w.services i).tasks, task.slot = slot → task.pending = true →
      ∃ task' ∈ s.tasks, task'.slot = slot ∧ task'.pending = true) : (w.set i s).Uses slot := by
  rcases h with hres | ⟨j, hj⟩
  · exact .inl hres
  · refine .inr ⟨j, ?_⟩
    by_cases heq : j = i
    · subst heq
      rw [World.services_set_self]
      rcases hj with hj | ⟨task, htask, hslot, hpending⟩
      · exact .inl (hsession hj)
      · exact .inr (htasks task htask hslot hpending)
    · rwa [World.services_set_ne heq]

theorem services_set {P : Service → Prop} (hs : P s) (hothers : ∀ j, j ≠ i → P (w.services j)) :
    ∀ j, P ((w.set i s).services j) := by
  intro j
  by_cases heq : j = i
  · subst heq
    rwa [World.services_set_self]
  · rw [World.services_set_ne heq]
    exact hothers j heq

/-- A service changes without a change to its slots. -/
theorem Inv.set (h : Inv w) (hs : s.Inv) (hsession : s.runSessionSlot = (w.services i).runSessionSlot)
    (htasks : ∀ task ∈ (w.services i).tasks, task.pending = true →
      ∃ task' ∈ s.tasks, task'.slot = task.slot ∧ task'.pending = true) : Inv (w.set i s) := by
  refine ⟨h.conserved, fun slot p hp => ?_, services_set hs fun j _ => h.services j⟩
  refine (h.used slot p hp).set (fun hin => hsession.trans hin) fun task htask hslot hpending => ?_
  obtain ⟨task', htask', hsame, hpending'⟩ := htasks task htask hpending
  exact ⟨task', htask', hsame.trans hslot, hpending'⟩

theorem live_pending {task : RunTask} (h : task.live = true) : task.pending = true := by
  unfold RunTask.live at h
  unfold RunTask.pending
  rw [decide_eq_true_eq] at h ⊢
  refine .inl fun hsettled => ?_
  rw [hsettled] at h
  simp at h

theorem Service.needed_of_isRunning (h : s.isRunning = true) : s.Needed := by
  simp only [Service.isRunning, Option.any_eq_true] at h
  obtain ⟨t, -, task, htask, hlive⟩ := h
  exact .inl ⟨task, List.mem_of_getElem? htask, live_pending hlive⟩

/-- A session with pins is needed. -/
theorem Service.Sound.needed_of_pins (h : s.Sound) (hpins : 0 < s.runSessionPins) : s.Needed := by
  have hle := h.pins
  split at hle
  · rename_i hgoal
    exact .inr (.inl hgoal.2)
  · exact .inr (.inr (.inl (by omega)))

/-- `_maybe_end_run_session` ends the session that is not needed. -/
theorem Almost.maybeEndRunSession (h : Almost w i) (current : Option Nat) : Inv (w.maybeEndRunSession i current) := by
  have hkeep : ((w.services i).runSessionSlot.isSome = true → (w.services i).Needed) → Inv w := by
    intro hsession
    refine ⟨h.conserved, h.used, fun j => ?_⟩
    by_cases heq : j = i
    · rw [heq]
      exact ⟨h.sound, hsession⟩
    · exact h.others j heq
  unfold World.maybeEndRunSession
  dsimp only
  cases hslot : (w.services i).runSessionSlot with
  | none => exact hkeep (by simp [hslot])
  | some owner =>
    dsimp only
    split
    · rename_i hpins
      exact hkeep fun _ => h.sound.needed_of_pins hpins
    · split
      · rename_i hrun
        exact hkeep fun _ => Service.needed_of_isRunning hrun.1
      · refine ⟨h.conserved.release owner, fun slot p hp => ?_, ?_⟩
        · dsimp only at hp
          rw [Limiter.permit_release] at hp
          split at hp
          · cases hp
          · rename_i hne
            refine (h.used slot p hp).set (fun hin => ?_) fun task htask hs hpending => ⟨task, htask, hs, hpending⟩
            rw [hslot, Option.some.injEq] at hin
            exact absurd hin.symm hne
        · refine services_set ⟨⟨h.sound.pins, fun _ => rfl⟩, nofun⟩ h.others

/-- A task settles that has been marked before. -/
theorem inv_settle {task : RunTask} {current : Option Nat} (hconserved : w.limiter.Conserved)
    (hused : ∀ slot p, w.limiter.permit slot = some p → slot ≠ task.slot → w.Uses slot)
    (htask : task ∈ (w.services i).tasks) (hsound : (w.services i).Sound) (hothers : ∀ j, j ≠ i → (w.services j).Inv) :
    Inv (w.settle i task current) := by
  unfold World.settle
  split
  · rename_i hexecuting
    have hpending : task.pending = true := by simp [RunTask.pending, hexecuting]
    refine ⟨hconserved, fun slot p hp => ?_, fun j => ?_⟩
    · by_cases heq : slot = task.slot
      · exact .inr ⟨i, .inr ⟨task, htask, heq.symm, hpending⟩⟩
      · exact hused slot p hp heq
    · by_cases heq : j = i
      · rw [heq]
        exact ⟨hsound, fun _ => .inl ⟨task, htask, hpending⟩⟩
      · exact hothers j heq
  · have halmost : Almost { w with limiter := w.limiter.release task.slot } i := by
      refine ⟨hconserved.release _, fun slot p hp => ?_, hsound, hothers⟩
      dsimp only at hp
      rw [Limiter.permit_release] at hp
      split at hp
      · cases hp
      · exact hused slot p hp ‹_›
    exact halmost.maybeEndRunSession current

/-- A task changes, and settles with that. -/
theorem Inv.settleTask (h : Inv w) {t : Nat} {task task' : RunTask} {current : Option Nat}
    (htask : (w.services i).tasks[t]? = some task) (hslot : task'.slot = task.slot) :
    Inv ((w.setTask i t task').settle i task' current) := by
  obtain ⟨hlt, hget⟩ := List.getElem?_eq_some_iff.1 htask
  unfold World.setTask
  refine inv_settle h.conserved (fun slot p hp hne => ?_) ?_ ?_ fun j hj => ?_
  · refine (h.used slot p hp).set id fun other hother hs hpending => ⟨other, ?_, hs, hpending⟩
    dsimp only
    obtain ⟨k, hk, rfl⟩ := List.mem_iff_getElem.1 hother
    have hkt : k ≠ t := by
      rintro rfl
      rw [hget] at hs
      exact hne (hs.symm.trans hslot.symm)
    rw [List.mem_iff_getElem?]
    exact ⟨k, by rw [List.getElem?_set_ne (Ne.symm hkt), List.getElem?_eq_getElem hk]⟩
  · rw [World.services_set_self]
    exact List.mem_set hlt _
  · rw [World.services_set_self]
    exact ⟨(h.services i).pins, (h.services i).waiting⟩
  · rw [World.services_set_ne hj]
    exact h.services j

/-- A task changes that stays pending. -/
theorem Inv.setTask (h : Inv w) {t : Nat} {task task' : RunTask} (htask : (w.services i).tasks[t]? = some task)
    (hslot : task'.slot = task.slot) (hpending : task'.pending = true) : Inv (w.setTask i t task') := by
  obtain ⟨hlt, hget⟩ := List.getElem?_eq_some_iff.1 htask
  have hkeep : ∀ other ∈ (w.services i).tasks, other.pending = true →
      ∃ new ∈ (w.services i).tasks.set t task', new.slot = other.slot ∧ new.pending = true := by
    intro other hother hp
    obtain ⟨k, hk, rfl⟩ := List.mem_iff_getElem.1 hother
    by_cases hkt : k = t
    · subst hkt
      exact ⟨task', List.mem_set hlt _, by rw [hslot, hget], hpending⟩
    · refine ⟨_, ?_, rfl, hp⟩
      rw [List.mem_iff_getElem?]
      exact ⟨k, by rw [List.getElem?_set_ne (Ne.symm hkt), List.getElem?_eq_getElem hk]⟩
  refine h.set ⟨⟨(h.services i).pins, (h.services i).waiting⟩, fun hsession => ?_⟩ rfl hkeep
  rcases (h.services i).session hsession with ⟨other, hother, hp⟩ | hrest
  · obtain ⟨new, hnew, -, hp'⟩ := hkeep other hother hp
    exact .inl ⟨new, hnew, hp'⟩
  · exact .inr hrest

/-- The run of a session is created. -/
theorem Inv.createTask (h : Inv w) {limiter : Limiter} {owner : Nat} (hconserved : limiter.Conserved)
    (hused : ∀ slot p, limiter.permit slot = some p → slot = owner ∨ w.Uses slot)
    (hsession : ∀ old, (w.services i).runSessionSlot = some old → old = owner)
    (hw : w.createTask i limiter owner = some w') : Inv w' := by
  obtain ⟨⟨limiter', new⟩, hshare, rfl⟩ := Option.map_eq_some_iff.1 hw
  obtain ⟨hnew, p, hslots, -⟩ := Limiter.share_ok hshare
  have hs := h.services i
  refine ⟨hconserved.share hshare, fun slot q hq => ?_, services_set ?_ fun j _ => h.services j⟩
  · dsimp only at hq
    rw [Limiter.permit_append hslots] at hq
    have hnewUses : ∀ slot, slot = new ∨ slot = owner → (w.set i
        { w.services i with
          runSessionSlot := some owner
          runTask := some (w.services i).tasks.length
          tasks := (w.services i).tasks ++ [{ slot := new }]
          waiting := false }).Uses slot := by
      rintro slot (rfl | rfl)
      · refine .inr ⟨i, .inr ⟨{ slot }, ?_, rfl, rfl⟩⟩
        rw [World.services_set_self]
        simp
      · exact .inr ⟨i, .inl (by rw [World.services_set_self])⟩
    split at hq
    · rename_i heq
      exact hnewUses slot (.inl (heq.trans hnew.symm))
    · rcases hused slot q hq with heq | huses
      · exact hnewUses slot (.inr heq)
      · refine huses.set (fun hin => ?_) fun task htask hslot hpending => ⟨task, List.mem_append_left _ htask, hslot, hpending⟩
        dsimp only
        rw [hsession slot hin]
  · exact ⟨⟨hs.pins, nofun⟩, fun _ => .inl ⟨{ slot := new }, by simp, rfl⟩⟩

end Frame

/-! ## One operation -/

section Steps
variable {w w' : World} {i : Nat}

attribute [local simp] World.step

theorem Inv.unpin (h : Inv w) {s : Service} (hpins : s.runSessionPins - 1 ≤
      s.supersedes + if s.phase = .active ∧ s.goal.isSome then 1 else 0)
    (hwaiting : s.waiting = true → s.runSessionSlot = none)
    (hsession : s.runSessionSlot = (w.services i).runSessionSlot) (htasks : s.tasks = (w.services i).tasks) :
    Inv ((w.set i s).unpinRunSession i) := by
  unfold World.unpinRunSession
  dsimp only
  rw [World.services_set_self]
  have hset : (w.set i s).set i { s with runSessionPins := s.runSessionPins - 1 } =
      w.set i { s with runSessionPins := s.runSessionPins - 1 } := by
    simp only [World.set, Function.update_idem]
  rw [hset]
  have halmost : Almost (w.set i { s with runSessionPins := s.runSessionPins - 1 }) i := by
    refine ⟨h.conserved, fun slot p hp => ?_, ?_, fun j hj => ?_⟩
    rotate_right
    · rw [World.services_set_ne hj]
      exact h.services j
    · refine (h.used slot p hp).set (fun hin => hsession.trans hin) fun task htask hslot hpending => ⟨task, ?_, hslot, hpending⟩
      dsimp only
      rwa [htasks]
    · rw [World.services_set_self]
      exact ⟨hpins, hwaiting⟩
  exact halmost.maybeEndRunSession none

theorem Inv.acquired (h : Inv w) {limiter : Limiter} {slot : Nat} (hacquire : w.limiter.acquire = some (limiter, slot)) :
    limiter.Conserved ∧ ∀ other p, limiter.permit other = some p → other = slot ∨ w.Uses other := by
  obtain ⟨hslot, p, hslots, -⟩ := Limiter.acquire_ok hacquire
  refine ⟨h.conserved.acquire hacquire, fun other q hq => ?_⟩
  rw [Limiter.permit_append hslots] at hq
  split at hq
  · exact .inl (‹other = _›.trans hslot.symm)
  · exact .inr (h.used other q hq)

theorem Inv.run (h : Inv w) {runSlot : Option Nat} (hw : w.run i runSlot = some w') : Inv w' := by
  unfold World.run at hw
  dsimp only at hw
  split at hw
  · cases hw
  · cases hsession : (w.services i).runSessionSlot with
    | some owner =>
      have hold : ∀ old, (w.services i).runSessionSlot = some old → old = owner := fun old hold => by simp_all
      rw [hsession] at hw
      cases runSlot with
      | none => exact h.createTask h.conserved (fun slot p hp => .inr (h.used slot p hp)) hold hw
      | some slot =>
        refine h.createTask (h.conserved.release slot) (fun other p hp => ?_) hold hw
        rw [Limiter.permit_release] at hp
        split at hp
        · cases hp
        · exact .inr (h.used other p hp)
    | none =>
      have hold : ∀ owner old, (w.services i).runSessionSlot = some old → old = owner := fun _ old hold => by simp_all
      rw [hsession] at hw
      cases runSlot with
      | some slot =>
        obtain ⟨⟨limiter, owner⟩, hshare, hw⟩ := Option.bind_eq_some_iff.1 hw
        obtain ⟨howner, p, hslots, -⟩ := Limiter.share_ok hshare
        refine h.createTask (h.conserved.share hshare) (fun other q hq => ?_) (hold owner) hw
        rw [Limiter.permit_append hslots] at hq
        split at hq
        · exact .inl (‹other = _›.trans howner.symm)
        · exact .inr (h.used other q hq)
      | none =>
        obtain ⟨⟨limiter, owner⟩, hacquire, hw⟩ := Option.bind_eq_some_iff.1 hw
        obtain ⟨hconserved, hused⟩ := h.acquired hacquire
        exact h.createTask hconserved hused (hold owner) hw

theorem Inv.startGoalLoop (h : Inv w) (hw : w.startGoalLoop i = some w') : Inv w' := by
  unfold World.startGoalLoop at hw
  dsimp only at hw
  split at hw
  · cases hw
  · rename_i hmay
    simp only [World.mayRun, not_or, Decidable.not_not, decide_eq_true_eq] at hmay
    obtain ⟨⟨hactive, -, hwaiting⟩, hgoal⟩ := hmay
    have hs := h.services i
    have hpins : (w.services i).runSessionPins ≤ (w.services i).supersedes := by
      have := hs.pins
      rwa [if_neg fun hc => hgoal hc.2, Nat.add_zero] at this
    obtain ⟨⟨limiter, slot⟩, hacquire, rfl⟩ := Option.map_eq_some_iff.1 hw
    obtain ⟨hconserved, hused⟩ := h.acquired hacquire
    have hpins' : (w.services i).runSessionPins + 1 ≤ (w.services i).supersedes +
        if (w.services i).phase = .active ∧ (some GoalStage.scheduled).isSome = true then 1 else 0 := by
      rw [if_pos ⟨hactive, rfl⟩]
      omega
    dsimp only
    split
    · rename_i hnone
      refine ⟨hconserved, fun other p hp => ?_, services_set ⟨⟨hpins', fun hw => absurd hw hwaiting⟩, fun _ => .inr (.inl rfl)⟩
        fun j _ => h.services j⟩
      rcases hused other p hp with rfl | huses
      · exact .inr ⟨i, .inl (by rw [World.services_set_self])⟩
      · exact huses.set (fun hin => by rw [hnone] at hin; cases hin) fun task htask hslot hpending =>
          ⟨task, htask, hslot, hpending⟩
    · refine ⟨hconserved.release slot, fun other p hp => ?_, services_set ⟨⟨hpins', hs.waiting⟩, fun _ => .inr (.inl rfl)⟩
        fun j _ => h.services j⟩
      dsimp only at hp
      rw [Limiter.permit_release] at hp
      split at hp
      · cases hp
      · rename_i hne
        exact ((hused other p hp).resolve_left hne).set id fun task htask hslot hpending => ⟨task, htask, hslot, hpending⟩

/-- A session that is left has pins or a live task. -/
theorem services_maybeEndRunSession (w : World) (i : Nat) (current : Option Nat) :
    ∃ session, (w.maybeEndRunSession i current).services i = { w.services i with runSessionSlot := session } ∧
      (session.isSome = true → 0 < (w.services i).runSessionPins ∨ (w.services i).isRunning = true) := by
  unfold World.maybeEndRunSession
  dsimp only
  split
  · rename_i hnone
    exact ⟨(w.services i).runSessionSlot, rfl, by simp [hnone]⟩
  · split
    · exact ⟨(w.services i).runSessionSlot, rfl, fun _ => .inl ‹_›⟩
    · split
      · rename_i hrun
        exact ⟨(w.services i).runSessionSlot, rfl, fun _ => .inr hrun.1⟩
      · exact ⟨none, World.services_set_self _ _ _, nofun⟩

theorem Inv.endClose (h : Inv w) (hw : w.step (.endClose i) = some w') : Inv w' := by
  simp only [World.step] at hw
  split at hw
  · cases hw
  · rename_i hclosing
    simp only [not_or, Decidable.not_not] at hclosing
    cases hw
    let s : Service := { w.services i with runTask := if (w.services i).isRunning then none else (w.services i).runTask }
    have hstopped : s.isRunning = false := by
      cases hrun : (w.services i).isRunning with
      | true =>
        have hnone : s.runTask = none := by simp only [s, hrun, if_true]
        rw [Service.isRunning, hnone]
        rfl
      | false =>
        have hsame : s.runTask = (w.services i).runTask := by simp [s, hrun]
        rw [Service.isRunning, hsame]
        exact hrun
    have hs := h.services i
    have halmost : Almost (w.set i s) i := by
      refine ⟨h.conserved, fun slot p hp => ?_, ?_, fun j hj => ?_⟩
      · exact (h.used slot p hp).set id fun task htask hslot hpending => ⟨task, htask, hslot, hpending⟩
      · rw [World.services_set_self]
        exact ⟨hs.pins, hs.waiting⟩
      · rw [World.services_set_ne hj]
        exact h.services j
    obtain ⟨session, hservice, hleft⟩ := services_maybeEndRunSession (w.set i s) i none
    rw [World.services_set_self] at hservice hleft
    have hinv := halmost.maybeEndRunSession none
    have hi := hinv.services i
    rw [hservice] at hi
    have hpins : s.runSessionPins ≤ s.supersedes := by
      have := hs.pins
      rwa [hclosing.1, if_neg (by simp), Nat.add_zero] at this
    refine hinv.set (i := i) ⟨⟨?_, ?_⟩, ?_⟩ rfl fun task htask hpending => ⟨task, htask, rfl, hpending⟩
    · rw [hservice]
      exact Nat.le_add_right_of_le hpins
    · rw [hservice]
      exact hi.waiting
    · rw [hservice]
      intro hsome
      rcases hleft hsome with hpinned | hrun
      · exact .inr (.inr (.inl (Nat.ne_of_gt (Nat.lt_of_lt_of_le hpinned hpins))))
      · rw [hstopped] at hrun
        cases hrun

/-- The tasks stay as they are, and so does the session. -/
theorem Inv.setFields (h : Inv w) {s : Service} (hsession : s.runSessionSlot = (w.services i).runSessionSlot)
    (htasks : s.tasks = (w.services i).tasks) (hs : s.Inv) : Inv (w.set i s) :=
  h.set hs hsession fun task htask hpending => ⟨task, htasks ▸ htask, rfl, hpending⟩

theorem inv_onTask {t : Nat} {f : RunTask → Option (World → World)} (hw : w.onTask i t f = some w')
    (hf : ∀ task g, (w.services i).tasks[t]? = some task → f task = some g → Inv (g w)) : Inv w' := by
  obtain ⟨task, htask, hw⟩ := Option.bind_eq_some_iff.1 hw
  obtain ⟨g, hg, rfl⟩ := Option.map_eq_some_iff.1 hw
  exact hf task g htask hg

theorem Inv.waitForCapacity (h : Inv w) (hw : w.step (.waitForCapacity i) = some w') : Inv w' := by
  simp only [World.step] at hw
  split at hw
  · rename_i hmay
    cases hw
    have hs := h.services i
    exact h.setFields rfl rfl ⟨⟨hs.pins, fun _ => hmay.2⟩, hs.session⟩
  · cases hw

theorem Inv.waited {cancelled : Bool} (h : Inv w) (hw : w.step (.waited i cancelled) = some w') : Inv w' := by
  simp only [World.step] at hw
  split at hw
  · cases hw
  · rename_i hwaiting
    have hs := h.services i
    split at hw
    · cases hw
      exact h.setFields rfl rfl ⟨⟨hs.pins, nofun⟩, hs.session⟩
    · obtain ⟨⟨limiter, owner⟩, hacquire, hw⟩ := Option.bind_eq_some_iff.1 hw
      obtain ⟨hconserved, hused⟩ := h.acquired hacquire
      refine h.createTask hconserved hused (fun old hold => ?_) hw
      rw [hs.waiting (by simpa using hwaiting)] at hold
      cases hold

theorem Inv.interrupted (h : Inv w) (hw : w.step (.interrupted i) = some w') : Inv w' := by
  simp only [World.step] at hw
  split at hw
  · cases hw
  · cases hw
    have hs := h.services i
    exact h.setFields rfl rfl ⟨⟨hs.pins, hs.waiting⟩, hs.session⟩

theorem Inv.goalBegins (h : Inv w) (hw : w.step (.goalBegins i) = some w') : Inv w' := by
  simp only [World.step] at hw
  split at hw
  · rename_i hgoal
    cases hw
    have hs := h.services i
    have hpins := hs.pins
    rw [hgoal] at hpins
    exact h.setFields rfl rfl ⟨⟨hpins, hs.waiting⟩, fun _ => .inr (.inl rfl)⟩
  · cases hw

theorem Inv.goalEnds (h : Inv w) (hw : w.step (.goalEnds i) = some w') : Inv w' := by
  simp only [World.step] at hw
  split at hw
  · rename_i hgoal
    cases hw
    have hs := h.services i
    have hpins := hs.pins
    refine h.unpin ?_ hs.waiting rfl rfl
    dsimp only
    split at hpins <;> omega
  · cases hw

theorem Inv.cancelGoal (h : Inv w) (hok : (Op.cancelGoal i).Allowed w) (hw : w.step (.cancelGoal i) = some w') :
    Inv w' := by
  simp only [World.step] at hw
  split at hw
  · rename_i hgoal
    cases hw
    have hclosing : (w.services i).phase = .closing := hok hgoal
    have hs := h.services i
    have hpins := hs.pins
    rw [hclosing, if_neg (by simp)] at hpins
    exact h.setFields rfl rfl ⟨⟨Nat.le_add_right_of_le hpins, hs.waiting⟩, fun _ => .inr (.inr (.inr hclosing))⟩
  · cases hw
    exact h

theorem Inv.supersede (h : Inv w) (hw : w.step (.supersede i) = some w') : Inv w' := by
  cases hw
  have hs := h.services i
  have hpins := hs.pins
  refine h.setFields rfl rfl ⟨⟨?_, hs.waiting⟩, fun _ => .inr (.inr (.inl (Nat.succ_ne_zero _)))⟩
  dsimp only
  omega

theorem Inv.endSupersede (h : Inv w) (hw : w.step (.endSupersede i) = some w') : Inv w' := by
  simp only [World.step] at hw
  split at hw
  · cases hw
  · cases hw
    have hs := h.services i
    have hpins := hs.pins
    refine h.unpin ?_ hs.waiting rfl rfl
    dsimp only
    omega

theorem Inv.reserve (h : Inv w) (hw : w.step .reserve = some w') : Inv w' := by
  obtain ⟨⟨limiter, slot⟩, hacquire, rfl⟩ := Option.map_eq_some_iff.1 hw
  obtain ⟨hconserved, hused⟩ := h.acquired hacquire
  refine ⟨hconserved, fun other p hp => ?_, h.services⟩
  rcases hused other p hp with rfl | hres | huses
  · exact .inl List.mem_cons_self
  · exact .inl (List.mem_cons_of_mem _ hres)
  · exact .inr huses

theorem Inv.release {slot : Nat} (h : Inv w) (hw : w.step (.release slot) = some w') : Inv w' := by
  simp only [World.step] at hw
  split at hw
  · cases hw
    refine ⟨h.conserved.release slot, fun other p hp => ?_, h.services⟩
    dsimp only at hp
    rw [Limiter.permit_release] at hp
    split at hp
    · cases hp
    · exact h.used other p hp
  · cases hw

theorem Inv.step {op : Op} (h : Inv w) (hok : op.Allowed w) (hw : w.step op = some w') : Inv w' := by
  cases op with
  | run i runSlot => exact h.run hw
  | waitForCapacity i => exact h.waitForCapacity hw
  | waited i cancelled => exact h.waited hw
  | begin i t =>
    refine inv_onTask hw fun task g htask hg => ?_
    split at hg
    · cases hg
      -- A step of a task that settles nothing leaves the permits alone.
      exact h.setTask htask rfl rfl
    · cases hg
  | startWorker i t =>
    refine inv_onTask hw fun task g htask hg => ?_
    split at hg
    · cases hg
      exact h.setTask htask rfl (by simp [RunTask.pending])
    · cases hg
  | workerExits i t =>
    refine inv_onTask hw fun task g htask hg => ?_
    split at hg
    · cases hg
      exact h.setTask htask rfl (by simp [RunTask.pending])
    · cases hg
  | workerSettles i t =>
    refine inv_onTask hw fun task g htask hg => ?_
    dsimp only at hg
    split at hg
    · cases hg
      -- The task gives its permit back.
      exact h.settleTask htask rfl
    · cases hg
  | bodyEnds i t =>
    refine inv_onTask hw fun task g htask hg => ?_
    dsimp only at hg
    split at hg
    · cases hg
      exact h.settleTask htask rfl
    · cases hg
  | clearRunTask i t =>
    refine inv_onTask hw fun task g htask hg => ?_
    split at hg
    · cases hg
      have hs := h.services i
      exact h.setFields rfl rfl ⟨⟨hs.pins, hs.waiting⟩, hs.session⟩
    · cases hg
  | setRerunRequested i requested =>
    cases hw
    have hs := h.services i
    exact h.setFields rfl rfl ⟨⟨hs.pins, hs.waiting⟩, hs.session⟩
  | taskDone i t =>
    refine inv_onTask hw fun task g htask hg => ?_
    split at hg
    · cases hg
      exact h.setTask htask rfl rfl
    · cases hg
  | taskSettles i t =>
    refine inv_onTask hw fun task g htask hg => ?_
    dsimp only at hg
    split at hg
    · cases hg
      exact h.settleTask htask rfl
    · cases hg
  | interrupted i => exact h.interrupted hw
  | startGoalLoop i => exact h.startGoalLoop hw
  | goalBegins i => exact h.goalBegins hw
  | goalEnds i => exact h.goalEnds hw
  | cancelGoal i => exact h.cancelGoal hok hw
  | supersede i => exact h.supersede hw
  | endSupersede i => exact h.endSupersede hw
  | reserve => exact h.reserve hw
  | release slot => exact h.release hw
  | close i =>
    cases hw
    have hs := h.services i
    exact h.setFields rfl rfl ⟨⟨Nat.zero_le _, hs.waiting⟩, fun _ => .inr (.inr (.inr rfl))⟩
  | endClose i => exact h.endClose hw

theorem Inv.permitsConserved (h : Inv w) : PermitsConserved w := by
  refine ⟨h.conserved.taken_eq, h.conserved.returned, h.used, fun hidle => ?_⟩
  refine h.conserved.taken_eq_zero fun slot => ?_
  cases hp : w.limiter.permit slot with
  | none => rfl
  | some p =>
    rcases h.used slot p hp with hres | ⟨i, hsession | ⟨task, htask, -, hpending⟩⟩
    · rw [hidle.reservations slot hres] at hp
      cases hp
    · have hi := hidle.services i
      rcases (h.services i).session (by rw [hsession]; rfl) with ⟨task, htask, hpending⟩ | hgoal | hsup | hclosing
      · rw [hi.tasks task htask] at hpending
        cases hpending
      · rw [hi.goal] at hgoal
        cases hgoal
      · exact absurd hi.supersedes hsup
      · exact absurd hclosing hi.phase
    · rw [(hidle.services i).tasks task htask] at hpending
      cases hpending

end Steps

/-- **Permits are conserved.** In every run in which only `close` cancels a goal
loop before its first step. -/
theorem permitsConserved_of_reaches {maxConcurrentRuns : Option Nat} {w : World}
    (h : Reaches World.step (fun w op => op.Allowed w) { limiter := { maxConcurrentRuns } } w) : PermitsConserved w := by
  have hinit : Inv { limiter := { maxConcurrentRuns } } := by
    refine ⟨⟨by simp, by simp, by simp, by simp, rfl⟩, by simp [Limiter.permit], fun i => ⟨⟨Nat.zero_le _, nofun⟩, nofun⟩⟩
  exact (h.invariant hinit fun _ _ _ hi hok hw => hi.step hok hw).permitsConserved

namespace GoalExample

/-- A goal loop with one round. -/
def round : List Op :=
  [.startGoalLoop 0, .goalBegins 0, .run 0 none, .begin 0 0, .bodyEnds 0 0, .clearRunTask 0 0, .taskDone 0 0,
    .taskSettles 0 0, .goalEnds 0]

/-- A goal loop that a message supersedes before its first step. -/
def stopped : List Op := [.startGoalLoop 0, .cancelGoal 0]

def start : World := { limiter := { maxConcurrentRuns := some 1 } }

def scheduled : Service := { runSessionSlot := some 0, runSessionPins := 1, goal := some .scheduled }

/-- The loop is gone, its pin is not. -/
def leaked : World where
  limiter := { maxConcurrentRuns := some 1, taken := 1, permits := [⟨1, true, 0⟩], slots := [some 0] }
  services := Function.update (Function.update (fun _ => {}) 0 scheduled) 0 { scheduled with goal := none }

theorem leaked_idle : leaked.Idle := by
  refine ⟨fun i => ?_, nofun⟩
  by_cases hi : i = 0
  · subst hi
    exact ⟨nofun, rfl, rfl, nofun⟩
  · have hother : leaked.services i = {} := by simp [leaked, hi]
    rw [hother]
    exact ⟨nofun, rfl, rfl, nofun⟩

end GoalExample

open GoalExample in
theorem permitsConserved_round : ∃ w, execAllowed World.step (fun w op => op.Allowed w) start round = some w ∧
    w.limiter.taken = 0 ∧ w.limiter.permits = [⟨0, false, 1⟩] ∧ PermitsConserved w := by
  have hrun : (execAllowed World.step (fun w op => op.Allowed w) start round).map
      (fun w => (w.limiter.taken, w.limiter.permits)) = some (0, [⟨0, false, 1⟩]) := by decide
  obtain ⟨w, hw, heq⟩ := Option.map_eq_some_iff.1 hrun
  obtain ⟨htaken, hpermits⟩ := Prod.mk.inj heq
  exact ⟨w, hw, htaken, hpermits, permitsConserved_of_reaches (reaches_of_execAllowed .init hw)⟩

open GoalExample in
/-- The pin of the goal loop keeps the token. -/
theorem taken_after_stopped :
    ¬ ∀ maxConcurrentRuns w,
      Reaches World.step (fun _ _ => True) { limiter := { maxConcurrentRuns } } w → PermitsConserved w := by
  intro h
  have hrun : exec World.step start stopped = some leaked := rfl
  have hback := (h _ leaked (reaches_of_exec .init hrun)).back leaked_idle
  cases hback

end AgentSdk.RunPermits
