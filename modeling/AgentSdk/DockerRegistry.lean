import AgentSdk.Lib.Runs
import Mathlib.Logic.Function.Basic
import Mathlib.Order.Nat
/-!
# The Docker registry

`DockerConversationRegistry` for one conversation: callers of `get_or_create`
that share a start and may be cancelled, `stop`, the eviction of an idle runtime,
deletion and archiving. A container has the number of the start task that ran it.
-/

namespace AgentSdk
open Lib

/-- `_build_container` in a thread: before `docker run`, until the container is
ready, and its outcome. -/
inductive StartTask where
  | building
  | booting
  | done
  | failed
deriving DecidableEq, Repr

/-- Where an operation waits. -/
inductive RegistryPc where
  | idle
  | entering
  | checking (container : Nat)
  | dropping (container : Nat)
  | starting
  | waiting (task : Nat)
  | abandoning (task : Nat)
  | finishing (task : Nat)
  | discarding (container : Nat)
  | awaiting (task : Nat) (container : Option Nat)
  | stopping (container : Nat)
  | candidate (container : Nat)
  | evicting (container : Nat)
  | restoring (container : Nat)
deriving DecidableEq, Repr

/-- The container that the operation is going to register or to stop. -/
def RegistryPc.held? : RegistryPc → Option Nat
  | .waiting t | .finishing t | .discarding t | .stopping t | .evicting t | .restoring t => some t
  | .awaiting _ (some c) => some c
  | .awaiting t none => some t
  | _ => none

inductive RegistryOp where
  | getOrCreate
  | enter (i : Nat)
  | inspect (i : Nat)
  | drop (i : Nat)
  | start (i : Nat)
  | wake (i : Nat)
  | cancel (i : Nat)
  | abandon (i : Nat)
  | finish (i : Nat)
  | stop
  | joined (i : Nat)
  | evict
  | evictPop (i : Nat)
  | evictSkip (i : Nat)
  | dockerStop (i : Nat) (ok : Bool)
  | restore (i : Nat)
  | beginDelete
  | finishDelete
  | archive
  | dockerRun (task : Nat)
  | ready (task : Nat)
  | buildFails (task : Nat) (stopped : Bool)
  | die (container : Nat)
deriving DecidableEq, Repr

/-- `late` counts the `docker run` of a conversation that is archived or being
deleted; it is kept for the statement only. -/
structure RegistryWorld where
  containers : Option Nat := none
  starts : Option Nat := none
  deleting : Bool := false
  archived : Bool := false
  tasks : Nat → Option StartTask := fun _ => none
  nextTask : Nat := 0
  running : Nat → Bool := fun _ => false
  ops : Nat → RegistryPc := fun _ => .idle
  nextOp : Nat := 0
  late : Nat := 0

namespace RegistryWorld

def initial : RegistryWorld := {}

def setOp (s : RegistryWorld) (i : Nat) (pc : RegistryPc) : RegistryWorld :=
  { s with ops := Function.update s.ops i pc }

/-- A new operation. -/
def call (s : RegistryWorld) (pc : RegistryPc) : RegistryWorld := { s.setOp s.nextOp pc with nextOp := s.nextOp + 1 }

def setTask (s : RegistryWorld) (t : Nat) (task : StartTask) : RegistryWorld :=
  { s with tasks := Function.update s.tasks t (some task) }

def setRunning (s : RegistryWorld) (c : Nat) (running : Bool) : RegistryWorld :=
  { s with running := Function.update s.running c running }

/-- The blocks under the lifecycle lock are steps. The lock is also kept through
a stop of `finish`, which here other blocks may come into. -/
def step (s : RegistryWorld) : RegistryOp → Option RegistryWorld
  | .getOrCreate => some (s.call .entering)
  | .enter i =>
    match s.ops i with
    | .entering =>
      if s.deleting ∨ s.archived then some (s.setOp i .idle)
      else
        match s.containers with
        | some c => some (s.setOp i (.checking c))
        | none => some (s.setOp i .starting)
    | _ => none
  | .inspect i =>
    match s.ops i with
    | .checking c => some (s.setOp i (if s.running c then .idle else .dropping c))
    | _ => none
  | .drop i =>
    match s.ops i with
    | .dropping c =>
      some { s.setOp i .starting with containers := if s.containers = some c then none else s.containers }
    | _ => none
  | .start i =>
    match s.ops i with
    | .starting =>
      if s.deleting then some (s.setOp i .idle)
      else
        match s.starts with
        | some t => some (s.setOp i (.waiting t))
        | none =>
          some { (s.setTask s.nextTask .building).setOp i (.waiting s.nextTask) with
            starts := some s.nextTask
            nextTask := s.nextTask + 1 }
    | _ => none
  | .wake i =>
    match s.ops i with
    | .waiting t =>
      match s.tasks t with
      | some .done => some (s.setOp i (.finishing t))
      | some .failed => some (s.setOp i (.abandoning t))
      | _ => none
    | _ => none
  | .cancel i =>
    -- a `docker stop` in its thread goes on without the caller
    match s.ops i with
    | .waiting t => some (s.setOp i (.abandoning t))
    | .entering | .checking _ | .dropping _ | .starting | .abandoning _ | .finishing _ => some (s.setOp i .idle)
    | _ => none
  | .abandon i =>
    match s.ops i with
    | .abandoning t => some { s.setOp i .idle with starts := if s.starts = some t then none else s.starts }
    | _ => none
  | .finish i =>
    match s.ops i with
    | .finishing t =>
      match s.containers with
      | some existing => some (s.setOp i (if existing ≠ t then .discarding t else .idle))
      | none =>
        if s.starts ≠ some t then some (s.setOp i (.discarding t))
        else some { s.setOp i .idle with starts := none, containers := some t }
    | _ => none
  | .stop =>
    let pc :=
      match s.starts, s.containers with
      | some t, container => .awaiting t container
      | none, some c => .stopping c
      | none, none => .idle
    some { s.call pc with starts := none, containers := none }
  | .joined i =>
    match s.ops i with
    | .awaiting t container =>
      match s.tasks t with
      | some .done => some (s.setOp i (.stopping (container.getD t)))
      | some .failed =>
        match container with
        | some c => some (s.setOp i (.stopping c))
        | none => some (s.setOp i .idle)
      | _ => none
    | _ => none
  | .evict => s.containers.map fun c => s.call (.candidate c)
  | .evictPop i =>
    match s.ops i with
    | .candidate c =>
      if s.containers = some c then some { s.setOp i (.evicting c) with containers := none } else some (s.setOp i .idle)
    | _ => none
  | .evictSkip i =>
    match s.ops i with
    | .candidate _ => some (s.setOp i .idle)
    | _ => none
  | .dockerStop i ok =>
    match s.ops i with
    | .discarding c | .stopping c => some ((s.setRunning c (s.running c && !ok)).setOp i .idle)
    | .evicting c => some ((s.setRunning c (s.running c && !ok)).setOp i (if ok then .idle else .restoring c))
    | _ => none
  | .restore i =>
    match s.ops i with
    | .restoring c => some { s.setOp i .idle with containers := s.containers.or (some c) }
    | _ => none
  | .beginDelete => some { s with deleting := true }
  | .finishDelete => some { s with deleting := false }
  | .archive => if s.containers = none ∧ s.starts = none ∧ s.deleting = false then some { s with archived := true } else none
  | .dockerRun t =>
    if s.tasks t = some .building then
      some { (s.setTask t .booting).setRunning t true with late := s.late + if s.archived ∨ s.deleting then 1 else 0 }
    else none
  | .ready t => if s.tasks t = some .booting then some (s.setTask t .done) else none
  | .buildFails t stopped =>
    match s.tasks t with
    | some .building => some (s.setTask t .failed)
    | some .booting => some ((s.setTask t .failed).setRunning t (s.running t && !stopped))
    | _ => none
  | .die c => some (s.setRunning c false)

/-! ## What has to hold -/

/-- No operation is in flight. -/
def Quiescent (s : RegistryWorld) : Prop := ∀ i < s.nextOp, s.ops i = .idle

instance quiescentDecidable (s : RegistryWorld) : Decidable s.Quiescent :=
  inferInstanceAs (Decidable (∀ i < s.nextOp, s.ops i = .idle))

structure Safe (s : RegistryWorld) : Prop where
  contained : s.Quiescent → ∀ c, s.running c = true → s.containers = some c
  timely : s.late = 0

/-! ## The condition -/

/-- The task's container runs, or may come to run. -/
def Live (s : RegistryWorld) (t : Nat) : Prop :=
  s.tasks t = some .building ∨ s.tasks t = some .booting ∨ s.running t = true

instance liveDecidable (s : RegistryWorld) (t : Nat) : Decidable (s.Live t) := inferInstanceAs (Decidable (_ ∨ _))

/-- The container does not need this operation: it is registered, another one
has it, or it does not run. -/
def Spared (s : RegistryWorld) (i t : Nat) : Prop :=
  ¬ s.Live t ∨ s.containers = some t ∨ ∃ j < s.nextOp, j ≠ i ∧ (s.ops j).held? = some t

instance sparedDecidable (s : RegistryWorld) (i t : Nat) : Decidable (s.Spared i t) :=
  inferInstanceAs (Decidable (_ ∨ _))

/-- The operation may give up what it holds. -/
def MayGiveUp (s : RegistryWorld) (i : Nat) : Prop :=
  match (s.ops i).held? with
  | some t => s.Spared i t
  | none => True

instance mayGiveUpDecidable (s : RegistryWorld) (i : Nat) : Decidable (s.MayGiveUp i) := by
  unfold MayGiveUp
  split <;> infer_instance

def NoneBuilding (s : RegistryWorld) : Prop := ∀ t < s.nextTask, s.tasks t ≠ some .building

instance noneBuildingDecidable (s : RegistryWorld) : Decidable s.NoneBuilding :=
  inferInstanceAs (Decidable (∀ t < s.nextTask, s.tasks t ≠ some .building))

def Evicting (s : RegistryWorld) (i : Nat) : Prop :=
  match s.ops i with
  | .evicting _ => True
  | _ => False

instance evictingDecidable (s : RegistryWorld) (i : Nat) : Decidable (s.Evicting i) := by
  unfold Evicting
  split <;> infer_instance

/-- A cancelled caller, a failed stop and a failed eviction leave no container
to nobody; a start is not made after an archiving that came between the caller's
two checks; archiving and deletion find no start that has still to run. -/
def Allowed (s : RegistryWorld) : RegistryOp → Prop
  | .cancel i => s.MayGiveUp i
  | .dockerStop i ok => ok = true ∨ s.Evicting i ∨ s.MayGiveUp i
  | .restore i => s.containers = none ∨ s.MayGiveUp i
  | .buildFails t stopped => stopped = true ∨ s.running t = false
  | .start _ => s.archived = false ∨ s.deleting = true ∨ s.starts ≠ none
  | .beginDelete | .archive => s.NoneBuilding
  | _ => True

instance allowedDecidable (s : RegistryWorld) (op : RegistryOp) : Decidable (s.Allowed op) := by
  cases op <;> unfold Allowed <;> infer_instance

/-! ## The invariant -/

/-- What an operation knows of a container. -/
def PcOk (s : RegistryWorld) : RegistryPc → Prop
  | .dropping c => s.tasks c = some .done ∧ s.running c = false
  | .checking c | .finishing c | .discarding c | .awaiting _ (some c) | .stopping c | .candidate c | .evicting c
  | .restoring c => s.tasks c = some .done
  | _ => True

def Kept (s : RegistryWorld) (t : Nat) : Prop := s.containers = some t ∨ ∃ i, (s.ops i).held? = some t

structure Consistent (s : RegistryWorld) : Prop where
  kept : ∀ t, s.Live t → s.Kept t
  started : ∀ t, s.running t = true → s.tasks t = some .booting ∨ s.tasks t = some .done
  registered : ∀ t, s.containers = some t → s.tasks t = some .done
  pcs : ∀ i, s.PcOk (s.ops i)
  freshTask : ∀ t, s.nextTask ≤ t → s.tasks t = none
  freshOp : ∀ i, s.nextOp ≤ i → s.ops i = .idle
  closed : s.archived = true ∨ s.deleting = true → ∀ t, s.tasks t ≠ some .building
  timely : s.late = 0

theorem Consistent.initial : initial.Consistent where
  kept t ht := by rcases ht with h | h | h <;> cases h
  started t ht := by cases ht
  registered t ht := by cases ht
  pcs i := trivial
  freshTask t _ := rfl
  freshOp i _ := rfl
  closed h := by rcases h with h | h <;> cases h
  timely := rfl

/-! ### A step of one operation -/

/-- The step is that of operation `i`: tasks are as before, and no container
comes to run. -/
structure Moves (s t : RegistryWorld) (i : Nat) : Prop where
  ops : ∀ j, j ≠ i → t.ops j = s.ops j
  known : i < t.nextOp
  nextOp : s.nextOp ≤ t.nextOp
  tasks : t.tasks = s.tasks
  nextTask : t.nextTask = s.nextTask
  running : ∀ c, t.running c = true → s.running c = true
  archived : t.archived = s.archived
  deleting : t.deleting = s.deleting
  late : t.late = s.late

theorem PcOk.congr {s t : RegistryWorld} {pc : RegistryPc} (h : s.PcOk pc)
    (htasks : ∀ c, s.tasks c = some .done → t.tasks c = some .done)
    (hrunning : ∀ c, s.tasks c = some .done → t.running c = true → s.running c = true) : t.PcOk pc := by
  unfold PcOk at h ⊢
  split
  · refine ⟨htasks _ h.1, Bool.eq_false_iff.2 fun hrun => ?_⟩
    exact absurd (hrunning _ h.1 hrun) (Bool.eq_false_iff.1 h.2)
  all_goals first | trivial | exact htasks _ h

/-- The operation hands on what it held. -/
theorem Consistent.moves {s t : RegistryWorld} {i : Nat} (h : s.Consistent) (hm : Moves s t i) (hpc : t.PcOk (t.ops i))
    (hregistered : ∀ c, t.containers = some c → s.tasks c = some .done)
    (hkept : ∀ c, t.Live c → s.containers = some c ∨ (s.ops i).held? = some c → t.Kept c) : t.Consistent where
  kept c hc := by
    have hlive : s.Live c := by
      rcases hc with hbuild | hboot | hrun
      · exact .inl (hm.tasks ▸ hbuild)
      · exact .inr (.inl (hm.tasks ▸ hboot))
      · exact .inr (.inr (hm.running c hrun))
    rcases h.kept c hlive with hreg | ⟨j, hj⟩
    · exact hkept c hc (.inl hreg)
    · by_cases heq : j = i
      · exact hkept c hc (.inr (heq ▸ hj))
      · exact .inr ⟨j, by rw [hm.ops j heq, hj]⟩
  started c hc := by
    rw [hm.tasks]
    exact h.started c (hm.running c hc)
  registered c hc := by
    rw [hm.tasks]
    exact hregistered c hc
  pcs j := by
    by_cases heq : j = i
    · exact heq ▸ hpc
    · rw [hm.ops j heq]
      exact (h.pcs j).congr (fun _ hc => hm.tasks ▸ hc) fun c _ => hm.running c
  freshTask c hc := by
    rw [hm.nextTask] at hc
    rw [hm.tasks]
    exact h.freshTask c hc
  freshOp j hj := by
    have hknown := hm.known
    have hle := hm.nextOp
    rw [hm.ops j (by omega)]
    exact h.freshOp j (by omega)
  closed hc := by
    rw [hm.archived, hm.deleting] at hc
    rw [hm.tasks]
    exact h.closed hc
  timely := hm.late.trans h.timely

theorem Consistent.lt_nextOp {s : RegistryWorld} {i : Nat} (h : s.Consistent) (hi : s.ops i ≠ .idle) : i < s.nextOp := by
  by_contra hle
  exact hi (h.freshOp i (by omega))

theorem moves_setOp {s : RegistryWorld} {i : Nat} {pc : RegistryPc} (hi : i < s.nextOp) : Moves s (s.setOp i pc) i where
  ops _ hj := Function.update_of_ne hj _ _
  known := hi
  nextOp := Nat.le_refl _
  tasks := rfl
  nextTask := rfl
  running _ hc := hc
  archived := rfl
  deleting := rfl
  late := rfl

theorem moves_call {s : RegistryWorld} {pc : RegistryPc} : Moves s (s.call pc) s.nextOp where
  ops _ hj := Function.update_of_ne hj _ _
  known := Nat.lt_succ_self _
  nextOp := Nat.le_succ _
  tasks := rfl
  nextTask := rfl
  running _ hc := hc
  archived := rfl
  deleting := rfl
  late := rfl

@[simp]
theorem ops_setOp (s : RegistryWorld) (i : Nat) (pc : RegistryPc) : (s.setOp i pc).ops i = pc := by
  simp [setOp]

theorem ops_setOp_of_ne (s : RegistryWorld) {i j : Nat} (h : j ≠ i) (pc : RegistryPc) :
    (s.setOp i pc).ops j = s.ops j := by
  simp [setOp, h]

@[simp]
theorem ops_call (s : RegistryWorld) (pc : RegistryPc) : (s.call pc).ops s.nextOp = pc := by
  simp [call]

/-- A step that leaves the dicts alone, to a place that holds the same or
nothing that needs it. -/
theorem Consistent.setOp {s : RegistryWorld} {i : Nat} {pc : RegistryPc} (h : s.Consistent) (hi : s.ops i ≠ .idle)
    (hpc : s.PcOk pc) (hheld : ∀ c, s.Live c → (s.ops i).held? = some c → pc.held? = some c ∨ s.Spared i c) :
    (s.setOp i pc).Consistent := by
  refine h.moves (moves_setOp (h.lt_nextOp hi)) ?_ h.registered fun c hc hor => ?_
  · rw [ops_setOp]
    exact hpc
  · rcases hor with hreg | hold
    · exact .inl hreg
    · rcases hheld c hc hold with hnew | hnot | hreg | ⟨j, -, hne, hj⟩
      · exact .inr ⟨i, by rw [ops_setOp, hnew]⟩
      · exact absurd hc hnot
      · exact .inl hreg
      · exact .inr ⟨j, by rw [ops_setOp_of_ne s hne, hj]⟩

/-- A step of an operation that holds nothing. -/
theorem Consistent.setOp_of_held {s : RegistryWorld} {i : Nat} {old pc : RegistryPc} (h : s.Consistent)
    (hi : s.ops i = old) (hne : old ≠ .idle) (hold : old.held? = none) (hpc : s.PcOk pc) : (s.setOp i pc).Consistent := by
  refine h.setOp (hi ▸ hne) hpc fun c _ hc => ?_
  rw [hi, hold] at hc
  cases hc

theorem Consistent.setOp_idle {s : RegistryWorld} {i : Nat} {old : RegistryPc} (h : s.Consistent)
    (hi : s.ops i = old) (hne : old ≠ .idle) (hold : old.held? = none) : (s.setOp i .idle).Consistent :=
  h.setOp_of_held hi hne hold trivial

/-- The end of an operation whose container is registered. -/
theorem Consistent.setOp_registered {s : RegistryWorld} {i c : Nat} {old : RegistryPc} (h : s.Consistent)
    (hi : s.ops i = old) (hne : old ≠ .idle) (hold : old.held? = some c) (hreg : s.containers = some c) :
    (s.setOp i .idle).Consistent := by
  refine h.setOp (hi ▸ hne) trivial fun c' _ hc' => .inr (.inr (.inl ?_))
  rw [hi, hold] at hc'
  rw [hreg, hc']

/-- A step on which the operation keeps what it holds. -/
theorem Consistent.setOp_of_keeps {s : RegistryWorld} {i : Nat} {old pc : RegistryPc} (h : s.Consistent)
    (hi : s.ops i = old) (hne : old ≠ .idle) (hkeeps : pc.held? = old.held?) (hpc : s.PcOk pc) :
    (s.setOp i pc).Consistent := by
  refine h.setOp (hi ▸ hne) hpc fun c _ hc => .inl ?_
  rw [hkeeps, ← hi, hc]

theorem MayGiveUp.spared {s : RegistryWorld} {i c : Nat} (h : s.MayGiveUp i) (hc : (s.ops i).held? = some c) :
    s.Spared i c := by
  unfold MayGiveUp at h
  rw [hc] at h
  exact h

/-- A step on which the operation gives up what it holds. -/
theorem Consistent.setOp_of_mayGiveUp {s : RegistryWorld} {i : Nat} {pc : RegistryPc} (h : s.Consistent)
    (hi : s.ops i ≠ .idle) (hok : s.MayGiveUp i) (hpc : s.PcOk pc) : (s.setOp i pc).Consistent :=
  h.setOp hi hpc fun _ _ hc => .inr (hok.spared hc)

theorem Consistent.call {s : RegistryWorld} {pc : RegistryPc} (h : s.Consistent) (hpc : s.PcOk pc) :
    (s.call pc).Consistent := by
  refine h.moves moves_call ?_ h.registered fun c _ hor => ?_
  · rw [ops_call]
    exact hpc
  · rcases hor with hreg | hold
    · exact .inl hreg
    · rw [h.freshOp _ (Nat.le_refl _)] at hold
      cases hold

theorem Consistent.starts {s : RegistryWorld} (h : s.Consistent) (starts : Option Nat) :
    Consistent { s with starts } :=
  ⟨h.kept, h.started, h.registered, h.pcs, h.freshTask, h.freshOp, h.closed, h.timely⟩

/-- An entry of `_containers` that nobody needs goes. -/
theorem Consistent.dropContainer {s : RegistryWorld} (h : s.Consistent)
    (hdead : ∀ c, s.containers = some c → s.Live c → ∃ i, (s.ops i).held? = some c) :
    Consistent { s with containers := none } where
  kept c hc := by
    rcases h.kept c hc with hreg | hheld
    · exact .inr (hdead c hreg hc)
    · exact .inr hheld
  started := h.started
  registered _ hc := by cases hc
  pcs := h.pcs
  freshTask := h.freshTask
  freshOp := h.freshOp
  closed := h.closed
  timely := h.timely

theorem Consistent.addContainer {s : RegistryWorld} {c : Nat} (h : s.Consistent) (hnone : s.containers = none)
    (hc : s.tasks c = some .done) : Consistent { s with containers := some c } where
  kept c' hc' := by
    rcases h.kept c' hc' with hreg | hheld
    · rw [hnone] at hreg
      cases hreg
    · exact .inr hheld
  started := h.started
  registered _ hc' := by
    cases hc'
    exact hc
  pcs := h.pcs
  freshTask := h.freshTask
  freshOp := h.freshOp
  closed := h.closed
  timely := h.timely

/-! ### Containers and tasks -/

theorem setRunning_self (s : RegistryWorld) (c : Nat) : s.setRunning c (s.running c) = s := by
  simp [setRunning]

/-- A container stops. -/
theorem Consistent.stopped {s : RegistryWorld} (h : s.Consistent) (c : Nat) : (s.setRunning c false).Consistent := by
  have hle : ∀ c', (s.setRunning c false).running c' = true → s.running c' = true := by
    intro c' hc'
    by_cases heq : c' = c
    · simp [setRunning, heq] at hc'
    · simpa [setRunning, heq] using hc'
  refine ⟨fun c' hc' => h.kept c' (hc'.imp_right fun hor => hor.imp_right (hle c')), fun c' hc' => h.started c' (hle c' hc'),
    h.registered, fun i => (h.pcs i).congr (fun _ hc => hc) fun c' _ => hle c', h.freshTask, h.freshOp, h.closed, h.timely⟩

/-- A start task that is not done moves on. -/
theorem Consistent.retask {s t : RegistryWorld} {k : Nat} {old new : StartTask} (h : s.Consistent)
    (hold : s.tasks k = some old) (hdone : old ≠ .done) (htasks : t.tasks = Function.update s.tasks k (some new))
    (hnew : new ≠ .building) (hrunning : ∀ c, c ≠ k → t.running c = s.running c)
    (hstarted : t.running k = true → new = .booting ∨ new = .done) (hlive : t.Live k → s.Live k)
    (hframe : t.containers = s.containers ∧ t.nextTask = s.nextTask ∧ t.ops = s.ops ∧ t.nextOp = s.nextOp ∧
      t.archived = s.archived ∧ t.deleting = s.deleting ∧ t.late = s.late) : t.Consistent := by
  obtain ⟨hcontainers, hnextTask, hops, hnextOp, harchived, hdeleting, hlate⟩ := hframe
  have hother : ∀ c, c ≠ k → t.tasks c = s.tasks c := by
    intro c hc
    rw [htasks, Function.update_of_ne hc]
  have hk : t.tasks k = some new := by rw [htasks, Function.update_self]
  have hne : ∀ c, s.tasks c = some .done → c ≠ k := by
    rintro c hc rfl
    rw [hold] at hc
    exact hdone (Option.some.inj hc)
  refine ⟨fun c hc => ?_, fun c hc => ?_, fun c hc => ?_, fun i => ?_, fun c hc => ?_, fun i hi => ?_, fun hc c => ?_, ?_⟩
  · have hsame : s.Live c := by
      by_cases heq : c = k
      · exact heq ▸ hlive (heq ▸ hc)
      · unfold Live at hc ⊢
        rwa [hother c heq, hrunning c heq] at hc
    unfold Kept
    rw [hcontainers, hops]
    exact h.kept c hsame
  · by_cases heq : c = k
    · rw [heq, hk]
      exact (hstarted (heq ▸ hc)).imp (congrArg some) (congrArg some)
    · rw [hother c heq]
      exact h.started c (hrunning c heq ▸ hc)
  · rw [hcontainers] at hc
    have hreg := h.registered c hc
    rw [hother c (hne c hreg), hreg]
  · rw [hops]
    refine (h.pcs i).congr (fun c hc => ?_) fun c hc hrun => ?_
    · rw [hother c (hne c hc), hc]
    · rw [← hrunning c (hne c hc), hrun]
  · rw [hnextTask] at hc
    have hfresh := h.freshTask c hc
    have hck : c ≠ k := by
      rintro rfl
      rw [hold] at hfresh
      cases hfresh
    rw [hother c hck, hfresh]
  · rw [hnextOp] at hi
    rw [hops]
    exact h.freshOp i hi
  · rw [harchived, hdeleting] at hc
    by_cases heq : c = k
    · rw [heq, hk]
      exact fun hb => hnew (Option.some.inj hb)
    · rw [hother c heq]
      exact h.closed hc c
  · rw [hlate]
    exact h.timely

theorem Consistent.not_live {s : RegistryWorld} {c : Nat} (hdone : s.tasks c = some .done)
    (hstopped : s.running c = false) : ¬ s.Live c := by
  rintro (hbuild | hboot | hrun)
  · rw [hdone] at hbuild
    cases hbuild
  · rw [hdone] at hboot
    cases hboot
  · rw [hstopped] at hrun
    cases hrun

theorem Consistent.pcOk {s : RegistryWorld} {i : Nat} {pc : RegistryPc} (h : s.Consistent) (hi : s.ops i = pc) :
    s.PcOk pc := hi ▸ h.pcs i

/-! ### `get_or_create` -/

attribute [local simp] step

theorem Consistent.enter {s t : RegistryWorld} {i : Nat} (h : s.Consistent) (ht : s.step (.enter i) = some t) :
    t.Consistent := by
  dsimp only [step] at ht
  split at ht
  · rename_i hi
    split at ht
    · cases ht
      exact h.setOp_of_held hi nofun rfl trivial
    · split at ht
      · rename_i c hc
        cases ht
        exact h.setOp_of_held hi nofun rfl (h.registered c hc)
      · cases ht
        exact h.setOp_of_held hi nofun rfl trivial
  · cases ht

theorem Consistent.inspect {s t : RegistryWorld} {i : Nat} (h : s.Consistent) (ht : s.step (.inspect i) = some t) :
    t.Consistent := by
  dsimp only [step] at ht
  split at ht
  · rename_i c hi
    cases ht
    refine h.setOp_of_held hi nofun rfl ?_
    split
    · trivial
    · rename_i hrun
      exact ⟨h.pcOk hi, Bool.eq_false_iff.2 hrun⟩
  · cases ht

theorem Consistent.drop {s t : RegistryWorld} {i : Nat} (h : s.Consistent) (ht : s.step (.drop i) = some t) :
    t.Consistent := by
  dsimp only [step] at ht
  split at ht
  · rename_i c hi
    cases ht
    obtain ⟨hdone, hstopped⟩ := h.pcOk hi
    have hmoved : (s.setOp i .starting).Consistent := h.setOp_of_held hi nofun rfl trivial
    split
    · rename_i hreg
      refine hmoved.dropContainer fun c' hc' hlive => ?_
      cases hreg.symm.trans hc'
      exact absurd hlive (Consistent.not_live hdone hstopped)
    · exact hmoved
  · cases ht

/-- A new start task, which the operation waits for. -/
theorem Consistent.newTask {s t : RegistryWorld} {i : Nat} (h : s.Consistent) (hi : s.ops i = .starting)
    (harchived : s.archived = false) (hdeleting : s.deleting = false)
    (htasks : t.tasks = Function.update s.tasks s.nextTask (some .building))
    (hops : t.ops = Function.update s.ops i (.waiting s.nextTask)) (hrunning : t.running = s.running)
    (hframe : t.containers = s.containers ∧ t.nextTask = s.nextTask + 1 ∧ t.nextOp = s.nextOp ∧
      t.archived = s.archived ∧ t.deleting = s.deleting ∧ t.late = s.late) : t.Consistent := by
  obtain ⟨hcontainers, hnextTask, hnextOp, harchived', hdeleting', hlate⟩ := hframe
  have hfresh := h.freshTask s.nextTask (Nat.le_refl _)
  have hother : ∀ c, c ≠ s.nextTask → t.tasks c = s.tasks c := by
    intro c hc
    rw [htasks, Function.update_of_ne hc]
  have hold : ∀ c task, s.tasks c = some task → t.tasks c = some task := by
    intro c task hc
    rw [hother c ?_, hc]
    rintro rfl
    rw [hfresh] at hc
    cases hc
  have hopi : t.ops i = .waiting s.nextTask := by rw [hops, Function.update_self]
  have hopj : ∀ j, j ≠ i → t.ops j = s.ops j := by
    intro j hj
    rw [hops, Function.update_of_ne hj]
  refine ⟨fun c hc => ?_, fun c hc => ?_, fun c hc => ?_, fun j => ?_, fun c hc => ?_, fun j hj => ?_, fun hc => ?_, ?_⟩
  · by_cases heq : c = s.nextTask
    · exact .inr ⟨i, by rw [hopi, heq]; rfl⟩
    · have hlive : s.Live c := by
        unfold Live at hc ⊢
        rwa [hother c heq, hrunning] at hc
      rcases h.kept c hlive with hreg | ⟨j, hj⟩
      · exact .inl (hcontainers.trans hreg)
      · refine .inr ⟨j, ?_⟩
        rw [hopj j ?_, hj]
        rintro rfl
        rw [hi] at hj
        cases hj
  · rw [hrunning] at hc
    exact (h.started c hc).imp (hold c _) (hold c _)
  · rw [hcontainers] at hc
    exact hold c _ (h.registered c hc)
  · by_cases heq : j = i
    · rw [heq, hopi]
      exact trivial
    · rw [hopj j heq]
      exact (h.pcs j).congr (fun c hc => hold c _ hc) fun c _ hrun => hrunning ▸ hrun
  · rw [hnextTask] at hc
    rw [hother c (by omega)]
    exact h.freshTask c (by omega)
  · have hknown := h.lt_nextOp (i := i) (by rw [hi]; nofun)
    rw [hnextOp] at hj
    rw [hopj j (by omega)]
    exact h.freshOp j hj
  · rw [harchived', hdeleting', harchived, hdeleting] at hc
    rcases hc with hc | hc <;> cases hc
  · exact hlate.trans h.timely

theorem Consistent.start {s t : RegistryWorld} {i : Nat} (h : s.Consistent) (hok : s.Allowed (.start i))
    (ht : s.step (.start i) = some t) : t.Consistent := by
  dsimp only [step] at ht
  split at ht
  · rename_i hi
    split at ht
    · cases ht
      exact h.setOp_of_held hi nofun rfl trivial
    · rename_i hdeleting
      split at ht
      · cases ht
        exact h.setOp_of_held hi nofun rfl trivial
      · rename_i hnone
        cases ht
        refine h.newTask hi ?_ (Bool.eq_false_iff.2 hdeleting) rfl rfl rfl ⟨rfl, rfl, rfl, rfl, rfl, rfl⟩
        exact hok.resolve_right fun hor => hor.elim hdeleting fun hne => hne hnone
  · cases ht

theorem Consistent.wake {s t : RegistryWorld} {i : Nat} (h : s.Consistent) (ht : s.step (.wake i) = some t) :
    t.Consistent := by
  dsimp only [step] at ht
  split at ht
  · rename_i k hi
    split at ht
    · rename_i hdone
      cases ht
      exact h.setOp_of_keeps hi nofun rfl hdone
    · rename_i hfailed
      cases ht
      refine h.setOp (by rw [hi]; nofun) trivial fun c hlive hc => .inr (.inl ?_)
      rw [hi] at hc
      cases hc
      -- a start that failed has no container
      rcases hlive with hbuild | hboot | hrun
      · exact absurd (hfailed.symm.trans hbuild) nofun
      · exact absurd (hfailed.symm.trans hboot) nofun
      · rcases h.started k hrun with hk | hk <;> exact absurd (hfailed.symm.trans hk) nofun
    · cases ht
  · cases ht

theorem Consistent.cancel {s t : RegistryWorld} {i : Nat} (h : s.Consistent) (hok : s.Allowed (.cancel i))
    (ht : s.step (.cancel i) = some t) : t.Consistent := by
  dsimp only [step] at ht
  split at ht
  case h_8 => cases ht
  all_goals
    rename_i hi
    cases ht
    exact h.setOp_of_mayGiveUp (by rw [hi]; nofun) hok trivial

theorem Consistent.abandon {s t : RegistryWorld} {i : Nat} (h : s.Consistent) (ht : s.step (.abandon i) = some t) :
    t.Consistent := by
  dsimp only [step] at ht
  split at ht
  · rename_i k hi
    cases ht
    exact (h.setOp_idle hi nofun rfl).starts _
  · cases ht

theorem Consistent.finish {s t : RegistryWorld} {i : Nat} (h : s.Consistent) (ht : s.step (.finish i) = some t) :
    t.Consistent := by
  dsimp only [step] at ht
  split at ht
  · rename_i k hi
    have hdone : s.tasks k = some .done := h.pcOk hi
    split at ht
    · rename_i existing hexisting
      cases ht
      split
      · exact h.setOp_of_keeps hi nofun rfl hdone
      · rename_i heq
        rw [not_not] at heq
        exact h.setOp_registered hi nofun rfl (heq ▸ hexisting)
    · rename_i hnone
      split at ht
      · cases ht
        exact h.setOp_of_keeps hi nofun rfl hdone
      · cases ht
        -- the container is registered
        have hadded := h.addContainer hnone hdone
        exact (hadded.setOp_registered (i := i) hi nofun rfl rfl).starts none
  · cases ht

/-! ### `stop` and eviction -/

theorem Consistent.stop {s t : RegistryWorld} (h : s.Consistent) (ht : s.step .stop = some t) : t.Consistent := by
  dsimp only [step] at ht
  cases ht
  split
  · rename_i k hstarts
    have hcalled : (s.call (.awaiting k s.containers)).Consistent := by
      refine h.call ?_
      cases hreg : s.containers with
      | none => trivial
      | some c => exact h.registered c hreg
    refine (hcalled.dropContainer fun c hc _ => ⟨s.nextOp, ?_⟩).starts none
    have hreg : s.containers = some c := hc
    rw [ops_call, hreg]
    rfl
  · rename_i c hstarts hreg
    have hcalled : (s.call (.stopping c)).Consistent := h.call (h.registered c hreg)
    refine (hcalled.dropContainer fun c' hc _ => ⟨s.nextOp, ?_⟩).starts none
    rw [ops_call]
    exact hreg.symm.trans hc
  · rename_i hstarts hnone
    have hcalled : (s.call .idle).Consistent := h.call trivial
    refine (hcalled.dropContainer fun c hc _ => ?_).starts none
    exact absurd (hnone.symm.trans hc) nofun

theorem Consistent.joined {s t : RegistryWorld} {i : Nat} (h : s.Consistent) (ht : s.step (.joined i) = some t) :
    t.Consistent := by
  dsimp only [step] at ht
  split at ht
  · rename_i k container hi
    have hpc := h.pcOk hi
    split at ht
    · rename_i hdone
      cases ht
      cases container with
      | none => exact h.setOp_of_keeps hi nofun rfl hdone
      | some c => exact h.setOp_of_keeps hi nofun rfl hpc
    · rename_i hfailed
      cases container with
      | some c =>
        cases ht
        exact h.setOp_of_keeps hi nofun rfl hpc
      | none =>
        cases ht
        refine h.setOp (by rw [hi]; nofun) trivial fun c hlive hc => .inr (.inl ?_)
        rw [hi] at hc
        cases hc
        rcases hlive with hbuild | hboot | hrun
        · exact absurd (hfailed.symm.trans hbuild) nofun
        · exact absurd (hfailed.symm.trans hboot) nofun
        · rcases h.started k hrun with hk | hk <;> exact absurd (hfailed.symm.trans hk) nofun
    · cases ht
  · cases ht

theorem Consistent.evict {s t : RegistryWorld} (h : s.Consistent) (ht : s.step .evict = some t) : t.Consistent := by
  obtain ⟨c, hc, ht⟩ := Option.map_eq_some_iff.1 ht
  cases ht
  exact h.call (h.registered c hc)

theorem Consistent.evictPop {s t : RegistryWorld} {i : Nat} (h : s.Consistent) (ht : s.step (.evictPop i) = some t) :
    t.Consistent := by
  dsimp only [step] at ht
  split at ht
  · rename_i c hi
    split at ht
    · rename_i hreg
      cases ht
      have hmoved : (s.setOp i (.evicting c)).Consistent := h.setOp_of_held hi nofun rfl (h.registered c hreg)
      refine hmoved.dropContainer fun c' hc' _ => ⟨i, ?_⟩
      rw [ops_setOp]
      exact hreg.symm.trans hc'
    · cases ht
      exact h.setOp_of_held hi nofun rfl trivial
  · cases ht

theorem Consistent.evictSkip {s t : RegistryWorld} {i : Nat} (h : s.Consistent) (ht : s.step (.evictSkip i) = some t) :
    t.Consistent := by
  dsimp only [step] at ht
  split at ht
  · rename_i c hi
    cases ht
    exact h.setOp_of_held hi nofun rfl trivial
  · cases ht

/-- A stop that succeeds. -/
theorem Consistent.stopSucceeds {s : RegistryWorld} {i c : Nat} {pc : RegistryPc} (h : s.Consistent) (hi : s.ops i = pc)
    (hne : pc ≠ .idle) (hheld : pc.held? = some c) (hdone : s.tasks c = some .done) :
    ((s.setRunning c false).setOp i .idle).Consistent := by
  refine (h.stopped c).setOp (hi ▸ hne) trivial fun c' _ hc' => .inr (.inl ?_)
  have hheld' : (s.ops i).held? = some c' := hc'
  rw [hi, hheld] at hheld'
  cases hheld'
  exact Consistent.not_live hdone (by simp [setRunning])

/-- A stop that fails, and whose container is not registered again. -/
theorem Consistent.stopFails {s : RegistryWorld} {i c : Nat} {pc : RegistryPc} (h : s.Consistent) (hi : s.ops i = pc)
    (hne : pc ≠ .idle) (hnot : ¬ s.Evicting i) (hok : s.Allowed (.dockerStop i false)) :
    ((s.setRunning c (s.running c)).setOp i .idle).Consistent := by
  rw [setRunning_self]
  exact h.setOp_of_mayGiveUp (hi ▸ hne) ((hok.resolve_left Bool.false_ne_true).resolve_left hnot) trivial

theorem Consistent.dockerStop {s t : RegistryWorld} {i : Nat} {ok : Bool} (h : s.Consistent)
    (hok : s.Allowed (.dockerStop i ok)) (ht : s.step (.dockerStop i ok) = some t) : t.Consistent := by
  dsimp only [step] at ht
  cases ok with
  | true =>
    simp only [Bool.not_true, Bool.and_false, if_true] at ht
    split at ht
    case h_4 => cases ht
    all_goals
      rename_i c hi
      cases ht
      exact h.stopSucceeds hi nofun rfl (h.pcOk hi)
  | false =>
    simp only [Bool.not_false, Bool.and_true, Bool.false_eq_true, if_false] at ht
    split at ht
    · rename_i c hi
      cases ht
      exact h.stopFails hi nofun (by rw [Evicting, hi]; exact id) hok
    · rename_i c hi
      cases ht
      exact h.stopFails hi nofun (by rw [Evicting, hi]; exact id) hok
    · rename_i c hi
      cases ht
      rw [setRunning_self]
      have hdone : s.tasks c = some .done := h.pcOk hi
      exact h.setOp_of_keeps hi nofun rfl hdone
    · cases ht

theorem Consistent.restore {s t : RegistryWorld} {i : Nat} (h : s.Consistent) (hok : s.Allowed (.restore i))
    (ht : s.step (.restore i) = some t) : t.Consistent := by
  dsimp only [step] at ht
  split at ht
  · rename_i c hi
    cases ht
    cases hreg : s.containers with
    | none =>
      have hadded := h.addContainer hreg (h.pcOk hi)
      exact hadded.setOp_registered (i := i) hi nofun rfl rfl
    | some existing =>
      have hmoved : (s.setOp i .idle).Consistent := by
        refine h.setOp_of_mayGiveUp (by rw [hi]; nofun) (hok.resolve_left ?_) trivial
        rw [hreg]
        nofun
      have hsame : s.containers.or (some c) = s.containers := by rw [hreg, Option.some_or]
      have hval : { s.setOp i .idle with containers := s.containers.or (some c) } = s.setOp i .idle := by
        rw [hsame]
        rfl
      rw [← hreg, hval]
      exact hmoved
  · cases ht

/-! ### Starts, deletion and archiving -/

theorem Consistent.noneBuilding {s : RegistryWorld} (h : s.Consistent) (hnone : s.NoneBuilding) (t : Nat) :
    s.tasks t ≠ some .building := by
  by_cases hlt : t < s.nextTask
  · exact hnone t hlt
  · rw [h.freshTask t (by omega)]
    nofun

theorem Consistent.flags {s : RegistryWorld} {archived deleting : Bool} (h : s.Consistent)
    (hclosed : archived = true ∨ deleting = true → ∀ t, s.tasks t ≠ some .building) :
    Consistent { s with archived, deleting } :=
  ⟨h.kept, h.started, h.registered, h.pcs, h.freshTask, h.freshOp, hclosed, h.timely⟩

theorem Consistent.dockerRun {s t : RegistryWorld} {k : Nat} (h : s.Consistent) (ht : s.step (.dockerRun k) = some t) :
    t.Consistent := by
  dsimp only [step] at ht
  split at ht
  · rename_i hbuilding
    cases ht
    have hopen : ¬ (s.archived = true ∨ s.deleting = true) := fun hc => h.closed hc k hbuilding
    refine h.retask hbuilding nofun rfl nofun (fun c hc => Function.update_of_ne hc _ _) (fun _ => .inl rfl)
      (fun _ => .inl hbuilding) ⟨rfl, rfl, rfl, rfl, rfl, rfl, ?_⟩
    show s.late + (if s.archived = true ∨ s.deleting = true then 1 else 0) = s.late
    rw [if_neg hopen]
    rfl
  · cases ht

theorem Consistent.ready {s t : RegistryWorld} {k : Nat} (h : s.Consistent) (ht : s.step (.ready k) = some t) :
    t.Consistent := by
  dsimp only [step] at ht
  split at ht
  · rename_i hbooting
    cases ht
    exact h.retask hbooting nofun rfl nofun (fun _ _ => rfl) (fun _ => .inr rfl) (fun _ => .inr (.inl hbooting))
      ⟨rfl, rfl, rfl, rfl, rfl, rfl, rfl⟩
  · cases ht

theorem Consistent.buildFails {s t : RegistryWorld} {k : Nat} {stopped : Bool} (h : s.Consistent)
    (hok : s.Allowed (.buildFails k stopped)) (ht : s.step (.buildFails k stopped) = some t) : t.Consistent := by
  dsimp only [step] at ht
  split at ht
  · rename_i hbuilding
    cases ht
    have hstopped : ¬ s.running k = true := fun hrun =>
      (h.started k hrun).elim (fun hk => absurd (hbuilding.symm.trans hk) nofun)
        fun hk => absurd (hbuilding.symm.trans hk) nofun
    exact h.retask hbuilding nofun rfl nofun (fun _ _ => rfl) (fun hrun => absurd hrun hstopped)
      (fun _ => .inl hbuilding) ⟨rfl, rfl, rfl, rfl, rfl, rfl, rfl⟩
  · rename_i hbooting
    cases ht
    have hstopped : (s.running k && !stopped) = false := by
      rcases hok with rfl | hrun
      · exact Bool.and_false _
      · rw [hrun, Bool.false_and]
    refine h.retask hbooting nofun rfl nofun (fun c hc => Function.update_of_ne hc _ _) (fun hrun => ?_)
      (fun _ => .inr (.inl hbooting)) ⟨rfl, rfl, rfl, rfl, rfl, rfl, rfl⟩
    rw [hstopped] at hrun
    simp [setRunning] at hrun
  · cases ht

/-- Every step keeps the invariant. -/
theorem Consistent.step {s t : RegistryWorld} {op : RegistryOp} (h : s.Consistent) (hok : s.Allowed op)
    (ht : s.step op = some t) : t.Consistent := by
  cases op with
  | getOrCreate =>
    cases ht
    exact h.call trivial
  | enter i => exact h.enter ht
  | inspect i => exact h.inspect ht
  | drop i => exact h.drop ht
  | start i => exact h.start hok ht
  | wake i => exact h.wake ht
  | cancel i => exact h.cancel hok ht
  | abandon i => exact h.abandon ht
  | finish i => exact h.finish ht
  | stop => exact h.stop ht
  | joined i => exact h.joined ht
  | evict => exact h.evict ht
  | evictPop i => exact h.evictPop ht
  | evictSkip i => exact h.evictSkip ht
  | dockerStop i ok => exact h.dockerStop hok ht
  | restore i => exact h.restore hok ht
  | beginDelete =>
    cases ht
    exact h.flags fun _ => h.noneBuilding hok
  | finishDelete =>
    cases ht
    exact h.flags fun hc => h.closed (hc.imp_right nofun)
  | archive =>
    dsimp only [RegistryWorld.step] at ht
    split at ht
    · cases ht
      exact h.flags fun _ => h.noneBuilding hok
    · cases ht
  | dockerRun k => exact h.dockerRun ht
  | ready k => exact h.ready ht
  | buildFails k stopped => exact h.buildFails hok ht
  | die c =>
    cases ht
    exact h.stopped c

/-- Every run: with no operation in flight, the one container that may run is
the registered one, and none was started late. -/
theorem contained_of_reaches {s : RegistryWorld} (h : Reaches step Allowed initial s) : s.Safe := by
  have hcons : s.Consistent := h.invariant .initial fun _ _ _ hs hok ht => hs.step hok ht
  refine ⟨fun hq c hrun => ?_, hcons.timely⟩
  rcases hcons.kept c (.inr (.inr hrun)) with hreg | ⟨i, hi⟩
  · exact hreg
  · by_cases hlt : i < s.nextOp
    · rw [hq i hlt] at hi
      cases hi
    · rw [hcons.freshOp i (by omega)] at hi
      cases hi

/-! ## Runs with and without a leak -/

/-- Two callers share a start and one is cancelled; an eviction fails and puts
the container back, and the next one finds it dead; the conversation is deleted
and archived in the end. -/
def sharedStartOps : List RegistryOp :=
  [.getOrCreate, .getOrCreate, .enter 0, .enter 1, .start 0, .start 1, .dockerRun 0, .cancel 0, .abandon 0, .ready 0,
    .wake 1, .finish 1, .dockerStop 1 true, .getOrCreate, .enter 2, .start 2, .dockerRun 1, .ready 1, .wake 2, .finish 2,
    .evict, .evictPop 3, .dockerStop 3 false, .restore 3, .die 1, .getOrCreate, .enter 4, .inspect 4, .drop 4, .start 4,
    .dockerRun 2, .stop, .ready 2, .joined 5, .wake 4, .finish 4, .dockerStop 5 true, .dockerStop 4 true,
    .getOrCreate, .enter 6, .start 6, .dockerRun 3, .ready 3, .wake 6, .finish 6, .beginDelete, .stop,
    .dockerStop 7 true, .finishDelete, .archive, .getOrCreate, .enter 8]

theorem contained_of_reaches_sharedStart :
    ∃ s, execAllowed step Allowed initial sharedStartOps = some s ∧ s.Safe ∧ s.nextTask = 4 ∧ s.archived = true := by
  have hrun : (execAllowed step Allowed initial sharedStartOps).map (fun s => (s.nextTask, s.archived)) = some (4, true) := by
    decide +kernel
  obtain ⟨s, hs, hval⟩ := Option.map_eq_some_iff.1 hrun
  simp only [Prod.mk.injEq] at hval
  exact ⟨s, hs, contained_of_reaches (reaches_of_execAllowed .init hs), hval⟩

/-- The only caller is cancelled while the container starts. -/
theorem contained_cancelled_start : ¬ ∀ s, Reaches step (fun _ _ => True) initial s → s.Safe := by
  intro hall
  have hrun : (exec step initial
      [.getOrCreate, .enter 0, .start 0, .dockerRun 0, .cancel 0, .abandon 0, .ready 0]).map
        (fun s => (decide s.Quiescent, s.running 0, s.containers)) = some (true, true, none) := by
    decide +kernel
  obtain ⟨s, hs, hval⟩ := Option.map_eq_some_iff.1 hrun
  simp only [Prod.mk.injEq, decide_eq_true_eq] at hval
  obtain ⟨hq, hrunning, hnone⟩ := hval
  have hreg := (hall s (reaches_of_exec .init hs)).contained hq 0 hrunning
  rw [hnone] at hreg
  cases hreg

end RegistryWorld

end AgentSdk
