import AgentSdk.Lib.Dict
import AgentSdk.Lib.Runs
import Mathlib.Logic.Function.Basic
import Mathlib.Data.List.Perm.Subperm
/-!
# Sub-agent tasks

`start_task` calls on one `TaskManager`, from any threads. A conversation is
opened under the manager's lock; the run, the parent's metrics and the eviction
are steps of their own. Task objects are shared: `_tasks` and a call may hold
the same one.
-/

namespace AgentSdk.TaskManager
open Lib

abbrev TaskId := String
/-- The costs of the LLM calls, in order. -/
abbrev Metrics := List Nat

inductive TaskStatus where
  | running
  | completed
  | error
deriving DecidableEq

/-- How the `try` block of `_run_task` ended; `except Exception` lets a
`BaseException` pass. -/
inductive Outcome where
  | finished (result : String)
  | stopped (detail : String)
  | raised (error : String)
  | interrupted
deriving DecidableEq

structure Task where
  id : TaskId := ""
  status : TaskStatus := .running
  conversationId : Nat := 0
  result : Option String := none
  error : Option String := none
  conversation : Option Nat := none
deriving DecidableEq

namespace Task

def setResult (t : Task) (result : String) : Task :=
  { t with result := some result, error := none, status := .completed }

def setError (t : Task) (error : String) : Task := { t with error := some error, result := none, status := .error }

def record (t : Task) : Outcome → Task
  | .finished result => t.setResult result
  | .stopped detail => t.setError detail
  | .raised error => t.setError error
  | .interrupted => t

@[simp] theorem record_id (t : Task) (o : Outcome) : (t.record o).id = t.id := by cases o <;> rfl

@[simp] theorem record_conversationId (t : Task) (o : Outcome) : (t.record o).conversationId = t.conversationId := by
  cases o <;> rfl

@[simp] theorem record_conversation (t : Task) (o : Outcome) : (t.record o).conversation = t.conversation := by
  cases o <;> rfl

end Task

/-- A `LocalConversation`; `task` is the task it was opened for. -/
structure Conversation where
  task : TaskId := ""
  conversationId : Nat := 0
  persistenceDir : Option Nat := none
  metrics : Metrics := []
  isOpen : Bool := false
deriving DecidableEq

/-- Where a call stands: in `_ensure_parent`, before the lock, or in `_run_task`
with its `Task` object. -/
inductive Point where
  | attaching (resume : Option TaskId)
  | placing (resume : Option TaskId)
  | ready (resume : Option TaskId)
  | running (task : Nat)
  | updating (task : Nat)
  | evicting (task : Nat)
  | storing (task : Nat)
deriving DecidableEq

/-- The `Task` object that a call holds. -/
def Point.task? : Point → Option Nat
  | .running o | .updating o | .evicting o | .storing o => some o
  | _ => none

/-- How the creation of a conversation goes. -/
inductive Opening where
  | opened
  | agentFails
  | conversationFails
  | policyFails
deriving DecidableEq

/-- `given`, `latestRun` (the call that opened a task's last conversation, and
how its run ended) and `spent` are kept for the statements. -/
structure World where
  attached : Bool := false
  persistenceDir : Option Nat := none
  nextDir : Nat := 1
  tasks : List (TaskId × Nat) := []
  objects : Nat → Task := fun _ => {}
  nextObject : Nat := 0
  conversations : Nat → Conversation := fun _ => {}
  nextConversation : Nat := 0
  nextUuid : Nat := 0
  saved : Nat × Nat → Option Metrics := fun _ => none
  calls : Nat → Option Point := fun _ => none
  nextCall : Nat := 0
  stats : List (String × Metrics) := []
  given : List TaskId := []
  latestRun : TaskId → Nat × Option Outcome := fun _ => (0, none)
  spent : TaskId → Metrics := fun _ => []

inductive Op where
  /-- `start_task`, with or without the parent conversation. -/
  | call (resume : Option TaskId) (conversation : Bool)
  | attach (t : Nat)
  | place (t : Nat)
  /-- `_resume_task` or `_create_task`. -/
  | enter (t : Nat) (opening : Opening)
  | spend (t : Nat) (cost : Nat)
  | finish (t : Nat) (outcome : Outcome)
  | update (t : Nat)
  /-- `pause()` and `close()`; hooks at the session's end may call the LLM. -/
  | close (t : Nat) (hookCosts : Metrics) (fails : Bool)
  | store (t : Nat)
deriving DecidableEq

/-- `{task_number:08x}`. -/
def padHex (n : Nat) : List Char := (Nat.toDigits 16 n).leftpad 8 '0'

def taskId (taskNumber : Nat) : TaskId := "task_" ++ String.ofList (padHex taskNumber)

def statsKey (id : TaskId) : String := "task:" ++ id

namespace World

/-- The call returns or raises. -/
def leave (w : World) (t : Nat) : World := { w with calls := Function.update w.calls t none }

def moveTo (w : World) (t : Nat) (p : Point) : World := { w with calls := Function.update w.calls t (some p) }

/-- What the conversation of `conversationId` has on disk. -/
def loaded (w : World) (conversationId : Nat) : Metrics :=
  match w.persistenceDir with
  | some dir => (w.saved (dir, conversationId)).getD []
  | none => []

/-- The autosave of `base_state.json`. -/
def save (w : World) (dir : Option Nat) (conversationId : Nat) (metrics : Metrics) : World :=
  { w with saved := match dir with
    | some dir => Function.update w.saved (dir, conversationId) (some metrics)
    | none => w.saved }

/-- `LocalConversation(...)`. -/
def openConversation (w : World) (id : TaskId) (conversationId : Nat) : World :=
  let metrics := w.loaded conversationId
  let conversation : Conversation := ⟨id, conversationId, w.persistenceDir, metrics, true⟩
  { w.save w.persistenceDir conversationId metrics with
    conversations := Function.update w.conversations w.nextConversation conversation
    nextConversation := w.nextConversation + 1 }

/-- `self._tasks[task.id] = task`, with the object a new one. -/
def putTask (w : World) (task : Task) : World :=
  { w with
    tasks := dictSet w.tasks task.id w.nextObject
    objects := Function.update w.objects w.nextObject task
    nextObject := w.nextObject + 1 }

/-- The task's call goes on to `_run_task`. -/
def startRun (w : World) (t : Nat) (task : Task) : World :=
  { (w.putTask task).moveTo t (.running w.nextObject) with
    latestRun := Function.update w.latestRun task.id (t, none) }

def resumeTask (w : World) (t : Nat) (resume : TaskId) (opening : Opening) : World :=
  match w.tasks.lookup resume with
  | none => w.leave t
  | some o =>
    let task := w.objects o
    match opening with
    | .agentFails | .conversationFails => w.leave t
    | .policyFails => (w.openConversation resume task.conversationId).leave t
    | .opened =>
      (w.openConversation resume task.conversationId).startRun t
        { task with conversation := some w.nextConversation, status := .running }

def createTask (w : World) (t : Nat) (opening : Opening) : World :=
  let id := taskId (w.tasks.length + 1)
  let w' := { w with nextUuid := w.nextUuid + 1 }
  match opening with
  | .agentFails => w.leave t
  | .conversationFails => w'.leave t
  | .policyFails => (w'.openConversation id w.nextUuid).leave t
  | .opened =>
    { (w'.openConversation id w.nextUuid).startRun t
        { id := id, conversationId := w.nextUuid, conversation := some w.nextConversation } with
      given := w.given ++ [id] }

/-- Without a parent both raise. -/
def enter (w : World) (t : Nat) (resume : Option TaskId) (opening : Opening) : World :=
  if w.attached then
    match resume.filter (· ≠ "") with
    | some id => w.resumeTask t id opening
    | none => w.createTask t opening
  else w.leave t

/-- A conversation spends and saves. -/
def spendOn (w : World) (id : TaskId) (c : Nat) (costs : Metrics) : World :=
  let conversation := w.conversations c
  let metrics := conversation.metrics ++ costs
  { w.save conversation.persistenceDir conversation.conversationId metrics with
    conversations := Function.update w.conversations c { conversation with metrics := metrics }
    spent := Function.update w.spent id (w.spent id ++ costs) }

def spend (w : World) (o : Nat) (costs : Metrics) : World :=
  match (w.objects o).conversation with
  | none => w
  | some c => w.spendOn (w.objects o).id c costs

def setOutcome (w : World) (t : Nat) (o : Nat) (outcome : Outcome) : World :=
  let task := w.objects o
  { w with
    objects := Function.update w.objects o (task.record outcome)
    latestRun := if (w.latestRun task.id).1 = t then Function.update w.latestRun task.id (t, some outcome)
      else w.latestRun }

def updateParentMetrics (w : World) (o : Nat) : World :=
  let task := w.objects o
  { w with stats := match task.conversation with
    | some c => dictSet w.stats (statsKey task.id) (w.conversations c).metrics
    | none => w.stats }

def closeConversation (w : World) (o : Nat) : World :=
  { w with conversations := match (w.objects o).conversation with
    | some c => Function.update w.conversations c { w.conversations c with isOpen := false }
    | none => w.conversations }

def step (parentPersists : Bool) (w : World) : Op → Option World
  | .call resume conversation =>
    let p := if conversation && !w.attached then Point.attaching resume else .ready resume
    some { w.moveTo w.nextCall p with nextCall := w.nextCall + 1 }
  | .attach t =>
    match w.calls t with
    | some (.attaching resume) => some { w.moveTo t (.placing resume) with attached := true }
    | _ => none
  | .place t =>
    match w.calls t with
    | some (.placing resume) =>
      some { w.moveTo t (.ready resume) with
        persistenceDir := some (if parentPersists then 0 else w.nextDir)
        nextDir := w.nextDir + 1 }
    | _ => none
  | .enter t opening =>
    match w.calls t with
    | some (.ready resume) => some (w.enter t resume opening)
    | _ => none
  | .spend t cost =>
    match w.calls t with
    | some (.running o) => some (w.spend o [cost])
    | _ => none
  | .finish t outcome =>
    match w.calls t with
    | some (.running o) => some ((w.setOutcome t o outcome).moveTo t (.updating o))
    | _ => none
  | .update t =>
    match w.calls t with
    | some (.updating o) => some ((w.updateParentMetrics o).moveTo t (.evicting o))
    | _ => none
  | .close t hookCosts fails =>
    match w.calls t with
    | some (.evicting o) =>
      let w' := w.spend o hookCosts
      some (if fails then w'.leave t else (w'.closeConversation o).moveTo t (.storing o))
    | _ => none
  | .store t =>
    match w.calls t with
    | some (.storing o) => some ((w.putTask { w.objects o with conversation := none }).leave t)
    | _ => none

/-- A call holds an object of the task. -/
def Working (w : World) (t : Nat) (id : TaskId) : Prop :=
  match (w.calls t).bind Point.task? with
  | some o => (w.objects o).id = id
  | none => False

instance instDecidableWorking (w : World) (t : Nat) (id : TaskId) : Decidable (w.Working t id) := by
  unfold Working
  cases (w.calls t).bind Point.task? with
  | none => exact .isFalse fun h => h
  | some o => exact decEq ..

/-- The task that a call is about to resume. -/
def resumed (w : World) (t : Nat) : Option TaskId :=
  match w.calls t with
  | some (.ready resume) => resume
  | _ => none

end World

/-! ## What has to hold -/

/-- What the task shows is how a run ended. -/
def Task.Reports (task : Task) : Outcome → Prop
  | .finished result => task.status = .completed ∧ task.result = some result ∧ task.error = none
  | .stopped detail => task.status = .error ∧ task.error = some detail ∧ task.result = none
  | .raised error => task.status = .error ∧ task.error = some error ∧ task.result = none
  | .interrupted => False

/-- No conversation, the end of the latest run, and all that was spent. -/
structure Settled (w : World) (id : TaskId) (o : Nat) : Prop where
  conversation : (w.objects o).conversation = none
  ended : ∃ outcome, (w.latestRun id).2 = some outcome ∧ (w.objects o).Reports outcome
  stats : w.stats.lookup (statsKey id) = some (w.spent id)

structure Safe (w : World) : Prop where
  ids : w.given.Nodup
  oneOpen : ∀ c d, (w.conversations c).isOpen = true → (w.conversations d).isOpen = true →
    (w.conversations c).task = (w.conversations d).task → c = d
  settled : (∀ t, w.calls t = none) → ∀ e ∈ w.tasks, Settled w e.1 e.2
  entries : (∀ t, w.calls t = none) → (w.stats.map Prod.fst).Perm (w.tasks.map fun e => statsKey e.1)

/-- The parent is attached by a call of its own, a task is resumed when no call
works on it, a run ends by a result or an `Exception`, and the eviction neither
fails nor spends. -/
def Allowed (w : World) : Op → Prop
  | .call _ _ => w.persistenceDir ≠ none ∨ ∀ t < w.nextCall, w.calls t = none
  | .enter t opening => opening ≠ .policyFails ∧ ∀ id ∈ w.resumed t, ∀ u < w.nextCall, ¬ w.Working u id
  | .finish _ outcome => outcome ≠ .interrupted
  | .close _ hookCosts fails => hookCosts = [] ∧ fails = false
  | _ => True

instance instDecidableAllowed (w : World) (op : Op) : Decidable (Allowed w op) := by
  cases op <;> unfold Allowed <;> infer_instance

/-! ## Task ids -/

section Ids

/-- Horner's rule for hexadecimal digits. -/
def ofHex (digits : List Char) : Nat := digits.foldl (fun n c => 16 * n + if c.isDigit then c.toNat - 48 else c.toNat - 87) 0

theorem ofHex_append (ds : List Char) (c : Char) :
    ofHex (ds ++ [c]) = 16 * ofHex ds + if c.isDigit then c.toNat - 48 else c.toNat - 87 := by
  simp [ofHex]

theorem ofHex_digitChar {d : Nat} (h : d < 16) :
    (if d.digitChar.isDigit then d.digitChar.toNat - 48 else d.digitChar.toNat - 87) = d := by
  revert d
  decide

theorem ofHex_toDigits (n : Nat) : ofHex (Nat.toDigits 16 n) = n := by
  induction n using Nat.strongRecOn with
  | ind n ih =>
    rw [Nat.toDigits_eq_if (by decide)]
    split
    · rename_i h
      have hone := ofHex_append [] n.digitChar
      rw [ofHex_digitChar h] at hone
      exact hone.trans (by simp [ofHex])
    · rename_i h
      rw [ofHex_append, ih (n / 16) (by omega), ofHex_digitChar (Nat.mod_lt _ (by decide))]
      omega

theorem ofHex_padHex (n : Nat) : ofHex (padHex n) = n := by
  have hzeros : ∀ k, ofHex (List.replicate k '0') = 0 := by
    intro k
    induction k with
    | zero => rfl
    | succ k ih => rw [List.replicate_succ', ofHex_append, ih]; decide
  have hfold : ofHex (padHex n) = ofHex (Nat.toDigits 16 n) := by
    unfold padHex List.leftpad
    have := hzeros (8 - (Nat.toDigits 16 n).length)
    unfold ofHex at this ⊢
    rw [List.foldl_append, this]
  rw [hfold, ofHex_toDigits]

/-- Different numbers make different ids. -/
theorem taskId_injective : Function.Injective taskId := by
  intro n m h
  have hlist := congrArg String.toList h
  simp only [taskId, String.toList_append, String.toList_ofList] at hlist
  rw [← ofHex_padHex n, List.append_cancel_left hlist, ofHex_padHex]

theorem statsKey_injective : Function.Injective statsKey := by
  intro i j h
  have hlist := congrArg String.toList h
  simp only [statsKey, String.toList_append] at hlist
  exact String.toList_inj.1 (List.append_cancel_left hlist)

end Ids

/-! ## What a step does -/

section
variable {w : World} {t : Nat} {o : Nat}

theorem spend_eq {c : Nat} (h : (w.objects o).conversation = some c) (costs : Metrics) :
    w.spend o costs = w.spendOn (w.objects o).id c costs := by
  rw [World.spend, h]

theorem updateParentMetrics_eq {c : Nat} (h : (w.objects o).conversation = some c) :
    w.updateParentMetrics o =
      { w with stats := dictSet w.stats (statsKey (w.objects o).id) (w.conversations c).metrics } := by
  rw [World.updateParentMetrics, h]

@[simp] theorem calls_spend (costs : Metrics) : (w.spend o costs).calls = w.calls := by
  unfold World.spend
  split <;> rfl

@[simp] theorem attached_spend (costs : Metrics) : (w.spend o costs).attached = w.attached := by
  unfold World.spend
  split <;> rfl

@[simp] theorem persistenceDir_spend (costs : Metrics) : (w.spend o costs).persistenceDir = w.persistenceDir := by
  unfold World.spend
  split <;> rfl

@[simp] theorem nextCall_spend (costs : Metrics) : (w.spend o costs).nextCall = w.nextCall := by
  unfold World.spend
  split <;> rfl

theorem closeConversation_eq {c : Nat} (h : (w.objects o).conversation = some c) :
    w.closeConversation o =
      { w with conversations := Function.update w.conversations c { w.conversations c with isOpen := false } } := by
  rw [World.closeConversation, h]

/-- What opens a conversation: nothing comes of it, one is left behind, a task
is resumed or one is created. -/
inductive Entered (w : World) (t : Nat) (resume : Option TaskId) (opening : Opening) : World → Prop
  | left (uuids : Nat) : Entered w t resume opening { w.leave t with nextUuid := w.nextUuid + uuids }
  | leaked (id : TaskId) (conversationId uuids : Nat) (h : opening = .policyFails) :
    Entered w t resume opening
      (({ w with nextUuid := w.nextUuid + uuids }.openConversation id conversationId).leave t)
  | resumed (id : TaskId) (o : Nat) (hresume : resume = some id) (ho : w.tasks.lookup id = some o)
    (ha : w.attached = true) :
    Entered w t resume opening ((w.openConversation id (w.objects o).conversationId).startRun t
      { w.objects o with conversation := some w.nextConversation, status := .running })
  | created (ha : w.attached = true) :
    Entered w t resume opening
      { ({ w with nextUuid := w.nextUuid + 1 }.openConversation (taskId (w.tasks.length + 1)) w.nextUuid).startRun t
          { id := taskId (w.tasks.length + 1), conversationId := w.nextUuid,
            conversation := some w.nextConversation } with
        given := w.given ++ [taskId (w.tasks.length + 1)] }

theorem entered_enter (resume : Option TaskId) (opening : Opening) :
    Entered w t resume opening (w.enter t resume opening) := by
  unfold World.enter
  split
  · rename_i ha
    cases hr : resume.filter (· ≠ "") with
    | some id =>
      have hresume : resume = some id := (Option.filter_eq_some_iff.1 hr).1
      dsimp only
      unfold World.resumeTask
      cases ho : w.tasks.lookup id with
      | none => exact .left 0
      | some o =>
        cases opening with
        | opened => exact .resumed id o hresume ho ha
        | policyFails => exact .leaked id _ 0 rfl
        | agentFails | conversationFails => exact .left 0
    | none =>
      dsimp only
      unfold World.createTask
      cases opening with
      | opened => exact .created ha
      | policyFails => exact .leaked _ _ 1 rfl
      | agentFails => exact .left 0
      | conversationFails => exact .left 1
  · exact .left 0

end

/-- One step, by the point at which it finds its call. -/
inductive Stepped (persists : Bool) (w : World) : Op → World → Prop
  | call (resume : Option TaskId) (conversation : Bool) (p : Point)
    (hp : p = .ready resume ∨ (p = .attaching resume ∧ w.attached = false)) :
    Stepped persists w (.call resume conversation) { w.moveTo w.nextCall p with nextCall := w.nextCall + 1 }
  | attach (t : Nat) (resume : Option TaskId) (h : w.calls t = some (.attaching resume)) :
    Stepped persists w (.attach t) { w.moveTo t (.placing resume) with attached := true }
  | place (t : Nat) (resume : Option TaskId) (h : w.calls t = some (.placing resume)) :
    Stepped persists w (.place t) { w.moveTo t (.ready resume) with
      persistenceDir := some (if persists then 0 else w.nextDir), nextDir := w.nextDir + 1 }
  | enter (t : Nat) (resume : Option TaskId) (opening : Opening) (w' : World)
    (h : w.calls t = some (.ready resume)) (he : Entered w t resume opening w') :
    Stepped persists w (.enter t opening) w'
  | spend (t : Nat) (cost o : Nat) (h : w.calls t = some (.running o)) :
    Stepped persists w (.spend t cost) (w.spend o [cost])
  | finish (t : Nat) (outcome : Outcome) (o : Nat) (h : w.calls t = some (.running o)) :
    Stepped persists w (.finish t outcome) ((w.setOutcome t o outcome).moveTo t (.updating o))
  | update (t : Nat) (o : Nat) (h : w.calls t = some (.updating o)) :
    Stepped persists w (.update t) ((w.updateParentMetrics o).moveTo t (.evicting o))
  | closeFails (t : Nat) (hookCosts : Metrics) (o : Nat) (h : w.calls t = some (.evicting o)) :
    Stepped persists w (.close t hookCosts true) ((w.spend o hookCosts).leave t)
  | close (t : Nat) (hookCosts : Metrics) (o : Nat) (h : w.calls t = some (.evicting o)) :
    Stepped persists w (.close t hookCosts false) (((w.spend o hookCosts).closeConversation o).moveTo t (.storing o))
  | store (t : Nat) (o : Nat) (h : w.calls t = some (.storing o)) :
    Stepped persists w (.store t) ((w.putTask { w.objects o with conversation := none }).leave t)

theorem stepped {persists : Bool} {w w' : World} {op : Op} (hstep : w.step persists op = some w') :
    Stepped persists w op w' := by
  cases op with
  | call resume conversation =>
    cases hstep
    refine .call _ _ _ ?_
    by_cases h : (conversation && !w.attached) = true
    · rw [if_pos h]
      simp only [Bool.and_eq_true, Bool.not_eq_true'] at h
      exact .inr ⟨rfl, h.2⟩
    · rw [if_neg h]
      exact .inl rfl
  | attach t =>
    simp only [World.step] at hstep
    split at hstep <;> cases hstep
    exact .attach _ _ ‹_›
  | place t =>
    simp only [World.step] at hstep
    split at hstep <;> cases hstep
    exact .place _ _ ‹_›
  | enter t opening =>
    simp only [World.step] at hstep
    split at hstep <;> cases hstep
    exact .enter _ _ _ _ ‹_› (entered_enter _ _)
  | spend t cost =>
    simp only [World.step] at hstep
    split at hstep <;> cases hstep
    exact .spend _ _ _ ‹_›
  | finish t outcome =>
    simp only [World.step] at hstep
    split at hstep <;> cases hstep
    exact .finish _ _ _ ‹_›
  | update t =>
    simp only [World.step] at hstep
    split at hstep <;> cases hstep
    exact .update _ _ ‹_›
  | close t hookCosts fails =>
    simp only [World.step] at hstep
    split at hstep <;> cases hstep
    cases fails with
    | true => exact .closeFails _ _ _ ‹_›
    | false => exact .close _ _ _ ‹_›
  | store t =>
    simp only [World.step] at hstep
    split at hstep <;> cases hstep
    exact .store _ _ ‹_›

/-! ## Ids, in every run -/

/-- The task ids are the numbers in order, and every object has the id of its
entry. -/
structure Ids (w : World) : Prop where
  keys : w.tasks.map Prod.fst = w.given
  numbered : w.given = (List.range w.given.length).map fun n => taskId (n + 1)
  entry : ∀ e ∈ w.tasks, (w.objects e.2).id = e.1 ∧ e.2 < w.nextObject
  held : ∀ t p o, w.calls t = some p → p.task? = some o → (w.objects o).id ∈ w.given ∧ o < w.nextObject

section
variable {w w' : World} {t : Nat} {o : Nat}

theorem Ids.nodup (h : Ids w) : w.given.Nodup := by
  rw [h.numbered]
  refine List.Nodup.map (fun n m hnm => ?_) List.nodup_range
  exact Nat.succ.inj (taskId_injective hnm)

theorem Ids.keys_nodup (h : Ids w) : (w.tasks.map Prod.fst).Nodup := h.keys ▸ h.nodup

theorem Ids.length (h : Ids w) : w.tasks.length = w.given.length := by
  rw [← h.keys, List.length_map]

/-- The next id is new. -/
theorem Ids.new (h : Ids w) : taskId (w.tasks.length + 1) ∉ w.given := by
  rw [h.numbered, h.length]
  intro hmem
  obtain ⟨n, hn, heq⟩ := List.mem_map.1 hmem
  have := taskId_injective heq
  rw [List.mem_range] at hn
  omega

/-- The ids survive what changes no entry and no id, and no object that a call
holds. -/
theorem Ids.frame (h : Ids w) (htasks : w'.tasks = w.tasks) (hgiven : w'.given = w.given)
    (hobjects : ∀ o, (w'.objects o).id = (w.objects o).id) (hnext : w'.nextObject = w.nextObject)
    (hcalls : ∀ u p o, w'.calls u = some p → p.task? = some o → ∃ v q, w.calls v = some q ∧ q.task? = some o) :
    Ids w' := by
  refine ⟨by rw [htasks, hgiven]; exact h.keys, by rw [hgiven]; exact h.numbered, fun e he => ?_, fun u p o hp ho => ?_⟩
  · rw [hobjects, hnext]
    exact h.entry e (htasks ▸ he)
  · obtain ⟨v, q, hq, hqo⟩ := hcalls u p o hp ho
    rw [hobjects, hgiven, hnext]
    exact h.held v q o hq hqo

theorem calls_leave {u : Nat} {p : Point} (h : (w.leave t).calls u = some p) : u ≠ t ∧ w.calls u = some p := by
  rw [World.leave] at h
  dsimp only at h
  by_cases hu : u = t
  · rw [hu, Function.update_self] at h
    cases h
  · exact ⟨hu, by rwa [Function.update_of_ne hu] at h⟩

theorem calls_moveTo {u : Nat} {p q : Point} (h : (w.moveTo t q).calls u = some p) :
    (u = t ∧ p = q) ∨ (u ≠ t ∧ w.calls u = some p) := by
  rw [World.moveTo] at h
  dsimp only at h
  by_cases hu : u = t
  · rw [hu, Function.update_self] at h
    exact .inl ⟨hu, (Option.some.inj h).symm⟩
  · exact .inr ⟨hu, by rwa [Function.update_of_ne hu] at h⟩

/-- A new object, under ids that hold the task's. -/
theorem Ids.put (h : Ids w) {task : Task} {given : List TaskId} (hkeys : (w.putTask task).tasks.map Prod.fst = given)
    (hnum : given = (List.range given.length).map fun n => taskId (n + 1)) (hsub : w.given ⊆ given) :
    Ids { w.putTask task with given := given } := by
  refine ⟨hkeys, hnum, fun e he => ?_, fun u p o hp ho => ?_⟩
  · show (Function.update w.objects w.nextObject task e.2).id = e.1 ∧ e.2 < w.nextObject + 1
    rcases mem_dictSet he with rfl | he
    · exact ⟨by rw [Function.update_self], Nat.lt_succ_self _⟩
    · obtain ⟨heid, hlt⟩ := h.entry e he
      rw [Function.update_of_ne (Nat.ne_of_lt hlt)]
      exact ⟨heid, Nat.lt_succ_of_lt hlt⟩
  · obtain ⟨hmem, hlt⟩ := h.held u p o hp ho
    show (Function.update w.objects w.nextObject task o).id ∈ given ∧ o < w.nextObject + 1
    rw [Function.update_of_ne (Nat.ne_of_lt hlt)]
    exact ⟨hsub hmem, Nat.lt_succ_of_lt hlt⟩

theorem keys_putTask (h : Ids w) {task : Task} (hid : task.id ∈ w.given) :
    (w.putTask task).tasks.map Prod.fst = w.given := by
  show (dictSet w.tasks task.id w.nextObject).map Prod.fst = w.given
  rw [keys_dictSet, h.keys, if_pos hid]

/-- A call that holds a known object as well. -/
theorem Ids.hold (h : Ids w) {p : Point} (hp : ∀ o, p.task? = some o → (w.objects o).id ∈ w.given ∧ o < w.nextObject) :
    Ids (w.moveTo t p) := by
  refine ⟨h.keys, h.numbered, h.entry, fun u q o hq ho => ?_⟩
  rcases calls_moveTo hq with ⟨-, rfl⟩ | ⟨-, hq⟩
  · exact hp o ho
  · exact h.held u q o hq ho

theorem Ids.leave (h : Ids w) : Ids (w.leave t) :=
  ⟨h.keys, h.numbered, h.entry, fun u p o hp ho => h.held u p o (calls_leave hp).2 ho⟩

theorem Ids.startRun (h : Ids w) {task : Task} {given : List TaskId} (hkeys : (w.putTask task).tasks.map Prod.fst = given)
    (hnum : given = (List.range given.length).map fun n => taskId (n + 1)) (hsub : w.given ⊆ given) :
    Ids { w.startRun t task with given := given } := by
  have hput := h.put hkeys hnum hsub
  have hmem : task.id ∈ given := by
    rw [← hkeys]
    show task.id ∈ (dictSet w.tasks task.id w.nextObject).map Prod.fst
    rw [keys_dictSet]
    split
    · assumption
    · simp
  have hhold : Ids ({ w.putTask task with given := given }.moveTo t (.running w.nextObject)) := by
    refine hput.hold fun o ho => ?_
    obtain rfl : w.nextObject = o := Option.some.inj ho
    show (Function.update w.objects w.nextObject task w.nextObject).id ∈ given ∧ w.nextObject < w.nextObject + 1
    rw [Function.update_self]
    exact ⟨hmem, Nat.lt_succ_self _⟩
  exact ⟨hhold.keys, hhold.numbered, hhold.entry, hhold.held⟩

theorem Ids.entered {resume : Option TaskId} {opening : Opening} (h : Ids w)
    (he : Entered w t resume opening w') : Ids w' := by
  cases he with
  | left uuids => exact ⟨h.keys, h.numbered, h.entry, (h.leave (t := t)).held⟩
  | leaked id conversationId uuids => exact ⟨h.keys, h.numbered, h.entry, (h.leave (t := t)).held⟩
  | resumed id o hresume ho =>
    have hent := h.entry _ (Lib.mem_of_lookup ho)
    have hmem : (w.objects o).id ∈ w.given := by
      rw [hent.1, ← h.keys]
      exact List.mem_map_of_mem (Lib.mem_of_lookup ho)
    have hopen : Ids (w.openConversation id (w.objects o).conversationId) := ⟨h.keys, h.numbered, h.entry, h.held⟩
    exact hopen.startRun (keys_putTask hopen hmem) h.numbered (List.Subset.refl _)
  | created =>
    have hopen : Ids ({ w with nextUuid := w.nextUuid + 1 }.openConversation (taskId (w.tasks.length + 1)) w.nextUuid) :=
      ⟨h.keys, h.numbered, h.entry, h.held⟩
    refine hopen.startRun ?_ ?_ (List.subset_append_left _ _)
    · show (dictSet w.tasks (taskId (w.tasks.length + 1)) w.nextObject).map Prod.fst = _
      rw [keys_dictSet, h.keys, if_neg h.new]
    · rw [List.length_append, List.length_singleton, List.range_succ, List.map_append, ← h.numbered, h.length]
      rfl

theorem Ids.spend (h : Ids w) (costs : Metrics) : Ids (w.spend o costs) := by
  cases hc : (w.objects o).conversation with
  | none =>
    rw [World.spend, hc]
    exact h
  | some c =>
    rw [spend_eq hc]
    exact ⟨h.keys, h.numbered, h.entry, h.held⟩

theorem Ids.setOutcome (h : Ids w) (outcome : Outcome) : Ids (w.setOutcome t o outcome) := by
  refine h.frame rfl rfl (fun i => ?_) rfl fun u p o hp ho => ⟨u, p, hp, ho⟩
  show (Function.update w.objects o ((w.objects o).record outcome) i).id = (w.objects i).id
  by_cases hi : i = o
  · rw [hi, Function.update_self, Task.record_id]
  · rw [Function.update_of_ne hi]

/-- A call that holds an object moves on with it. -/
theorem Ids.moveOn (h : Ids w) {p q : Point} (hp : w.calls t = some p) (hpo : p.task? = some o) (hqo : q.task? = some o) :
    Ids (w.moveTo t q) :=
  h.hold fun o' ho' => by
    obtain rfl : o = o' := Option.some.inj (hqo.symm.trans ho')
    exact h.held t p o hp hpo

theorem Ids.step {persists : Bool} {op : Op} (h : Ids w) (hstep : Stepped persists w op w') : Ids w' := by
  cases hstep with
  | call resume conversation p hp =>
    refine h.frame rfl rfl (fun _ => rfl) rfl fun u q o hq ho => ?_
    rcases calls_moveTo hq with ⟨-, rfl⟩ | ⟨-, hq⟩
    · rcases hp with rfl | ⟨rfl, -⟩ <;> cases ho
    · exact ⟨u, q, hq, ho⟩
  | attach t resume ht =>
    refine h.frame rfl rfl (fun _ => rfl) rfl fun u q o hq ho => ?_
    rcases calls_moveTo hq with ⟨-, rfl⟩ | ⟨-, hq⟩
    · cases ho
    · exact ⟨u, q, hq, ho⟩
  | place t resume ht =>
    refine h.frame rfl rfl (fun _ => rfl) rfl fun u q o hq ho => ?_
    rcases calls_moveTo hq with ⟨-, rfl⟩ | ⟨-, hq⟩
    · cases ho
    · exact ⟨u, q, hq, ho⟩
  | enter t resume opening w' ht he => exact h.entered he
  | spend t cost o ht => exact h.spend _
  | finish t outcome o ht => exact (h.setOutcome outcome).moveOn (p := .running o) ht rfl rfl
  | update t o ht =>
    have hstats : Ids (w.updateParentMetrics o) := ⟨h.keys, h.numbered, h.entry, h.held⟩
    exact hstats.moveOn (p := .updating o) ht rfl rfl
  | closeFails t hookCosts o ht => exact (h.spend _).leave
  | close t hookCosts o ht =>
    have hspent := h.spend (o := o) hookCosts
    have hclosed : Ids ((w.spend o hookCosts).closeConversation o) :=
      ⟨hspent.keys, hspent.numbered, hspent.entry, hspent.held⟩
    have hcalls : ((w.spend o hookCosts).closeConversation o).calls t = some (.evicting o) := by
      show (w.spend o hookCosts).calls t = _
      rw [calls_spend]
      exact ht
    exact hclosed.moveOn (p := .evicting o) hcalls rfl rfl
  | store t o ht =>
    have hid : (w.objects o).id ∈ w.given := (h.held t _ o ht rfl).1
    have hkeys := @keys_putTask w h { w.objects o with conversation := none } hid
    exact (h.put hkeys h.numbered (List.Subset.refl _)).leave

theorem ids_init : Ids {} := ⟨rfl, rfl, nofun, nofun⟩

/-- No task id is given twice, in any run. -/
theorem given_nodup {persists : Bool} {allowed : World → Op → Prop} (h : Reaches (World.step persists) allowed {} w) :
    w.given.Nodup :=
  (h.invariant ids_init fun _ _ _ hids _ hstep => hids.step (stepped hstep)).nodup

end

/-! ## The parent is attached once -/

/-- A call past `_ensure_parent`. -/
def Point.Past (p : Point) : Prop := ∀ r, p ≠ .attaching r ∧ p ≠ .placing r

/-- Until the directory is set there is one call, and it is the one that sets
it. -/
structure Attachment (w : World) : Prop where
  unattached : w.attached = false → w.persistenceDir = none
  placing : w.attached = true → w.persistenceDir = none → ∃ t r, w.calls t = some (.placing r)
  alone : w.persistenceDir = none → ∀ t u, w.calls t ≠ none → w.calls u ≠ none → t = u
  parent : ∀ t r, w.calls t = some (.placing r) → w.attached = true
  unplaced : ∀ t p, w.calls t = some p → ¬ p.Past → w.persistenceDir = none
  ticket : ∀ t, w.nextCall ≤ t → w.calls t = none

section
variable {w w' : World} {t : Nat}

theorem past_of_task {p : Point} {o : Nat} (h : p.task? = some o) : p.Past := by
  rintro r
  constructor <;> rintro rfl <;> cases h

theorem Attachment.lt (h : Attachment w) {p : Point} (ht : w.calls t = some p) : t < w.nextCall := by
  refine Nat.lt_of_not_le fun hle => ?_
  rw [h.ticket t hle] at ht
  cases ht

theorem Attachment.placed (h : Attachment w) {r : Option TaskId} (ht : w.calls t = some (.ready r))
    (ha : w.attached = true) : ∃ dir, w.persistenceDir = some dir := by
  cases hdir : w.persistenceDir with
  | some dir => exact ⟨dir, rfl⟩
  | none =>
    obtain ⟨u, r', hu⟩ := h.placing ha hdir
    obtain rfl := h.alone hdir t u (by simp [ht]) (by simp [hu])
    rw [ht] at hu
    cases hu

/-- A call past `_ensure_parent` moves on or leaves. -/
theorem Attachment.move (h : Attachment w) {p : Point} (ht : w.calls t = some p) (hp : p.Past) {q : Option Point}
    (hq : ∀ p' ∈ q, Point.Past p') (ha : w'.attached = w.attached) (hdir : w'.persistenceDir = w.persistenceDir)
    (hnext : w'.nextCall = w.nextCall) (hcalls : w'.calls = Function.update w.calls t q) : Attachment w' := by
  have hin : ∀ u, w'.calls u ≠ none → w.calls u ≠ none := by
    intro u hu
    rw [hcalls] at hu
    by_cases hut : u = t
    · simp [hut, ht]
    · rwa [Function.update_of_ne hut] at hu
  refine ⟨fun ha' => hdir ▸ h.unattached (ha ▸ ha'), fun ha' hd => ?_, fun hd u v hu hv => ?_, fun u r hu => ?_,
    fun u p' hu hp' => ?_, fun u hle => ?_⟩
  · obtain ⟨u, r, hu⟩ := h.placing (ha ▸ ha') (hdir ▸ hd)
    refine ⟨u, r, ?_⟩
    rw [hcalls, Function.update_of_ne, hu]
    rintro rfl
    rw [ht] at hu
    exact (hp r).2 (Option.some.inj hu)
  · exact h.alone (hdir ▸ hd) u v (hin u hu) (hin v hv)
  · rw [hcalls] at hu
    rw [ha]
    by_cases hut : u = t
    · rw [hut, Function.update_self] at hu
      exact absurd rfl (hq _ hu r).2
    · rw [Function.update_of_ne hut] at hu
      exact h.parent u r hu
  · rw [hdir]
    rw [hcalls] at hu
    by_cases hut : u = t
    · rw [hut, Function.update_self] at hu
      exact absurd (hq p' hu) hp'
    · rw [Function.update_of_ne hut] at hu
      exact h.unplaced u p' hu hp'
  · rw [hcalls, Function.update_of_ne, h.ticket u (hnext ▸ hle)]
    rintro rfl
    have := h.lt ht
    omega

/-- A call before the directory is set is the only one. -/
theorem Attachment.only (h : Attachment w) {p : Point} (ht : w.calls t = some p) (hp : ¬ p.Past) {u : Nat}
    (hu : u ≠ t) : w.calls u = none := by
  cases hc : w.calls u with
  | none => rfl
  | some q => exact absurd (h.alone (h.unplaced t p ht hp) u t (by simp [hc]) (by simp [ht])) hu

theorem calls_entered {resume : Option TaskId} {opening : Opening} (he : Entered w t resume opening w') :
    w'.attached = w.attached ∧ w'.persistenceDir = w.persistenceDir ∧ w'.nextCall = w.nextCall ∧
      ∃ q, (∀ p ∈ q, Point.Past p) ∧ w'.calls = Function.update w.calls t q := by
  have hrun : ∀ o, ∀ p ∈ some (Point.running o), Point.Past p := by
    rintro o p hp
    obtain rfl := Option.some.inj hp
    exact past_of_task rfl
  cases he with
  | left | leaked => exact ⟨rfl, rfl, rfl, none, nofun, rfl⟩
  | resumed | created => exact ⟨rfl, rfl, rfl, _, hrun _, rfl⟩

/-- A call in `_ensure_parent` is not past it. -/
theorem not_past (r : Option TaskId) : ¬ Point.Past (.attaching r) ∧ ¬ Point.Past (.placing r) :=
  ⟨fun hp => (hp r).1 rfl, fun hp => (hp r).2 rfl⟩

theorem Attachment.call {resume : Option TaskId} {conversation : Bool} {p : Point} (h : Attachment w)
    (hok : Allowed w (.call resume conversation)) (hp : p = .ready resume ∨ (p = .attaching resume ∧ w.attached = false)) :
    Attachment { w.moveTo w.nextCall p with nextCall := w.nextCall + 1 } := by
  -- As long as there is no directory, a first call is the only one.
  have hall : w.persistenceDir = none → ∀ u, w.calls u = none := by
    intro hdir u
    rcases hok with hok | hok
    · exact absurd hdir hok
    · by_cases hu : u < w.nextCall
      · exact hok u hu
      · exact h.ticket u (Nat.le_of_not_lt hu)
  have honly : w.persistenceDir = none → ∀ u, (w.moveTo w.nextCall p).calls u ≠ none → u = w.nextCall := by
    intro hdir u hu
    by_cases hut : u = w.nextCall
    · exact hut
    · exact absurd ((Function.update_of_ne hut ..).trans (hall hdir u)) hu
  refine ⟨h.unattached, fun ha hdir => ?_, fun hdir u v hu hv => ?_, fun u r hu => ?_, fun u q hu hq => ?_,
    fun u hu => ?_⟩
  · obtain ⟨u, r, hu⟩ := h.placing ha hdir
    rw [hall hdir u] at hu
    cases hu
  · rw [honly hdir u hu, honly hdir v hv]
  · rcases calls_moveTo hu with ⟨-, heq⟩ | ⟨-, hu⟩
    · rcases hp with rfl | ⟨rfl, -⟩ <;> cases heq
    · exact h.parent u r hu
  · rcases calls_moveTo hu with ⟨-, rfl⟩ | ⟨-, hu⟩
    · rcases hp with rfl | ⟨rfl, ha⟩
      · exact absurd (fun r => ⟨nofun, nofun⟩) hq
      · exact h.unattached ha
    · exact h.unplaced u q hu hq
  · show Function.update w.calls w.nextCall (some p) u = none
    have hlt : w.nextCall + 1 ≤ u := hu
    rw [Function.update_of_ne (by omega), h.ticket u (by omega)]

theorem Attachment.attach {resume : Option TaskId} (h : Attachment w) (ht : w.calls t = some (.attaching resume)) :
    Attachment { w.moveTo t (.placing resume) with attached := true } := by
  have hdir := h.unplaced t _ ht (not_past resume).1
  have hlt := h.lt ht
  -- Before the directory is set there is no other call.
  have honly : ∀ u, (w.moveTo t (.placing resume)).calls u ≠ none → u = t := by
    intro u hu
    by_cases hut : u = t
    · exact hut
    · exact absurd ((Function.update_of_ne hut ..).trans (h.only ht (not_past resume).1 hut)) hu
  refine ⟨nofun, fun _ _ => ⟨t, resume, Function.update_self ..⟩, fun _ u v hu hv => ?_, fun _ _ _ => rfl,
    fun u q _ _ => hdir, fun u hu => ?_⟩
  · rw [honly u hu, honly v hv]
  · show Function.update w.calls t _ u = none
    have hle : w.nextCall ≤ u := hu
    rw [Function.update_of_ne (by omega), h.ticket u hle]

theorem Attachment.place {resume : Option TaskId} {dir nextDir : Nat} (h : Attachment w)
    (ht : w.calls t = some (.placing resume)) :
    Attachment { w.moveTo t (.ready resume) with persistenceDir := some dir, nextDir } := by
  have hlt := h.lt ht
  have hat := h.parent t resume ht
  refine ⟨fun ha => ?_, nofun, nofun, fun _ _ _ => hat, fun u q hu hq => ?_, fun u hu => ?_⟩
  · exact absurd (hat.symm.trans ha) (by decide)
  · rcases calls_moveTo hu with ⟨-, rfl⟩ | ⟨hut, hu⟩
    · exact absurd (fun r => ⟨nofun, nofun⟩) hq
    · rw [h.only ht (not_past resume).2 hut] at hu
      cases hu
  · show Function.update w.calls t _ u = none
    have hle : w.nextCall ≤ u := hu
    rw [Function.update_of_ne (by omega), h.ticket u hle]

theorem Attachment.step {persists : Bool} {op : Op} (h : Attachment w) (hok : Allowed w op)
    (hstep : Stepped persists w op w') : Attachment w' := by
  have hsome : ∀ {q p : Point} {o : Nat}, q.task? = some o → p ∈ some q → p.Past := by
    intro q p o hq hp
    obtain rfl := Option.some.inj hp
    exact past_of_task hq
  cases hstep with
  | call resume conversation p hp => exact h.call hok hp
  | attach t resume ht => exact h.attach ht
  | place t resume ht => exact h.place ht
  | enter t resume opening w' ht he =>
    obtain ⟨ha, hdir, hnext, q, hq, hcalls⟩ := calls_entered he
    exact h.move ht (fun r => ⟨nofun, nofun⟩) hq ha hdir hnext hcalls
  | spend t cost o ht =>
    refine h.move (q := some (.running o)) ht (past_of_task rfl) (fun p hp => hsome rfl hp) (attached_spend _) (persistenceDir_spend _)
      (nextCall_spend _) ?_
    rw [calls_spend, ← ht, Function.update_eq_self]
  | finish t outcome o ht =>
    exact h.move ht (past_of_task rfl) (fun p hp => hsome rfl hp) rfl rfl rfl rfl
  | update t o ht =>
    exact h.move ht (past_of_task rfl) (fun p hp => hsome rfl hp) rfl rfl rfl rfl
  | closeFails t hookCosts o ht =>
    refine h.move (q := none) ht (past_of_task rfl) nofun (attached_spend _) (persistenceDir_spend _) (nextCall_spend _) ?_
    rw [World.leave, calls_spend]
  | close t hookCosts o ht =>
    refine h.move (q := some (.storing o)) ht (past_of_task rfl) (fun p hp => hsome rfl hp) (attached_spend _) (persistenceDir_spend _)
      (nextCall_spend _) ?_
    show Function.update (w.spend o hookCosts).calls t _ = _
    rw [calls_spend]
  | store t o ht => exact h.move (q := none) ht (past_of_task rfl) nofun rfl rfl rfl rfl

end

/-! ## One call works on a task -/

def Point.ran : Point → Bool
  | .updating _ | .evicting _ | .storing _ => true
  | _ => false

def Point.reported : Point → Bool
  | .evicting _ | .storing _ => true
  | _ => false

def Point.closed : Point → Bool
  | .storing _ => true
  | _ => false

structure Idle (w : World) (id : TaskId) (o : Nat) : Prop where
  free : ∀ t p, w.calls t = some p → p.task? ≠ some o
  settled : Settled w id o

structure Busy (w : World) (id : TaskId) (o t c : Nat) (p : Point) : Prop where
  call : w.calls t = some p
  task : p.task? = some o
  sole : ∀ u q, w.calls u = some q → q.task? = some o → u = t
  conversation : (w.objects o).conversation = some c
  bound : c < w.nextConversation
  opened : w.conversations c = ⟨id, (w.objects o).conversationId, w.persistenceDir, w.spent id, !p.closed⟩
  latest : (w.latestRun id).1 = t
  ended : p.ran = true → ∃ outcome, (w.latestRun id).2 = some outcome ∧ (w.objects o).Reports outcome
  stats : p.reported = true → w.stats.lookup (statsKey id) = some (w.spent id)

/-- What holds of an entry of `_tasks`. -/
structure Entry (w : World) (id : TaskId) (o : Nat) : Prop where
  object : (w.objects o).id = id
  objectBound : o < w.nextObject
  uuidBound : (w.objects o).conversationId < w.nextUuid
  saved : ∃ dir, w.persistenceDir = some dir ∧ w.saved (dir, (w.objects o).conversationId) = some (w.spent id)
  phase : Idle w id o ∨ ∃ t c p, Busy w id o t c p

structure Kept (w : World) : Prop where
  entry : ∀ e ∈ w.tasks, Entry w e.1 e.2
  opened : ∀ c, (w.conversations c).isOpen = true → ∃ e ∈ w.tasks, (w.objects e.2).conversation = some c
  work : ∀ t p o, w.calls t = some p → p.task? = some o → ∃ e ∈ w.tasks, e.2 = o
  uuids : ∀ e ∈ w.tasks, ∀ f ∈ w.tasks, (w.objects e.2).conversationId = (w.objects f.2).conversationId → e.1 = f.1
  statsKeys : (w.stats.map Prod.fst).Nodup
  statsOf : ∀ k ∈ w.stats.map Prod.fst, ∃ e ∈ w.tasks, k = statsKey e.1
  unopened : ∀ c, w.nextConversation ≤ c → (w.conversations c).isOpen = false
  unsaved : ∀ dir u, w.nextUuid ≤ u → w.saved (dir, u) = none
  unspent : ∀ id, (∀ e ∈ w.tasks, e.1 ≠ id) → w.spent id = []

/-- What a step of the call `t` on the task `id` leaves alone. Its entry was
`o`, and is `o'` now. -/
structure Acts (w w' : World) (t : Nat) (id : TaskId) (o o' c uuid : Nat) : Prop where
  nextObject : w.nextObject ≤ w'.nextObject
  nextUuid : w.nextUuid ≤ w'.nextUuid
  nextConversation : w.nextConversation ≤ w'.nextConversation
  dir : w'.persistenceDir = w.persistenceDir
  objects : ∀ i < w.nextObject, i ≠ o → w'.objects i = w.objects i
  conversations : ∀ d, d ≠ c → w'.conversations d = w.conversations d
  saved : ∀ dir u, u ≠ uuid → w'.saved (dir, u) = w.saved (dir, u)
  spent : ∀ j, j ≠ id → w'.spent j = w.spent j
  latest : ∀ j, j ≠ id → w'.latestRun j = w.latestRun j
  calls : ∀ u, u ≠ t → w'.calls u = w.calls u
  holds : ∀ p i, w.calls t = some p → p.task? = some i → i = o
  holds' : ∀ p i, w'.calls t = some p → p.task? = some i → i = o'
  tasks : ∀ e, e ∈ w'.tasks ↔ e = (id, o') ∨ (e ∈ w.tasks ∧ e.1 ≠ id)
  stats : w'.stats = w.stats ∨ ∃ v, w'.stats = dictSet w.stats (statsKey id) v
  entry : Entry w' id o'
  uuid : (w'.objects o').conversationId = uuid
  opened : (w'.conversations c).isOpen = true → (w'.objects o').conversation = some c
  bound : c < w'.nextConversation

/-- How the task stood to the rest before the step. -/
structure Apart (w : World) (t : Nat) (id : TaskId) (o o' c uuid : Nat) : Prop where
  own : ∀ e ∈ w.tasks, e.1 = id → e.2 = o ∧ ∀ d, (w.objects e.2).conversation = some d → d = c
  object : ∀ e ∈ w.tasks, e.1 ≠ id → e.2 ≠ o ∧ e.2 ≠ o'
  conversation : ∀ e ∈ w.tasks, e.1 ≠ id → (w.objects e.2).conversation ≠ some c
  uuid : ∀ e ∈ w.tasks, e.1 ≠ id → (w.objects e.2).conversationId ≠ uuid
  sole : ∀ u p, u ≠ t → w.calls u = some p → p.task? ≠ some o

section
variable {w w' : World} {t o o' c uuid : Nat} {id : TaskId}

theorem Acts.lookup_stats (ha : Acts w w' t id o o' c uuid) {j : TaskId} (hj : j ≠ id) :
    w'.stats.lookup (statsKey j) = w.stats.lookup (statsKey j) := by
  rcases ha.stats with h | ⟨v, h⟩
  · rw [h]
  · rw [h, lookup_dictSet, if_neg fun heq => hj (statsKey_injective heq)]

/-- The calls that hold the object of another task are the same. -/
theorem Acts.calls_other (ha : Acts w w' t id o o' c uuid) {i : Nat} (ho : i ≠ o) (ho' : i ≠ o') {u : Nat} {p : Point}
    (hp : p.task? = some i) : w'.calls u = some p ↔ w.calls u = some p := by
  by_cases hu : u = t
  · subst hu
    exact ⟨fun h => absurd (ha.holds' p i h hp) ho', fun h => absurd (ha.holds p i h hp) ho⟩
  · rw [ha.calls u hu]

/-- The entry of another task stays as it is. -/
theorem Entry.other {j : TaskId} {i : Nat} (h : Entry w j i) (ha : Acts w w' t id o o' c uuid) (hj : j ≠ id)
    (ho : i ≠ o) (ho' : i ≠ o') (hc : (w.objects i).conversation ≠ some c)
    (hu : (w.objects i).conversationId ≠ uuid) : Entry w' j i := by
  have hobj : w'.objects i = w.objects i := ha.objects i h.objectBound ho
  have hcalls : ∀ {u : Nat} {p : Point}, p.task? = some i → (w'.calls u = some p ↔ w.calls u = some p) :=
    fun hp => ha.calls_other ho ho' hp
  obtain ⟨dir, hdir, hsaved⟩ := h.saved
  refine ⟨by rw [hobj]; exact h.object, Nat.lt_of_lt_of_le h.objectBound ha.nextObject,
    by rw [hobj]; exact Nat.lt_of_lt_of_le h.uuidBound ha.nextUuid, ⟨dir, by rw [ha.dir, hdir], ?_⟩, ?_⟩
  · rw [hobj, ha.saved _ _ hu, ha.spent j hj]
    exact hsaved
  · rcases h.phase with hidle | ⟨u, d, p, hbusy⟩
    · refine .inl ⟨fun u p hp hpi => hidle.free u p ((hcalls hpi).1 hp) hpi, ?_, ?_, ?_⟩
      · rw [hobj]
        exact hidle.settled.conversation
      · rw [ha.latest j hj, hobj]
        exact hidle.settled.ended
      · rw [ha.lookup_stats hj, ha.spent j hj]
        exact hidle.settled.stats
    · have hd : d ≠ c := by
        rintro rfl
        exact hc hbusy.conversation
      refine .inr ⟨u, d, p, (hcalls hbusy.task).2 hbusy.call, hbusy.task,
        fun v q hq hqi => hbusy.sole v q ((hcalls hqi).1 hq) hqi, ?_, ?_, ?_, ?_, ?_, ?_⟩
      · rw [hobj]
        exact hbusy.conversation
      · exact Nat.lt_of_lt_of_le hbusy.bound ha.nextConversation
      · rw [ha.conversations d hd, hobj, ha.dir, ha.spent j hj]
        exact hbusy.opened
      · rw [ha.latest j hj]
        exact hbusy.latest
      · rw [ha.latest j hj, hobj]
        exact hbusy.ended
      · rw [ha.lookup_stats hj, ha.spent j hj]
        exact hbusy.stats

theorem Kept.acts (h : Kept w) (hap : Apart w t id o o' c uuid) (ha : Acts w w' t id o o' c uuid) : Kept w' := by
  -- Another entry keeps its object and what is in it; the one of the task has `o'`.
  have hobj : ∀ e ∈ w.tasks, e.1 ≠ id → w'.objects e.2 = w.objects e.2 := fun e he hne =>
    ha.objects e.2 (h.entry e he).objectBound (hap.object e he hne).1
  have hself : (id, o') ∈ w'.tasks := (ha.tasks _).2 (.inl rfl)
  have hkeys : ∀ e ∈ w.tasks, ∃ f ∈ w'.tasks, f.1 = e.1 := by
    intro e he
    by_cases hid : e.1 = id
    · exact ⟨_, hself, hid.symm⟩
    · exact ⟨e, (ha.tasks e).2 (.inr ⟨he, hid⟩), rfl⟩
  refine ⟨fun e he => ?_, fun d hd => ?_, fun u p i hp hi => ?_, fun e he f hf heq => ?_, ?_, fun k hk => ?_,
    fun d hd => ?_, fun dir u hu => ?_, fun j hj => ?_⟩
  · rcases (ha.tasks e).1 he with rfl | ⟨he, hne⟩
    · exact ha.entry
    · obtain ⟨ho, ho'⟩ := hap.object e he hne
      exact (h.entry e he).other ha hne ho ho' (hap.conversation e he hne) (hap.uuid e he hne)
  · by_cases hdc : d = c
    · exact ⟨_, hself, hdc ▸ ha.opened (hdc ▸ hd)⟩
    · rw [ha.conversations d hdc] at hd
      obtain ⟨e, he, hec⟩ := h.opened d hd
      have hne : e.1 ≠ id := fun hid => hdc ((hap.own e he hid).2 d hec)
      exact ⟨e, (ha.tasks e).2 (.inr ⟨he, hne⟩), by rw [hobj e he hne]; exact hec⟩
  · by_cases hu : u = t
    · exact ⟨_, hself, (ha.holds' p i (hu ▸ hp) hi).symm⟩
    · rw [ha.calls u hu] at hp
      obtain ⟨e, he, rfl⟩ := h.work u p i hp hi
      have hne : e.1 ≠ id := fun hid => hap.sole u p hu hp ((hap.own e he hid).1 ▸ hi)
      exact ⟨e, (ha.tasks e).2 (.inr ⟨he, hne⟩), rfl⟩
  · -- Two entries of one conversation: neither is the one of the task, which is apart.
    rcases (ha.tasks e).1 he with rfl | ⟨he, hne⟩ <;> rcases (ha.tasks f).1 hf with rfl | ⟨hf, hnf⟩
    · rfl
    · rw [ha.uuid, hobj f hf hnf] at heq
      exact absurd heq.symm (hap.uuid f hf hnf)
    · rw [ha.uuid, hobj e he hne] at heq
      exact absurd heq (hap.uuid e he hne)
    · rw [hobj e he hne, hobj f hf hnf] at heq
      exact h.uuids e he f hf heq
  · rcases ha.stats with hs | ⟨v, hs⟩
    · rw [hs]
      exact h.statsKeys
    · rw [hs]
      exact nodup_dictSet _ _ h.statsKeys
  · have hof : k ∈ w.stats.map Prod.fst ∨ k = statsKey id := by
      rcases ha.stats with hs | ⟨v, hs⟩
      · exact .inl (hs ▸ hk)
      · rw [hs, keys_dictSet] at hk
        split at hk
        · exact .inl hk
        · exact (List.mem_append.1 hk).imp_right List.mem_singleton.1
    rcases hof with hk | rfl
    · obtain ⟨e, he, rfl⟩ := h.statsOf k hk
      obtain ⟨f, hf, hfe⟩ := hkeys e he
      exact ⟨f, hf, by rw [hfe]⟩
    · exact ⟨_, hself, rfl⟩
  · have hdc : d ≠ c := by
      rintro rfl
      exact absurd ha.bound (Nat.not_lt_of_le hd)
    rw [ha.conversations d hdc]
    exact h.unopened d (Nat.le_trans ha.nextConversation hd)
  · have huu : u ≠ uuid := by
      rintro rfl
      have := ha.entry.uuidBound
      rw [ha.uuid] at this
      exact absurd this (Nat.not_lt_of_le hu)
    rw [ha.saved dir u huu]
    exact h.unsaved dir u (Nat.le_trans ha.nextUuid hu)
  · have hjd : j ≠ id := fun heq => hj _ hself heq.symm
    rw [ha.spent j hjd]
    refine h.unspent j fun e he heq => ?_
    obtain ⟨f, hf, hfe⟩ := hkeys e he
    exact hj f hf (hfe.trans heq)

/-- The task of a call. -/
theorem Kept.busy (h : Kept w) {p : Point} (ht : w.calls t = some p) (hp : p.task? = some o) :
    ∃ id c, (id, o) ∈ w.tasks ∧ Entry w id o ∧ Busy w id o t c p := by
  obtain ⟨⟨id, i⟩, he, rfl⟩ := h.work t p o ht hp
  have hent := h.entry _ he
  rcases hent.phase with hidle | ⟨u, c, q, hbusy⟩
  · exact absurd hp (hidle.free t p ht)
  · obtain rfl := hbusy.sole t p ht hp
    obtain rfl := Option.some.inj (ht.symm.trans hbusy.call)
    exact ⟨id, c, he, hent, hbusy⟩

theorem Entry.conversation_of {c : Nat} (h : Entry w id o) (hc : (w.objects o).conversation = some c) :
    (w.conversations c).task = id ∧ c < w.nextConversation := by
  rcases h.phase with hidle | ⟨u, d, p, hbusy⟩
  · rw [hidle.settled.conversation] at hc
    cases hc
  · obtain rfl := Option.some.inj (hbusy.conversation.symm.trans hc)
    rw [hbusy.opened]
    exact ⟨rfl, hbusy.bound⟩

/-- The objects of other tasks are others. -/
theorem Kept.object_ne (h : Kept w) (hent : Entry w id o) {e : TaskId × Nat} (he : e ∈ w.tasks) (hne : e.1 ≠ id) :
    e.2 ≠ o := by
  intro heq
  exact hne ((h.entry e he).object.symm.trans (by rw [heq]; exact hent.object))

theorem Kept.apart (h : Kept w) (hids : Ids w) (he : (id, o) ∈ w.tasks) {p : Point} (hbusy : Busy w id o t c p)
    (ho' : o' = o ∨ w.nextObject ≤ o') : Apart w t id o o' c (w.objects o).conversationId := by
  have hent := h.entry _ he
  refine ⟨fun e hmem hid => ?_, fun e hmem hne => ⟨h.object_ne hent hmem hne, ?_⟩, fun e hmem hne hc => ?_,
    fun e hmem hne heq => hne (h.uuids e hmem _ he heq), fun u q hu hq hqo => hu (hbusy.sole u q hq hqo)⟩
  · obtain rfl : e.2 = o := value_unique hids.keys_nodup (show (e.1, e.2) ∈ w.tasks from hmem) (hid ▸ he)
    exact ⟨rfl, fun d hd => Option.some.inj (hd.symm.trans hbusy.conversation)⟩
  · rcases ho' with rfl | hle
    · exact h.object_ne hent hmem hne
    · exact Nat.ne_of_lt (Nat.lt_of_lt_of_le (h.entry e hmem).objectBound hle)
  · have htask := ((h.entry e hmem).conversation_of hc).1
    rw [hbusy.opened] at htask
    exact hne htask.symm

/-- The entry of a task whose object is its own still. -/
theorem mem_tasks_iff (hids : Ids w) (he : (id, o) ∈ w.tasks) (e : TaskId × Nat) :
    e ∈ w.tasks ↔ e = (id, o) ∨ (e ∈ w.tasks ∧ e.1 ≠ id) := by
  constructor
  · intro hmem
    by_cases hid : e.1 = id
    · obtain rfl : e.2 = o := value_unique hids.keys_nodup (show (e.1, e.2) ∈ w.tasks from hmem) (hid ▸ he)
      exact .inl (by rw [← hid])
    · exact .inr ⟨hmem, hid⟩
  · rintro (rfl | ⟨hmem, -⟩)
    · exact he
    · exact hmem

theorem Kept.spendOn (h : Kept w) (hids : Ids w) {cost : Nat} (ht : w.calls t = some (.running o)) :
    Kept (w.spend o [cost]) := by
  obtain ⟨id, c, he, hent, hbusy⟩ := h.busy ht rfl
  rw [spend_eq hbusy.conversation, hent.object]
  obtain ⟨dir, hdir, hsaved⟩ := hent.saved
  have hsave : (w.spendOn id c [cost]).saved =
      Function.update w.saved (dir, (w.objects o).conversationId) (some (w.spent id ++ [cost])) := by
    show (match (w.conversations c).persistenceDir with
      | some dir => Function.update w.saved (dir, (w.conversations c).conversationId)
          (some ((w.conversations c).metrics ++ [cost]))
      | none => w.saved) = _
    rw [hbusy.opened, hdir]
  have hconv : (w.spendOn id c [cost]).conversations c =
      ⟨id, (w.objects o).conversationId, w.persistenceDir, w.spent id ++ [cost], true⟩ := by
    show Function.update w.conversations c _ c = _
    rw [Function.update_self, hbusy.opened]
    rfl
  have hspent : (w.spendOn id c [cost]).spent id = w.spent id ++ [cost] := Function.update_self ..
  have hentry : Entry (w.spendOn id c [cost]) id o := by
    refine ⟨hent.object, hent.objectBound, hent.uuidBound, ⟨dir, hdir, ?_⟩,
      .inr ⟨t, c, _, ht, rfl, hbusy.sole, hbusy.conversation, hbusy.bound, ?_, hbusy.latest, nofun, nofun⟩⟩
    · rw [hsave, hspent]
      exact Function.update_self ..
    · rw [hconv, hspent]
      rfl
  refine h.acts (h.apart hids he hbusy (.inl rfl))
    { nextObject := Nat.le_refl _, nextUuid := Nat.le_refl _, nextConversation := Nat.le_refl _, dir := rfl,
      objects := fun _ _ _ => rfl, conversations := fun d hd => Function.update_of_ne hd .., saved := fun d u hu => ?_,
      spent := fun j hj => Function.update_of_ne hj .., latest := fun _ _ => rfl, calls := fun _ _ => rfl,
      holds := fun q i hq hi => ?_, holds' := fun q i hq hi => ?_, tasks := mem_tasks_iff (w := w) hids he, stats := .inl rfl,
      entry := hentry, uuid := rfl, opened := fun _ => hbusy.conversation, bound := hbusy.bound }
  · rw [hsave, Function.update_of_ne]
    rintro heq
    exact hu (Prod.mk.inj heq).2
  · obtain rfl := Option.some.inj (ht.symm.trans hq)
    exact (Option.some.inj hi).symm
  · obtain rfl := Option.some.inj (ht.symm.trans hq)
    exact (Option.some.inj hi).symm

theorem Kept.finish (h : Kept w) (hids : Ids w) {outcome : Outcome} (hne : outcome ≠ .interrupted)
    (ht : w.calls t = some (.running o)) : Kept ((w.setOutcome t o outcome).moveTo t (.updating o)) := by
  obtain ⟨id, c, he, hent, hbusy⟩ := h.busy ht rfl
  have hobj : (w.setOutcome t o outcome).objects o = (w.objects o).record outcome := Function.update_self ..
  have hlatest : (w.setOutcome t o outcome).latestRun = Function.update w.latestRun id (t, some outcome) := by
    show (if (w.latestRun (w.objects o).id).1 = t then _ else _) = _
    rw [hent.object, if_pos hbusy.latest]
  have hreports : ((w.objects o).record outcome).Reports outcome := by
    cases outcome with
    | interrupted => exact absurd rfl hne
    | finished | stopped | raised => exact ⟨rfl, rfl, rfl⟩
  have hentry : Entry ((w.setOutcome t o outcome).moveTo t (.updating o)) id o := by
    refine ⟨?_, hent.objectBound, ?_, ?_, .inr ⟨t, c, .updating o, Function.update_self .., rfl, fun u r hr hro => ?_, ?_,
      hbusy.bound, ?_, ?_, fun _ => ⟨outcome, ?_, ?_⟩, nofun⟩⟩
    · exact (congrArg Task.id hobj).trans ((Task.record_id ..).trans hent.object)
    · rw [show ((w.setOutcome t o outcome).moveTo t (.updating o)).objects o = _ from hobj, Task.record_conversationId]
      exact hent.uuidBound
    · obtain ⟨dir, hdir, hsaved⟩ := hent.saved
      refine ⟨dir, hdir, ?_⟩
      rw [show ((w.setOutcome t o outcome).moveTo t (.updating o)).objects o = _ from hobj, Task.record_conversationId]
      exact hsaved
    · rcases calls_moveTo hr with ⟨rfl, -⟩ | ⟨-, hr⟩
      · rfl
      · exact hbusy.sole u r hr hro
    · exact (congrArg Task.conversation hobj).trans ((Task.record_conversation ..).trans hbusy.conversation)
    · rw [show ((w.setOutcome t o outcome).moveTo t (.updating o)).objects o = _ from hobj, Task.record_conversationId]
      exact hbusy.opened
    · rw [show ((w.setOutcome t o outcome).moveTo t (.updating o)).latestRun = _ from hlatest, Function.update_self]
    · rw [show ((w.setOutcome t o outcome).moveTo t (.updating o)).latestRun = _ from hlatest, Function.update_self]
    · rw [show ((w.setOutcome t o outcome).moveTo t (.updating o)).objects o = _ from hobj]
      exact hreports
  refine h.acts (h.apart hids he hbusy (.inl rfl))
    { nextObject := Nat.le_refl _, nextUuid := Nat.le_refl _, nextConversation := Nat.le_refl _, dir := rfl,
      objects := fun i _ hi => Function.update_of_ne hi .., conversations := fun _ _ => rfl, saved := fun _ _ _ => rfl,
      spent := fun _ _ => rfl, latest := fun j hj => ?_, calls := fun u hu => Function.update_of_ne hu ..,
      holds := fun q i hq hi => ?_, holds' := fun q i hq hi => ?_, tasks := mem_tasks_iff (w := w) hids he, stats := .inl rfl,
      entry := hentry, uuid := ?_, opened := fun _ => ?_, bound := hbusy.bound }
  · exact (congrFun hlatest j).trans (Function.update_of_ne hj ..)
  · obtain rfl := Option.some.inj (ht.symm.trans hq)
    exact (Option.some.inj hi).symm
  · rcases calls_moveTo hq with ⟨-, rfl⟩ | ⟨hne, -⟩
    · exact (Option.some.inj hi).symm
    · exact absurd rfl hne
  · exact (congrArg Task.conversationId hobj).trans (Task.record_conversationId ..)
  · exact (congrArg Task.conversation hobj).trans ((Task.record_conversation ..).trans hbusy.conversation)

/-- The parent gets what the conversation has spent. -/
theorem Kept.update (h : Kept w) (hids : Ids w) (ht : w.calls t = some (.updating o)) :
    Kept ((w.updateParentMetrics o).moveTo t (.evicting o)) := by
  obtain ⟨id, c, he, hent, hbusy⟩ := h.busy ht rfl
  have hmetrics : (w.conversations c).metrics = w.spent id := by rw [hbusy.opened]
  rw [updateParentMetrics_eq hbusy.conversation, hent.object, hmetrics]
  have hentry : Entry ({ w with stats := dictSet w.stats (statsKey id) (w.spent id) }.moveTo t (.evicting o)) id o := by
    refine ⟨hent.object, hent.objectBound, hent.uuidBound, hent.saved, .inr ⟨t, c, .evicting o, Function.update_self ..,
      rfl, fun u r hr hro => ?_, hbusy.conversation, hbusy.bound, hbusy.opened, hbusy.latest, fun _ => hbusy.ended rfl,
      fun _ => ?_⟩⟩
    · rcases calls_moveTo hr with ⟨rfl, -⟩ | ⟨-, hr⟩
      · rfl
      · exact hbusy.sole u r hr hro
    · exact (lookup_dictSet ..).trans (if_pos rfl)
  refine h.acts (h.apart hids he hbusy (.inl rfl))
    { nextObject := Nat.le_refl _, nextUuid := Nat.le_refl _, nextConversation := Nat.le_refl _, dir := rfl,
      objects := fun _ _ _ => rfl, conversations := fun _ _ => rfl, saved := fun _ _ _ => rfl,
      spent := fun _ _ => rfl, latest := fun _ _ => rfl, calls := fun u hu => Function.update_of_ne hu ..,
      holds := fun q i hq hi => ?_, holds' := fun q i hq hi => ?_, tasks := fun e => mem_tasks_iff (w := w) hids he e,
      stats := .inr ⟨_, rfl⟩, entry := hentry, uuid := rfl, opened := fun _ => hbusy.conversation, bound := hbusy.bound }
  · obtain rfl := Option.some.inj (ht.symm.trans hq)
    exact (Option.some.inj hi).symm
  · rcases calls_moveTo hq with ⟨-, rfl⟩ | ⟨hne, -⟩
    · exact (Option.some.inj hi).symm
    · exact absurd rfl hne

/-- Without hooks that spend, closing does not change the metrics. -/
theorem spend_nil (hent : Entry w id o) {c : Nat} {p : Point} (hbusy : Busy w id o t c p) : w.spend o [] = w := by
  obtain ⟨dir, hdir, hsaved⟩ := hent.saved
  have hmetrics : (w.conversations c).metrics = w.spent id := by rw [hbusy.opened]
  have hsave : (w.save (w.conversations c).persistenceDir (w.conversations c).conversationId (w.spent id)).saved =
      w.saved := by
    rw [hbusy.opened, hdir]
    exact (congrArg _ hsaved.symm).trans (Function.update_eq_self ..)
  have hsaveAll : w.save (w.conversations c).persistenceDir (w.conversations c).conversationId (w.spent id) = w := by
    show { w with saved := (w.save _ _ (w.spent id)).saved } = w
    rw [hsave]
  rw [spend_eq hbusy.conversation, hent.object, World.spendOn]
  rw [hmetrics, List.append_nil, hsaveAll, ← hmetrics, Function.update_eq_self, hmetrics, Function.update_eq_self]

theorem Kept.close (h : Kept w) (hids : Ids w) (ht : w.calls t = some (.evicting o)) :
    Kept (((w.spend o []).closeConversation o).moveTo t (.storing o)) := by
  obtain ⟨id, c, he, hent, hbusy⟩ := h.busy ht rfl
  rw [spend_nil hent hbusy, closeConversation_eq hbusy.conversation]
  have hconv : (w.conversations c).isOpen = true := by rw [hbusy.opened]; rfl
  have hentry : Entry (World.moveTo { w with
      conversations := Function.update w.conversations c { w.conversations c with isOpen := false } } t (.storing o))
      id o := by
    refine ⟨hent.object, hent.objectBound, hent.uuidBound, hent.saved, .inr ⟨t, c, .storing o, Function.update_self ..,
      rfl, fun u r hr hro => ?_, hbusy.conversation, hbusy.bound, ?_, hbusy.latest, fun _ => hbusy.ended rfl,
      fun _ => hbusy.stats rfl⟩⟩
    · rcases calls_moveTo hr with ⟨rfl, -⟩ | ⟨-, hr⟩
      · rfl
      · exact hbusy.sole u r hr hro
    · refine (Function.update_self ..).trans ?_
      rw [hbusy.opened]
      rfl
  refine h.acts (h.apart hids he hbusy (.inl rfl))
    { nextObject := Nat.le_refl _, nextUuid := Nat.le_refl _, nextConversation := Nat.le_refl _, dir := rfl,
      objects := fun _ _ _ => rfl, conversations := fun d hd => Function.update_of_ne hd .., saved := fun _ _ _ => rfl,
      spent := fun _ _ => rfl, latest := fun _ _ => rfl, calls := fun u hu => Function.update_of_ne hu ..,
      holds := fun q i hq hi => ?_, holds' := fun q i hq hi => ?_, tasks := fun e => mem_tasks_iff (w := w) hids he e,
      stats := .inl rfl, entry := hentry, uuid := rfl, opened := fun _ => hbusy.conversation, bound := hbusy.bound }
  · obtain rfl := Option.some.inj (ht.symm.trans hq)
    exact (Option.some.inj hi).symm
  · rcases calls_moveTo hq with ⟨-, rfl⟩ | ⟨hne, -⟩
    · exact (Option.some.inj hi).symm
    · exact absurd rfl hne

/-- The entries after `_tasks[id]` was set. -/
theorem mem_putTask_iff {task : Task} (e : TaskId × Nat) :
    e ∈ (w.putTask task).tasks ↔ e = (task.id, w.nextObject) ∨ (e ∈ w.tasks ∧ e.1 ≠ task.id) := by
  refine (mem_dictSet_iff (j := e.1) (w := e.2)).trans ?_
  rw [Prod.ext_iff, and_comm (b := e ∈ w.tasks)]

theorem Kept.store (h : Kept w) (hids : Ids w) (ht : w.calls t = some (.storing o)) :
    Kept ((w.putTask { w.objects o with conversation := none }).leave t) := by
  obtain ⟨id, c, he, hent, hbusy⟩ := h.busy ht rfl
  have hclosed : (w.conversations c).isOpen = false := by rw [hbusy.opened]; rfl
  have hobj : ((w.putTask { w.objects o with conversation := none }).leave t).objects w.nextObject =
      { w.objects o with conversation := none } := Function.update_self ..
  have hentry : Entry ((w.putTask { w.objects o with conversation := none }).leave t) id w.nextObject := by
    refine ⟨?_, Nat.lt_succ_self _, ?_, ?_, .inl ⟨fun u q hq hqo => ?_, ?_, ?_, hbusy.stats rfl⟩⟩
    · rw [hobj]
      exact hent.object
    · rw [hobj]
      exact hent.uuidBound
    · rw [hobj]
      exact hent.saved
    · have hlt := (hids.held u q _ (calls_leave hq).2 hqo).2
      exact absurd hlt (Nat.lt_irrefl _)
    · rw [hobj]
    · rw [hobj]
      obtain ⟨outcome, hlast, hrep⟩ := hbusy.ended rfl
      refine ⟨outcome, hlast, ?_⟩
      cases outcome <;> exact hrep
  refine h.acts (h.apart hids he hbusy (.inr (Nat.le_refl _)))
    { nextObject := Nat.le_succ _, nextUuid := Nat.le_refl _, nextConversation := Nat.le_refl _, dir := rfl,
      objects := fun i hi _ => Function.update_of_ne (Nat.ne_of_lt hi) .., conversations := fun _ _ => rfl,
      saved := fun _ _ _ => rfl, spent := fun _ _ => rfl, latest := fun _ _ => rfl,
      calls := fun u hu => Function.update_of_ne hu .., holds := fun q i hq hi => ?_,
      holds' := fun q i hq hi => absurd rfl (calls_leave hq).1, tasks := fun e => ?_,
      stats := .inl rfl, entry := hentry, uuid := by rw [hobj],
      opened := fun hopen => absurd (hclosed.symm.trans hopen) (by decide), bound := hbusy.bound }
  · obtain rfl := Option.some.inj (ht.symm.trans hq)
    exact (Option.some.inj hi).symm
  · have hmem := @mem_putTask_iff w { w.objects o with conversation := none } e
    rwa [show ({ w.objects o with conversation := none } : Task).id = id from hent.object] at hmem

/-- A call without a task moves on or leaves. -/
theorem Kept.frame (h : Kept w) {attached : Bool} {dir : Option Nat} {nextDir nextCall k : Nat} {q : Option Point}
    (ht : ∀ p, w.calls t = some p → p.task? = none) (hq : ∀ p ∈ q, Point.task? p = none)
    (hdir : dir = w.persistenceDir ∨ w.tasks = []) :
    Kept { w with attached := attached, persistenceDir := dir, nextDir := nextDir, nextUuid := w.nextUuid + k,
                  nextCall := nextCall, calls := Function.update w.calls t q } := by
  have hcalls : ∀ {u : Nat} {p : Point} {i : Nat}, p.task? = some i →
      (Function.update w.calls t q u = some p ↔ w.calls u = some p) := by
    intro u p i hp
    by_cases hu : u = t
    · subst hu
      rw [Function.update_self]
      exact ⟨fun h => absurd ((hq p h).symm.trans hp) nofun, fun h => absurd ((ht p h).symm.trans hp) nofun⟩
    · rw [Function.update_of_ne hu]
  refine ⟨fun e he => ?_, h.opened, fun u p i hp hi => h.work u p i ((hcalls hi).1 hp) hi, h.uuids, h.statsKeys, h.statsOf,
    h.unopened, fun d u hu => h.unsaved d u (Nat.le_trans (Nat.le_add_right ..) hu), h.unspent⟩
  have hent := h.entry e he
  obtain rfl : dir = w.persistenceDir := hdir.resolve_right fun hnil => by
    rw [hnil] at he
    cases he
  refine ⟨hent.object, hent.objectBound, Nat.lt_of_lt_of_le hent.uuidBound (Nat.le_add_right ..), hent.saved, ?_⟩
  rcases hent.phase with hidle | ⟨u, c, p, hbusy⟩
  · exact .inl ⟨fun u p hp hpi => hidle.free u p ((hcalls hpi).1 hp) hpi, hidle.settled.conversation,
      hidle.settled.ended, hidle.settled.stats⟩
  · exact .inr ⟨u, c, p, (hcalls hbusy.task).2 hbusy.call, hbusy.task,
      fun v r hr hri => hbusy.sole v r ((hcalls hri).1 hr) hri, hbusy.conversation, hbusy.bound, hbusy.opened,
      hbusy.latest, hbusy.ended, hbusy.stats⟩

theorem loaded_eq {dir u : Nat} (hdir : w.persistenceDir = some dir) : w.loaded u = (w.saved (dir, u)).getD [] := by
  rw [World.loaded, hdir]

theorem save_saved {dir u : Nat} (m : Metrics) (hdir : w.persistenceDir = some dir) :
    (w.save w.persistenceDir u m).saved = Function.update w.saved (dir, u) (some m) := by
  rw [hdir]
  rfl

/-- A conversation is opened for a task that no call works on. -/
theorem Kept.startRun (h : Kept w) {task : Task} {uuids dir : Nat} {given : List TaskId} (hids : Ids w)
    (hdir : w.persistenceDir = some dir) (htask : task.id = id) (hconv : task.conversation = some w.nextConversation)
    (huuid : task.conversationId < w.nextUuid + uuids)
    (hloaded : (w.saved (dir, task.conversationId)).getD [] = w.spent id)
    (ht : ∀ p, w.calls t = some p → p.task? = none)
    (hown : ∀ e ∈ w.tasks, e.1 = id → e.2 = o ∧ (w.objects e.2).conversation = none)
    (hother : ∀ e ∈ w.tasks, e.1 ≠ id → e.2 ≠ o ∧ (w.objects e.2).conversationId ≠ task.conversationId)
    (hfree : ∀ u p, w.calls u = some p → p.task? ≠ some o) :
    Kept { (World.openConversation { w with nextUuid := w.nextUuid + uuids } id task.conversationId).startRun t task with
      given := given } := by
  generalize hw' : ({ (World.openConversation { w with nextUuid := w.nextUuid + uuids } id task.conversationId).startRun
    t task with given := given } : World) = w'
  -- The fields of the state after the step.
  have hload : World.loaded { w with nextUuid := w.nextUuid + uuids } task.conversationId = w.spent id :=
    (loaded_eq (w := w) hdir).trans hloaded
  have hobj : w'.objects w.nextObject = task := by
    subst hw'
    exact Function.update_self ..
  have hsave : w'.saved = Function.update w.saved (dir, task.conversationId) (some (w.spent id)) := by
    subst hw'
    refine (save_saved (w := w) _ hdir).trans ?_
    rw [hload]
  have hopened : w'.conversations w.nextConversation =
      ⟨id, task.conversationId, w.persistenceDir, w.spent id, true⟩ := by
    subst hw'
    refine (Function.update_self ..).trans ?_
    rw [hload]
  have hlatest : w'.latestRun id = (t, none) := by
    subst hw' htask
    exact Function.update_self ..
  have htasks : ∀ e, e ∈ w'.tasks ↔ e = (id, w.nextObject) ∨ (e ∈ w.tasks ∧ e.1 ≠ id) := by
    subst hw' htask
    exact mem_putTask_iff (w := w)
  have hcalls : w'.calls = Function.update w.calls t (some (.running w.nextObject)) := by
    subst hw'
    rfl
  have hspent : w'.spent = w.spent := by
    subst hw'
    rfl
  have hsole : ∀ u q, w'.calls u = some q → q.task? = some w.nextObject → u = t := by
    intro u q hq hqo
    by_cases hu : u = t
    · exact hu
    · rw [hcalls, Function.update_of_ne hu] at hq
      exact absurd (hids.held u q _ hq hqo).2 (Nat.lt_irrefl _)
  -- The entry of the task is the new object, which this call runs.
  have hentry : Entry w' id w.nextObject := by
    refine ⟨by rw [hobj, htask], ?_, by rw [hobj]; subst hw'; exact huuid, ⟨dir, ?_, ?_⟩,
      .inr ⟨t, w.nextConversation, .running w.nextObject, by rw [hcalls, Function.update_self], rfl, hsole,
        by rw [hobj, hconv], ?_, ?_, by rw [hlatest], nofun, nofun⟩⟩
    · subst hw'
      exact Nat.lt_succ_self _
    · subst hw'
      exact hdir
    · rw [hobj, hsave, hspent, Function.update_self]
    · subst hw'
      exact Nat.lt_succ_self _
    · rw [hopened, hobj, hspent]
      subst hw'
      rfl
  -- No other entry shares an object, a conversation or a directory with it.
  have hapart : Apart w t id o w.nextObject w.nextConversation task.conversationId := by
    refine ⟨fun e he hid => ⟨(hown e he hid).1, fun d hd => ?_⟩, fun e he hne => ⟨(hother e he hne).1, ?_⟩,
      fun e he hne hc => ?_, fun e he hne => (hother e he hne).2, fun u q _ => hfree u q⟩
    · rw [(hown e he hid).2] at hd
      cases hd
    · exact Nat.ne_of_lt (h.entry e he).objectBound
    · exact absurd ((h.entry e he).conversation_of hc).2 (Nat.lt_irrefl _)
  refine h.acts hapart
    { nextObject := ?_, nextUuid := ?_, nextConversation := ?_, dir := ?_, objects := fun i hi _ => ?_,
      conversations := fun d hd => ?_, saved := fun d u hu => ?_, spent := fun j _ => by rw [hspent],
      latest := fun j hj => ?_, calls := fun u hu => ?_, holds := fun q i hq hi => ?_, holds' := fun q i hq hi => ?_,
      tasks := htasks, stats := ?_, entry := hentry, uuid := by rw [hobj],
      opened := fun _ => by rw [hobj, hconv], bound := ?_ }
  · subst hw'
    exact Nat.le_succ _
  · subst hw'
    exact Nat.le_add_right ..
  · subst hw'
    exact Nat.le_succ _
  · subst hw'
    rfl
  · subst hw'
    exact Function.update_of_ne (Nat.ne_of_lt hi) ..
  · subst hw'
    exact Function.update_of_ne hd ..
  · rw [hsave, Function.update_of_ne]
    rintro heq
    exact hu (Prod.mk.inj heq).2
  · subst hw' htask
    exact Function.update_of_ne hj ..
  · rw [hcalls, Function.update_of_ne hu]
  · rw [ht q hq] at hi
    cases hi
  · rw [hcalls, Function.update_self] at hq
    obtain rfl := Option.some.inj hq
    exact (Option.some.inj hi).symm
  · subst hw'
    exact .inl rfl
  · subst hw'
    exact Nat.lt_succ_self _

/-- The task of an entry that no call works on. -/
theorem Entry.idle (hent : Entry w id o) (hat : Attachment w) (hfree : ∀ u < w.nextCall, ¬ w.Working u id) :
    Idle w id o := by
  rcases hent.phase with hidle | ⟨u, c, p, hbusy⟩
  · exact hidle
  · refine absurd ?_ (hfree u (hat.lt hbusy.call))
    unfold World.Working
    rw [hbusy.call, Option.bind_some, hbusy.task]
    exact hent.object

theorem Kept.entered {resume : Option TaskId} {opening : Opening} (h : Kept w) (hids : Ids w) (hat : Attachment w)
    (hok : Allowed w (.enter t opening)) (ht : w.calls t = some (.ready resume)) (he : Entered w t resume opening w') :
    Kept w' := by
  obtain ⟨hopening, hfree⟩ := hok
  have hready : ∀ p, w.calls t = some p → p.task? = none := by
    intro p hp
    obtain rfl := Option.some.inj (ht.symm.trans hp)
    rfl
  cases he with
  | left uuids => exact h.frame hready nofun (.inl rfl)
  | leaked id conversationId uuids hpolicy => exact absurd hpolicy hopening
  | resumed id o hresume ho ha =>
    obtain ⟨dir, hdir⟩ := hat.placed ht ha
    have hmem := Lib.mem_of_lookup ho
    have hent := h.entry _ hmem
    have hidle := hent.idle hat (hfree id (by rw [World.resumed, ht]; exact hresume))
    obtain ⟨dir', hdir', hsaved⟩ := hent.saved
    obtain rfl := Option.some.inj (hdir.symm.trans hdir')
    let task : Task := { w.objects o with conversation := some w.nextConversation, status := .running }
    refine @Kept.startRun w t o id h task 0 dir w.given hids hdir hent.object rfl hent.uuidBound ?_ hready
      (fun e he hid => ?_) (fun e he hne => ⟨h.object_ne hent he hne, fun heq => hne (h.uuids e he _ hmem heq)⟩)
      hidle.free
    · rw [hsaved]
      rfl
    · obtain rfl : e.2 = o := value_unique hids.keys_nodup (show (e.1, e.2) ∈ w.tasks from he) (hid ▸ hmem)
      exact ⟨rfl, hidle.settled.conversation⟩
  | created ha =>
    obtain ⟨dir, hdir⟩ := hat.placed ht ha
    have hnew : ∀ e ∈ w.tasks, e.1 ≠ taskId (w.tasks.length + 1) := by
      rintro e he heq
      refine hids.new ?_
      rw [← heq, ← hids.keys]
      exact List.mem_map_of_mem he
    refine h.startRun (o := w.nextObject) hids hdir rfl rfl (Nat.lt_succ_self w.nextUuid) ?_ hready
      (fun e he hid => absurd hid (hnew e he))
      (fun e he _ => ⟨Nat.ne_of_lt (h.entry e he).objectBound, Nat.ne_of_lt (h.entry e he).uuidBound⟩)
      (fun u p hp hpo => absurd (hids.held u p _ hp hpo).2 (Nat.lt_irrefl _))
    rw [h.unsaved dir _ (Nat.le_refl _), h.unspent _ hnew]
    rfl

structure Consistent (w : World) : Prop where
  ids : Ids w
  attachment : Attachment w
  kept : Kept w

theorem Consistent.step {persists : Bool} {op : Op} (h : Consistent w) (hok : Allowed w op)
    (hstep : Stepped persists w op w') : Consistent w' := by
  refine ⟨h.ids.step hstep, h.attachment.step hok hstep, ?_⟩
  have hkept := h.kept
  have hnone : ∀ {t : Nat} {p : Point}, w.calls t = some p → p.task? = none → ∀ q, w.calls t = some q →
      q.task? = none := by
    rintro t p hp hpt q hq
    obtain rfl := Option.some.inj (hp.symm.trans hq)
    exact hpt
  cases hstep with
  | call resume conversation p hp =>
    refine hkept.frame (k := 0) (fun q hq => ?_) (fun q hq => ?_) (.inl rfl)
    · rw [h.attachment.ticket _ (Nat.le_refl _)] at hq
      cases hq
    · obtain rfl := Option.some.inj hq
      rcases hp with rfl | ⟨rfl, -⟩ <;> rfl
  | attach t resume ht =>
    refine hkept.frame (k := 0) (hnone ht rfl) (fun q hq => ?_) (.inl rfl)
    obtain rfl := Option.some.inj hq
    rfl
  | place t resume ht =>
    refine hkept.frame (k := 0) (hnone ht rfl) (fun q hq => ?_) (.inr ?_)
    · obtain rfl := Option.some.inj hq
      rfl
    · refine List.eq_nil_iff_forall_not_mem.2 fun e he => ?_
      obtain ⟨dir, hdir, -⟩ := (hkept.entry e he).saved
      rw [h.attachment.unplaced t _ ht fun hp => (hp resume).2 rfl] at hdir
      cases hdir
  | enter t resume opening w' ht he => exact hkept.entered h.ids h.attachment hok ht he
  | spend t cost o ht => exact hkept.spendOn h.ids ht
  | finish t outcome o ht => exact hkept.finish h.ids hok ht
  | update t o ht => exact hkept.update h.ids ht
  | closeFails t hookCosts o ht => exact absurd hok.2 (by decide)
  | close t hookCosts o ht =>
    obtain rfl := hok.1
    exact hkept.close h.ids ht
  | store t o ht => exact hkept.store h.ids ht

theorem consistent_init : Consistent {} :=
  ⟨ids_init, ⟨fun _ => rfl, nofun, nofun, nofun, nofun, fun _ _ => rfl⟩,
    ⟨nofun, nofun, nofun, nofun, List.nodup_nil, nofun, fun _ _ => rfl, fun _ _ _ => rfl, fun _ _ => rfl⟩⟩

theorem Consistent.safe (h : Consistent w) : Safe w := by
  have hkept := h.kept
  have hsettled : (∀ t, w.calls t = none) → ∀ e ∈ w.tasks, Settled w e.1 e.2 := by
    intro hquiet e he
    rcases (hkept.entry e he).phase with hidle | ⟨t, c, p, hbusy⟩
    · exact hidle.settled
    · have hcall := hbusy.call
      rw [hquiet t] at hcall
      cases hcall
  refine ⟨h.ids.nodup, fun c d hc hd heq => ?_, hsettled, fun hquiet => ?_⟩
  · obtain ⟨e, he, hec⟩ := hkept.opened c hc
    obtain ⟨f, hf, hfd⟩ := hkept.opened d hd
    rw [((hkept.entry e he).conversation_of hec).1, ((hkept.entry f hf).conversation_of hfd).1] at heq
    have hsame : e = f := List.inj_on_of_nodup_map h.ids.keys_nodup he hf heq
    rw [hsame, hfd] at hec
    exact (Option.some.inj hec).symm
  · refine (List.perm_ext_iff_of_nodup hkept.statsKeys ?_).2 fun k => ⟨fun hk => ?_, fun hk => ?_⟩
    · have hnodup := h.ids.keys_nodup.map statsKey_injective
      rwa [List.map_map] at hnodup
    · obtain ⟨e, he, rfl⟩ := hkept.statsOf k hk
      exact List.mem_map_of_mem he
    · obtain ⟨e, he, rfl⟩ := List.mem_map.1 hk
      exact List.mem_map_of_mem (Lib.mem_of_lookup (hsettled hquiet e he).stats)

/-- Under the conditions no task is run twice at a time, and it rests with the
end of its latest run. -/
theorem one_conversation_of_reaches {persists : Bool} (h : Reaches (World.step persists) Allowed {} w) : Safe w :=
  (h.invariant consistent_init fun _ _ _ hs hok hstep => hs.step hok (stepped hstep)).safe

end

/-! ## Two runs -/

section Runs

/-- The call runs its task to the end. -/
def runTask (t cost : Nat) (result : String) : List Op :=
  [.enter t .opened, .spend t cost, .finish t (.finished result), .update t, .close t [] false, .store t]

/-- The first call creates a task. -/
def firstTask : List Op := [.call none true, .attach 0, .place 0] ++ runTask 0 5 "a"

/-- A task that is resumed after its first run. -/
theorem one_conversation_resumed :
    ∃ w, (w.stats = [("task:task_00000001", [5, 7])] ∧ w.tasks.map Prod.fst = ["task_00000001"]) ∧ Safe w := by
  have hrun : (execAllowed (World.step true) Allowed {}
      (firstTask ++ [.call (some "task_00000001") true] ++ runTask 1 7 "b")).map
        (fun w => (w.stats, w.tasks.map Prod.fst)) = some ([("task:task_00000001", [5, 7])], ["task_00000001"]) := by
    decide +kernel
  obtain ⟨w, hw, hval⟩ := Option.map_eq_some_iff.1 hrun
  exact ⟨w, Prod.mk.inj hval, one_conversation_of_reaches (reaches_of_execAllowed .init hw)⟩

/-- Two calls of one batch resume the same task. -/
theorem two_open : ¬ ∀ w, Reaches (World.step true) (fun _ _ => True) {} w → Safe w := by
  intro hall
  have hrun : (exec (World.step true) {}
      (firstTask ++ [.call (some "task_00000001") true, .call (some "task_00000001") true, .enter 1 .opened,
        .enter 2 .opened])).map (fun w => (w.conversations 1, w.conversations 2)) =
      some (⟨"task_00000001", 0, some 0, [5], true⟩, ⟨"task_00000001", 0, some 0, [5], true⟩) := by
    decide +kernel
  obtain ⟨w, hw, hval⟩ := Option.map_eq_some_iff.1 hrun
  obtain ⟨h1, h2⟩ := Prod.mk.inj hval
  have hsame := (hall w (reaches_of_exec .init hw)).oneOpen 1 2 (by rw [h1]) (by rw [h2]) (by rw [h1, h2])
  cases hsame

end Runs

end AgentSdk.TaskManager
