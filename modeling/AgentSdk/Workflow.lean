import AgentSdk.Lib.Parallel
import Mathlib
/-!
# Workflows

A workflow script awaits calls of its context: one sub-agent, a map over items, a
pipeline over items. The tasks of a map and the chains of a pipeline run at once,
each sub-agent under a permit of a semaphore. A schedule decides the order of
all that is not awaited by the script itself.
-/

namespace AgentSdk.Workflow
open Lib

/-! ## Scripts -/

structure AgentTask where
  prompt : String
  subagentType : String := "general-purpose"
  description : Option String := none
deriving DecidableEq, Repr

inductive WorkflowError where
  /-- `RuntimeError` with the error of a task. -/
  | task (error : String)
  /-- What rendering a prompt or the code of a script raises. -/
  | raised (error : String)
  | valueError (message : String)
  /-- A failed task of a map under its number. -/
  | item (number : Nat) (cause : WorkflowError)
  | group (failures : List WorkflowError)

/-- The limit of a call, capped at the limit of the context. -/
structure Limit (max : Nat) where
  count : Nat
  pos : 1 ≤ count
  le : count ≤ max

/-- A script up to the calls it awaits: it goes on with the result of each. -/
inductive Script (V : Type) (max : Nat) where
  | ret (v : V)
  | fail (e : WorkflowError)
  | runAgent (task : AgentTask) (k : Except WorkflowError V → Script V max)
  | mapAgents (own : Option (Limit max)) (tasks : List (Except WorkflowError AgentTask))
      (k : Except WorkflowError (List V) → Script V max)
  | pipeline (chains : List (Script V max)) (k : List (Option V) → Script V max)

section
variable {V : Type} {max : Nat}

/-- A script, and then what follows its end. -/
def Script.bind : Script V max → (Except WorkflowError V → Script V max) → Script V max
  | .ret v, f => f (.ok v)
  | .fail e, f => f (.error e)
  | .runAgent task k, f => .runAgent task fun r => (k r).bind f
  | .mapAgents own tasks k, f => .mapAgents own tasks fun r => (k r).bind f
  | .pipeline chains k, f => .pipeline chains fun rs => (k rs).bind f

/-- One item through the stages; the first that raises ends it. -/
def runChain : List (V → Script V max) → V → Script V max
  | [], value => .ret value
  | stage :: stages, value =>
    (stage value).bind fun
      | .ok value => runChain stages value
      | .error e => .fail e

end

structure WorkflowContext where
  maxConcurrency : Nat
  pos : 1 ≤ maxConcurrency

namespace WorkflowContext
variable {V : Type} (wf : WorkflowContext)

theorem one_le_limit {n : Int} (h : ¬n < 1) : 1 ≤ min n.toNat wf.maxConcurrency := le_min (by omega) wf.pos

theorem limit_le (n : Int) : min n.toNat wf.maxConcurrency ≤ wf.maxConcurrency := min_le_right _ _

def runAgent (task : AgentTask) (k : Except WorkflowError V → Script V wf.maxConcurrency) :
    Script V wf.maxConcurrency := .runAgent task k

def mapAgents (items : List V) (prompt : V → Except WorkflowError AgentTask) (maxConcurrency : Option Int)
    (k : Except WorkflowError (List V) → Script V wf.maxConcurrency) : Script V wf.maxConcurrency :=
  match maxConcurrency with
  | none => .mapAgents none (items.map prompt) k
  | some n =>
    if h : n < 1 then k (.error (.valueError "max_concurrency must be at least 1"))
    else
      .mapAgents (some ⟨min n.toNat wf.maxConcurrency, wf.one_le_limit h, wf.limit_le n⟩) (items.map prompt) k

def pipeline (items : List V) (stages : List (V → Script V wf.maxConcurrency))
    (k : Except WorkflowError (List (Option V)) → Script V wf.maxConcurrency) : Script V wf.maxConcurrency :=
  if stages.isEmpty then k (.error (.valueError "pipeline requires at least one stage"))
  else .pipeline (items.map (runChain stages)) fun rs => k (.ok rs)

def reduceAgent (formatValue : V → String) (items : V) (prompt : String)
    (k : Except WorkflowError V → Script V wf.maxConcurrency) : Script V wf.maxConcurrency :=
  wf.runAgent { prompt := prompt ++ "\n\nInput:\n" ++ formatValue items } k

end WorkflowContext

/-! ## Schedules -/

section
variable {V : Type} {max : Nat}

/-- Where in a script a call stands, from the inside. -/
abbrev Address := List Nat

def Address.next : Address → Address
  | [] => [0]
  | n :: a => (n + 1) :: a

/-- How the sub-agents end, each call for itself. -/
abbrev Outcomes (V : Type) := Address → AgentTask → Except WorkflowError V

/-- A task of a map. -/
inductive Item (V : Type) where
  | waiting (task : AgentTask)
  | running (task : AgentTask)
  | done (result : Except WorkflowError V)

/-- A prompt that is not rendered ends the task before it waits for a permit. -/
def Item.start : Except WorkflowError AgentTask → Item V
  | .ok task => .waiting task
  | .error e => .done (.error e)

def Item.result? : Item V → Option (Except WorkflowError V)
  | .done result => some result
  | _ => none

/-- The failure of a task names its item. -/
def numbered (index : Nat) : Except WorkflowError V → Except WorkflowError V
  | .ok v => .ok v
  | .error e => .error (.item (index + 1) e)

def failure? : Except WorkflowError V → Option WorkflowError
  | .ok _ => none
  | .error e => some e

/-- The results in item order, or all failures together. -/
def mapResults (results : List (Except WorkflowError V)) : Except WorkflowError (List V) :=
  let failures := results.filterMap failure?
  if failures.isEmpty then .ok (results.filterMap Except.toOption) else .error (.group failures)

/-- A coroutine: at a call, with a permit, or with the tasks and chains it awaits. A map
with a limit of its own has a semaphore of its own. -/
inductive Run (V : Type) (max : Nat) where
  | script (a : Address) (p : Script V max)
  | agent (a : Address) (task : AgentTask) (k : Except WorkflowError V → Script V max)
  | mapping (a : Address) (own : Option (Limit max × Nat)) (items : List (Item V))
      (k : Except WorkflowError (List V) → Script V max)
  | chains (a : Address) (children : List (Run V max)) (k : List (Option V) → Script V max)

def Run.finished? : Run V max → Option (Except WorkflowError V)
  | .script _ (.ret v) => some (.ok v)
  | .script _ (.fail e) => some (.error e)
  | _ => none

/-- `Step o s r s' r'`: with `s` free permits of the shared semaphore, `r` goes on to `r'`. -/
inductive Step (o : Outcomes V) : Nat → Run V max → Nat → Run V max → Prop
  | acquire {s a task k} : Step o (s + 1) (.script a (.runAgent task k)) s (.agent a task k)
  | release {s a task k} : Step o s (.agent a task k) (s + 1) (.script a.next (k (o a task)))
  | startMap {s a own tasks k} : Step o s (.script a (.mapAgents own tasks k)) s
      (.mapping a (own.map fun limit => (limit, limit.count)) (tasks.map Item.start) k)
  | acquireShared {s a pre task post k} : Step o (s + 1) (.mapping a none (pre ++ .waiting task :: post) k) s
      (.mapping a none (pre ++ .running task :: post) k)
  | releaseShared {s a pre task post k} : Step o s (.mapping a none (pre ++ .running task :: post) k) (s + 1)
      (.mapping a none (pre ++ .done (numbered pre.length (o (pre.length :: a) task)) :: post) k)
  | acquireOwn {s a limit free pre task post k} :
      Step o s (.mapping a (some (limit, free + 1)) (pre ++ .waiting task :: post) k) s
        (.mapping a (some (limit, free)) (pre ++ .running task :: post) k)
  | releaseOwn {s a limit free pre task post k} :
      Step o s (.mapping a (some (limit, free)) (pre ++ .running task :: post) k) s
        (.mapping a (some (limit, free + 1))
          (pre ++ .done (numbered pre.length (o (pre.length :: a) task)) :: post) k)
  | endMap {s a own items k} {results : List (Except WorkflowError V)} : items.map Item.result? = results.map some →
      Step o s (.mapping a own items k) s (.script a.next (k (mapResults results)))
  | startPipeline {s a scripts k} : Step o s (.script a (.pipeline scripts k)) s
      (.chains a (scripts.mapIdx fun i p => .script (0 :: i :: a) p) k)
  | inChain {s s' a pre c c' post k} : Step o s c s' c' →
      Step o s (.chains a (pre ++ c :: post) k) s' (.chains a (pre ++ c' :: post) k)
  | endPipeline {s a children k} {results : List (Except WorkflowError V)} : children.map Run.finished? = results.map some →
      Step o s (.chains a children k) s (.script a.next (k (results.map Except.toOption)))

/-- Any number of steps. -/
abbrev Steps (o : Outcomes V) : Nat × Run V max → Nat × Run V max → Prop :=
  Relation.ReflTransGen fun x y => Step o x.1 x.2 y.1 y.2

theorem Steps.more {o : Outcomes V} {s s' : Nat} {r r' : Run V max} {x : Nat × Run V max}
    (h : Step o s r s' r') (hx : Steps o (s', r') x) : Steps o (s, r) x :=
  Relation.ReflTransGen.head (b := (s', r')) h hx

/-- The schedules of a script. -/
def Reachable (o : Outcomes V) (p : Script V max) (s : Nat) (r : Run V max) : Prop :=
  Steps o (max, .script [0] p) (s, r)

/-! ## The result of a script -/

/-- What the tasks of a map end with. -/
def taskResults (o : Outcomes V) (a : Address) (tasks : List (Except WorkflowError AgentTask)) :
    List (Except WorkflowError V) :=
  tasks.mapIdx fun i task => task.bind fun task => numbered i (o (i :: a) task)

mutual

/-- The result of a script, call after call. -/
def eval (o : Outcomes V) : Address → Script V max → Except WorkflowError V
  | _, .ret v => .ok v
  | _, .fail e => .error e
  | a, .runAgent task k => eval o a.next (k (o a task))
  | a, .mapAgents _ tasks k => eval o a.next (k (mapResults (taskResults o a tasks)))
  | a, .pipeline chains k => eval o a.next (k (evalChains o a 0 chains))

/-- The results of the chains from the `i`-th on, each for itself. -/
def evalChains (o : Outcomes V) : Address → Nat → List (Script V max) → List (Option V)
  | _, _, [] => []
  | a, i, chain :: chains => (eval o (0 :: i :: a) chain).toOption :: evalChains o a (i + 1) chains

end

/-- What a task of a map ends with. -/
def Item.outcome (o : Outcomes V) (a : Address) (i : Nat) : Item V → Except WorkflowError V
  | .waiting task | .running task => numbered i (o (i :: a) task)
  | .done result => result

mutual

/-- What a coroutine ends with. -/
def Run.value (o : Outcomes V) : Run V max → Except WorkflowError V
  | .script a p => eval o a p
  | .agent a task k => eval o a.next (k (o a task))
  | .mapping a _ items k => eval o a.next (k (mapResults (items.mapIdx fun i item => item.outcome o a i)))
  | .chains a children k => eval o a.next (k (Run.values o children))

def Run.values (o : Outcomes V) : List (Run V max) → List (Option V)
  | [] => []
  | r :: rs => (r.value o).toOption :: Run.values o rs

end

variable {o : Outcomes V} {s s' : Nat} {r r' : Run V max} {a : Address}

theorem values_eq (rs : List (Run V max)) : Run.values o rs = rs.map fun r => (r.value o).toOption := by
  induction rs with
  | nil => rfl
  | cons r rs ih => rw [Run.values, List.map_cons, ih]

theorem start_cons (i : Nat) (p : Script V max) (scripts : List (Script V max)) :
    ((p :: scripts).mapIdx fun j q => (.script (0 :: (j + i) :: a) q : Run V max)) =
      .script (0 :: i :: a) p :: scripts.mapIdx fun j q => .script (0 :: (j + (i + 1)) :: a) q := by
  rw [List.mapIdx_cons, Nat.zero_add]
  congr 2
  funext j q
  rw [Nat.add_right_comm, Nat.add_assoc]

theorem values_start (scripts : List (Script V max)) (i : Nat) :
    Run.values o (scripts.mapIdx fun j p => .script (0 :: (j + i) :: a) p) = evalChains o a i scripts := by
  induction scripts generalizing i with
  | nil => rfl
  | cons p scripts ih => rw [start_cons, Run.values, evalChains, ih, Run.value]

theorem done_of_result {items : List (Item V)} {results : List (Except WorkflowError V)}
    (h : items.map Item.result? = results.map some) : items = results.map .done := by
  induction items generalizing results with
  | nil =>
    cases results with
    | nil => rfl
    | cons result results => cases h
  | cons item items ih =>
    cases results with
    | nil => cases h
    | cons result results =>
      rw [List.map_cons, List.map_cons, List.cons.injEq] at h
      cases item with
      | waiting task => cases h.1
      | running task => cases h.1
      | done r =>
        cases h.1
        rw [ih h.2, List.map_cons]

theorem value_of_finished {x : Except WorkflowError V} (h : r.finished? = some x) : r.value o = x := by
  cases r with
  | script a p => cases p <;> cases h <;> rfl
  | agent a task k => cases h
  | mapping a own items k => cases h
  | chains a children k => cases h

theorem values_of_finished {children : List (Run V max)} {results : List (Except WorkflowError V)}
    (h : children.map Run.finished? = results.map some) : Run.values o children = results.map Except.toOption := by
  induction children generalizing results with
  | nil =>
    cases results with
    | nil => rfl
    | cons result results => cases h
  | cons child children ih =>
    cases results with
    | nil => cases h
    | cons result results =>
      rw [List.map_cons, List.map_cons, List.cons.injEq] at h
      rw [Run.values, value_of_finished h.1, ih h.2, List.map_cons]

theorem outcomes_replace {pre post : List (Item V)} {x y : Item V} (h : x.outcome o a pre.length = y.outcome o a pre.length) :
    ((pre ++ x :: post).mapIdx fun i item => item.outcome o a i) =
      (pre ++ y :: post).mapIdx fun i item => item.outcome o a i := by
  simp only [List.mapIdx_append, List.mapIdx_cons, Nat.zero_add, h]

theorem value_replace {own own' : Option (Limit max × Nat)} {pre post : List (Item V)} {x y : Item V}
    {k : Except WorkflowError (List V) → Script V max} (h : x.outcome o a pre.length = y.outcome o a pre.length) :
    (Run.mapping a own (pre ++ x :: post) k).value o = (Run.mapping a own' (pre ++ y :: post) k).value o := by
  simp only [Run.value, outcomes_replace h]

theorem start_outcomes (tasks : List (Except WorkflowError AgentTask)) :
    ((tasks.map Item.start).mapIdx fun i item => item.outcome o a i) = taskResults o a tasks := by
  rw [taskResults, List.mapIdx_eq_iff]
  intro i
  rw [List.getElem?_mapIdx, List.getElem?_map, Option.map_map]
  congr 1
  funext task
  cases task <;> rfl

theorem done_outcomes (results : List (Except WorkflowError V)) :
    ((results.map Item.done).mapIdx fun i item => item.outcome o a i) = results := by
  rw [List.mapIdx_eq_iff]
  intro i
  rw [List.getElem?_map, Option.map_map]
  exact Option.map_id'.symm

/-- A step leaves the result as it is: an outcome belongs to the place of its call, and no
part of a script sees when another one runs. -/
theorem Step.value (h : Step o s r s' r') : r'.value o = r.value o := by
  induction h with
  | acquire => rfl
  | release => rfl
  | startMap =>
    simp only [Run.value, start_outcomes]
    rfl
  | acquireShared => exact value_replace rfl
  | releaseShared => exact value_replace rfl
  | acquireOwn => exact value_replace rfl
  | releaseOwn => exact value_replace rfl
  | endMap hdone => simp only [Run.value, done_of_result hdone, done_outcomes]
  | @startPipeline s a scripts k =>
    simp only [Run.value, eval]
    rw [← values_start scripts 0]
    rfl
  | inChain h ih => simp only [Run.value, values_eq, List.map_append, List.map_cons, ih]
  | endPipeline hdone => simp only [Run.value, values_of_finished hdone]

theorem value_of_reachable {p : Script V max} (h : Reachable o p s r) : r.value o = eval o [0] p := by
  have hvalue : ∀ y : Nat × Run V max, Steps o (max, .script [0] p) y → y.2.value o = eval o [0] p := by
    intro y hy
    induction hy with
    | refl => rfl
    | tail _ hstep ih => exact hstep.value.trans ih
  exact hvalue _ h

/-- Whatever the schedule, a script ends with the same result: that of its calls taken one
after the other, a map in the order of its items and each chain of a pipeline for itself. -/
theorem schedule_result (o : Outcomes V) (p : Script V max) (s : Nat) (r : Run V max) (x : Except WorkflowError V)
    (h : Reachable o p s r) (hx : r.finished? = some x) : x = eval o [0] p := by
  rw [← value_of_finished hx]
  exact value_of_reachable h

/-- A failed item: all failures of the map are raised together once its sub-agents have ended. -/
theorem schedule_result_one : Except.error (.group [.item 1 (.task "no")]) =
    @eval Unit 1 (fun _ _ => .error (.task "no")) [0]
      (.mapAgents none [.ok { prompt := "a" }] fun
        | .ok _ => .ret ()
        | .error e => .fail e) := by
  refine schedule_result _ _ 1 (.script [1] (.fail (.group [.item 1 (.task "no")]))) _ ?_ rfl
  exact .more .startMap (.more (@Step.acquireShared _ _ _ _ _ [] _ _ _)
    (.more (@Step.releaseShared _ _ _ _ _ [] _ _ _)
      (.more (@Step.endMap _ _ _ _ _ _ _ _ [.error (.item 1 (.task "no"))] rfl) .refl)))

/-! ## Every schedule ends -/

/-- `r` may go on to `r'`. -/
def Later (o : Outcomes V) (r' r : Run V max) : Prop := ∃ s s', Step o s r s' r'

/-- The steps that a task of a map has before it. -/
def Item.steps : Item V → Nat
  | .waiting _ => 2
  | .running _ => 1
  | .done _ => 0

theorem acc_mapping {k : Except WorkflowError (List V) → Script V max}
    (hk : ∀ x, Acc (Later o) (.script a.next (k x))) (n : Nat) (own : Option (Limit max × Nat)) (items : List (Item V))
    (hn : (items.map Item.steps).sum = n) : Acc (Later o) (.mapping a own items k) := by
  induction n using Nat.strongRecOn generalizing own items with
  | ind n ih =>
    have goes : ∀ {own' : Option (Limit max × Nat)} {pre post : List (Item V)} {x y : Item V},
        (((pre ++ x :: post).map Item.steps).sum = n) → y.steps < x.steps →
          Acc (Later o) (.mapping a own' (pre ++ y :: post) k) := by
      intro own' pre post x y hx hxy
      refine ih _ ?_ own' _ rfl
      rw [← hx]
      simp only [List.map_append, List.map_cons, List.sum_append, List.sum_cons]
      omega
    refine ⟨_, ?_⟩
    rintro r' ⟨s, s', h⟩
    cases h with
    | acquireShared => exact goes hn (by decide : 1 < 2)
    | releaseShared => exact goes hn (by decide : 0 < 1)
    | acquireOwn => exact goes hn (by decide : 1 < 2)
    | releaseOwn => exact goes hn (by decide : 0 < 1)
    | endMap => exact hk _

theorem acc_chains {k : List (Option V) → Script V max} (hk : ∀ x, Acc (Later o) (.script a.next (k x)))
    {children : List (Run V max)} (h : Acc (OneOf (Later o)) children) : Acc (Later o) (.chains a children k) := by
  induction h with
  | intro children _ ih =>
    refine ⟨_, ?_⟩
    rintro r' ⟨s, s', h⟩
    cases h with
    | inChain hstep => exact ih _ (.intro ⟨_, _, hstep⟩)
    | endPipeline => exact hk _

section
variable (a)

theorem acc_ret (v : V) : Acc (Later o) (.script a (.ret v) : Run V max) := by
  refine ⟨_, ?_⟩
  rintro r' ⟨s, s', h⟩
  cases h

theorem acc_fail (e : WorkflowError) : Acc (Later o) (.script a (.fail e) : Run V max) := by
  refine ⟨_, ?_⟩
  rintro r' ⟨s, s', h⟩
  cases h

theorem acc_runAgent (task : AgentTask) {k : Except WorkflowError V → Script V max}
    (hk : ∀ x a, Acc (Later o) (.script a (k x))) : Acc (Later o) (.script a (.runAgent task k)) := by
  refine ⟨_, ?_⟩
  rintro r' ⟨s, s', h⟩
  cases h with
  | acquire =>
    refine ⟨_, ?_⟩
    rintro r' ⟨s, s', h⟩
    cases h with
    | release => exact hk _ _

theorem acc_mapAgents (own : Option (Limit max)) (tasks : List (Except WorkflowError AgentTask))
    {k : Except WorkflowError (List V) → Script V max} (hk : ∀ x a, Acc (Later o) (.script a (k x))) :
    Acc (Later o) (.script a (.mapAgents own tasks k)) := by
  refine ⟨_, ?_⟩
  rintro r' ⟨s, s', h⟩
  cases h with
  | startMap => exact acc_mapping (fun x => hk x _) _ _ _ rfl

theorem acc_pipeline {scripts : List (Script V max)} {k : List (Option V) → Script V max}
    (hs : ∀ p ∈ scripts, ∀ a, Acc (Later o) (.script a p)) (hk : ∀ x a, Acc (Later o) (.script a (k x))) :
    Acc (Later o) (.script a (.pipeline scripts k)) := by
  refine ⟨_, ?_⟩
  rintro r' ⟨s, s', h⟩
  cases h with
  | startPipeline =>
    refine acc_chains (fun x => hk x _) (acc_oneOf fun child hchild => ?_)
    obtain ⟨i, hi, rfl⟩ := List.mem_mapIdx.1 hchild
    exact hs _ (List.getElem_mem hi) _

end

mutual

/-- A script takes finitely many steps, in whatever order its parts take them. -/
theorem acc_script (o : Outcomes V) : ∀ (p : Script V max) (a : Address), Acc (Later o) (.script a p)
  | .ret v, a => acc_ret a v
  | .fail e, a => acc_fail a e
  | .runAgent task k, a => acc_runAgent a task fun x => acc_script o (k x)
  | .mapAgents own tasks k, a => acc_mapAgents a own tasks fun x => acc_script o (k x)
  | .pipeline chains k, a => acc_pipeline a (acc_scripts o chains) fun x => acc_script o (k x)

theorem acc_scripts (o : Outcomes V) :
    ∀ ps : List (Script V max), ∀ p ∈ ps, ∀ a : Address, Acc (Later o) (.script a p)
  | [] => List.forall_mem_nil _
  | p :: ps => List.forall_mem_cons.2 ⟨acc_script o p, acc_scripts o ps⟩

end

/-! ## Permits -/

def Item.isRunning : Item V → Bool
  | .running _ => true
  | _ => false

mutual

/-- The sub-agents that run. -/
def Run.running : Run V max → Nat
  | .script _ _ => 0
  | .agent _ _ _ => 1
  | .mapping _ _ items _ => items.countP Item.isRunning
  | .chains _ children _ => Run.runningAll children

def Run.runningAll : List (Run V max) → Nat
  | [] => 0
  | r :: rs => r.running + Run.runningAll rs

end

mutual

/-- The sub-agents that run under a permit of the shared semaphore. -/
def Run.shared : Run V max → Nat
  | .script _ _ => 0
  | .agent _ _ _ => 1
  | .mapping _ none items _ => items.countP Item.isRunning
  | .mapping _ (some _) _ _ => 0
  | .chains _ children _ => Run.sharedAll children

def Run.sharedAll : List (Run V max) → Nat
  | [] => 0
  | r :: rs => r.shared + Run.sharedAll rs

end

/-- Each map with a limit of its own has as many permits as its limit, free or in use. -/
inductive Run.Within : Run V max → Prop
  | script {a p} : Run.Within (.script a p)
  | agent {a task k} : Run.Within (.agent a task k)
  | mapping {a items k} : Run.Within (.mapping a none items k)
  | own {a limit free items k} : free + items.countP Item.isRunning = limit.count →
      Run.Within (.mapping a (some (limit, free)) items k)
  | chains {a children k} : (∀ c ∈ children, Run.Within c) → Run.Within (.chains a children k)

/-- No map of the script has a limit of its own. -/
inductive Script.SharedOnly : Script V max → Prop
  | ret {v} : Script.SharedOnly (.ret v)
  | fail {e} : Script.SharedOnly (.fail e)
  | runAgent {task k} : (∀ x, Script.SharedOnly (k x)) → Script.SharedOnly (.runAgent task k)
  | mapAgents {tasks k} : (∀ x, Script.SharedOnly (k x)) → Script.SharedOnly (.mapAgents none tasks k)
  | pipeline {chains k} : (∀ p ∈ chains, Script.SharedOnly p) → (∀ x, Script.SharedOnly (k x)) →
      Script.SharedOnly (.pipeline chains k)

inductive Run.SharedOnly : Run V max → Prop
  | script {a p} : p.SharedOnly → Run.SharedOnly (.script a p)
  | agent {a task k} : (∀ x, (k x).SharedOnly) → Run.SharedOnly (.agent a task k)
  | mapping {a items k} : (∀ x, (k x).SharedOnly) → Run.SharedOnly (.mapping a none items k)
  | chains {a children k} : (∀ c ∈ children, Run.SharedOnly c) → (∀ x, (k x).SharedOnly) →
      Run.SharedOnly (.chains a children k)

theorem runningAll_eq (rs : List (Run V max)) : Run.runningAll rs = (rs.map Run.running).sum := by
  induction rs with
  | nil => rfl
  | cons r rs ih => rw [Run.runningAll, List.map_cons, List.sum_cons, ih]

theorem sharedAll_eq (rs : List (Run V max)) : Run.sharedAll rs = (rs.map Run.shared).sum := by
  induction rs with
  | nil => rfl
  | cons r rs ih => rw [Run.sharedAll, List.map_cons, List.sum_cons, ih]

@[simp] theorem countP_waiting (task : AgentTask) (items : List (Item V)) :
    (Item.waiting task :: items).countP Item.isRunning = items.countP Item.isRunning :=
  List.countP_cons_of_neg (by simp [Item.isRunning])

@[simp] theorem countP_running (task : AgentTask) (items : List (Item V)) :
    (Item.running task :: items).countP Item.isRunning = items.countP Item.isRunning + 1 :=
  List.countP_cons_of_pos rfl

@[simp] theorem countP_ended (result : Except WorkflowError V) (items : List (Item V)) :
    (Item.done result :: items).countP Item.isRunning = items.countP Item.isRunning :=
  List.countP_cons_of_neg (by simp [Item.isRunning])

theorem countP_start (tasks : List (Except WorkflowError AgentTask)) :
    ((tasks.map Item.start).countP (Item.isRunning (V := V))) = 0 := by
  rw [List.countP_eq_zero]
  intro item hitem
  obtain ⟨task, -, rfl⟩ := List.mem_map.1 hitem
  cases task <;> simp [Item.start, Item.isRunning]

theorem countP_done {items : List (Item V)} {results : List (Except WorkflowError V)}
    (h : items.map Item.result? = results.map some) : items.countP Item.isRunning = 0 := by
  rw [done_of_result h, List.countP_eq_zero]
  intro item hitem
  obtain ⟨result, -, rfl⟩ := List.mem_map.1 hitem
  simp [Item.isRunning]

theorem Run.shared_of_finished {x : Except WorkflowError V} (h : r.finished? = some x) : r.shared = 0 := by
  cases r with
  | script a p => rfl
  | agent a task k => cases h
  | mapping a own items k => cases h
  | chains a children k => cases h

theorem sharedAll_finished {children : List (Run V max)} {results : List (Except WorkflowError V)}
    (h : children.map Run.finished? = results.map some) : Run.sharedAll children = 0 := by
  rw [sharedAll_eq]
  refine List.sum_eq_zero_iff_forall_eq_nat.2 fun n hn => ?_
  obtain ⟨child, hchild, rfl⟩ := List.mem_map.1 hn
  have hmem : child.finished? ∈ results.map some := h ▸ List.mem_map_of_mem hchild
  obtain ⟨x, -, hx⟩ := List.mem_map.1 hmem
  exact Run.shared_of_finished hx.symm

/-- A permit of the shared semaphore is free or in use. -/
theorem Step.permits (h : Step o s r s' r') : s' + r'.shared = s + r.shared := by
  induction h with
  | acquire => rfl
  | release => rfl
  | @startMap s a own tasks k =>
    cases own with
    | none =>
      have hnone := countP_start (V := V) tasks
      simp only [Option.map_none, Run.shared, hnone]
    | some limit => rfl
  | acquireShared =>
    simp only [Run.shared, List.countP_append, countP_running, countP_waiting]
    omega
  | releaseShared =>
    simp only [Run.shared, List.countP_append, countP_running, countP_ended]
    omega
  | acquireOwn => rfl
  | releaseOwn => rfl
  | @endMap s a own items k results hdone =>
    cases own with
    | none => rw [Run.shared, Run.shared, countP_done hdone]
    | some limit => rfl
  | @startPipeline s a scripts k =>
    simp only [Run.shared, sharedAll_eq]
    rw [List.sum_eq_zero_iff_forall_eq_nat.2]
    intro n hn
    obtain ⟨child, hchild, rfl⟩ := List.mem_map.1 hn
    obtain ⟨i, hi, rfl⟩ := List.mem_mapIdx.1 hchild
    rfl
  | inChain h ih =>
    simp only [Run.shared, sharedAll_eq, List.map_append, List.map_cons, List.sum_append, List.sum_cons]
    omega
  | endPipeline hdone =>
    simp only [Run.shared]
    rw [sharedAll_finished hdone]

theorem Step.within (h : Step o s r s' r') (hr : r.Within) : r'.Within := by
  induction h with
  | acquire => exact .agent
  | release => exact .script
  | @startMap s a own tasks k =>
    cases own with
    | none => exact .mapping
    | some limit => exact .own (by rw [countP_start, Nat.add_zero])
  | acquireShared => exact .mapping
  | releaseShared => exact .mapping
  | acquireOwn =>
    cases hr with
    | own h =>
      refine .own ?_
      simp only [List.countP_append, countP_running, countP_waiting] at h ⊢
      omega
  | releaseOwn =>
    cases hr with
    | own h =>
      refine .own ?_
      simp only [List.countP_append, countP_running, countP_ended] at h ⊢
      omega
  | endMap => exact .script
  | startPipeline =>
    refine .chains fun child hchild => ?_
    obtain ⟨i, hi, rfl⟩ := List.mem_mapIdx.1 hchild
    exact .script
  | inChain h ih =>
    cases hr with
    | chains hr =>
      refine .chains fun child hchild => ?_
      rcases List.mem_append.1 hchild with hchild | hchild
      · exact hr child (List.mem_append_left _ hchild)
      rcases List.mem_cons.1 hchild with rfl | hchild
      · exact ih (hr _ (List.mem_append_right _ List.mem_cons_self))
      · exact hr child (List.mem_append_right _ (List.mem_cons_of_mem _ hchild))
  | endPipeline => exact .script

theorem Step.sharedOnly (h : Step o s r s' r') (hr : r.SharedOnly) : r'.SharedOnly := by
  induction h with
  | acquire =>
    cases hr with
    | script hp =>
      cases hp with
      | runAgent hk => exact .agent hk
  | release =>
    cases hr with
    | agent hk => exact .script (hk _)
  | startMap =>
    cases hr with
    | script hp =>
      cases hp with
      | mapAgents hk => exact .mapping hk
  | acquireShared =>
    cases hr with
    | mapping hk => exact .mapping hk
  | releaseShared =>
    cases hr with
    | mapping hk => exact .mapping hk
  | acquireOwn => cases hr
  | releaseOwn => cases hr
  | endMap =>
    cases hr with
    | mapping hk => exact .script (hk _)
  | startPipeline =>
    cases hr with
    | script hp =>
      cases hp with
      | pipeline hchains hk =>
        refine .chains (fun child hchild => ?_) hk
        obtain ⟨i, hi, rfl⟩ := List.mem_mapIdx.1 hchild
        exact .script (hchains _ (List.getElem_mem hi))
  | inChain h ih =>
    cases hr with
    | chains hr hk =>
      refine .chains (fun child hchild => ?_) hk
      rcases List.mem_append.1 hchild with hchild | hchild
      · exact hr child (List.mem_append_left _ hchild)
      rcases List.mem_cons.1 hchild with rfl | hchild
      · exact ih (hr _ (List.mem_append_right _ List.mem_cons_self))
      · exact hr child (List.mem_append_right _ (List.mem_cons_of_mem _ hchild))
  | endPipeline =>
    cases hr with
    | chains _ hk => exact .script (hk _)

/-- Without limits of their own, all sub-agents run under the shared semaphore. -/
theorem Run.SharedOnly.running_eq (h : r.SharedOnly) : r.running = r.shared := by
  induction h with
  | script => rfl
  | agent => rfl
  | mapping => rfl
  | @chains a children k hchildren hk ih =>
    rw [Run.running, Run.shared, runningAll_eq, sharedAll_eq]
    congr 1
    exact List.map_congr_left ih

theorem permits_of_reachable {p : Script V max} (h : Reachable o p s r) :
    s + r.shared = max ∧ r.Within ∧ (p.SharedOnly → r.SharedOnly) := by
  have hinv : ∀ y : Nat × Run V max,
      Steps o (max, .script [0] p) y →
        y.1 + y.2.shared = max ∧ y.2.Within ∧ (p.SharedOnly → y.2.SharedOnly) := by
    intro y hy
    induction hy with
    | refl => exact ⟨rfl, .script, .script⟩
    | tail _ hstep ih =>
      obtain ⟨hcount, hwithin, hshared⟩ := ih
      exact ⟨hstep.permits.trans hcount, hstep.within hwithin, fun hp => hstep.sharedOnly (hshared hp)⟩
  exact hinv _ h

/-- In every schedule a permit is free or in use: of the shared semaphore, and of each map with
a limit of its own. So a script whose maps have no limit of their own never runs more
sub-agents at once than its context allows. -/
theorem permits_kept (o : Outcomes V) (p : Script V max) (s : Nat) (r : Run V max) (h : Reachable o p s r) :
    s + r.shared = max ∧ r.Within ∧ (p.SharedOnly → s + r.running = max) := by
  obtain ⟨hcount, hwithin, hshared⟩ := permits_of_reachable h
  refine ⟨hcount, hwithin, fun hp => ?_⟩
  rw [(hshared hp).running_eq]
  exact hcount

/-- One of two sub-agents runs, and a permit is left for the other. -/
theorem permits_kept_two :
    let p : Script Unit 2 := .mapAgents none [.ok { prompt := "a" }, .ok { prompt := "b" }] fun _ => .ret ()
    let r : Run Unit 2 := .mapping [0] none [.running { prompt := "a" }, .waiting { prompt := "b" }] fun _ => .ret ()
    1 + r.shared = 2 ∧ r.Within ∧ (p.SharedOnly → 1 + r.running = 2) :=
  permits_kept (fun _ _ => .ok ()) _ 1 _ (.more .startMap (.more (@Step.acquireShared _ _ _ _ _ [] _ _ _) .refl))

/-! ## No schedule gets stuck -/

theorem exists_of_countP {items : List (Item V)} (h : 0 < items.countP Item.isRunning) :
    ∃ pre task post, items = pre ++ .running task :: post := by
  obtain ⟨item, hmem, hrunning⟩ := List.countP_pos_iff.1 h
  obtain ⟨pre, post, rfl⟩ := List.append_of_mem hmem
  cases item with
  | running task => exact ⟨pre, task, post, rfl⟩
  | waiting task => cases hrunning
  | done result => cases hrunning

/-- Either all tasks of a map have ended, or one runs, or one waits for a permit while none runs. -/
theorem items_cases (items : List (Item V)) :
    (∃ results : List (Except WorkflowError V), items.map Item.result? = results.map some) ∨
      (∃ pre task post, items = pre ++ .running task :: post) ∨
      items.countP Item.isRunning = 0 ∧ ∃ pre task post, items = pre ++ .waiting task :: post := by
  by_cases hrunning : 0 < items.countP Item.isRunning
  · exact .inr (.inl (exists_of_countP hrunning))
  have hnone : items.countP Item.isRunning = 0 := by omega
  clear hrunning
  induction items with
  | nil => exact .inl ⟨[], rfl⟩
  | cons item items ih =>
    cases item with
    | running task =>
      rw [countP_running] at hnone
      omega
    | waiting task => exact .inr (.inr ⟨hnone, [], task, items, rfl⟩)
    | done result =>
      rw [countP_ended] at hnone
      rcases ih hnone with ⟨results, h⟩ | ⟨pre, task, post, rfl⟩ | ⟨-, pre, task, post, rfl⟩
      · exact .inl ⟨result :: results, by rw [List.map_cons, List.map_cons, h]; rfl⟩
      · exact .inr (.inl ⟨.done result :: pre, task, post, rfl⟩)
      · exact .inr (.inr ⟨by rwa [countP_ended], .done result :: pre, task, post, rfl⟩)

mutual

/-- A sub-agent that holds a shared permit can end. -/
theorem Run.release (o : Outcomes V) (s : Nat) :
    ∀ r : Run V max, 0 < r.shared → ∃ s' r', Step o s r s' r'
  | .script a p, h => absurd h (Nat.lt_irrefl 0)
  | .agent a task k, _ => ⟨_, _, .release⟩
  | .mapping a (some own) items k, h => absurd h (Nat.lt_irrefl 0)
  | .mapping a none items k, h => by
    obtain ⟨pre, task, post, rfl⟩ := exists_of_countP h
    exact ⟨_, _, .releaseShared⟩
  | .chains a children k, h => by
    obtain ⟨pre, c, post, hchildren, s', c', hstep⟩ := Run.releaseAny o s children h
    rw [hchildren]
    exact ⟨s', _, .inChain hstep⟩

theorem Run.releaseAny (o : Outcomes V) (s : Nat) : ∀ rs : List (Run V max), 0 < Run.sharedAll rs →
    ∃ pre c post, rs = pre ++ c :: post ∧ ∃ s' c', Step o s c s' c'
  | [], h => absurd h (Nat.lt_irrefl 0)
  | r :: rs, h => by
    by_cases hr : 0 < r.shared
    · exact ⟨[], r, rs, rfl, Run.release o s r hr⟩
    · have hrest : 0 < Run.sharedAll rs := by
        rw [Run.sharedAll] at h
        omega
      obtain ⟨pre, c, post, hrs, hstep⟩ := Run.releaseAny o s rs hrest
      exact ⟨r :: pre, c, post, by rw [hrs]; rfl, hstep⟩

end

mutual

/-- With a free shared permit, what has not ended can go on. -/
theorem Run.progress (o : Outcomes V) (s : Nat) : ∀ r : Run V max, r.Within →
    (∃ x, r.finished? = some x) ∨ ∃ s' r', Step o (s + 1) r s' r'
  | .script a (.ret v), _ => .inl ⟨_, rfl⟩
  | .script a (.fail e), _ => .inl ⟨_, rfl⟩
  | .script a (.runAgent task k), _ => .inr ⟨_, _, .acquire⟩
  | .script a (.mapAgents own tasks k), _ => .inr ⟨_, _, .startMap⟩
  | .script a (.pipeline scripts k), _ => .inr ⟨_, _, .startPipeline⟩
  | .agent a task k, _ => .inr ⟨_, _, .release⟩
  | .mapping a none items k, _ => by
    rcases items_cases items with ⟨results, h⟩ | ⟨pre, task, post, rfl⟩ | ⟨-, pre, task, post, rfl⟩
    · exact .inr ⟨_, _, .endMap h⟩
    · exact .inr ⟨_, _, .releaseShared⟩
    · exact .inr ⟨_, _, .acquireShared⟩
  | .mapping a (some (limit, free)) items k, hr => by
    rcases items_cases items with ⟨results, h⟩ | ⟨pre, task, post, rfl⟩ | ⟨hnone, pre, task, post, rfl⟩
    · exact .inr ⟨_, _, .endMap h⟩
    · exact .inr ⟨_, _, .releaseOwn⟩
    · -- No task of the map runs, so all its permits are free.
      cases hr with
      | own hcount =>
        have hfree : 1 ≤ free := by
          have hpos := limit.pos
          omega
        obtain ⟨free, rfl⟩ := Nat.exists_eq_add_of_le' hfree
        exact .inr ⟨_, _, .acquireOwn⟩
  | .chains a children k, hr => by
    have hchildren : ∀ c ∈ children, c.Within := by
      cases hr with
      | chains h => exact h
    rcases Run.progressAny o s children hchildren with ⟨results, h⟩ | ⟨pre, c, post, hsplit, s', c', hstep⟩
    · exact .inr ⟨_, _, .endPipeline h⟩
    · rw [hsplit]
      exact .inr ⟨s', _, .inChain hstep⟩

theorem Run.progressAny (o : Outcomes V) (s : Nat) : ∀ rs : List (Run V max), (∀ r ∈ rs, r.Within) →
    (∃ results : List (Except WorkflowError V), rs.map Run.finished? = results.map some) ∨
      ∃ pre c post, rs = pre ++ c :: post ∧ ∃ s' c', Step o (s + 1) c s' c'
  | [], _ => .inl ⟨[], rfl⟩
  | r :: rs, h => by
    rcases Run.progress o s r (h r List.mem_cons_self) with ⟨x, hx⟩ | hstep
    · rcases Run.progressAny o s rs (fun c hc => h c (List.mem_cons_of_mem _ hc)) with ⟨results, hresults⟩ |
        ⟨pre, c, post, hrs, hstep⟩
      · exact .inl ⟨x :: results, by rw [List.map_cons, List.map_cons, hx, hresults]⟩
      · exact .inr ⟨r :: pre, c, post, by rw [hrs]; rfl, hstep⟩
    · exact .inr ⟨[], r, rs, rfl, hstep⟩

end

theorem Later.ends {f : Nat → Nat × Run V max} (hf : ∀ n, Step o (f n).1 (f n).2 (f (n + 1)).1 (f (n + 1)).2) :
    ¬ Acc (Later o) (f 0).2 := by
  intro h
  generalize hr : (f 0).2 = r at h
  induction h generalizing f with
  | intro r _ ih =>
    exact ih (f 1).2 ⟨_, _, hr ▸ hf 0⟩ (f := fun n => f (n + 1)) (fun n => hf (n + 1)) rfl

/-- No schedule of a script goes on for ever, and none stops before the script has its result:
what is left can always take a step. -/
theorem schedules_end (wf : WorkflowContext) (o : Outcomes V) (p : Script V wf.maxConcurrency) :
    (¬ ∃ f : Nat → Nat × Run V wf.maxConcurrency, f 0 = (wf.maxConcurrency, .script [0] p) ∧
      ∀ n, Step o (f n).1 (f n).2 (f (n + 1)).1 (f (n + 1)).2) ∧
    ∀ s r, Reachable o p s r → (∃ x, r.finished? = some x) ∨ ∃ s' r', Step o s r s' r' := by
  constructor
  · rintro ⟨f, hstart, hf⟩
    refine Later.ends hf ?_
    rw [hstart]
    exact acc_script o p [0]
  · intro s r h
    obtain ⟨hcount, hwithin, -⟩ := permits_of_reachable h
    by_cases hshared : 0 < r.shared
    · exact .inr (Run.release o s r hshared)
    · have hpos := wf.pos
      obtain ⟨s, rfl⟩ := Nat.exists_eq_add_of_le' (show 1 ≤ s by omega)
      exact Run.progress o s r hwithin

/-! ## Limits of single calls -/

/-- Every item takes its place at once where a map has a permit for each. -/
theorem fill_own (limit : Limit max) (task : AgentTask) (k : Except WorkflowError (List V) → Script V max) (s : Nat)
    (pre : List (Item V)) (free : Nat) :
    Steps o (s, .mapping a (some (limit, free)) (pre ++ List.replicate free (.waiting task)) k)
      (s, .mapping a (some (limit, 0)) (pre ++ List.replicate free (.running task)) k) := by
  induction free generalizing pre with
  | zero => exact .refl
  | succ free ih =>
    have hih := ih (pre ++ [.running task])
    rw [List.append_assoc, List.append_assoc, List.singleton_append, List.singleton_append] at hih
    exact .more .acquireOwn hih

theorem inChain_steps {k : List (Option V) → Script V max} {pre post : List (Run V max)} {x y : Nat × Run V max}
    (h : Steps o x y) :
    Steps o (x.1, .chains a (pre ++ x.2 :: post) k) (y.1, .chains a (pre ++ y.2 :: post) k) := by
  induction h with
  | refl => exact .refl
  | tail _ hstep ih => exact ih.tail (.inChain hstep)

/-- What each chain can do for itself, all of them can do. -/
theorem all_chains {s : Nat} {rs rs' : List (Run V max)} (k : List (Option V) → Script V max)
    (h : List.Forall₂ (fun r r' => Steps o (s, r) (s, r')) rs rs') (pre : List (Run V max)) :
    Steps o (s, .chains a (pre ++ rs) k) (s, .chains a (pre ++ rs') k) := by
  induction h generalizing pre with
  | nil => exact .refl
  | @cons r r' rs rs' hr _ ih =>
    refine (inChain_steps hr).trans ?_
    have hih := ih (pre ++ [r'])
    rwa [List.append_assoc, List.append_assoc, List.singleton_append, List.singleton_append] at hih

end

theorem mapIdx_replicate {α β : Type} (f : Nat → α → β) (n : Nat) (x : α) :
    (List.replicate n x).mapIdx f = (List.range n).map fun i => f i x := by
  refine List.ext_getElem (by simp) fun i _ _ => ?_
  simp

end AgentSdk.Workflow
