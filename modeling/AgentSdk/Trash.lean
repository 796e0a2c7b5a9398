import AgentSdk.Lib.Runs
import Mathlib.Data.List.Basic
/-!
# The trash

`Trash`: storage is discarded by a rename into `.trash` and deleted by an emptying task
in the background. Its callers, the task, its worker threads and those that drain it
take their steps in any order.
-/

namespace AgentSdk.Trash
open Lib

/-- The name under which something was discarded. -/
abbrev Entry := Nat

/-- `_empty`: `listed` is a listing that the task has not yet taken up, `removing` the
entries of one that are left. -/
inductive EmptyingPc where
  | listing
  | listed (entries : List Entry)
  | removing (entries : List Entry)
  | ended
  | failed
deriving DecidableEq

structure EmptyingTask where
  pc : EmptyingPc := .listing
  tried : List Entry := []
deriving DecidableEq

def EmptyingTask.done (t : EmptyingTask) : Bool := t.pc = .ended ∨ t.pc = .failed

/-- A drain that waits for a task; `awaited` is kept for the statement only. -/
structure Drain where
  awaited : List Entry
  task : Nat
deriving DecidableEq

/-- `dir` is the directory, and the last of `tasks` is `_emptying`. The others are kept
for the statement only: what was `discarded`, what is `awaited` since an `empty_soon`
after it, what was `deleted`, what was deleted or failed to be (`settled`), and of each
drain that has returned what it awaited and what was settled. -/
structure World where
  dir : List Entry
  tasks : List EmptyingTask := []
  drains : List Drain := []
  discarded : List Entry
  awaited : List Entry := []
  deleted : List Entry := []
  settled : List Entry := []
  returned : List (List Entry × List Entry) := []

/-- `leftover` is what an earlier run has left. -/
def World.init (leftover : List Entry) : World := { dir := leftover, discarded := leftover }

inductive Step where
  | discard (e : Entry)
  | emptySoon
  | list (i : Nat)
  | listFails (i : Nat)
  | resume (i : Nat)
  | remove (i : Nat) (ok : Bool)
  | drain
  | wake (j : Nat)

namespace World

/-- The task that runs, if `_emptying` is not done. -/
def emptying? (w : World) : Option (Nat × EmptyingTask) :=
  (w.tasks.getLast?.filter fun t => !t.done).map fun t => (w.tasks.length - 1, t)

def setTask (w : World) (i : Nat) (t : EmptyingTask) : World := { w with tasks := w.tasks.set i t }

/-- The condition of the loop of `drain`. -/
def waitOrReturn (w : World) (awaited : List Entry) : World :=
  match w.emptying? with
  | some (i, _) => { w with drains := w.drains ++ [⟨awaited, i⟩] }
  | none => { w with returned := w.returned ++ [(awaited, w.settled)] }

def step (w : World) : Step → Option World
  | .discard e =>
    if e ∈ w.discarded then none else some { w with dir := e :: w.dir, discarded := e :: w.discarded }
  | .emptySoon =>
    let tasks := if w.emptying?.isSome then w.tasks else w.tasks ++ [{}]
    some { w with tasks, awaited := w.discarded }
  | .list i => do
    let t ← w.tasks[i]?
    if t.pc = .listing then some (w.setTask i { t with pc := .listed w.dir }) else none
  | .listFails i => do
    let t ← w.tasks[i]?
    if t.pc = .listing then some (w.setTask i { t with pc := .failed }) else none
  | .resume i => do
    let t ← w.tasks[i]?
    match t.pc with
    | .listed es =>
      let entries := es.filter (· ∉ t.tried)
      some (w.setTask i { t with pc := if entries = [] then .ended else .removing entries })
    | _ => none
  | .remove i ok => do
    let t ← w.tasks[i]?
    match t.pc with
    | .removing (e :: es) =>
      let w := w.setTask i { pc := if es = [] then .listing else .removing es, tried := e :: t.tried }
      let w := { w with settled := e :: w.settled }
      some (if ok then { w with dir := w.dir.erase e, deleted := e :: w.deleted } else w)
    | _ => none
  | .drain => some (w.waitOrReturn w.awaited)
  | .wake j => do
    let d ← w.drains[j]?
    let t ← w.tasks[d.task]?
    let w := { w with drains := w.drains.eraseIdx j }
    if ¬ t.done then none else some (if t.pc = .failed then w else w.waitOrReturn d.awaited)

end World

/-- Nothing new is asked for while the task is about to end, and no listing fails. -/
def Step.Allowed (w : World) : Step → Prop
  | .emptySoon => ∀ p ∈ w.emptying?, match p.2.pc with
    | .listed es => (∀ e ∈ es, e ∈ p.2.tried) → ∀ e ∈ w.dir, e ∈ p.2.tried
    | _ => True
  | .listFails _ => False
  | _ => True

instance Step.decidableAllowed (w : World) (s : Step) : Decidable (s.Allowed w) := by
  cases s with
  | emptySoon =>
    unfold Step.Allowed
    have : ∀ p : Nat × EmptyingTask, Decidable (match p.2.pc with
        | .listed es => (∀ e ∈ es, e ∈ p.2.tried) → ∀ e ∈ w.dir, e ∈ p.2.tried
        | _ => True) := fun p => by split <;> infer_instance
    infer_instance
  | listFails i => exact instDecidableFalse
  | _ => exact instDecidableTrue

/-- What the trash promises. -/
structure Promised (w : World) : Prop where
  drained : ∀ r ∈ w.returned, ∀ e ∈ r.1, e ∈ r.2
  deleted : ∀ e ∈ w.deleted, e ∈ w.discarded
  one : ∀ (i j : Nat) (t u : EmptyingTask), w.tasks[i]? = some t → w.tasks[j]? = some u → t.done = false → u.done = false → i = j

/-! ## The task that runs -/

section
variable {w w' : World} {i : Nat} {t t' : EmptyingTask}

theorem emptying?_eq_some : w.emptying? = some (i, t) ↔ w.tasks[i]? = some t ∧ i + 1 = w.tasks.length ∧ t.done = false := by
  unfold World.emptying?
  rw [List.getLast?_eq_getElem?]
  simp only [Option.map_eq_some_iff, Option.filter_eq_some_iff, Bool.not_eq_true', Prod.mk.injEq]
  constructor
  · rintro ⟨t, ⟨ht, hdone⟩, rfl, rfl⟩
    obtain ⟨hlt, -⟩ := List.getElem?_eq_some_iff.1 ht
    exact ⟨ht, by omega, hdone⟩
  · rintro ⟨ht, hlen, hdone⟩
    obtain rfl : w.tasks.length - 1 = i := by omega
    exact ⟨t, ⟨ht, hdone⟩, rfl, rfl⟩

/-- The task will come to an entry that it has not yet tried. -/
def EmptyingTask.WillSee (t : EmptyingTask) (e : Entry) : Prop :=
  match t.pc with
  | .listing => True
  | .listed es => e ∈ es ∨ ∃ x ∈ es, x ∉ t.tried
  | .removing _ => True
  | _ => False

/-- What the task has listed and not yet deleted. -/
def EmptyingTask.entries (t : EmptyingTask) : List Entry :=
  match t.pc with
  | .listed es => es
  | .removing es => es
  | _ => []

theorem EmptyingTask.WillSee.not_done {e : Entry} (h : t.WillSee e) : t.done = false := by
  unfold WillSee at h
  unfold EmptyingTask.done
  cases hpc : t.pc <;> simp [hpc] at h ⊢

structure Consistent (w : World) : Prop where
  dir : ∀ e ∈ w.dir, e ∈ w.discarded
  gone : ∀ e ∈ w.discarded, e ∈ w.dir ∨ e ∈ w.settled
  deleted : ∀ e ∈ w.deleted, e ∈ w.discarded
  tried : ∀ t ∈ w.tasks, ∀ e ∈ t.tried, e ∈ w.settled
  entries : ∀ t ∈ w.tasks, ∀ e ∈ t.entries, e ∈ w.discarded
  last : ∀ (i : Nat) (t : EmptyingTask), w.tasks[i]? = some t → t.done = false → i + 1 = w.tasks.length
  known : ∀ e ∈ w.awaited, e ∈ w.discarded
  pending : ∀ e ∈ w.awaited, e ∉ w.settled → ∃ p ∈ w.emptying?, p.2.WillSee e
  waiting : ∀ d ∈ w.drains, ∀ e ∈ d.awaited, e ∈ w.awaited
  returned : ∀ r ∈ w.returned, ∀ e ∈ r.1, e ∈ r.2

theorem consistent_init (leftover : List Entry) : Consistent (World.init leftover) where
  dir _ he := he
  gone _ he := .inl he
  deleted _ he := absurd he List.not_mem_nil
  tried _ ht := absurd ht List.not_mem_nil
  entries _ ht := absurd ht List.not_mem_nil
  last _ _ ht := by cases ht
  known _ he := absurd he List.not_mem_nil
  pending _ he := absurd he List.not_mem_nil
  waiting _ hd := absurd hd List.not_mem_nil
  returned _ hr := absurd hr List.not_mem_nil

theorem Consistent.promised (h : Consistent w) : Promised w where
  drained := h.returned
  deleted := h.deleted
  one i j t u hi hj ht hu := by
    have hlast := h.last i t hi ht
    have hlast' := h.last j u hj hu
    omega

/-- The task that is not done takes a step that leaves to it what it has to see. -/
theorem Consistent.setTask (h : Consistent w) (hi : w.tasks[i]? = some t) (hdone : t.done = false)
    (htried : ∀ e ∈ t'.tried, e ∈ w.settled) (hentries : ∀ e ∈ t'.entries, e ∈ w.discarded)
    (hsee : ∀ e ∈ w.awaited, e ∉ w.settled → t.WillSee e → t'.WillSee e) : Consistent (w.setTask i t') := by
  have hlast := h.last i t hi hdone
  obtain ⟨hlt, -⟩ := List.getElem?_eq_some_iff.1 hi
  have hmem : ∀ u ∈ (w.setTask i t').tasks, u = t' ∨ u ∈ w.tasks := by
    intro u hu
    exact (List.mem_or_eq_of_mem_set hu).symm
  refine ⟨h.dir, h.gone, h.deleted, ?_, ?_, ?_, h.known, ?_, h.waiting, h.returned⟩
  · intro u hu
    rcases hmem u hu with rfl | hu
    · exact htried
    · exact h.tried u hu
  · intro u hu
    rcases hmem u hu with rfl | hu
    · exact hentries
    · exact h.entries u hu
  · intro j u hj hu
    show j + 1 = (w.tasks.set i t').length
    rw [List.length_set]
    rw [World.setTask, List.getElem?_set] at hj
    split at hj
    · omega
    · exact h.last j u hj hu
  · intro e he hnot
    obtain ⟨⟨j, u⟩, hp, hsees⟩ := h.pending e he hnot
    obtain ⟨hj, hlen, -⟩ := emptying?_eq_some.1 hp
    obtain rfl : j = i := by omega
    obtain rfl : t = u := Option.some.inj (hi.symm.trans hj)
    have hsees' := hsee e he hnot hsees
    refine ⟨(j, t'), emptying?_eq_some.2 ⟨?_, ?_, hsees'.not_done⟩, hsees'⟩
    · exact List.getElem?_set_self hlt
    · exact hlen.trans (List.length_set ..).symm

/-- The condition of the loop of `drain`: at its end all is settled. -/
theorem Consistent.waitOrReturn (h : Consistent w) {awaited : List Entry} (hawaited : ∀ e ∈ awaited, e ∈ w.awaited) :
    Consistent (w.waitOrReturn awaited) := by
  unfold World.waitOrReturn
  split
  · refine { h with waiting := ?_ }
    intro d hd
    rcases List.mem_append.1 hd with hd | hd
    · exact h.waiting d hd
    · obtain rfl := List.mem_singleton.1 hd
      exact hawaited
  · rename_i hnone
    refine { h with returned := ?_ }
    intro r hr
    rcases List.mem_append.1 hr with hr | hr
    · exact h.returned r hr
    · obtain rfl := List.mem_singleton.1 hr
      intro e he
      by_contra hnot
      obtain ⟨p, hp, -⟩ := h.pending e (hawaited e he) hnot
      rw [hnone] at hp
      cases hp

theorem Consistent.emptySoon (h : Consistent w) (hok : Step.emptySoon.Allowed w) :
    Consistent { w with tasks := if w.emptying?.isSome then w.tasks else w.tasks ++ [{}], awaited := w.discarded } := by
  cases hp : w.emptying? with
  | some p =>
    obtain ⟨hi, -, hdone⟩ := emptying?_eq_some.1 hp
    have htried := h.tried p.2 (List.mem_of_getElem? hi)
    refine { h with known := fun e he => he, pending := ?_, waiting := fun d hd e he => h.known e (h.waiting d hd e he) }
    intro e he hnot
    have hdir := (h.gone e he).resolve_right hnot
    refine ⟨p, hp, ?_⟩
    have hallowed := hok p hp
    unfold EmptyingTask.WillSee
    unfold EmptyingTask.done at hdone
    cases hpc : p.2.pc with
    | listed es =>
      rw [hpc] at hallowed
      -- all of the listing was tried only if all of the directory was
      by_contra hno
      rw [not_or] at hno
      have hall : ∀ x ∈ es, x ∈ p.2.tried := fun x hx => by_contra fun hx' => hno.2 ⟨x, hx, hx'⟩
      exact hnot (htried e (hallowed hall e hdir))
    | ended => simp [hpc] at hdone
    | failed => simp [hpc] at hdone
    | _ => trivial
  | none =>
    have hdone : ∀ (j : Nat) (u : EmptyingTask), w.tasks[j]? = some u → u.done = true := by
      intro j u hj
      by_contra hu
      have hu := eq_false_of_ne_true hu
      have hp' := emptying?_eq_some.2 ⟨hj, h.last j u hj hu, hu⟩
      rw [hp] at hp'
      cases hp'
    refine ⟨h.dir, h.gone, h.deleted, ?_, ?_, ?_, fun e he => he, ?_,
      fun d hd e he => h.known e (h.waiting d hd e he), h.returned⟩
    · intro u hu
      rcases List.mem_append.1 hu with hu | hu
      · exact h.tried u hu
      · obtain rfl := List.mem_singleton.1 hu
        exact nofun
    · intro u hu
      rcases List.mem_append.1 hu with hu | hu
      · exact h.entries u hu
      · obtain rfl := List.mem_singleton.1 hu
        exact nofun
    · intro j u hj hu
      show j + 1 = (w.tasks ++ [({} : EmptyingTask)]).length
      have hj : (w.tasks ++ [({} : EmptyingTask)])[j]? = some u := hj
      rw [List.length_append, List.length_singleton]
      rcases Nat.lt_or_ge j w.tasks.length with hlt | hge
      · rw [List.getElem?_append_left hlt] at hj
        rw [hdone j u hj] at hu
        cases hu
      · obtain ⟨hlt, -⟩ := List.getElem?_eq_some_iff.1 hj
        rw [List.length_append, List.length_singleton] at hlt
        omega
    · intro e he hnot
      refine ⟨(w.tasks.length, {}), emptying?_eq_some.2 ⟨?_, ?_, rfl⟩, trivial⟩
      · exact List.getElem?_concat_length
      · show w.tasks.length + 1 = (w.tasks ++ [({} : EmptyingTask)]).length
        rw [List.length_append, List.length_singleton]

theorem Consistent.resume (h : Consistent w) {es : List Entry} (hi : w.tasks[i]? = some t) (hpc : t.pc = .listed es) :
    Consistent (w.setTask i { t with
      pc := if es.filter (· ∉ t.tried) = [] then .ended else .removing (es.filter (· ∉ t.tried)) }) := by
  have ht := List.mem_of_getElem? hi
  have hes : ∀ e ∈ es, e ∈ w.discarded := fun e he => h.entries t ht e (by rw [EmptyingTask.entries, hpc]; exact he)
  refine h.setTask hi (by simp [EmptyingTask.done, hpc]) (h.tried t ht) ?_ ?_
  · split
    · exact nofun
    · exact fun e he => hes e (List.mem_of_mem_filter he)
  · intro e he hnot hsees
    have huntried : ∃ x ∈ es, x ∉ t.tried := by
      rw [EmptyingTask.WillSee, hpc] at hsees
      rcases hsees with hmem | hx
      · exact ⟨e, hmem, fun htried => hnot (h.tried t ht e htried)⟩
      · exact hx
    obtain ⟨x, hx, hx'⟩ := huntried
    have hne : es.filter (· ∉ t.tried) ≠ [] := List.ne_nil_of_mem (List.mem_filter.2 ⟨hx, decide_eq_true hx'⟩)
    rw [if_neg hne]
    trivial

theorem Consistent.remove (h : Consistent w) {e : Entry} {es : List Entry} (hi : w.tasks[i]? = some t)
    (hpc : t.pc = .removing (e :: es)) {dir deleted : List Entry} (hdir : ∀ x ∈ dir, x ∈ w.dir)
    (hkept : ∀ x ∈ w.dir, x = e ∨ x ∈ dir) (hdeleted : ∀ x ∈ deleted, x = e ∨ x ∈ w.deleted) :
    Consistent { w.setTask i { pc := if es = [] then .listing else .removing es, tried := e :: t.tried } with
      dir, deleted, settled := e :: w.settled } := by
  have ht := List.mem_of_getElem? hi
  have hentries := h.entries t ht
  rw [EmptyingTask.entries, hpc] at hentries
  have hsettled : Consistent { w with dir, deleted, settled := e :: w.settled } := by
    refine { h with dir := ?_, gone := ?_, deleted := ?_, tried := ?_, pending := ?_, returned := ?_ }
    · exact fun x hx => h.dir x (hdir x hx)
    · intro x hx
      rcases h.gone x hx with hx | hx
      · rcases hkept x hx with rfl | hx
        · exact .inr List.mem_cons_self
        · exact .inl hx
      · exact .inr (List.mem_cons_of_mem e hx)
    · intro x hx
      rcases hdeleted x hx with rfl | hx
      · exact hentries x List.mem_cons_self
      · exact h.deleted x hx
    · exact fun u hu x hx => List.mem_cons_of_mem e (h.tried u hu x hx)
    · exact fun x hx hnot => h.pending x hx fun hmem => hnot (List.mem_cons_of_mem e hmem)
    · exact h.returned
  refine hsettled.setTask hi (by simp [EmptyingTask.done, hpc]) ?_ ?_ ?_
  · intro x hx
    rcases List.mem_cons.1 hx with rfl | hx
    · exact List.mem_cons_self
    · exact List.mem_cons_of_mem e (h.tried t ht x hx)
  · split
    · exact nofun
    · exact fun x hx => hentries x (List.mem_cons_of_mem e hx)
  · intro x _ _ _
    split <;> trivial

theorem Consistent.step (h : Consistent w) {s : Step} (hok : s.Allowed w) (hstep : w.step s = some w') : Consistent w' := by
  cases s with
  | discard e =>
    unfold World.step at hstep
    dsimp only at hstep
    split at hstep
    · cases hstep
    · cases hstep
      refine { h with dir := ?_, gone := ?_, deleted := ?_, entries := ?_, known := ?_ }
      · intro x hx
        rcases List.mem_cons.1 hx with rfl | hx
        · exact List.mem_cons_self
        · exact List.mem_cons_of_mem e (h.dir x hx)
      · intro x hx
        rcases List.mem_cons.1 hx with rfl | hx
        · exact .inl List.mem_cons_self
        · exact (h.gone x hx).imp_left (List.mem_cons_of_mem e)
      · exact fun x hx => List.mem_cons_of_mem e (h.deleted x hx)
      · exact fun u hu x hx => List.mem_cons_of_mem e (h.entries u hu x hx)
      · exact fun x hx => List.mem_cons_of_mem e (h.known x hx)
  | emptySoon =>
    cases hstep
    exact h.emptySoon hok
  | list i =>
    obtain ⟨t, hi, hstep⟩ := Option.bind_eq_some_iff.1 hstep
    split at hstep
    · rename_i hpc
      cases hstep
      have ht := List.mem_of_getElem? hi
      refine h.setTask hi (by simp [EmptyingTask.done, hpc]) (h.tried t ht) h.dir ?_
      -- What is listed is all that is there.
      intro e he hnot _
      exact .inl ((h.gone e (h.known e he)).resolve_right hnot)
    · cases hstep
  | listFails i => exact hok.elim
  | resume i =>
    obtain ⟨t, hi, hstep⟩ := Option.bind_eq_some_iff.1 hstep
    dsimp only at hstep
    split at hstep
    · rename_i es hpc
      cases hstep
      exact h.resume hi hpc
    · cases hstep
  | remove i ok =>
    obtain ⟨t, hi, hstep⟩ := Option.bind_eq_some_iff.1 hstep
    dsimp only at hstep
    split at hstep
    · rename_i e es hpc
      cases ok with
      | true =>
        cases hstep
        -- The entry is deleted, or stays for a later task.
        refine h.remove hi hpc (fun x hx => List.mem_of_mem_erase hx) (fun x hx => ?_) fun x hx => List.mem_cons.1 hx
        by_cases hxe : x = e
        · exact .inl hxe
        · exact .inr ((List.mem_erase_of_ne hxe).2 hx)
      | false =>
        cases hstep
        exact h.remove hi hpc (fun x hx => hx) (fun x hx => .inr hx) fun x hx => .inr hx
    · cases hstep
  | drain =>
    cases hstep
    exact h.waitOrReturn fun e he => he
  | wake j =>
    obtain ⟨d, hd, hstep⟩ := Option.bind_eq_some_iff.1 hstep
    obtain ⟨t, -, hstep⟩ := Option.bind_eq_some_iff.1 hstep
    -- A drain that is woken returns, or waits again for what is left.
    have hwoken : Consistent { w with drains := w.drains.eraseIdx j } :=
      { h with waiting := fun d hd => h.waiting d (List.mem_of_mem_eraseIdx hd) }
    dsimp only at hstep
    split at hstep
    · cases hstep
    · cases hstep
      split
      · exact hwoken
      · exact hwoken.waitOrReturn (h.waiting d (List.mem_of_getElem? hd))

/-- What was discarded and asked to be emptied before a drain is gone when it returns,
or could not be deleted. -/
theorem trash_drained (leftover : List Entry)
    (h : Reaches World.step (fun w s => s.Allowed w) (World.init leftover) w) : Promised w := by
  have hc : Consistent w := h.invariant (consistent_init leftover) fun _ _ _ hc hok hstep => hc.step hok hstep
  exact hc.promised

end

section Examples

/-- Two entries, of which the second one comes while the first is deleted, and two
drains; the deletion of the second fails. -/
def drained : List Step :=
  [.discard 1, .emptySoon, .list 0, .resume 0, .discard 2, .emptySoon, .drain, .remove 0 true, .list 0, .resume 0, .drain,
    .remove 0 false, .list 0, .resume 0, .wake 0, .wake 0]

theorem drained_promised : ∃ w, execAllowed World.step (fun w s => s.Allowed w) (World.init []) drained = some w ∧
    w.deleted = [1] ∧ w.returned = [([2, 1], [2, 1]), ([2, 1], [2, 1])] ∧ Promised w := by
  have hrun : (execAllowed World.step (fun w s => s.Allowed w) (World.init []) drained).map
      (fun w => (w.deleted, w.returned)) = some ([1], [([2, 1], [2, 1]), ([2, 1], [2, 1])]) := by decide +kernel
  obtain ⟨w, hw, hw'⟩ := Option.map_eq_some_iff.1 hrun
  obtain ⟨hdeleted, hreturned⟩ := Prod.mk.inj hw'
  exact ⟨w, hw, hdeleted, hreturned, trash_drained [] (reaches_of_execAllowed .init hw)⟩

/-- The second entry comes between the last listing and the end of the task. -/
theorem entry_forgotten : ∃ w, exec World.step (World.init [])
    [.discard 1, .emptySoon, .list 0, .resume 0, .remove 0 true, .list 0, .discard 2, .emptySoon, .resume 0, .drain] =
      some w ∧ ¬ Promised w := by
  have hrun : (exec World.step (World.init [])
      [.discard 1, .emptySoon, .list 0, .resume 0, .remove 0 true, .list 0, .discard 2, .emptySoon, .resume 0,
        .drain]).map (fun w => w.returned) = some [([2, 1], [1])] := by decide +kernel
  obtain ⟨w, hw, hreturned⟩ := Option.map_eq_some_iff.1 hrun
  refine ⟨w, hw, fun h => ?_⟩
  have hsettled := h.drained ([2, 1], [1]) (by rw [hreturned]; exact List.mem_cons_self) 2 List.mem_cons_self
  simp at hsettled

end Examples

end AgentSdk.Trash
