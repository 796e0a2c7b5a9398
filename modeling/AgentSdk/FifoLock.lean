import AgentSdk.Lib.Runs
import Mathlib.Data.List.Basic
import Mathlib.Data.List.Nodup
import Mathlib.Logic.Function.Basic
/-!
# The FIFO lock

`FIFOLock`: a reentrant lock that hands itself over in the order of the queue.
A section under the lock's mutex is one step. A thread that waits on its
condition sleeps until it is notified or its time-out wakes it, and then looks
at the lock again.
-/

namespace AgentSdk
open Lib

/-- The queue holds a `Condition` for each waiting thread, named by the thread. -/
structure FIFOLock (τ : Type) where
  waiters : List τ := []
  owner : Option τ := none
  count : Nat := 0

namespace FIFOLock
variable {τ : Type} [DecidableEq τ]

/-- The first part of `acquire`: the owner goes one level deeper, and a free
lock without a queue is taken. -/
def tryEnter (l : FIFOLock τ) (t : τ) : Option (FIFOLock τ) :=
  if l.owner = some t then some { l with count := l.count + 1 }
  else if l.owner = none ∧ l.waiters = [] then some { l with owner := some t, count := 1 }
  else none

def enqueue (l : FIFOLock τ) (t : τ) : FIFOLock τ := { l with waiters := l.waiters ++ [t] }

/-- The front of the queue takes the free lock. -/
def tryGrant (l : FIFOLock τ) (t : τ) : Option (FIFOLock τ) :=
  if l.waiters.head? = some t ∧ l.owner = none then
    some { waiters := l.waiters.tail, owner := some t, count := 1 }
  else none

/-- A waiter that timed out. -/
def giveUp (l : FIFOLock τ) (t : τ) : FIFOLock τ := { l with waiters := l.waiters.erase t }

/-- `release`, and who is notified; `none` for the `RuntimeError` of another thread. -/
def release (l : FIFOLock τ) (t : τ) : Option (FIFOLock τ × Option τ) :=
  if l.owner ≠ some t then none
  else if l.count - 1 = 0 then some ({ l with owner := none, count := 0 }, l.waiters.head?)
  else some ({ l with count := l.count - 1 }, none)

/-- `release_all`, with the depth it returns. -/
def releaseAll (l : FIFOLock τ) (t : τ) : Option (FIFOLock τ × Nat × Option τ) :=
  if l.owner ≠ some t then none
  else some ({ l with owner := none, count := 0 }, l.count, l.waiters.head?)

/-- How deep a thread is in the lock. -/
def depth (l : FIFOLock τ) (t : τ) : Nat := if l.owner = some t then l.count else 0

end FIFOLock

/-! ## Threads -/

/-- Where a thread is: outside, in `acquire` (with a time-out or not, from
`reacquire` with the depth to restore or not), or between the two sections of
`reacquire`. -/
inductive LockPc where
  | idle
  | asleep (timed : Bool) (restore : Option Nat)
  | awake (timed : Bool) (restore : Option Nat)
  | restoring (depth : Nat)
deriving DecidableEq

def LockPc.waiting : LockPc → Bool
  | .asleep _ _ | .awake _ _ => true
  | .idle | .restoring _ => false

/-- The depth that a `reacquire` is to restore. -/
def LockPc.target : LockPc → Option Nat
  | .asleep _ restore | .awake _ restore => restore
  | .restoring depth => some depth
  | .idle => none

inductive LockOp (τ : Type) where
  | acquire (t : τ) (blocking timed expired : Bool)
  | timer (t : τ)
  | look (t : τ) (expired : Bool)
  | release (t : τ)
  | releaseAll (t : τ)
  | reacquire (t : τ) (depth : Int)
  | restore (t : τ)

/-- The lock and its threads. Kept for the statement only: for each thread the
depths that its releases go back to, what each release went back to and should
have, and the places of the requests that were granted, in the order of the
grants; places are numbered as the requests arrive. -/
structure LockWorld (τ : Type) where
  lock : FIFOLock τ := {}
  pc : τ → LockPc := fun _ => .idle
  notified : τ → Bool := fun _ => false
  levels : τ → List Nat := fun _ => []
  released : List (Nat × Nat) := []
  arrivals : Nat := 0
  place : τ → Nat := fun _ => 0
  grants : List Nat := []

namespace LockWorld
variable {τ : Type} [DecidableEq τ]

/-- A thread enters the lock. -/
def entered (s : LockWorld τ) (t : τ) (l : FIFOLock τ) (restore : Option Nat) : LockWorld τ :=
  { s with
    lock := l
    pc := Function.update s.pc t (match restore with | none => .idle | some d => .restoring d)
    levels := Function.update s.levels t (s.lock.depth t :: s.levels t) }

/-- A request is granted that arrived at the place `n`. -/
def granted (s : LockWorld τ) (n : Nat) : LockWorld τ := { s with grants := s.grants ++ [n] }

def wake (s : LockWorld τ) : Option τ → LockWorld τ
  | none => s
  | some t =>
    { s with
      notified := Function.update s.notified t true
      pc := match s.pc t with
        | .asleep timed restore => Function.update s.pc t (.awake timed restore)
        | _ => s.pc }

/-- `acquire`, up to its first wait. -/
def acquire (s : LockWorld τ) (t : τ) (blocking timed expired : Bool) (restore : Option Nat) : Option (LockWorld τ) :=
  if s.pc t ≠ .idle then none
  else
    match s.lock.tryEnter t with
    | some l =>
      if s.lock.owner = some t then some (s.entered t l restore)
      else some ({ (s.entered t l restore).granted s.arrivals with arrivals := s.arrivals + 1 })
    | none =>
      if !blocking then some s
      else
        let s := { s with
          lock := s.lock.enqueue t
          notified := Function.update s.notified t false
          place := Function.update s.place t s.arrivals
          arrivals := s.arrivals + 1 }
        if timed && expired then some { s with lock := s.lock.giveUp t }
        else some { s with pc := Function.update s.pc t (.asleep timed restore) }

/-- One round of the loop in `acquire`, by a thread that woke up. -/
def look (s : LockWorld τ) (t : τ) (expired : Bool) : Option (LockWorld τ) :=
  match s.pc t with
  | .awake timed restore =>
    match s.lock.tryGrant t with
    | some l => some ((s.entered t l restore).granted (s.place t))
    | none =>
      if timed && expired then some { s with lock := s.lock.giveUp t, pc := Function.update s.pc t .idle }
      else some { s with pc := Function.update s.pc t (.asleep timed restore) }
  | _ => none

def step (s : LockWorld τ) : LockOp τ → Option (LockWorld τ)
  | .acquire t blocking timed expired => s.acquire t blocking timed expired none
  | .timer t =>
    match s.pc t with
    | .asleep true restore => some { s with pc := Function.update s.pc t (.awake true restore) }
    | _ => none
  | .look t expired => s.look t expired
  | .release t =>
    if s.pc t ≠ .idle then none
    else
      match s.lock.release t with
      | none => some s
      | some (l, notify) =>
        some (wake { s with
          lock := l
          levels := Function.update s.levels t (s.levels t).tail
          released := s.released ++ [(l.depth t, (s.levels t).headD 0)] } notify)
  | .releaseAll t =>
    if s.pc t ≠ .idle then none
    else
      match s.lock.releaseAll t with
      | none => some s
      | some (l, _, notify) => some (wake { s with lock := l, levels := Function.update s.levels t [] } notify)
  | .reacquire t depth => if depth ≤ 0 then some s else s.acquire t true false false (some depth.toNat)
  | .restore t =>
    match s.pc t with
    | .restoring depth =>
      some { s with
        lock := { s.lock with count := depth }
        pc := Function.update s.pc t .idle
        levels := Function.update s.levels t (List.range depth).reverse }
    | _ => none

/-- A fair reentrant mutex: one thread at most is inside, at the depth of its
levels; a release goes back to the depth before; the requests are granted in
the order in which they arrived; only waiting threads are in the queue; and when
the lock is free the front of the queue has been notified and is awake. -/
structure FairMutex (s : LockWorld τ) : Prop where
  exclusive : ∀ t u, s.levels t ≠ [] → s.levels u ≠ [] → t = u
  depth : ∀ t, s.lock.depth t = (s.levels t).length
  released : ∀ x ∈ s.released, x.1 = x.2
  order : s.grants.Pairwise (· < ·)
  queue : ∀ t, t ∈ s.lock.waiters ↔ (s.pc t).waiting = true
  handOver : s.lock.owner = none → ∀ t, s.lock.waiters.head? = some t →
    s.notified t = true ∧ ∃ timed restore, s.pc t = .awake timed restore

/-! ## The invariant -/

/-- The places of the requests, first those that were granted, then the queue. -/
def places (s : LockWorld τ) : List Nat := s.grants ++ s.lock.waiters.map s.place

structure Consistent (s : LockWorld τ) : Prop where
  nodup : s.lock.waiters.Nodup
  queue : ∀ t, t ∈ s.lock.waiters ↔ (s.pc t).waiting = true
  owner : ∀ t, s.lock.owner = some t → (s.pc t).waiting = false ∧ 0 < s.lock.count
  restoring : ∀ t d, s.pc t = .restoring d → s.lock.owner = some t
  targets : ∀ t, ∀ d ∈ (s.pc t).target, 0 < d
  levels : ∀ t, s.levels t = (List.range (s.lock.depth t)).reverse
  released : ∀ x ∈ s.released, x.1 = x.2
  order : s.places.Pairwise (· < ·)
  arrived : ∀ n ∈ s.places, n < s.arrivals
  handOver : s.lock.owner = none → ∀ t, s.lock.waiters.head? = some t →
    s.notified t = true ∧ ∃ timed restore, s.pc t = .awake timed restore

theorem reverse_range_succ (n : Nat) : (List.range (n + 1)).reverse = n :: (List.range n).reverse := by
  rw [List.range_succ, List.reverse_append]
  rfl

theorem Consistent.fairMutex {s : LockWorld τ} (hs : s.Consistent) : s.FairMutex := by
  have howner : ∀ t, s.levels t ≠ [] → s.lock.owner = some t := by
    intro t ht
    by_contra hne
    rw [hs.levels t, FIFOLock.depth, if_neg hne] at ht
    exact ht rfl
  refine ⟨fun t u ht hu => ?_, fun t => ?_, hs.released, ?_, hs.queue, hs.handOver⟩
  · exact Option.some.inj ((howner t ht).symm.trans (howner u hu))
  · rw [hs.levels t, List.length_reverse, List.length_range]
  · exact (List.pairwise_append.1 hs.order).1

section Steps
variable {s : LockWorld τ} {t : τ}

theorem not_mem_of_idle (hs : s.Consistent) (ht : (s.pc t).waiting = false) : t ∉ s.lock.waiters := by
  intro hmem
  rw [(hs.queue t).1 hmem] at ht
  cases ht

theorem target_entered (restore : Option Nat) :
    LockPc.target (match restore with | none => .idle | some d => .restoring d) = restore := by
  cases restore <;> rfl

/-- One thread moves to a place with a proper target. -/
theorem targets_update (hs : s.Consistent) {pc : LockPc} (hpc : ∀ d ∈ pc.target, 0 < d) (u : τ) :
    ∀ d ∈ (Function.update s.pc t pc u).target, 0 < d := by
  by_cases hut : u = t
  · subst hut
    rw [Function.update_self]
    exact hpc
  · rw [Function.update_of_ne hut]
    exact hs.targets u

theorem waiting_entered (restore : Option Nat) :
    LockPc.waiting (match restore with | none => .idle | some d => .restoring d) = false := by
  cases restore <;> rfl

/-- The thread that enters gets one level more, no other thread changes. -/
theorem levels_entered (hs : s.Consistent) {l : FIFOLock τ} (hown : l.owner = some t)
    (hcount : l.count = s.lock.depth t + 1) (hfree : s.lock.owner = none ∨ s.lock.owner = some t)
    (restore : Option Nat) (u : τ) : (s.entered t l restore).levels u = (List.range (l.depth u)).reverse := by
  by_cases hu : u = t
  · subst hu
    show Function.update s.levels u _ u = _
    have hl : l.depth u = s.lock.depth u + 1 := by rw [FIFOLock.depth, if_pos hown, hcount]
    rw [Function.update_self, hl, reverse_range_succ, hs.levels u]
  · show Function.update s.levels t _ u = _
    have hl : l.depth u = 0 := by
      rw [FIFOLock.depth, if_neg]
      rw [hown, Option.some.injEq]
      exact fun h => hu h.symm
    have hold : s.lock.depth u = 0 := by
      rw [FIFOLock.depth, if_neg]
      rcases hfree with h | h <;> rw [h]
      · simp
      · rw [Option.some.injEq]
        exact fun h => hu h.symm
    rw [Function.update_of_ne hu, hs.levels u, hl, hold]

/-- The owner goes a level deeper. -/
theorem Consistent.reenter (hs : s.Consistent) (ht : s.pc t = .idle) (hown : s.lock.owner = some t)
    {restore : Option Nat} (hd : ∀ d ∈ restore, 0 < d) :
    (s.entered t { s.lock with count := s.lock.count + 1 } restore).Consistent := by
  have hidle : (s.pc t).waiting = false := by rw [ht]; rfl
  refine ⟨hs.nodup, fun u => ?_, fun u hu => ?_, fun u d hu => ?_, targets_update hs (by rwa [target_entered]), ?_,
    hs.released, hs.order, hs.arrived, ?_⟩
  · simp only [entered]
    by_cases hut : u = t
    · subst hut
      simp only [Function.update_self, waiting_entered, Bool.false_eq_true, iff_false]
      exact not_mem_of_idle hs hidle
    · simp only [Function.update_of_ne hut]
      exact hs.queue u
  · have hut : u = t := Option.some.inj (hu.symm.trans hown)
    subst hut
    refine ⟨?_, Nat.succ_pos _⟩
    simp only [entered, Function.update_self, waiting_entered]
  · simp only [entered] at hu
    by_cases hut : u = t
    · exact hut ▸ hown
    · rw [Function.update_of_ne hut] at hu
      exact hs.restoring u d hu
  · have hcount : s.lock.count + 1 = s.lock.depth t + 1 := by rw [FIFOLock.depth, if_pos hown]
    exact levels_entered (l := { s.lock with count := s.lock.count + 1 }) hs hown hcount (.inr hown) restore
  · intro hnone
    exact absurd (hown.symm.trans hnone) (by simp)

/-- A free lock is taken, by a thread at the front of the queue or when there is
none: `ws` is the queue behind it. -/
theorem Consistent.take (hs : s.Consistent) (hown : s.lock.owner = none) {ws : List τ} {n : Nat}
    {restore : Option Nat} (hd : ∀ d ∈ restore, 0 < d) (hws : ws.Nodup)
    (hqueue : ∀ u, u ∈ ws ↔ u ≠ t ∧ (s.pc u).waiting = true)
    (horder : (s.grants ++ n :: ws.map s.place).Pairwise (· < ·))
    {arrivals : Nat} (harr : ∀ m ∈ s.grants ++ n :: ws.map s.place, m < arrivals) :
    ({ (s.entered t { waiters := ws, owner := some t, count := 1 } restore).granted n with arrivals } :
      LockWorld τ).Consistent := by
  refine ⟨hws, fun u => ?_, fun u hu => ?_, fun u d hu => ?_, targets_update hs (by rwa [target_entered]), ?_,
    hs.released, ?_, ?_, ?_⟩
  · simp only [granted, entered]
    by_cases hut : u = t
    · subst hut
      simp only [Function.update_self, waiting_entered, hqueue]
      simp
    · simp only [Function.update_of_ne hut, hqueue, hut, ne_eq, not_false_eq_true, true_and]
  · cases hu
    refine ⟨?_, Nat.one_pos⟩
    simp only [granted, entered, Function.update_self, waiting_entered]
  · simp only [granted, entered] at hu
    by_cases hut : u = t
    · exact congrArg some hut.symm
    · rw [Function.update_of_ne hut] at hu
      exact absurd ((hs.restoring u d hu).symm.trans hown) (by simp)
  · have hcount : 1 = s.lock.depth t + 1 := by rw [FIFOLock.depth, hown, if_neg (by simp)]
    exact levels_entered (l := { waiters := ws, owner := some t, count := 1 }) hs rfl hcount (.inl hown) restore
  · simpa [places, granted, entered] using horder
  · simpa [places, granted, entered] using harr
  · intro hnone
    cases hnone

/-- A request joins the queue and sleeps. -/
theorem Consistent.enqueue (hs : s.Consistent) (ht : s.pc t = .idle) (hbusy : s.lock.tryEnter t = none)
    (timed : Bool) {restore : Option Nat} (hd : ∀ d ∈ restore, 0 < d) :
    ({ s with
      lock := s.lock.enqueue t
      notified := Function.update s.notified t false
      place := Function.update s.place t s.arrivals
      arrivals := s.arrivals + 1
      pc := Function.update s.pc t (.asleep timed restore) } : LockWorld τ).Consistent := by
  have hidle : (s.pc t).waiting = false := by rw [ht]; rfl
  have hnew := not_mem_of_idle hs hidle
  have hown : s.lock.owner ≠ some t := fun h => by simp [FIFOLock.tryEnter, h] at hbusy
  -- The new place is behind all others.
  have hplaces : (s.lock.waiters ++ [t]).map (Function.update s.place t s.arrivals) =
      s.lock.waiters.map s.place ++ [s.arrivals] := by
    rw [List.map_append]
    congr 1
    · refine List.map_congr_left fun u hu => ?_
      have hut : u ≠ t := by
        rintro rfl
        exact hnew hu
      rw [Function.update_of_ne hut]
    · simp
  refine ⟨?_, fun u => ?_, fun u hu => ?_, fun u d hu => ?_, targets_update hs hd, hs.levels, hs.released, ?_, ?_, ?_⟩
  · refine List.nodup_append.2 ⟨hs.nodup, List.nodup_singleton t, ?_⟩
    rintro a ha b hb rfl
    rw [List.mem_singleton] at hb
    exact hnew (hb ▸ ha)
  · simp only [FIFOLock.enqueue, List.mem_append, List.mem_singleton]
    by_cases hut : u = t
    · subst hut
      simp [LockPc.waiting]
    · simp only [Function.update_of_ne hut, hut, or_false]
      exact hs.queue u
  · have hut : u ≠ t := fun h => hown (h ▸ hu)
    simp only [Function.update_of_ne hut]
    exact hs.owner u hu
  · dsimp only at hu
    by_cases hut : u = t
    · subst hut
      rw [Function.update_self] at hu
      cases hu
    · rw [Function.update_of_ne hut] at hu
      exact hs.restoring u d hu
  · show (s.grants ++ (s.lock.waiters ++ [t]).map _).Pairwise (· < ·)
    rw [hplaces, ← List.append_assoc, List.pairwise_append]
    refine ⟨hs.order, List.pairwise_singleton _ _, fun a ha b hb => ?_⟩
    rw [List.mem_singleton.1 hb]
    exact hs.arrived a ha
  · show ∀ n ∈ s.grants ++ (s.lock.waiters ++ [t]).map _, n < s.arrivals + 1
    rw [hplaces, ← List.append_assoc]
    intro n hn
    rcases List.mem_append.1 hn with hn | hn
    · exact Nat.lt_succ_of_lt (hs.arrived n hn)
    · rw [List.mem_singleton.1 hn]
      exact Nat.lt_succ_self _
  · -- A free lock that is not taken has a queue, and its front was woken.
    intro hnone u hu
    have hne : s.lock.waiters ≠ [] := fun h => by
      have hfree : s.lock.owner = none := hnone
      simp [FIFOLock.tryEnter, hfree, h] at hbusy
    obtain ⟨w, ws, hws⟩ := List.exists_cons_of_ne_nil hne
    have hwu : w = u := by simpa [FIFOLock.enqueue, hws] using hu
    subst hwu
    have hwt : w ≠ t := fun h => hnew (h ▸ by simp [hws])
    obtain ⟨hn, hpc⟩ := hs.handOver hnone w (by simp [hws])
    simp only [Function.update_of_ne hwt]
    exact ⟨hn, hpc⟩

/-- A waiting thread changes its mind about sleeping, but not at the front of
the queue of a free lock. -/
theorem Consistent.rest (hs : s.Consistent) (ht : (s.pc t).waiting = true) {pc : LockPc} (hpc : pc.waiting = true)
    (htarget : pc.target = (s.pc t).target)
    (hfront : s.lock.owner = none → s.lock.waiters.head? = some t → ∃ timed restore, pc = .awake timed restore) :
    ({ s with pc := Function.update s.pc t pc } : LockWorld τ).Consistent := by
  refine ⟨hs.nodup, fun u => ?_, fun u hu => ?_, fun u d hu => ?_,
    targets_update hs (htarget ▸ hs.targets t), hs.levels, hs.released, hs.order, hs.arrived, ?_⟩
  · by_cases hut : u = t
    · subst hut
      simp only [Function.update_self, hpc, hs.queue u, ht]
    · simp only [Function.update_of_ne hut]
      exact hs.queue u
  · have hut : u ≠ t := by
      rintro rfl
      rw [(hs.owner u hu).1] at ht
      cases ht
    simp only [Function.update_of_ne hut]
    exact hs.owner u hu
  · dsimp only at hu
    by_cases hut : u = t
    · subst hut
      rw [Function.update_self] at hu
      rw [hu] at hpc
      cases hpc
    · rw [Function.update_of_ne hut] at hu
      exact hs.restoring u d hu
  · intro hnone u hu
    obtain ⟨hn, hawake⟩ := hs.handOver hnone u hu
    by_cases hut : u = t
    · subst hut
      simp only [Function.update_self]
      exact ⟨hn, hfront hnone hu⟩
    · simp only [Function.update_of_ne hut]
      exact ⟨hn, hawake⟩

/-- A waiter that does not get the lock leaves the queue. -/
theorem Consistent.leave (hs : s.Consistent) (ht : (s.pc t).waiting = true) (hbusy : s.lock.tryGrant t = none) :
    ({ s with lock := s.lock.giveUp t, pc := Function.update s.pc t .idle } : LockWorld τ).Consistent := by
  have hsub : (s.lock.waiters.erase t).Sublist s.lock.waiters := List.erase_sublist
  have hplaces : (s.grants ++ (s.lock.waiters.erase t).map s.place).Sublist s.places :=
    (List.Sublist.refl _).append (hsub.map s.place)
  refine ⟨hs.nodup.erase t, fun u => ?_, fun u hu => ?_, fun u d hu => ?_, targets_update hs nofun, hs.levels,
    hs.released, hs.order.sublist hplaces, fun n hn => hs.arrived n (hplaces.subset hn), ?_⟩
  · show u ∈ s.lock.waiters.erase t ↔ _
    rw [hs.nodup.mem_erase_iff]
    by_cases hut : u = t
    · subst hut
      simp [LockPc.waiting]
    · simp only [Function.update_of_ne hut, hut, ne_eq, not_false_eq_true, true_and]
      exact hs.queue u
  · have hut : u ≠ t := by
      rintro rfl
      rw [(hs.owner u hu).1] at ht
      cases ht
    simp only [Function.update_of_ne hut]
    exact hs.owner u hu
  · dsimp only at hu
    by_cases hut : u = t
    · subst hut
      rw [Function.update_self] at hu
      cases hu
    · rw [Function.update_of_ne hut] at hu
      exact hs.restoring u d hu
  · intro hnone u hu
    -- The front of a free lock's queue is another thread, and stays the front.
    obtain ⟨w, ws, hws⟩ := List.exists_cons_of_ne_nil (List.ne_nil_of_mem ((hs.queue t).2 ht))
    have hwt : w ≠ t := by
      rintro rfl
      have hfree : s.lock.owner = none := hnone
      simp [FIFOLock.tryGrant, hws, hfree] at hbusy
    have hwu : w = u := by
      have hbeq : (w == t) = false := beq_eq_false_iff_ne.2 hwt
      simpa [FIFOLock.giveUp, hws, List.erase_cons, hbeq] using hu
    subst hwu
    obtain ⟨hn, hawake⟩ := hs.handOver hnone w (by simp [hws])
    simp only [Function.update_of_ne hwt]
    exact ⟨hn, hawake⟩

/-- The owner leaves the lock altogether and notifies the front of the queue. -/
theorem Consistent.free (hs : s.Consistent) (ht : s.pc t = .idle) (hown : s.lock.owner = some t)
    {released : List (Nat × Nat)} (hrel : ∀ x ∈ released, x.1 = x.2) :
    (wake { s with
      lock := { s.lock with owner := none, count := 0 }
      levels := Function.update s.levels t []
      released } s.lock.waiters.head?).Consistent := by
  -- Only the owner was inside, and it leaves all of its levels.
  have hlevels : ∀ u, Function.update s.levels t [] u =
      (List.range (({ s.lock with owner := none, count := 0 } : FIFOLock τ).depth u)).reverse := by
    intro u
    by_cases hut : u = t
    · subst hut
      rw [Function.update_self]
      rfl
    · have hold : s.lock.depth u = 0 := by
        rw [FIFOLock.depth, if_neg]
        rw [hown, Option.some.injEq]
        exact fun h => hut h.symm
      rw [Function.update_of_ne hut, hs.levels u, hold]
      rfl
  -- A thread that restores its levels owns the lock, and the owner is idle.
  have hnotRestoring : ∀ u d, s.pc u ≠ .restoring d := by
    intro u d hu
    have hut : t = u := Option.some.inj (hown.symm.trans (hs.restoring u d hu))
    rw [← hut, ht] at hu
    cases hu
  cases hw : s.lock.waiters.head? with
  | none =>
    refine ⟨hs.nodup, hs.queue, nofun, fun u d hu => absurd hu (hnotRestoring u d), hs.targets, hlevels, hrel,
      hs.order, hs.arrived, fun _ u hu => ?_⟩
    rw [show s.lock.waiters.head? = some u from hu] at hw
    cases hw
  | some w =>
    have hwait : (s.pc w).waiting = true := (hs.queue w).1 (List.mem_of_mem_head? hw)
    -- The front of the queue is woken; a thread that is awake stays so.
    obtain ⟨timed, restore, hawake, htarget⟩ : ∃ timed restore,
        (match s.pc w with
          | .asleep timed restore => Function.update s.pc w (.awake timed restore)
          | _ => s.pc) = Function.update s.pc w (.awake timed restore) ∧ (s.pc w).target = restore := by
      cases hpc : s.pc w with
      | idle => rw [hpc] at hwait; cases hwait
      | restoring d => rw [hpc] at hwait; cases hwait
      | asleep timed restore => exact ⟨timed, restore, rfl, rfl⟩
      | awake timed restore =>
        have hself := Function.update_eq_self w s.pc
        rw [hpc] at hself
        exact ⟨timed, restore, hself.symm, rfl⟩
    refine ⟨hs.nodup, fun u => ?_, nofun, fun u d hu => ?_, ?_, hlevels, hrel, hs.order, hs.arrived, fun _ u hu => ?_⟩
    · simp only [wake, hawake]
      by_cases huw : u = w
      · subst huw
        rw [Function.update_self]
        exact ⟨fun _ => rfl, fun _ => (hs.queue u).2 hwait⟩
      · simp only [Function.update_of_ne huw]
        exact hs.queue u
    · simp only [wake, hawake] at hu
      by_cases huw : u = w
      · subst huw
        rw [Function.update_self] at hu
        cases hu
      · rw [Function.update_of_ne huw] at hu
        exact absurd hu (hnotRestoring u d)
    · simp only [wake, hawake]
      exact targets_update hs (htarget ▸ hs.targets w)
    · have huw : w = u := Option.some.inj (hw.symm.trans hu)
      subst huw
      simp only [wake, hawake, Function.update_self]
      exact ⟨trivial, timed, restore, rfl⟩

/-- The owner's depth changes to another one. -/
theorem Consistent.setCount (hs : s.Consistent) (hown : s.lock.owner = some t) {n : Nat} (hn : 0 < n)
    {released : List (Nat × Nat)} (hrel : ∀ x ∈ released, x.1 = x.2) :
    ({ s with
      lock := { s.lock with count := n }
      pc := Function.update s.pc t .idle
      levels := Function.update s.levels t (List.range n).reverse
      released } : LockWorld τ).Consistent := by
  refine ⟨hs.nodup, fun u => ?_, fun u hu => ?_, fun u d hu => ?_, targets_update hs nofun, fun u => ?_, hrel, hs.order,
    hs.arrived, ?_⟩
  · by_cases hut : u = t
    · subst hut
      simp only [Function.update_self]
      have hout := not_mem_of_idle hs (hs.owner u hown).1
      exact ⟨fun h => absurd h hout, fun h => by cases h⟩
    · simp only [Function.update_of_ne hut]
      exact hs.queue u
  · have hut : u = t := Option.some.inj (hu.symm.trans hown)
    subst hut
    refine ⟨?_, hn⟩
    simp only [Function.update_self]
    rfl
  · dsimp only at hu
    by_cases hut : u = t
    · subst hut
      rw [Function.update_self] at hu
      cases hu
    · rw [Function.update_of_ne hut] at hu
      exact hs.restoring u d hu
  · by_cases hut : u = t
    · subst hut
      have hl : ({ s.lock with count := n } : FIFOLock τ).depth u = n := if_pos hown
      simp only [Function.update_self, hl]
    · have hne : s.lock.owner ≠ some u := by
        rw [hown, ne_eq, Option.some.injEq]
        exact fun h => hut h.symm
      have hl : ({ s.lock with count := n } : FIFOLock τ).depth u = 0 := if_neg hne
      have hold : s.lock.depth u = 0 := if_neg hne
      simp only [Function.update_of_ne hut, hl, hs.levels u, hold]
  · intro hnone
    exact absurd (hown.symm.trans hnone) (by simp)

end Steps

/-! ## Every step keeps it -/

section Run
variable {s s' : LockWorld τ} {t : τ}

theorem Consistent.acquire (hs : s.Consistent) {blocking timed expired : Bool} {restore : Option Nat}
    (hd : ∀ d ∈ restore, 0 < d) (h : s.acquire t blocking timed expired restore = some s') : s'.Consistent := by
  unfold LockWorld.acquire at h
  split at h
  · cases h
  rename_i hidle
  have ht : s.pc t = .idle := by simpa using hidle
  have hout : t ∉ s.lock.waiters := not_mem_of_idle hs (by rw [ht]; rfl)
  cases he : s.lock.tryEnter t with
  | some l =>
    rw [he] at h
    dsimp only at h
    unfold FIFOLock.tryEnter at he
    split at he
    · rename_i hown
      cases he
      rw [if_pos hown] at h
      cases h
      -- The owner enters again.
      exact hs.reenter ht hown hd
    · rename_i hown
      split at he
      · rename_i hfree
        cases he
        rw [if_neg hown] at h
        cases h
        -- The lock is free and nobody waits for it.
        have hlock : ({ s.lock with owner := some t, count := 1 } : FIFOLock τ) =
            { waiters := [], owner := some t, count := 1 } := by simp [hfree.2]
        have hgrants : s.places = s.grants := by rw [places, hfree.2, List.map_nil, List.append_nil]
        rw [hlock]
        refine hs.take hfree.1 hd List.nodup_nil (fun u => ?_) ?_ ?_
        · rw [← hs.queue u, hfree.2]
          simp
        · rw [List.map_nil, List.pairwise_append]
          refine ⟨hgrants ▸ hs.order, List.pairwise_singleton _ _, fun a ha b hb => ?_⟩
          rw [List.mem_singleton.1 hb]
          exact hs.arrived a (hgrants ▸ ha)
        · intro m hm
          rcases List.mem_append.1 hm with hm | hm
          · exact Nat.lt_succ_of_lt (hs.arrived m (hgrants ▸ hm))
          · rw [List.mem_singleton.1 hm]
            exact Nat.lt_succ_self _
      · cases he
  | none =>
    rw [he] at h
    dsimp only at h
    split at h
    · cases h
      exact hs
    -- The thread goes to the end of the queue.
    have hqueued := hs.enqueue ht he timed hd
    split at h
    · -- The time-out was over at once.
      cases h
      have hbusy : (s.lock.enqueue t).tryGrant t = none := by
        unfold FIFOLock.tryGrant
        rw [if_neg]
        rintro ⟨hhead, hnone⟩
        have hne : s.lock.waiters ≠ [] := fun hw => by
          have hfree : s.lock.owner = none := hnone
          simp [FIFOLock.tryEnter, hfree, hw] at he
        obtain ⟨w, ws, hws⟩ := List.exists_cons_of_ne_nil hne
        have hwt : w = t := by simpa [FIFOLock.enqueue, hws] using hhead
        exact hout (hwt ▸ by simp [hws])
      have hleft := hqueued.leave (t := t) (by simp only [Function.update_self]; rfl) hbusy
      have hpc : Function.update (Function.update s.pc t (.asleep timed restore)) t .idle = s.pc := by
        rw [Function.update_idem, ← ht, Function.update_eq_self]
      simp only [hpc] at hleft
      exact hleft
    · cases h
      exact hqueued

theorem Consistent.look (hs : s.Consistent) {expired : Bool} (h : s.look t expired = some s') : s'.Consistent := by
  unfold LockWorld.look at h
  split at h
  · rename_i timed restore hpc
    have hwait : (s.pc t).waiting = true := by rw [hpc]; rfl
    cases hg : s.lock.tryGrant t with
    | some l =>
      rw [hg] at h
      cases h
      unfold FIFOLock.tryGrant at hg
      split at hg
      · rename_i hfront
        cases hg
        obtain ⟨w, ws, hws⟩ := List.exists_cons_of_ne_nil (List.ne_nil_of_mem ((hs.queue t).2 hwait))
        have hwt : w = t := by simpa [hws] using hfront.1
        subst hwt
        have hnd := hs.nodup
        rw [hws, List.nodup_cons] at hnd
        have hplaces : s.places = s.grants ++ s.place w :: ws.map s.place := by rw [places, hws, List.map_cons]
        have htail : s.lock.waiters.tail = ws := by rw [hws]; rfl
        rw [htail]
        have hd : ∀ d ∈ restore, 0 < d := by
          have htarget := hs.targets w
          rw [hpc] at htarget
          exact htarget
        refine hs.take hfront.2 hd hnd.2 (fun u => ?_) (hplaces ▸ hs.order) (hplaces ▸ hs.arrived)
        · rw [← hs.queue u, hws, List.mem_cons]
          constructor
          · intro hu
            exact ⟨fun huw => hnd.1 (huw ▸ hu), .inr hu⟩
          · rintro ⟨hne, hu⟩
            exact hu.resolve_left hne
      · cases hg
    | none =>
      rw [hg] at h
      dsimp only at h
      split at h
      · cases h
        exact hs.leave hwait hg
      · cases h
        refine hs.rest hwait rfl (by rw [hpc]; rfl) fun hnone hhead => ?_
        simp [FIFOLock.tryGrant, hnone, hhead] at hg
  · cases h

/-- A section of `release` by the owner that stays inside. -/
theorem Consistent.release (hs : s.Consistent) (ht : s.pc t = .idle) {l : FIFOLock τ} {notify : Option τ}
    (h : s.lock.release t = some (l, notify)) :
    (wake { s with
      lock := l
      levels := Function.update s.levels t (s.levels t).tail
      released := s.released ++ [(l.depth t, (s.levels t).headD 0)] } notify).Consistent := by
  unfold FIFOLock.release at h
  split at h
  · cases h
  rename_i hne
  have hown : s.lock.owner = some t := by simpa using hne
  have hpos : 0 < s.lock.count := (hs.owner t hown).2
  obtain ⟨n, hn⟩ : ∃ n, s.lock.count = n + 1 := Nat.exists_eq_succ_of_ne_zero (Nat.ne_of_gt hpos)
  have hlevels : s.levels t = n :: (List.range n).reverse := by
    rw [hs.levels t, FIFOLock.depth, if_pos hown, hn, reverse_range_succ]
  have hrel : ∀ l : FIFOLock τ, l.depth t = n →
      ∀ x ∈ s.released ++ [(l.depth t, (s.levels t).headD 0)], x.1 = x.2 := by
    intro l hl x hx
    rcases List.mem_append.1 hx with hx | hx
    · exact hs.released x hx
    · rw [List.mem_singleton.1 hx, hlevels]
      exact hl
  split at h
  · rename_i hzero
    cases h
    have hn0 : n = 0 := by omega
    subst hn0
    have htail : (s.levels t).tail = [] := by rw [hlevels]; rfl
    rw [htail]
    exact hs.free ht hown (hrel _ rfl)
  · rename_i hpos
    cases h
    have hcount : s.lock.count - 1 = n := by omega
    have hpc : Function.update s.pc t .idle = s.pc := by rw [← ht, Function.update_eq_self]
    have hdepth : ({ s.lock with count := s.lock.count - 1 } : FIFOLock τ).depth t = n := by
      rw [← hcount]
      exact if_pos hown
    have hset := hs.setCount hown (n := n) (by omega) (hrel _ hdepth)
    rw [hpc] at hset
    have htail : (s.levels t).tail = (List.range n).reverse := by rw [hlevels]; rfl
    rw [htail, hcount]
    rw [hcount] at hset
    exact hset

/-- The step lemma. -/
theorem Consistent.step (hs : s.Consistent) {op : LockOp τ} (h : s.step op = some s') : s'.Consistent := by
  cases op with
  | acquire t blocking timed expired => exact hs.acquire (fun d hd => by cases hd) h
  | timer t =>
    simp only [LockWorld.step] at h
    split at h
    · rename_i restore hpc
      cases h
      refine hs.rest (by rw [hpc]; rfl) rfl (by rw [hpc]; rfl) fun _ _ => ⟨true, restore, rfl⟩
    · cases h
  | look t expired => exact hs.look h
  | release t =>
    simp only [LockWorld.step] at h
    split at h
    · cases h
    rename_i hidle
    cases hr : s.lock.release t with
    | none =>
      rw [hr] at h
      cases h
      exact hs
    | some r =>
      rw [hr] at h
      cases h
      exact hs.release (by simpa using hidle) hr
  | releaseAll t =>
    simp only [LockWorld.step] at h
    split at h
    · cases h
    rename_i hidle
    cases hr : s.lock.releaseAll t with
    | none =>
      rw [hr] at h
      cases h
      exact hs
    | some r =>
      rw [hr] at h
      cases h
      unfold FIFOLock.releaseAll at hr
      split at hr
      · cases hr
      · rename_i hne
        cases hr
        exact hs.free (by simpa using hidle) (by simpa using hne) hs.released
  | reacquire t depth =>
    simp only [LockWorld.step] at h
    split at h
    · cases h
      exact hs
    · rename_i hpos
      refine hs.acquire (fun d hd => ?_) h
      cases hd
      omega
  | restore t =>
    simp only [LockWorld.step] at h
    split at h
    · rename_i depth hpc
      cases h
      have htarget : 0 < depth := hs.targets t depth (by rw [hpc]; rfl)
      exact hs.setCount (hs.restoring t depth hpc) htarget hs.released
    · cases h

end Run

theorem consistent_init : (({} : LockWorld τ)).Consistent :=
  ⟨List.nodup_nil, fun _ => by simp [LockPc.waiting], nofun, nofun, nofun, fun _ => rfl, nofun, List.Pairwise.nil, nofun,
    nofun⟩

/-- In every run of any threads the lock is a fair reentrant mutex. -/
theorem fairMutex_of_reaches {s : LockWorld τ} (h : Reaches step (fun _ _ => True) {} s) : s.FairMutex := by
  refine Consistent.fairMutex ?_
  exact h.invariant consistent_init fun _ _ _ hs _ ht => hs.step ht

/-- Thread 0 goes two levels deep, hands the lock over in the middle and comes
back; 1 and 3 queue for it, 2 times out in between. -/
def handOverOps : List (LockOp Nat) :=
  [.acquire 0 true false false, .acquire 0 true false false, .acquire 1 true false false, .acquire 2 true true false,
    .acquire 3 false false false, .acquire 3 true true false, .timer 2, .look 2 true, .releaseAll 0, .reacquire 0 2,
    .look 1 false, .release 1, .look 3 false, .release 3, .look 0 false, .restore 0, .release 0, .release 2]

theorem fairMutex_of_reaches_handOver :
    ∃ s, exec step ({} : LockWorld Nat) handOverOps = some s ∧ s.FairMutex ∧ s.grants = [0, 1, 3, 4] ∧
      s.lock.owner = some 0 ∧ s.lock.count = 1 := by
  have hrun : (exec step ({} : LockWorld Nat) handOverOps).map
      (fun s => (s.grants, s.lock.owner, s.lock.count)) = some ([0, 1, 3, 4], some 0, 1) := by decide +kernel
  obtain ⟨s, hs, hval⟩ := Option.map_eq_some_iff.1 hrun
  simp only [Prod.mk.injEq] at hval
  exact ⟨s, hs, fairMutex_of_reaches (reaches_of_exec .init hs), hval⟩

end LockWorld

end AgentSdk
