import AgentSdk.FifoLock
import Mathlib.Data.List.Dedup
import Mathlib.Data.List.Sort
import Mathlib.Logic.Relation
/-!
# Resource locks

`ResourceLockManager.lock`: a thread takes the FIFO locks of its keys in sorted
order. A lock is created for the first thread that refers to a key and dropped
with the last reference; the threads hold on to lock objects, the table maps
keys to them. What runs under the manager's own lock is one step, except that
`_release_lock` releases the FIFO lock in the middle, where others can take it.
-/

namespace AgentSdk
open Lib

variable {τ κ : Type} [DecidableEq τ] [LinearOrder κ]

/-! ## Threads -/

/-- Where a thread is in `lock`; a lock object is named by a number. `acquired`
are the keys it has, `todo` those it still has to take. -/
inductive ResourcePc (κ : Type) where
  | idle
  | seeking (todo acquired : List κ)
  | entering (key : κ) (lock : Nat) (todo acquired : List κ)
  | queued (key : κ) (lock : Nat) (todo acquired : List κ)
  | timedOut (key : κ) (acquired : List κ)
  | inside (acquired : List κ)
  | releasing (rest : List κ)
  | unlocked (key : κ) (rest : List κ)
  | crashed

namespace ResourcePc

/-- The keys a thread holds. -/
def held : ResourcePc κ → List κ
  | .seeking _ acquired | .entering _ _ _ acquired | .queued _ _ _ acquired | .timedOut _ acquired | .inside acquired =>
    acquired
  | .releasing rest | .unlocked _ rest => rest
  | .idle | .crashed => []

/-- The key a thread is trying to get, until it has it or has given up. -/
def attempt : ResourcePc κ → Option κ
  | .entering key _ _ _ | .queued key _ _ _ | .timedOut key _ => some key
  | _ => none

/-- The key whose reference is given back in the section that the thread is in. -/
def unlocking : ResourcePc κ → Option κ
  | .unlocked key _ => some key
  | _ => none

/-- The lock object that a thread has in hand, with its key. -/
def object : ResourcePc κ → Option (κ × Nat)
  | .entering key lock _ _ | .queued key lock _ _ => some (key, lock)
  | _ => none

/-- The key for which a thread is in a queue. -/
def queue : ResourcePc κ → Option κ
  | .queued key _ _ _ => some key
  | _ => none

/-- The keys a thread refers to. -/
def refs (pc : ResourcePc κ) : List κ := pc.held ++ (pc.attempt.toList ++ pc.unlocking.toList)

/-- All keys of the call that are not dealt with, in the order of the call. -/
def keys : ResourcePc κ → List κ
  | .seeking todo acquired => acquired ++ todo
  | .entering key _ todo acquired | .queued key _ todo acquired => acquired ++ key :: todo
  | .timedOut key acquired => acquired ++ [key]
  | .inside acquired => acquired
  | .releasing rest => rest.reverse
  | .unlocked key rest => (key :: rest).reverse
  | .idle | .crashed => []

end ResourcePc

inductive ResourceOp (τ κ : Type) where
  | call (t : τ) (keys : List κ)
  | getLock (t : τ)
  | enter (t : τ) (expired : Bool)
  | look (t : τ) (expired : Bool)
  | undo (t : τ)
  | enterBlock (t : τ)
  | leaveBlock (t : τ)
  | release (t : τ)
  | drop (t : τ)
  | finish (t : τ)

/-- The manager, the lock objects and the threads. Kept for the statement only:
the keys that a thread's last call acquired, and those it released. -/
structure ResourceWorld (τ κ : Type) where
  locks : κ → Option Nat := fun _ => none
  refcounts : κ → Option Nat := fun _ => none
  metaLock : Option τ := none
  objects : Nat → FIFOLock τ := fun _ => {}
  nextObject : Nat := 0
  pc : τ → ResourcePc κ := fun _ => .idle
  taken : τ → List κ := fun _ => []
  given : τ → List κ := fun _ => []

namespace ResourceWorld

def move (s : ResourceWorld τ κ) (t : τ) (pc : ResourcePc κ) : ResourceWorld τ κ :=
  { s with pc := Function.update s.pc t pc }

/-- `_get_lock`. -/
def getLock (s : ResourceWorld τ κ) (key : κ) : ResourceWorld τ κ × Nat :=
  let refcounts := Function.update s.refcounts key (some ((s.refcounts key).getD 0 + 1))
  match s.locks key with
  | some id => ({ s with refcounts }, id)
  | none =>
    ({ s with
      refcounts
      locks := Function.update s.locks key (some s.nextObject)
      objects := Function.update s.objects s.nextObject {}
      nextObject := s.nextObject + 1 }, s.nextObject)

/-- One reference less, and the entry is dropped with the last one; `none` for
a `KeyError`. -/
def dropRef (s : ResourceWorld τ κ) (key : κ) : Option (ResourceWorld τ κ) :=
  match s.refcounts key with
  | none => none
  | some n =>
    if n = 1 ∧ ((s.locks key).all fun id => (s.objects id).owner = none) then
      some { s with
        refcounts := Function.update s.refcounts key none
        locks := Function.update s.locks key none }
    else some { s with refcounts := Function.update s.refcounts key (some (n - 1)) }

/-- The thread has the lock of `key`, which is now `l`. -/
def acquired (s : ResourceWorld τ κ) (t : τ) (key : κ) (id : Nat) (l : FIFOLock τ) (todo acq : List κ) :
    ResourceWorld τ κ :=
  { s.move t (.seeking todo (acq ++ [key])) with
    objects := Function.update s.objects id l
    taken := Function.update s.taken t (s.taken t ++ [key]) }

/-- A step of a thread. An exception that the code does not expect ends in `crashed`. -/
def step (s : ResourceWorld τ κ) : ResourceOp τ κ → Option (ResourceWorld τ κ)
  | .call t keys =>
    match s.pc t with
    | .idle =>
      some { s.move t (.seeking (keys.dedup.insertionSort (· ≤ ·)) []) with
        taken := Function.update s.taken t []
        given := Function.update s.given t [] }
    | _ => none
  | .getLock t =>
    match s.pc t, s.metaLock with
    | .seeking (key :: todo) acq, none =>
      some ((s.getLock key).1.move t (.entering key (s.getLock key).2 todo acq))
    | _, _ => none
  | .enter t expired =>
    match s.pc t with
    | .entering key id todo acq =>
      match (s.objects id).tryEnter t with
      | some l => some (s.acquired t key id l todo acq)
      | none =>
        if expired then
          some { s.move t (.timedOut key acq) with
            objects := Function.update s.objects id (((s.objects id).enqueue t).giveUp t) }
        else
          some { s.move t (.queued key id todo acq) with
            objects := Function.update s.objects id ((s.objects id).enqueue t) }
    | _ => none
  | .look t expired =>
    match s.pc t with
    | .queued key id todo acq =>
      match (s.objects id).tryGrant t with
      | some l => some (s.acquired t key id l todo acq)
      | none =>
        if expired then
          some { s.move t (.timedOut key acq) with
            objects := Function.update s.objects id ((s.objects id).giveUp t) }
        else some s
    | _ => none
  | .undo t =>
    match s.pc t, s.metaLock with
    | .timedOut key acq, none =>
      match s.dropRef key with
      | some s => some (s.move t (.releasing acq.reverse))
      | none => some (s.move t .crashed)
    | _, _ => none
  | .enterBlock t =>
    match s.pc t with
    | .seeking [] acq => some (s.move t (.inside acq))
    | _ => none
  | .leaveBlock t =>
    match s.pc t with
    | .inside acq => some (s.move t (.releasing acq.reverse))
    | _ => none
  | .release t =>
    match s.pc t, s.metaLock with
    | .releasing (key :: rest), none =>
      match s.locks key with
      | none => some (s.move t (.releasing rest))
      | some id =>
        match (s.objects id).release t with
        | none => some (s.move t .crashed)
        | some (l, _) =>
          some { s.move t (.unlocked key rest) with
            metaLock := some t
            objects := Function.update s.objects id l
            given := Function.update s.given t (s.given t ++ [key]) }
    | _, _ => none
  | .drop t =>
    match s.pc t with
    | .unlocked key rest =>
      match s.dropRef key with
      | some s => some { s.move t (.releasing rest) with metaLock := none }
      | none => some { s.move t .crashed with metaLock := none }
    | _ => none
  | .finish t =>
    match s.pc t with
    | .releasing [] => some (s.move t .idle)
    | _ => none

/-! ## What has to hold -/

/-- The lock in the table under the key is the thread's. -/
def Owns (s : ResourceWorld τ κ) (t : τ) (key : κ) : Prop :=
  ∃ id, s.locks key = some id ∧ (s.objects id).owner = some t

/-- A thread in the queue of a lock waits for the owner and for those before it. -/
def WaitsFor (s : ResourceWorld τ κ) (t u : τ) : Prop :=
  ∃ key id todo acq, s.pc t = .queued key id todo acq ∧
    ((s.objects id).owner = some u ∨
      u ∈ (s.objects id).waiters ∧ (s.objects id).waiters.idxOf u < (s.objects id).waiters.idxOf t)

/-- The number of threads with a property. -/
def Counts (p : τ → Prop) (n : Nat) : Prop := ∃ ts : List τ, ts.Nodup ∧ (∀ t, t ∈ ts ↔ p t) ∧ ts.length = n

structure Safe (s : ResourceWorld τ κ) : Prop where
  exclusive : ∀ t u key, key ∈ (s.pc t).held → key ∈ (s.pc u).held → t = u
  owned : ∀ t key, s.Owns t key ↔ key ∈ (s.pc t).held
  acyclic : ∀ t, ¬ Relation.TransGen s.WaitsFor t t
  noError : ∀ t, s.pc t ≠ .crashed
  released : ∀ t, s.pc t = .idle → s.given t = (s.taken t).reverse
  refcount : s.metaLock = none → ∀ key,
    Counts (fun t => key ∈ (s.pc t).held ∨ (s.pc t).attempt = some key) ((s.refcounts key).getD 0)
  empty : (∀ t, (s.pc t).held = [] ∧ (s.pc t).attempt = none) → s.metaLock = none →
    ∀ key, s.locks key = none ∧ s.refcounts key = none

/-! ## The invariant -/

/-- The entry of a key: its reference count is the number of threads that refer
to it, and its lock object is the one they all have in hand. -/
structure KeyOk (s : ResourceWorld τ κ) (key : κ) : Prop where
  users : ∃ ts : List τ, ts.Nodup ∧ (∀ t, t ∈ ts ↔ key ∈ (s.pc t).refs) ∧
    s.refcounts key = (if ts = [] then none else some ts.length) ∧ (s.locks key = none ↔ ts = [])
  object : ∀ t id, (s.pc t).object = some (key, id) → s.locks key = some id
  owner : ∀ id, s.locks key = some id → ∀ t, (s.objects id).owner = some t ↔ key ∈ (s.pc t).held
  count : ∀ id, s.locks key = some id → (s.objects id).owner ≠ none → (s.objects id).count = 1
  queue : ∀ id, s.locks key = some id → ∀ t, t ∈ (s.objects id).waiters ↔ (s.pc t).queue = some key
  nodup : ∀ id, s.locks key = some id → (s.objects id).waiters.Nodup

/-- What the last call acquired and released so far. -/
def Recorded (taken given : List κ) : ResourcePc κ → Prop
  | .idle => given = taken.reverse
  | .releasing rest | .unlocked _ rest => taken.reverse = given ++ rest
  | .crashed => True
  | pc => taken = pc.held ∧ given = []

structure Consistent (s : ResourceWorld τ κ) : Prop where
  keyOk : ∀ key, s.KeyOk key
  sorted : ∀ t, (s.pc t).keys.Pairwise (· < ·)
  noError : ∀ t, s.pc t ≠ .crashed
  ids : ∀ key id, s.locks key = some id → id < s.nextObject
  inj : ∀ key key' id, s.locks key = some id → s.locks key' = some id → key = key'
  inMeta : ∀ t, (s.pc t).unlocking.isSome → s.metaLock = some t
  recorded : ∀ t, Recorded (s.taken t) (s.given t) (s.pc t)

/-- A thread's move means nothing to the key. -/
structure SameFor (key : κ) (pc pc' : ResourcePc κ) : Prop where
  refs : key ∈ pc'.refs ↔ key ∈ pc.refs
  held : key ∈ pc'.held ↔ key ∈ pc.held
  queue : pc'.queue = some key ↔ pc.queue = some key
  object : ∀ id, pc'.object = some (key, id) → pc.object = some (key, id)

section Steps
variable {s s' : ResourceWorld τ κ} {t : τ} {key : κ} {p : ResourcePc κ}

omit [LinearOrder κ] in
theorem update_iff (P : ResourcePc κ → Prop) (pc : τ → ResourcePc κ) (t u : τ) (h : P p ↔ P (pc t)) :
    P (Function.update pc t p u) ↔ P (pc u) := by
  by_cases hu : u = t
  · subst hu
    rw [Function.update_self, h]
  · rw [Function.update_of_ne hu]

omit [LinearOrder κ] in
theorem KeyOk.frame (h : s.KeyOk key) (hpc : s'.pc = Function.update s.pc t p) (hsame : SameFor key (s.pc t) p)
    (hlocks : s'.locks key = s.locks key) (hrefs : s'.refcounts key = s.refcounts key)
    (hobj : ∀ id, s.locks key = some id → s'.objects id = s.objects id) : s'.KeyOk key := by
  obtain ⟨ts, hnd, hmem, hcount, hnone⟩ := h.users
  refine ⟨⟨ts, hnd, fun u => ?_, hrefs ▸ hcount, hlocks ▸ hnone⟩, fun u id hu => ?_, fun id hid u => ?_,
    fun id hid ho => ?_, fun id hid u => ?_, fun id hid => ?_⟩
  · rw [hmem u, hpc]
    exact (update_iff (fun pc => key ∈ pc.refs) s.pc t u hsame.refs).symm
  · rw [hlocks]
    rw [hpc] at hu
    by_cases hut : u = t
    · subst hut
      rw [Function.update_self] at hu
      exact h.object u id (hsame.object id hu)
    · rw [Function.update_of_ne hut] at hu
      exact h.object u id hu
  · rw [hlocks] at hid
    rw [hobj id hid, h.owner id hid u, hpc]
    exact (update_iff (fun pc => key ∈ pc.held) s.pc t u hsame.held).symm
  · rw [hlocks] at hid
    rw [hobj id hid] at ho ⊢
    exact h.count id hid ho
  · rw [hlocks] at hid
    rw [hobj id hid, h.queue id hid u, hpc]
    exact (update_iff (fun pc => pc.queue = some key) s.pc t u hsame.queue).symm
  · rw [hlocks] at hid
    rw [hobj id hid]
    exact h.nodup id hid

omit [DecidableEq τ] in
/-- Lock objects of other keys are other objects. -/
theorem Consistent.object_ne (hs : s.Consistent) {key' : κ} (hne : key' ≠ key) {id id' : Nat}
    (h : s.locks key = some id) (h' : s.locks key' = some id') : id' ≠ id := by
  rintro rfl
  exact hne (hs.inj _ _ _ h' h)

/-- A step of a thread: what is to be shown of the new state, besides the keys. -/
theorem Consistent.of_keys (hs : s.Consistent) (hpc : s'.pc = Function.update s.pc t p)
    (hkeys : ∀ key, s'.KeyOk key) (hsorted : p.keys.Pairwise (· < ·)) (herr : p ≠ .crashed)
    (hids : ∀ key id, s'.locks key = some id → id < s'.nextObject)
    (hinj : ∀ key key' id, s'.locks key = some id → s'.locks key' = some id → key = key')
    (hmeta : ∀ u, (s'.pc u).unlocking.isSome → s'.metaLock = some u)
    (hother : ∀ u, u ≠ t → s'.taken u = s.taken u ∧ s'.given u = s.given u)
    (hrec : Recorded (s'.taken t) (s'.given t) p) : s'.Consistent := by
  refine ⟨hkeys, fun u => ?_, fun u => ?_, hids, hinj, hmeta, fun u => ?_⟩
  · rw [hpc]
    by_cases hut : u = t
    · subst hut
      rwa [Function.update_self]
    · rw [Function.update_of_ne hut]
      exact hs.sorted u
  · rw [hpc]
    by_cases hut : u = t
    · subst hut
      rwa [Function.update_self]
    · rw [Function.update_of_ne hut]
      exact hs.noError u
  · rw [hpc]
    by_cases hut : u = t
    · subst hut
      rwa [Function.update_self]
    · rw [Function.update_of_ne hut, (hother u hut).1, (hother u hut).2]
      exact hs.recorded u

/-- A thread in none of the manager's sections moves to another such place. -/
theorem Consistent.inMeta_update (hs : s.Consistent) (hp : p.unlocking = none) (u : τ)
    (h : (Function.update s.pc t p u).unlocking.isSome) : s.metaLock = some u := by
  by_cases hut : u = t
  · subst hut
    rw [Function.update_self, hp] at h
    cases h
  · rw [Function.update_of_ne hut] at h
    exact hs.inMeta u h

/-- A move between the sections, which changes nothing for any key. -/
theorem Consistent.moved (hs : s.Consistent) (hsame : ∀ key, SameFor key (s.pc t) p) (hsorted : p.keys.Pairwise (· < ·))
    (herr : p ≠ .crashed) (hp : p.unlocking = none) {taken given : τ → List κ}
    (hother : ∀ u, u ≠ t → taken u = s.taken u ∧ given u = s.given u) (hrec : Recorded (taken t) (given t) p) :
    ({ s.move t p with taken, given } : ResourceWorld τ κ).Consistent := by
  refine hs.of_keys (t := t) (p := p) rfl (fun key => ?_) hsorted herr hs.ids hs.inj (hs.inMeta_update hp) hother hrec
  exact (hs.keyOk key).frame (t := t) (p := p) rfl (hsame key) rfl rfl fun _ _ => rfl

/-- The lock object of one key changes, with a move of one thread that means
nothing to other keys. -/
theorem Consistent.changed (hs : s.Consistent) {id : Nat} (hid : s.locks key = some id) {l : FIFOLock τ}
    (hsame : ∀ key', key' ≠ key → SameFor key' (s.pc t) p) (hrefs : key ∈ p.refs ↔ key ∈ (s.pc t).refs)
    (hobject : ∀ id', p.object = some (key, id') → id' = id)
    (howner : ∀ u, l.owner = some u ↔ key ∈ (Function.update s.pc t p u).held) (hcount : l.owner ≠ none → l.count = 1)
    (hqueue : ∀ u, u ∈ l.waiters ↔ (Function.update s.pc t p u).queue = some key) (hnodup : l.waiters.Nodup)
    (hsorted : p.keys.Pairwise (· < ·)) (herr : p ≠ .crashed) {metaLock : Option τ}
    (hmeta : ∀ u, (Function.update s.pc t p u).unlocking.isSome → metaLock = some u) {taken given : τ → List κ}
    (hother : ∀ u, u ≠ t → taken u = s.taken u ∧ given u = s.given u) (hrec : Recorded (taken t) (given t) p) :
    ({ s.move t p with objects := Function.update s.objects id l, metaLock, taken, given } :
      ResourceWorld τ κ).Consistent := by
  refine hs.of_keys (t := t) (p := p) rfl (fun key' => ?_) hsorted herr hs.ids hs.inj hmeta hother hrec
  by_cases hk : key' = key
  · subst hk
    obtain ⟨ts, hnd, hmem, hnum, hnone⟩ := (hs.keyOk key').users
    have hsame_id : ∀ id', s.locks key' = some id' → id' = id := fun id' h => Option.some.inj (h.symm.trans hid)
    refine ⟨⟨ts, hnd, fun u => ?_, hnum, hnone⟩, fun u id' hu => ?_, fun id' h u => ?_, fun id' h => ?_, fun id' h u => ?_,
      fun id' h => ?_⟩
    · rw [hmem u]
      exact (update_iff (fun pc => key' ∈ pc.refs) s.pc t u hrefs).symm
    · simp only [move] at hu ⊢
      by_cases hut : u = t
      · subst hut
        rw [Function.update_self] at hu
        rw [hid, hobject id' hu]
      · rw [Function.update_of_ne hut] at hu
        exact (hs.keyOk key').object u id' hu
    · rw [hsame_id id' h]
      simp only [Function.update_self]
      exact howner u
    · rw [hsame_id id' h]
      simp only [Function.update_self]
      exact hcount
    · rw [hsame_id id' h]
      simp only [Function.update_self]
      exact hqueue u
    · rw [hsame_id id' h]
      simp only [Function.update_self]
      exact hnodup
  · refine (hs.keyOk key').frame (t := t) (p := p) rfl (hsame key' hk) rfl rfl fun id' h => ?_
    exact Function.update_of_ne (hs.object_ne hk hid h) _ _

/-! ### The keys of a call are sorted -/

theorem not_mem_of_sorted {acq todo : List κ} (h : (acq ++ key :: todo).Pairwise (· < ·)) : key ∉ acq := fun hmem =>
  absurd ((List.pairwise_append.1 h).2.2 key hmem key List.mem_cons_self) (lt_irrefl key)

theorem sorted_acquired {acq todo : List κ} (h : (acq ++ key :: todo).Pairwise (· < ·)) :
    (acq ++ [key] ++ todo).Pairwise (· < ·) := by simpa using h

theorem sorted_attempt {acq todo : List κ} (h : (acq ++ key :: todo).Pairwise (· < ·)) :
    (acq ++ [key]).Pairwise (· < ·) := by
  refine h.sublist ?_
  simp

/-! ### Steps at a lock object -/

variable {id : Nat} {todo acq : List κ}

/-- A free lock is taken. -/
theorem Consistent.acquire (hs : s.Consistent)
    (hpc : s.pc t = .entering key id todo acq ∨ s.pc t = .queued key id todo acq)
    (hfree : (s.objects id).owner = none) {ws : List τ} (hws : ∀ u, u ∈ ws ↔ u ≠ t ∧ u ∈ (s.objects id).waiters)
    (hnodup : ws.Nodup) :
    (s.acquired t key id { waiters := ws, owner := some t, count := 1 } todo acq).Consistent := by
  have hsorted : (acq ++ key :: todo).Pairwise (· < ·) := by
    have hst := hs.sorted t
    rcases hpc with h | h <;> rw [h] at hst <;> exact hst
  have hid : s.locks key = some id := by
    refine (hs.keyOk key).object t id ?_
    rcases hpc with h | h <;> rw [h] <;> rfl
  have hrec : s.taken t = acq ∧ s.given t = [] := by
    have hr := hs.recorded t
    rcases hpc with h | h <;> rw [h] at hr <;> exact hr
  refine hs.changed (p := .seeking todo (acq ++ [key])) hid (fun key' hk => ?_) ?_ nofun (fun u => ?_) (fun _ => rfl)
    (fun u => ?_) hnodup (sorted_acquired hsorted) (by simp) (hs.inMeta_update rfl) (fun u hu => ?_) ?_
  · have hk' := hk.symm
    rcases hpc with h | h <;> rw [h] <;>
      exact ⟨by simp [ResourcePc.refs, ResourcePc.held, ResourcePc.attempt, ResourcePc.unlocking, hk],
        by simp [ResourcePc.held, hk], by simp [ResourcePc.queue, hk'], by simp [ResourcePc.object]⟩
  · rcases hpc with h | h <;> rw [h] <;>
      simp [ResourcePc.refs, ResourcePc.held, ResourcePc.attempt, ResourcePc.unlocking]
  · by_cases hut : u = t
    · subst hut
      simp [ResourcePc.held]
    · rw [Function.update_of_ne hut, ← (hs.keyOk key).owner id hid u, hfree]
      simp [Ne.symm hut]
  · rw [hws u]
    by_cases hut : u = t
    · subst hut
      simp [ResourcePc.queue]
    · rw [Function.update_of_ne hut, (hs.keyOk key).queue id hid u]
      simp [hut]
  · exact ⟨Function.update_of_ne hu _ _, rfl⟩
  · refine ⟨?_, hrec.2⟩
    rw [Function.update_self, hrec.1]
    rfl

attribute [local simp] step

theorem Consistent.enter (hs : s.Consistent) (hpc : s.pc t = .entering key id todo acq) {expired : Bool}
    (h : s.step (.enter t expired) = some s') : s'.Consistent := by
  have hsorted : (acq ++ key :: todo).Pairwise (· < ·) := by
    have hst := hs.sorted t
    rwa [hpc] at hst
  have hid : s.locks key = some id := (hs.keyOk key).object t id (by rw [hpc]; rfl)
  have hrec : s.taken t = acq ∧ s.given t = [] := by
    have hr := hs.recorded t
    rwa [hpc] at hr
  have hown : (s.objects id).owner ≠ some t := by
    rw [ne_eq, (hs.keyOk key).owner id hid t, hpc]
    exact not_mem_of_sorted hsorted
  -- A thread that enters neither owns the lock nor waits for it.
  have hout : t ∉ (s.objects id).waiters := by
    rw [(hs.keyOk key).queue id hid t, hpc]
    simp [ResourcePc.queue]
  simp only [step, hpc] at h
  cases he : (s.objects id).tryEnter t with
  | some l =>
    rw [he] at h
    cases h
    rw [FIFOLock.tryEnter, if_neg hown] at he
    split at he
    · rename_i hfree
      cases he
      have hlock : ({ s.objects id with owner := some t, count := 1 } : FIFOLock τ) =
          { waiters := [], owner := some t, count := 1 } := by simp [hfree.2]
      rw [hlock]
      exact hs.acquire (.inl hpc) hfree.1 (fun u => by simp [hfree.2]) List.nodup_nil
    · cases he
  | none =>
    rw [he] at h
    dsimp only at h
    split at h
    · -- The time-out was over at once; the queue is as before.
      cases h
      have hsame : ((s.objects id).enqueue t).giveUp t = s.objects id := by
        simp [FIFOLock.enqueue, FIFOLock.giveUp, List.erase_append_right _ hout]
      rw [hsame]
      refine hs.changed (p := .timedOut key acq) hid (fun key' hk => ?_) ?_ (fun _ h => by cases h) (fun u => ?_)
        ((hs.keyOk key).count id hid) (fun u => ?_) ((hs.keyOk key).nodup id hid) (sorted_attempt hsorted) (by simp)
        (hs.inMeta_update rfl) (fun _ _ => ⟨rfl, rfl⟩) hrec
      · rw [hpc]
        exact ⟨by simp [ResourcePc.refs, ResourcePc.held, ResourcePc.attempt, ResourcePc.unlocking],
          by simp [ResourcePc.held], by simp [ResourcePc.queue], by simp [ResourcePc.object]⟩
      · rw [hpc]
        simp [ResourcePc.refs, ResourcePc.held, ResourcePc.attempt, ResourcePc.unlocking]
      · rw [(hs.keyOk key).owner id hid u]
        exact (update_iff (fun pc => key ∈ pc.held) s.pc t u (by rw [hpc]; rfl)).symm
      · rw [(hs.keyOk key).queue id hid u]
        exact (update_iff (fun pc => pc.queue = some key) s.pc t u (by rw [hpc]; rfl)).symm
    · cases h
      refine hs.changed (p := .queued key id todo acq) (l := (s.objects id).enqueue t) hid (fun key' hk => ?_) ?_ (fun id' h => ?_) (fun u => ?_)
        ((hs.keyOk key).count id hid) (fun u => ?_) ?_ hsorted (by simp) (hs.inMeta_update rfl) (fun _ _ => ⟨rfl, rfl⟩) hrec
      · have hk' := hk.symm
        rw [hpc]
        exact ⟨by simp [ResourcePc.refs, ResourcePc.held, ResourcePc.attempt, ResourcePc.unlocking],
          by simp [ResourcePc.held], by simp [ResourcePc.queue, hk'], by simp [ResourcePc.object]⟩
      · rw [hpc]
        simp [ResourcePc.refs, ResourcePc.held, ResourcePc.attempt, ResourcePc.unlocking]
      · cases h
        rfl
      · rw [FIFOLock.enqueue, (hs.keyOk key).owner id hid u]
        exact (update_iff (fun pc => key ∈ pc.held) s.pc t u (by rw [hpc]; rfl)).symm
      · rw [FIFOLock.enqueue, List.mem_append, List.mem_singleton, (hs.keyOk key).queue id hid u]
        by_cases hut : u = t
        · subst hut
          simp [ResourcePc.queue]
        · rw [Function.update_of_ne hut]
          simp [hut]
      · rw [FIFOLock.enqueue, List.nodup_append]
        refine ⟨(hs.keyOk key).nodup id hid, List.nodup_singleton t, ?_⟩
        rintro a ha b hb rfl
        rw [List.mem_singleton] at hb
        exact hout (hb ▸ ha)

theorem Consistent.look (hs : s.Consistent) (hpc : s.pc t = .queued key id todo acq) {expired : Bool}
    (h : s.step (.look t expired) = some s') : s'.Consistent := by
  have hsorted : (acq ++ key :: todo).Pairwise (· < ·) := by
    have hst := hs.sorted t
    rwa [hpc] at hst
  have hid : s.locks key = some id := (hs.keyOk key).object t id (by rw [hpc]; rfl)
  have hnd := (hs.keyOk key).nodup id hid
  simp only [step, hpc] at h
  cases hg : (s.objects id).tryGrant t with
  | some l =>
    rw [hg] at h
    cases h
    unfold FIFOLock.tryGrant at hg
    split at hg
    · rename_i hfront
      cases hg
      obtain ⟨hhead, hfree⟩ := hfront
      obtain ⟨ws, hws⟩ : ∃ ws, (s.objects id).waiters = t :: ws := List.head?_eq_some_iff.1 hhead
      rw [hws, List.nodup_cons] at hnd
      rw [hws, List.tail_cons]
      refine hs.acquire (.inr hpc) hfree (fun u => ?_) hnd.2
      rw [hws, List.mem_cons]
      constructor
      · intro hu
        exact ⟨fun hut => hnd.1 (hut ▸ hu), .inr hu⟩
      · rintro ⟨hne, hu⟩
        exact hu.resolve_left hne
    · cases hg
  | none =>
    rw [hg] at h
    dsimp only at h
    split at h
    · cases h
      have hrec : s.taken t = acq ∧ s.given t = [] := by
        have hr := hs.recorded t
        rwa [hpc] at hr
      refine hs.changed (p := .timedOut key acq) (l := (s.objects id).giveUp t) hid (fun key' hk => ?_) ?_ nofun
        (fun u => ?_) ((hs.keyOk key).count id hid) (fun u => ?_) (hnd.erase t) (sorted_attempt hsorted) (by simp)
        (hs.inMeta_update rfl) (fun _ _ => ⟨rfl, rfl⟩) hrec
      · have hk' := hk.symm
        rw [hpc]
        exact ⟨by simp [ResourcePc.refs, ResourcePc.held, ResourcePc.attempt, ResourcePc.unlocking],
          by simp [ResourcePc.held], by simp [ResourcePc.queue, hk'], by simp [ResourcePc.object]⟩
      · rw [hpc]
        simp [ResourcePc.refs, ResourcePc.held, ResourcePc.attempt, ResourcePc.unlocking]
      · rw [FIFOLock.giveUp, (hs.keyOk key).owner id hid u]
        exact (update_iff (fun pc => key ∈ pc.held) s.pc t u (by rw [hpc]; rfl)).symm
      · rw [FIFOLock.giveUp, hnd.mem_erase_iff, (hs.keyOk key).queue id hid u]
        by_cases hut : u = t
        · subst hut
          simp [ResourcePc.queue]
        · rw [Function.update_of_ne hut]
          simp [hut]
    · cases h
      exact hs

theorem Consistent.release (hs : s.Consistent) {rest : List κ} (hpc : s.pc t = .releasing (key :: rest))
    (h : s.step (.release t) = some s') : s'.Consistent := by
  obtain ⟨ts, hnd, hmem, hnum, hnone⟩ := (hs.keyOk key).users
  have hsorted : (rest.reverse ++ [key]).Pairwise (· < ·) := by
    have hst := hs.sorted t
    rw [hpc] at hst
    simpa [ResourcePc.keys] using hst
  have hkey : key ∉ rest := fun hr => not_mem_of_sorted hsorted (List.mem_reverse.2 hr)
  have hrec : (s.taken t).reverse = s.given t ++ key :: rest := by
    have hr := hs.recorded t
    rwa [hpc] at hr
  have hsome : s.locks key ≠ none := by
    rw [ne_eq, hnone]
    intro hts
    have ht : t ∈ ts := (hmem t).2 (by rw [hpc]; simp [ResourcePc.refs, ResourcePc.held])
    rw [hts] at ht
    cases ht
  obtain ⟨id, hid⟩ := Option.ne_none_iff_exists'.1 hsome
  have hown : (s.objects id).owner = some t := by
    rw [(hs.keyOk key).owner id hid t, hpc]
    exact List.mem_cons_self
  have hcount : (s.objects id).count = 1 := (hs.keyOk key).count id hid (by simp [hown])
  have hrelease : (s.objects id).release t =
      some ({ s.objects id with owner := none, count := 0 }, (s.objects id).waiters.head?) := by
    rw [FIFOLock.release, if_neg (not_not_intro hown), if_pos (by omega)]
  cases hm : s.metaLock with
  | some u => simp [step, hpc, hm] at h
  | none =>
    simp only [step, hpc, hm, hid, hrelease] at h
    cases h
    refine hs.changed (p := .unlocked key rest) (l := { s.objects id with owner := none, count := 0 }) hid (fun key' hk => ?_) ?_ nofun (fun u => ?_) (fun hne => (hne rfl).elim)
      (fun u => ?_) ((hs.keyOk key).nodup id hid) ?_ (by simp) (fun u hu => ?_) (fun u hu => ?_) ?_
    · have hk' := hk.symm
      rw [hpc]
      exact ⟨by simp [ResourcePc.refs, ResourcePc.held, ResourcePc.attempt, ResourcePc.unlocking, hk],
        by simp [ResourcePc.held, hk], by simp [ResourcePc.queue], by simp [ResourcePc.object]⟩
    · rw [hpc]
      simp [ResourcePc.refs, ResourcePc.held, ResourcePc.attempt, ResourcePc.unlocking]
    · by_cases hut : u = t
      · subst hut
        simp [ResourcePc.held, hkey]
      · rw [Function.update_of_ne hut, ← (hs.keyOk key).owner id hid u, hown]
        simp [Ne.symm hut]
    · rw [(hs.keyOk key).queue id hid u]
      exact (update_iff (fun pc => pc.queue = some key) s.pc t u (by rw [hpc]; simp [ResourcePc.queue])).symm
    · simpa [ResourcePc.keys] using hsorted
    · by_cases hut : u = t
      · rw [hut]
      · rw [Function.update_of_ne hut] at hu
        have hmu := hs.inMeta u hu
        rw [hm] at hmu
        cases hmu
    · exact ⟨rfl, Function.update_of_ne hu _ _⟩
    · show (s.taken t).reverse = Function.update s.given t _ t ++ rest
      rw [Function.update_self, hrec]
      simp

/-! ### Steps at the table -/

omit [DecidableEq τ] [LinearOrder κ] in
theorem refs_of_held {pc : ResourcePc κ} (h : key ∈ pc.held) : key ∈ pc.refs := List.mem_append_left _ h

omit [DecidableEq τ] [LinearOrder κ] in
theorem refs_of_object {pc : ResourcePc κ} (h : pc.object = some (key, id)) : key ∈ pc.refs := by
  cases pc <;> simp [ResourcePc.object] at h <;>
    simp [ResourcePc.refs, ResourcePc.attempt, ResourcePc.held, ResourcePc.unlocking, h.1]

omit [DecidableEq τ] [LinearOrder κ] in
theorem refs_of_queue {pc : ResourcePc κ} (h : pc.queue = some key) : key ∈ pc.refs := by
  cases pc with
  | queued k lock todo acq =>
    cases h
    simp [ResourcePc.refs, ResourcePc.attempt]
  | _ => cases h

omit [DecidableEq τ] [LinearOrder κ] in
theorem sameFor_entering (hpc : s.pc t = .seeking (key :: todo) acq) (id : Nat) {key' : κ} (hk : key' ≠ key) :
    SameFor key' (s.pc t) (.entering key id todo acq) := by
  have hk' := hk.symm
  rw [hpc]
  exact ⟨by simp [ResourcePc.refs, ResourcePc.held, ResourcePc.attempt, ResourcePc.unlocking, hk],
    by simp [ResourcePc.held], by simp [ResourcePc.queue], by simp [ResourcePc.object, hk']⟩

/-- What a task that asks for the lock of a key finds, and the references with its own. -/
theorem Consistent.seeking (hs : s.Consistent) (hpc : s.pc t = .seeking (key :: todo) acq) :
    (acq ++ key :: todo).Pairwise (· < ·) ∧ (s.taken t = acq ∧ s.given t = []) ∧
      ∃ ts, (∀ u, u ∈ ts ↔ key ∈ (s.pc u).refs) ∧ (t :: ts).Nodup ∧
        (∀ id u, u ∈ t :: ts ↔ key ∈ (Function.update s.pc t (.entering key id todo acq) u).refs) ∧
        (s.refcounts key).getD 0 + 1 = (t :: ts).length ∧ (s.locks key = none ↔ ts = []) := by
  obtain ⟨ts, hnd, hmem, hnum, hnone⟩ := (hs.keyOk key).users
  have hsorted : (acq ++ key :: todo).Pairwise (· < ·) := by
    have hst := hs.sorted t
    rwa [hpc] at hst
  have hrec : s.taken t = acq ∧ s.given t = [] := by
    have hr := hs.recorded t
    rwa [hpc] at hr
  have hnew : t ∉ ts := by
    rw [hmem t, hpc]
    simpa [ResourcePc.refs, ResourcePc.held, ResourcePc.attempt, ResourcePc.unlocking] using not_mem_of_sorted hsorted
  refine ⟨hsorted, hrec, ts, hmem, List.nodup_cons.2 ⟨hnew, hnd⟩, fun id u => ?_, ?_, hnone⟩
  · rw [List.mem_cons]
    by_cases hut : u = t
    · subst hut
      simp [ResourcePc.refs, ResourcePc.attempt]
    · rw [Function.update_of_ne hut, hmem u]
      simp [hut]
  · rw [hnum, List.length_cons]
    split
    · rename_i hts
      rw [hts]
      rfl
    · rfl

/-- The lock of the key is in the table. -/
theorem Consistent.getLock_known (hs : s.Consistent) (hpc : s.pc t = .seeking (key :: todo) acq)
    (hid : s.locks key = some id) (h : s.step (.getLock t) = some s') : s'.Consistent := by
  obtain ⟨hsorted, hrec, ts, -, hnodup, husers, hnum, -⟩ := hs.seeking hpc
  cases hm : s.metaLock with
  | some u => simp [step, hpc, hm] at h
  | none =>
    have hmeta : ∀ u, (Function.update s.pc t (.entering key id todo acq) u).unlocking.isSome →
        (none : Option τ) = some u := fun u hu => hm ▸ hs.inMeta_update rfl u hu
    simp only [step, hpc, hm, ResourceWorld.getLock, hid] at h
    cases h
    refine hs.of_keys (t := t) (p := .entering key id todo acq) rfl (fun key' => ?_) hsorted (by simp) hs.ids hs.inj
      hmeta (fun _ _ => ⟨rfl, rfl⟩) hrec
    by_cases hk : key' = key
    · subst hk
      refine ⟨⟨t :: ts, hnodup, husers id, ?_, ?_⟩, fun u id' hu => ?_, fun id' h u => ?_,
        (hs.keyOk key').count, fun id' h u => ?_, (hs.keyOk key').nodup⟩
      · simp only [move, Function.update_self, hnum, if_neg (List.cons_ne_nil t ts)]
      · simp only [move, hid]
        simp
      · simp only [move] at hu ⊢
        by_cases hut : u = t
        · subst hut
          rw [Function.update_self] at hu
          cases hu
          exact hid
        · rw [Function.update_of_ne hut] at hu
          exact (hs.keyOk key').object u id' hu
      · refine ((hs.keyOk key').owner id' h u).trans ?_
        exact (update_iff (fun pc => key' ∈ pc.held) s.pc t u (by rw [hpc]; rfl)).symm
      · refine ((hs.keyOk key').queue id' h u).trans ?_
        exact (update_iff (fun pc => pc.queue = some key') s.pc t u (by rw [hpc]; rfl)).symm
    · exact (hs.keyOk key').frame (t := t) (p := .entering key id todo acq) rfl (sameFor_entering hpc id hk) rfl
        (Function.update_of_ne hk _ _) fun _ _ => rfl

/-- A lock is made for the key. -/
theorem Consistent.getLock_new (hs : s.Consistent) (hpc : s.pc t = .seeking (key :: todo) acq)
    (hid : s.locks key = none) (h : s.step (.getLock t) = some s') : s'.Consistent := by
  obtain ⟨hsorted, hrec, ts, hmem, hnodup, husers, hnum, hnone⟩ := hs.seeking hpc
  cases hm : s.metaLock with
  | some u => simp [step, hpc, hm] at h
  | none =>
    have hmeta : ∀ u, (Function.update s.pc t (.entering key s.nextObject todo acq) u).unlocking.isSome →
        (none : Option τ) = some u := fun u hu => hm ▸ hs.inMeta_update rfl u hu
    simp only [step, hpc, hm, ResourceWorld.getLock, hid] at h
    cases h
    have hts : ts = [] := hnone.1 hid
    -- Without a lock object nobody refers to the key.
    have hnobody : ∀ u, key ∉ (s.pc u).refs := by
      intro u hu
      have hmu := (hmem u).2 hu
      rw [hts] at hmu
      cases hmu
    -- No key has the new object yet.
    have hfresh : ∀ key' id, s.locks key' = some id → id ≠ s.nextObject := by
      intro key' id h
      exact Nat.ne_of_lt (hs.ids key' id h)
    refine hs.of_keys (t := t) (p := .entering key s.nextObject todo acq) rfl (fun key' => ?_) hsorted (by simp)
      (fun key' id h => ?_) (fun k₁ k₂ id h₁ h₂ => ?_) hmeta (fun _ _ => ⟨rfl, rfl⟩) hrec
    · by_cases hk : key' = key
      · subst hk
        have hobj : ∀ id, Function.update s.locks key' (some s.nextObject) key' = some id → id = s.nextObject := by
          intro id h
          rw [Function.update_self] at h
          exact (Option.some.inj h).symm
        refine ⟨⟨t :: ts, hnodup, husers _, ?_, ?_⟩, fun u id' hu => ?_, fun id' h u => ?_,
          fun id' h ho => ?_, fun id' h u => ?_, fun id' h => ?_⟩
        · simp only [move, Function.update_self, hnum, if_neg (List.cons_ne_nil t ts)]
        · simp only [move, Function.update_self]
          simp
        · simp only [move] at hu ⊢
          by_cases hut : u = t
          · subst hut
            rw [Function.update_self] at hu
            cases hu
            exact Function.update_self _ _ _
          · rw [Function.update_of_ne hut] at hu
            exact absurd (refs_of_object hu) (hnobody u)
        · rw [hobj id' h]
          simp only [move, Function.update_self]
          refine ⟨fun ho => (by cases ho), fun hu => ?_⟩
          have hold := (update_iff (fun pc => key' ∈ pc.held) s.pc t u (by rw [hpc]; rfl)).1 hu
          exact absurd (refs_of_held hold) (hnobody u)
        · rw [hobj id' h] at ho
          simp [move] at ho
        · rw [hobj id' h]
          simp only [move, Function.update_self]
          refine ⟨fun hu => (by cases hu), fun hu => ?_⟩
          have hold := (update_iff (fun pc => pc.queue = some key') s.pc t u (by rw [hpc]; rfl)).1 hu
          exact absurd (refs_of_queue hold) (hnobody u)
        · rw [hobj id' h]
          simp only [move, Function.update_self]
          exact List.nodup_nil
      · refine (hs.keyOk key').frame (t := t) (p := .entering key s.nextObject todo acq) rfl (sameFor_entering hpc _ hk)
          (Function.update_of_ne hk _ _) (Function.update_of_ne hk _ _) fun id h => ?_
        exact Function.update_of_ne (hfresh key' id h) _ _
    · simp only [move] at h ⊢
      by_cases hk : key' = key
      · subst hk
        rw [Function.update_self] at h
        cases h
        exact Nat.lt_succ_self _
      · rw [Function.update_of_ne hk] at h
        exact Nat.lt_succ_of_lt (hs.ids key' id h)
    · simp only [move] at h₁ h₂
      by_cases hk₁ : k₁ = key <;> by_cases hk₂ : k₂ = key
      · rw [hk₁, hk₂]
      · rw [hk₁, Function.update_self] at h₁
        rw [Function.update_of_ne hk₂] at h₂
        exact absurd (Option.some.inj h₁).symm (hfresh k₂ id h₂)
      · rw [hk₂, Function.update_self] at h₂
        rw [Function.update_of_ne hk₁] at h₁
        exact absurd (Option.some.inj h₂).symm (hfresh k₁ id h₁)
      · rw [Function.update_of_ne hk₁] at h₁
        rw [Function.update_of_ne hk₂] at h₂
        exact hs.inj k₁ k₂ id h₁ h₂

theorem Consistent.getLock (hs : s.Consistent) (hpc : s.pc t = .seeking (key :: todo) acq)
    (h : s.step (.getLock t) = some s') : s'.Consistent := by
  cases hid : s.locks key with
  | some id => exact hs.getLock_known hpc hid h
  | none => exact hs.getLock_new hpc hid h

/-- A reference that is no hold is given back, and the entry with the last one. -/
theorem Consistent.dropRef (hs : s.Consistent) (href : key ∈ (s.pc t).refs) (hheld : key ∉ (s.pc t).held)
    (hqueue : (s.pc t).queue = none) (hothers : ∀ key', key' ≠ key → SameFor key' (s.pc t) p) (hp : key ∉ p.refs)
    (hsorted : p.keys.Pairwise (· < ·)) (herr : p ≠ .crashed) {metaLock : Option τ}
    (hmeta : ∀ u, (Function.update s.pc t p u).unlocking.isSome → metaLock = some u)
    (hrec : Recorded (s.taken t) (s.given t) p) :
    ∃ s₁, s.dropRef key = some s₁ ∧ ({ s₁.move t p with metaLock } : ResourceWorld τ κ).Consistent := by
  obtain ⟨ts, hnd, hmem, hnum, hnone⟩ := (hs.keyOk key).users
  have ht : t ∈ ts := (hmem t).2 href
  have hne : ts ≠ [] := List.ne_nil_of_mem ht
  rw [if_neg hne] at hnum
  have hpobj : ∀ id, p.object ≠ some (key, id) := fun id h => hp (refs_of_object h)
  have hpheld : key ∉ p.held := fun h => hp (refs_of_held h)
  have hpqueue : p.queue ≠ some key := fun h => hp (refs_of_queue h)
  have herase : ∀ u, u ∈ ts.erase t ↔ key ∈ (Function.update s.pc t p u).refs := by
    intro u
    rw [hnd.mem_erase_iff]
    by_cases hut : u = t
    · subst hut
      simp [hp]
    · rw [Function.update_of_ne hut, hmem u]
      simp [hut]
  have hlen : (ts.erase t).length = ts.length - 1 := List.length_erase_of_mem ht
  -- `ts` are the threads that refer to the key.
  by_cases hlast : ts.length = 1
  · -- Nobody else refers to the key, so nobody holds it.
    have hempty : ts.erase t = [] := List.length_eq_zero_iff.1 (by rw [hlen, hlast])
    have hnobody : ∀ u, key ∉ (Function.update s.pc t p u).refs := by
      intro u hu
      have hmu := (herase u).2 hu
      rw [hempty] at hmu
      cases hmu
    have hfree : ((s.locks key).all fun id => (s.objects id).owner = none) = true := by
      rw [Option.all_eq_true]
      intro id hid
      rw [decide_eq_true_eq]
      by_contra howned
      obtain ⟨u, hu⟩ := Option.ne_none_iff_exists'.1 howned
      have hheldu := ((hs.keyOk key).owner id hid u).1 hu
      by_cases hut : u = t
      · exact hheld (hut ▸ hheldu)
      · have hno := hnobody u
        rw [Function.update_of_ne hut] at hno
        exact hno (refs_of_held hheldu)
    refine ⟨{ s with
      refcounts := Function.update s.refcounts key none
      locks := Function.update s.locks key none }, ?_, ?_⟩
    · rw [ResourceWorld.dropRef, hnum]
      simp only [hlast, hfree, and_self, if_true]
    · refine hs.of_keys (t := t) (p := p) rfl (fun key' => ?_) hsorted herr (fun key' id h => ?_)
        (fun k₁ k₂ id h₁ h₂ => ?_) hmeta (fun _ _ => ⟨rfl, rfl⟩) hrec
      · by_cases hk : key' = key
        · subst hk
          refine ⟨⟨[], List.nodup_nil, fun u => ?_, ?_, ?_⟩, fun u id hu => ?_, fun id h => ?_, fun id h => ?_,
            fun id h => ?_, fun id h => ?_⟩
          · exact ⟨fun hu => (by cases hu), fun hu => absurd hu (hnobody u)⟩
          · simp [move]
          · simp [move]
          · exact absurd (refs_of_object hu) (hnobody u)
          all_goals
            simp [move] at h
        · exact (hs.keyOk key').frame (t := t) (p := p) rfl (hothers key' hk) (Function.update_of_ne hk _ _)
            (Function.update_of_ne hk _ _) fun _ _ => rfl
      · simp only [move] at h ⊢
        by_cases hk : key' = key
        · subst hk
          rw [Function.update_self] at h
          cases h
        · rw [Function.update_of_ne hk] at h
          exact hs.ids key' id h
      · simp only [move] at h₁ h₂
        by_cases hk₁ : k₁ = key
        · rw [hk₁, Function.update_self] at h₁
          cases h₁
        · by_cases hk₂ : k₂ = key
          · rw [hk₂, Function.update_self] at h₂
            cases h₂
          · rw [Function.update_of_ne hk₁] at h₁
            rw [Function.update_of_ne hk₂] at h₂
            exact hs.inj k₁ k₂ id h₁ h₂
  · have hrest : ts.erase t ≠ [] := by
      intro h
      rw [h] at hlen
      have hpos := List.length_pos_of_mem ht
      exact hlast (by simp only [List.length_nil] at hlen; omega)
    refine ⟨{ s with refcounts := Function.update s.refcounts key (some (ts.length - 1)) }, ?_, ?_⟩
    · rw [ResourceWorld.dropRef, hnum]
      simp only [hlast, false_and, if_false]
    · refine hs.of_keys (t := t) (p := p) rfl (fun key' => ?_) hsorted herr hs.ids hs.inj hmeta (fun _ _ => ⟨rfl, rfl⟩) hrec
      by_cases hk : key' = key
      · subst hk
        refine ⟨⟨ts.erase t, hnd.erase t, herase, ?_, ?_⟩, fun u id hu => ?_, fun id h u => ?_, (hs.keyOk key').count,
          fun id h u => ?_, (hs.keyOk key').nodup⟩
        · simp only [move, Function.update_self, if_neg hrest, hlen]
        · show s.locks key' = none ↔ _
          rw [hnone]
          exact ⟨fun h => absurd h hne, fun h => absurd h hrest⟩
        · simp only [move] at hu ⊢
          by_cases hut : u = t
          · subst hut
            rw [Function.update_self] at hu
            exact absurd hu (hpobj id)
          · rw [Function.update_of_ne hut] at hu
            exact (hs.keyOk key').object u id hu
        · refine ((hs.keyOk key').owner id h u).trans ?_
          exact (update_iff (fun pc => key' ∈ pc.held) s.pc t u (iff_of_false hpheld hheld)).symm
        · refine ((hs.keyOk key').queue id h u).trans ?_
          exact (update_iff (fun pc => pc.queue = some key') s.pc t u
            (iff_of_false hpqueue (by rw [hqueue]; nofun))).symm
      · exact (hs.keyOk key').frame (t := t) (p := p) rfl (hothers key' hk) rfl (Function.update_of_ne hk _ _)
          fun _ _ => rfl

theorem Consistent.undo (hs : s.Consistent) (hpc : s.pc t = .timedOut key acq) (h : s.step (.undo t) = some s') :
    s'.Consistent := by
  have hsorted : (acq ++ [key]).Pairwise (· < ·) := by
    have hst := hs.sorted t
    rwa [hpc] at hst
  have hnot : key ∉ acq := not_mem_of_sorted hsorted
  have hrec : s.taken t = acq ∧ s.given t = [] := by
    have hr := hs.recorded t
    rwa [hpc] at hr
  cases hm : s.metaLock with
  | some u => simp [step, hpc, hm] at h
  | none =>
    have href : key ∈ (s.pc t).refs := by
      rw [hpc]
      simp [ResourcePc.refs, ResourcePc.attempt]
    have hmeta : ∀ u, (Function.update s.pc t (.releasing acq.reverse) u).unlocking.isSome →
        (none : Option τ) = some u := fun u hu => hm ▸ hs.inMeta_update rfl u hu
    obtain ⟨s₁, hdrop, hs₁⟩ := hs.dropRef (p := .releasing acq.reverse) href (by rw [hpc]; exact hnot) (by rw [hpc]; rfl)
      (fun key' hk => by
        rw [hpc]
        exact ⟨by simp [ResourcePc.refs, ResourcePc.held, ResourcePc.attempt, ResourcePc.unlocking, hk],
          by simp [ResourcePc.held], by simp [ResourcePc.queue], by simp [ResourcePc.object]⟩)
      (by simpa [ResourcePc.refs, ResourcePc.held, ResourcePc.attempt, ResourcePc.unlocking] using hnot)
      (by simpa [ResourcePc.keys] using (List.pairwise_append.1 hsorted).1) (by simp)
      hmeta (by simp [Recorded, hrec])
    have hfree : s₁.metaLock = none := by
      rw [ResourceWorld.dropRef] at hdrop
      split at hdrop
      · cases hdrop
      · split at hdrop <;> cases hdrop <;> exact hm
    simp only [step, hpc, hm, hdrop] at h
    cases h
    rw [← hfree] at hs₁
    exact hs₁

theorem Consistent.drop (hs : s.Consistent) {rest : List κ} (hpc : s.pc t = .unlocked key rest)
    (h : s.step (.drop t) = some s') : s'.Consistent := by
  have hsorted : (rest.reverse ++ [key]).Pairwise (· < ·) := by
    have hst := hs.sorted t
    rw [hpc] at hst
    simpa [ResourcePc.keys] using hst
  have hnot : key ∉ rest := fun hr => not_mem_of_sorted hsorted (List.mem_reverse.2 hr)
  have hmeta : s.metaLock = some t := hs.inMeta t (by rw [hpc]; rfl)
  have hrec : Recorded (s.taken t) (s.given t) (.releasing rest) := by
    have hr := hs.recorded t
    rwa [hpc] at hr
  have href : key ∈ (s.pc t).refs := by
    rw [hpc]
    simp [ResourcePc.refs, ResourcePc.unlocking]
  have hfree : ∀ u, (Function.update s.pc t (.releasing rest) u).unlocking.isSome → (none : Option τ) = some u := by
    intro u hu
    by_cases hut : u = t
    · subst hut
      rw [Function.update_self] at hu
      cases hu
    · -- The thread was in the section, so no other is.
      rw [Function.update_of_ne hut] at hu
      exact absurd (Option.some.inj ((hs.inMeta u hu).symm.trans hmeta)) hut
  obtain ⟨s₁, hdrop, hs₁⟩ := hs.dropRef (p := .releasing rest) href (by rw [hpc]; exact hnot) (by rw [hpc]; rfl)
    (fun key' hk => by
      rw [hpc]
      exact ⟨by simp [ResourcePc.refs, ResourcePc.held, ResourcePc.attempt, ResourcePc.unlocking, hk],
        by simp [ResourcePc.held], by simp [ResourcePc.queue], by simp [ResourcePc.object]⟩)
    (by simpa [ResourcePc.refs, ResourcePc.held, ResourcePc.attempt, ResourcePc.unlocking] using hnot)
    (by simpa [ResourcePc.keys] using (List.pairwise_append.1 hsorted).1) (by simp)
    hfree hrec
  simp only [step, hpc, hdrop] at h
  cases h
  exact hs₁

/-! ### The step -/

omit [DecidableEq τ] in
theorem sorted_call (keys : List κ) : (keys.dedup.insertionSort (· ≤ ·)).Pairwise (· < ·) := by
  have hnodup : (keys.dedup.insertionSort (· ≤ ·)).Nodup :=
    (List.perm_insertionSort (· ≤ ·) keys.dedup).nodup_iff.2 keys.nodup_dedup
  refine (List.Pairwise.and (List.pairwise_insertionSort (· ≤ ·) keys.dedup) hnodup).imp ?_
  rintro a b ⟨hle, hne⟩
  exact lt_of_le_of_ne hle hne

theorem Consistent.call {keys : List κ} (hs : s.Consistent) (h : s.step (.call t keys) = some s') :
    s'.Consistent := by
  simp only [ResourceWorld.step] at h
  split at h
  · rename_i hpc
    cases h
    refine hs.moved (p := .seeking (keys.dedup.insertionSort (· ≤ ·)) []) (fun key => ?_) (sorted_call keys) (by simp)
      rfl (fun u hu => ?_) ?_
    · rw [hpc]
      exact ⟨Iff.rfl, Iff.rfl, Iff.rfl, nofun⟩
    · exact ⟨Function.update_of_ne hu _ _, Function.update_of_ne hu _ _⟩
    · exact ⟨Function.update_self _ _ _, Function.update_self _ _ _⟩
  · cases h

theorem Consistent.enterBlock (hs : s.Consistent) (h : s.step (.enterBlock t) = some s') : s'.Consistent := by
  simp only [ResourceWorld.step] at h
  split at h
  · rename_i acq hpc
    cases h
    have hsorted := hs.sorted t
    have hrec := hs.recorded t
    rw [hpc] at hsorted hrec
    refine hs.moved (p := .inside acq) (fun key => ?_) (by simpa [ResourcePc.keys] using hsorted) (by simp) rfl
      (fun _ _ => ⟨rfl, rfl⟩) hrec
    rw [hpc]
    exact ⟨Iff.rfl, Iff.rfl, Iff.rfl, nofun⟩
  · cases h

theorem Consistent.leaveBlock (hs : s.Consistent) (h : s.step (.leaveBlock t) = some s') : s'.Consistent := by
  simp only [ResourceWorld.step] at h
  split at h
  · rename_i acq hpc
    cases h
    have hsorted := hs.sorted t
    have hrec : s.taken t = acq ∧ s.given t = [] := by
      have hr := hs.recorded t
      rwa [hpc] at hr
    rw [hpc] at hsorted
    refine hs.moved (p := .releasing acq.reverse) (fun key => ?_) (by simpa [ResourcePc.keys] using hsorted) (by simp)
      rfl (fun _ _ => ⟨rfl, rfl⟩) (by simp [Recorded, hrec])
    rw [hpc]
    exact ⟨by simp [ResourcePc.refs, ResourcePc.held, ResourcePc.attempt, ResourcePc.unlocking],
      by simp [ResourcePc.held], Iff.rfl, nofun⟩
  · cases h

theorem Consistent.finish (hs : s.Consistent) (h : s.step (.finish t) = some s') : s'.Consistent := by
  simp only [ResourceWorld.step] at h
  split at h
  · rename_i hpc
    cases h
    have hrec := hs.recorded t
    rw [hpc] at hrec
    refine hs.moved (p := .idle) (fun key => ?_) List.Pairwise.nil (by simp) rfl (fun _ _ => ⟨rfl, rfl⟩) ?_
    · rw [hpc]
      exact ⟨Iff.rfl, Iff.rfl, Iff.rfl, nofun⟩
    · simpa [Recorded] using hrec.symm
  · cases h

theorem Consistent.step {op : ResourceOp τ κ} (hs : s.Consistent) (h : s.step op = some s') : s'.Consistent := by
  cases op with
  | call t keys => exact hs.call h
  | getLock t =>
    cases hpc : s.pc t with
    | seeking todo acq =>
      cases todo with
      | nil => simp [ResourceWorld.step, hpc] at h
      | cons key todo => exact hs.getLock hpc h
    | _ => simp [ResourceWorld.step, hpc] at h
  | enter t expired =>
    cases hpc : s.pc t with
    | entering key id todo acq => exact hs.enter hpc h
    | _ => simp [ResourceWorld.step, hpc] at h
  | look t expired =>
    cases hpc : s.pc t with
    | queued key id todo acq => exact hs.look hpc h
    | _ => simp [ResourceWorld.step, hpc] at h
  | undo t =>
    cases hpc : s.pc t with
    | timedOut key acq => exact hs.undo hpc h
    | _ => simp [ResourceWorld.step, hpc] at h
  | enterBlock t => exact hs.enterBlock h
  | leaveBlock t => exact hs.leaveBlock h
  | release t =>
    cases hpc : s.pc t with
    | releasing rest =>
      cases rest with
      | nil => simp [ResourceWorld.step, hpc] at h
      | cons key rest => exact hs.release hpc h
    | _ => simp [ResourceWorld.step, hpc] at h
  | drop t =>
    cases hpc : s.pc t with
    | unlocked key rest => exact hs.drop hpc h
    | _ => simp [ResourceWorld.step, hpc] at h
  | finish t => exact hs.finish h

end Steps

omit [DecidableEq τ] in
theorem consistent_init : ({} : ResourceWorld τ κ).Consistent := by
  refine ⟨fun key => ?_, fun _ => List.Pairwise.nil, fun _ => by simp, nofun, nofun, nofun, fun _ => rfl⟩
  exact ⟨⟨[], List.nodup_nil, fun _ => by simp [ResourcePc.refs, ResourcePc.held, ResourcePc.attempt,
    ResourcePc.unlocking], rfl, by simp⟩, nofun, nofun, nofun, nofun, nofun⟩

/-! ## Safety -/

section
variable {s : ResourceWorld τ κ}

/-- The order in which threads wait: by key, and in the queue of one key from
the back to the front. -/
def Before (s : ResourceWorld τ κ) (t u : τ) : Prop :=
  ∀ key key', (s.pc t).queue = some key → (s.pc u).queue = some key' →
    key < key' ∨ key = key' ∧ ∃ id, s.locks key = some id ∧
      (s.objects id).waiters.idxOf u < (s.objects id).waiters.idxOf t

omit [DecidableEq τ] in
theorem Consistent.held_lt_queue (hs : s.Consistent) {t : τ} {key key' : κ} (hheld : key ∈ (s.pc t).held)
    (hqueue : (s.pc t).queue = some key') : key < key' := by
  have hsorted := hs.sorted t
  cases hpc : s.pc t with
  | queued k id todo acq =>
    rw [hpc] at hheld hqueue hsorted
    cases hqueue
    exact (List.pairwise_append.1 hsorted).2.2 key hheld key' List.mem_cons_self
  | _ =>
    rw [hpc] at hqueue
    cases hqueue

theorem Consistent.before_of_waitsFor (hs : s.Consistent) {t u : τ} (h : s.WaitsFor t u) : s.Before t u := by
  obtain ⟨key, id, todo, acq, hpc, hwait⟩ := h
  have hid : s.locks key = some id := (hs.keyOk key).object t id (by rw [hpc]; rfl)
  intro k k' hk hk'
  rw [hpc] at hk
  cases hk
  rcases hwait with howner | ⟨hmem, hlt⟩
  · have hheld := ((hs.keyOk key).owner id hid u).1 howner
    exact .inl (hs.held_lt_queue hheld hk')
  · have hqueue := ((hs.keyOk key).queue id hid u).1 hmem
    exact .inr ⟨Option.some.inj (hqueue.symm.trans hk'), id, hid, hlt⟩

theorem Before.trans {t u v : τ} (htu : s.Before t u) (huv : s.Before u v) (hu : (s.pc u).queue ≠ none) :
    s.Before t v := by
  obtain ⟨k, hk⟩ := Option.ne_none_iff_exists'.1 hu
  intro k₁ k₂ h₁ h₂
  rcases htu k₁ k h₁ hk with hlt | ⟨rfl, id, hid, hlt⟩
  · rcases huv k k₂ hk h₂ with hlt' | ⟨rfl, _⟩
    · exact .inl (hlt.trans hlt')
    · exact .inl hlt
  · rcases huv k₁ k₂ hk h₂ with hlt' | ⟨rfl, id', hid', hlt'⟩
    · exact .inl hlt'
    · cases hid.symm.trans hid'
      exact .inr ⟨rfl, id, hid, hlt'.trans hlt⟩

theorem Consistent.before_of_path (hs : s.Consistent) {t u : τ} (h : Relation.TransGen s.WaitsFor t u) :
    s.Before t u := by
  induction h with
  | single h => exact hs.before_of_waitsFor h
  | tail _ h ih =>
    refine ih.trans (hs.before_of_waitsFor h) ?_
    obtain ⟨key, id, todo, acq, hpc, _⟩ := h
    rw [hpc]
    simp [ResourcePc.queue]

omit [LinearOrder κ] in
theorem queue_of_path {t u : τ} (h : Relation.TransGen s.WaitsFor t u) : (s.pc t).queue ≠ none := by
  obtain ⟨v, h, _⟩ := Relation.TransGen.head'_iff.1 h
  obtain ⟨key, id, todo, acq, hpc, _⟩ := h
  rw [hpc]
  simp [ResourcePc.queue]

theorem Consistent.acyclic (hs : s.Consistent) (t : τ) : ¬ Relation.TransGen s.WaitsFor t t := by
  intro h
  obtain ⟨key, hkey⟩ := Option.ne_none_iff_exists'.1 (queue_of_path h)
  rcases hs.before_of_path h key key hkey hkey with hlt | ⟨_, _, _, hlt⟩
  · exact lt_irrefl key hlt
  · exact Nat.lt_irrefl _ hlt

omit [DecidableEq τ] in
theorem Consistent.owns_iff (hs : s.Consistent) (t : τ) (key : κ) : s.Owns t key ↔ key ∈ (s.pc t).held := by
  constructor
  · rintro ⟨id, hid, howner⟩
    exact ((hs.keyOk key).owner id hid t).1 howner
  · intro hheld
    obtain ⟨ts, _, hmem, _, hnone⟩ := (hs.keyOk key).users
    cases hid : s.locks key with
    | none =>
      have ht := (hmem t).2 (refs_of_held hheld)
      rw [hnone.1 hid] at ht
      cases ht
    | some id => exact ⟨id, hid, ((hs.keyOk key).owner id hid t).2 hheld⟩

omit [DecidableEq τ] in
/-- While nobody is in the middle of a release, those that refer to a key hold
it or try to get it. -/
theorem Consistent.refs_iff (hs : s.Consistent) (hmeta : s.metaLock = none) (t : τ) (key : κ) :
    key ∈ (s.pc t).refs ↔ key ∈ (s.pc t).held ∨ (s.pc t).attempt = some key := by
  have hno : (s.pc t).unlocking = none := by
    cases hu : (s.pc t).unlocking with
    | none => rfl
    | some k =>
      have hm := hs.inMeta t (by rw [hu]; rfl)
      rw [hmeta] at hm
      cases hm
  simp [ResourcePc.refs, hno, Option.mem_toList]

omit [DecidableEq τ] in
theorem Consistent.refcount (hs : s.Consistent) (hmeta : s.metaLock = none) (key : κ) :
    Counts (fun t => key ∈ (s.pc t).held ∨ (s.pc t).attempt = some key) ((s.refcounts key).getD 0) := by
  obtain ⟨ts, hnd, hmem, hnum, _⟩ := (hs.keyOk key).users
  refine ⟨ts, hnd, fun t => (hmem t).trans (hs.refs_iff hmeta t key), ?_⟩
  rw [hnum]
  split
  · rename_i hts
    rw [hts]
    rfl
  · rfl

theorem Consistent.safe (hs : s.Consistent) : s.Safe := by
  refine ⟨fun t u key ht hu => ?_, hs.owns_iff, hs.acyclic, hs.noError, fun t ht => ?_, hs.refcount, ?_⟩
  · obtain ⟨id, hid, howner⟩ := (hs.owns_iff t key).2 ht
    obtain ⟨id', hid', howner'⟩ := (hs.owns_iff u key).2 hu
    cases hid.symm.trans hid'
    exact Option.some.inj (howner.symm.trans howner')
  · have hrec := hs.recorded t
    rwa [ht] at hrec
  · intro hnobody hmeta key
    obtain ⟨ts, _, hmem, hnum, hnone⟩ := (hs.keyOk key).users
    have hts : ts = [] := by
      rw [List.eq_nil_iff_forall_not_mem]
      intro t ht
      rcases (hs.refs_iff hmeta t key).1 ((hmem t).1 ht) with hheld | hattempt
      · rw [(hnobody t).1] at hheld
        cases hheld
      · rw [(hnobody t).2] at hattempt
        cases hattempt
    exact ⟨hnone.2 hts, hnum.trans (if_pos hts)⟩

end

/-- In every run of any threads with any keys, time-outs and exceptions. -/
theorem safe_of_reaches {s : ResourceWorld τ κ} (h : Reaches step (fun _ _ => True) {} s) : s.Safe := by
  refine Consistent.safe ?_
  exact h.invariant consistent_init fun _ _ _ hs _ ht => hs.step ht

/-- Thread 0 holds the keys 1 and 2; thread 1 queues for the first and gets it,
thread 2 times out on the second, and thread 1 is the one to find it anew. -/
def contendedOps : List (ResourceOp Nat Nat) :=
  [.call 0 [2, 1, 2], .getLock 0, .enter 0 false, .getLock 0, .enter 0 false, .enterBlock 0, .call 1 [1, 2], .getLock 1,
    .enter 1 false, .call 2 [2], .getLock 2, .enter 2 false, .look 2 true, .leaveBlock 0, .release 0, .drop 0, .undo 2,
    .finish 2, .release 0, .look 1 false, .drop 0, .finish 0, .getLock 1, .enter 1 false, .enterBlock 1]

theorem safe_of_reaches_contended :
    ∃ s, exec step ({} : ResourceWorld Nat Nat) contendedOps = some s ∧ s.Safe ∧ (s.pc 1).held = [1, 2] ∧
      s.given 0 = [2, 1] ∧ s.given 2 = [] ∧ s.refcounts 2 = some 1 ∧ s.locks 2 = some 2 := by
  have hrun : (exec step ({} : ResourceWorld Nat Nat) contendedOps).map
      (fun s => ((s.pc 1).held, s.given 0, s.given 2, s.refcounts 2, s.locks 2)) =
        some ([1, 2], [2, 1], [], some 1, some 2) := by decide +kernel
  obtain ⟨s, hs, hval⟩ := Option.map_eq_some_iff.1 hrun
  simp only [Prod.mk.injEq] at hval
  exact ⟨s, hs, safe_of_reaches (reaches_of_exec .init hs), hval⟩

end ResourceWorld

end AgentSdk
