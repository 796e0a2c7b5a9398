import AgentSdk.Lib.Runs
import Mathlib.Data.List.Perm.Basic
/-!
# The pool of tmux panes

`TmuxPanePool`: panes that threads check out and in, under a lock and a semaphore.
A call is its steps between which other threads run: what it does before it waits,
the semaphore, what it does under the lock.
-/

namespace AgentSdk.PanePool
open Lib
open scoped List

abbrev Pane := Nat
abbrev Thread := Nat

/-- A `checkout` in progress; `block` is that of a `pane()` block. -/
structure Call where
  thread : Thread
  timeout : Bool
  block : Bool
deriving DecidableEq

structure Pool where
  maxPanes : Nat
  initialized : Bool := false
  closed : Bool := false
  available : List Pane := []
  allPanes : List Pane := []
  /-- The permits of the semaphore. -/
  permits : Nat
  nextPane : Pane := 0
  /-- Checkouts before and after the semaphore, checkins before they release it, and
  closes before they take the lock. -/
  waiting : List Call := []
  acquired : List Call := []
  releasing : List Thread := []
  closing : List Thread := []
  /-- The handles of `pane()` blocks. -/
  handles : List (Thread × Pane) := []
  /-- Kept for the statement only: who holds which pane, and what was handed out
  after the pool was closed. -/
  held : List (Thread × Pane) := []
  late : List Pane := []

def new (maxPanes : Nat) : Pool := { maxPanes, permits := maxPanes }

inductive PoolOp where
  /-- `initialize`. -/
  | start
  /-- The check at the start of a checkout. -/
  | checkout (c : Call)
  | acquire (c : Call)
  | timeOut (c : Call)
  /-- Under the lock; `created` is whether a pane can be created. -/
  | take (c : Call) (created : Bool)
  | checkin (t : Thread) (pane : Pane)
  | release (t : Thread)
  | replace (t : Thread) (old : Pane) (created : Bool)
  /-- The caller puts another pane into the handle of its block. -/
  | assign (t : Thread) (old new : Pane)
  /-- The end of a `pane()` block. -/
  | leave (t : Thread) (pane : Pane)
  | close (t : Thread)
  | clear (t : Thread)
deriving DecidableEq

namespace Pool

/-- The thread is inside a call. -/
def Busy (s : Pool) (t : Thread) : Prop :=
  t ∈ s.waiting.map Call.thread ∨ t ∈ s.acquired.map Call.thread ∨ t ∈ s.releasing ∨ t ∈ s.closing

instance decidableBusy (s : Pool) (t : Thread) : Decidable (s.Busy t) := inferInstanceAs (Decidable (_ ∨ _))

def handOut (s : Pool) (t : Thread) (pane : Pane) : Pool :=
  { s with held := (t, pane) :: s.held, late := if s.closed then pane :: s.late else s.late }

/-- `_create_pane` and the list of all panes. -/
def create (s : Pool) : Pool := { s with allPanes := s.allPanes ++ [s.nextPane], nextPane := s.nextPane + 1 }

/-- `checkout` under the lock; a creation that fails raises. -/
def take (s : Pool) (c : Call) (created : Bool) : Pool :=
  let s := { s with acquired := s.acquired.erase c }
  let enter (s : Pool) (pane : Pane) : Pool := if c.block then { s with handles := (c.thread, pane) :: s.handles } else s
  match s.available with
  | pane :: rest => enter ({ s with available := rest }.handOut c.thread pane) pane
  | [] => if created then enter (s.create.handOut c.thread s.nextPane) s.nextPane else s

/-- `checkin` under the lock. -/
def checkin (s : Pool) (t : Thread) (pane : Pane) : Pool :=
  let s := { s with held := s.held.erase (t, pane) }
  if pane ∈ s.allPanes then
    { s with available := if s.closed then s.available else s.available ++ [pane]
             releasing := s.releasing ++ [t] }
  else s

def replace (s : Pool) (t : Thread) (old : Pane) : Pool :=
  let fresh := s.nextPane
  let s := s.create
  { s with allPanes := s.allPanes.erase old
           available := s.available.erase old
           held := s.held.erase (t, old) }.handOut t fresh

def step (s : Pool) : PoolOp → Option Pool
  | .start => some { s with initialized := true }
  | .checkout c =>
    if s.Busy c.thread then none
    else if !s.initialized || s.closed then some s
    else some { s with waiting := s.waiting ++ [c] }
  | .acquire c =>
    if c ∈ s.waiting ∧ 0 < s.permits then
      some { s with waiting := s.waiting.erase c, acquired := s.acquired ++ [c], permits := s.permits - 1 }
    else none
  | .timeOut c =>
    if c ∈ s.waiting ∧ c.timeout ∧ s.permits = 0 then some { s with waiting := s.waiting.erase c } else none
  | .take c created => if c ∈ s.acquired then some (s.take c created) else none
  | .checkin t pane => if s.Busy t then none else some (s.checkin t pane)
  | .release t =>
    if t ∈ s.releasing then some { s with releasing := s.releasing.erase t, permits := s.permits + 1 } else none
  | .replace t old created =>
    if s.Busy t then none else some (if created then s.replace t old else s)
  | .assign t old new =>
    if ¬ s.Busy t ∧ (t, old) ∈ s.handles then some { s with handles := (t, new) :: s.handles.erase (t, old) } else none
  | .leave t pane =>
    if ¬ s.Busy t ∧ (t, pane) ∈ s.handles then
      some ({ s with handles := s.handles.erase (t, pane) }.checkin t pane)
    else none
  | .close t =>
    if s.Busy t then none
    else some (if s.closed then s else { s with closed := true, closing := s.closing ++ [t] })
  | .clear t =>
    if t ∈ s.closing then some { s with closing := s.closing.erase t, allPanes := [], available := [] } else none

/-- No call is in progress. -/
def Quiet (s : Pool) : Prop := s.waiting = [] ∧ s.acquired = [] ∧ s.releasing = [] ∧ s.closing = []

structure Conserves (s : Pool) : Prop where
  /-- No pane is held twice. -/
  sole : (s.held.map Prod.snd).Nodup
  bounded : s.held.length ≤ s.maxPanes
  permits : s.Quiet → s.permits + s.held.length = s.maxPanes
  late : s.late = []
  unblocked : s.closed = true → ∀ c ∈ s.waiting, c.timeout = true

end Pool

/-! ## When it holds -/

/-- The pane goes back from who holds it while it is in the pool; or it is not from
this pool, nor held. -/
def Returns (s : Pool) (t : Thread) (pane : Pane) : Prop := (t, pane) ∈ s.held ↔ pane ∈ s.allPanes

instance decidableReturns (s : Pool) (t : Thread) (pane : Pane) : Decidable (Returns s t pane) :=
  inferInstanceAs (Decidable (_ ↔ _))

def PoolOp.Allowed (s : Pool) : PoolOp → Prop
  | .take _ created => s.closed = false ∧ (s.available ≠ [] ∨ created = true)
  | .checkin t pane | .leave t pane => Returns s t pane
  | .replace t old created => created = false ∨ s.closed = false ∧ (t, old) ∈ s.held
  | .close _ => s.closed = true ∨ ∀ c ∈ s.waiting, c.timeout = true
  | _ => True

instance PoolOp.decidableAllowed (s : Pool) (op : PoolOp) : Decidable (op.Allowed s) := by
  cases op <;> unfold Allowed <;> infer_instance

namespace Pool
variable {s s' : Pool} {t : Thread} {pane old : Pane} {c : Call}

/-- Each permit is free, or with who holds a pane, or with a call on its way. -/
structure Consistent (s : Pool) : Prop where
  permits : s.permits + s.held.length + s.acquired.length + s.releasing.length = s.maxPanes
  apart : (s.held.map Prod.snd ++ s.available).Nodup
  old : ∀ pane ∈ s.held.map Prod.snd ++ s.available, pane < s.nextPane
  late : s.late = []
  unblocked : s.closed = true → ∀ c ∈ s.waiting, c.timeout = true

theorem consistent_new (maxPanes : Nat) : (new maxPanes).Consistent :=
  ⟨rfl, List.nodup_nil, fun _ h => absurd h List.not_mem_nil, rfl, nofun⟩

theorem Consistent.conserves (hs : s.Consistent) : s.Conserves := by
  refine ⟨(List.nodup_append.1 hs.apart).1, ?_, fun hq => ?_, hs.late, hs.unblocked⟩
  · have := hs.permits
    omega
  · have := hs.permits
    obtain ⟨-, hacquired, hreleasing, -⟩ := hq
    rw [hacquired, hreleasing] at this
    exact this

/-! ## Steps -/

/-- A pane out of those available. -/
theorem Consistent.take_available (hs : s.Consistent) (hc : c ∈ s.acquired) (hopen : s.closed = false) {rest : List Pane}
    (havail : s.available = pane :: rest) {handles : List (Thread × Pane)} :
    Consistent { ({ s with acquired := s.acquired.erase c, available := rest }.handOut c.thread pane) with handles } := by
  have hperm : ((c.thread, pane) :: s.held).map Prod.snd ++ rest ~ s.held.map Prod.snd ++ s.available := by
    rw [havail]
    exact List.perm_middle.symm
  refine ⟨?_, hperm.nodup_iff.2 hs.apart, fun q hq => hs.old q (hperm.mem_iff.1 hq), ?_, hs.unblocked⟩
  · have hlen := List.length_erase_of_mem hc
    have hpos := List.length_pos_of_mem hc
    have := hs.permits
    show s.permits + (s.held.length + 1) + (s.acquired.erase c).length + s.releasing.length = s.maxPanes
    omega
  · show (if s.closed then pane :: s.late else s.late) = []
    rw [hopen]
    exact hs.late

/-- A pane that was created. -/
theorem Consistent.take_created (hs : s.Consistent) (hc : c ∈ s.acquired) (hopen : s.closed = false)
    (havail : s.available = []) {handles : List (Thread × Pane)} :
    Consistent { ({ s with acquired := s.acquired.erase c, available := [] }.create.handOut c.thread s.nextPane) with
      handles } := by
  rw [← havail]
  have hfresh : s.nextPane ∉ s.held.map Prod.snd ++ s.available := fun h => Nat.lt_irrefl _ (hs.old _ h)
  refine ⟨?_, List.nodup_cons.2 ⟨hfresh, hs.apart⟩, fun q hq => ?_, ?_, hs.unblocked⟩
  · have hlen := List.length_erase_of_mem hc
    have hpos := List.length_pos_of_mem hc
    have := hs.permits
    show s.permits + (s.held.length + 1) + (s.acquired.erase c).length + s.releasing.length = s.maxPanes
    omega
  · show q < s.nextPane + 1
    rcases List.mem_cons.1 hq with rfl | hq
    · exact Nat.lt_succ_self _
    · exact Nat.lt_succ_of_lt (hs.old q hq)
  · show (if s.closed then s.nextPane :: s.late else s.late) = []
    rw [hopen]
    exact hs.late

theorem Consistent.take (hs : s.Consistent) (hc : c ∈ s.acquired) (hopen : s.closed = false) {created : Bool}
    (hpane : s.available ≠ [] ∨ created = true) : (s.take c created).Consistent := by
  unfold Pool.take
  dsimp only
  cases havail : s.available with
  | cons pane rest =>
    dsimp only
    split
    · exact hs.take_available hc hopen havail
    · exact hs.take_available hc hopen havail
  | nil =>
    have hcreated : created = true := hpane.resolve_left fun h => h havail
    subst hcreated
    dsimp only
    rw [if_pos rfl]
    split
    · exact hs.take_created hc hopen havail
    · exact hs.take_created hc hopen havail

theorem perm_held_erase (h : (t, pane) ∈ s.held) (ps : List Pane) :
    pane :: ((s.held.erase (t, pane)).map Prod.snd ++ ps) ~ s.held.map Prod.snd ++ ps :=
  ((List.perm_cons_erase h).map Prod.snd).symm.append_right ps

theorem Consistent.checkin (hs : s.Consistent) (hret : Returns s t pane) : (s.checkin t pane).Consistent := by
  unfold Pool.checkin
  dsimp only
  split
  · rename_i hall
    have hheld := hret.2 hall
    have hperm := perm_held_erase hheld s.available
    have hlen := List.length_erase_of_mem hheld
    have hpos := List.length_pos_of_mem hheld
    have hpermits := hs.permits
    have hparts : ∀ ps, ps = s.available ∨ ps = s.available ++ [pane] →
        ((s.held.erase (t, pane)).map Prod.snd ++ ps).Nodup ∧
          ∀ q ∈ (s.held.erase (t, pane)).map Prod.snd ++ ps, q < s.nextPane := by
      rintro ps (rfl | rfl)
      · exact ⟨((List.nodup_cons.1 (hperm.nodup_iff.2 hs.apart))).2,
          fun q hq => hs.old q (hperm.mem_iff.1 (List.mem_cons_of_mem _ hq))⟩
      · have hlast : (s.held.erase (t, pane)).map Prod.snd ++ (s.available ++ [pane]) ~
            s.held.map Prod.snd ++ s.available := by
          rw [← List.append_assoc]
          exact (List.perm_append_singleton _ _).trans hperm
        exact ⟨hlast.nodup_iff.2 hs.apart, fun q hq => hs.old q (hlast.mem_iff.1 hq)⟩
    obtain ⟨hnodup, hold⟩ := hparts (if s.closed then s.available else s.available ++ [pane]) (by
      cases s.closed
      · exact .inr rfl
      · exact .inl rfl)
    refine ⟨?_, hnodup, hold, hs.late, hs.unblocked⟩
    show s.permits + (s.held.erase (t, pane)).length + s.acquired.length + (s.releasing ++ [t]).length = s.maxPanes
    rw [List.length_append, List.length_singleton]
    omega
  · rename_i hall
    rw [List.erase_of_not_mem fun hheld => hall (hret.1 hheld)]
    exact hs

theorem Consistent.replace (hs : s.Consistent) (hopen : s.closed = false) (hheld : (t, old) ∈ s.held) :
    (s.replace t old).Consistent := by
  have hperm := perm_held_erase hheld s.available
  have hlen := List.length_erase_of_mem hheld
  have hpos := List.length_pos_of_mem hheld
  have hpermits := hs.permits
  have hsub : (s.held.erase (t, old)).map Prod.snd ++ s.available.erase old <+
      (s.held.erase (t, old)).map Prod.snd ++ s.available :=
    (List.Sublist.refl _).append List.erase_sublist
  have hold : ∀ q ∈ (s.held.erase (t, old)).map Prod.snd ++ s.available.erase old, q < s.nextPane :=
    fun q hq => hs.old q (hperm.mem_iff.1 (List.mem_cons_of_mem _ (hsub.subset hq)))
  refine ⟨?_, List.nodup_cons.2 ⟨fun h => Nat.lt_irrefl _ (hold _ h), ?_⟩, fun q hq => ?_, ?_, hs.unblocked⟩
  · show s.permits + ((s.held.erase (t, old)).length + 1) + s.acquired.length + s.releasing.length = s.maxPanes
    omega
  · exact (List.nodup_cons.1 (hperm.nodup_iff.2 hs.apart)).2.sublist hsub
  · show q < s.nextPane + 1
    rcases List.mem_cons.1 hq with rfl | hq
    · exact Nat.lt_succ_self _
    · exact Nat.lt_succ_of_lt (hold q hq)
  · show (if s.closed then s.nextPane :: s.late else s.late) = []
    rw [hopen]
    exact hs.late

attribute [local simp] Pool.step

theorem Consistent.checkout (hs : s.Consistent) (h : s.step (.checkout c) = some s') : s'.Consistent := by
  unfold Pool.step at h
  dsimp only at h
  split at h
  · cases h
  split at h
  · cases h
    exact hs
  · rename_i hopen
    cases h
    refine ⟨hs.permits, hs.apart, hs.old, hs.late, fun hclosed => ?_⟩
    rw [Bool.or_eq_true, not_or] at hopen
    exact absurd hclosed hopen.2

theorem Consistent.acquire (hs : s.Consistent) (h : s.step (.acquire c) = some s') : s'.Consistent := by
  have hpermits := hs.permits
  unfold Pool.step at h
  dsimp only at h
  split at h
  · rename_i hc
    cases h
    refine ⟨?_, hs.apart, hs.old, hs.late, fun hclosed d hd => hs.unblocked hclosed d (List.mem_of_mem_erase hd)⟩
    show s.permits - 1 + s.held.length + (s.acquired ++ [c]).length + s.releasing.length = s.maxPanes
    rw [List.length_append, List.length_singleton]
    omega
  · cases h

theorem Consistent.timeOut (hs : s.Consistent) (h : s.step (.timeOut c) = some s') : s'.Consistent := by
  unfold Pool.step at h
  dsimp only at h
  split at h
  · cases h
    exact ⟨hs.permits, hs.apart, hs.old, hs.late, fun hclosed d hd => hs.unblocked hclosed d (List.mem_of_mem_erase hd)⟩
  · cases h

theorem Consistent.release (hs : s.Consistent) (h : s.step (.release t) = some s') : s'.Consistent := by
  have hpermits := hs.permits
  unfold Pool.step at h
  dsimp only at h
  split at h
  · rename_i ht
    cases h
    refine ⟨?_, hs.apart, hs.old, hs.late, hs.unblocked⟩
    have hlen := List.length_erase_of_mem ht
    have hpos := List.length_pos_of_mem ht
    show s.permits + 1 + s.held.length + s.acquired.length + (s.releasing.erase t).length = s.maxPanes
    omega
  · cases h

theorem Consistent.leave (hs : s.Consistent) (hok : (PoolOp.leave t pane).Allowed s) (h : s.step (.leave t pane) = some s') :
    s'.Consistent := by
  unfold Pool.step at h
  dsimp only at h
  split at h
  · cases h
    have hs₁ : Consistent { s with handles := s.handles.erase (t, pane) } :=
      ⟨hs.permits, hs.apart, hs.old, hs.late, hs.unblocked⟩
    exact hs₁.checkin hok
  · cases h

theorem Consistent.close (hs : s.Consistent) (hok : (PoolOp.close t).Allowed s) (h : s.step (.close t) = some s') :
    s'.Consistent := by
  unfold Pool.step at h
  dsimp only at h
  split at h
  · cases h
  · cases h
    split
    · exact hs
    · rename_i hopen
      exact ⟨hs.permits, hs.apart, hs.old, hs.late, fun _ => hok.resolve_left hopen⟩

theorem Consistent.clear (hs : s.Consistent) (h : s.step (.clear t) = some s') : s'.Consistent := by
  unfold Pool.step at h
  dsimp only at h
  split at h
  · cases h
    have hapart : (s.held.map Prod.snd).Nodup := (List.nodup_append.1 hs.apart).1
    refine ⟨hs.permits, ?_, fun q hq => ?_, hs.late, hs.unblocked⟩
    · show (s.held.map Prod.snd ++ []).Nodup
      rwa [List.append_nil]
    · have hmem : q ∈ s.held.map Prod.snd ++ [] := hq
      rw [List.append_nil] at hmem
      exact hs.old q (List.mem_append_left _ hmem)
  · cases h

theorem Consistent.step (hs : s.Consistent) {op : PoolOp} (hok : op.Allowed s) (h : s.step op = some s') :
    s'.Consistent := by
  cases op with
  | start =>
    cases h
    exact ⟨hs.permits, hs.apart, hs.old, hs.late, hs.unblocked⟩
  | checkout c => exact hs.checkout h
  | acquire c => exact hs.acquire h
  | timeOut c => exact hs.timeOut h
  | take c created =>
    unfold Pool.step at h
    dsimp only at h
    split at h
    · cases h
      exact hs.take ‹_› hok.1 hok.2
    · cases h
  | checkin t pane =>
    unfold Pool.step at h
    dsimp only at h
    split at h
    · cases h
    · cases h
      exact hs.checkin hok
  | release t => exact hs.release h
  | replace t old created =>
    unfold Pool.step at h
    dsimp only at h
    split at h
    · cases h
    · cases h
      cases created with
      | false => exact hs
      | true =>
        obtain ⟨hopen, hheld⟩ := hok.resolve_left nofun
        exact hs.replace hopen hheld
  | assign t old new =>
    unfold Pool.step at h
    dsimp only at h
    split at h
    · cases h
      exact ⟨hs.permits, hs.apart, hs.old, hs.late, hs.unblocked⟩
    · cases h
  | leave t pane => exact hs.leave hok h
  | close t => exact hs.close hok h
  | clear t => exact hs.clear h

/-! ## Runs -/

theorem conserves_of_reaches (maxPanes : Nat) {s : Pool}
    (h : Reaches step (fun s op => op.Allowed s) (new maxPanes) s) : s.Conserves := by
  have hs : s.Consistent := h.invariant (consistent_new maxPanes) fun _ _ _ hs hok ht => hs.step hok ht
  exact hs.conserves

def first : Call := ⟨0, false, false⟩

def second : Call := ⟨1, true, true⟩

/-- One pane for two threads: the second waits, gives up, comes again, has its pane
replaced, and the pool is closed while the pane is held. -/
def sharedPane : List PoolOp :=
  [.start, .checkout first, .acquire first, .take first true, .checkout second, .timeOut second, .checkin 0 0,
    .release 0, .checkout second, .acquire second, .take second false, .replace 1 0 true, .assign 1 0 1, .leave 1 1,
    .release 1, .checkout first, .acquire first, .take first false, .close 2, .clear 2]

theorem conserves_shared : ∃ s, execAllowed step (fun s op => op.Allowed s) (new 1) sharedPane = some s ∧
    s.held = [(0, 1)] ∧ s.permits = 0 ∧ s.closed = true ∧ s.Conserves := by
  have hrun : (execAllowed step (fun s op => op.Allowed s) (new 1) sharedPane).map
      (fun s => (s.held, s.permits, s.closed)) = some ([(0, 1)], 0, true) := by decide +kernel
  obtain ⟨s, hs, hs'⟩ := Option.map_eq_some_iff.1 hrun
  obtain ⟨hheld, hrest⟩ := Prod.mk.inj hs'
  obtain ⟨hpermits, hclosed⟩ := Prod.mk.inj hrest
  exact ⟨s, hs, hheld, hpermits, hclosed, conserves_of_reaches 1 (reaches_of_execAllowed .init hs)⟩

/-- A permit that no caller has. -/
theorem not_conserves_of_permits (hquiet : s.Quiet) (h : s.permits + s.held.length ≠ s.maxPanes) : ¬ s.Conserves :=
  fun hs => h (hs.permits hquiet)

/-- A pane that cannot be created, a pane that comes back after the pool was closed,
a thread that waits while the pool is closed, and one that gets a pane from it. -/
theorem permit_lost :
    (∃ s, exec step (new 1) [.start, .checkout first, .acquire first, .take first false] = some s ∧ ¬ s.Conserves) ∧
    (∃ s, exec step (new 1) [.start, .checkout first, .acquire first, .take first true, .close 1, .clear 1,
      .checkin 0 0] = some s ∧ ¬ s.Conserves) ∧
    (∃ s, exec step (new 1) [.start, .checkout first, .acquire first, .take first true, .checkout ⟨1, false, false⟩,
      .close 2, .clear 2] = some s ∧ ¬ s.Conserves) ∧
    ∃ s, exec step (new 1) [.start, .checkout first, .acquire first, .close 1, .clear 1, .take first true] = some s ∧
      ¬ s.Conserves := by
  refine ⟨?_, ?_, ?_, ?_⟩
  · refine ⟨_, rfl, not_conserves_of_permits ⟨rfl, rfl, rfl, rfl⟩ ?_⟩
    decide
  · refine ⟨_, rfl, not_conserves_of_permits ⟨rfl, rfl, rfl, rfl⟩ ?_⟩
    decide
  · refine ⟨_, rfl, fun hs => ?_⟩
    have htimeout := hs.unblocked rfl ⟨1, false, false⟩ (List.mem_singleton.2 rfl)
    cases htimeout
  · refine ⟨_, rfl, fun hs => ?_⟩
    cases hs.late

end Pool

end AgentSdk.PanePool
