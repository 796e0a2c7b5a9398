import AgentSdk.DockerRegistry
import Mathlib.Data.List.Sort
import Mathlib.Data.List.TakeWhile
/-!
# Retention of stored runtimes

The retention pass of `Reclaimer` over the runtimes of many conversations, each
with its Docker registry. The pass reads when a runtime was last active first,
and archives the stale ones one by one later.
-/

namespace AgentSdk.Retention
open Lib

abbrev ConversationId := Nat

/-- `StoredRuntime`, as far as retention reads it. -/
structure StoredRuntime where
  id : ConversationId
  lastActive : Int
deriving DecidableEq

/-- `_enforce_retention`: listing the runtimes in a thread, then archiving. -/
inductive Pass where
  | none
  | listing (cutoff : Int) (found : List StoredRuntime)
  | archiving (cutoff : Int) (stale : List StoredRuntime)
deriving DecidableEq

/-- A move into the trash, with the state at that moment. -/
structure Move where
  id : ConversationId
  registry : RegistryWorld
  lastActive : Int
  cutoff : Int

/-- `dirs` are the directories in `runtime-data`, `lastActive` the times that
`runtime` reads. `used` (since the pass read it), `created`, `deleted` and
`moves` are kept for the statements. -/
structure World where
  now : Int := 0
  registries : ConversationId → RegistryWorld := fun _ => .initial
  dirs : ConversationId → Bool := fun _ => false
  lastActive : ConversationId → Int := fun _ => 0
  pass : Pass := .none
  used : ConversationId → Bool := fun _ => false
  created : List ConversationId := []
  deleted : List ConversationId := []
  moves : List Move := []

inductive Op where
  | wait (seconds : Nat)
  | create (c : ConversationId)
  /-- Any step of the conversation's registry but archiving. -/
  | registry (c : ConversationId) (op : RegistryOp)
  /-- The container writes the conversation's state. -/
  | use (c : ConversationId)
  /-- The deletion removes the directory. -/
  | remove (c : ConversationId)
  | startPass
  | read (c : ConversationId)
  | listed
  /-- The next stale runtime; the rename may fail. -/
  | reclaim (renamed : Bool)
deriving DecidableEq

namespace World

/-- `sorted(..., key=last_active)`, then the stale ones as a prefix. -/
def staleOf (cutoff : Int) (found : List StoredRuntime) : List StoredRuntime :=
  (found.insertionSort fun r s => r.lastActive ≤ s.lastActive).takeWhile fun r => r.lastActive ≤ cutoff

def setRegistry (w : World) (c : ConversationId) (s : RegistryWorld) : World :=
  { w with registries := Function.update w.registries c s }

/-- The block under the lifecycle lock: the marker, then the rename. -/
def archive (w : World) (cutoff : Int) (c : ConversationId) (s : RegistryWorld) (renamed : Bool) : World :=
  if renamed && w.dirs c then
    { w.setRegistry c s with
      dirs := Function.update w.dirs c false
      moves := w.moves ++ [⟨c, w.registries c, w.lastActive c, cutoff⟩] }
  else w.setRegistry c s

/-- `runtime`: nothing is listed for a directory that is gone. -/
def readRuntime (w : World) (cutoff : Int) (found : List StoredRuntime) (c : ConversationId) : World :=
  if w.dirs c then
    { w with pass := .listing cutoff (found ++ [⟨c, w.lastActive c⟩]), used := Function.update w.used c false }
  else w

/-- `retention` is in seconds. -/
def step (retention : Nat) (w : World) : Op → Option World
  | .wait seconds => some { w with now := w.now + seconds }
  | .create c =>
    if c ∈ w.created then none
    else
      some { w with
        dirs := Function.update w.dirs c true
        lastActive := Function.update w.lastActive c w.now
        created := w.created ++ [c] }
  | .registry c op => if op = .archive then none else ((w.registries c).step op).map (w.setRegistry c)
  | .use c =>
    if ∃ t < (w.registries c).nextTask, (w.registries c).running t = true then
      some { w with lastActive := Function.update w.lastActive c w.now, used := Function.update w.used c true }
    else none
  | .remove c =>
    if (w.registries c).deleting then
      some { w with dirs := Function.update w.dirs c false, deleted := w.deleted ++ [c] }
    else none
  | .startPass => if w.pass = .none then some { w with pass := .listing (w.now - retention) [] } else none
  | .read c =>
    match w.pass with
    | .listing cutoff found => if c ∈ found.map StoredRuntime.id then none else some (w.readRuntime cutoff found c)
    | _ => none
  | .listed =>
    match w.pass with
    | .listing cutoff found => some { w with pass := .archiving cutoff (staleOf cutoff found) }
    | _ => none
  | .reclaim renamed =>
    match w.pass with
    | .archiving _ [] => some { w with pass := .none }
    | .archiving cutoff (r :: stale) =>
      let w' := { w with pass := .archiving cutoff stale }
      match (w.registries r.id).step .archive with
      | some s => some (w'.archive cutoff r.id s renamed)
      | none => some w'
    | _ => none

end World

/-! ## What has to hold -/

/-- The move was of a stale runtime that stood still. -/
structure Move.Retained (m : Move) : Prop where
  still : ∀ t, ¬ m.registry.Live t
  notDeleting : m.registry.deleting = false
  stale : m.lastActive ≤ m.cutoff

/-- Only stale, still runtimes were moved, and a directory that was neither
moved nor deleted is in its place. -/
structure Safe (w : World) : Prop where
  moves : ∀ m ∈ w.moves, m.Retained
  inPlace : ∀ c ∈ w.created, w.dirs c = true ∨ c ∈ w.deleted ∨ ∃ m ∈ w.moves, m.id = c

/-! ## The condition -/

/-- No operation has in hand a container that runs or may come to run. -/
def EmptyHanded (s : RegistryWorld) : Prop :=
  ∀ i < s.nextOp, ∀ t < s.nextTask, (s.ops i).held? = some t → ¬ s.Live t

instance emptyHandedDecidable (s : RegistryWorld) : Decidable (EmptyHanded s) :=
  inferInstanceAs (Decidable (∀ i < s.nextOp, ∀ t < s.nextTask, (s.ops i).held? = some t → ¬ s.Live t))

/-- `runtime_idle`, and the directory is in its place. -/
def MovesNow (w : World) (c : ConversationId) : Prop :=
  ((w.registries c).step .archive).isSome = true ∧ w.dirs c = true

instance movesNowDecidable (w : World) (c : ConversationId) : Decidable (MovesNow w c) :=
  inferInstanceAs (Decidable (_ ∧ _))

/-- The runtime was not used since the pass read it, and no stop or eviction
has taken its container or start out of the registry and is not done with it. -/
def Settled (w : World) (c : ConversationId) : Prop := w.used c = false ∧ EmptyHanded (w.registries c)

instance settledDecidable (w : World) (c : ConversationId) : Decidable (Settled w c) :=
  inferInstanceAs (Decidable (_ ∧ _))

/-- The registries lose no container, and a runtime that goes is settled. -/
def Op.Allowed (w : World) : Op → Prop
  | .registry c op => (w.registries c).Allowed op
  | .reclaim renamed =>
    match w.pass with
    | .archiving _ (r :: _) =>
      ((w.registries r.id).step .archive).isSome = true →
        (w.registries r.id).Allowed .archive ∧ (renamed = true → w.dirs r.id = true → Settled w r.id)
    | _ => True
  | _ => True

instance Op.decidableAllowed (w : World) (op : Op) : Decidable (op.Allowed w) := by
  unfold Op.Allowed
  split
  · infer_instance
  · split <;> infer_instance
  · infer_instance

/-! ## The invariant -/

/-- The runtimes that the pass has read. -/
def Pass.runtimes : Pass → List StoredRuntime
  | .none => []
  | .listing _ found => found
  | .archiving _ stale => stale

structure Consistent (w : World) : Prop where
  registries : ∀ c, (w.registries c).Consistent
  created : ∀ c, w.dirs c = true → c ∈ w.created
  read : ∀ r ∈ w.pass.runtimes, r.id ∈ w.created ∧ (w.used r.id = false → w.lastActive r.id = r.lastActive)
  stale : ∀ cutoff stale, w.pass = .archiving cutoff stale → ∀ r ∈ stale, r.lastActive ≤ cutoff
  safe : Safe w

theorem Consistent.init : Consistent {} where
  registries _ := .initial
  created _ h := by cases h
  read _ h := by cases h
  stale _ _ h := by cases h
  safe := ⟨fun _ h => (List.not_mem_nil h).elim, fun _ h => (List.not_mem_nil h).elim⟩

theorem mem_staleOf {cutoff : Int} {found : List StoredRuntime} {r : StoredRuntime}
    (h : r ∈ World.staleOf cutoff found) : r ∈ found ∧ r.lastActive ≤ cutoff := by
  unfold World.staleOf at h
  exact ⟨(List.mem_insertionSort _).1 ((List.takeWhile_sublist _).subset h), by simpa using List.mem_takeWhile_imp h⟩

/-- With nothing registered and all hands empty no container runs or starts. -/
theorem not_live {s : RegistryWorld} (h : s.Consistent) (hempty : EmptyHanded s) (hnone : s.containers = none)
    (t : Nat) : ¬ s.Live t := by
  intro hlive
  have hknown : t < s.nextTask := by
    by_contra hle
    have hfresh := h.freshTask t (Nat.le_of_not_lt hle)
    rcases hlive with hbuild | hboot | hrun
    · rw [hfresh] at hbuild
      cases hbuild
    · rw [hfresh] at hboot
      cases hboot
    · rcases h.started t hrun with hk | hk <;> rw [hfresh] at hk <;> cases hk
  rcases h.kept t hlive with hreg | ⟨i, hi⟩
  · rw [hnone] at hreg
    cases hreg
  · have hop : i < s.nextOp := by
      refine h.lt_nextOp fun hidle => ?_
      rw [hidle] at hi
      cases hi
    exact hempty i hop t hknown hi hlive

theorem archive_some {s s' : RegistryWorld} (h : s.step .archive = some s') :
    s.containers = none ∧ s.starts = none ∧ s.deleting = false := by
  dsimp only [RegistryWorld.step] at h
  split at h
  · assumption
  · cases h

section Steps
variable {retention : Nat} {w w' : World}

/-- A step that leaves the directories and the moves alone. -/
theorem Safe.congr (h : Safe w) (hcreated : w'.created = w.created) (hdirs : w'.dirs = w.dirs)
    (hdeleted : w'.deleted = w.deleted) (hmoves : w'.moves = w.moves) : Safe w' where
  moves := by
    rw [hmoves]
    exact h.moves
  inPlace := by
    rw [hcreated, hdirs, hdeleted, hmoves]
    exact h.inPlace

theorem Consistent.setRegistry {c : ConversationId} {s : RegistryWorld} (h : Consistent w) (hs : s.Consistent) :
    Consistent (w.setRegistry c s) where
  registries c' := by
    by_cases hc : c' = c
    · subst hc
      show (Function.update w.registries c' s c').Consistent
      rw [Function.update_self]
      exact hs
    · show (Function.update w.registries c s c').Consistent
      rw [Function.update_of_ne hc]
      exact h.registries c'
  created := h.created
  read := h.read
  stale := h.stale
  safe := h.safe.congr rfl rfl rfl rfl

attribute [local simp] World.step

theorem Consistent.create {c : ConversationId} (h : Consistent w) (hstep : w.step retention (.create c) = some w') :
    Consistent w' := by
  dsimp only [World.step] at hstep
  split at hstep
  · cases hstep
  · rename_i hnew
    cases hstep
    refine ⟨h.registries, fun c' hc' => ?_, fun r hr => ?_, h.stale, h.safe.moves, fun c' hc' => ?_⟩
    · dsimp only at hc'
      by_cases heq : c' = c
      · exact heq ▸ List.mem_append_right _ (List.mem_singleton_self _)
      · rw [Function.update_of_ne heq] at hc'
        exact List.mem_append_left _ (h.created c' hc')
    · obtain ⟨hmem, hactive⟩ := h.read r hr
      have hne : r.id ≠ c := fun heq => hnew (heq ▸ hmem)
      refine ⟨List.mem_append_left _ hmem, fun hused => ?_⟩
      show Function.update w.lastActive c w.now r.id = _
      rw [Function.update_of_ne hne]
      exact hactive hused
    · show Function.update w.dirs c true c' = true ∨ _
      by_cases heq : c' = c
      · rw [heq, Function.update_self]
        exact .inl rfl
      · rw [Function.update_of_ne heq]
        exact h.safe.inPlace c' ((List.mem_append.1 hc').resolve_right fun hc => heq (List.mem_singleton.1 hc))

theorem Consistent.use {c : ConversationId} (h : Consistent w) (hstep : w.step retention (.use c) = some w') :
    Consistent w' := by
  dsimp only [World.step] at hstep
  split at hstep
  · cases hstep
    refine ⟨h.registries, h.created, fun r hr => ?_, h.stale, h.safe.congr rfl rfl rfl rfl⟩
    obtain ⟨hmem, hactive⟩ := h.read r hr
    refine ⟨hmem, fun hused => ?_⟩
    dsimp only at hused ⊢
    by_cases heq : r.id = c
    · rw [heq, Function.update_self] at hused
      cases hused
    · rw [Function.update_of_ne heq] at hused ⊢
      exact hactive hused
  · cases hstep

theorem Consistent.remove {c : ConversationId} (h : Consistent w) (hstep : w.step retention (.remove c) = some w') :
    Consistent w' := by
  dsimp only [World.step] at hstep
  split at hstep
  · cases hstep
    refine ⟨h.registries, fun c' hc' => ?_, h.read, h.stale, h.safe.moves, fun c' hc' => ?_⟩
    · dsimp only at hc'
      by_cases heq : c' = c
      · rw [heq, Function.update_self] at hc'
        cases hc'
      · rw [Function.update_of_ne heq] at hc'
        exact h.created c' hc'
    · by_cases heq : c' = c
      · exact .inr (.inl (heq ▸ List.mem_append_right _ (List.mem_singleton_self _)))
      · show Function.update w.dirs c false c' = true ∨ _
        rw [Function.update_of_ne heq]
        exact (h.safe.inPlace c' hc').imp_right fun hor => hor.imp_left (List.mem_append_left _)
  · cases hstep

theorem Consistent.readStep {c : ConversationId} (h : Consistent w) (hstep : w.step retention (.read c) = some w') :
    Consistent w' := by
  dsimp only [World.step] at hstep
  split at hstep
  · rename_i cutoff found hpass
    split at hstep
    · cases hstep
    · cases hstep
      unfold World.readRuntime
      split
      · rename_i hdir
        refine ⟨h.registries, h.created, fun r hr => ?_, nofun, h.safe.congr rfl rfl rfl rfl⟩
        have hmem : r ∈ found ++ [⟨c, w.lastActive c⟩] := hr
        by_cases heq : r.id = c
        · rcases List.mem_append.1 hmem with hold | hnew
          · rename_i hfresh
            exact absurd (heq ▸ List.mem_map_of_mem hold) hfresh
          · rw [List.mem_singleton.1 hnew]
            exact ⟨h.created c hdir, fun _ => rfl⟩
        · have hold : r ∈ found := by
            refine (List.mem_append.1 hmem).resolve_right fun hnew => heq ?_
            rw [List.mem_singleton.1 hnew]
          have hread := h.read r (by rw [hpass]; exact hold)
          refine ⟨hread.1, fun hused => hread.2 ?_⟩
          dsimp only at hused
          rwa [Function.update_of_ne heq] at hused
      · exact h
  · cases hstep

theorem Consistent.listed (h : Consistent w) (hstep : w.step retention .listed = some w') : Consistent w' := by
  dsimp only [World.step] at hstep
  split at hstep
  · rename_i cutoff found hpass
    cases hstep
    refine ⟨h.registries, h.created, fun r hr => ?_, fun c stale hc r hr => ?_, h.safe.congr rfl rfl rfl rfl⟩
    · exact h.read r (by rw [hpass]; exact (mem_staleOf hr).1)
    · cases hc
      exact (mem_staleOf hr).2
  · cases hstep

/-- The archiving of one runtime. -/
theorem Consistent.archive {cutoff : Int} {r : StoredRuntime} {s : RegistryWorld} {renamed : Bool} (h : Consistent w)
    (hs : (w.registries r.id).step .archive = some s) (hok : (w.registries r.id).Allowed .archive)
    (hsettled : renamed = true → w.dirs r.id = true → Settled w r.id) (hstale : r.lastActive ≤ cutoff)
    (hread : w.used r.id = false → w.lastActive r.id = r.lastActive) :
    Consistent (w.archive cutoff r.id s renamed) := by
  have hcons : s.Consistent := (h.registries r.id).step hok hs
  have hset := h.setRegistry (c := r.id) hcons
  unfold World.archive
  split
  · rename_i hmove
    rw [Bool.and_eq_true] at hmove
    obtain ⟨hused, hempty⟩ := hsettled hmove.1 hmove.2
    obtain ⟨hnone, -, hdeleting⟩ := archive_some hs
    refine ⟨hset.registries, fun c hc => ?_, h.read, h.stale, fun m hm => ?_, fun c hc => ?_⟩
    · dsimp only at hc
      by_cases heq : c = r.id
      · rw [heq, Function.update_self] at hc
        cases hc
      · rw [Function.update_of_ne heq] at hc
        exact h.created c hc
    · rcases List.mem_append.1 hm with hm | hm
      · exact h.safe.moves m hm
      · rw [List.mem_singleton.1 hm]
        exact ⟨not_live (h.registries r.id) hempty hnone, hdeleting, by rw [hread hused]; exact hstale⟩
    · by_cases heq : c = r.id
      · exact .inr (.inr ⟨_, List.mem_append_right _ (List.mem_singleton_self _), heq.symm⟩)
      · show Function.update w.dirs r.id false c = true ∨ _
        rw [Function.update_of_ne heq]
        refine (h.safe.inPlace c hc).imp_right fun hor => hor.imp_right ?_
        rintro ⟨m, hm, hid⟩
        exact ⟨m, List.mem_append_left _ hm, hid⟩
  · exact hset

theorem Consistent.reclaim {renamed : Bool} (h : Consistent w) (hok : (Op.reclaim renamed).Allowed w)
    (hstep : w.step retention (.reclaim renamed) = some w') : Consistent w' := by
  dsimp only [World.step] at hstep
  unfold Op.Allowed at hok
  split at hstep
  · cases hstep
    exact ⟨h.registries, h.created, fun _ hr => (List.not_mem_nil hr).elim, nofun, h.safe.congr rfl rfl rfl rfl⟩
  · rename_i cutoff r stale hpass
    rw [hpass] at hok
    have hrest : Consistent { w with pass := .archiving cutoff stale } := by
      refine ⟨h.registries, h.created, fun r' hr' => ?_, fun c l hc r' hr' => ?_, h.safe.congr rfl rfl rfl rfl⟩
      · exact h.read r' (by rw [hpass]; exact List.mem_cons_of_mem _ hr')
      · cases hc
        exact h.stale cutoff _ hpass r' (List.mem_cons_of_mem _ hr')
    split at hstep
    · rename_i s hs
      cases hstep
      obtain ⟨hallowed, hsettled⟩ := hok (by rw [hs]; rfl)
      refine hrest.archive hs hallowed hsettled (h.stale cutoff _ hpass r List.mem_cons_self) ?_
      exact (h.read r (by rw [hpass]; exact List.mem_cons_self)).2
    · cases hstep
      exact hrest
  · cases hstep

/-- Every step keeps the invariant. -/
theorem Consistent.step {op : Op} (h : Consistent w) (hok : op.Allowed w) (hstep : w.step retention op = some w') :
    Consistent w' := by
  cases op with
  | wait seconds =>
    cases hstep
    exact ⟨h.registries, h.created, h.read, h.stale, h.safe.congr rfl rfl rfl rfl⟩
  | create c => exact h.create hstep
  | registry c op =>
    dsimp only [World.step] at hstep
    split at hstep
    · cases hstep
    · obtain ⟨s, hs, rfl⟩ := Option.map_eq_some_iff.1 hstep
      exact h.setRegistry ((h.registries c).step hok hs)
  | use c => exact h.use hstep
  | remove c => exact h.remove hstep
  | startPass =>
    dsimp only [World.step] at hstep
    split at hstep
    · cases hstep
      exact ⟨h.registries, h.created, fun _ hr => (List.not_mem_nil hr).elim, nofun, h.safe.congr rfl rfl rfl rfl⟩
    · cases hstep
  | read c => exact h.readStep hstep
  | listed => exact h.listed hstep
  | reclaim renamed => exact h.reclaim hok hstep

end Steps

/-- Every run: only stale runtimes without a container are moved, and the
others stay where they are. -/
theorem retained_of_reaches (retention : Nat) {w : World}
    (h : Reaches (World.step retention) (fun w op => op.Allowed w) {} w) : Safe w :=
  (h.invariant Consistent.init fun _ _ _ hc hok hstep => hc.step hok hstep).safe

/-! ## Runs of a pass -/

section Runs

/-- The conversation's container is started, used and stopped again. -/
def session (c : ConversationId) (op task : Nat) : List Op :=
  [.registry c .getOrCreate, .registry c (.enter op), .registry c (.start op), .registry c (.dockerRun task),
    .registry c (.ready task), .registry c (.wake op), .registry c (.finish op), .use c, .registry c .stop,
    .registry c (.dockerStop (op + 1) true)]

def stored (w : World) : Bool × Bool × List (ConversationId × Int × Int) :=
  (w.dirs 1, w.dirs 2, w.moves.map fun m => (m.id, m.lastActive, m.cutoff))

/-- Two runtimes, of which one is stale. -/
theorem retained_of_reaches_stale :
    ∃ w, stored w = (false, true, [(1, 0, 900)]) ∧ Safe w := by
  have hrun : (execAllowed (World.step 100) (fun w op => op.Allowed w) {}
      ([.create 1] ++ session 1 0 0 ++ [.wait 1000, .create 2, .startPass, .read 2, .read 1, .listed] ++
        [.reclaim true, .reclaim true])).map stored = some (false, true, [(1, 0, 900)]) := by
    decide +kernel
  obtain ⟨w, hw, hval⟩ := Option.map_eq_some_iff.1 hrun
  exact ⟨w, hval, retained_of_reaches 100 (reaches_of_execAllowed .init hw)⟩

/-- The user works in the conversation between the listing and the archiving. -/
theorem archived_after_use :
    ¬ ∀ w, Reaches (World.step 100) (fun _ _ => True) {} w → Safe w := by
  intro hall
  have hrun : (exec (World.step 100) {}
      ([.create 1, .wait 1000, .startPass, .read 1, .listed] ++ session 1 0 0 ++ [.reclaim true])).map
        stored = some (false, false, [(1, 1000, 900)]) := by
    decide +kernel
  obtain ⟨w, hw, hval⟩ := Option.map_eq_some_iff.1 hrun
  have hsafe := hall w (reaches_of_exec .init hw)
  obtain ⟨-, -, hmoves⟩ := Prod.mk.inj hval |>.imp_right Prod.mk.inj
  obtain ⟨m, hm, hval⟩ := List.mem_map.1 (hmoves ▸ List.mem_singleton_self (1, 1000, 900))
  have hstale := (hsafe.moves m hm).stale
  simp only [Prod.mk.injEq] at hval
  omega

end Runs

end AgentSdk.Retention
