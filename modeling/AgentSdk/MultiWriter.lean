import AgentSdk.EventStore
import AgentSdk.Lib.Runs
/-!
# Many writers over one events directory

`append` of several `EventLog` instances: a writer holds the lock from the
look at its length marker until the marker of the new length is written, and
it can crash between any two of its operations on the directory. Instances scan the directory
at any time, without the lock.
-/

namespace AgentSdk.EventStore
open Lib

/-- How far the append that holds the lock has come. -/
inductive Phase where
  | synced
  | fileWritten (previousLength : Nat) (id : EventID)
  | markerDeleted (id : EventID)
deriving DecidableEq, Repr

/-- The directory, the instances and the lock on it. Kept for the statements
only: the event files written, the appends that returned, and which of these
had returned when an instance last scanned the directory or took the lock. -/
structure World where
  store : Store := {}
  instances : Nat → Option Log := fun _ => none
  lock : Option (Nat × Phase) := none
  written : List EventFile := []
  returned : List EventID := []
  seen : Nat → List EventID := fun _ => []

inductive WriterOp where
  | scan (i : Nat)
  | lock (i : Nat)
  | writeFile (i : Nat) (e : Event) (guard : Bool)
  | deleteMarker (i : Nat)
  | writeMarker (i : Nat)
  | crash (i : Nat)

namespace World

/-- `_scan_and_build_index`, by a new instance or by one whose index is stale. -/
def scan (w : World) (i : Nat) : Option World :=
  if w.lock.any (·.1 = i) then none
  else
    some { w with
      instances := Function.update w.instances i (some (Log.scanAndBuildIndex w.store))
      seen := Function.update w.seen i w.returned }

/-- `append` takes the lock and syncs. -/
def takeLock (w : World) (i : Nat) : Option World :=
  match w.lock, w.instances i with
  | none, some s =>
    some { w with
      instances := Function.update w.instances i (some (s.syncForAppend w.store))
      lock := some (i, .synced)
      seen := Function.update w.seen i w.returned }
  | _, _ => none

/-- `append` writes the event file and notes it in memory; a refused event or
a write guard that raises leaves everything as it is. -/
def writeFile (w : World) (i : Nat) (e : Event) (guard : Bool) : Option World :=
  match w.lock, w.instances i with
  | some (j, .synced), some s =>
    if j ≠ i then none
    else
      match s.check e, guard with
      | .ok (), true =>
        some { w with
          store := w.store.write (s.nextFile e.id)
          instances := Function.update w.instances i (some (s.record (s.nextFile e.id)))
          lock := some (i, .fileWritten s.length e.id)
          written := w.written ++ [s.nextFile e.id] }
      | _, _ => some { w with lock := none }
  | _, _ => none

/-- The first half of `_advance_length_marker`. -/
def deleteMarker (w : World) (i : Nat) : Option World :=
  match w.lock with
  | some (j, .fileWritten previousLength id) =>
    if j ≠ i then none
    else some { w with store := w.store.deleteMarker previousLength, lock := some (i, .markerDeleted id) }
  | _ => none

/-- The second half of `_advance_length_marker`; `append` returns. -/
def writeMarker (w : World) (i : Nat) : Option World :=
  match w.lock, w.instances i with
  | some (j, .markerDeleted id), some s =>
    if j ≠ i then none
    else some { w with store := w.store.writeMarker s.length, lock := none, returned := w.returned ++ [id] }
  | _, _ => none

/-- The process of an instance dies; the lock goes with it. -/
def crash (w : World) (i : Nat) : Option World :=
  some { w with
    instances := Function.update w.instances i none
    lock := if w.lock.any (·.1 = i) then none else w.lock }

def step (w : World) : WriterOp → Option World
  | .scan i => w.scan i
  | .lock i => w.takeLock i
  | .writeFile i e guard => w.writeFile i e guard
  | .deleteMarker i => w.deleteMarker i
  | .writeMarker i => w.writeMarker i
  | .crash i => w.crash i

/-- The marker of the instance's length exists although the directory holds
more event files. -/
def staleMarker (w : World) (i : Nat) : Bool :=
  (w.instances i).any fun s => s.length ∈ w.store.markers && w.store.countEventsOnDisk > s.length

end World

/-- No append starts on a stale marker, and the ids are ones that a scan reads. -/
def WriterOp.Allowed (w : World) : WriterOp → Prop
  | .lock i => w.staleMarker i = false
  | .writeFile _ e _ => MatchesNameRe e.id
  | _ => True

instance WriterOp.decidableAllowed (w : World) (op : WriterOp) : Decidable (op.Allowed w) :=
  match op with
  | .lock i => inferInstanceAs (Decidable (w.staleMarker i = false))
  | .writeFile _ e _ => inferInstanceAs (Decidable (MatchesNameRe e.id))
  | .scan _ | .deleteMarker _ | .writeMarker _ | .crash _ => isTrue trivial

/-- No index is used twice, no file is overwritten or gone, and each instance
has what had been acknowledged when it last looked. -/
structure Durable (w : World) : Prop where
  indices : (w.store.files.map EventFile.diskIdx).Nodup
  kept : w.written.Nodup ∧ w.store.files = w.written
  contained : ∀ i s, w.instances i = some s → ∀ id ∈ w.seen i, s.contains id = true

/-! ## The invariant -/

structure Consistent (w : World) : Prop where
  indices : w.store.files.map EventFile.diskIdx = List.range w.store.files.length
  ids : (w.store.files.map EventFile.eventId).Nodup
  matching : ∀ f ∈ w.store.files, MatchesNameRe f.eventId
  written : w.written = w.store.files
  instances : ∀ i s, w.instances i = some s → ∃ found, found <+: w.store.files ∧ s = Log.ofFiles found ∧
    ∀ id ∈ w.seen i, ∃ f ∈ found, f.eventId = id
  holder : ∀ i phase, w.lock = some (i, phase) → ∀ s, w.instances i = some s → s = Log.ofFiles w.store.files
  returned : ∀ id ∈ w.returned, ∃ f ∈ w.store.files, f.eventId = id
  returning : ∀ i n id, w.lock = some (i, .fileWritten n id) ∨ w.lock = some (i, .markerDeleted id) →
    ∃ f ∈ w.store.files, f.eventId = id

theorem World.length_le_of_marker {w : World} {i : Nat} {s : Log} (hok : w.staleMarker i = false)
    (hs : w.instances i = some s) (hmarker : s.length ∈ w.store.markers) : w.store.files.length ≤ s.length := by
  simpa [World.staleMarker, hs, hmarker, Store.countEventsOnDisk_eq] using hok

section Consistent
variable {w : World} (h : Consistent w)
include h

theorem Consistent.readable : w.store.Readable := by
  refine ⟨List.pairwise_map.1 ?_, h.matching⟩
  rw [h.indices]
  exact List.pairwise_lt_range

theorem Consistent.nextFile (id : EventID) :
    (Log.ofFiles w.store.files).nextFile id = ⟨w.store.files.length, id⟩ := by
  have hnext : (Log.ofFiles w.store.files).nextDiskIdx = w.store.files.length := by
    have hidx := h.indices
    rw [Log.nextDiskIdx_ofFiles]
    generalize w.store.files = files at hidx
    cases files using List.reverseRecOn with
    | nil => rfl
    | append_singleton files f =>
      rw [List.map_append, List.length_append, List.length_singleton, List.range_succ] at hidx
      have := List.append_inj' hidx rfl
      simp [(List.cons.inj this.2).1]
  rw [Log.nextFile, hnext, Log.length_ofFiles, Nat.max_self]

/-- Unless the marker is stale, an append starts from the whole directory. -/
theorem Consistent.syncForAppend {i : Nat} {s : Log} (hs : w.instances i = some s) (hok : w.staleMarker i = false) :
    s.syncForAppend w.store = Log.ofFiles w.store.files := by
  obtain ⟨found, hpre, rfl, -⟩ := h.instances i s hs
  have hall : w.store.files.length ≤ found.length → found = w.store.files :=
    fun hle => hpre.eq_of_length (Nat.le_antisymm hpre.length_le hle)
  unfold Log.syncForAppend
  rw [Store.countEventsOnDisk_eq]
  split
  · rename_i hmarker
    rw [hall (World.length_le_of_marker hok hs hmarker)]
  · split
    · exact h.readable.syncFromDisk_eq hpre.length_le
    · rename_i hle
      rw [Log.length_ofFiles] at hle
      rw [hall (by omega)]

theorem Consistent.scan {i : Nat} {w' : World} (hw : w.scan i = some w') : Consistent w' := by
  unfold World.scan at hw
  split at hw
  · cases hw
  · rename_i hlock
    cases hw
    refine ⟨h.indices, h.ids, h.matching, h.written, fun j s hs => ?_, fun j phase hj s hs => ?_, h.returned,
      h.returning⟩
    · dsimp only at hs ⊢
      by_cases hij : j = i
      · subst hij
        rw [Function.update_self] at hs
        cases hs
        refine ⟨w.store.files, List.prefix_rfl, h.readable.scan_eq, fun id hid => ?_⟩
        rw [Function.update_self] at hid
        exact h.returned id hid
      · rw [Function.update_of_ne hij] at hs
        obtain ⟨found, hpre, hfound, hseen⟩ := h.instances j s hs
        refine ⟨found, hpre, hfound, fun id hid => hseen id ?_⟩
        rwa [Function.update_of_ne hij] at hid
    · have hij : j ≠ i := by
        rintro rfl
        have hheld : w.lock = some (j, phase) := hj
        simp [hheld] at hlock
      dsimp only at hs
      rw [Function.update_of_ne hij] at hs
      exact h.holder j phase hj s hs

theorem Consistent.takeLock {i : Nat} {w' : World} (hok : w.staleMarker i = false) (hw : w.takeLock i = some w') :
    Consistent w' := by
  unfold World.takeLock at hw
  split at hw
  · rename_i s hlock hs
    cases hw
    rw [h.syncForAppend hs hok]
    refine ⟨h.indices, h.ids, h.matching, h.written, fun j t ht => ?_, fun j phase hj t ht => ?_, h.returned, ?_⟩
    · dsimp only at ht ⊢
      by_cases hij : j = i
      · subst hij
        rw [Function.update_self] at ht
        cases ht
        refine ⟨w.store.files, List.prefix_rfl, rfl, fun id hid => ?_⟩
        rw [Function.update_self] at hid
        exact h.returned id hid
      · rw [Function.update_of_ne hij] at ht
        obtain ⟨found, hpre, hfound, hseen⟩ := h.instances j t ht
        refine ⟨found, hpre, hfound, fun id hid => hseen id ?_⟩
        rwa [Function.update_of_ne hij] at hid
    · cases hj
      dsimp only at ht
      rw [Function.update_self] at ht
      exact (Option.some.inj ht).symm
    · rintro j n id (hj | hj) <;> cases hj
  · cases hw

theorem Consistent.writeFile {i : Nat} {e : Event} {guard : Bool} {w' : World} (hid : MatchesNameRe e.id)
    (hw : w.writeFile i e guard = some w') : Consistent w' := by
  unfold World.writeFile at hw
  split at hw
  · rename_i j s hlock hs
    split at hw
    · cases hw
    · rename_i hij
      obtain rfl := not_not.1 hij
      have hwhole := h.holder j _ hlock s hs
      subst hwhole
      split at hw
      · rename_i hcheck
        cases hw
        -- The log of this writer has every file, and it does not know the id.
        have hnew : ∀ f ∈ w.store.files, f.eventId ≠ e.id := by
          intro f hf heq
          have := Log.not_contains_of_check hcheck
          rw [(Log.contains_ofFiles _ _).2 ⟨f, hf, heq⟩] at this
          cases this
        have hfile : (⟨w.store.files.length, e.id⟩ : EventFile) ∉ w.store.files := fun hf => hnew _ hf rfl
        have hfiles : (w.store.write ⟨w.store.files.length, e.id⟩).files =
            w.store.files ++ [⟨w.store.files.length, e.id⟩] := if_neg hfile
        rw [h.nextFile, Log.record_ofFiles hnew]
        refine ⟨?_, ?_, ?_, ?_, fun k t ht => ?_, fun k phase hk t ht => ?_, fun id hmem => ?_, fun k n id hk => ?_⟩
        · rw [hfiles, List.map_append, h.indices, List.length_append, List.length_singleton, List.range_succ]
          rfl
        · rw [hfiles, List.map_append, List.nodup_append]
          refine ⟨h.ids, by simp, ?_⟩
          rintro id hmem id' hmem' rfl
          obtain ⟨f, hf, rfl⟩ := List.mem_map.1 hmem
          exact hnew f hf (by simpa using hmem')
        · rw [hfiles]
          intro f hf
          rcases List.mem_append.1 hf with hf | hf
          · exact h.matching f hf
          · rw [List.mem_singleton.1 hf]
            exact hid
        · rw [hfiles, h.written]
        · dsimp only at ht ⊢
          rw [hfiles]
          -- What another writer has seen is still a start of the files.
          by_cases hkj : k = j
          · subst hkj
            rw [Function.update_self] at ht
            cases ht
            refine ⟨_, List.prefix_rfl, rfl, fun id hmem => ?_⟩
            obtain ⟨found, hpre, -, hseen⟩ := h.instances k _ hs
            obtain ⟨f, hf, hfid⟩ := hseen id hmem
            exact ⟨f, List.mem_append_left _ (hpre.subset hf), hfid⟩
          · rw [Function.update_of_ne hkj] at ht
            obtain ⟨found, hpre, hfound, hseen⟩ := h.instances k t ht
            exact ⟨found, hpre.trans (List.prefix_append _ _), hfound, hseen⟩
        · cases hk
          dsimp only at ht ⊢
          rw [Function.update_self] at ht
          rw [hfiles]
          exact (Option.some.inj ht).symm
        · obtain ⟨f, hf, hfid⟩ := h.returned id hmem
          dsimp only
          rw [hfiles]
          exact ⟨f, List.mem_append_left _ hf, hfid⟩
        · rcases hk with hk | hk
          · cases hk
            dsimp only
            rw [hfiles]
            exact ⟨_, List.mem_append_right _ (List.mem_singleton_self _), rfl⟩
          · cases hk
      · cases hw
        exact ⟨h.indices, h.ids, h.matching, h.written, h.instances, by simp, h.returned, by simp⟩
  · cases hw

theorem Consistent.deleteMarker {i : Nat} {w' : World} (hw : w.deleteMarker i = some w') : Consistent w' := by
  unfold World.deleteMarker at hw
  split at hw
  · rename_i j n id hlock
    split at hw
    · cases hw
    · rename_i hij
      obtain rfl := not_not.1 hij
      cases hw
      refine ⟨h.indices, h.ids, h.matching, h.written, h.instances, fun k phase hk => ?_, h.returned, fun k m id hk => ?_⟩
      · cases hk
        exact h.holder j _ hlock
      · rcases hk with hk | hk
        · cases hk
        · cases hk
          exact h.returning _ _ _ (.inl hlock)
  · cases hw

theorem Consistent.writeMarker {i : Nat} {w' : World} (hw : w.writeMarker i = some w') : Consistent w' := by
  unfold World.writeMarker at hw
  split at hw
  · rename_i j id s hlock hs
    split at hw
    · cases hw
    · cases hw
      refine ⟨h.indices, h.ids, h.matching, h.written, h.instances, by simp, fun id' hid => ?_, by simp⟩
      rcases List.mem_append.1 hid with hid | hid
      · exact h.returned id' hid
      · rw [List.mem_singleton.1 hid]
        exact h.returning _ 0 _ (.inr hlock)
  · cases hw

theorem Consistent.crash {i : Nat} {w' : World} (hw : w.crash i = some w') : Consistent w' := by
  cases hw
  have hlock : ∀ {j phase}, (if w.lock.any (·.1 = i) then none else w.lock) = some (j, phase) →
      j ≠ i ∧ w.lock = some (j, phase) := by
    intro j phase hj
    split at hj
    · cases hj
    · rename_i hheld
      refine ⟨?_, hj⟩
      rintro rfl
      simp [hj] at hheld
  refine ⟨h.indices, h.ids, h.matching, h.written, fun j s hs => ?_, fun j phase hj s hs => ?_, h.returned,
    fun j n id hj => ?_⟩
  · dsimp only at hs
    by_cases hij : j = i
    · subst hij
      rw [Function.update_self] at hs
      cases hs
    · rw [Function.update_of_ne hij] at hs
      exact h.instances j s hs
  · obtain ⟨hij, hheld⟩ := hlock hj
    dsimp only at hs
    rw [Function.update_of_ne hij] at hs
    exact h.holder j phase hheld s hs
  · exact h.returning j n id (hj.imp (fun hj => (hlock hj).2) fun hj => (hlock hj).2)

theorem Consistent.step {op : WriterOp} {w' : World} (hok : op.Allowed w) (hw : w.step op = some w') :
    Consistent w' := by
  cases op with
  | scan i => exact h.scan hw
  | lock i => exact h.takeLock hok hw
  | writeFile i e guard => exact h.writeFile hok hw
  | deleteMarker i => exact h.deleteMarker hw
  | writeMarker i => exact h.writeMarker hw
  | crash i => exact h.crash hw

theorem Consistent.durable : Durable w where
  indices := by
    rw [h.indices]
    exact List.nodup_range
  kept := ⟨h.written ▸ h.ids.of_map _, h.written.symm⟩
  contained i s hs id hid := by
    obtain ⟨found, -, rfl, hseen⟩ := h.instances i s hs
    exact (Log.contains_ofFiles _ _).2 (hseen id hid)

end Consistent

theorem consistent_init : Consistent {} where
  indices := rfl
  ids := List.nodup_nil
  matching := by simp
  written := rfl
  instances := by simp
  holder := by simp
  returned := by simp
  returning := by simp

theorem consistent_of_reaches {w : World} (h : Reaches World.step (fun w op => op.Allowed w) {} w) : Consistent w :=
  h.invariant consistent_init fun _ _ _ hI hok hw => hI.step hok hw

/-- No append is lost as long as none starts on a stale marker. -/
theorem durable_of_reaches {w : World} (h : Reaches World.step (fun w op => op.Allowed w) {} w) : Durable w :=
  (consistent_of_reaches h).durable

/-! ## Stale markers

Only a crash between the event file and the marker's removal leaves a stale
marker; at any other point the marker protocol is right. -/

/-- No crash between the event file and the marker's removal. -/
def WriterOp.Calm (w : World) : WriterOp → Prop
  | .writeFile _ e _ => MatchesNameRe e.id
  | .crash i => ∀ n id, w.lock ≠ some (i, .fileWritten n id)
  | _ => True

/-- A marker names the number of files, or it is about to be removed. -/
structure MarkersCurrent (w : World) : Prop where
  current : (∀ i n id, w.lock ≠ some (i, .fileWritten n id)) → ∀ m ∈ w.store.markers, m = w.store.files.length
  removed : ∀ i n id, w.lock = some (i, .fileWritten n id) → ∀ m ∈ w.store.markers, m = n

section Calm
variable {w : World} (h : Consistent w) (hm : MarkersCurrent w)
include hm

theorem MarkersCurrent.allowed {op : WriterOp} {w' : World} (hok : op.Calm w) (hw : w.step op = some w') :
    op.Allowed w := by
  cases op with
  | lock i =>
    change w.takeLock i = some w' at hw
    unfold World.takeLock at hw
    split at hw
    · rename_i s hlock hs
      have hcurrent := hm.current (by simp [hlock])
      simp only [WriterOp.Allowed, World.staleMarker, hs, Option.any_some, Bool.and_eq_false_imp, decide_eq_true_eq,
        Store.countEventsOnDisk_eq, decide_eq_false_iff_not]
      intro hmarker
      rw [hcurrent _ hmarker]
      exact Nat.lt_irrefl _
    · cases hw
  | writeFile i e guard => exact hok
  | _ => trivial

theorem MarkersCurrent.lock {i : Nat} {w' : World} (hw : w.step (.lock i) = some w') : MarkersCurrent w' := by
  change w.takeLock i = some w' at hw
  unfold World.takeLock at hw
  split at hw
  · rename_i s hlock hs
    cases hw
    exact ⟨fun _ => hm.current (by simp [hlock]), by simp⟩
  · cases hw

theorem MarkersCurrent.deleteMarker {i : Nat} {w' : World} (hw : w.step (.deleteMarker i) = some w') :
    MarkersCurrent w' := by
  change w.deleteMarker i = some w' at hw
  unfold World.deleteMarker at hw
  split at hw
  · rename_i j n id hlock
    have hnone : w.store.markers.filter (· ≠ n) = [] := by
      rw [List.filter_eq_nil_iff]
      intro m hmem
      simp [hm.removed j n id hlock m hmem]
    split at hw
    · cases hw
    · cases hw
      refine ⟨fun _ m hmem => ?_, by simp⟩
      rw [Store.deleteMarker, hnone] at hmem
      cases hmem
  · cases hw

theorem MarkersCurrent.crash {i : Nat} {w' : World} (hok : (WriterOp.crash i).Calm w) (hw : w.step (.crash i) = some w') :
    MarkersCurrent w' := by
  cases hw
  -- A calm crash does not come between the file and its marker.
  by_cases hheld : w.lock.any (·.1 = i)
  · obtain ⟨⟨j, phase⟩, hlock, hj⟩ := (Option.any_eq_true _ _).1 hheld
    obtain rfl := of_decide_eq_true hj
    have hcurrent := hm.current (by
      intro k n id hk
      rw [hlock] at hk
      cases hk
      exact hok n id hlock)
    exact ⟨fun _ => hcurrent, by simp [hheld]⟩
  · refine ⟨fun hnot => hm.current ?_, fun k n id hk => hm.removed k n id ?_⟩
    · simpa [hheld] using hnot
    · simpa [hheld] using hk

include h

theorem MarkersCurrent.writeFile {i : Nat} {e : Event} {guard : Bool} {w' : World}
    (hw : w.step (.writeFile i e guard) = some w') : MarkersCurrent w' := by
  change w.writeFile i e guard = some w' at hw
  unfold World.writeFile at hw
  split at hw
  · rename_i j s hlock hs
    have hcurrent := hm.current (by simp [hlock])
    split at hw
    · cases hw
    · rename_i hij
      obtain rfl := not_not.1 hij
      split at hw
      · cases hw
        -- The file is written, the marker is not: it is one behind.
        refine ⟨fun hnot => absurd rfl (hnot j s.length e.id), fun k n id hk m hmem => ?_⟩
        cases hk
        rw [h.holder j _ hlock s hs]
        exact hcurrent m hmem
      · cases hw
        exact ⟨fun _ => hcurrent, by simp⟩
  · cases hw

theorem MarkersCurrent.writeMarker {i : Nat} {w' : World} (hw : w.step (.writeMarker i) = some w') :
    MarkersCurrent w' := by
  change w.writeMarker i = some w' at hw
  unfold World.writeMarker at hw
  split at hw
  · rename_i j id s hlock hs
    split at hw
    · cases hw
    · rename_i hij
      obtain rfl := not_not.1 hij
      cases hw
      refine ⟨fun _ m hmem => ?_, by simp⟩
      rcases List.mem_insert_iff.1 hmem with rfl | hmem
      · rw [h.holder j _ hlock s hs]
        rfl
      · exact hm.current (by simp [hlock]) m hmem
  · cases hw

theorem MarkersCurrent.step {op : WriterOp} {w' : World} (hok : op.Calm w) (hw : w.step op = some w') :
    MarkersCurrent w' := by
  cases op with
  | scan i =>
    change w.scan i = some w' at hw
    unfold World.scan at hw
    split at hw
    · cases hw
    · cases hw
      exact ⟨hm.current, hm.removed⟩
  | lock i => exact MarkersCurrent.lock hm hw
  | writeFile i e guard => exact MarkersCurrent.writeFile h hm hw
  | deleteMarker i => exact MarkersCurrent.deleteMarker hm hw
  | writeMarker i => exact MarkersCurrent.writeMarker h hm hw
  | crash i => exact MarkersCurrent.crash hm hok hw

end Calm

/-- Crashes anywhere else cost nothing. -/
theorem durable_of_calm {w : World} (h : Reaches World.step (fun w op => op.Calm w) {} w) : Durable w := by
  have hinv : Consistent w ∧ MarkersCurrent w := by
    refine h.invariant (I := fun w => Consistent w ∧ MarkersCurrent w) ⟨consistent_init, ⟨by simp, by simp⟩⟩ ?_
    rintro w op w' ⟨hc, hm⟩ hok hw
    exact ⟨hc.step (hm.allowed hok hw) hw, hm.step hc hok hw⟩
  exact hinv.1.durable

/-! ## A crash between the event file and the marker's removal

Two instances know one event. The first writes the second event's file and
dies; the second still finds the marker of its length. -/

namespace StaleMarkerExample

def message (id : EventID) (h : id ≠ rootParentId := by exact ne_rootParentId trivial) : Event := { id, body := .other "PauseEvent", notRoot := h }

/-- An append of the first instance, then a scan by the second. -/
def shared : List WriterOp :=
  [.scan 0, .lock 0, .writeFile 0 (message "aaaaaaaa") true, .deleteMarker 0, .writeMarker 0, .scan 1]

def crashed : List WriterOp :=
  [.lock 0, .writeFile 0 (message "bbbbbbbb") true, .crash 0]

def reused : List WriterOp :=
  [.lock 1, .writeFile 1 (message "cccccccc") true]

/-- The first instance appends again, then the second. -/
def inTurn : Option World :=
  execAllowed World.step (fun w op => op.Allowed w) {}
    (shared ++ [.lock 0, .writeFile 0 (message "bbbbbbbb") true, .deleteMarker 0, .writeMarker 0] ++ reused)

end StaleMarkerExample

open StaleMarkerExample in
/-- Without the crash the second instance syncs first. -/
theorem durable_inTurn : ∃ w, inTurn = some w ∧ w.store.files.map EventFile.diskIdx = [0, 1, 2] ∧ Durable w := by
  have hidx : inTurn.map (·.store.files.map EventFile.diskIdx) = some [0, 1, 2] := by decide
  obtain ⟨w, hw, hidx⟩ := Option.map_eq_some_iff.1 hidx
  exact ⟨w, hw, hidx, durable_of_reaches (reaches_of_execAllowed .init hw)⟩

open StaleMarkerExample in
theorem index_reused_after_crash :
    ¬ ∀ w, Reaches World.step (fun _ _ => True) {} w → Durable w := by
  intro h
  have hrun : (exec World.step {} (shared ++ crashed ++ reused)).map (·.store.files.map EventFile.diskIdx) =
      some [0, 1, 1] := by decide
  obtain ⟨w, hw, hidx⟩ := Option.map_eq_some_iff.1 hrun
  have hnodup := (h w (reaches_of_exec .init hw)).indices
  rw [hidx] at hnodup
  revert hnodup
  decide

end AgentSdk.EventStore
