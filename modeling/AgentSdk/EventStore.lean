import AgentSdk.EventFile
import AgentSdk.EventLog
import Mathlib.Data.List.Induction
import Mathlib.Data.List.Sort
import Mathlib.Logic.Function.Basic
/-!
# The event store

`EventLog` with the directory behind it: one file for each event, a marker
that names the number of events, and the index each instance keeps in memory.
The index is rebuilt by scanning the directory.
-/

namespace AgentSdk.EventStore

/-! ## The directory -/

/-- The events directory: its event files and the lengths of its markers. -/
structure Store where
  files : List EventFile := []
  markers : List Nat := []
deriving DecidableEq

namespace Store

/-- `fs.write`: a file of the same path is replaced. -/
def write (store : Store) (f : EventFile) : Store :=
  { store with files := if f ∈ store.files then store.files else store.files ++ [f] }

def deleteMarker (store : Store) (length : Nat) : Store :=
  { store with markers := store.markers.filter (· ≠ length) }

def writeMarker (store : Store) (length : Nat) : Store :=
  { store with markers := store.markers.insert length }

/-- `_count_events_on_disk`. -/
def countEventsOnDisk (store : Store) : Nat :=
  (store.files.map EventFile.name).countP fun name =>
    "event-".toList.isPrefixOf name.toList && ".json".toList.isSuffixOf name.toList

end Store

/-! ## The index in memory -/

/-- The fields of an `EventLog` instance, apart from its event cache. -/
structure Log where
  length : Nat := 0
  idToIdx : EventID → Option Nat := fun _ => none
  idxToId : Nat → Option EventID := fun _ => none
  diskIdx : Nat → Option Nat := fun _ => none
  nextDiskIdx : Nat := 0

/-- The tuple order of `found.sort()`. -/
def fileLE (f g : EventFile) : Prop := f.diskIdx < g.diskIdx ∨ f.diskIdx = g.diskIdx ∧ f.eventId ≤ g.eventId

instance : DecidableRel fileLE := fun _ _ => inferInstanceAs (Decidable (_ ∨ _ ∧ _))

namespace Log

def contains (s : Log) (id : EventID) : Bool := (s.idToIdx id).isSome

def getId (s : Log) (idx : Nat) : Option EventID := if idx < s.length then s.idxToId idx else none

def getSeq (s : Log) (idx : Nat) : Option Nat := if idx < s.length then some ((s.diskIdx idx).getD idx) else none

/-- The body of the loop in `_scan_and_build_index`. -/
def indexFile (s : Log) (i : Nat) (f : EventFile) : Log :=
  { s with
    nextDiskIdx := f.diskIdx + 1
    idxToId := Function.update s.idxToId i (some f.eventId)
    diskIdx := if f.diskIdx ≠ i then Function.update s.diskIdx i (some f.diskIdx) else s.diskIdx
    idToIdx := if (s.idToIdx f.eventId).isSome then s.idToIdx else Function.update s.idToIdx f.eventId (some i) }

def indexFiles : Log → Nat → List EventFile → Log
  | s, _, [] => s
  | s, i, f :: found => (s.indexFile i f).indexFiles (i + 1) found

def ofFiles (found : List EventFile) : Log := { ({} : Log).indexFiles 0 found with length := found.length }

/-- `_scan_and_build_index`. -/
def scanAndBuildIndex (store : Store) : Log :=
  ofFiles (((store.files.map EventFile.name).filterMap eventNameRe).insertionSort fileLE)

/-- The mappings `_sync_from_disk` keeps across the scan: `_idx_to_id` has its
keys below the length, in ascending order. -/
def existing (s : Log) : List (Nat × EventID × Nat) :=
  (List.range s.length).filterMap fun idx => (s.idxToId idx).map fun id => (idx, id, (s.diskIdx idx).getD idx)

def restore (s : Log) : Nat × EventID × Nat → Log
  | (idx, id, diskIdx) =>
    if (s.idxToId idx).isSome || (s.idToIdx id).isSome then s
    else
      { s with
        idxToId := Function.update s.idxToId idx (some id)
        idToIdx := Function.update s.idToIdx id (some idx)
        diskIdx := if diskIdx ≠ idx then Function.update s.diskIdx idx (some diskIdx) else s.diskIdx
        nextDiskIdx := max s.nextDiskIdx (diskIdx + 1) }

/-- `_sync_from_disk`. -/
def syncFromDisk (s : Log) (store : Store) (diskLength : Nat) : Log :=
  let scanned := scanAndBuildIndex store
  { s.existing.foldl restore scanned with length := max scanned.length diskLength }

/-! ## Appending -/

/-- The first part of `append`: sync unless the marker of the own length exists. -/
def syncForAppend (s : Log) (store : Store) : Log :=
  if s.length ∈ store.markers then s
  else if store.countEventsOnDisk > s.length then s.syncFromDisk store store.countEventsOnDisk
  else s

/-- The `ValueError`s of `append`. -/
def check (s : Log) (e : Event) : Except ValueError Unit :=
  if s.contains e.id then .error (.idExists e.id)
  else
    match e.parentId with
    | none => .ok ()
    | some parent =>
      if parent ≠ rootParentId ∧ ¬ s.contains parent then .error (.parentMissing parent e.id) else .ok ()

/-- The file `append` writes. -/
def nextFile (s : Log) (id : EventID) : EventFile := ⟨max s.length s.nextDiskIdx, id⟩

/-- What `append` notes in memory once the file is written. -/
def record (s : Log) (f : EventFile) : Log where
  length := s.length + 1
  idToIdx := Function.update s.idToIdx f.eventId (some s.length)
  idxToId := Function.update s.idxToId s.length (some f.eventId)
  diskIdx := if f.diskIdx ≠ s.length then Function.update s.diskIdx s.length (some f.diskIdx) else s.diskIdx
  nextDiskIdx := f.diskIdx + 1

end Log

theorem Log.not_contains_of_check {s : Log} {e : Event} (h : s.check e = .ok ()) : s.contains e.id = false := by
  unfold Log.check at h
  split at h
  · cases h
  · rename_i hnew
    simpa using hnew

/-! ## The index of a list of files -/

theorem getElem?_snoc_of_ne {α : Type _} {l : List α} {i : Nat} (h : i ≠ l.length) (a : α) :
    (l ++ [a])[i]? = l[i]? := by
  rcases Nat.lt_or_gt_of_ne h with h | h
  · rw [List.getElem?_append_left h]
  · have hlen : (l ++ [a]).length ≤ i := by
      rw [List.length_append, List.length_singleton]
      exact h
    rw [List.getElem?_eq_none hlen, List.getElem?_eq_none (Nat.le_of_lt h)]

section OfFiles
variable {found : List EventFile} {f : EventFile}

theorem Log.indexFiles_append (s : Log) (i : Nat) (found : List EventFile) (f : EventFile) :
    s.indexFiles i (found ++ [f]) = (s.indexFiles i found).indexFile (i + found.length) f := by
  induction found generalizing s i with
  | nil => rfl
  | cons g found ih =>
    rw [List.cons_append, Log.indexFiles, ih, List.length_cons, Nat.add_right_comm]
    rfl

theorem Log.ofFiles_snoc (found : List EventFile) (f : EventFile) :
    Log.ofFiles (found ++ [f]) = { (Log.ofFiles found).indexFile found.length f with length := found.length + 1 } := by
  unfold Log.ofFiles
  rw [Log.indexFiles_append, Nat.zero_add, List.length_append]
  rfl

@[simp] theorem Log.length_ofFiles (found : List EventFile) : (Log.ofFiles found).length = found.length := rfl

theorem Log.idxToId_ofFiles (found : List EventFile) (idx : Nat) :
    (Log.ofFiles found).idxToId idx = found[idx]?.map EventFile.eventId := by
  induction found using List.reverseRecOn with
  | nil => rfl
  | append_singleton found f ih =>
    rw [Log.ofFiles_snoc]
    simp only [Log.indexFile, Function.update_apply, ih]
    split
    · simp [*]
    · rename_i hne
      rw [getElem?_snoc_of_ne hne]

theorem Log.diskIdx_ofFiles (found : List EventFile) (idx : Nat) :
    ((Log.ofFiles found).diskIdx idx).getD idx = (found[idx]?.map EventFile.diskIdx).getD idx := by
  induction found using List.reverseRecOn with
  | nil => rfl
  | append_singleton found f ih =>
    rw [Log.ofFiles_snoc]
    simp only [Log.indexFile]
    by_cases hidx : idx = found.length
    · subst hidx
      rw [List.getElem?_eq_none (Nat.le_refl _), Option.map_none, Option.getD_none] at ih
      by_cases hf : f.diskIdx = found.length
      · simp [hf, ih]
      · simp [hf]
    · rw [getElem?_snoc_of_ne hidx, ← ih]
      split
      · rw [Function.update_of_ne hidx]
      · rfl

theorem Log.getSeq_ofFiles (found : List EventFile) (idx : Nat) :
    (Log.ofFiles found).getSeq idx = found[idx]?.map EventFile.diskIdx := by
  rw [Log.getSeq, Log.diskIdx_ofFiles, Log.length_ofFiles]
  split
  · rename_i h
    simp [h]
  · rename_i h
    rw [List.getElem?_eq_none (by omega)]
    rfl

theorem Log.contains_ofFiles (found : List EventFile) (id : EventID) :
    (Log.ofFiles found).contains id = true ↔ ∃ f ∈ found, f.eventId = id := by
  induction found using List.reverseRecOn with
  | nil => simp [Log.ofFiles, Log.indexFiles, Log.contains]
  | append_singleton found f ih =>
    rw [Log.ofFiles_snoc]
    simp only [Log.contains, Log.indexFile, List.mem_append, List.mem_singleton, or_and_right, exists_or,
      exists_eq_left] at ih ⊢
    rw [← ih]
    split
    · rename_i h
      exact ⟨.inl, fun hor => hor.elim (·) (fun hid => hid ▸ h)⟩
    · rw [Function.update_apply]
      split
      · simp [*]
      · rename_i hne
        exact ⟨.inl, fun hor => hor.resolve_right fun hid => hne hid.symm⟩

theorem Log.nextDiskIdx_ofFiles (found : List EventFile) :
    (Log.ofFiles found).nextDiskIdx = (found.getLast?.map (·.diskIdx + 1)).getD 0 := by
  cases found using List.reverseRecOn with
  | nil => rfl
  | append_singleton found f =>
    rw [Log.ofFiles_snoc]
    simp [Log.indexFile]

/-- Appending a file of a new id indexes one more file. -/
theorem Log.record_ofFiles (h : ∀ g ∈ found, g.eventId ≠ f.eventId) :
    (Log.ofFiles found).record f = Log.ofFiles (found ++ [f]) := by
  have hnew : ((Log.ofFiles found).idToIdx f.eventId).isSome = false := by
    rw [← Bool.not_eq_true]
    intro hsome
    obtain ⟨g, hg, hid⟩ := (Log.contains_ofFiles found f.eventId).1 hsome
    exact h g hg hid
  rw [Log.ofFiles_snoc]
  simp only [Log.record, Log.indexFile, Log.length_ofFiles, hnew]
  rfl

end OfFiles

/-! ## The index of a directory -/

/-- Files in the order of their on-disk indices, of ids that the scan reads. -/
structure Store.Readable (store : Store) : Prop where
  ordered : store.files.Pairwise fun f g => f.diskIdx < g.diskIdx
  matching : ∀ f ∈ store.files, MatchesNameRe f.eventId

section Readable
variable {store : Store}

theorem Store.countEventsOnDisk_eq (store : Store) : store.countEventsOnDisk = store.files.length := by
  unfold Store.countEventsOnDisk
  rw [List.countP_map, List.countP_eq_length]
  intro f _
  rw [Function.comp_apply, toList_name, Bool.and_eq_true, List.isPrefixOf_iff_prefix, List.isSuffixOf_iff_suffix]
  refine ⟨List.prefix_append _ _, ?_⟩
  rw [← List.append_assoc, ← List.cons_append, ← List.append_assoc]
  exact List.suffix_append _ _

theorem Store.Readable.scan_eq (h : store.Readable) : Log.scanAndBuildIndex store = Log.ofFiles store.files := by
  have hparse : (store.files.map EventFile.name).filterMap eventNameRe = store.files := by
    rw [List.filterMap_map]
    have hsome : ∀ f ∈ store.files, (eventNameRe ∘ EventFile.name) f = some f := by
      intro f hf
      rw [Function.comp_apply, eventNameRe_name, if_pos (h.matching f hf)]
    rw [List.filterMap_congr hsome, List.filterMap_some]
  unfold Log.scanAndBuildIndex
  rw [hparse, (h.ordered.imp .inl : store.files.Pairwise fileLE).insertionSort_eq]

/-- Nothing is restored when the directory has all that was known. -/
theorem Store.Readable.syncFromDisk_eq (h : store.Readable) {found : List EventFile}
    (hle : found.length ≤ store.files.length) :
    (Log.ofFiles found).syncFromDisk store store.files.length = Log.ofFiles store.files := by
  have hkept : ∀ (mappings : List (Nat × EventID × Nat)), (∀ m ∈ mappings, m.1 < store.files.length) →
      mappings.foldl Log.restore (Log.ofFiles store.files) = Log.ofFiles store.files := by
    intro mappings
    induction mappings with
    | nil => exact fun _ => rfl
    | cons m mappings ih =>
      intro hm
      obtain ⟨hlt, hm⟩ := List.forall_mem_cons.1 hm
      have hknown : ((Log.ofFiles store.files).idxToId m.1).isSome = true := by
        rw [Log.idxToId_ofFiles, List.getElem?_eq_getElem hlt]
        rfl
      have hsame : Log.restore (Log.ofFiles store.files) m = Log.ofFiles store.files := by
        unfold Log.restore
        simp [hknown]
      rw [List.foldl_cons, hsame, ih hm]
  have hexisting : ∀ m ∈ (Log.ofFiles found).existing, m.1 < store.files.length := by
    intro m hm
    obtain ⟨idx, hidx, hm⟩ := List.mem_filterMap.1 hm
    obtain ⟨id, -, rfl⟩ := Option.map_eq_some_iff.1 hm
    exact Nat.lt_of_lt_of_le (List.mem_range.1 hidx) hle
  simp only [Log.syncFromDisk, h.scan_eq, hkept _ hexisting, Log.length_ofFiles, Nat.max_self]
  rfl

end Readable

end AgentSdk.EventStore
