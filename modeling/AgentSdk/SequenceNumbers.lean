import AgentSdk.EventStore
import AgentSdk.Lib.Bisect
import AgentSdk.Lib.Runs
/-!
# Durable sequence numbers

One writer that appends, loses event files and reloads. The on-disk index is
the event's sequence number; behind a lost file it differs from the index in
the log.
-/

namespace AgentSdk.EventStore
open Lib

namespace Log

/-- `append` without a crash; it returns the index in the log. -/
def append (s : Log) (store : Store) (e : Event) : Except ValueError (Log × Store × Nat) :=
  let s := s.syncForAppend store
  match s.check e with
  | .error err => .error err
  | .ok () =>
    let f := s.nextFile e.id
    .ok (s.record f, ((store.write f).deleteMarker s.length).writeMarker (s.length + 1), s.length)

/-- `index_after_seq`; `get_seq` is only asked for indices of the log. -/
def indexAfterSeq (s : Log) (seq : Int) : Nat :=
  bisectRight (fun idx => ((s.getSeq idx).getD 0 : Int)) seq 0 s.length

/-- The events of the log as `get_seq` and `get_id` give them. -/
def entries (s : Log) : List EventFile :=
  (List.range s.length).filterMap fun idx => do return ⟨← s.getSeq idx, ← s.getId idx⟩

end Log

/-- `assigned` is kept for the statements: the appended events with their
sequence numbers, lost ones included. -/
structure Writer where
  store : Store := {}
  log : Log := {}
  assigned : List EventFile := []

inductive StoreOp where
  | append (e : Event)
  | lose (lost : List EventFile)
  | reload

def Writer.step (w : Writer) : StoreOp → Option Writer
  | .append e =>
    match w.log.append w.store e with
    | .ok (log, store, idx) =>
      some { store, log, assigned := w.assigned ++ [⟨(log.getSeq idx).getD 0, e.id⟩] }
    | .error _ => some { w with log := w.log.syncForAppend w.store }
  | .lose lost => some { w with store := { w.store with files := w.store.files.filter (· ∉ lost) } }
  | .reload => some { w with log := Log.scanAndBuildIndex w.store }

/-- An append comes with a matching id, and with the event that got the
highest sequence number still in the log. -/
def StoreOp.Allowed (w : Writer) : StoreOp → Prop
  | .append e => MatchesNameRe e.id ∧ ∀ f, w.assigned.getLast? = some f → f ∈ w.log.entries
  | _ => True

instance StoreOp.decidableAllowed (w : Writer) (op : StoreOp) : Decidable (op.Allowed w) :=
  match op with
  | .append e =>
    match h : w.assigned.getLast? with
    | some f => decidable_of_iff (MatchesNameRe e.id ∧ f ∈ w.log.entries) (by simp [StoreOp.Allowed, h])
    | none => decidable_of_iff (MatchesNameRe e.id) (by simp [StoreOp.Allowed, h])
  | .lose _ | .reload => isTrue trivial

/-- Sequence numbers stay with their events, grow along the log and are given
out once. -/
structure SeqStable (w : Writer) : Prop where
  /-- The log holds events in the order and with the numbers they got. -/
  entries : w.log.entries.Sublist w.assigned
  dense : w.log.entries.length = w.log.length
  surviving : w.store.files.Sublist w.log.entries
  reloaded : (Log.scanAndBuildIndex w.store).entries = w.store.files
  increasing : ∀ i j m n, i < j → w.log.getSeq i = some m → w.log.getSeq j = some n → m < n
  assignedOnce : (w.assigned.map EventFile.diskIdx).Nodup
  split : ∀ seq : Int, w.log.indexAfterSeq seq ≤ w.log.length ∧
    ∀ idx n, w.log.getSeq idx = some n → (idx < w.log.indexAfterSeq seq ↔ (n : Int) ≤ seq)

/-! ## The invariant -/

section Entries
variable {found : List EventFile}

theorem filterMap_getElem?_range {α : Type _} (l : List α) : (List.range l.length).filterMap (l[·]?) = l := by
  induction l using List.reverseRecOn with
  | nil => rfl
  | append_singleton l a ih =>
    have hold : ∀ i ∈ List.range l.length, (l ++ [a])[i]? = l[i]? := fun i hi =>
      List.getElem?_append_left (List.mem_range.1 hi)
    rw [List.length_append, List.length_singleton, List.range_succ, List.filterMap_append,
      List.filterMap_congr hold, ih]
    simp

theorem Log.entries_ofFiles (found : List EventFile) : (Log.ofFiles found).entries = found := by
  have hentry : ∀ idx ∈ List.range found.length,
      (do return (⟨← (Log.ofFiles found).getSeq idx, ← (Log.ofFiles found).getId idx⟩ : EventFile)) = found[idx]? := by
    intro idx hidx
    have hlt := List.mem_range.1 hidx
    rw [Log.getSeq_ofFiles, Log.getId, Log.length_ofFiles, if_pos hlt, Log.idxToId_ofFiles,
      List.getElem?_eq_getElem hlt]
    rfl
  rw [Log.entries, Log.length_ofFiles, List.filterMap_congr hentry, filterMap_getElem?_range]

theorem Log.getSeq_lt (hordered : found.Pairwise fun f g => f.diskIdx < g.diskIdx) {i j m n : Nat} (hij : i < j)
    (hm : (Log.ofFiles found).getSeq i = some m) (hn : (Log.ofFiles found).getSeq j = some n) : m < n := by
  rw [Log.getSeq_ofFiles] at hm hn
  obtain ⟨f, hf, rfl⟩ := Option.map_eq_some_iff.1 hm
  obtain ⟨g, hg, rfl⟩ := Option.map_eq_some_iff.1 hn
  obtain ⟨hi, rfl⟩ := List.getElem?_eq_some_iff.1 hf
  obtain ⟨hj, rfl⟩ := List.getElem?_eq_some_iff.1 hg
  exact List.pairwise_iff_getElem.1 hordered i j hi hj hij

theorem Log.indexAfterSeq_spec (hordered : found.Pairwise fun f g => f.diskIdx < g.diskIdx) (seq : Int) :
    (Log.ofFiles found).indexAfterSeq seq ≤ (Log.ofFiles found).length ∧
      ∀ idx n, (Log.ofFiles found).getSeq idx = some n →
        (idx < (Log.ofFiles found).indexAfterSeq seq ↔ (n : Int) ≤ seq) := by
  have hsome : ∀ {i}, i < found.length → ∃ n, (Log.ofFiles found).getSeq i = some n := by
    intro i hi
    exact ⟨_, by rw [Log.getSeq_ofFiles, List.getElem?_eq_getElem hi]; rfl⟩
  have hkey : ∀ i j, 0 ≤ i → i ≤ j → j < (Log.ofFiles found).length →
      (((Log.ofFiles found).getSeq i).getD 0 : Int) ≤ ((Log.ofFiles found).getSeq j).getD 0 := by
    intro i j _ hij hj
    rcases Nat.eq_or_lt_of_le hij with rfl | hlt
    · exact le_refl _
    · obtain ⟨m, hm⟩ := hsome (Nat.lt_trans hlt hj)
      obtain ⟨n, hn⟩ := hsome hj
      have := Log.getSeq_lt hordered hlt hm hn
      rw [hm, hn, Option.getD_some, Option.getD_some]
      omega
  obtain ⟨-, hle, hbefore, hafter⟩ := bisectRight_spec (x := seq) (Nat.zero_le _) hkey
  refine ⟨hle, fun idx n hn => ⟨fun hlt => ?_, fun hseq => ?_⟩⟩
  · have := hbefore idx (Nat.zero_le _) hlt
    rwa [hn] at this
  · by_contra hlt
    have hidx : idx < (Log.ofFiles found).length := by
      unfold Log.getSeq at hn
      split at hn
      · assumption
      · cases hn
    have := hafter idx (Nat.le_of_not_lt hlt) hidx
    rw [hn, Option.getD_some] at this
    omega

end Entries

theorem diskIdx_le_getLast {files : List EventFile} (hordered : files.Pairwise fun f g => f.diskIdx < g.diskIdx)
    {f l : EventFile} (hf : f ∈ files) (hl : files.getLast? = some l) : f.diskIdx ≤ l.diskIdx := by
  obtain ⟨files', rfl⟩ := List.getLast?_eq_some_iff.1 hl
  rcases List.mem_append.1 hf with hf | hf
  · exact Nat.le_of_lt ((List.pairwise_append.1 hordered).2.2 f hf l (List.mem_singleton_self l))
  · rw [List.mem_singleton.1 hf]

/-- The log indexes `known`: what is left of the appended events, which are in
the order of their numbers. -/
structure Numbered (w : Writer) (known : List EventFile) : Prop where
  log : w.log = Log.ofFiles known
  files : w.store.files.Sublist known
  known : known.Sublist w.assigned
  ordered : w.assigned.Pairwise fun f g => f.diskIdx < g.diskIdx
  matching : ∀ f ∈ w.assigned, MatchesNameRe f.eventId

section Numbered
variable {w : Writer} {known : List EventFile} (h : Numbered w known)
include h

theorem Numbered.readable : w.store.Readable :=
  ⟨(h.ordered.sublist h.known).sublist h.files, fun f hf => h.matching f (h.known.subset (h.files.subset hf))⟩

/-- The log never is behind the directory. -/
theorem Numbered.syncForAppend : w.log.syncForAppend w.store = w.log := by
  unfold Log.syncForAppend
  rw [Store.countEventsOnDisk_eq, h.log, Log.length_ofFiles, if_neg (Nat.not_lt.2 h.files.length_le), ite_self]

/-- A new number is above all that were given out. -/
theorem Numbered.lt_nextFile (hlast : ∀ f, w.assigned.getLast? = some f → f ∈ w.log.entries) (id : EventID) :
    ∀ g ∈ w.assigned, g.diskIdx < ((Log.ofFiles known).nextFile id).diskIdx := by
  intro g hg
  have hne := List.ne_nil_of_mem hg
  have hl := hlast _ (List.getLast?_eq_some_getLast hne)
  rw [h.log, Log.entries_ofFiles] at hl
  have hlast? := List.getLast?_eq_some_getLast (List.ne_nil_of_mem hl)
  have hgl := diskIdx_le_getLast h.ordered hg (List.getLast?_eq_some_getLast hne)
  have hlk := diskIdx_le_getLast (h.ordered.sublist h.known) hl hlast?
  rw [Log.nextFile, Log.nextDiskIdx_ofFiles, hlast?, Option.map_some, Option.getD_some]
  dsimp only
  omega

theorem Numbered.append {e : Event} (hid : MatchesNameRe e.id)
    (hlast : ∀ f, w.assigned.getLast? = some f → f ∈ w.log.entries) {w' : Writer}
    (hw : w.step (.append e) = some w') : ∃ known', Numbered w' known' := by
  unfold Writer.step Log.append at hw
  dsimp only at hw
  rw [h.syncForAppend] at hw
  cases hcheck : w.log.check e with
  | error err =>
    rw [hcheck] at hw
    cases hw
    exact ⟨known, h.log, h.files, h.known, h.ordered, h.matching⟩
  | ok u =>
    rw [hcheck] at hw
    cases hw
    have hnew : ∀ g ∈ known, g.eventId ≠ e.id := by
      intro g hg heq
      have := Log.not_contains_of_check hcheck
      rw [h.log, (Log.contains_ofFiles _ _).2 ⟨g, hg, heq⟩] at this
      cases this
    have hlt := h.lt_nextFile hlast e.id
    have hrecord := Log.record_ofFiles (f := (Log.ofFiles known).nextFile e.id) hnew
    have hfile : (Log.ofFiles known).nextFile e.id ∉ w.store.files := fun hf => hnew _ (h.files.subset hf) rfl
    have hseq : (Log.ofFiles (known ++ [(Log.ofFiles known).nextFile e.id])).getSeq known.length =
        some ((Log.ofFiles known).nextFile e.id).diskIdx := by
      rw [Log.getSeq_ofFiles, List.getElem?_append_right (Nat.le_refl _), Nat.sub_self]
      rfl
    refine ⟨known ++ [(Log.ofFiles known).nextFile e.id], ?_, ?_, ?_, ?_, ?_⟩
    · simp only [h.log, hrecord]
    · simp only [Store.writeMarker, Store.deleteMarker, Store.write, h.log, if_neg hfile]
      exact h.files.append (.refl _)
    · simp only [h.log, hrecord, Log.length_ofFiles, hseq]
      exact h.known.append (.refl _)
    · simp only [h.log, hrecord, Log.length_ofFiles, hseq]
      refine List.pairwise_append.2 ⟨h.ordered, List.pairwise_singleton _ _, fun g hg f hf => ?_⟩
      rw [List.mem_singleton.1 hf]
      exact hlt g hg
    · intro f hf
      rcases List.mem_append.1 hf with hf | hf
      · exact h.matching f hf
      · rw [List.mem_singleton.1 hf]
        exact hid

theorem Numbered.step {op : StoreOp} {w' : Writer} (hok : op.Allowed w) (hw : w.step op = some w') :
    ∃ known', Numbered w' known' := by
  cases op with
  | append e => exact h.append hok.1 hok.2 hw
  | lose lost =>
    cases hw
    exact ⟨known, h.log, List.filter_sublist.trans h.files, h.known, h.ordered, h.matching⟩
  | reload =>
    cases hw
    exact ⟨w.store.files, h.readable.scan_eq, List.Sublist.refl _, h.files.trans h.known, h.ordered, h.matching⟩

theorem Numbered.seqStable : SeqStable w := by
  have hordered := h.ordered.sublist h.known
  refine ⟨?_, ?_, ?_, ?_, fun i j m n hij hm hn => ?_, ?_, fun seq => ?_⟩
  · rw [h.log, Log.entries_ofFiles]
    exact h.known
  · rw [h.log, Log.entries_ofFiles, Log.length_ofFiles]
  · rw [h.log, Log.entries_ofFiles]
    exact h.files
  · rw [h.readable.scan_eq, Log.entries_ofFiles]
  · rw [h.log] at hm hn
    exact Log.getSeq_lt hordered hij hm hn
  · exact List.pairwise_map.2 (h.ordered.imp fun hlt => Nat.ne_of_lt hlt)
  · rw [h.log]
    exact Log.indexAfterSeq_spec hordered seq

end Numbered

/-- Numbers are never reused as long as no append comes while the event with
the highest number is gone from the log. -/
theorem seqStable_of_reaches {w : Writer} (h : Reaches Writer.step (fun w op => op.Allowed w) {} w) : SeqStable w := by
  have hinit : Numbered {} [] := ⟨rfl, List.Sublist.refl _, List.Sublist.refl _, .nil, by simp⟩
  obtain ⟨known, hknown⟩ := h.invariant (I := fun w => ∃ known, Numbered w known) ⟨[], hinit⟩
    fun w op w' ⟨known, hknown⟩ hok hw => hknown.step hok hw
  exact hknown.seqStable

/-! ## Losing the last file

Three events, one of whose files is lost before a reload and a fourth append. -/

namespace LostFileExample

def message (id : EventID) (h : id ≠ rootParentId := by exact ne_rootParentId trivial) : Event := { id, body := .other "PauseEvent", notRoot := h }

def appends : List StoreOp := [.append (message "aaaaaaaa"), .append (message "bbbbbbbb"), .append (message "cccccccc")]

def lose (f : EventFile) : List StoreOp := [.lose [f], .reload, .append (message "dddddddd")]

/-- A file in the middle is lost. -/
def hole : Option Writer :=
  execAllowed Writer.step (fun w op => op.Allowed w) {} (appends ++ lose ⟨1, "bbbbbbbb"⟩)

end LostFileExample

open LostFileExample in
theorem seqStable_hole : ∃ w, hole = some w ∧
    w.log.entries = [⟨0, "aaaaaaaa"⟩, ⟨2, "cccccccc"⟩, ⟨3, "dddddddd"⟩] ∧ SeqStable w := by
  have hentries : hole.map (·.log.entries) = some [⟨0, "aaaaaaaa"⟩, ⟨2, "cccccccc"⟩, ⟨3, "dddddddd"⟩] := by decide
  obtain ⟨w, hw, hentries⟩ := Option.map_eq_some_iff.1 hentries
  exact ⟨w, hw, hentries, seqStable_of_reaches (reaches_of_execAllowed .init hw)⟩

open LostFileExample in
/-- The number of the lost last event goes to the next one. -/
theorem seq_reused_after_lost_last :
    ¬ ∀ w, Reaches Writer.step (fun _ _ => True) {} w → SeqStable w := by
  intro h
  have hassigned : (exec Writer.step {} (appends ++ lose ⟨2, "cccccccc"⟩)).map (·.assigned.map EventFile.diskIdx) =
      some [0, 1, 2, 2] := by decide
  obtain ⟨w, hw, hassigned⟩ := Option.map_eq_some_iff.1 hassigned
  have honce := (h w (reaches_of_exec .init hw)).assignedOnce
  rw [hassigned] at honce
  revert honce
  decide

end AgentSdk.EventStore
