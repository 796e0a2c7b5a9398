import AgentSdk.SequenceNumbers
/-!
# The session socket

One connection to `/sockets/session`: it subscribes, marks the end of the log,
replays from its cursor and goes live, while the conversation appends events
and their publication trails behind. Events are told apart by their ids.
-/

namespace AgentSdk.SessionSocket
open Lib EventStore

/-! ## Frames and the writer -/

inductive Frame where
  | sync (fromSeq : Option Int) (throughSeq : Option Nat)
  | durable (seq : Nat) (id : EventID)
  | transient (id : EventID)
  | progress
deriving DecidableEq, Repr

/-- A durable frame as the event file it stands for. -/
def Frame.durable? : Frame → Option EventFile
  | .durable seq id => some ⟨seq, id⟩
  | _ => none

inductive DropReason where
  | frameTooLarge | slowConsumer | disconnected | writerError | closing
deriving DecidableEq, Repr

def maxFrameBytes : Nat := 4 * 1024 * 1024

def maxPendingBytes : Nat := 4 * maxFrameBytes

def replayPageSize : Nat := 100

/-- `_ConnectionWriter`; it is closed once there is a reason to drop it. Kept
for the statements only: every frame that was admitted. -/
structure Writer where
  queue : List Frame := []
  pendingBytes : Nat := 0
  dropReason : Option DropReason := none
  admitted : List Frame := []
deriving DecidableEq, Repr

namespace Writer

def closed (wr : Writer) : Bool := wr.dropReason.isSome

/-- `_fail`. -/
def fail (wr : Writer) (reason : DropReason) : Writer :=
  if wr.closed then wr else { wr with dropReason := some reason }

/-- `send`; a frame has the size of its JSON. -/
def send (size : Frame → Nat) (wr : Writer) (frame : Frame) : Writer × Bool :=
  if wr.closed then (wr, false)
  else if maxFrameBytes < size frame then (wr.fail .frameTooLarge, false)
  else if maxPendingBytes < wr.pendingBytes + size frame then (wr.fail .slowConsumer, false)
  else
    ({ wr with
        queue := wr.queue ++ [frame]
        pendingBytes := wr.pendingBytes + size frame
        admitted := wr.admitted ++ [frame] }, true)

/-- The writer task takes one frame; `connected` says what becomes of it. -/
def run (size : Frame → Nat) (wr : Writer) (failure : Option DropReason) : Option Writer :=
  match wr.queue with
  | [] => none
  | frame :: queue =>
    if wr.closed then none
    else
      let wr := { wr with queue, pendingBytes := wr.pendingBytes - size frame }
      some (failure.elim wr wr.fail)

/-- The durable frames that were admitted. -/
def durables (wr : Writer) : List EventFile := wr.admitted.filterMap Frame.durable?

end Writer

/-! ## The connection -/

inductive Phase where
  | connecting
  | subscribed
  | replaying (throughSeq : Nat) (page : List EventFile) (next stop : Nat)
  | live
  | closed
deriving DecidableEq, Repr

/-- The log, the publication of its events and one connection. `unpublished`
events are appended, but the fan-out has not looked at its subscribers for
them; those in `toNotify` have been handed to this subscriber, whose call is
still to run. `unpersisted` events are published without being appended. Kept
for the statements only: how many events were published before the connection
subscribed, and which ones its replay could not read. -/
structure World where
  log : Log
  afterSeq : Option Int
  unpublished : List EventID := []
  toNotify : List EventID := []
  unpersisted : List EventID := []
  phase : Phase := .connecting
  buffer : Option (List EventID) := some []
  writer : Writer := {}
  missed : Nat
  unread : List EventID := []

inductive SocketOp where
  | append (e : Event)
  | publish
  | notify
  | broadcast (id : EventID) (delta : Bool)
  | subscribe
  | snapshot (id : EventID)
  | mark
  | readPage (failed : List EventID)
  | sendReplayed
  | goLive
  | progress
  | write (failure : Option DropReason)
  | close

namespace World

/-- A connection to a conversation whose log was loaded from `found`. -/
def init (found : List EventFile) (afterSeq : Option Int) : World :=
  { log := .ofFiles found, afterSeq, missed := found.length }

def isSubscribed (w : World) : Bool := w.phase ≠ .connecting ∧ w.phase ≠ .closed

/-- `_seq_of`. -/
def seqOf (w : World) (id : EventID) : Option Nat := (w.log.idToIdx id).bind w.log.getSeq

section
variable (size : Frame → Nat)

/-- `_emit`. -/
def emit (w : World) (id : EventID) : World :=
  let frame := match w.seqOf id with
    | none => .transient id
    | some seq => .durable seq id
  { w with writer := (w.writer.send size frame).1 }

/-- The end of the connection. -/
def close (w : World) : World := { w with phase := .closed, writer := w.writer.fail .closing }

/-- The loop of `go_live`; what replay has sent from disk is dropped. -/
def flush (through : Option Nat) : List EventID → World → World
  | [], w => w
  | id :: ids, w =>
    match w.seqOf id, through with
    | some seq, some throughSeq => flush through ids (if seq ≤ throughSeq then w else w.emit size id)
    | _, _ => flush through ids (w.emit size id)

/-- `go_live`. -/
def goLive (w : World) (through : Option Nat) : World :=
  flush size through (w.buffer.getD []) { w with buffer := none, phase := .live }

/-- An event is appended and its callback is called next. The ids of events
that are never appended are no ids of appended ones. -/
def append (w : World) (e : Event) : Option World :=
  if e.id ∈ w.unpersisted then none
  else
    match w.log.check e with
    | .error _ => none
    | .ok () => some { w with log := w.log.record (w.log.nextFile e.id), unpublished := w.unpublished ++ [e.id] }

/-- The fan-out hands an event to the subscribers of this moment. -/
def publish (w : World) : Option World :=
  match w.unpublished with
  | [] => none
  | id :: unpublished =>
    if w.isSubscribed then some { w with unpublished, toNotify := w.toNotify ++ [id] }
    else some { w with unpublished, missed := if w.phase = .connecting then w.missed + 1 else w.missed }

/-- The call of the subscriber. -/
def notify (w : World) : Option World :=
  match w.toNotify with
  | [] => none
  | id :: toNotify =>
    match w.buffer with
    | some buffer => some { w with toNotify, buffer := some (buffer ++ [id]) }
    | none => some ({ w with toNotify }.emit size id)

/-- An event that is not appended goes straight to the subscribers; streaming
deltas do not go to this one. -/
def broadcast (w : World) (id : EventID) (delta : Bool) : Option World :=
  if w.log.contains id then none
  else if delta then some w
  else
    some { w with
      unpersisted := id :: w.unpersisted
      toNotify := if w.isSubscribed then w.toNotify ++ [id] else w.toNotify }

/-- The state that `subscribe_to_events` sends to a new subscriber. -/
def snapshot (w : World) (id : EventID) : Option World :=
  match w.phase, w.buffer with
  | .subscribed, some buffer =>
    if w.log.contains id then none
    else some { w with unpersisted := id :: w.unpersisted, buffer := some (buffer ++ [id]) }
  | _, _ => none

/-- The mark, the sync frame and the start of the replay; without a cursor or
without events the connection goes live at once. -/
def mark (w : World) : Option World :=
  match w.phase with
  | .subscribed =>
    let length := w.log.length
    let through := if length = 0 then none else w.log.getSeq (length - 1)
    let (writer, admitted) := w.writer.send size (.sync w.afterSeq through)
    let w := { w with writer }
    if ¬ admitted then some w.close
    else
      match w.afterSeq, through with
      | some afterSeq, some throughSeq =>
        some { w with phase := .replaying throughSeq [] (w.log.indexAfterSeq afterSeq) length }
      | _, _ => some (w.goLive size none)
  | _ => none

/-- The events of a page, with those that could not be read. -/
def page (log : Log) (start stop : Nat) : List EventFile :=
  (List.range' start (stop - start)).filterMap fun idx => do return ⟨← log.getSeq idx, ← log.getId idx⟩

/-- `_read_page`; the reads of the `failed` events fail. -/
def readPage (w : World) (failed : List EventID) : Option World :=
  match w.phase with
  | .replaying throughSeq [] next stop =>
    if stop ≤ next then none
    else
      let pageStop := min (next + replayPageSize) stop
      let events := page w.log next pageStop
      some { w with
        phase := .replaying throughSeq (events.filter (·.eventId ∉ failed)) pageStop stop
        unread := w.unread ++ (events.map EventFile.eventId).filter (· ∈ failed) }
  | _ => none

/-- A frame of the replay. -/
def sendReplayed (w : World) : Option World :=
  match w.phase with
  | .replaying throughSeq (f :: page) next stop =>
    let (writer, admitted) := w.writer.send size (.durable f.diskIdx f.eventId)
    let w := { w with writer, phase := .replaying throughSeq page next stop }
    some (if admitted then w else w.close)
  | _ => none

/-- The replay is done. -/
def endReplay (w : World) : Option World :=
  match w.phase with
  | .replaying throughSeq [] next stop => if next < stop then none else some (w.goLive size (some throughSeq))
  | _ => none

def step (w : World) : SocketOp → Option World
  | .append e => w.append e
  | .publish => w.publish
  | .notify => w.notify size
  | .broadcast id delta => w.broadcast id delta
  | .subscribe => if w.phase = .connecting then some { w with phase := .subscribed } else none
  | .snapshot id => w.snapshot id
  | .mark => w.mark size
  | .readPage failed => w.readPage failed
  | .sendReplayed => w.sendReplayed size
  | .goLive => w.endReplay size
  | .progress => if w.isSubscribed then some { w with writer := (w.writer.send size .progress).1 } else none
  | .write failure => (w.writer.run size failure).map fun writer => { w with writer }
  | .close => some w.close

end

/-- The sequence number of the next event. -/
def nextSeq (w : World) : Nat := max w.log.length w.log.nextDiskIdx

/-- What the connection should get: all events above its cursor that can be
read, or without a cursor those published since it subscribed. -/
def expected (w : World) : List EventFile :=
  match w.afterSeq with
  | some afterSeq => w.log.entries.filter fun f => afterSeq < f.diskIdx ∧ f.eventId ∉ w.unread
  | none => w.log.entries.drop w.missed

/-- Nothing up to the mark is still on its way to the subscriber. -/
def caughtUp (w : World) : Prop :=
  match w.phase with
  | .replaying throughSeq _ _ _ => ∀ id ∈ w.toNotify ++ w.unpublished, ∀ seq ∈ w.seqOf id, throughSeq < seq
  | _ => True

instance decidableCaughtUp (w : World) : Decidable w.caughtUp := by
  unfold caughtUp
  cases w.phase <;> infer_instance

end World

/-- The cursor is below the next sequence number, and the connection goes live
when nothing up to the mark is on its way. -/
def SocketOp.Allowed (w : World) : SocketOp → Prop
  | .mark => ∀ afterSeq ∈ w.afterSeq, afterSeq < w.nextSeq
  | .goLive => w.caughtUp
  | _ => True

instance SocketOp.decidableAllowed (w : World) (op : SocketOp) : Decidable (op.Allowed w) := by
  cases op <;> unfold SocketOp.Allowed <;> infer_instance

/-- The durable frames are what they should be, in order and without a gap, and
a live connection to which nothing is on its way has got all of them. -/
structure Exact (w : World) : Prop where
  delivered : w.writer.durables <+: w.expected
  increasing : w.writer.durables.Pairwise fun f g => f.diskIdx < g.diskIdx
  complete : w.phase = .live → w.writer.closed = false → w.toNotify = [] → w.unpublished = [] →
    w.writer.durables = w.expected

/-! ## The writer -/

namespace Writer
variable {size : Frame → Nat} {wr : Writer} {frame : Frame}

@[simp] theorem durables_fail (wr : Writer) (reason : DropReason) : (wr.fail reason).durables = wr.durables := by
  unfold fail durables
  split <;> rfl

@[simp] theorem closed_fail (wr : Writer) (reason : DropReason) : (wr.fail reason).closed = true := by
  unfold fail
  split
  · assumption
  · rfl

/-- A frame is admitted, or the connection is closed and stays so. -/
theorem send_cases (size : Frame → Nat) (wr : Writer) (frame : Frame) :
    (∃ wr', wr.send size frame = (wr', true) ∧ wr.closed = false ∧ wr'.closed = false ∧
      wr'.durables = wr.durables ++ frame.durable?.toList) ∨
    ∃ wr', wr.send size frame = (wr', false) ∧ wr'.closed = true ∧ wr'.durables = wr.durables := by
  unfold send
  split
  · exact .inr ⟨_, rfl, ‹_›, rfl⟩
  · rename_i hopen
    split
    · exact .inr ⟨_, rfl, closed_fail _ _, durables_fail _ _⟩
    · split
      · exact .inr ⟨_, rfl, closed_fail _ _, durables_fail _ _⟩
      · refine .inl ⟨_, rfl, by simpa using hopen, by simpa [closed] using hopen, ?_⟩
        simp only [durables, List.filterMap_append]
        cases h : frame.durable? <;> simp [h]

theorem send_closed (h : wr.closed = true) : wr.send size frame = (wr, false) := if_pos h

theorem run_spec {failure : Option DropReason} {wr' : Writer} (h : wr.run size failure = some wr') :
    wr'.durables = wr.durables ∧ (wr'.closed = false → wr.closed = false) := by
  unfold run at h
  split at h
  · cases h
  · split at h
    · cases h
    · rename_i hopen
      cases h
      refine ⟨?_, fun _ => by simpa using hopen⟩
      cases failure with
      | none => rfl
      | some reason => exact durables_fail _ reason

end Writer

/-! ## What is delivered and what is still to come

The files that were to be delivered are those that were, those that went down
with the connection, and the rest. -/

def Delivers (wr : Writer) (expected rest : List EventFile) : Prop :=
  ∃ lost, (wr.closed = false → lost = []) ∧ expected = wr.durables ++ lost ++ rest

namespace Delivers
variable {size : Frame → Nat} {wr wr' : Writer} {expected rest : List EventFile}

theorem isPrefix (h : Delivers wr expected rest) : wr.durables <+: expected := by
  obtain ⟨lost, -, rfl⟩ := h
  rw [List.append_assoc]
  exact List.prefix_append _ _

theorem eq_of_open (h : Delivers wr expected rest) (hopen : wr.closed = false) : expected = wr.durables ++ rest := by
  obtain ⟨lost, hlost, rfl⟩ := h
  rw [hlost hopen, List.append_nil]

theorem start (h : wr.durables = []) : Delivers wr expected expected := ⟨[], fun _ => rfl, by simp [h]⟩

theorem extend (h : Delivers wr expected rest) (more : List EventFile) :
    Delivers wr (expected ++ more) (rest ++ more) := by
  obtain ⟨lost, hlost, rfl⟩ := h
  exact ⟨lost, hlost, by simp⟩

/-- The connection may have been closed. -/
theorem keep (h : Delivers wr expected rest) (hd : wr'.durables = wr.durables)
    (hc : wr'.closed = false → wr.closed = false) : Delivers wr' expected rest := by
  obtain ⟨lost, hlost, rfl⟩ := h
  exact ⟨lost, fun ho => hlost (hc ho), by rw [hd]⟩

/-- The next frame is sent. -/
theorem send {frame : Frame} (h : Delivers wr expected (frame.durable?.toList ++ rest)) :
    Delivers (wr.send size frame).1 expected rest := by
  obtain ⟨lost, hlost, rfl⟩ := h
  rcases Writer.send_cases size wr frame with ⟨wr', hsend, hopen, -, hd⟩ | ⟨wr', hsend, hclosed, hd⟩
  · exact ⟨[], fun _ => rfl, by simp [hsend, hd, hlost hopen]⟩
  · exact ⟨lost ++ frame.durable?.toList, fun ho => by simp [hsend, hclosed] at ho, by simp [hsend, hd]⟩

end Delivers

/-! ## The log -/

structure Loaded (log : Log) (found : List EventFile) : Prop where
  log : log = Log.ofFiles found
  ordered : found.Pairwise fun f g => f.diskIdx < g.diskIdx
  ids : (found.map EventFile.eventId).Nodup

section Loaded
variable {found : List EventFile}

theorem idToIdx_ofFiles (hids : (found.map EventFile.eventId).Nodup) {i : Nat} {f : EventFile} (h : found[i]? = some f) :
    (Log.ofFiles found).idToIdx f.eventId = some i := by
  induction found using List.reverseRecOn with
  | nil => simp at h
  | append_singleton found g ih =>
    rw [List.map_append, List.nodup_append] at hids
    rw [Log.ofFiles_snoc]
    simp only [Log.indexFile]
    rcases Nat.lt_or_ge i found.length with hlt | hge
    · rw [List.getElem?_append_left hlt] at h
      have hold := ih hids.1 h
      have hne : f.eventId ≠ g.eventId := hids.2.2 _ (List.mem_map_of_mem (List.mem_of_getElem? h)) _ (by simp)
      split
      · exact hold
      · rw [Function.update_of_ne hne, hold]
    · obtain ⟨hlen, hf⟩ := List.getElem?_eq_some_iff.1 h
      have hi : i = found.length := by
        rw [List.length_append, List.length_singleton] at hlen
        omega
      subst hi
      have hfg : g = f := by simpa using hf
      subst hfg
      have hnew : ((Log.ofFiles found).idToIdx g.eventId).isSome = false := by
        rw [← Bool.not_eq_true]
        intro hsome
        obtain ⟨e, he, hid⟩ := (Log.contains_ofFiles found g.eventId).1 hsome
        exact hids.2.2 _ (List.mem_map_of_mem he) _ (by simp) hid
      rw [if_neg (by simp [hnew]), Function.update_self]

end Loaded

namespace World
variable {w : World} {found : List EventFile}

/-- The file of an event of the log. -/
def entry (w : World) (id : EventID) : Option EventFile := (w.seqOf id).map (⟨·, id⟩)

theorem entry_of_mem (h : Loaded w.log found) {f : EventFile} (hf : f ∈ found) : w.entry f.eventId = some f := by
  obtain ⟨i, hi⟩ := List.mem_iff_getElem?.1 hf
  simp only [entry, seqOf, h.log, idToIdx_ofFiles h.ids hi, Option.bind_some, Log.getSeq_ofFiles, hi, Option.map_some]

theorem entry_of_not_contains {id : EventID} (h : w.log.contains id = false) : w.entry id = none := by
  have hnone : w.log.idToIdx id = none := by simpa [Log.contains] using h
  simp [entry, seqOf, hnone]

theorem filterMap_entry (h : Loaded w.log found) {files : List EventFile} (hsub : files ⊆ found) :
    (files.map EventFile.eventId).filterMap w.entry = files := by
  rw [List.filterMap_map]
  have hsome : ∀ f ∈ files, (w.entry ∘ EventFile.eventId) f = some f := fun f hf => entry_of_mem h (hsub hf)
  rw [List.filterMap_congr hsome, List.filterMap_some]

/-- Sending an event moves it on. -/
theorem emit_delivers {size : Frame → Nat} {expected rest : List EventFile} {id : EventID}
    (h : Delivers w.writer expected ((w.entry id).toList ++ rest)) : Delivers (w.emit size id).writer expected rest := by
  refine Delivers.send ?_
  unfold entry at h
  cases hs : w.seqOf id <;> simpa [hs, Frame.durable?] using h

/-! ## Appending -/

theorem lt_nextSeq (h : Loaded w.log found) {f : EventFile} (hf : f ∈ found) : f.diskIdx < w.nextSeq := by
  have hlast := List.getLast?_eq_some_getLast (List.ne_nil_of_mem hf)
  have hle := diskIdx_le_getLast h.ordered hf hlast
  rw [nextSeq, h.log, Log.nextDiskIdx_ofFiles, hlast, Option.map_some, Option.getD_some]
  omega

/-- An append adds one file, under the next sequence number. -/
theorem append_ok (h : Loaded w.log found) {e : Event} {w' : World} (hw : w.append e = some w') :
    ∃ log, w' = { w with log, unpublished := w.unpublished ++ [e.id] } ∧ e.id ∉ w.unpersisted ∧
      Loaded log (found ++ [⟨w.nextSeq, e.id⟩]) ∧ w.nextSeq < w'.nextSeq := by
  unfold append at hw
  split at hw
  · cases hw
  · rename_i hpersisted
    cases hcheck : w.log.check e with
    | error err =>
      rw [hcheck] at hw
      cases hw
    | ok u =>
      rw [hcheck] at hw
      cases hw
      have hnew : ∀ g ∈ found, g.eventId ≠ e.id := by
        intro g hg heq
        have := Log.not_contains_of_check hcheck
        rw [h.log, (Log.contains_ofFiles _ _).2 ⟨g, hg, heq⟩] at this
        cases this
      have hfile : w.log.nextFile e.id = ⟨w.nextSeq, e.id⟩ := rfl
      have hrecord : w.log.record ⟨w.nextSeq, e.id⟩ = Log.ofFiles (found ++ [⟨w.nextSeq, e.id⟩]) := by
        rw [h.log]
        exact Log.record_ofFiles hnew
      rw [hfile]
      refine ⟨_, rfl, hpersisted, ⟨hrecord, ?_, ?_⟩, ?_⟩
      · refine List.pairwise_append.2 ⟨h.ordered, List.pairwise_singleton _ _, fun g hg f hf => ?_⟩
        rw [List.mem_singleton.1 hf]
        exact lt_nextSeq h hg
      · rw [List.map_append, List.nodup_append]
        refine ⟨h.ids, by simp, fun id hid id' hid' heq => ?_⟩
        obtain ⟨g, hg, rfl⟩ := List.mem_map.1 hid
        simp only [List.map_cons, List.map_nil, List.mem_singleton] at hid'
        exact hnew g hg (heq.trans hid')
      · simp only [nextSeq, Log.record]
        omega

end World

/-! ## The invariant -/

namespace World

/-- What is between the log and the connection. -/
def queued (w : World) : List EventID := w.buffer.getD [] ++ w.toNotify ++ w.unpublished

/-- What holds in each phase. While the connection buffers, everything since
its subscription is queued; once it replays, what is still to come stands on
the page or in the log; once it is live, in the queue. -/
def Stage (w : World) (found : List EventFile) : Prop :=
  match w.phase with
  | .connecting =>
    w.writer.durables = [] ∧ w.unread = [] ∧ w.buffer = some [] ∧ w.toNotify = [] ∧
      w.unpublished = (found.drop w.missed).map EventFile.eventId
  | .subscribed =>
    w.writer.durables = [] ∧ w.unread = [] ∧ w.buffer.isSome ∧ w.queued.filterMap w.entry = found.drop w.missed
  | .replaying throughSeq page next stop =>
    (w.buffer.isSome ∧ w.queued.filterMap w.entry = found.drop w.missed) ∧
      (w.missed ≤ stop ∧ next ≤ stop ∧ stop ≤ found.length) ∧
      ((∀ f ∈ found.take stop, f.diskIdx ≤ throughSeq) ∧ (∀ f ∈ found.drop stop, throughSeq < f.diskIdx) ∧
        throughSeq < w.nextSeq) ∧
      (∃ afterSeq, w.afterSeq = some afterSeq ∧ afterSeq < w.nextSeq) ∧
      Delivers w.writer w.expected (page ++ found.drop next)
  | .live =>
    w.buffer = none ∧ (∀ afterSeq ∈ w.afterSeq, afterSeq < w.nextSeq) ∧
      Delivers w.writer w.expected (w.queued.filterMap w.entry)
  | .closed => w.writer.closed = true ∧ w.writer.durables <+: w.expected

end World

theorem World.stage_live {w : World} {found : List EventFile} (hp : w.phase = .live) (hb : w.buffer = none)
    (hafter : ∀ afterSeq ∈ w.afterSeq, afterSeq < w.nextSeq)
    (hdel : Delivers w.writer w.expected ((w.toNotify ++ w.unpublished).filterMap w.entry)) : w.Stage found := by
  unfold World.Stage
  rw [hp]
  refine ⟨hb, hafter, ?_⟩
  rwa [World.queued, hb]

structure Inv (w : World) (found : List EventFile) : Prop where
  loaded : Loaded w.log found
  known : ∀ id ∈ w.queued, w.log.contains id = true ∨ id ∈ w.unpersisted
  fresh : ∀ id ∈ w.unpersisted, w.log.contains id = false
  unread : ∀ id ∈ w.unread, w.log.contains id = true
  missed : w.missed ≤ found.length
  stage : w.Stage found

section Steps
variable {size : Frame → Nat} {w w' : World} {found : List EventFile}

theorem Loaded.contains_iff (h : Loaded w.log found) (id : EventID) :
    w.log.contains id = true ↔ ∃ f ∈ found, f.eventId = id := by
  rw [h.log]
  exact Log.contains_ofFiles found id

theorem expected_eq (h : Loaded w.log found) :
    w.expected = match w.afterSeq with
      | some afterSeq => found.filter fun f => afterSeq < f.diskIdx ∧ f.eventId ∉ w.unread
      | none => found.drop w.missed := by
  rw [World.expected, h.log, Log.entries_ofFiles]

theorem expected_append {log : Log} {new : EventFile} (h : Inv w found) (hloaded : Loaded log (found ++ [new]))
    (unpublished : List EventID) :
    w.expected <+: { w with log, unpublished }.expected ∧
      (new.diskIdx = w.nextSeq → (∀ afterSeq ∈ w.afterSeq, afterSeq < w.nextSeq) →
        { w with log, unpublished }.expected = w.expected ++ [new]) := by
  have hread : new.eventId ∉ w.unread := by
    intro hin
    obtain ⟨f, hf, hid⟩ := (h.loaded.contains_iff _).1 (h.unread _ hin)
    have hn := hloaded.ids
    rw [List.map_append, List.nodup_append] at hn
    exact hn.2.2 _ (List.mem_map_of_mem hf) _ (by simp) hid
  rw [expected_eq h.loaded, expected_eq (w := { w with log, unpublished }) hloaded]
  dsimp only
  cases w.afterSeq with
  | none =>
    dsimp only
    rw [List.drop_append_of_le_length h.missed]
    exact ⟨List.prefix_append _ _, fun _ _ => rfl⟩
  | some afterSeq =>
    dsimp only
    rw [List.filter_append]
    refine ⟨List.prefix_append _ _, fun hseq hafter => ?_⟩
    have hlt := hafter afterSeq rfl
    rw [List.filter_cons_of_pos (by simp [hread, hseq, hlt])]
    rfl

theorem Inv.step_append (h : Inv w found) {e : Event} (hw : w.append e = some w') :
    Inv w' (found ++ [⟨w.nextSeq, e.id⟩]) := by
  obtain ⟨log, rfl, hpersisted, hloaded, hnext⟩ := World.append_ok h.loaded hw
  let w' : World := { w with log, unpublished := w.unpublished ++ [e.id] }
  have hcontains : ∀ id, log.contains id = true ↔ w.log.contains id = true ∨ id = e.id := by
    intro id
    rw [h.loaded.contains_iff, Loaded.contains_iff (w := w') hloaded]
    simp only [List.mem_append, List.mem_singleton, or_and_right, exists_or, exists_eq_left, eq_comm]
  have hfresh : ∀ id ∈ w.unpersisted, log.contains id = false := by
    intro id hid
    rw [← Bool.not_eq_true, hcontains]
    rintro (hin | rfl)
    · rw [h.fresh id hid] at hin
      cases hin
    · exact hpersisted hid
  -- The entries that are known keep their numbers; the new one is the last.
  have hentry : ∀ id ∈ w.queued, w'.entry id = w.entry id := by
    intro id hid
    rcases h.known id hid with hin | hin
    · obtain ⟨f, hf, rfl⟩ := (h.loaded.contains_iff id).1 hin
      rw [World.entry_of_mem h.loaded hf, World.entry_of_mem (w := w') hloaded (List.mem_append_left _ hf)]
    · rw [World.entry_of_not_contains (h.fresh id hin), World.entry_of_not_contains (w := w') (hfresh id hin)]
  have hqueued : w'.queued = w.queued ++ [e.id] := by
    simp only [w', World.queued, List.append_assoc]
  have hentries : w'.queued.filterMap w'.entry = w.queued.filterMap w.entry ++ [⟨w.nextSeq, e.id⟩] := by
    have hlast : w'.entry e.id = some ⟨w.nextSeq, e.id⟩ :=
      World.entry_of_mem (w := w') hloaded (List.mem_append_right _ (List.mem_singleton_self _))
    rw [hqueued, List.filterMap_append, List.filterMap_congr hentry, List.filterMap_cons_some hlast]
    rfl
  obtain ⟨hgrown, hexpected⟩ := expected_append h hloaded (w.unpublished ++ [e.id])
  have hmissed : w.missed ≤ (found ++ [(⟨w.nextSeq, e.id⟩ : EventFile)]).length := by
    rw [List.length_append]
    exact Nat.le_add_right_of_le h.missed
  refine ⟨hloaded, fun id hid => ?_, hfresh, fun id hid => (hcontains id).2 (.inl (h.unread id hid)), hmissed, ?_⟩
  · rw [show World.queued _ = w.queued ++ [e.id] from hqueued] at hid
    rcases List.mem_append.1 hid with hid | hid
    · exact (h.known id hid).imp_left fun hin => (hcontains id).2 (.inl hin)
    · exact .inl ((hcontains id).2 (.inr (List.mem_singleton.1 hid)))
  · have hs := h.stage
    -- What each phase still has to deliver grows by the new event.
    unfold World.Stage at hs ⊢
    dsimp only
    cases hphase : w.phase with
    | connecting =>
      rw [hphase] at hs
      obtain ⟨hd, hu, hb, hn, hq⟩ := hs
      refine ⟨hd, hu, hb, hn, ?_⟩
      rw [hq, List.drop_append_of_le_length h.missed, List.map_append]
      rfl
    | subscribed =>
      rw [hphase] at hs
      obtain ⟨hd, hu, hb, hq⟩ := hs
      refine ⟨hd, hu, hb, ?_⟩
      rw [List.drop_append_of_le_length h.missed, ← hq]
      exact hentries
    | replaying throughSeq page next stop =>
      rw [hphase] at hs
      obtain ⟨⟨hb, hq⟩, ⟨hm, hns, hsf⟩, ⟨hbefore, hbehind, hthrough⟩, ⟨afterSeq, hafter, hlt⟩, hdel⟩ := hs
      refine ⟨⟨hb, ?_⟩, ⟨hm, hns, ?_⟩, ⟨?_, ?_, Nat.lt_trans hthrough hnext⟩, ⟨afterSeq, hafter, ?_⟩, ?_⟩
      · rw [List.drop_append_of_le_length h.missed, ← hq]
        exact hentries
      · rw [List.length_append]
        exact Nat.le_add_right_of_le hsf
      · rw [List.take_append_of_le_length hsf]
        exact hbefore
      · rw [List.drop_append_of_le_length hsf]
        refine List.forall_mem_append.2 ⟨hbehind, fun f hf => ?_⟩
        rw [List.mem_singleton.1 hf]
        exact hthrough
      · exact Int.lt_trans hlt (Int.ofNat_lt.2 hnext)
      · have hdel' := hdel.extend [⟨w.nextSeq, e.id⟩]
        rw [← hexpected rfl (by simp [hafter, hlt]), List.append_assoc,
          ← List.drop_append_of_le_length (Nat.le_trans hns hsf)] at hdel'
        exact hdel'
    | live =>
      rw [hphase] at hs
      obtain ⟨hb, hafter, hdel⟩ := hs
      refine ⟨hb, fun afterSeq ha => Int.lt_trans (hafter afterSeq ha) (Int.ofNat_lt.2 hnext), ?_⟩
      have hdel' := hdel.extend [⟨w.nextSeq, e.id⟩]
      rw [← hexpected rfl hafter, ← hentries] at hdel'
      exact hdel'
    | closed =>
      rw [hphase] at hs
      exact ⟨hs.1, hs.2.trans hgrown⟩

theorem Inv.delivered (h : Inv w found) : w.writer.durables <+: w.expected := by
  have hs := h.stage
  unfold World.Stage at hs
  cases hphase : w.phase with
  | connecting | subscribed =>
    rw [hphase] at hs
    rw [hs.1]
    exact List.nil_prefix
  | replaying throughSeq page next stop =>
    rw [hphase] at hs
    exact hs.2.2.2.2.isPrefix
  | live =>
    rw [hphase] at hs
    exact hs.2.2.isPrefix
  | closed =>
    rw [hphase] at hs
    exact hs.2

theorem Inv.close (h : Inv w found) : Inv w.close found := by
  refine ⟨h.loaded, h.known, h.fresh, h.unread, h.missed, Writer.closed_fail _ _, ?_⟩
  have hd := h.delivered
  rw [← Writer.durables_fail w.writer .closing] at hd
  exact hd

/-- Other frames and the writer task leave the durable frames alone. -/
theorem Inv.write (h : Inv w found) {writer : Writer} (hd : writer.durables = w.writer.durables)
    (hc : writer.closed = false → w.writer.closed = false) : Inv { w with writer } found := by
  refine ⟨h.loaded, h.known, h.fresh, h.unread, h.missed, ?_⟩
  have hs := h.stage
  unfold World.Stage at hs ⊢
  dsimp only at hs ⊢
  rw [hd]
  split at hs
  · exact hs
  · exact hs
  · exact ⟨hs.1, hs.2.1, hs.2.2.1, hs.2.2.2.1, hs.2.2.2.2.keep hd hc⟩
  · exact ⟨hs.1, hs.2.1, hs.2.2.keep hd hc⟩
  · refine ⟨?_, hs.2⟩
    rw [← Bool.not_eq_false]
    exact fun hopen => by simp [hs.1] at hc; simp [hc] at hopen

/-- A frame without an event is sent, or the connection is closed. -/
theorem Inv.sendOther (h : Inv w found) {frame : Frame} (hframe : frame.durable? = none) :
    Inv { w with writer := (w.writer.send size frame).1 } found := by
  rcases Writer.send_cases size w.writer frame with ⟨wr, hsend, hopen, -, hd⟩ | ⟨wr, hsend, hclosed, hd⟩
  · exact h.write (by simp [hsend, hd, hframe]) fun _ => hopen
  · exact h.write (by simp [hsend, hd]) fun ho => by simp [hsend, hclosed] at ho

/-- The queue changes without a change to the files in it. -/
theorem Inv.requeue (h : Inv w found) (hphase : w.phase ≠ .connecting) {buffer : Option (List EventID)}
    {toNotify unpublished unpersisted : List EventID} (hb : buffer.isSome = w.buffer.isSome)
    (hfresh : ∀ id ∈ unpersisted, w.log.contains id = false)
    (hknown : ∀ id ∈ buffer.getD [] ++ toNotify ++ unpublished, w.log.contains id = true ∨ id ∈ unpersisted)
    (hentries : w.phase ≠ .closed →
      (buffer.getD [] ++ toNotify ++ unpublished).filterMap w.entry = w.queued.filterMap w.entry) :
    Inv { w with buffer, toNotify, unpublished, unpersisted } found := by
  refine ⟨h.loaded, hknown, hfresh, h.unread, h.missed, ?_⟩
  have hs := h.stage
  unfold World.Stage at hs ⊢
  dsimp only at hs ⊢
  have hnone : w.buffer = none → buffer = none := fun hn => by simpa [hn] using hb
  split at hs
  · exact absurd ‹_› hphase
  · refine ⟨hs.1, hs.2.1, hb.trans hs.2.2.1, ?_⟩
    rw [← hs.2.2.2, ← hentries (by simp [*])]
    rfl
  · refine ⟨⟨hb.trans hs.1.1, ?_⟩, hs.2⟩
    rw [← hs.1.2, ← hentries (by simp [*])]
    rfl
  · refine ⟨hnone hs.1, hs.2.1, ?_⟩
    have hdel := hs.2.2
    rw [← hentries (by simp [*])] at hdel
    exact hdel
  · exact hs

theorem Inv.contains_unpublished (h : Inv w found) (hphase : w.phase = .connecting) {id : EventID}
    {unpublished : List EventID} (hun : w.unpublished = id :: unpublished) :
    w.missed < found.length ∧ unpublished = (found.drop (w.missed + 1)).map EventFile.eventId := by
  have hs := h.stage
  unfold World.Stage at hs
  rw [hphase] at hs
  have hq := hs.2.2.2.2
  rw [hun] at hq
  have hlt : w.missed < found.length := by
    by_contra hle
    rw [List.drop_eq_nil_of_le (Nat.le_of_not_lt hle)] at hq
    cases hq
  rw [List.drop_eq_getElem_cons hlt, List.map_cons, List.cons.injEq] at hq
  exact ⟨hlt, hq.2⟩

theorem Inv.step_publish (h : Inv w found) (hw : w.publish = some w') : Inv w' found := by
  unfold World.publish at hw
  cases hun : w.unpublished with
  | nil =>
    rw [hun] at hw
    cases hw
  | cons id unpublished =>
    rw [hun] at hw
    have hqueued : w.queued = w.buffer.getD [] ++ w.toNotify ++ id :: unpublished := by rw [World.queued, hun]
    dsimp only at hw
    split at hw
    · rename_i hsub
      cases hw
      have hmoved : w.buffer.getD [] ++ (w.toNotify ++ [id]) ++ unpublished = w.queued := by
        rw [hqueued]
        simp
      have hphase : w.phase ≠ .connecting := by
        intro hc
        simp [World.isSubscribed, hc] at hsub
      exact h.requeue hphase rfl h.fresh (by rw [hmoved]; exact h.known) fun _ => by rw [hmoved]
    · rename_i hsub
      cases hw
      have hknown : ∀ id ∈ w.buffer.getD [] ++ w.toNotify ++ unpublished, w.log.contains id = true ∨ id ∈ w.unpersisted := by
        intro x hx
        refine h.known x ?_
        rw [hqueued]
        simp only [List.mem_append, List.mem_cons] at hx ⊢
        tauto
      by_cases hc : w.phase = .connecting
      · obtain ⟨hlt, hrest⟩ := h.contains_unpublished hc hun
        rw [if_pos hc]
        refine ⟨h.loaded, hknown, h.fresh, h.unread, hlt, ?_⟩
        have hs := h.stage
        unfold World.Stage at hs ⊢
        dsimp only
        rw [hc] at hs ⊢
        exact ⟨hs.1, hs.2.1, hs.2.2.1, hs.2.2.2.1, hrest⟩
      · rw [if_neg hc]
        have hclosed : w.phase = .closed := by
          simpa [World.isSubscribed, hc] using hsub
        exact h.requeue hc rfl h.fresh hknown fun hn => absurd hclosed hn

theorem filterMap_cons_toList {α β : Type _} (f : α → Option β) (a : α) (l : List α) :
    (a :: l).filterMap f = (f a).toList ++ l.filterMap f := by
  cases h : f a <;> simp [h]

theorem Inv.step_notify (h : Inv w found) (hw : w.notify size = some w') : Inv w' found := by
  unfold World.notify at hw
  cases hn : w.toNotify with
  | nil =>
    rw [hn] at hw
    cases hw
  | cons id toNotify =>
    rw [hn] at hw
    have hqueued : w.queued = w.buffer.getD [] ++ id :: toNotify ++ w.unpublished := by rw [World.queued, hn]
    have hphase : w.phase ≠ .connecting := by
      intro hc
      have hs := h.stage
      unfold World.Stage at hs
      rw [hc] at hs
      rw [hs.2.2.2.1] at hn
      cases hn
    cases hb : w.buffer with
    | some buffer =>
      rw [hb] at hw hqueued
      cases hw
      have hmoved : buffer ++ [id] ++ toNotify ++ w.unpublished = w.queued := by
        rw [hqueued]
        simp
      refine h.requeue hphase (by simp [hb]) h.fresh ?_ fun _ => ?_
      · rw [Option.getD_some, hmoved]
        exact h.known
      · rw [Option.getD_some, hmoved]
    | none =>
      rw [hb] at hw hqueued
      cases hw
      have hknown : ∀ x ∈ ([] : List EventID) ++ toNotify ++ w.unpublished, w.log.contains x = true ∨ x ∈ w.unpersisted := by
        intro x hx
        refine h.known x ?_
        rw [hqueued]
        simp only [Option.getD_none, List.mem_append, List.mem_cons] at hx ⊢
        tauto
      have hs := h.stage
      unfold World.Stage at hs
      cases hp : w.phase with
      | connecting => exact absurd hp hphase
      | subscribed =>
        rw [hp] at hs
        simp [hb] at hs
      | replaying throughSeq page next stop =>
        rw [hp] at hs
        simp [hb] at hs
      | live =>
        rw [hp] at hs
        obtain ⟨-, hafter, hdel⟩ := hs
        rw [hqueued, Option.getD_none, List.nil_append, List.cons_append, filterMap_cons_toList] at hdel
        have hemit : Delivers ({ w with toNotify }.emit size id).writer w.expected
            ((toNotify ++ w.unpublished).filterMap w.entry) := World.emit_delivers (w := { w with toNotify }) hdel
        refine ⟨h.loaded, ?_, h.fresh, h.unread, h.missed, ?_⟩
        · simpa [World.emit, World.queued, hb] using hknown
        · exact World.stage_live rfl rfl hafter hemit
      | closed =>
        rw [hp] at hs
        have hq : Inv { w with buffer := none, toNotify } found :=
          h.requeue hphase (by rw [hb]) h.fresh hknown fun hn => absurd hp hn
        rw [World.emit, Writer.send_closed hs.1, ← hp]
        exact hq

theorem Inv.step_broadcast (h : Inv w found) {id : EventID} {delta : Bool} (hw : w.broadcast id delta = some w') :
    Inv w' found := by
  unfold World.broadcast at hw
  split at hw
  · cases hw
  · rename_i hnew
    rw [Bool.not_eq_true] at hnew
    split at hw
    · cases hw
      exact h
    · cases hw
      have hfresh : ∀ x ∈ id :: w.unpersisted, w.log.contains x = false := List.forall_mem_cons.2 ⟨hnew, h.fresh⟩
      have hknown : ∀ x ∈ w.queued, w.log.contains x = true ∨ x ∈ id :: w.unpersisted :=
        fun x hx => (h.known x hx).imp_right (List.mem_cons_of_mem id)
      split
      · rename_i hsub
        refine h.requeue (by rintro hc; simp [World.isSubscribed, hc] at hsub) rfl hfresh (fun x hx => ?_) fun _ => ?_
        · simp only [List.mem_append, List.mem_singleton] at hx
          by_cases hxid : x = id
          · exact .inr (hxid ▸ List.mem_cons_self)
          · refine hknown x ?_
            simp only [World.queued, List.mem_append]
            tauto
        · simp [World.queued, World.entry_of_not_contains hnew]
      · exact ⟨h.loaded, hknown, hfresh, h.unread, h.missed, h.stage⟩

theorem Inv.step_snapshot (h : Inv w found) {id : EventID} (hw : w.snapshot id = some w') : Inv w' found := by
  unfold World.snapshot at hw
  split at hw
  · rename_i buffer hp hb
    split at hw
    · cases hw
    · rename_i hnew
      rw [Bool.not_eq_true] at hnew
      cases hw
      refine h.requeue (by simp [hp]) (by simp [hb]) (List.forall_mem_cons.2 ⟨hnew, h.fresh⟩) (fun x hx => ?_) fun _ => ?_
      · by_cases hxid : x = id
        · exact .inr (hxid ▸ List.mem_cons_self)
        · refine (h.known x ?_).imp_right (List.mem_cons_of_mem id)
          simp only [Option.getD_some, World.queued, hb, List.mem_append, List.mem_singleton] at hx ⊢
          tauto
      · simp [World.queued, hb, World.entry_of_not_contains hnew]
  · cases hw

theorem Inv.step_subscribe (h : Inv w found) (hphase : w.phase = .connecting) :
    Inv { w with phase := .subscribed } found := by
  have hs := h.stage
  unfold World.Stage at hs
  rw [hphase] at hs
  obtain ⟨hd, hu, hb, hn, hq⟩ := hs
  refine ⟨h.loaded, h.known, h.fresh, h.unread, h.missed, hd, hu, by simp [hb], ?_⟩
  simp only [World.queued, hb, hn, hq]
  exact World.filterMap_entry h.loaded (List.drop_subset _ _)

/-! ## Mark, replay and going live -/

/-- The part of a list of files that `go_live` sends. -/
def above (through : Option Nat) (files : List EventFile) : List EventFile :=
  files.filter fun f => through.all (· < f.diskIdx)

@[simp] theorem above_none (files : List EventFile) : above none files = files := List.filter_eq_self.2 fun _ _ => rfl

theorem flush_delivers (size : Frame → Nat) {through : Option Nat} {expected rest : List EventFile} {ids : List EventID} {w : World}
    (h : Delivers w.writer expected (above through (ids.filterMap w.entry) ++ rest)) :
    ∃ writer, World.flush size through ids w = { w with writer } ∧ Delivers writer expected rest := by
  induction ids generalizing w with
  | nil => exact ⟨w.writer, rfl, h⟩
  | cons id ids ih =>
    -- Sent now, it moves on to the rest of the buffer.
    have hemit : Delivers w.writer expected ((w.entry id).toList ++ (above through (ids.filterMap w.entry) ++ rest)) →
        ∃ writer, World.flush size through ids (w.emit size id) = { w with writer } ∧
          Delivers writer expected rest := by
      intro hnext
      obtain ⟨writer, hflush, hdel⟩ := ih (w := w.emit size id) (World.emit_delivers hnext)
      exact ⟨writer, hflush, hdel⟩
    rw [filterMap_cons_toList] at h
    unfold World.flush
    cases hs : w.seqOf id with
    | none =>
      have hentry : w.entry id = none := by simp [World.entry, hs]
      rw [hentry] at h hemit
      exact hemit h
    | some seq =>
      have hentry : w.entry id = some ⟨seq, id⟩ := by simp [World.entry, hs]
      rw [hentry] at h hemit
      cases through with
      | none => exact hemit h
      | some throughSeq =>
        dsimp only
        by_cases hle : seq ≤ throughSeq
        · have hnot : ¬ throughSeq < seq := Nat.not_lt.2 hle
          rw [if_pos hle]
          refine ih ?_
          simpa [above, hnot] using h
        · have hlt : throughSeq < seq := Nat.lt_of_not_le hle
          rw [if_neg hle]
          refine hemit ?_
          simpa [above, hlt] using h

/-- Going live, the buffer is sent down to the mark. -/
theorem Inv.goLive (h : Inv w found) {through : Option Nat} (hafter : ∀ afterSeq ∈ w.afterSeq, afterSeq < w.nextSeq)
    (hdel : Delivers w.writer w.expected
      (above through ((w.buffer.getD []).filterMap w.entry) ++ (w.toNotify ++ w.unpublished).filterMap w.entry)) :
    Inv (w.goLive size through) found := by
  obtain ⟨writer, hflush, hdel'⟩ := flush_delivers size (w := { w with buffer := none, phase := .live }) hdel
  rw [World.goLive, hflush]
  refine ⟨h.loaded, fun id hid => h.known id ?_, h.fresh, h.unread, h.missed, World.stage_live rfl rfl hafter hdel'⟩
  simp only [World.queued, Option.getD_none, List.nil_append, List.mem_append] at hid ⊢
  tauto

/-- All files are up to `throughSeq`, and then all are above. -/
theorem above_drop {files : List EventFile} {missed stop throughSeq : Nat} (hle : missed ≤ stop)
    (hbefore : ∀ f ∈ files.take stop, f.diskIdx ≤ throughSeq) (hbehind : ∀ f ∈ files.drop stop, throughSeq < f.diskIdx) :
    above (some throughSeq) (files.drop missed) = files.drop stop := by
  have hsplit : files.drop missed = (files.take stop).drop missed ++ files.drop stop := by
    conv_lhs => rw [← List.take_append_drop stop files]
    by_cases hlen : stop ≤ files.length
    · rw [List.drop_append_of_le_length (by rw [List.length_take]; omega)]
    · rw [List.drop_eq_nil_of_le (Nat.le_of_not_le hlen), List.append_nil, List.append_nil]
  rw [hsplit, above, List.filter_append, List.filter_eq_nil_iff.2, List.nil_append, List.filter_eq_self]
  · exact fun f hf => by simpa using hbehind f hf
  · intro f hf
    have := hbefore f (List.mem_of_mem_drop hf)
    simpa using this

theorem Inv.step_goLive (h : Inv w found) (hok : w.caughtUp) (hw : w.endReplay size = some w') : Inv w' found := by
  unfold World.endReplay at hw
  cases hp : w.phase with
  | replaying throughSeq page next stop =>
    rw [hp] at hw
    have hs := h.stage
    unfold World.Stage at hs
    unfold World.caughtUp at hok
    rw [hp] at hs hok
    obtain ⟨⟨-, hq⟩, ⟨hm, hns, -⟩, ⟨hbefore, hbehind, -⟩, ⟨afterSeq, hafter, hlt⟩, hdel⟩ := hs
    cases page with
    | cons f page => cases hw
    | nil =>
      dsimp only at hw
      split at hw
      · cases hw
      · rename_i hge
        cases hw
        refine h.goLive (by simp [hafter, hlt]) ?_
        have hstop : next = stop := by omega
        rw [hstop, List.nil_append] at hdel
        have hrest : above (some throughSeq) ((w.toNotify ++ w.unpublished).filterMap w.entry) =
            (w.toNotify ++ w.unpublished).filterMap w.entry := by
          refine List.filter_eq_self.2 fun f hf => ?_
          obtain ⟨id, hid, hf⟩ := List.mem_filterMap.1 hf
          obtain ⟨seq, hseq, rfl⟩ := Option.map_eq_some_iff.1 hf
          simpa using hok id hid seq hseq
        have hall : above (some throughSeq) ((w.buffer.getD []).filterMap w.entry) ++
            (w.toNotify ++ w.unpublished).filterMap w.entry = found.drop stop := by
          have hqueue : w.queued.filterMap w.entry = (w.buffer.getD []).filterMap w.entry ++
              (w.toNotify ++ w.unpublished).filterMap w.entry := by
            rw [World.queued, List.append_assoc, List.filterMap_append]
          rw [← above_drop hm hbefore hbehind, ← hq, hqueue, above, above, List.filter_append]
          exact congrArg _ hrest.symm
        rw [hall]
        exact hdel
  | _ =>
    rw [hp] at hw
    cases hw

theorem filterMap_getElem?_range' {α : Type _} (l : List α) (start n : Nat) :
    (List.range' start n).filterMap (l[·]?) = (l.drop start).take n := by
  induction n generalizing start with
  | zero => simp
  | succ n ih =>
    rw [List.range'_succ]
    cases hl : l[start]? with
    | none =>
      have hge := List.getElem?_eq_none_iff.1 hl
      rw [List.filterMap_cons_none hl, ih, List.drop_eq_nil_of_le hge, List.drop_eq_nil_of_le (by omega), List.take_nil,
        List.take_nil]
    | some a =>
      obtain ⟨hlt, rfl⟩ := List.getElem?_eq_some_iff.1 hl
      rw [List.filterMap_cons_some hl, ih, List.drop_eq_getElem_cons hlt, List.take_succ_cons]

/-- A page of a loaded log. -/
theorem page_eq (h : Loaded w.log found) (start stop : Nat) :
    World.page w.log start stop = (found.drop start).take (stop - start) := by
  have hentry : ∀ idx ∈ List.range' start (stop - start),
      (do return (⟨← w.log.getSeq idx, ← w.log.getId idx⟩ : EventFile)) = found[idx]? := by
    intro idx _
    rw [h.log, Log.getSeq_ofFiles, Log.getId, Log.length_ofFiles, Log.idxToId_ofFiles]
    cases hf : found[idx]? with
    | none => rfl
    | some f =>
      rw [if_pos (List.getElem?_eq_some_iff.1 hf).1]
      rfl
  rw [World.page, List.filterMap_congr hentry, filterMap_getElem?_range']

theorem drop_indexAfterSeq (h : Loaded w.log found) (afterSeq : Int) :
    w.log.indexAfterSeq afterSeq ≤ found.length ∧
      found.drop (w.log.indexAfterSeq afterSeq) = found.filter fun f => afterSeq < f.diskIdx := by
  obtain ⟨hle, hsplit⟩ := Log.indexAfterSeq_spec h.ordered afterSeq
  rw [← h.log] at hle hsplit
  have hlength : w.log.length = found.length := by rw [h.log, Log.length_ofFiles]
  rw [hlength] at hle
  generalize w.log.indexAfterSeq afterSeq = k at hle hsplit
  have hseq : ∀ {i : Nat} (hi : i < found.length), i < k ↔ (found[i].diskIdx : Int) ≤ afterSeq := by
    intro i hi
    refine hsplit i _ ?_
    rw [h.log, Log.getSeq_ofFiles, List.getElem?_eq_getElem hi]
    rfl
  refine ⟨hle, ?_⟩
  conv_rhs => rw [← List.take_append_drop k found, List.filter_append]
  rw [List.filter_eq_nil_iff.2, List.nil_append, List.filter_eq_self.2]
  · intro f hf
    obtain ⟨i, hi, rfl⟩ := List.mem_drop_iff_getElem.1 hf
    have := (hseq (by omega : k + i < found.length)).not.1 (by omega)
    simpa using this
  · intro f hf
    obtain ⟨i, hi, rfl⟩ := List.mem_take_iff_getElem.1 hf
    have := (hseq (by omega : i < found.length)).1 (by omega)
    simpa using this

/-- Of files with different ids only those of the page are dropped. -/
theorem filter_unread {before events after : List EventFile} {failed : List EventID}
    (hids : ((before ++ events ++ after).map EventFile.eventId).Nodup) :
    (before ++ events ++ after).filter (·.eventId ∉ (events.map EventFile.eventId).filter (· ∈ failed)) =
      before ++ events.filter (·.eventId ∉ failed) ++ after := by
  rw [List.map_append, List.map_append, List.nodup_append, List.nodup_append] at hids
  obtain ⟨⟨-, -, hbefore⟩, -, hafter⟩ := hids
  rw [List.filter_append, List.filter_append]
  congr 1
  · congr 1
    · refine List.filter_eq_self.2 fun f hf => ?_
      have hnot : f.eventId ∉ events.map EventFile.eventId :=
        fun hin => hbefore _ (List.mem_map_of_mem hf) _ hin rfl
      simp only [List.mem_filter, decide_eq_true_eq]
      exact fun hin => hnot hin.1
    · refine List.filter_congr fun f hf => ?_
      have hin : f.eventId ∈ events.map EventFile.eventId := List.mem_map_of_mem hf
      simp [hin]
  · refine List.filter_eq_self.2 fun f hf => ?_
    have hnot : f.eventId ∉ events.map EventFile.eventId := fun hin =>
      hafter _ (List.mem_append_right _ hin) _ (List.mem_map_of_mem hf) rfl
    simp only [List.mem_filter, decide_eq_true_eq]
    exact fun hin => hnot hin.1

theorem Inv.step_readPage (h : Inv w found) {failed : List EventID} (hw : w.readPage failed = some w') :
    Inv w' found := by
  unfold World.readPage at hw
  cases hp : w.phase with
  | replaying throughSeq page next stop =>
    rw [hp] at hw
    have hs := h.stage
    unfold World.Stage at hs
    rw [hp] at hs
    obtain ⟨hbuffer, ⟨hm, -, hsf⟩, hmark, ⟨afterSeq, hafter, hlt⟩, hdel⟩ := hs
    cases page with
    | cons f page => cases hw
    | nil =>
      dsimp only at hw
      split at hw
      · cases hw
      · rename_i hnext
        have hstop : min (next + replayPageSize) stop ≤ stop := Nat.min_le_right _ _
        have hpageStop : next ≤ min (next + replayPageSize) stop := by omega
        generalize min (next + replayPageSize) stop = pageStop at hw hstop hpageStop
        have hevents := page_eq h.loaded next pageStop
        generalize World.page w.log next pageStop = events at hw hevents
        have hrest : found.drop next = events ++ found.drop pageStop := by
          conv_lhs => rw [← List.take_append_drop (pageStop - next) (found.drop next), ← hevents, List.drop_drop]
          rw [Nat.add_sub_cancel' hpageStop]
        have hsub : events ⊆ found := by
          rw [hevents]
          exact fun f hf => List.mem_of_mem_drop (List.mem_of_mem_take hf)
        let new : List EventID := (events.map EventFile.eventId).filter (· ∈ failed)
        have hunread : ∀ id ∈ w.unread ++ new, w.log.contains id = true := by
          intro id hid
          rcases List.mem_append.1 hid with hid | hid
          · exact h.unread id hid
          · obtain ⟨f, hf, rfl⟩ := List.mem_map.1 (List.mem_filter.1 hid).1
            exact (h.loaded.contains_iff _).2 ⟨f, hsub hf, rfl⟩
        -- What was to come is the page and the rest of the log; the page loses what cannot be read.
        have hexpected : { w with unread := w.unread ++ new }.expected = w.expected.filter (·.eventId ∉ new) := by
          rw [expected_eq h.loaded, expected_eq (w := { w with unread := w.unread ++ new }) h.loaded]
          dsimp only
          rw [hafter]
          dsimp only
          rw [List.filter_filter]
          refine List.filter_congr fun f _ => ?_
          simp only [List.mem_append, not_or, Bool.decide_and, Bool.and_comm, Bool.and_left_comm,
            Bool.and_assoc]
        have hnodup : (w.expected.map EventFile.eventId).Nodup := by
          rw [expected_eq h.loaded, hafter]
          exact h.loaded.ids.sublist (List.filter_sublist.map _)
        have hdel' : Delivers w.writer { w with unread := w.unread ++ new }.expected
            (events.filter (·.eventId ∉ failed) ++ found.drop pageStop) := by
          obtain ⟨lost, hlost, heq⟩ := hdel
          rw [List.nil_append, hrest, ← List.append_assoc] at heq
          refine ⟨lost, hlost, ?_⟩
          rw [heq] at hnodup
          rw [hexpected, heq, filter_unread hnodup, List.append_assoc]
        cases hw
        exact ⟨h.loaded, h.known, h.fresh, hunread, h.missed, hbuffer, ⟨hm, hstop, hsf⟩, hmark,
          ⟨afterSeq, hafter, hlt⟩, hdel'⟩
  | _ =>
    rw [hp] at hw
    cases hw

theorem Inv.step_sendReplayed (h : Inv w found) (hw : w.sendReplayed size = some w') : Inv w' found := by
  unfold World.sendReplayed at hw
  cases hp : w.phase with
  | replaying throughSeq page next stop =>
    rw [hp] at hw
    have hs := h.stage
    unfold World.Stage at hs
    rw [hp] at hs
    obtain ⟨hbuffer, hrange, hmark, hafter, hdel⟩ := hs
    cases page with
    | nil => cases hw
    | cons f page =>
      have hsend : Delivers (w.writer.send size (.durable f.diskIdx f.eventId)).1 w.expected (page ++ found.drop next) :=
        Delivers.send hdel
      have hinv : ∀ writer, Delivers writer w.expected (page ++ found.drop next) →
          Inv { w with writer, phase := .replaying throughSeq page next stop } found := fun writer hdel =>
        ⟨h.loaded, h.known, h.fresh, h.unread, h.missed, hbuffer, hrange, hmark, hafter, hdel⟩
      rcases Writer.send_cases size w.writer (.durable f.diskIdx f.eventId) with
        ⟨writer, hsent, -⟩ | ⟨writer, hsent, -⟩
      · simp only [hsent] at hw hsend
        cases hw
        exact hinv writer hsend
      · simp only [hsent] at hw hsend
        cases hw
        exact (hinv writer hsend).close
  | _ =>
    rw [hp] at hw
    cases hw

/-- The mark is the last sequence number. -/
theorem through_eq (h : Loaded w.log found) :
    (if w.log.length = 0 then none else w.log.getSeq (w.log.length - 1)) = found.getLast?.map EventFile.diskIdx := by
  rw [h.log, Log.length_ofFiles, Log.getSeq_ofFiles, List.getLast?_eq_getElem?]
  cases found with
  | nil => rfl
  | cons f found => rfl

theorem Inv.step_mark (h : Inv w found) (hok : ∀ afterSeq ∈ w.afterSeq, afterSeq < w.nextSeq)
    (hw : w.mark size = some w') : Inv w' found := by
  unfold World.mark at hw
  cases hp : w.phase with
  | subscribed =>
    rw [hp] at hw
    dsimp only at hw
    rw [through_eq h.loaded] at hw
    have hs := h.stage
    unfold World.Stage at hs
    rw [hp] at hs
    obtain ⟨hd, hu, hb, hq⟩ := hs
    have hlength : w.log.length = found.length := by rw [h.loaded.log, Log.length_ofFiles]
    rcases Writer.send_cases size w.writer (.sync w.afterSeq (found.getLast?.map EventFile.diskIdx)) with
      ⟨writer, hsent, hopen, -, hd'⟩ | ⟨writer, hsent, hclosed, hd'⟩
    · have hsync : Inv { w with writer } found := h.write (by simpa [Frame.durable?] using hd') fun _ => hopen
      have hnothing : writer.durables = [] := by simpa [Frame.durable?, hd] using hd'
      -- Live at once, everything that was published since the subscription is in the queue.
      have hlive : w.expected = found.drop w.missed → Inv ({ w with writer }.goLive size none) found := by
        intro hexpected
        refine hsync.goLive hok ?_
        have hall : above none ((w.buffer.getD []).filterMap w.entry) ++
            (w.toNotify ++ w.unpublished).filterMap w.entry = found.drop w.missed := by
          rw [above_none, ← List.filterMap_append, ← List.append_assoc]
          exact hq
        have hdel : Delivers writer w.expected (found.drop w.missed) := hexpected ▸ Delivers.start hnothing
        rw [← hall] at hdel
        exact hdel
      simp only [hsent] at hw
      cases hafter : w.afterSeq with
      | none =>
        rw [hafter] at hw
        cases hw
        have hinv := hlive (by rw [expected_eq h.loaded, hafter])
        rw [hp, hafter] at hinv
        exact hinv
      | some afterSeq =>
        rw [hafter] at hw
        -- With a start that was asked for, what lies behind it is replayed first.
        cases hlast : found.getLast? with
        | none =>
          rw [hlast] at hw
          cases hw
          rw [List.getLast?_eq_none_iff] at hlast
          have hinv := hlive (by simp [expected_eq h.loaded, hafter, hlast])
          rw [hp, hafter] at hinv
          exact hinv
        | some l =>
          rw [hlast] at hw
          cases hw
          have hl : l ∈ found := List.mem_of_getLast? hlast
          obtain ⟨hle, hdrop⟩ := drop_indexAfterSeq h.loaded afterSeq
          have hexpected : w.expected = found.drop (w.log.indexAfterSeq afterSeq) := by
            rw [hdrop, expected_eq h.loaded, hafter, hu]
            simp
          refine ⟨h.loaded, h.known, h.fresh, h.unread, h.missed, ⟨hb, hq⟩, ?_, ⟨?_, ?_, ?_⟩, ?_, ?_⟩
          · rw [hlength]
            exact ⟨h.missed, hle, le_rfl⟩
          · intro f hf
            exact diskIdx_le_getLast h.loaded.ordered (List.mem_of_mem_take hf) hlast
          · intro f hf
            rw [hlength, List.drop_length] at hf
            cases hf
          · exact World.lt_nextSeq h.loaded hl
          · exact ⟨afterSeq, rfl, hok afterSeq hafter⟩
          · have hdel : Delivers writer w.expected ([] ++ found.drop (w.log.indexAfterSeq afterSeq)) :=
              hexpected ▸ Delivers.start hnothing
            unfold World.expected at hdel ⊢
            rw [hafter] at hdel
            exact hdel
    · have hsync : Inv { w with writer } found := h.write hd' fun ho => by simp [hclosed] at ho
      simp only [hsent] at hw
      cases hw
      exact hsync.close
  | _ =>
    rw [hp] at hw
    cases hw

theorem Inv.step_write (h : Inv w found) {failure : Option DropReason} {writer : Writer}
    (hw : w.writer.run size failure = some writer) : Inv { w with writer } found := by
  obtain ⟨hd, hc⟩ := Writer.run_spec hw
  exact h.write hd hc

theorem Inv.step {op : SocketOp} (h : Inv w found) (hok : op.Allowed w) (hw : w.step size op = some w') :
    ∃ found', Inv w' found' := by
  cases op with
  | append e => exact ⟨_, h.step_append hw⟩
  | publish => exact ⟨found, h.step_publish hw⟩
  | notify => exact ⟨found, h.step_notify hw⟩
  | broadcast id delta => exact ⟨found, h.step_broadcast hw⟩
  | subscribe =>
    simp only [World.step] at hw
    split at hw
    · rename_i hphase
      cases hw
      exact ⟨found, h.step_subscribe hphase⟩
    · cases hw
  | snapshot id => exact ⟨found, h.step_snapshot hw⟩
  | mark => exact ⟨found, h.step_mark hok hw⟩
  | readPage failed => exact ⟨found, h.step_readPage hw⟩
  | sendReplayed => exact ⟨found, h.step_sendReplayed hw⟩
  | goLive => exact ⟨found, h.step_goLive hok hw⟩
  | progress =>
    simp only [World.step] at hw
    split at hw
    · cases hw
      exact ⟨found, h.sendOther rfl⟩
    · cases hw
  | write failure =>
    obtain ⟨writer, hrun, rfl⟩ := Option.map_eq_some_iff.1 hw
    exact ⟨found, h.step_write hrun⟩
  | close =>
    cases hw
    exact ⟨found, h.close⟩

end Steps

/-! ## Runs -/

theorem Inv.init {found : List EventFile} (hordered : found.Pairwise fun f g => f.diskIdx < g.diskIdx)
    (hids : (found.map EventFile.eventId).Nodup) (afterSeq : Option Int) : Inv (World.init found afterSeq) found := by
  refine ⟨⟨rfl, hordered, hids⟩, by simp [World.queued, World.init], by simp [World.init], by simp [World.init],
    le_rfl, ?_⟩
  refine ⟨rfl, rfl, rfl, rfl, ?_⟩
  rw [show (World.init found afterSeq).missed = found.length from rfl, List.drop_length]
  rfl

theorem Inv.exact {w : World} {found : List EventFile} (h : Inv w found) : Exact w := by
  refine ⟨h.delivered, ?_, fun hphase hopen hnotify hpublish => ?_⟩
  · refine List.Pairwise.sublist h.delivered.sublist ?_
    rw [expected_eq h.loaded]
    split
    · exact h.loaded.ordered.sublist List.filter_sublist
    · exact h.loaded.ordered.sublist (List.drop_sublist _ _)
  · have hs := h.stage
    unfold World.Stage at hs
    rw [hphase] at hs
    obtain ⟨hb, -, hdel⟩ := hs
    have heq := hdel.eq_of_open hopen
    rw [World.queued, hb, hnotify, hpublish] at heq
    simpa using heq.symm

/-- **Each event once, in order.** As long as each connection marks with its
cursor below the next sequence number, and goes live when nothing up to the
mark is still on its way to it. -/
theorem exact_of_reaches {size : Frame → Nat} {found : List EventFile} {afterSeq : Option Int}
    (hordered : found.Pairwise fun f g => f.diskIdx < g.diskIdx) (hids : (found.map EventFile.eventId).Nodup)
    {w : World} (h : Reaches (World.step size) (fun w op => op.Allowed w) (World.init found afterSeq) w) : Exact w := by
  have hinv : ∃ found', Inv w found' := by
    refine h.invariant (I := fun w => ∃ found', Inv w found') ⟨found, .init hordered hids afterSeq⟩ ?_
    rintro s op t ⟨found, hinv⟩ hok hw
    exact hinv.step hok hw
  obtain ⟨found', hinv⟩ := hinv
  exact hinv.exact

namespace SlowCallbackExample

def size (_ : Frame) : Nat := 10

def found : List EventFile := [⟨0, "aaaaaaaa"⟩, ⟨1, "bbbbbbbb"⟩]

def message : Event := { id := "cccccccc", body := .other "PauseEvent" }

/-- An event is appended after the mark. -/
def afterMark : List SocketOp :=
  [.subscribe, .snapshot "ssssssss", .mark, .append message, .readPage [], .sendReplayed, .publish, .notify, .goLive]

/-- An event is appended before the mark; its callback runs when the connection is live. -/
def beforeMark : List SocketOp :=
  [.append message, .subscribe, .mark, .readPage [], .sendReplayed, .sendReplayed, .goLive, .publish, .notify]

end SlowCallbackExample

open SlowCallbackExample in
theorem exact_afterMark : ∃ w,
    execAllowed (World.step size) (fun w op => op.Allowed w) (World.init found (some 0)) afterMark = some w ∧
      w.writer.durables = [⟨1, "bbbbbbbb"⟩, ⟨2, "cccccccc"⟩] ∧ Exact w := by
  have hdurables : (execAllowed (World.step size) (fun w op => op.Allowed w) (World.init found (some 0)) afterMark).map
      (·.writer.durables) = some [⟨1, "bbbbbbbb"⟩, ⟨2, "cccccccc"⟩] := by decide +kernel
  obtain ⟨w, hw, hdurables⟩ := Option.map_eq_some_iff.1 hdurables
  exact ⟨w, hw, hdurables, exact_of_reaches (by decide) (by decide) (reaches_of_execAllowed .init hw)⟩

open SlowCallbackExample in
/-- The event is replayed from disk and then sent again. -/
theorem sent_twice_beforeMark :
    ¬ ∀ (size : Frame → Nat) (found : List EventFile) (afterSeq : Option Int),
      found.Pairwise (fun f g => f.diskIdx < g.diskIdx) → (found.map EventFile.eventId).Nodup →
      ∀ w, Reaches (World.step size) (fun _ _ => True) (World.init found afterSeq) w → Exact w := by
  intro h
  have hdurables : (exec (World.step size) (World.init found (some 0)) beforeMark).map (·.writer.durables) =
      some [⟨1, "bbbbbbbb"⟩, ⟨2, "cccccccc"⟩, ⟨2, "cccccccc"⟩] := by decide +kernel
  obtain ⟨w, hw, hdurables⟩ := Option.map_eq_some_iff.1 hdurables
  have hincreasing := (h size found (some 0) (by decide) (by decide) w (reaches_of_exec .init hw)).increasing
  rw [hdurables] at hincreasing
  revert hincreasing
  decide

end AgentSdk.SessionSocket
