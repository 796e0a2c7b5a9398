import AgentSdk.SecretMask
import AgentSdk.Lib.Dict
import AgentSdk.Lib.Effects
import AgentSdk.Lib.Runs
/-!
# Stream identity for one agent step

`StreamContext` turns the chunks of a completion into frames of one item, and
retires the item by the durable event that carries its id or by an abort. The
operations run one after another. A sink that raises an `Exception` is ignored;
what goes through `_emit` is a `BaseException`.
-/

namespace AgentSdk
open Lib

namespace StreamContext

inductive DeltaKind where
  | text
  | reasoning
deriving DecidableEq

structure StreamStarted where
  itemId : String
  attempt : Nat
  anchorSeq : Option Nat
deriving DecidableEq

structure StreamDelta where
  itemId : String
  attempt : Nat
  order : Nat
  kind : DeltaKind
  content : Text
  chunkId : Option String
  choiceIndex : Option Nat
deriving DecidableEq

structure StreamAborted where
  itemId : String
  attempt : Nat
  reason : String
deriving DecidableEq

/-- What a client of the session sees of an item, in order: the frames, and the
durable event with the item's id. -/
inductive Entry where
  | started (frame : StreamStarted)
  | delta (frame : StreamDelta)
  | aborted (frame : StreamAborted)
  | durable (itemId : String)
deriving DecidableEq

/-! ## Chunks -/

structure Delta where
  content : Option Text := none
  /-- `none` also for a field that is not set. -/
  reasoningContent : Option Text := none
deriving DecidableEq

structure StreamingChoice where
  index : Nat := 0
  delta : Option Delta
deriving DecidableEq

inductive Chunk where
  /-- The bare string of the ACP bridge. -/
  | str (text : Text)
  | stream (id : Option String) (choices : List StreamingChoice)
deriving DecidableEq

structure Piece where
  kind : DeltaKind
  text : Text
  chunkId : Option String
  choiceIndex : Option Nat
deriving DecidableEq

def splitDelta (id : Option String) (index : Nat) (delta : Delta) : List Piece :=
  let piece (kind : DeltaKind) (text : Option Text) : List Piece :=
    (text.filter (· ≠ [])).toList.map fun text => ⟨kind, text, id, some index⟩
  piece .reasoning delta.reasoningContent ++ piece .text delta.content

/-- `_split_chunk`. -/
def splitChunk : Chunk → List Piece
  | .str text => if text = [] then [] else [⟨.text, text, none, none⟩]
  | .stream id choices => choices.flatMap fun choice => (choice.delta.map (splitDelta id choice.index)).getD []

inductive ExcType where
  /-- `asyncio.CancelledError` and `KeyboardInterrupt`. -/
  | cancelled
  | other (name : String)
deriving DecidableEq

/-- `_abort_reason`. -/
def abortReason : Option ExcType → String
  | none => "no_durable_event"
  | some .cancelled => "cancelled"
  | some (.other name) => name

/-! ## The context -/

end StreamContext

open StreamContext in
structure StreamContext where
  itemId : String
  anchorSeq : Option Nat
  /-- There is an `_on_stream`. -/
  onStream : Bool
  masks : List (DeltaKind × StreamOutputMask) := []
  attempt : Nat := 1
  /-- What `next(self._order)` gives next. -/
  order : Nat := 0
  started : Bool := false
  opened : Bool := false
  startedAttempt : Option Nat := none
  reserved : Bool := false
  claimed : Bool := false
  chunkId : Option String := none

namespace StreamContext

inductive Interrupt where
  | baseException

/-- The context, what it has emitted, the registry its masks are compiled from
and the answers of the sink to come: whether the call is interrupted. -/
structure Stream where
  ctx : StreamContext
  log : List Entry := []
  registry : SecretRegistry
  sink : List Bool := []

abbrev Program := EStateM Interrupt Stream

/-- `_emit`: the frame is handed to the sink whatever becomes of it. -/
def emit (frame : Entry) : Program Unit := fun s =>
  let s' := { s with log := s.log ++ [frame], sink := s.sink.tail }
  if s.sink.headD false then .error .baseException s' else .ok () s'

def emitContent (kind : DeltaKind) (content : Text) (chunkId : Option String) (choiceIndex : Option Nat) :
    Program Unit := do
  let s ← get
  modify fun s => { s with ctx := { s.ctx with order := s.ctx.order + 1 } }
  emit (.delta ⟨s.ctx.itemId, s.ctx.attempt, s.ctx.order, kind, content, chunkId, choiceIndex⟩)

/-- No delta is emitted for an empty text. -/
def emitReleased (kind : DeltaKind) (content : Text) (chunkId : Option String) (choiceIndex : Option Nat) :
    Program Unit :=
  if content = [] then pure () else emitContent kind content chunkId choiceIndex

def newAttempt (c : StreamContext) : StreamContext :=
  if c.opened then
    { c with attempt := c.attempt + 1, order := 0, started := false, chunkId := none, masks := [] }
  else c

/-- A change of id is a re-stream of the same slot. -/
def restreams (c : StreamContext) (chunkId : Option String) : Bool :=
  chunkId.isSome && c.chunkId.isSome && chunkId != c.chunkId

/-- `_emit_delta` up to the frame that opens an attempt. -/
def openAttempt (chunkId : Option String) : Program Unit := do
  modify fun s =>
    let c := if restreams s.ctx chunkId then newAttempt s.ctx else s.ctx
    { s with ctx := { c with chunkId := chunkId } }
  let s ← get
  if s.ctx.started then pure ()
  else
    modify fun s =>
      { s with ctx := { s.ctx with started := true, opened := true, startedAttempt := some s.ctx.attempt } }
    emit (.started ⟨s.ctx.itemId, s.ctx.attempt, s.ctx.anchorSeq⟩)

def emitDelta (p : Piece) : Program Unit := do
  openAttempt p.chunkId
  let s ← get
  let masker := (s.ctx.masks.lookup p.kind).getD s.registry.compileStreamMask
  let released := masker.feed p.text
  modify fun s => { s with ctx := { s.ctx with masks := dictSet s.ctx.masks p.kind released.2 } }
  emitReleased p.kind released.1 p.chunkId p.choiceIndex

def emitDeltas : List Piece → Program Unit
  | [] => pure ()
  | p :: pieces => do
    emitDelta p
    emitDeltas pieces

/-- The loop of `_flush` over the maskers. -/
def flushLoop : List (DeltaKind × StreamOutputMask) → Program Unit
  | [] => pure ()
  | (kind, masker) :: masks => do
    let held := masker.flush
    modify fun s => { s with ctx := { s.ctx with masks := dictSet s.ctx.masks kind held.2 } }
    let s ← get
    emitReleased kind held.1 s.ctx.chunkId none
    flushLoop masks

def flush : Program Unit := do
  let s ← get
  flushLoop s.ctx.masks
  modify fun s => { s with ctx := { s.ctx with masks := [] } }

/-- `on_chunk`; an `on_token` that raises ends it before anything is emitted. -/
def onChunk (onTokenRaises : Bool) (chunk : Chunk) : Program Unit := do
  let s ← get
  if onTokenRaises || !s.ctx.onStream then pure () else emitDeltas (splitChunk chunk)

def claim : Program (Option String) := do
  let s ← get
  if s.ctx.reserved || !s.ctx.onStream then pure none
  else
    flush
    modify fun s => { s with ctx := { s.ctx with reserved := true } }
    pure (some s.ctx.itemId)

def commit (c : StreamContext) : StreamContext := if c.reserved then { c with claimed := true } else c

def close (reason : String) : Program Unit := do
  let s ← get
  if !s.ctx.opened || s.ctx.claimed then pure ()
  else
    modify fun s => { s with ctx := { s.ctx with claimed := true } }
    flush
    emit (.aborted ⟨s.ctx.itemId, s.ctx.startedAttempt.getD s.ctx.attempt, reason⟩)

/-! ## Runs -/

/-- What the model has sent of an item in its last attempt, by kind: the chunks,
and the registry when the first of them came. -/
abbrev Sent := DeltaKind → Option (SecretRegistry × List Text)

def addPiece (r : SecretRegistry) (sent : Sent) (p : Piece) : Sent :=
  Function.update sent p.kind
    (some (((sent p.kind).map Prod.fst).getD r, ((sent p.kind).map Prod.snd).getD [] ++ [p.text]))

/-- The masked text of a kind. -/
def maskedText : Option (SecretRegistry × List Text) → Text
  | none => []
  | some (r, chunks) => r.streamed chunks.flatten

structure World where
  stream : Stream
  sent : Sent := fun _ => none
  /-- The completion is tried again, and its first text is still to come. -/
  retried : Bool := false
  exited : Bool := false

inductive Action where
  | chunk (onTokenRaises : Bool) (chunk : Chunk) (sink : List Bool)
  /-- The call is tried again; the ACP agent announces it by `new_attempt`. -/
  | retry (announced : Bool)
  | claim (sink : List Bool)
  /-- The durable event with the id was emitted. -/
  | commit
  /-- The end of the `with` block. -/
  | exit (exc : Option ExcType) (sink : List Bool)
  /-- Secrets are resolved meanwhile. -/
  | secrets (registry : SecretRegistry)

/-- A call during which the sink answers as given. -/
def Stream.after {α : Type} (s : Stream) (sink : List Bool) (p : Program α) : Stream :=
  match p { s with sink := sink } with
  | .ok _ s' => { s' with sink := [] }
  | .error _ s' => { s' with sink := [] }

namespace World

def withCtx (w : World) (c : StreamContext) : World := { w with stream := { w.stream with ctx := c } }

/-- Text of an item exists only where a stream is wanted. -/
def receive (w : World) (pieces : List Piece) : World :=
  if w.stream.ctx.onStream = true ∧ pieces ≠ [] then
    { w with
      sent := pieces.foldl (addPiece w.stream.registry) (if w.retried then fun _ => none else w.sent)
      retried := false }
  else w

def commit (w : World) : World :=
  let c := w.stream.ctx
  let durable := if c.reserved && !c.claimed then [Entry.durable c.itemId] else []
  { w with stream := { w.stream with ctx := c.commit, log := w.stream.log ++ durable } }

/-- Claims and commits stand in the `with` block, which ends once; chunks and
retries may still come behind it. -/
def step (w : World) : Action → Option World
  | .chunk raises chunk sink =>
    some { w.receive (splitChunk chunk) with stream := w.stream.after sink (onChunk raises chunk) }
  | .retry announced =>
    if announced then some { w.withCtx w.stream.ctx.newAttempt with sent := fun _ => none, retried := false }
    else some { w with retried := true }
  | .claim sink => if w.exited then none else some { w with stream := w.stream.after sink claim }
  | .commit => if w.exited then none else some w.commit
  | .exit exc sink =>
    if w.exited then none
    else some { w with stream := w.stream.after sink (close (abortReason exc)), exited := true }
  | .secrets registry => some { w with stream := { w.stream with registry := registry } }

/-- No `BaseException` leaves the sink, and a chunk with text comes while the slot
is neither reserved nor closed, to an `on_token` that takes it, with an id that
differs from the last one exactly when the attempt is a new one. -/
def Allowed (w : World) : Action → Prop
  | .chunk raises chunk sink => splitChunk chunk = [] ∨ w.stream.ctx.onStream = false ∨
      (raises = false ∧ true ∉ sink ∧ w.stream.ctx.reserved = false ∧ w.exited = false ∧
        ∀ p ∈ splitChunk chunk, restreams w.stream.ctx p.chunkId = (w.retried && w.stream.ctx.opened))
  | .claim sink | .exit _ sink => true ∉ sink
  | .retry _ | .commit | .secrets _ => True

instance instDecidableAllowed (w : World) (a : Action) : Decidable (w.Allowed a) := by
  cases a <;> unfold Allowed <;> infer_instance

end World

/-! ## The session protocol -/

namespace Entry

def terminal : Entry → Bool
  | .started _ | .delta _ => false
  | .aborted _ | .durable _ => true

/-- The attempt that the frame opens. -/
def opens : Entry → Option Nat
  | .started f => some f.attempt
  | _ => none

/-- The attempt of a frame that is part of one. -/
def attempt : Entry → Option Nat
  | .started f => some f.attempt
  | .delta f => some f.attempt
  | _ => none

def deltaOf (a : Nat) : Entry → Option StreamDelta
  | .delta f => if f.attempt = a then some f else none
  | _ => none

end Entry

def orders (log : List Entry) (a : Nat) : List Nat := (log.filterMap (Entry.deltaOf a)).map StreamDelta.order

/-- The concatenation of an attempt's deltas of a kind. -/
def contents (log : List Entry) (a : Nat) (kind : DeltaKind) : Text :=
  ((log.filterMap (Entry.deltaOf a)).filter (·.kind = kind)).flatMap StreamDelta.content

/-- Each delta has the `Started` of its attempt at an earlier place. -/
def StartedFirst (log : List Entry) : Prop :=
  ∀ (i : Nat) (f : StreamDelta), log[i]? = some (.delta f) → ∃ (j : Nat) (e : Entry), j < i ∧ log[j]? = some e ∧ e.opens = some f.attempt

structure World.Protocol (w : World) : Prop where
  /-- An item that was opened is retired once when the step is over, -/
  retired : w.exited = true → (∃ e ∈ w.stream.log, e.opens.isSome) → w.stream.log.countP Entry.terminal = 1
  /-- and never twice. -/
  once : w.stream.log.countP Entry.terminal ≤ 1
  orders : ∀ a, orders w.stream.log a = List.range (orders w.stream.log a).length
  startedFirst : StartedFirst w.stream.log
  last : ∀ (i : Nat) (e : Entry), w.stream.log[i]? = some e → e.terminal = true → i + 1 = w.stream.log.length
  /-- When the item is retired, its last attempt carries its masked text. -/
  text : (∃ e ∈ w.stream.log, e.terminal = true) →
    ∀ kind, contents w.stream.log w.stream.ctx.attempt kind = maskedText (w.sent kind)

/-! ## Order numbers and attempts -/

/-- What the log and the counters of the context say of each other. -/
structure Book (s : Stream) : Prop where
  sink : true ∉ s.sink
  order : orders s.log s.ctx.attempt = List.range s.ctx.order
  orders : ∀ a, orders s.log a = List.range (orders s.log a).length
  below : ∀ e ∈ s.log, ∀ a, e.attempt = some a → a ≤ s.ctx.attempt
  begun : s.ctx.started = true → ∃ e ∈ s.log, e.opens = some s.ctx.attempt
  unbegun : s.ctx.started = false → ∀ e ∈ s.log, e.attempt ≠ some s.ctx.attempt
  startedFirst : StartedFirst s.log
  opened : s.ctx.opened = true ↔ ∃ e ∈ s.log, e.opens.isSome
  current : s.ctx.started = true → s.ctx.opened = true
  keys : (s.ctx.masks.map Prod.fst).Nodup
  masks : s.ctx.masks ≠ [] → s.ctx.started = true

theorem deltaOf_of_ne {e : Entry} {a : Nat} (h : e.attempt ≠ some a) : e.deltaOf a = none := by
  cases e with
  | delta f => exact if_neg fun hf => h (congrArg some hf)
  | _ => rfl

theorem deltas_none {log : List Entry} {a : Nat} (h : ∀ e ∈ log, e.attempt ≠ some a) :
    log.filterMap (Entry.deltaOf a) = [] :=
  List.filterMap_eq_nil_iff.2 fun e he => deltaOf_of_ne (h e he)

theorem orders_append (log es : List Entry) (a : Nat) : orders (log ++ es) a = orders log a ++ orders es a := by
  simp [StreamContext.orders]

theorem contents_append (log es : List Entry) (a : Nat) (kind : DeltaKind) :
    contents (log ++ es) a kind = contents log a kind ++ contents es a kind := by
  simp [contents]

theorem StartedFirst.append {log : List Entry} {e : Entry} (h : StartedFirst log)
    (he : ∀ f, e = .delta f → ∃ x ∈ log, x.opens = some f.attempt) : StartedFirst (log ++ [e]) := by
  intro i f hi
  rcases Nat.lt_trichotomy i log.length with hlt | rfl | hgt
  · rw [List.getElem?_append_left hlt] at hi
    obtain ⟨j, x, hj, hx, hopens⟩ := h i f hi
    exact ⟨j, x, hj, by rw [List.getElem?_append_left (by omega)]; exact hx, hopens⟩
  · rw [List.getElem?_concat_length] at hi
    obtain ⟨x, hx, hopens⟩ := he f (Option.some.inj hi)
    obtain ⟨j, hj, rfl⟩ := List.mem_iff_getElem.1 hx
    exact ⟨j, log[j], hj, by rw [List.getElem?_append_left hj]; exact List.getElem?_eq_getElem hj, hopens⟩
  · rw [List.getElem?_eq_none (by simp; omega)] at hi
    cases hi

section Book
variable {s : Stream}

/-- A frame that is no part of an attempt, or the durable event. -/
theorem Book.neutral (h : Book s) {e : Entry} (he : e.attempt = none) {sink : List Bool} (hsink : true ∉ sink) :
    Book { s with log := s.log ++ [e], sink := sink } := by
  have hopens : e.opens = none := by cases e <;> first | rfl | cases he
  have hdelta : ∀ a, e.deltaOf a = none := fun a => deltaOf_of_ne (by rw [he]; exact nofun)
  have horders : ∀ a, StreamContext.orders (s.log ++ [e]) a = StreamContext.orders s.log a := by
    intro a
    rw [orders_append]
    simp [StreamContext.orders, hdelta]
  refine ⟨hsink, by rw [horders]; exact h.order, fun a => by rw [horders]; exact h.orders a, ?_, ?_, ?_, ?_, ?_,
    h.current, h.keys, h.masks⟩
  · intro x hx a ha
    rcases List.mem_append.1 hx with hx | hx
    · exact h.below x hx a ha
    · rw [List.mem_singleton.1 hx, he] at ha
      cases ha
  · intro hs
    obtain ⟨x, hx, hxa⟩ := h.begun hs
    exact ⟨x, List.mem_append_left _ hx, hxa⟩
  · intro hs x hx
    rcases List.mem_append.1 hx with hx | hx
    · exact h.unbegun hs x hx
    · rw [List.mem_singleton.1 hx, he]
      exact nofun
  · refine h.startedFirst.append fun f hf => ?_
    rw [hf] at he
    cases he
  · simp [h.opened, hopens]

theorem Book.start (h : Book s) {sink : List Bool} (hsink : true ∉ sink) :
    Book { s with
      ctx := { s.ctx with started := true, opened := true, startedAttempt := some s.ctx.attempt }
      log := s.log ++ [.started ⟨s.ctx.itemId, s.ctx.attempt, s.ctx.anchorSeq⟩]
      sink := sink } := by
  have horders : ∀ a, StreamContext.orders (s.log ++ [.started ⟨s.ctx.itemId, s.ctx.attempt, s.ctx.anchorSeq⟩]) a =
      StreamContext.orders s.log a := by
    intro a
    rw [orders_append]
    simp [StreamContext.orders, Entry.deltaOf]
  refine ⟨hsink, by rw [horders]; exact h.order, fun a => by rw [horders]; exact h.orders a, ?_, fun _ => ?_, ?_, ?_,
    ?_, fun _ => rfl, h.keys, fun _ => rfl⟩
  · intro x hx a ha
    rcases List.mem_append.1 hx with hx | hx
    · exact h.below x hx a ha
    · rw [List.mem_singleton.1 hx] at ha
      exact Nat.le_of_eq (Option.some.inj ha).symm
  · exact ⟨_, List.mem_append_right _ (List.mem_singleton_self _), rfl⟩
  · exact fun hs => absurd hs.symm Bool.false_ne_true
  · exact h.startedFirst.append (fun f hf => by cases hf)
  · exact ⟨fun _ => ⟨_, List.mem_append_right _ (List.mem_singleton_self _), rfl⟩, fun _ => rfl⟩

theorem Book.delta (h : Book s) (hs : s.ctx.started = true) {f : StreamDelta} (ha : f.attempt = s.ctx.attempt)
    (ho : f.order = s.ctx.order) {sink : List Bool} (hsink : true ∉ sink) :
    Book { s with
      ctx := { s.ctx with order := s.ctx.order + 1 }
      log := s.log ++ [.delta f]
      sink := sink } := by
  have hcurrent : StreamContext.orders (s.log ++ [.delta f]) s.ctx.attempt = List.range (s.ctx.order + 1) := by
    rw [orders_append, h.order, List.range_succ]
    simp [StreamContext.orders, Entry.deltaOf, ha, ho]
  refine ⟨hsink, hcurrent, fun a => ?_, ?_, fun _ => ?_, ?_, ?_, ?_, h.current, h.keys, h.masks⟩
  · by_cases hcase : a = s.ctx.attempt
    · dsimp only
      rw [hcase, hcurrent, List.length_range]
    · have hsame : StreamContext.orders (s.log ++ [.delta f]) a = StreamContext.orders s.log a := by
        rw [orders_append]
        simp [StreamContext.orders, Entry.deltaOf, ha, Ne.symm hcase]
      dsimp only
      rw [hsame]
      exact h.orders a
  · intro x hx a hxa
    rcases List.mem_append.1 hx with hx | hx
    · exact h.below x hx a hxa
    · rw [List.mem_singleton.1 hx] at hxa
      exact Nat.le_of_eq ((Option.some.inj hxa).symm.trans ha)
  · obtain ⟨x, hx, hxa⟩ := h.begun hs
    exact ⟨x, List.mem_append_left _ hx, hxa⟩
  · intro hs'
    exact absurd (hs'.symm.trans hs) Bool.false_ne_true
  · refine h.startedFirst.append fun g hg => ?_
    cases hg
    rw [ha]
    exact h.begun hs
  · have hopens : (Entry.delta f).opens = none := rfl
    simp [h.opened, hopens]

theorem Book.newAttempt (h : Book s) : Book { s with ctx := s.ctx.newAttempt } := by
  unfold StreamContext.newAttempt
  split
  · have hnew : ∀ e ∈ s.log, e.attempt ≠ some (s.ctx.attempt + 1) := by
      intro e he ha
      have hle := h.below e he _ ha
      omega
    refine ⟨h.sink, ?_, h.orders, fun e he a ha => Nat.le_succ_of_le (h.below e he a ha),
      fun hs => absurd hs Bool.false_ne_true, fun _ => hnew, h.startedFirst, h.opened,
      fun hs => absurd hs Bool.false_ne_true, List.nodup_nil, fun hm => absurd rfl hm⟩
    show StreamContext.orders s.log (s.ctx.attempt + 1) = []
    rw [StreamContext.orders, deltas_none hnew]
    rfl
  · exact h

theorem Book.setMasks (h : Book s) {masks : List (DeltaKind × StreamOutputMask)} (hkeys : (masks.map Prod.fst).Nodup)
    (hs : masks ≠ [] → s.ctx.started = true) : Book { s with ctx := { s.ctx with masks := masks } } :=
  ⟨h.sink, h.order, h.orders, h.below, h.begun, h.unbegun, h.startedFirst, h.opened, h.current, hkeys, hs⟩

end Book

/-! ## What the operations emit -/

/-- What emitting frames of an attempt leaves alone. -/
structure Keeps (s s' : Stream) : Prop where
  reserved : s'.ctx.reserved = s.ctx.reserved
  claimed : s'.ctx.claimed = s.ctx.claimed
  registry : s'.registry = s.registry
  log : ∃ es, s'.log = s.log ++ es ∧ ∀ e ∈ es, e.terminal = false

theorem Keeps.refl (s : Stream) : Keeps s s := ⟨rfl, rfl, rfl, [], by simp, List.forall_mem_nil _⟩

theorem Keeps.trans {s t u : Stream} (h : Keeps s t) (h' : Keeps t u) : Keeps s u := by
  obtain ⟨es, hes, hterm⟩ := h.log
  obtain ⟨fs, hfs, hterm'⟩ := h'.log
  refine ⟨h'.reserved.trans h.reserved, h'.claimed.trans h.claimed, h'.registry.trans h.registry, es ++ fs, ?_, ?_⟩
  · rw [hfs, hes, List.append_assoc]
  · intro e he
    rcases List.mem_append.1 he with he | he
    · exact hterm e he
    · exact hterm' e he

section Emissions
variable {s : Stream} {R : Interrupt → Stream → Prop}

theorem emit_ends {frame : Entry} {Q : Unit → Stream → Prop} (h : true ∉ s.sink)
    (hq : Q () { s with log := s.log ++ [frame], sink := s.sink.tail }) : Ends (emit frame) s Q R := by
  have hhead : s.sink.headD false = false := by
    cases hs : s.sink with
    | nil => rfl
    | cons b bs =>
      rw [hs] at h
      cases b with
      | false => rfl
      | true => exact absurd List.mem_cons_self h
  unfold Ends emit
  dsimp only
  rw [hhead]
  exact hq

theorem notMem_tail {sink : List Bool} (h : true ∉ sink) : true ∉ sink.tail := fun hm => h (List.mem_of_mem_tail hm)

/-- A delta of the current attempt was emitted. -/
structure Said (kind : DeltaKind) (content : Text) (s s' : Stream) : Prop where
  book : Book s'
  keeps : Keeps s s'
  ctx : s'.ctx = { s.ctx with order := s'.ctx.order }
  contents : ∀ k, StreamContext.contents s'.log s.ctx.attempt k =
    StreamContext.contents s.log s.ctx.attempt k ++ if k = kind then content else []

theorem emitContent_ends (h : Book s) (hs : s.ctx.started = true) (kind : DeltaKind) (content : Text)
    (chunkId : Option String) (choiceIndex : Option Nat) :
    Ends (emitContent kind content chunkId choiceIndex) s (fun _ s' => Said kind content s s') R := by
  unfold emitContent
  refine Ends.get_then (Ends.modify_then (emit_ends h.sink ?_))
  refine ⟨h.delta hs rfl rfl (notMem_tail h.sink), ⟨rfl, rfl, rfl, _, rfl, ?_⟩, rfl, fun k => ?_⟩
  · intro e he
    rw [List.mem_singleton.1 he]
    rfl
  · rw [contents_append]
    by_cases hk : k = kind
    · subst hk
      simp [StreamContext.contents, Entry.deltaOf]
    · simp [StreamContext.contents, Entry.deltaOf, hk, Ne.symm hk]

theorem emitReleased_ends (h : Book s) (hs : s.ctx.started = true) (kind : DeltaKind) (content : Text)
    (chunkId : Option String) (choiceIndex : Option Nat) :
    Ends (emitReleased kind content chunkId choiceIndex) s (fun _ s' => Said kind content s s') R := by
  unfold emitReleased
  split
  · rename_i hnil
    exact Ends.pure ⟨h, .refl s, rfl, by simp [hnil]⟩
  · exact emitContent_ends h hs kind content chunkId choiceIndex

end Emissions

/-! ## The text of an item -/

/-- A masker that was fed with what was sent of a kind, and what it has released. -/
def Fed (sent : Option (SecretRegistry × List Text)) (masker : Option StreamOutputMask) (out : Text) : Prop :=
  match sent with
  | none => masker = none ∧ out = []
  | some (r, chunks) =>
    masker = some (r.compileStreamMask.feedAll chunks).2 ∧ out = (r.compileStreamMask.feedAll chunks).1

def Streams (sent : Sent) (s : Stream) : Prop :=
  ∀ kind, Fed (sent kind) (s.ctx.masks.lookup kind) (contents s.log s.ctx.attempt kind)

def Flushed (sent : Sent) (s : Stream) : Prop :=
  s.ctx.masks = [] ∧ ∀ kind, contents s.log s.ctx.attempt kind = maskedText (sent kind)

theorem Fed.feed {sent : Option (SecretRegistry × List Text)} {masker : Option StreamOutputMask} {out : Text}
    (h : Fed sent masker out) (r : SecretRegistry) (text : Text) :
    Fed (some ((sent.map Prod.fst).getD r, (sent.map Prod.snd).getD [] ++ [text]))
      (some ((masker.getD r.compileStreamMask).feed text).2)
      (out ++ ((masker.getD r.compileStreamMask).feed text).1) := by
  cases sent with
  | none =>
    obtain ⟨rfl, rfl⟩ := h
    simp [Fed, StreamOutputMask.feedAll]
  | some p =>
    obtain ⟨rfl, rfl⟩ := h
    simp [Fed, StreamOutputMask.feedAll_concat]

/-- The tail that is released at the end completes the masked text. -/
theorem Fed.flush {sent : Option (SecretRegistry × List Text)} {masker : Option StreamOutputMask} {out : Text}
    (h : Fed sent masker out) : out ++ (masker.map fun m => m.flush.1).getD [] = maskedText sent := by
  cases sent with
  | none =>
    obtain ⟨rfl, rfl⟩ := h
    rfl
  | some p =>
    obtain ⟨rfl, rfl⟩ := h
    obtain ⟨held, heq, hflush⟩ := p.1.streamMask_spec p.2 []
    rw [List.append_nil, List.append_nil] at heq
    show _ ++ (p.1.compileStreamMask.feedAll p.2).2.flush.1 = p.1.streamed p.2.flatten
    rw [SecretRegistry.streamed_eq, heq, hflush]

section Text
variable {s : Stream} {sent : Sent} {R : Interrupt → Stream → Prop}

/-- Nothing of a new attempt was emitted yet. -/
theorem Streams.newAttempt (h : Book s) (hopen : s.ctx.opened = true) :
    Streams (fun _ => none) { s with ctx := s.ctx.newAttempt } := by
  intro kind
  rw [StreamContext.newAttempt, if_pos hopen]
  refine ⟨rfl, ?_⟩
  have hnew : ∀ e ∈ s.log, e.attempt ≠ some (s.ctx.attempt + 1) := by
    intro e he ha
    have hle := h.below e he _ ha
    omega
  dsimp only
  rw [contents, deltas_none hnew]
  rfl

theorem openAttempt_ends (h : Book s) (hs : Streams sent s) {id : Option String}
    (hopen : restreams s.ctx id = true → s.ctx.opened = true) :
    Ends (openAttempt id) s (fun _ s' => Book s' ∧ Keeps s s' ∧ s'.ctx.started = true ∧ s'.ctx.chunkId = id ∧
      Streams (if restreams s.ctx id then fun _ => none else sent) s') R := by
  unfold openAttempt
  refine Ends.modify_then (Ends.get_then ?_)
  -- The context after a change of id that is read as a new attempt.
  generalize hc : (if restreams s.ctx id = true then s.ctx.newAttempt else s.ctx) = c
  have hbook : Book { s with ctx := { c with chunkId := id } } := by
    have hb : Book { s with ctx := c } := by
      rw [← hc]
      split
      · exact h.newAttempt
      · exact h
    exact ⟨hb.sink, hb.order, hb.orders, hb.below, hb.begun, hb.unbegun, hb.startedFirst, hb.opened, hb.current, hb.keys,
      hb.masks⟩
  have hstreams : Streams (if restreams s.ctx id then fun _ => none else sent) { s with ctx := c } := by
    rw [← hc]
    split
    · exact .newAttempt h (hopen ‹_›)
    · exact hs
  have hkeeps : c.reserved = s.ctx.reserved ∧ c.claimed = s.ctx.claimed := by
    rw [← hc]
    unfold StreamContext.newAttempt
    split
    · split <;> exact ⟨rfl, rfl⟩
    · exact ⟨rfl, rfl⟩
  split
  · exact Ends.pure ⟨hbook, ⟨hkeeps.1, hkeeps.2, rfl, [], by simp, List.forall_mem_nil _⟩, ‹_›, rfl, hstreams⟩
  · refine Ends.modify_then (emit_ends h.sink ?_)
    refine ⟨hbook.start (notMem_tail h.sink), ⟨hkeeps.1, hkeeps.2, rfl, _, rfl, ?_⟩, rfl, rfl, fun kind => ?_⟩
    · intro e he
      rw [List.mem_singleton.1 he]
      rfl
    · have hsame := hstreams kind
      dsimp only at hsame ⊢
      rw [contents_append]
      show Fed _ _ (_ ++ [])
      rw [List.append_nil]
      exact hsame

/-- One piece of text of an attempt. -/
theorem emitDelta_ends (h : Book s) (hs : Streams sent s) {p : Piece}
    (hopen : restreams s.ctx p.chunkId = true → s.ctx.opened = true) :
    Ends (emitDelta p) s (fun _ s' => Book s' ∧ Keeps s s' ∧ s'.ctx.opened = true ∧ s'.ctx.chunkId = p.chunkId ∧
      Streams (addPiece s.registry (if restreams s.ctx p.chunkId then fun _ => none else sent) p) s') R := by
  unfold emitDelta
  refine Ends.bind (openAttempt_ends h hs hopen) ?_
  rintro - t ⟨hbook, hkeeps, hstarted, hid, hstreams⟩
  refine Ends.get_then (Ends.modify_then ?_)
  have hnext := hbook.setMasks (nodup_dictSet p.kind
    ((t.ctx.masks.lookup p.kind).getD t.registry.compileStreamMask |>.feed p.text).2 hbook.keys) fun _ => hstarted
  refine Ends.mono (emitReleased_ends hnext hstarted _ _ _ _) ?_ fun e s' hr => hr
  rintro - u ⟨hbook', hkeeps', hctx, hcontents⟩
  refine ⟨hbook', hkeeps.trans ⟨hkeeps'.reserved, hkeeps'.claimed, hkeeps'.registry, hkeeps'.log⟩, ?_, ?_, fun kind => ?_⟩
  · rw [hctx]
    exact hbook.current hstarted
  · rw [hctx]
    exact hid
  · have hattempt : u.ctx.attempt = t.ctx.attempt := by rw [hctx]
    have hmasks : u.ctx.masks = dictSet t.ctx.masks p.kind
        ((t.ctx.masks.lookup p.kind).getD t.registry.compileStreamMask |>.feed p.text).2 := by rw [hctx]
    rw [hattempt, hmasks, lookup_dictSet, hcontents kind, addPiece, hkeeps.registry.symm]
    by_cases hk : kind = p.kind
    · subst hk
      rw [if_pos rfl, if_pos rfl, Function.update_self]
      exact (hstreams _).feed _ _
    · rw [if_neg hk, if_neg hk, Function.update_of_ne hk, List.append_nil]
      exact hstreams kind

/-- The pieces behind the first one of a chunk. -/
theorem emitDeltas_same (pieces : List Piece) (h : Book s) (hs : Streams sent s) (hopen : s.ctx.opened = true)
    (hid : ∀ p ∈ pieces, p.chunkId = s.ctx.chunkId) :
    Ends (emitDeltas pieces) s (fun _ s' => Book s' ∧ Keeps s s' ∧ s'.ctx.opened = true ∧
      Streams (pieces.foldl (addPiece s.registry) sent) s') R := by
  induction pieces generalizing s sent with
  | nil => exact Ends.pure ⟨h, .refl s, hopen, hs⟩
  | cons p pieces ih =>
    refine Ends.bind (emitDelta_ends h hs fun _ => hopen) ?_
    rintro - t ⟨hbook, hkeeps, hopen', hid', hstreams⟩
    have hsame : restreams s.ctx p.chunkId = false := by simp [restreams, hid p List.mem_cons_self]
    rw [hsame, if_neg Bool.false_ne_true] at hstreams
    refine Ends.mono (ih hbook hstreams hopen' fun q hq => ?_) ?_ fun e s' hr => hr
    · rw [hid', hid q (List.mem_cons_of_mem _ hq), hid p List.mem_cons_self]
    · rintro - u ⟨hbook', hkeeps', hopen'', hstreams'⟩
      rw [hkeeps.registry] at hstreams'
      exact ⟨hbook', hkeeps.trans hkeeps', hopen'', hstreams'⟩

theorem emitDeltas_ends {p : Piece} {pieces : List Piece} (h : Book s) (hs : Streams sent s)
    (hopen : restreams s.ctx p.chunkId = true → s.ctx.opened = true) (hid : ∀ q ∈ pieces, q.chunkId = p.chunkId) :
    Ends (emitDeltas (p :: pieces)) s (fun _ s' => Book s' ∧ Keeps s s' ∧ s'.ctx.opened = true ∧
      Streams ((p :: pieces).foldl (addPiece s.registry) (if restreams s.ctx p.chunkId then fun _ => none else sent)) s')
      R := by
  refine Ends.bind (emitDelta_ends h hs hopen) ?_
  rintro - t ⟨hbook, hkeeps, hopen', hid', hstreams⟩
  refine Ends.mono (emitDeltas_same pieces hbook hstreams hopen' fun q hq => ?_) ?_ fun e s' hr => hr
  · rw [hid', hid q hq]
  · rintro - u ⟨hbook', hkeeps', hopen'', hstreams'⟩
    rw [hkeeps.registry] at hstreams'
    exact ⟨hbook', hkeeps.trans hkeeps', hopen'', hstreams'⟩

/-- Each masker of the loop releases its tail. -/
theorem flushLoop_ends (masks : List (DeltaKind × StreamOutputMask)) (h : Book s) (hs : masks ≠ [] → s.ctx.started = true)
    (hkeys : (masks.map Prod.fst).Nodup) :
    Ends (flushLoop masks) s (fun _ s' => Book s' ∧ Keeps s s' ∧ s'.ctx.attempt = s.ctx.attempt ∧
      s'.ctx.opened = s.ctx.opened ∧ ∀ kind, contents s'.log s.ctx.attempt kind =
        contents s.log s.ctx.attempt kind ++ ((masks.lookup kind).map fun m => m.flush.1).getD []) R := by
  induction masks generalizing s with
  | nil => exact Ends.pure ⟨h, .refl s, rfl, rfl, by simp⟩
  | cons m masks ih =>
    obtain ⟨kind, masker⟩ := m
    have hstarted := hs (List.cons_ne_nil _ _)
    obtain ⟨hnew, hkeys⟩ := List.nodup_cons.1 hkeys
    refine Ends.modify_then (Ends.get_then ?_)
    have hnext := h.setMasks (nodup_dictSet kind masker.flush.2 h.keys) fun _ => hstarted
    refine Ends.bind (emitReleased_ends hnext hstarted _ _ _ _) ?_
    rintro - t ⟨hbook, hkeeps, hctx, hcontents⟩
    have hattempt : t.ctx.attempt = s.ctx.attempt := by rw [hctx]
    have hstarted' : t.ctx.started = true := by rw [hctx]; exact hstarted
    refine Ends.mono (ih hbook (fun _ => hstarted') hkeys) ?_ fun e s' hr => hr
    rintro - u ⟨hbook', hkeeps', hattempt', hopened, hcontents'⟩
    have hkeeps'' : Keeps s t := ⟨hkeeps.reserved, hkeeps.claimed, hkeeps.registry, hkeeps.log⟩
    refine ⟨hbook', hkeeps''.trans hkeeps', hattempt'.trans hattempt, ?_, fun k => ?_⟩
    · rw [hopened, hctx]
    · rw [← hattempt, hcontents' k, hattempt]
      have hfirst := hcontents k
      dsimp only at hfirst
      rw [hfirst, List.lookup_cons, List.append_assoc]
      by_cases hk : k = kind
      · subst hk
        have hnone : masks.lookup k = none := by
          exact List.lookup_eq_none_iff.2 fun p hp => bne_iff_ne.2 fun hpk =>
            hnew (List.mem_map.2 ⟨p, hp, hpk.symm⟩)
        rw [hnone]
        simp
      · rw [beq_false_of_ne hk]
        simp [hk]

theorem flush_ends (h : Book s) (hs : Streams sent s) :
    Ends flush s (fun _ s' => Book s' ∧ Keeps s s' ∧ s'.ctx.opened = s.ctx.opened ∧ Flushed sent s') R := by
  unfold StreamContext.flush
  refine Ends.get_then (Ends.bind (flushLoop_ends s.ctx.masks h h.masks h.keys) ?_)
  rintro - t ⟨hbook, hkeeps, hattempt, hopened, hcontents⟩
  refine Ends.modify ⟨hbook.setMasks List.nodup_nil fun hm => absurd rfl hm,
    ⟨hkeeps.reserved, hkeeps.claimed, hkeeps.registry, hkeeps.log⟩, hopened, rfl, fun kind => ?_⟩
  dsimp only
  rw [hattempt, hcontents kind]
  exact (hs kind).flush

/-- Nothing is held behind a flush. -/
theorem flush_again (h : Book s) (hs : Flushed sent s) :
    Ends flush s (fun _ s' => Book s' ∧ Keeps s s' ∧ s'.ctx.opened = s.ctx.opened ∧ Flushed sent s') R := by
  unfold StreamContext.flush
  refine Ends.get_then ?_
  rw [hs.1]
  have hloop : Ends (flushLoop []) s (fun _ t => t = s) R := Ends.pure rfl
  refine Ends.bind hloop ?_
  rintro - t rfl
  exact Ends.modify ⟨h.setMasks List.nodup_nil fun hm => absurd rfl hm,
    ⟨rfl, rfl, rfl, [], by simp, List.forall_mem_nil _⟩, rfl, rfl, hs.2⟩

end Text

/-! ## Whole steps -/

/-- What a program leaves behind that was not interrupted. -/
theorem after_of_ends {α : Type} {s : Stream} {sink : List Bool} {p : Program α} {P : Stream → Prop}
    (h : Ends p { s with sink := sink } (fun _ s' => P { s' with sink := [] }) (fun _ _ => False)) :
    P (s.after sink p) := by
  unfold Ends at h
  unfold Stream.after
  split
  · rename_i heq
    rwa [heq] at h
  · rename_i heq
    rw [heq] at h
    exact h.elim

theorem Book.withSink {s : Stream} (h : Book s) {sink : List Bool} (hsink : true ∉ sink) :
    Book { s with sink := sink } :=
  ⟨hsink, h.order, h.orders, h.below, h.begun, h.unbegun, h.startedFirst, h.opened, h.current, h.keys, h.masks⟩

theorem Book.setClaimed {s : Stream} (h : Book s) (claimed : Bool) :
    Book { s with ctx := { s.ctx with claimed := claimed } } :=
  ⟨h.sink, h.order, h.orders, h.below, h.begun, h.unbegun, h.startedFirst, h.opened, h.current, h.keys, h.masks⟩

theorem Book.setReserved {s : Stream} (h : Book s) (reserved : Bool) :
    Book { s with ctx := { s.ctx with reserved := reserved } } :=
  ⟨h.sink, h.order, h.orders, h.below, h.begun, h.unbegun, h.startedFirst, h.opened, h.current, h.keys, h.masks⟩

theorem chunkId_of_mem_splitChunk {chunk : Chunk} {p q : Piece} (hp : p ∈ splitChunk chunk) (hq : q ∈ splitChunk chunk) :
    p.chunkId = q.chunkId := by
  have hid : ∀ r ∈ splitChunk chunk, r.chunkId = match chunk with
      | .str _ => none
      | .stream id _ => id := by
    intro r hr
    cases chunk with
    | str text =>
      simp only [splitChunk] at hr
      split at hr
      · cases hr
      · rw [List.mem_singleton.1 hr]
    | stream id choices =>
      obtain ⟨choice, -, hr⟩ := List.mem_flatMap.1 hr
      cases hd : choice.delta with
      | none => simp [hd] at hr
      | some delta =>
        simp only [hd, Option.map_some, Option.getD_some, splitDelta, List.mem_append, List.mem_map] at hr
        obtain ⟨_, _, rfl⟩ | ⟨_, _, rfl⟩ := hr <;> rfl
  rw [hid p hp, hid q hq]

namespace World

structure Consistent (w : World) : Prop where
  book : Book w.stream
  unclaimed : w.stream.ctx.claimed = false → ∀ e ∈ w.stream.log, e.terminal = false
  claimed : w.stream.ctx.claimed = true →
    ∃ es e, w.stream.log = es ++ [e] ∧ e.terminal = true ∧ ∀ x ∈ es, x.terminal = false
  streams : w.stream.ctx.reserved = false → w.stream.ctx.claimed = false → Streams w.sent w.stream
  flushed : w.stream.ctx.reserved = true ∨ w.stream.ctx.claimed = true → Flushed w.sent w.stream
  exited : w.exited = true → w.stream.ctx.claimed = true ∨ w.stream.ctx.opened = false
  inside : w.exited = false → w.stream.ctx.claimed = true → w.stream.ctx.reserved = true
  unopened : w.stream.ctx.opened = false → w.sent = fun _ => none

theorem Consistent.protocol {w : World} (h : w.Consistent) : w.Protocol := by
  have hcount : w.stream.log.countP Entry.terminal = if w.stream.ctx.claimed then 1 else 0 := by
    cases hc : w.stream.ctx.claimed with
    | false => simpa using h.unclaimed hc
    | true =>
      obtain ⟨es, e, hlog, he, hes⟩ := h.claimed hc
      have hnone : es.countP Entry.terminal = 0 := by simpa using hes
      simp [hlog, he, hnone]
  refine ⟨fun hexit hopen => ?_, ?_, h.book.orders, h.book.startedFirst, fun i e hi he => ?_, fun hterm => ?_⟩
  · rcases h.exited hexit with hc | hc
    · rw [hcount, if_pos hc]
    · exact absurd (hc.symm.trans (h.book.opened.2 hopen)) Bool.false_ne_true
  · rw [hcount]
    split <;> omega
  · cases hc : w.stream.ctx.claimed with
    | false =>
      have hnot := h.unclaimed hc e (List.mem_of_getElem? hi)
      exact absurd (hnot.symm.trans he) Bool.false_ne_true
    | true =>
      obtain ⟨es, x, hlog, hx, hes⟩ := h.claimed hc
      have hlt : i < es.length + 1 := by simpa [hlog] using (List.getElem?_eq_some_iff.1 hi).1
      rw [hlog, List.length_append, List.length_singleton]
      rcases Nat.lt_succ_iff_lt_or_eq.1 hlt with hlt | heq
      · rw [hlog, List.getElem?_append_left hlt] at hi
        exact absurd ((hes e (List.mem_of_getElem? hi)).symm.trans he) Bool.false_ne_true
      · rw [heq]
  · obtain ⟨e, he, hte⟩ := hterm
    cases hc : w.stream.ctx.claimed with
    | false => exact absurd ((h.unclaimed hc e he).symm.trans hte) Bool.false_ne_true
    | true => exact (h.flushed (.inr hc)).2

section Steps
variable {w : World}

/-- A chunk to a slot that is open. -/
theorem Consistent.chunk (h : w.Consistent) {chunk : Chunk} {sink : List Bool} (hsink : true ∉ sink)
    (hon : w.stream.ctx.onStream = true) (hne : splitChunk chunk ≠ []) (hreserved : w.stream.ctx.reserved = false)
    (hexit : w.exited = false)
    (hids : ∀ p ∈ splitChunk chunk, restreams w.stream.ctx p.chunkId = (w.retried && w.stream.ctx.opened)) :
    Consistent { w.receive (splitChunk chunk) with stream := w.stream.after sink (onChunk false chunk) } := by
  have hclaimed : w.stream.ctx.claimed = false := by
    cases hc : w.stream.ctx.claimed with
    | false => rfl
    | true => exact absurd ((h.inside hexit hc).symm.trans hreserved) (Ne.symm Bool.false_ne_true)
  obtain ⟨p, pieces, hsplit⟩ := List.exists_cons_of_ne_nil hne
  have hid : ∀ q ∈ pieces, q.chunkId = p.chunkId := fun q hq =>
    chunkId_of_mem_splitChunk (hsplit ▸ List.mem_cons_of_mem _ hq) (hsplit ▸ List.mem_cons_self)
  have hfirst := hids p (hsplit ▸ List.mem_cons_self)
  -- A retry before the first text has nothing to give up.
  have hsent : (if restreams w.stream.ctx p.chunkId = true then fun _ => none else w.sent) =
      if w.retried = true then fun _ => none else w.sent := by
    rw [hfirst]
    cases hr : w.retried with
    | false => simp
    | true =>
      cases ho : w.stream.ctx.opened with
      | true => simp
      | false => simp [h.unopened ho]
  have hreceive : (w.receive (splitChunk chunk)).sent = (splitChunk chunk).foldl (addPiece w.stream.registry)
      (if w.retried = true then fun _ => none else w.sent) ∧ (w.receive (splitChunk chunk)).exited = w.exited := by
    unfold receive
    rw [if_pos ⟨hon, hne⟩]
    exact ⟨rfl, rfl⟩
  have hafter : Book (w.stream.after sink (onChunk false chunk)) ∧ Keeps w.stream (w.stream.after sink (onChunk false chunk)) ∧
      (w.stream.after sink (onChunk false chunk)).ctx.opened = true ∧
      Streams (w.receive (splitChunk chunk)).sent (w.stream.after sink (onChunk false chunk)) := by
    refine after_of_ends (P := fun s' => Book s' ∧ Keeps w.stream s' ∧ s'.ctx.opened = true ∧
      Streams (w.receive (splitChunk chunk)).sent s') ?_
    have hends := emitDeltas_ends (R := fun _ _ => False) (h.book.withSink hsink) (h.streams hreserved hclaimed)
      (fun hr => by rw [hfirst, Bool.and_eq_true] at hr; exact hr.2) hid
    unfold onChunk
    refine Ends.get_then ?_
    simp only [hon, Bool.not_true, Bool.or_false, if_neg Bool.false_ne_true]
    rw [hsplit]
    refine Ends.mono hends ?_ fun _ _ hr => hr.elim
    rintro - s' ⟨hbook, hkeeps, hopen, hstreams⟩
    rw [hsent] at hstreams
    rw [← hsplit, hreceive.1, hsplit]
    exact ⟨hbook.withSink List.not_mem_nil, ⟨hkeeps.reserved, hkeeps.claimed, hkeeps.registry, hkeeps.log⟩, hopen, hstreams⟩
  obtain ⟨hbook, hkeeps, hopen, hstreams⟩ := hafter
  have hreserved' := hkeeps.reserved.trans hreserved
  have hclaimed' := hkeeps.claimed.trans hclaimed
  refine ⟨hbook, fun _ e he => ?_, fun hc => ?_, fun _ _ => hstreams, fun hc => ?_, fun he => ?_, fun _ hc => ?_,
    fun ho => ?_⟩
  · obtain ⟨es, hlog, hes⟩ := hkeeps.log
    rw [hlog] at he
    rcases List.mem_append.1 he with he | he
    · exact h.unclaimed hclaimed e he
    · exact hes e he
  · exact absurd (hclaimed'.symm.trans hc) Bool.false_ne_true
  · rcases hc with hc | hc
    · exact absurd (hreserved'.symm.trans hc) Bool.false_ne_true
    · exact absurd (hclaimed'.symm.trans hc) Bool.false_ne_true
  · exact absurd (hexit.symm.trans (hreceive.2.symm.trans he)) Bool.false_ne_true
  · exact absurd (hclaimed'.symm.trans hc) Bool.false_ne_true
  · exact absurd (ho.symm.trans hopen) Bool.false_ne_true

theorem Consistent.settled (h : w.Consistent) : Consistent { w with stream := { w.stream with sink := [] } } :=
  ⟨h.book.withSink List.not_mem_nil, h.unclaimed, h.claimed, h.streams, h.flushed, h.exited, h.inside, h.unopened⟩

/-- A chunk that reaches no stream. -/
theorem Consistent.ignored (h : w.Consistent) {raises : Bool} {chunk : Chunk} {sink : List Bool}
    (hignored : splitChunk chunk = [] ∨ w.stream.ctx.onStream = false) :
    Consistent { w.receive (splitChunk chunk) with stream := w.stream.after sink (onChunk raises chunk) } := by
  have hreceive : w.receive (splitChunk chunk) = w := by
    refine if_neg fun hboth => ?_
    rcases hignored with hnil | hoff
    · exact hboth.2 hnil
    · exact absurd (hoff.symm.trans hboth.1) Bool.false_ne_true
  have hafter : w.stream.after sink (onChunk raises chunk) = { w.stream with sink := [] } := by
    refine after_of_ends (P := fun s' => s' = { w.stream with sink := [] }) ?_
    unfold onChunk
    refine Ends.get_then ?_
    split
    · exact Ends.pure rfl
    · rename_i hon
      rcases hignored with hnil | hoff
      · rw [hnil]
        exact Ends.pure rfl
      · exact absurd (by simp [hoff]) hon
  rw [hreceive, hafter]
  exact h.settled

theorem Consistent.retry (h : w.Consistent) :
    Consistent { w.withCtx w.stream.ctx.newAttempt with sent := fun _ => none, retried := false } := by
  have hbook : Book (w.withCtx w.stream.ctx.newAttempt).stream := h.book.newAttempt
  cases ho : w.stream.ctx.opened with
  | false =>
    have hsame : w.stream.ctx.newAttempt = w.stream.ctx := by rw [StreamContext.newAttempt, ho]; rfl
    have hsent := h.unopened ho
    rw [withCtx, hsame]
    exact ⟨h.book, h.unclaimed, h.claimed, fun hr hc => hsent ▸ h.streams hr hc, fun hc => hsent ▸ h.flushed hc,
      h.exited, h.inside, fun _ => rfl⟩
  | true =>
    have hnew := Streams.newAttempt h.book ho
    have hctx : w.stream.ctx.newAttempt.claimed = w.stream.ctx.claimed ∧
        w.stream.ctx.newAttempt.reserved = w.stream.ctx.reserved ∧ w.stream.ctx.newAttempt.opened = true ∧
        w.stream.ctx.newAttempt.masks = [] := by
      rw [StreamContext.newAttempt, if_pos ho]
      exact ⟨rfl, rfl, ho, rfl⟩
    obtain ⟨hclaimed, hreserved, hopened, hmasks⟩ := hctx
    refine ⟨hbook, fun hc => h.unclaimed (hclaimed.symm.trans hc), fun hc => h.claimed (hclaimed.symm.trans hc),
      fun _ _ => hnew, fun _ => ⟨hmasks, fun kind => (hnew kind).2⟩, fun he => ?_, fun he hc => ?_, fun _ => rfl⟩
    · rcases h.exited he with hc | hc
      · exact .inl (hclaimed.trans hc)
      · exact absurd (hc.symm.trans ho) Bool.false_ne_true
    · exact hreserved.trans (h.inside he (hclaimed.symm.trans hc))

theorem Consistent.claim (h : w.Consistent) {sink : List Bool} (hsink : true ∉ sink) (hexit : w.exited = false) :
    Consistent { w with stream := w.stream.after sink StreamContext.claim } := by
  refine after_of_ends (P := fun s' => Consistent { w with stream := s' }) ?_
  unfold StreamContext.claim
  refine Ends.get_then ?_
  split
  · exact Ends.pure h.settled
  · rename_i hr
    have hreserved : w.stream.ctx.reserved = false := by
      simp only [Bool.or_eq_true, not_or, Bool.not_eq_true] at hr
      exact hr.1
    have hclaimed : w.stream.ctx.claimed = false := by
      cases hc : w.stream.ctx.claimed with
      | false => rfl
      | true => exact absurd (hreserved.symm.trans (h.inside hexit hc)) Bool.false_ne_true
    refine Ends.bind (flush_ends (h.book.withSink hsink) (h.streams hreserved hclaimed)) ?_
    rintro - s' ⟨hbook, hkeeps, hopened, hflushed⟩
    refine Ends.modify_then (Ends.pure ?_)
    have hclaimed' := hkeeps.claimed.trans hclaimed
    obtain ⟨es, hlog, hes⟩ := hkeeps.log
    refine ⟨(hbook.setReserved true).withSink List.not_mem_nil, fun _ e he => ?_, fun hc => ?_, fun hr => ?_,
      fun _ => hflushed, fun he => ?_, fun _ _ => rfl, fun ho => h.unopened (hopened.symm.trans ho)⟩
    · dsimp only at he
      rw [hlog] at he
      rcases List.mem_append.1 he with he | he
      · exact h.unclaimed hclaimed e he
      · exact hes e he
    · exact absurd (hclaimed'.symm.trans hc) Bool.false_ne_true
    · exact absurd hr.symm Bool.false_ne_true
    · exact absurd (hexit.symm.trans he) Bool.false_ne_true

theorem commit_done (h : w.stream.ctx.reserved = true → w.stream.ctx.claimed = true) : w.commit = w := by
  obtain ⟨⟨⟨_, _, _, _, _, _, _, _, _, reserved, claimed, _⟩, log, registry, sink⟩, sent, retried, exited⟩ := w
  cases reserved with
  | false => simp [World.commit, StreamContext.commit]
  | true =>
    have hc : claimed = true := h rfl
    simp [World.commit, StreamContext.commit, hc]

theorem commit_new (hr : w.stream.ctx.reserved = true) (hc : w.stream.ctx.claimed = false) :
    w.commit = { w with stream := { w.stream with
      ctx := { w.stream.ctx with claimed := true }, log := w.stream.log ++ [.durable w.stream.ctx.itemId] } } := by
  simp [World.commit, StreamContext.commit, hr, hc]

theorem Consistent.commit (h : w.Consistent) : w.commit.Consistent := by
  by_cases hdone : w.stream.ctx.reserved = true → w.stream.ctx.claimed = true
  · rw [commit_done hdone]
    exact h
  · simp only [Classical.not_imp, Bool.not_eq_true] at hdone
    obtain ⟨hr, hc⟩ := hdone
    have hflushed := h.flushed (.inl hr)
    rw [commit_new hr hc]
    refine ⟨(h.book.neutral (e := .durable w.stream.ctx.itemId) rfl h.book.sink).setClaimed true,
      fun hc => absurd hc.symm Bool.false_ne_true, fun _ => ⟨_, _, rfl, rfl, h.unclaimed hc⟩,
      fun hr' => absurd (hr'.symm.trans hr) Bool.false_ne_true, fun _ => ⟨hflushed.1, fun kind => ?_⟩,
      fun _ => .inl rfl, fun _ _ => hr, h.unopened⟩
    dsimp only
    rw [contents_append, hflushed.2 kind]
    exact List.append_nil _

theorem Consistent.exit (h : w.Consistent) {reason : String} {sink : List Bool} (hsink : true ∉ sink) :
    Consistent { w with stream := w.stream.after sink (close reason), exited := true } := by
  refine after_of_ends (P := fun s' => Consistent { w with stream := s', exited := true }) ?_
  unfold close
  refine Ends.get_then ?_
  split
  · rename_i hcase
    have hc : w.stream.ctx.claimed = true ∨ w.stream.ctx.opened = false := by
      simp only [Bool.or_eq_true, Bool.not_eq_true'] at hcase
      exact hcase.symm
    exact Ends.pure ⟨h.book.withSink List.not_mem_nil, h.unclaimed, h.claimed, h.streams, h.flushed, fun _ => hc,
      fun he => absurd he.symm Bool.false_ne_true, h.unopened⟩
  · rename_i hcase
    simp only [Bool.or_eq_true, Bool.not_eq_true', not_or, Bool.not_eq_false, Bool.not_eq_true] at hcase
    obtain ⟨hopen, hclaimed⟩ := hcase
    have hbook := (h.book.withSink hsink).setClaimed true
    refine Ends.modify_then ?_
    have hflush : Ends StreamContext.flush { w.stream with ctx := { w.stream.ctx with claimed := true }, sink := sink }
        (fun _ s' => Book s' ∧ Keeps { w.stream with ctx := { w.stream.ctx with claimed := true }, sink := sink } s' ∧
          s'.ctx.opened = w.stream.ctx.opened ∧ Flushed w.sent s') (fun _ _ => False) := by
      cases hr : w.stream.ctx.reserved with
      | false => exact flush_ends hbook (h.streams hr hclaimed)
      | true => exact flush_again hbook (h.flushed (.inl hr))
    refine Ends.bind hflush ?_
    rintro - s' ⟨hbook', hkeeps, hopened, hflushed⟩
    refine emit_ends hbook'.sink ?_
    obtain ⟨es, hlog, hes⟩ := hkeeps.log
    have hclaimed' : s'.ctx.claimed = true := hkeeps.claimed
    refine ⟨(hbook'.neutral rfl hbook'.sink).withSink List.not_mem_nil,
      fun hc => absurd (hc.symm.trans hclaimed') Bool.false_ne_true, fun _ => ⟨_, _, rfl, rfl, fun e he => ?_⟩,
      fun _ hc => absurd (hc.symm.trans hclaimed') Bool.false_ne_true, fun _ => ⟨hflushed.1, fun kind => ?_⟩,
      fun _ => .inl hclaimed', fun he => absurd he.symm Bool.false_ne_true, fun ho => h.unopened (hopened.symm.trans ho)⟩
    · rw [hlog] at he
      rcases List.mem_append.1 he with he | he
      · exact h.unclaimed hclaimed e he
      · exact hes e he
    · dsimp only
      rw [contents_append, hflushed.2 kind]
      exact List.append_nil _

end Steps

/-- `StreamContext.open`. -/
def init (itemId : String) (anchorSeq : Option Nat) (onStream : Bool) (registry : SecretRegistry) : World where
  stream := { ctx := { itemId := itemId, anchorSeq := anchorSeq, onStream := onStream }, registry := registry }

theorem Consistent.init (itemId : String) (anchorSeq : Option Nat) (onStream : Bool) (registry : SecretRegistry) :
    Consistent (init itemId anchorSeq onStream registry) := by
  refine ⟨⟨List.not_mem_nil, rfl, fun _ => rfl, List.forall_mem_nil _, fun hs => absurd hs Bool.false_ne_true,
    fun _ => List.forall_mem_nil _, fun i f hi => ?_, ?_, fun hs => absurd hs Bool.false_ne_true, List.nodup_nil,
    fun hm => absurd rfl hm⟩, fun _ => List.forall_mem_nil _, fun hc => absurd hc Bool.false_ne_true,
    fun _ _ _ => ⟨rfl, rfl⟩, fun _ => ⟨rfl, fun _ => rfl⟩, fun _ => .inr rfl, fun _ hc => absurd hc Bool.false_ne_true,
    fun _ => rfl⟩
  · cases hi
  · refine ⟨fun ho => absurd ho Bool.false_ne_true, ?_⟩
    rintro ⟨e, he, -⟩
    cases he

theorem Consistent.step {w w' : World} {a : Action} (h : w.Consistent) (hok : w.Allowed a) (hstep : w.step a = some w') :
    w'.Consistent := by
  cases a with
  | chunk raises chunk sink =>
    cases hstep
    rcases hok with hnil | hoff | ⟨rfl, hsink, hreserved, hexit, hids⟩
    · exact h.ignored (.inl hnil)
    · exact h.ignored (.inr hoff)
    · by_cases hignored : splitChunk chunk = [] ∨ w.stream.ctx.onStream = false
      · exact h.ignored hignored
      · simp only [not_or, Bool.not_eq_false] at hignored
        exact h.chunk hsink hignored.2 hignored.1 hreserved hexit hids
  | retry announced =>
    cases announced with
    | true =>
      cases hstep
      exact h.retry
    | false =>
      cases hstep
      exact ⟨h.book, h.unclaimed, h.claimed, h.streams, h.flushed, h.exited, h.inside, h.unopened⟩
  | claim sink =>
    simp only [World.step] at hstep
    split at hstep
    · cases hstep
    · cases hstep
      exact h.claim hok (Bool.eq_false_iff.2 ‹_›)
  | commit =>
    simp only [World.step] at hstep
    split at hstep
    · cases hstep
    · cases hstep
      exact h.commit
  | exit exc sink =>
    simp only [World.step] at hstep
    split at hstep
    · cases hstep
    · cases hstep
      exact h.exit hok
  | secrets registry =>
    cases hstep
    exact ⟨⟨h.book.sink, h.book.order, h.book.orders, h.book.below, h.book.begun, h.book.unbegun, h.book.startedFirst,
      h.book.opened, h.book.current, h.book.keys, h.book.masks⟩, h.unclaimed, h.claimed, h.streams, h.flushed, h.exited,
      h.inside, h.unopened⟩

/-- An item is retired once, its frames are numbered and in order, and its last
attempt carries its masked text, as long as no text comes once the slot is
reserved or closed and the ids of the chunks tell the attempts apart. -/
theorem protocol_of_reaches {itemId : String} {anchorSeq : Option Nat} {onStream : Bool} {registry : SecretRegistry}
    {w : World} (h : Reaches step Allowed (init itemId anchorSeq onStream registry) w) : w.Protocol := by
  refine Consistent.protocol (h.invariant (I := Consistent) (.init _ _ _ _) ?_)
  intro s a t hs hok hstep
  exact hs.step hok hstep

/-- A chunk of the choice `0`. -/
def textChunk (id : String) (text : String) : Chunk :=
  .stream (some id) [{ delta := some { content := some text.toList } }]

def noSecrets : SecretRegistry := { secretSources := [], exportedValues := [], failedLookups := [] }

/-- A completion that is tried again under a new id, and whose message is stored. -/
theorem protocol_of_reaches_retried : ∃ w : World,
    Reaches step Allowed (init "item" (some 7) true noSecrets) w ∧ w.Protocol ∧
      w.stream.log = [.started ⟨"item", 1, some 7⟩, .delta ⟨"item", 1, 0, .text, "ha".toList, some "a", some 0⟩,
        .started ⟨"item", 2, some 7⟩, .delta ⟨"item", 2, 0, .text, "half".toList, some "b", some 0⟩, .durable "item"] := by
  have hrun : (execAllowed step Allowed (init "item" (some 7) true noSecrets)
      [.chunk false (textChunk "a" "ha") [], .retry false, .chunk false (textChunk "b" "half") [false], .claim [],
        .commit, .exit none []]).map (fun w => w.stream.log) =
      some [.started ⟨"item", 1, some 7⟩, .delta ⟨"item", 1, 0, .text, "ha".toList, some "a", some 0⟩,
        .started ⟨"item", 2, some 7⟩, .delta ⟨"item", 2, 0, .text, "half".toList, some "b", some 0⟩, .durable "item"] := by
    decide +kernel
  obtain ⟨w, hw, hlog⟩ := Option.map_eq_some_iff.1 hrun
  have hreach := reaches_of_execAllowed .init hw
  exact ⟨w, hreach, protocol_of_reaches hreach, hlog⟩

/-- A chunk that arrives behind the stored message is streamed behind it. -/
theorem commit_keeps_open : ¬ ∀ w : World,
    Reaches step (fun _ _ => True) (init "item" (some 7) true noSecrets) w → w.Protocol := by
  intro h
  have hrun : (exec step (init "item" (some 7) true noSecrets)
      [.chunk false (.str "hi".toList) [], .claim [], .commit, .chunk false (.str "!".toList) []]).map
        (fun w => w.stream.log) =
      some [.started ⟨"item", 1, some 7⟩, .delta ⟨"item", 1, 0, .text, "hi".toList, none, none⟩, .durable "item",
        .delta ⟨"item", 1, 1, .text, "!".toList, none, none⟩] := by
    decide +kernel
  obtain ⟨w, hw, hlog⟩ := Option.map_eq_some_iff.1 hrun
  have hlast := (h w (reaches_of_exec .init hw)).last 2 (.durable "item") (by rw [hlog]; rfl) rfl
  rw [hlog] at hlast
  exact absurd hlast (by decide)

end World

end StreamContext

end AgentSdk
