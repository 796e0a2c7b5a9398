import AgentSdk.Lib.Runs
import Mathlib.Logic.Function.Basic
import Mathlib.Algebra.GroupWithZero.Nat
import Mathlib.Data.List.Basic
/-!
# Webhook delivery

`WebhookSubscriber`: events are queued and posted in bounded batches, one post at
a time under a lock. Publishers, the flush timer and `close` start posts; a batch
is out of the queue while it is posted. A step is what runs between two awaits.
Whoever waits for the lock may get it when it is free.
-/

namespace AgentSdk.WebhookSubscriber
open Lib

/-- Events by the order of their publication. -/
abbrev EventId := Nat
abbrev TaskId := Nat

structure WebhookSpec where
  eventBufferSize : Nat := 5
  maxQueueSize : Nat := 1000
  maxBatchBytes : Nat := 5 * 1024 * 1024
  maxQueueBytes : Nat := 50 * 1024 * 1024
  event_buffer_size_ge : 1 ≤ eventBufferSize := by decide

/-! ## The buffer -/

/-- The queue with its size accounting, and for the statement how many events were
published, what was dropped from which queue, and which batches were posted. -/
structure Buffer where
  queue : List EventId := []
  queueSizes : List Nat := []
  queueBytes : Int := 0
  droppedEvents : Nat := 0
  published : Nat := 0
  drops : List (EventId × List EventId) := []
  posted : List (List EventId) := []
deriving DecidableEq

/-- The bytes of a JSON array of events of these sizes. -/
def batchBytes (sizes : List Nat) : Nat := 2 + sizes.sum + (sizes.length - 1)

/-- The loop of `_take_batch`. -/
def batchCount (spec : WebhookSpec) (limit : Nat) : Nat → Nat → List Nat → Nat
  | _, count, [] => count
  | batchSize, count, n :: rest =>
    let nextSize := batchSize + n + (if count = 0 then 0 else 1)
    if count ≠ 0 ∧ spec.maxBatchBytes < nextSize then count
    else if limit ≤ count + 1 then count + 1
    else batchCount spec limit nextSize (count + 1) rest

namespace Buffer

variable (spec : WebhookSpec) (size : EventId → Option Nat)

/-- `_event_size` of an event that was serialized before. -/
def sizeOf (e : EventId) : Nat := (size e).getD 0

def bufferFull (b : Buffer) : Bool :=
  spec.eventBufferSize ≤ b.queue.length || (spec.maxBatchBytes : Int) ≤ b.queueBytes

def syncQueueSizes (b : Buffer) : Buffer :=
  if b.queueSizes.length ≠ b.queue.length then
    let sizes := b.queue.map (sizeOf size)
    { b with queueSizes := sizes, queueBytes := (sizes.sum : Nat) }
  else b

def overLimit (b : Buffer) : Bool :=
  spec.maxQueueSize < b.queue.length || (spec.maxQueueBytes : Int) < b.queueBytes

/-- The loop of `_trim_queue`. -/
def trimLoop : Nat → Buffer → Buffer
  | 0, b => b
  | fuel + 1, b =>
    match b.queue with
    | [] => b
    | e :: rest =>
      if b.overLimit spec then
        trimLoop fuel { b with
          queue := rest
          queueSizes := b.queueSizes.tail
          queueBytes := b.queueBytes - (b.queueSizes.headD 0 : Nat)
          droppedEvents := b.droppedEvents + 1
          drops := b.drops ++ [(e, b.queue)] }
      else b

def trimQueue (b : Buffer) : Buffer := trimLoop spec b.queue.length b

/-- `_enqueue`, which raises before it appends an event that cannot be serialized. -/
def enqueue (b : Buffer) : Buffer :=
  let b := b.syncQueueSizes size
  match size b.published with
  | none => { b with published := b.published + 1 }
  | some n => trimQueue spec { b with
      queue := b.queue ++ [b.published]
      queueSizes := b.queueSizes ++ [n]
      queueBytes := b.queueBytes + n
      published := b.published + 1 }

def requeue (b : Buffer) (events : List EventId) : Buffer :=
  let sizes := events.map (sizeOf size)
  trimQueue spec { b with
    queue := events ++ b.queue
    queueSizes := sizes ++ b.queueSizes
    queueBytes := b.queueBytes + (sizes.sum : Nat) }

/-- `_take_batch`. -/
def takeBatch (b : Buffer) (maxEvents : Nat) : List EventId × Buffer :=
  let b := b.syncQueueSizes size
  let count := batchCount spec (min spec.eventBufferSize maxEvents) 2 0 b.queueSizes
  (b.queue.take count, { b with
    queue := b.queue.drop count
    queueSizes := b.queueSizes.drop count
    queueBytes := b.queueBytes - ((b.queueSizes.take count).sum : Nat) })

/-- A batch within its bounds. -/
def Fits (batch : List EventId) : Prop :=
  batch.length ≤ spec.eventBufferSize ∧
    (batchBytes (batch.map (sizeOf size)) ≤ spec.maxBatchBytes ∨ batch.length ≤ 1)

def Bounded (batch : List EventId) : Prop :=
  batch.length ≤ spec.eventBufferSize ∧
    (batchBytes (batch.map (sizeOf size)) ≤ spec.maxBatchBytes ∨ batch.length = 1)

/-- The oldest event of a queue beyond its limits. -/
def Due (d : EventId × List EventId) : Prop :=
  d.2.head? = some d.1 ∧ (spec.maxQueueSize < d.2.length ∨ spec.maxQueueBytes < (d.2.map (sizeOf size)).sum)

/-- The buffer while `batch` is out: what was posted, is out or is queued stands in
the order of publication, and whatever is missing there was dropped. -/
structure Tracks (batch : List EventId) (b : Buffer) : Prop where
  sizes : b.queueSizes = b.queue.map (sizeOf size)
  bytes : b.queueBytes = ((b.queue.map (sizeOf size)).sum : Nat)
  order : (b.posted.flatten ++ (batch ++ b.queue)).Pairwise (· < ·)
  known : ∀ e ∈ b.posted.flatten ++ (batch ++ b.queue), e < b.published
  accounted : ∀ e < b.published, e ∈ b.posted.flatten ++ (batch ++ b.queue) ∨ e ∈ b.drops.map Prod.fst
  drops : ∀ d ∈ b.drops, Due spec size d
  batches : ∀ batch ∈ b.posted, Bounded spec size batch

section Tracks
variable {spec : WebhookSpec} {size : EventId → Option Nat} {b : Buffer} {batch : List EventId}

theorem Tracks.sync (h : b.Tracks spec size batch) : b.syncQueueSizes size = b := by
  have hlen : b.queueSizes.length = b.queue.length := by rw [h.sizes, List.length_map]
  simp [syncQueueSizes, hlen]

theorem Tracks.overLimit (h : b.Tracks spec size batch) (hover : b.overLimit spec = true) :
    spec.maxQueueSize < b.queue.length ∨ spec.maxQueueBytes < (b.queue.map (sizeOf size)).sum := by
  have hb := h.bytes
  simp only [Buffer.overLimit, Bool.or_eq_true, decide_eq_true_eq] at hover
  omega

theorem Tracks.trimLoop (h : b.Tracks spec size batch) (fuel : Nat) : (b.trimLoop spec fuel).Tracks spec size batch := by
  induction fuel generalizing b with
  | zero => exact h
  | succ fuel ih =>
    unfold Buffer.trimLoop
    split
    · exact h
    · rename_i e rest hq
      split
      · rename_i hover
        have hsub : (b.posted.flatten ++ (batch ++ rest)).Sublist (b.posted.flatten ++ (batch ++ b.queue)) := by
          rw [hq]
          exact ((List.sublist_cons_self e rest).append_left batch).append_left _
        apply ih
        refine ⟨?_, ?_, h.order.sublist hsub, fun x hx => h.known x (hsub.mem hx), fun x hx => ?_, fun d hd => ?_,
          h.batches⟩
        · rw [h.sizes, hq]
          rfl
        · have hb := h.bytes
          simp only [h.sizes, hq, List.map_cons, List.sum_cons, List.headD_cons] at hb ⊢
          omega
        · rcases h.accounted x hx with hx | hx
          · -- What is missing now is the event that was just dropped.
            simp only [hq, List.mem_append, List.mem_cons] at hx
            simp only [List.mem_append, List.map_append, List.map_cons, List.map_nil, List.mem_singleton]
            grind
          · exact .inr (by simp only [List.map_append, List.mem_append]; exact .inl hx)
        · rcases List.mem_append.1 hd with hd | hd
          · exact h.drops d hd
          · rw [List.mem_singleton.1 hd]
            exact ⟨by rw [hq]; rfl, h.overLimit hover⟩
      · exact h

theorem Tracks.trimQueue (h : b.Tracks spec size batch) : (b.trimQueue spec).Tracks spec size batch :=
  h.trimLoop _

theorem Tracks.enqueue (h : b.Tracks spec size batch) (hsome : (size b.published).isSome) :
    (b.enqueue spec size).Tracks spec size batch := by
  obtain ⟨n, hn⟩ := Option.isSome_iff_exists.1 hsome
  have hsize : sizeOf size b.published = n := by simp [sizeOf, hn]
  unfold Buffer.enqueue
  simp only [h.sync, hn]
  apply Tracks.trimQueue
  refine ⟨?_, ?_, ?_, fun e he => ?_, fun e he => ?_, h.drops, h.batches⟩
  · simp [h.sizes, hsize]
  · simp [h.bytes, hsize]
  · show (b.posted.flatten ++ (batch ++ (b.queue ++ [b.published]))).Pairwise (· < ·)
    rw [← List.append_assoc batch, ← List.append_assoc]
    refine List.pairwise_append.2 ⟨h.order, List.pairwise_singleton _ _, fun x hx y hy => ?_⟩
    rw [List.mem_singleton.1 hy]
    exact h.known x hx
  · have hmem : e ∈ b.posted.flatten ++ (batch ++ (b.queue ++ [b.published])) := he
    rw [← List.append_assoc batch, ← List.append_assoc] at hmem
    rcases List.mem_append.1 hmem with hmem | hmem
    · exact Nat.lt_succ_of_lt (h.known e hmem)
    · rw [List.mem_singleton.1 hmem]
      exact Nat.lt_succ_self _
  · show e ∈ b.posted.flatten ++ (batch ++ (b.queue ++ [b.published])) ∨ _
    rw [← List.append_assoc batch, ← List.append_assoc]
    rcases Nat.lt_succ_iff_lt_or_eq.1 he with he | rfl
    · exact (h.accounted e he).imp_left (List.mem_append_left _)
    · exact .inl (List.mem_append_right _ (List.mem_singleton_self _))

/-- The batch of a post that failed. -/
theorem Tracks.requeue (h : b.Tracks spec size batch) : (b.requeue spec size batch).Tracks spec size [] := by
  apply Tracks.trimQueue
  refine ⟨?_, ?_, h.order, h.known, h.accounted, h.drops, h.batches⟩
  · simp [h.sizes]
  · simp [h.bytes]
    omega

/-- The batch of a post that succeeded. -/
theorem Tracks.deliver (h : b.Tracks spec size batch) (hbatch : Bounded spec size batch) :
    Tracks spec size [] { b with posted := b.posted ++ [batch] } := by
  have hall : (b.posted ++ [batch]).flatten ++ ([] ++ b.queue) = b.posted.flatten ++ (batch ++ b.queue) := by simp
  refine ⟨h.sizes, h.bytes, by rw [hall]; exact h.order, by rw [hall]; exact h.known,
    by rw [hall]; exact h.accounted, h.drops, fun x hx => ?_⟩
  rcases List.mem_append.1 hx with hx | hx
  · exact h.batches x hx
  · rw [List.mem_singleton.1 hx]
    exact hbatch

/-- A batch that fits is within its bounds unless the two brackets alone are too much. -/
theorem Fits.bounded (h : Fits spec size batch) (hempty : batch = [] → 2 ≤ spec.maxBatchBytes) :
    Bounded spec size batch := by
  refine ⟨h.1, ?_⟩
  rcases h.2 with hbytes | hlen
  · exact .inl hbytes
  · rcases Nat.le_one_iff_eq_zero_or_eq_one.1 hlen with hzero | hone
    · have hnil := List.length_eq_zero_iff.1 hzero
      refine .inl ?_
      rw [hnil]
      exact hempty hnil
    · exact .inr hone

theorem Tracks.takeBatch (h : b.Tracks spec size []) (maxEvents : Nat) :
    (b.takeBatch spec size maxEvents).2.Tracks spec size (b.takeBatch spec size maxEvents).1 := by
  unfold Buffer.takeBatch
  simp only [h.sync]
  generalize batchCount spec (min spec.eventBufferSize maxEvents) 2 0 b.queueSizes = count
  have hall : List.take count b.queue ++ List.drop count b.queue = [] ++ b.queue := List.take_append_drop _ _
  refine ⟨?_, ?_, by rw [hall]; exact h.order, by rw [hall]; exact h.known, by rw [hall]; exact h.accounted, h.drops,
    h.batches⟩
  · simp [h.sizes]
  · have hsum : (b.queue.map (sizeOf size)).sum = ((b.queue.map (sizeOf size)).take count).sum +
        ((b.queue.map (sizeOf size)).drop count).sum := by
      rw [← List.sum_append, List.take_append_drop]
    simp only [h.bytes, h.sizes, List.map_drop]
    omega

end Tracks

/-- What the loop of `_take_batch` counts; the sizes of `pre` are in the batch already. -/
theorem batchCount_spec {limit : Nat} {rest pre : List Nat} {batchSize : Nat}
    (hsize : batchSize = batchBytes pre) (hlimit : pre.length < limit)
    (hfits : batchSize ≤ spec.maxBatchBytes ∨ pre.length ≤ 1) :
    ∃ k, batchCount spec limit batchSize pre.length rest = pre.length + k ∧ pre.length + k ≤ limit ∧
      (batchBytes (pre ++ rest.take k) ≤ spec.maxBatchBytes ∨ (pre ++ rest.take k).length ≤ 1) := by
  induction rest generalizing pre batchSize with
  | nil => exact ⟨0, rfl, by omega, by rw [List.take_nil, List.append_nil, ← hsize]; exact hfits⟩
  | cons n rest ih =>
    have hnext : batchSize + n + (if pre.length = 0 then 0 else 1) = batchBytes (pre ++ [n]) := by
      simp only [hsize, batchBytes, List.sum_append, List.sum_cons, List.sum_nil, List.length_append,
        List.length_cons, List.length_nil]
      split <;> omega
    have hlen : (pre ++ [n]).length = pre.length + 1 := List.length_append
    unfold batchCount
    rw [hnext]
    dsimp only
    split
    · exact ⟨0, rfl, by omega, by rw [List.take_zero, List.append_nil, ← hsize]; exact hfits⟩
    · rename_i hroom
      have hfits' : batchBytes (pre ++ [n]) ≤ spec.maxBatchBytes ∨ (pre ++ [n]).length ≤ 1 := by omega
      split
      · exact ⟨1, rfl, by omega, hfits'⟩
      · rename_i hmore
        obtain ⟨k, hk, hle, hb⟩ := ih rfl (by omega) hfits'
        rw [List.append_assoc] at hb
        refine ⟨k + 1, ?_, by omega, hb⟩
        rw [hlen] at hk
        omega

section Tracks
variable {spec : WebhookSpec} {size : EventId → Option Nat} {b : Buffer}

theorem Tracks.takeBatch_fits (h : b.Tracks spec size []) {maxEvents : Nat} (hmax : maxEvents ≠ 0) :
    Fits spec size (b.takeBatch spec size maxEvents).1 ∧ (b.takeBatch spec size maxEvents).1.length ≤ maxEvents ∧
      (b.takeBatch spec size maxEvents).1.length + (b.takeBatch spec size maxEvents).2.queue.length = b.queue.length := by
  have hpos : 0 < min spec.eventBufferSize maxEvents := by
    have hsize := spec.event_buffer_size_ge
    omega
  have hcount : ∃ k, batchCount spec (min spec.eventBufferSize maxEvents) 2 0 b.queueSizes = 0 + k ∧
      0 + k ≤ min spec.eventBufferSize maxEvents ∧
      (batchBytes ([] ++ b.queueSizes.take k) ≤ spec.maxBatchBytes ∨ ([] ++ b.queueSizes.take k).length ≤ 1) :=
    @batchCount_spec spec _ b.queueSizes [] 2 rfl hpos (.inr (Nat.zero_le 1))
  obtain ⟨k, hk, hle, hb⟩ := hcount
  simp only [Nat.zero_add, List.nil_append] at hk hle hb
  unfold Buffer.takeBatch
  simp only [h.sync, hk]
  have hlen : (b.queue.take k).length ≤ k := List.length_take_le k b.queue
  refine ⟨⟨by omega, ?_⟩, by omega, ?_⟩
  · rw [h.sizes, ← List.map_take, List.length_map] at hb
    exact hb
  · rw [← List.length_append, List.take_append_drop]

end Tracks

end Buffer

/-! ## Tasks -/

inductive Kind where
  | publisher
  | timer
  | closer
deriving DecidableEq

inductive Phase where
  /-- A timer before it fires. -/
  | sleeping
  /-- At the lock of `_post_events`. -/
  | waiting
  /-- In `_post_batch`. -/
  | posting
deriving DecidableEq

structure Task where
  kind : Kind
  phase : Phase
  /-- `cancel` was called; the task is told at its await. -/
  cancelled : Bool := false
deriving DecidableEq

/-- The loop of the task that has the lock. -/
structure Post where
  task : TaskId
  batch : List EventId
  eventsRemaining : Nat
deriving DecidableEq

structure World where
  buffer : Buffer := {}
  closed : Bool := false
  flushTimer : Option TaskId := none
  post : Option Post := none
  task : TaskId → Option Task := fun _ => none
  nextTask : TaskId := 0

inductive Action where
  | publish
  /-- The flush delay of a timer is over. -/
  | fire (t : TaskId)
  | acquire (t : TaskId)
  /-- All attempts of `_post_batch` have failed, or one has succeeded. -/
  | posted (ok : Bool)
  /-- A cancelled task gets its `CancelledError`. -/
  | interrupted (t : TaskId)
  | close
deriving DecidableEq

namespace World

variable (spec : WebhookSpec) (size : EventId → Option Nat)

def setTask (s : World) (t : TaskId) (x : Option Task) : World := { s with task := Function.update s.task t x }

def spawn (s : World) (x : Task) : World :=
  { s with task := Function.update s.task s.nextTask (some x), nextTask := s.nextTask + 1 }

def startFlushTimer (s : World) : World :=
  if s.closed = false ∧ s.flushTimer = none then
    { s.spawn ⟨.timer, .sleeping, false⟩ with flushTimer := some s.nextTask }
  else s

def cancelFlushTimer (s : World) : World :=
  match s.flushTimer with
  | none => s
  | some t => { s.setTask t ((s.task t).map fun x => { x with cancelled := true }) with flushTimer := none }

/-- The end of a task; a timer clears itself and starts a new one for what is left. -/
def endTask (s : World) (t : TaskId) (kind : Kind) : World :=
  let s := s.setTask t none
  match kind with
  | .publisher | .closer => s
  | .timer =>
    let cleared := if s.flushTimer = some t then { s with flushTimer := none } else s
    if s.buffer.queue ≠ [] then cleared.startFlushTimer else cleared

/-- The end of `_post_events` when nothing is left to post. -/
def finishPost (s : World) (t : TaskId) (kind : Kind) : World :=
  let s := { s with post := none }
  let s := if s.buffer.queue = [] ∧ s.flushTimer ≠ some t then s.cancelFlushTimer else s
  s.endTask t kind

/-- The head of the loop of `_post_events`. -/
def postNext (s : World) (t : TaskId) (kind : Kind) (eventsRemaining : Nat) : World :=
  if eventsRemaining = 0 then s.finishPost t kind
  else
    let taken := s.buffer.takeBatch spec size eventsRemaining
    { s.setTask t (some ⟨kind, .posting, false⟩) with
      buffer := taken.2
      post := some ⟨t, taken.1, eventsRemaining⟩ }

/-- `_post_events` with the lock. -/
def acquired (s : World) (t : TaskId) (kind : Kind) : World :=
  let buffer := (s.buffer.syncQueueSizes size).trimQueue spec
  postNext spec size { s with buffer } t kind buffer.queue.length

/-- Nobody is at the lock. -/
def Unattended (s : World) : Prop := ∀ t < s.nextTask, (s.task t).map Task.phase ≠ some .waiting

instance Unattended.decidable (s : World) : Decidable s.Unattended := inferInstanceAs (Decidable (∀ _ < _, _))

/-- `_post_events`: a free lock that nobody waits for is taken at once. -/
def postEvents (s : World) (t : TaskId) (kind : Kind) : World :=
  if s.post = none ∧ s.Unattended then acquired spec size s t kind
  else s.setTask t (some ⟨kind, .waiting, false⟩)

/-- `__call__`. -/
def publish (s : World) : World :=
  let raised := (size s.buffer.published).isNone
  let s := { s with buffer := s.buffer.enqueue spec size }
  if raised then s
  else if s.buffer.bufferFull spec then
    -- The post that is under way looks at the buffer when it is done.
    if s.post ≠ none then s.startFlushTimer
    else
      let s := s.cancelFlushTimer
      postEvents spec size { s with nextTask := s.nextTask + 1 } s.nextTask .publisher
  else if s.buffer.queue ≠ [] then s.startFlushTimer
  else s

def close (s : World) : World :=
  let s := { s with closed := true }.cancelFlushTimer
  if s.buffer.queue ≠ [] then postEvents spec size { s with nextTask := s.nextTask + 1 } s.nextTask .closer else s

def step (s : World) : Action → Option World
  | .publish => some (publish spec size s)
  | .fire t =>
    if s.task t = some ⟨.timer, .sleeping, false⟩ then
      some (if s.buffer.queue ≠ [] then postEvents spec size s t .timer else s.endTask t .timer)
    else none
  | .acquire t =>
    match s.task t, s.post with
    | some ⟨kind, .waiting, false⟩, none => some (acquired spec size s t kind)
    | _, _ => none
  | .posted ok =>
    match s.post with
    | none => none
    | some p =>
      match s.task p.task with
      | some ⟨kind, .posting, false⟩ =>
        if ok then
          let s := { s with buffer := { s.buffer with posted := s.buffer.posted ++ [p.batch] } }
          let eventsRemaining := p.eventsRemaining - p.batch.length
          -- The buffer may have filled up again during the post.
          some (postNext spec size s p.task kind
            (if eventsRemaining = 0 ∧ s.buffer.bufferFull spec then s.buffer.queue.length else eventsRemaining))
        else
          let s := { s with buffer := s.buffer.requeue spec size p.batch }
          some ({ s.startFlushTimer with post := none }.endTask p.task kind)
      | _ => none
  | .interrupted t =>
    match s.task t with
    | some ⟨_, _, true⟩ =>
      -- The lock is released; a batch that is out is not put back.
      let s := if s.post.any (fun p => p.task = t) then { s with post := none } else s
      let s := if s.flushTimer = some t then { s with flushTimer := none } else s
      some (s.setTask t none)
    | _ => none
  | .close => some (close spec size s)

/-! ## Every event is accounted for -/

/-- A task posts, or waits to post, and will not be stopped. -/
def Posts (s : World) (t : TaskId) : Prop :=
  ∃ kind phase, s.task t = some ⟨kind, phase, false⟩ ∧ (phase = .waiting ∨ phase = .posting)

structure Sound (s : World) : Prop where
  accounted : ∀ e < s.buffer.published, e ∈ s.buffer.posted.flatten ∨ e ∈ s.buffer.drops.map Prod.fst ∨
    e ∈ s.buffer.queue ∨ ∃ p, s.post = some p ∧ e ∈ p.batch
  /-- What was dropped was the oldest of a queue beyond its limits. -/
  drops : ∀ d ∈ s.buffer.drops, Buffer.Due spec size d
  order : s.buffer.posted.flatten.Pairwise (· < ·)
  batches : ∀ batch ∈ s.buffer.posted, Buffer.Bounded spec size batch
  bytes : s.buffer.queueBytes = ((s.buffer.queue.map (Buffer.sizeOf size)).sum : Nat)
  triggered : s.closed = false → s.buffer.queue ≠ [] →
    (∃ t phase, s.flushTimer = some t ∧ s.task t = some ⟨.timer, phase, false⟩) ∨ ∃ t, s.Posts t

/-- Events can be serialized, `close` does not find the flush timer posting, and an
empty batch is within the limit. -/
def Allowed (s : World) : Action → Prop
  | .publish => (size s.buffer.published).isSome
  | .posted ok => ok = true → ∀ p ∈ s.post, p.batch = [] → 2 ≤ spec.maxBatchBytes
  | .close => ∀ p ∈ s.post, s.flushTimer ≠ some p.task
  | .fire _ | .acquire _ | .interrupted _ => True

instance Allowed.decidable (s : World) (a : Action) : Decidable (Allowed spec size s a) := by
  cases a <;> unfold Allowed <;> infer_instance

/-! ## The invariants -/

/-- The batch that is out of the queue. -/
def inflight (s : World) : List EventId :=
  match s.post with
  | none => []
  | some p => p.batch

/-- Somebody at the lock will not be stopped. -/
def Waiter (s : World) : Prop := ∃ t kind, s.task t = some ⟨kind, .waiting, false⟩

structure Consistent (s : World) : Prop where
  tracks : s.buffer.Tracks spec size s.inflight
  owner : ∀ p, s.post = some p → ∃ kind, s.task p.task = some ⟨kind, .posting, false⟩
  fits : ∀ p, s.post = some p → Buffer.Fits spec size p.batch ∧ p.batch.length ≤ p.eventsRemaining
  timer : ∀ t, s.flushTimer = some t ↔ ∃ phase, s.task t = some ⟨.timer, phase, false⟩
  fresh : ∀ t, s.nextTask ≤ t → s.task t = none

/-- Everything queued has a timer or somebody at the lock, or is for the loop of the
task that has the lock. -/
def Attended (s : World) : Prop :=
  s.closed = false → s.flushTimer ≠ none ∨ s.Waiter ∨
    match s.post with
    | none => s.buffer.queue = []
    | some p => s.buffer.queue.length + p.batch.length ≤ p.eventsRemaining

/-- A task without the lock that runs now. -/
structure Running (s : World) (t : TaskId) (kind : Kind) : Prop where
  timer : s.flushTimer = some t ↔ kind = .timer
  known : t < s.nextTask
  unlocked : ∀ p, s.post = some p → p.task ≠ t

section Frames
variable {s : World} {t : TaskId}

@[simp] theorem startFlushTimer_buffer : s.startFlushTimer.buffer = s.buffer := by
  unfold startFlushTimer
  split <;> rfl

@[simp] theorem startFlushTimer_closed : s.startFlushTimer.closed = s.closed := by
  unfold startFlushTimer
  split <;> rfl

@[simp] theorem startFlushTimer_post : s.startFlushTimer.post = s.post := by
  unfold startFlushTimer
  split <;> rfl

@[simp] theorem cancelFlushTimer_buffer : s.cancelFlushTimer.buffer = s.buffer := by
  unfold cancelFlushTimer
  split <;> rfl

@[simp] theorem cancelFlushTimer_closed : s.cancelFlushTimer.closed = s.closed := by
  unfold cancelFlushTimer
  split <;> rfl

@[simp] theorem cancelFlushTimer_post : s.cancelFlushTimer.post = s.post := by
  unfold cancelFlushTimer
  split <;> rfl

@[simp] theorem cancelFlushTimer_nextTask : s.cancelFlushTimer.nextTask = s.nextTask := by
  unfold cancelFlushTimer
  split <;> rfl

@[simp] theorem cancelFlushTimer_flushTimer : s.cancelFlushTimer.flushTimer = none := by
  unfold cancelFlushTimer
  split
  · assumption
  · rfl

/-- Cancelling the timer changes no other task. -/
theorem cancelFlushTimer_task (h : s.flushTimer ≠ some t) : s.cancelFlushTimer.task t = s.task t := by
  unfold cancelFlushTimer
  split
  · rfl
  · rename_i u hu
    refine Function.update_of_ne ?_ _ _
    rintro rfl
    exact h hu

theorem startFlushTimer_armed (hopen : s.closed = false) : s.startFlushTimer.flushTimer ≠ none := by
  unfold startFlushTimer
  split
  · exact nofun
  · rename_i h
    exact fun hnone => h ⟨hopen, hnone⟩

@[simp] theorem endTask_buffer {kind : Kind} : (s.endTask t kind).buffer = s.buffer := by
  unfold endTask
  cases kind with
  | publisher | closer => rfl
  | timer =>
    dsimp only
    split <;> split <;> simp [setTask]

@[simp] theorem endTask_post {kind : Kind} : (s.endTask t kind).post = s.post := by
  unfold endTask
  cases kind with
  | publisher | closer => rfl
  | timer =>
    dsimp only
    split <;> split <;> simp [setTask]

@[simp] theorem endTask_closed {kind : Kind} : (s.endTask t kind).closed = s.closed := by
  unfold endTask
  cases kind with
  | publisher | closer => rfl
  | timer =>
    dsimp only
    split <;> split <;> simp [setTask]

end Frames

section Consistent
variable {spec : WebhookSpec} {size : EventId → Option Nat} {s : World} {t : TaskId} {kind : Kind}

theorem Consistent.startFlushTimer (hs : s.Consistent spec size) : s.startFlushTimer.Consistent spec size := by
  unfold World.startFlushTimer
  split
  · rename_i hnone
    have hfree : s.task s.nextTask = none := hs.fresh _ (Nat.le_refl _)
    refine ⟨hs.tracks, fun p hp => ?_, hs.fits, fun u => ?_, fun u hu => ?_⟩
    · obtain ⟨kind, hk⟩ := hs.owner p hp
      refine ⟨kind, ?_⟩
      show Function.update s.task s.nextTask _ p.task = _
      rw [Function.update_of_ne ?_, hk]
      intro heq
      rw [heq, hfree] at hk
      cases hk
    · show some s.nextTask = some u ↔ ∃ phase, Function.update s.task s.nextTask _ u = _
      by_cases hu : u = s.nextTask
      · subst hu
        simp
      · rw [Function.update_of_ne hu]
        have hnot : ¬ ∃ phase, s.task u = some ⟨.timer, phase, false⟩ := by
          rw [← hs.timer u, hnone.2]
          exact nofun
        simp [hnot, Ne.symm hu]
    · have hne : u ≠ s.nextTask := Nat.ne_of_gt (Nat.lt_of_succ_le hu)
      show Function.update s.task s.nextTask _ u = none
      rw [Function.update_of_ne hne]
      exact hs.fresh u (Nat.le_of_succ_le hu)
  · exact hs

theorem Consistent.cancelFlushTimer (hs : s.Consistent spec size)
    (hfree : ∀ p, s.post = some p → s.flushTimer ≠ some p.task) : s.cancelFlushTimer.Consistent spec size := by
  refine ⟨by simpa [inflight] using hs.tracks, fun p hp => ?_, by simpa using hs.fits, fun u => ?_, fun u hu => ?_⟩
  · rw [cancelFlushTimer_post] at hp
    rw [cancelFlushTimer_task (hfree p hp)]
    exact hs.owner p hp
  · rw [cancelFlushTimer_flushTimer]
    refine ⟨nofun, ?_⟩
    rintro ⟨phase, hu⟩
    by_cases htimer : s.flushTimer = some u
    · simp [World.cancelFlushTimer, htimer, setTask, Option.map_eq_some_iff] at hu
    · rw [cancelFlushTimer_task htimer] at hu
      exact absurd ((hs.timer u).2 ⟨phase, hu⟩) htimer
  · rw [cancelFlushTimer_nextTask] at hu
    have hnone := hs.fresh u hu
    rw [cancelFlushTimer_task ?_, hnone]
    intro htimer
    obtain ⟨phase, hu'⟩ := (hs.timer u).1 htimer
    rw [hnone] at hu'
    cases hu'

/-- The running task goes to the lock. -/
theorem Consistent.wait (hs : s.Consistent spec size) (ht : s.Running t kind) :
    (s.setTask t (some ⟨kind, .waiting, false⟩)).Consistent spec size := by
  refine ⟨hs.tracks, fun p hp => ?_, hs.fits, fun u => ?_, fun u hu => ?_⟩
  · show ∃ kind, Function.update s.task t _ p.task = _
    rw [Function.update_of_ne (ht.unlocked p hp)]
    exact hs.owner p hp
  · show s.flushTimer = some u ↔ ∃ phase, Function.update s.task t _ u = _
    by_cases hu : u = t
    · subst hu
      rw [ht.timer]
      simp
    · rw [Function.update_of_ne hu]
      exact hs.timer u
  · have hne : u ≠ t := Nat.ne_of_gt (Nat.lt_of_lt_of_le ht.known hu)
    show Function.update s.task t _ u = none
    rw [Function.update_of_ne hne]
    exact hs.fresh u hu

theorem Consistent.endTask (hs : s.Consistent spec size) (ht : s.Running t kind) :
    (s.endTask t kind).Consistent spec size := by
  have hpost : ∀ p, s.post = some p → ∃ kind, Function.update s.task t none p.task = some ⟨kind, .posting, false⟩ := by
    intro p hp
    rw [Function.update_of_ne (ht.unlocked p hp)]
    exact hs.owner p hp
  have hfresh : ∀ u, s.nextTask ≤ u → Function.update s.task t none u = none := by
    intro u hu
    rw [Function.update_of_ne (Nat.ne_of_gt (Nat.lt_of_lt_of_le ht.known hu))]
    exact hs.fresh u hu
  have hother : kind ≠ .timer → (s.setTask t none).Consistent spec size := by
    intro hkind
    refine ⟨hs.tracks, hpost, hs.fits, fun u => ?_, hfresh⟩
    show s.flushTimer = some u ↔ ∃ phase, Function.update s.task t none u = _
    by_cases hu : u = t
    · subst hu
      rw [ht.timer]
      simp [hkind]
    · rw [Function.update_of_ne hu]
      exact hs.timer u
  unfold World.endTask
  cases kind with
  | publisher => exact hother nofun
  | closer => exact hother nofun
  | timer =>
    have htimer : s.flushTimer = some t := ht.timer.2 rfl
    have hcleared : ({ s.setTask t none with flushTimer := none } : World).Consistent spec size := by
      refine ⟨hs.tracks, hpost, hs.fits, fun u => ?_, hfresh⟩
      show none = some u ↔ ∃ phase, Function.update s.task t none u = _
      by_cases hu : u = t
      · subst hu
        simp
      · have hnot : ¬ ∃ phase, s.task u = some ⟨.timer, phase, false⟩ := by
          rw [← hs.timer u, htimer]
          exact fun h => hu (Option.some.inj h).symm
        rw [Function.update_of_ne hu]
        simp [hnot]
    dsimp only
    rw [if_pos (show (s.setTask t none).flushTimer = some t from htimer)]
    split
    · exact hcleared.startFlushTimer
    · exact hcleared

/-- What was out is posted or back in the queue. -/
theorem Consistent.unlock (hs : s.Consistent spec size) {buffer : Buffer} (hb : buffer.Tracks spec size []) :
    ({ s with buffer, post := none } : World).Consistent spec size :=
  ⟨hb, nofun, nofun, hs.timer, hs.fresh⟩

theorem Running.unlock (ht : s.Running t kind) {buffer : Buffer} :
    ({ s with buffer, post := none } : World).Running t kind :=
  ⟨ht.timer, ht.known, nofun⟩

theorem Consistent.finishPost (hs : s.Consistent spec size) (ht : s.Running t kind) (hfree : s.post = none) :
    (s.finishPost t kind).Consistent spec size := by
  have hpost : ({ s with post := none } : World) = s := by rw [← hfree]
  unfold World.finishPost
  rw [hpost]
  dsimp only
  split
  · rename_i hother
    have hcancel := hs.cancelFlushTimer fun p hp => absurd hp (by rw [hfree]; exact nofun)
    refine hcancel.endTask ⟨?_, by simpa using ht.known, by simpa using ht.unlocked⟩
    have hkind : kind ≠ .timer := fun hk => hother.2 (ht.timer.2 hk)
    simp [hkind]
  · exact hs.endTask ht

theorem Consistent.postNext (hs : s.Consistent spec size) (ht : s.Running t kind) (hfree : s.post = none)
    (eventsRemaining : Nat) : (s.postNext spec size t kind eventsRemaining).Consistent spec size := by
  unfold World.postNext
  split
  · exact hs.finishPost ht hfree
  · rename_i hmore
    have htracks : s.buffer.Tracks spec size [] := by
      have h := hs.tracks
      rwa [inflight, hfree] at h
    obtain ⟨hfits, hle, -⟩ := htracks.takeBatch_fits hmore
    refine ⟨htracks.takeBatch eventsRemaining, ?_, ?_, fun u => ?_, fun u hu => ?_⟩
    · rintro p ⟨⟩
      exact ⟨kind, Function.update_self ..⟩
    · rintro p ⟨⟩
      exact ⟨hfits, hle⟩
    · show s.flushTimer = some u ↔ ∃ phase, Function.update s.task t _ u = _
      by_cases hu : u = t
      · subst hu
        rw [ht.timer]
        simp
      · rw [Function.update_of_ne hu]
        exact hs.timer u
    · have hne : u ≠ t := Nat.ne_of_gt (Nat.lt_of_lt_of_le ht.known hu)
      show Function.update s.task t _ u = none
      rw [Function.update_of_ne hne]
      exact hs.fresh u hu

theorem Consistent.acquired (hs : s.Consistent spec size) (ht : s.Running t kind) (hfree : s.post = none) :
    (s.acquired spec size t kind).Consistent spec size := by
  have htracks : s.buffer.Tracks spec size [] := by
    have h := hs.tracks
    rwa [inflight, hfree] at h
  have hb : ((s.buffer.syncQueueSizes size).trimQueue spec).Tracks spec size [] := by
    rw [htracks.sync]
    exact htracks.trimQueue
  have hunlock := hs.unlock hb
  rw [← hfree] at hunlock
  exact hunlock.postNext ⟨ht.timer, ht.known, ht.unlocked⟩ hfree _

theorem Consistent.postEvents (hs : s.Consistent spec size) (ht : s.Running t kind) :
    (s.postEvents spec size t kind).Consistent spec size := by
  unfold World.postEvents
  split
  · rename_i hlock
    exact hs.acquired ht hlock.1
  · exact hs.wait ht

/-- A call that goes to `_post_events` is a new task. -/
theorem Consistent.newTask (hs : s.Consistent spec size) :
    ({ s with nextTask := s.nextTask + 1 } : World).Consistent spec size :=
  ⟨hs.tracks, hs.owner, hs.fits, hs.timer, fun u hu => hs.fresh u (Nat.le_of_succ_le hu)⟩

theorem Consistent.running_newTask (hs : s.Consistent spec size) (hkind : kind ≠ .timer) :
    ({ s with nextTask := s.nextTask + 1 } : World).Running s.nextTask kind := by
  have hnone := hs.fresh _ (Nat.le_refl s.nextTask)
  refine ⟨iff_of_false (fun htimer => ?_) hkind, Nat.lt_succ_self _, fun p hp heq => ?_⟩
  · obtain ⟨phase, hu⟩ := (hs.timer _).1 htimer
    rw [hnone] at hu
    cases hu
  · obtain ⟨kind, hk⟩ := hs.owner p hp
    rw [heq, hnone] at hk
    cases hk

theorem Consistent.running (hs : s.Consistent spec size) {phase : Phase} (ht : s.task t = some ⟨kind, phase, false⟩)
    (hphase : phase ≠ .posting) : s.Running t kind := by
  refine ⟨?_, ?_, fun p hp heq => ?_⟩
  · rw [hs.timer, ht]
    simp
  · refine Nat.lt_of_not_le fun hle => ?_
    rw [hs.fresh t hle] at ht
    cases ht
  · obtain ⟨kind', hk⟩ := hs.owner p hp
    rw [heq, ht] at hk
    cases hk
    exact hphase rfl

theorem Consistent.publish (hs : s.Consistent spec size) (hsome : (size s.buffer.published).isSome) :
    (s.publish spec size).Consistent spec size := by
  have hb : ({ s with buffer := s.buffer.enqueue spec size } : World).Consistent spec size :=
    ⟨hs.tracks.enqueue hsome, hs.owner, hs.fits, hs.timer, hs.fresh⟩
  unfold World.publish
  rw [if_neg (by rw [Option.isNone_iff_eq_none]; exact Option.isSome_iff_ne_none.1 hsome)]
  dsimp only
  split
  · split
    · exact hb.startFlushTimer
    · rename_i hfree
      have hcancel := hb.cancelFlushTimer fun p hp => absurd hp (by rw [not_not.1 hfree]; exact nofun)
      exact hcancel.newTask.postEvents (hcancel.running_newTask nofun)
  · split
    · exact hb.startFlushTimer
    · exact hb

theorem Consistent.close (hs : s.Consistent spec size) (hfree : ∀ p, s.post = some p → s.flushTimer ≠ some p.task) :
    (s.close spec size).Consistent spec size := by
  have hclosed : ({ s with closed := true } : World).Consistent spec size :=
    ⟨hs.tracks, hs.owner, hs.fits, hs.timer, hs.fresh⟩
  have hcancel := hclosed.cancelFlushTimer hfree
  unfold World.close
  dsimp only
  split
  · exact hcancel.newTask.postEvents (hcancel.running_newTask nofun)
  · exact hcancel

/-- The task at the end of its post. -/
theorem Consistent.running_unlock (hs : s.Consistent spec size) {p : Post} (ht : s.task p.task = some ⟨kind, .posting, false⟩)
    {buffer : Buffer} : ({ s with buffer, post := none } : World).Running p.task kind := by
  refine ⟨?_, ?_, nofun⟩
  · rw [hs.timer, ht]
    simp
  · refine Nat.lt_of_not_le fun hle => ?_
    rw [hs.fresh _ hle] at ht
    cases ht

theorem Running.startFlushTimer (ht : s.Running t kind) : s.startFlushTimer.Running t kind := by
  unfold World.startFlushTimer
  split
  · rename_i hnone
    have hkind : kind ≠ .timer := by
      rintro rfl
      have h := ht.timer.2 rfl
      rw [hnone.2] at h
      cases h
    refine ⟨iff_of_false (fun h => ?_) hkind, Nat.lt_succ_of_lt ht.known, ht.unlocked⟩
    have heq : s.nextTask = t := Option.some.inj h
    exact Nat.ne_of_gt ht.known heq
  · exact ht

theorem startFlushTimer_unlocked :
    ({ s.startFlushTimer with post := none } : World) = { s with post := none }.startFlushTimer := by
  unfold World.startFlushTimer
  split <;> rfl

/-- A cancelled task is neither the flush timer nor the one that posts. -/
theorem Consistent.cancelled (hs : s.Consistent spec size) {phase : Phase} (ht : s.task t = some ⟨kind, phase, true⟩) :
    (∀ p, s.post = some p → p.task ≠ t) ∧ s.flushTimer ≠ some t := by
  refine ⟨?_, fun htimer => ?_⟩
  · rintro p hp rfl
    obtain ⟨kind, hk⟩ := hs.owner p hp
    rw [ht] at hk
    cases hk
  · obtain ⟨phase, hk⟩ := (hs.timer t).1 htimer
    rw [ht] at hk
    cases hk

theorem Consistent.removeCancelled (hs : s.Consistent spec size) {phase : Phase}
    (ht : s.task t = some ⟨kind, phase, true⟩) : (s.setTask t none).Consistent spec size := by
  obtain ⟨hpost, htimer⟩ := hs.cancelled ht
  refine ⟨hs.tracks, fun p hp => ?_, hs.fits, fun u => ?_, fun u hu => ?_⟩
  · show ∃ kind, Function.update s.task t none p.task = _
    rw [Function.update_of_ne (hpost p hp)]
    exact hs.owner p hp
  · show s.flushTimer = some u ↔ ∃ phase, Function.update s.task t none u = _
    by_cases hu : u = t
    · subst hu
      simp [htimer]
    · rw [Function.update_of_ne hu]
      exact hs.timer u
  · show Function.update s.task t none u = none
    by_cases hu' : u = t
    · subst hu'
      exact Function.update_self ..
    · rw [Function.update_of_ne hu']
      exact hs.fresh u hu

theorem cancelled_of_interrupted {s' : World} (h : s.step spec size (.interrupted t) = some s') :
    ∃ kind phase, s.task t = some ⟨kind, phase, true⟩ := by
  simp only [World.step] at h
  split at h
  · rename_i kind phase ht
    exact ⟨kind, phase, ht⟩
  · cases h

/-- The lock of a cancelled task that posts is the one way to lose a batch. -/
theorem Consistent.step_interrupted (hs : s.Consistent spec size) {phase : Phase}
    (ht : s.task t = some ⟨kind, phase, true⟩) : s.step spec size (.interrupted t) = some (s.setTask t none) := by
  obtain ⟨hpost, htimer⟩ := hs.cancelled ht
  have hany : s.post.any (fun p => decide (p.task = t)) = false := by
    cases hp : s.post with
    | none => rfl
    | some p => exact decide_eq_false (hpost p hp)
  simp [World.step, ht, hany, htimer]

theorem Consistent.step {s' : World} {a : Action} (hs : s.Consistent spec size) (hok : s.Allowed spec size a)
    (h : s.step spec size a = some s') : s'.Consistent spec size := by
  cases a with
  | publish =>
    cases h
    exact hs.publish hok
  | fire t =>
    simp only [World.step] at h
    split at h
    · rename_i ht
      cases h
      split
      · exact hs.postEvents (hs.running ht nofun)
      · exact hs.endTask (hs.running ht nofun)
    · cases h
  | acquire t =>
    simp only [World.step] at h
    split at h
    · rename_i ht hfree
      cases h
      exact hs.acquired (hs.running ht nofun) hfree
    · cases h
  | posted ok =>
    simp only [World.step] at h
    split at h
    · cases h
    · rename_i p hp
      split at h
      · rename_i kind ht
        have htracks : s.buffer.Tracks spec size p.batch := by
          have h := hs.tracks
          rwa [inflight, hp] at h
        split at h
        · rename_i hgood
          cases h
          have hbatch := (hs.fits p hp).1.bounded (hok hgood p hp)
          exact (hs.unlock (htracks.deliver hbatch)).postNext (hs.running_unlock ht) rfl _
        · cases h
          rw [startFlushTimer_unlocked]
          exact (hs.unlock htracks.requeue).startFlushTimer.endTask (hs.running_unlock ht).startFlushTimer
      · cases h
  | interrupted t =>
    obtain ⟨kind, phase, ht⟩ := cancelled_of_interrupted h
    rw [hs.step_interrupted ht] at h
    cases h
    exact hs.removeCancelled ht
  | close =>
    cases h
    exact hs.close hok

end Consistent

section Attended
variable {spec : WebhookSpec} {size : EventId → Option Nat} {s : World} {t : TaskId} {kind : Kind}

/-- Somebody else will look after the queue. -/
def Relieved (s : World) (t : TaskId) : Prop :=
  s.flushTimer ≠ none ∨ ∃ u ≠ t, ∃ kind, s.task u = some ⟨kind, .waiting, false⟩

theorem attended_of_armed (harmed : s.closed = false → s.flushTimer ≠ none) : s.Attended :=
  fun hopen => .inl (harmed hopen)

theorem attended_endTask (hfree : s.post = none)
    (h : s.closed = false → s.buffer.queue ≠ [] → s.Relieved t) : (s.endTask t kind).Attended := by
  intro hopen
  rw [endTask_closed] at hopen
  by_cases hq : s.buffer.queue = []
  · refine .inr (.inr ?_)
    rw [endTask_post, hfree, endTask_buffer]
    exact hq
  · have hstay : (s.setTask t none).flushTimer ≠ none ∨ (s.setTask t none).Waiter := by
      rcases h hopen hq with harmed | ⟨u, hu, kind', hk⟩
      · exact .inl harmed
      · refine .inr ⟨u, kind', ?_⟩
        show Function.update s.task t none u = _
        rw [Function.update_of_ne hu]
        exact hk
    cases kind with
    | publisher | closer => exact hstay.imp_right .inl
    | timer =>
      refine .inl ?_
      unfold World.endTask
      dsimp only
      rw [if_pos (show (s.setTask t none).buffer.queue ≠ [] from hq)]
      apply startFlushTimer_armed
      split <;> exact hopen

theorem attended_finishPost (hfree : s.post = none)
    (h : s.closed = false → s.buffer.queue ≠ [] → s.Relieved t) : (s.finishPost t kind).Attended := by
  have hpost : ({ s with post := none } : World) = s := by rw [← hfree]
  unfold World.finishPost
  rw [hpost]
  dsimp only
  split
  · rename_i hempty
    exact attended_endTask (by simpa using hfree) fun _ hq => absurd hempty.1 (by simpa using hq)
  · exact attended_endTask hfree h

theorem attended_postNext (hs : s.Consistent spec size) (hfree : s.post = none) {eventsRemaining : Nat}
    (h : s.closed = false → s.Relieved t ∨ s.buffer.queue.length ≤ eventsRemaining) :
    (s.postNext spec size t kind eventsRemaining).Attended := by
  unfold World.postNext
  split
  · rename_i hzero
    refine attended_finishPost hfree fun hopen hq => (h hopen).resolve_right fun hle => hq ?_
    exact List.length_eq_zero_iff.1 (Nat.le_zero.1 (hzero ▸ hle))
  · rename_i hmore
    intro hopen
    rcases h hopen with (harmed | ⟨u, hu, kind', hk⟩) | hle
    · exact .inl harmed
    · refine .inr (.inl ⟨u, kind', ?_⟩)
      show Function.update s.task t _ u = _
      rw [Function.update_of_ne hu]
      exact hk
    · have htracks : s.buffer.Tracks spec size [] := by
        have h := hs.tracks
        rwa [inflight, hfree] at h
      obtain ⟨-, -, hall⟩ := htracks.takeBatch_fits hmore
      refine .inr (.inr ?_)
      dsimp only
      omega

theorem attended_acquired (hs : s.Consistent spec size) (hfree : s.post = none) :
    (s.acquired spec size t kind).Attended := by
  have htracks : s.buffer.Tracks spec size [] := by
    have h := hs.tracks
    rwa [inflight, hfree] at h
  have hb : ((s.buffer.syncQueueSizes size).trimQueue spec).Tracks spec size [] := by
    rw [htracks.sync]
    exact htracks.trimQueue
  have hunlock := hs.unlock hb
  rw [← hfree] at hunlock
  exact attended_postNext hunlock hfree fun _ => .inr (Nat.le_refl _)

theorem attended_postEvents (hs : s.Consistent spec size) : (s.postEvents spec size t kind).Attended := by
  unfold World.postEvents
  split
  · rename_i hlock
    exact attended_acquired hs hlock.1
  · exact fun _ => .inr (.inl ⟨t, kind, Function.update_self ..⟩)

theorem attended_publish (hs : s.Consistent spec size) (hsome : (size s.buffer.published).isSome) :
    (s.publish spec size).Attended := by
  have hb : ({ s with buffer := s.buffer.enqueue spec size } : World).Consistent spec size :=
    ⟨hs.tracks.enqueue hsome, hs.owner, hs.fits, hs.timer, hs.fresh⟩
  unfold World.publish
  rw [if_neg (by rw [Option.isNone_iff_eq_none]; exact Option.isSome_iff_ne_none.1 hsome)]
  dsimp only
  split
  · split
    · exact attended_of_armed fun hopen => startFlushTimer_armed (by simpa using hopen)
    · rename_i hfree
      have hcancel := hb.cancelFlushTimer fun p hp => absurd hp (by rw [not_not.1 hfree]; exact nofun)
      exact attended_postEvents hcancel.newTask
  · split
    · exact attended_of_armed fun hopen => startFlushTimer_armed (by simpa using hopen)
    · -- Everything was too much for the queue, the new event too.
      rename_i hempty
      intro hopen
      refine .inr (.inr ?_)
      rw [not_not] at hempty
      cases hp : s.post with
      | none => exact hempty
      | some p =>
        show (s.buffer.enqueue spec size).queue.length + p.batch.length ≤ p.eventsRemaining
        rw [hempty]
        have hle := (hs.fits p hp).2
        simpa using hle

theorem attended_of_closed (hclosed : s.closed = true) : s.Attended := by
  intro hopen
  rw [hclosed] at hopen
  cases hopen

@[simp] theorem finishPost_closed : (s.finishPost t kind).closed = s.closed := by
  unfold World.finishPost
  dsimp only
  split <;> simp

@[simp] theorem postEvents_closed : (s.postEvents spec size t kind).closed = s.closed := by
  unfold World.postEvents World.acquired World.postNext
  split
  · dsimp only
    split <;> simp [setTask]
  · rfl

theorem attended_close : (s.close spec size).Attended := by
  apply attended_of_closed
  unfold World.close
  dsimp only
  split <;> simp

theorem attended_fire {s' : World} (hs : s.Consistent spec size) (h : s.step spec size (.fire t) = some s') :
    s'.Attended := by
  simp only [World.step] at h
  split at h
  · cases h
    split
    · exact attended_postEvents hs
    · rename_i hempty
      rw [not_not] at hempty
      -- Nothing is there to be sent.
      intro hopen
      refine .inr (.inr ?_)
      rw [endTask_post, endTask_buffer, hempty]
      cases hp : s.post with
      | none => rfl
      | some p =>
        have hle := (hs.fits p hp).2
        simpa using hle
  · cases h

theorem attended_posted {s' : World} {ok : Bool} (hs : s.Consistent spec size) (hatt : s.Attended)
    (hok : s.Allowed spec size (.posted ok)) (h : s.step spec size (.posted ok) = some s') : s'.Attended := by
  simp only [World.step] at h
  split at h
  · cases h
  · rename_i p hp
    split at h
    · rename_i kind ht
      have htracks : s.buffer.Tracks spec size p.batch := by
        have h := hs.tracks
        rwa [inflight, hp] at h
      have hle := (hs.fits p hp).2
      split at h
      · rename_i hgood
        cases h
        -- The batch was delivered, and the next one is taken if there is enough.
        have hbatch := (hs.fits p hp).1.bounded (hok hgood p hp)
        refine attended_postNext (hs.unlock (htracks.deliver hbatch)) rfl fun hopen => ?_
        rcases hatt hopen with harmed | ⟨u, kind', hk⟩ | hrest
        · exact .inl (.inl harmed)
        · refine .inl (.inr ⟨u, ?_, kind', hk⟩)
          rintro rfl
          rw [ht] at hk
          cases hk
        · rw [hp] at hrest
          dsimp only at hrest ⊢
          refine .inr ?_
          split <;> omega
      · cases h
        -- The post failed: the timer is set again.
        rw [startFlushTimer_unlocked]
        refine attended_endTask (by simp) fun hopen _ => .inl (startFlushTimer_armed ?_)
        simpa using hopen
    · cases h

theorem attended_interrupted {s' : World} (hs : s.Consistent spec size) (hatt : s.Attended)
    (h : s.step spec size (.interrupted t) = some s') : s'.Attended := by
  obtain ⟨kind, phase, ht⟩ := cancelled_of_interrupted h
  rw [hs.step_interrupted ht] at h
  cases h
  intro hopen
  rcases hatt hopen with harmed | ⟨u, kind', hk⟩ | hrest
  · exact .inl harmed
  · refine .inr (.inl ⟨u, kind', ?_⟩)
    show Function.update s.task t none u = _
    rw [Function.update_of_ne ?_, hk]
    rintro rfl
    rw [ht] at hk
    cases hk
  · exact .inr (.inr hrest)

theorem attended_step {s' : World} {a : Action} (hs : s.Consistent spec size) (hatt : s.Attended)
    (hok : s.Allowed spec size a) (h : s.step spec size a = some s') : s'.Attended := by
  cases a with
  | publish =>
    cases h
    exact attended_publish hs hok
  | fire t => exact attended_fire hs h
  | acquire t =>
    simp only [World.step] at h
    split at h
    · rename_i ht hfree
      cases h
      exact attended_acquired hs hfree
    · cases h
  | posted ok => exact attended_posted hs hatt hok h
  | interrupted t => exact attended_interrupted hs hatt h
  | close =>
    cases h
    exact attended_close

theorem Consistent.sound (hs : s.Consistent spec size) (hatt : s.Attended) : s.Sound spec size := by
  refine ⟨fun e he => ?_, hs.tracks.drops, (List.pairwise_append.1 hs.tracks.order).1, hs.tracks.batches,
    hs.tracks.bytes, fun hopen hq => ?_⟩
  · rcases hs.tracks.accounted e he with hmem | hdrop
    · rcases List.mem_append.1 hmem with hposted | hmem
      · exact .inl hposted
      · rcases List.mem_append.1 hmem with hout | hqueued
        · cases hp : s.post with
          | none =>
            rw [inflight, hp] at hout
            cases hout
          | some p =>
            rw [inflight, hp] at hout
            exact .inr (.inr (.inr ⟨p, rfl, hout⟩))
        · exact .inr (.inr (.inl hqueued))
    · exact .inr (.inl hdrop)
  · rcases hatt hopen with harmed | ⟨t, kind, hk⟩ | hrest
    · obtain ⟨t, ht⟩ := Option.ne_none_iff_exists'.1 harmed
      obtain ⟨phase, hphase⟩ := (hs.timer t).1 ht
      exact .inl ⟨t, phase, ht, hphase⟩
    · exact .inr ⟨t, kind, .waiting, hk, .inl rfl⟩
    · cases hp : s.post with
      | none =>
        rw [hp] at hrest
        exact absurd hrest hq
      | some p =>
        obtain ⟨kind, hk⟩ := hs.owner p hp
        exact .inr ⟨p.task, kind, .posting, hk, .inr rfl⟩

end Attended

theorem consistent_init (spec : WebhookSpec) (size : EventId → Option Nat) : Consistent spec size {} := by
  refine ⟨⟨rfl, rfl, List.Pairwise.nil, nofun, nofun, nofun, nofun⟩, nofun, nofun, fun t => ?_, fun _ _ => rfl⟩
  exact iff_of_false nofun nofun

/-- Nothing is lost but by the limits, in order, in bounded batches, and never
without somebody to post it, unless `close` cancels the flush timer in its post. -/
theorem delivers_of_reaches (spec : WebhookSpec) (size : EventId → Option Nat) {s : World}
    (h : Reaches (step spec size) (Allowed spec size) {} s) : s.Sound spec size := by
  have hinv : s.Consistent spec size ∧ s.Attended := by
    refine h.invariant (I := fun s => s.Consistent spec size ∧ s.Attended)
      ⟨consistent_init spec size, fun _ => .inr (.inr rfl)⟩ ?_
    intro s a t hs hok ht
    exact ⟨hs.1.step hok ht, attended_step hs.1 hs.2 hok ht⟩
  exact hinv.1.sound hinv.2

/-- A batch of two, one event that waits through a failed post, and a close. -/
theorem delivers_of_reaches_closed : ∃ s : World, s.Sound { eventBufferSize := 2 } (fun _ => some 10) ∧
    s.buffer.posted = [[0, 1], [2]] ∧ s.closed = true := by
  have hrun : (execAllowed (step { eventBufferSize := 2 } fun _ => some 10) (Allowed { eventBufferSize := 2 } fun _ => some 10)
      {} [.publish, .publish, .posted false, .fire 2, .publish, .posted true, .close, .posted true]).map
        (fun s => (s.buffer.posted, s.closed)) = some ([[0, 1], [2]], true) := by
    decide +kernel
  obtain ⟨s, hs, heq⟩ := Option.map_eq_some_iff.1 hrun
  have hreach := reaches_of_execAllowed .init hs
  exact ⟨s, delivers_of_reaches { eventBufferSize := 2 } _ hreach, congrArg Prod.fst heq, congrArg Prod.snd heq⟩

/-- `close` while the flush timer posts: its batch is neither posted nor queued. -/
theorem close_loses_batch : ¬ ∀ s, Reaches (step {} fun _ => some 10) (fun _ _ => True) {} s →
    s.Sound {} (fun _ => some 10) := by
  intro h
  have hrun : (exec (step {} fun _ => some 10) {} [.publish, .fire 0, .close, .interrupted 0]).map
      (fun s => (s.buffer, s.post)) = some ({ published := 1 }, none) := by
    decide +kernel
  obtain ⟨s, hs, heq⟩ := Option.map_eq_some_iff.1 hrun
  have hbuffer : s.buffer = { published := 1 } := congrArg Prod.fst heq
  have hpost : s.post = none := congrArg Prod.snd heq
  have hacc := (h s (reaches_of_exec .init hs)).accounted 0
  simp [hbuffer, hpost] at hacc

end World

end AgentSdk.WebhookSubscriber
