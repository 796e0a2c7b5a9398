import AgentSdk.Lib.Runs
import Mathlib.Logic.Basic
/-!
# Telemetry sink

`BufferedTelemetrySink`: a bounded queue that a drain task ships in batches. The
settings endpoint writes the stored decision and then pushes it to the sink; the
drain task also reads the stored decision from time to time. The steps are what
runs between two awaits, or in the thread of the settings endpoint or of the reader.
-/

namespace AgentSdk
open Lib

inductive TelemetryConsent where
  | granted
  | denied
  | unset
deriving DecidableEq, Repr

inductive DecisionReason where
  | killSwitch
  | envOverride
  | settings
  | legacySettings
  | envSeed
  | default
deriving DecidableEq, Repr

structure TelemetryDecision where
  consent : TelemetryConsent
  enabled : Bool
  reason : DecisionReason
  managed : Bool := false
deriving DecidableEq, Repr

structure SinkConfig where
  maxQueueSize : Nat := 1000
  eventBufferSize : Nat := 20
  numRetries : Nat := 2
  hasReader : Bool := true

namespace SinkConfig

def queueMax (c : SinkConfig) : Nat := max 1 c.maxQueueSize

def bufferSize (c : SinkConfig) : Nat := max 1 c.eventBufferSize

end SinkConfig

/-- A queued event with the number of disabling decisions before it was
accepted, which is kept for the statement only. -/
structure Accepted (ε : Type) where
  event : ε
  epoch : Nat
deriving DecidableEq, Repr

/-- An export that was started: the events, the number of disabling decisions
so far, and whether the last pushed decision was a disabling one. -/
structure Export (ε : Type) where
  batch : List (Accepted ε)
  epoch : Nat
  revoked : Bool
deriving DecidableEq, Repr

/-- Where the drain task is; `read` is what the reader has read. -/
inductive DrainPc (ε : Type) where
  | notStarted
  | waiting
  | refreshing (read : Option TelemetryDecision)
  | sending (batch : List (Accepted ε)) (attempt : Nat)
  | sleeping (batch : List (Accepted ε)) (attempt : Nat)
  | backingOff
  | stopped
deriving Repr

inductive ClosePc where
  | opened
  | closing
  | flushed
deriving DecidableEq, Repr

inductive SinkOp (ε : Type) where
  | start
  | emit (event : ε)
  | settings (d : TelemetryDecision)
  | push
  | wake (stale : Bool)
  | read
  | refreshed
  | refreshFailed
  | sent
  | sendFailed
  | retry
  | rested
  | aclose
  | flush

/-- The stored decision with the changes not yet pushed, and the sink. Kept for
the statement only: the exports that were started, the number of disabling
decisions applied, that number when the last batch was taken, and whether the
last pushed decision was a disabling one. -/
structure SinkWorld (ε : Type) where
  stored : TelemetryDecision
  unpushed : List TelemetryDecision := []
  decision : TelemetryDecision
  queue : List (Accepted ε) := []
  droppedCount : Nat := 0
  failureStreak : Nat := 0
  drain : DrainPc ε := .notStarted
  closed : ClosePc := .opened
  exports : List (Export ε) := []
  epoch : Nat := 0
  takenAt : Nat := 0
  revoked : Bool := false

namespace SinkWorld
variable {ε : Type}

/-- `_apply_decision`. -/
def applyDecision (s : SinkWorld ε) (d : TelemetryDecision) : SinkWorld ε :=
  { s with
    decision := d
    queue := if s.decision.enabled ∧ ¬ d.enabled then [] else s.queue
    epoch := if d.enabled then s.epoch else s.epoch + 1 }

def emit (c : SinkConfig) (s : SinkWorld ε) (event : ε) : SinkWorld ε :=
  if s.decision.enabled ∧ s.closed = .opened then
    if s.queue.length = c.queueMax then
      { s with queue := s.queue.tail ++ [⟨event, s.epoch⟩], droppedCount := s.droppedCount + 1 }
    else { s with queue := s.queue ++ [⟨event, s.epoch⟩] }
  else s

/-- The exporter's `send` begins. -/
def startExport (s : SinkWorld ε) (batch : List (Accepted ε)) : SinkWorld ε :=
  { s with exports := s.exports ++ [⟨batch, s.epoch, s.revoked⟩] }

/-- One attempt of `_dispatch`. -/
def dispatch (s : SinkWorld ε) (batch : List (Accepted ε)) (attempt : Nat) : SinkWorld ε :=
  if s.decision.enabled then { s.startExport batch with drain := .sending batch attempt }
  else { s with drain := .waiting }

/-- The drain loop after the refresh, up to its next await. -/
def drainQueue (c : SinkConfig) (s : SinkWorld ε) : SinkWorld ε :=
  if ¬ s.decision.enabled then { s with queue := [], drain := .waiting }
  else if s.queue = [] then { s with drain := .waiting }
  else
    dispatch { s with queue := s.queue.drop c.bufferSize, takenAt := s.epoch } (s.queue.take c.bufferSize) 0

/-- `aclose` cancels the drain task, which takes no further step. -/
def step (c : SinkConfig) (s : SinkWorld ε) : SinkOp ε → Option (SinkWorld ε)
  | .start =>
    match s.drain with
    | .notStarted => if s.closed = .opened then some { s with drain := .waiting } else none
    | _ => none
  | .emit event => some (s.emit c event)
  | .settings d => some { s with stored := d, unpushed := s.unpushed ++ [d] }
  | .push =>
    match s.unpushed with
    | d :: ds => some { s.applyDecision d with unpushed := ds, revoked := ! d.enabled }
    | [] => none
  | .wake stale =>
    match s.drain with
    | .waiting => if c.hasReader ∧ stale then some { s with drain := .refreshing none } else some (s.drainQueue c)
    | _ => none
  | .read =>
    match s.drain with
    | .refreshing none => some { s with drain := .refreshing (some s.stored) }
    | _ => none
  | .refreshed =>
    match s.drain with
    | .refreshing (some d) => some (if d ≠ s.decision then (s.applyDecision d).drainQueue c else s.drainQueue c)
    | _ => none
  | .refreshFailed =>
    match s.drain with
    | .refreshing _ => some (s.drainQueue c)
    | _ => none
  | .sent =>
    match s.drain with
    | .sending _ _ => some { s with drain := .waiting, failureStreak := 0 }
    | _ => none
  | .sendFailed =>
    match s.drain with
    | .sending batch attempt =>
      if attempt < c.numRetries then some { s with drain := .sleeping batch (attempt + 1) }
      else
        some { s with
          drain := .backingOff
          failureStreak := s.failureStreak + 1
          droppedCount := s.droppedCount + batch.length }
    | _ => none
  | .retry =>
    match s.drain with
    | .sleeping batch attempt => some (s.dispatch batch attempt)
    | _ => none
  | .rested =>
    match s.drain with
    | .backingOff => some { s with drain := .waiting }
    | _ => none
  | .aclose =>
    if s.closed = .opened then
      some { s with
        closed := .closing
        drain := match s.drain with | .notStarted => .notStarted | _ => .stopped }
    else none
  | .flush =>
    if s.closed = .closing then
      let flushed : SinkWorld ε := { s with closed := .flushed, queue := [] }
      some (if s.decision.enabled ∧ s.queue ≠ [] then flushed.startExport s.queue else flushed)
    else none

/-- A new sink: the decision was read from the store just before. -/
def initial (d : TelemetryDecision) : SinkWorld ε := { stored := d, decision := d }

/-! ## What has to hold -/

structure Honoured (s : SinkWorld ε) : Prop where
  noExport : ∀ x ∈ s.exports, x.revoked = false
  noOldEvent : ∀ x ∈ s.exports, ∀ e ∈ x.batch, e.epoch = x.epoch

end SinkWorld

/-- The condition of a step: a refresh does not turn on what the last push
turned off, and no retry finds telemetry on again after a decision that turned it
off since the batch was taken. -/
def SinkOp.Allowed {ε : Type} (s : SinkWorld ε) : SinkOp ε → Prop
  | .refreshed =>
    match s.drain with
    | .refreshing (some d) => d.enabled → s.revoked = false
    | _ => True
  | .retry => s.decision.enabled → s.takenAt = s.epoch
  | _ => True

instance SinkOp.allowedDecidable {ε : Type} (s : SinkWorld ε) (op : SinkOp ε) : Decidable (op.Allowed s) := by
  cases op <;> unfold SinkOp.Allowed <;> dsimp only <;> try infer_instance
  split <;> infer_instance

namespace SinkWorld
variable {ε : Type}

/-! ## The invariant -/

structure Consistent (s : SinkWorld ε) : Prop extends s.Honoured where
  revokedOff : s.revoked = true → s.decision.enabled = false
  offEmpty : s.decision.enabled = false → s.queue = []
  queued : ∀ e ∈ s.queue, e.epoch = s.epoch
  held : ∀ batch attempt, s.drain = .sending batch attempt ∨ s.drain = .sleeping batch attempt →
    ∀ e ∈ batch, e.epoch = s.takenAt

section Steps
variable {c : SinkConfig} {s t : SinkWorld ε}

attribute [local simp] SinkWorld.step

/-- Nothing that the invariant speaks of changes but the place of the drain task. -/
theorem Consistent.move (hs : s.Consistent) {pc : DrainPc ε}
    (hpc : ∀ batch attempt, pc = .sending batch attempt ∨ pc = .sleeping batch attempt → ∀ e ∈ batch, e.epoch = s.takenAt) :
    ({ s with drain := pc } : SinkWorld ε).Consistent :=
  ⟨⟨hs.noExport, hs.noOldEvent⟩, hs.revokedOff, hs.offEmpty, hs.queued, hpc⟩

theorem Consistent.applyDecision (hs : s.Consistent) (d : TelemetryDecision)
    (hd : d.enabled = true → s.revoked = false) : (s.applyDecision d).Consistent := by
  refine ⟨⟨hs.noExport, hs.noOldEvent⟩, fun hrevoked => ?_, fun hoff => ?_, fun e he => ?_, hs.held⟩
  · cases hon : d.enabled with
    | false => exact hon
    | true =>
      have hnot : s.revoked = true := hrevoked
      rw [hd hon] at hnot
      cases hnot
  · have hd' : d.enabled = false := hoff
    cases hon : s.decision.enabled with
    | true => simp [SinkWorld.applyDecision, hon, hd']
    | false =>
      have hempty := hs.offEmpty hon
      simp [SinkWorld.applyDecision, hon, hempty]
  · cases hon : d.enabled with
    | true =>
      simp only [SinkWorld.applyDecision, hon] at he ⊢
      exact hs.queued e (by simpa using he)
    | false =>
      -- The queue is empty now, whether or not telemetry was on.
      cases hwas : s.decision.enabled with
      | true => simp [SinkWorld.applyDecision, hwas, hon] at he
      | false => simp [SinkWorld.applyDecision, hwas, hs.offEmpty hwas] at he

theorem Consistent.emit (hs : s.Consistent) (event : ε) : (s.emit c event).Consistent := by
  unfold SinkWorld.emit
  split
  · rename_i hopen
    have hoff : ∀ {q : List (Accepted ε)}, s.decision.enabled = false → q = [] := by
      intro q hoff
      rw [hoff] at hopen
      cases hopen.1
    split
    · refine ⟨⟨hs.noExport, hs.noOldEvent⟩, hs.revokedOff, hoff, fun e he => ?_, hs.held⟩
      rcases List.mem_append.1 he with he | he
      · exact hs.queued e (List.mem_of_mem_tail he)
      · rw [List.mem_singleton.1 he]
    · refine ⟨⟨hs.noExport, hs.noOldEvent⟩, hs.revokedOff, hoff, fun e he => ?_, hs.held⟩
      rcases List.mem_append.1 he with he | he
      · exact hs.queued e he
      · rw [List.mem_singleton.1 he]
  · exact hs

/-- An export may start when telemetry is on and no disabling decision came
after its events. -/
theorem Consistent.startExport (hs : s.Consistent) (hon : s.decision.enabled = true) {batch : List (Accepted ε)}
    (hbatch : ∀ e ∈ batch, e.epoch = s.epoch) : (s.startExport batch).Consistent := by
  have hrevoked : s.revoked = false := by
    cases hr : s.revoked with
    | false => rfl
    | true =>
      have hoff := hs.revokedOff hr
      rw [hon] at hoff
      cases hoff
  refine ⟨⟨fun x hx => ?_, fun x hx => ?_⟩, hs.revokedOff, hs.offEmpty, hs.queued, hs.held⟩
  · rcases List.mem_append.1 hx with hx | hx
    · exact hs.noExport x hx
    · rw [List.mem_singleton.1 hx]
      exact hrevoked
  · rcases List.mem_append.1 hx with hx | hx
    · exact hs.noOldEvent x hx
    · rw [List.mem_singleton.1 hx]
      exact hbatch

theorem Consistent.dispatch (hs : s.Consistent) {batch : List (Accepted ε)} (attempt : Nat)
    (htaken : ∀ e ∈ batch, e.epoch = s.takenAt) (hfresh : s.decision.enabled = true → s.takenAt = s.epoch) :
    (s.dispatch batch attempt).Consistent := by
  unfold SinkWorld.dispatch
  split
  · rename_i hon
    refine (hs.startExport hon fun e he => (htaken e he).trans (hfresh hon)).move ?_
    rintro batch' attempt' (h | h)
    · cases h
      exact htaken
    · cases h
  · exact hs.move nofun

theorem Consistent.drainQueue (hs : s.Consistent) : (s.drainQueue c).Consistent := by
  unfold SinkWorld.drainQueue
  split
  · exact ⟨⟨hs.noExport, hs.noOldEvent⟩, hs.revokedOff, fun _ => rfl, nofun, nofun⟩
  · split
    · exact hs.move nofun
    · rename_i hon _
      rw [not_not] at hon
      have htaken : ({ s with queue := s.queue.drop c.bufferSize, takenAt := s.epoch, drain := .waiting } :
          SinkWorld ε).Consistent := by
        refine ⟨⟨hs.noExport, hs.noOldEvent⟩, hs.revokedOff, fun hoff => ?_, fun e he => ?_, nofun⟩
        · rw [hs.offEmpty hoff, List.drop_nil]
        · exact hs.queued e (List.mem_of_mem_drop he)
      exact htaken.dispatch 0 (fun e he => hs.queued e (List.mem_of_mem_take he)) fun _ => rfl

theorem Consistent.push (hs : s.Consistent) (h : s.step c .push = some t) : t.Consistent := by
  simp only [SinkWorld.step] at h
  split at h
  · rename_i d ds _
    cases h
    -- The pushed decision settles by itself whether the last push is a disabling one.
    have hfree : ({ s with revoked := false } : SinkWorld ε).Consistent :=
      ⟨⟨hs.noExport, hs.noOldEvent⟩, nofun, hs.offEmpty, hs.queued, hs.held⟩
    have happ := hfree.applyDecision d fun _ => rfl
    refine ⟨⟨happ.noExport, happ.noOldEvent⟩, fun hrevoked => ?_, happ.offEmpty, happ.queued, happ.held⟩
    show d.enabled = false
    simpa using hrevoked
  · cases h

theorem Consistent.wake {stale : Bool} (hs : s.Consistent) (h : s.step c (.wake stale) = some t) : t.Consistent := by
  simp only [SinkWorld.step] at h
  split at h
  · split at h
    · cases h
      exact hs.move nofun
    · cases h
      exact hs.drainQueue
  · cases h

theorem Consistent.refreshed (hs : s.Consistent) (hok : (SinkOp.refreshed : SinkOp ε).Allowed s)
    (h : s.step c .refreshed = some t) : t.Consistent := by
  simp only [SinkWorld.step] at h
  split at h
  · rename_i d hpc
    cases h
    simp only [SinkOp.Allowed, hpc] at hok
    split
    · exact (hs.applyDecision d hok).drainQueue
    · exact hs.drainQueue
  · cases h

theorem Consistent.sendFailed (hs : s.Consistent) (h : s.step c .sendFailed = some t) : t.Consistent := by
  simp only [SinkWorld.step] at h
  split at h
  · rename_i batch attempt hpc
    split at h
    · cases h
      refine hs.move ?_
      rintro batch' attempt' (h | h)
      · cases h
      · cases h
        exact hs.held batch attempt (.inl hpc)
    · cases h
      exact ⟨⟨hs.noExport, hs.noOldEvent⟩, hs.revokedOff, hs.offEmpty, hs.queued, nofun⟩
  · cases h

theorem Consistent.retry (hs : s.Consistent) (hok : (SinkOp.retry : SinkOp ε).Allowed s)
    (h : s.step c .retry = some t) : t.Consistent := by
  simp only [SinkWorld.step] at h
  split at h
  · rename_i batch attempt hpc
    cases h
    exact hs.dispatch attempt (hs.held batch attempt (.inr hpc)) hok
  · cases h

theorem Consistent.aclose (hs : s.Consistent) (h : s.step c .aclose = some t) : t.Consistent := by
  simp only [SinkWorld.step] at h
  split at h
  · cases h
    refine ⟨⟨hs.noExport, hs.noOldEvent⟩, hs.revokedOff, hs.offEmpty, hs.queued, fun batch attempt hpc => ?_⟩
    dsimp only at hpc
    split at hpc <;> rcases hpc with hpc | hpc <;> cases hpc
  · cases h

theorem Consistent.flush (hs : s.Consistent) (h : s.step c .flush = some t) : t.Consistent := by
  simp only [SinkWorld.step] at h
  split at h
  · cases h
    have hempty : ({ s with closed := .flushed, queue := [] } : SinkWorld ε).Consistent :=
      ⟨⟨hs.noExport, hs.noOldEvent⟩, hs.revokedOff, fun _ => rfl, nofun, hs.held⟩
    split
    · rename_i hon
      exact hempty.startExport hon.1 hs.queued
    · exact hempty
  · cases h

theorem Consistent.step {op : SinkOp ε} (hs : s.Consistent) (hok : op.Allowed s) (h : s.step c op = some t) :
    t.Consistent := by
  cases op with
  | start =>
    simp only [SinkWorld.step] at h
    split at h
    · split at h
      · cases h
        exact hs.move nofun
      · cases h
    · cases h
  | emit event =>
    cases h
    exact hs.emit event
  | settings d =>
    cases h
    exact ⟨⟨hs.noExport, hs.noOldEvent⟩, hs.revokedOff, hs.offEmpty, hs.queued, hs.held⟩
  | push => exact hs.push h
  | wake stale => exact hs.wake h
  | read =>
    simp only [SinkWorld.step] at h
    split at h
    · cases h
      exact hs.move nofun
    · cases h
  | refreshed => exact hs.refreshed hok h
  | refreshFailed =>
    simp only [SinkWorld.step] at h
    split at h
    · cases h
      exact hs.drainQueue
    · cases h
  | sent =>
    simp only [SinkWorld.step] at h
    split at h
    · cases h
      exact ⟨⟨hs.noExport, hs.noOldEvent⟩, hs.revokedOff, hs.offEmpty, hs.queued, nofun⟩
    · cases h
  | sendFailed => exact hs.sendFailed h
  | retry => exact hs.retry hok h
  | rested =>
    simp only [SinkWorld.step] at h
    split at h
    · cases h
      exact hs.move nofun
    · cases h
  | aclose => exact hs.aclose h
  | flush => exact hs.flush h

end Steps

theorem consistent_initial (d : TelemetryDecision) : (initial d : SinkWorld ε).Consistent :=
  ⟨⟨nofun, nofun⟩, nofun, fun _ => rfl, nofun, nofun⟩

/-- In every run whose steps meet the condition, consent is honoured. -/
theorem honoured_of_reaches (c : SinkConfig) (d : TelemetryDecision) {s : SinkWorld ε}
    (h : Reaches (step c) (fun s op => op.Allowed s) (initial d) s) : s.Honoured := by
  refine Consistent.toHonoured ?_
  exact h.invariant (consistent_initial d) fun _ _ _ hs hok ht => hs.step hok ht

/-! ## Runs -/

def granted : TelemetryDecision := { consent := .granted, enabled := true, reason := .settings }

def denied : TelemetryDecision := { consent := .denied, enabled := false, reason := .settings }

/-- An export fails, telemetry is turned off before the retry and on after it. -/
def revokedOps : List (SinkOp Nat) :=
  [.start, .emit 1, .emit 2, .wake false, .sendFailed, .emit 3, .settings denied, .push, .emit 4, .retry, .settings granted,
    .wake true, .read, .push, .refreshed, .emit 5, .wake false, .sent, .emit 6, .aclose, .flush]

theorem honoured_of_reaches_revoked :
    ∃ s, execAllowed (step {}) (fun s op => op.Allowed s) (initial granted) revokedOps = some s ∧ s.Honoured ∧
      s.exports.map (fun x => x.batch.map (·.event)) = [[1, 2], [5], [6]] := by
  have hrun : (execAllowed (step {}) (fun s op => op.Allowed s) (initial granted) revokedOps).map
      (fun s => s.exports.map (fun x => x.batch.map (·.event))) = some [[1, 2], [5], [6]] := by decide +kernel
  obtain ⟨s, hs, hval⟩ := Option.map_eq_some_iff.1 hrun
  exact ⟨s, hs, honoured_of_reaches {} granted (reaches_of_execAllowed .init hs), hval⟩

/-- The refresh has read the old decision when the new one is pushed. -/
def staleReadOps : List (SinkOp Nat) :=
  [.start, .wake true, .read, .settings denied, .push, .refreshed, .emit 1, .wake false]

theorem export_after_revocation :
    ¬ ∀ s, Reaches (step {}) (fun _ (_ : SinkOp Nat) => True) (initial granted) s → s.Honoured := by
  intro hall
  have hrun : (exec (step {}) (initial granted) staleReadOps).map (·.exports) = some [⟨[⟨1, 1⟩], 1, true⟩] := by
    decide +kernel
  obtain ⟨s, hs, hval⟩ := Option.map_eq_some_iff.1 hrun
  have hno := (hall s (reaches_of_exec .init hs)).noExport ⟨[⟨1, 1⟩], 1, true⟩ (by rw [hval]; exact List.mem_singleton_self _)
  cases hno

end SinkWorld

end AgentSdk
