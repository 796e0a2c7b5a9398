import AgentSdk.Lib.Runs
import AgentSdk.Lib.Utf8
import Mathlib.Logic.Function.Basic
/-!
# Output of a bash command

`BashEventService._execute_bash_command`: two readers, one for each stream of the
process, share the order counter. Each decodes what it reads, and publishes its
buffer in chunks; other tasks run while it waits for `stream.read` and for
`_pub_sub`. A stop makes the process exit, so it is an `exited` with some code.
-/

namespace AgentSdk
open Lib

inductive OutStream where
  | stdout
  | stderr
deriving DecidableEq, Repr

structure BashOutput where
  order : Nat
  exitCode : Option Int := none
  stdout : Option (List Char) := none
  stderr : Option (List Char) := none
deriving DecidableEq, Repr

namespace BashOutput

/-- The event of a chunk. -/
def chunk (i : OutStream) (order : Nat) (text : List Char) : BashOutput :=
  match i with
  | .stdout => { order, stdout := some text }
  | .stderr => { order, stderr := some text }

def out (e : BashOutput) : OutStream → Option (List Char)
  | .stdout => e.stdout
  | .stderr => e.stderr

end BashOutput

/-- Where `read_stream` is, with its local `buffer`. -/
inductive ReaderPc where
  | reading (buffer : List Char)
  | publishing (buffer : List Char)
  | done
deriving DecidableEq, Repr

inductive CommandPhase where
  | running
  | timedOut
  | ended
deriving DecidableEq, Repr

inductive BashOp where
  | read (i : OutStream) (data : List UInt8)
  | published (i : OutStream)
  | eof (i : OutStream)
  | exited (code : Int)
  | finish
  | timeOut

def maxContentCharLength : Nat := 1024 * 1024

/-- `buffer` are `stdout_buffer` and `stderr_buffer`. Kept for the statement
only: the events in the order of their emission, and the bytes read. -/
structure BashWorld where
  outputOrder : Nat := 0
  buffer : OutStream → List Char := fun _ => []
  reader : OutStream → ReaderPc := fun _ => .reading []
  exitCode : Option Int := none
  phase : CommandPhase := .running
  events : List BashOutput := []
  got : OutStream → List UInt8 := fun _ => []

namespace BashWorld

/-- The inner loop of `read_stream`, to the end or to the next `_pub_sub`. -/
def split (limit : Nat) (s : BashWorld) (i : OutStream) (buffer : List Char) : BashWorld :=
  if limit < buffer.length then
    { s with
      events := s.events ++ [.chunk i s.outputOrder (buffer.take limit)]
      reader := Function.update s.reader i (.publishing (buffer.drop limit)) }
  else { s with reader := Function.update s.reader i (.reading buffer) }

/-- The last event. -/
def emitFinal (s : BashWorld) (code : Int) : BashWorld :=
  let rest := fun i => if s.buffer i = [] then none else some (s.buffer i)
  { s with
    phase := .ended
    events := s.events ++ [⟨s.outputOrder, some code, rest .stdout, rest .stderr⟩] }

def step (limit : Nat) (s : BashWorld) : BashOp → Option BashWorld
  | .read i data =>
    match s.phase, s.reader i with
    | .running, .reading buffer =>
      if data = [] ∨ 8192 < data.length then none
      else
        let buffer := buffer ++ Utf8.decode data
        some (split limit { s with
          buffer := Function.update s.buffer i buffer
          got := Function.update s.got i (s.got i ++ data) } i buffer)
    | _, _ => none
  | .published i =>
    match s.phase, s.reader i with
    | .running, .publishing buffer =>
      some (split limit { s with
        outputOrder := s.outputOrder + 1
        buffer := Function.update s.buffer i buffer } i buffer)
    | _, _ => none
  | .eof i =>
    match s.phase, s.reader i with
    | .running, .reading _ => some { s with reader := Function.update s.reader i .done }
    | _, _ => none
  | .exited code => if s.exitCode = none then some { s with exitCode := some code } else none
  | .finish =>
    match s.phase, s.reader .stdout, s.reader .stderr, s.exitCode with
    | .running, .done, .done, some code => some (s.emitFinal code)
    | .timedOut, _, _, _ => some (s.emitFinal (-1))
    | _, _, _, _ => none
  | .timeOut => if s.phase = .running then some { s with phase := .timedOut } else none

/-! ## What has to hold -/

/-- The chunks of a stream, put together. -/
def chunks (events : List BashOutput) (i : OutStream) : List Char := (events.filterMap (·.out i)).flatten

structure Lossless (s : BashWorld) : Prop where
  orders : s.events.map (·.order) = List.range s.events.length
  noCode : s.phase ≠ .ended → ∀ e ∈ s.events, e.exitCode = none
  lastCode : s.phase = .ended →
    ∃ es e, s.events = es ++ [e] ∧ e.exitCode.isSome ∧ ∀ e ∈ es, e.exitCode = none
  part : ∀ i, chunks s.events i <+: Utf8.decode (s.got i)
  text : s.phase = .ended → ∀ i, chunks s.events i = Utf8.decode (s.got i)

/-! ## When it holds -/

def Publishing (s : BashWorld) (i : OutStream) : Prop := ∃ buffer, s.reader i = .publishing buffer

instance publishingDecidable (s : BashWorld) (i : OutStream) : Decidable (s.Publishing i) :=
  match h : s.reader i with
  | .publishing buffer => isTrue ⟨buffer, h⟩
  | .reading _ | .done => isFalse (by simp [Publishing, h])

def other : OutStream → OutStream
  | .stdout => .stderr
  | .stderr => .stdout

end BashWorld

/-- The condition of a step: no read ends inside a character that the next one
continues, no reader publishes while the other one does, and the time-out finds
none at it. -/
def BashOp.Allowed (limit : Nat) (s : BashWorld) : BashOp → Prop
  | .read i data =>
    ¬ Utf8.Splits (s.got i) data ∧
      (limit < (s.buffer i ++ Utf8.decode data).length → ¬ s.Publishing (BashWorld.other i))
  | .timeOut => ¬ s.Publishing .stdout ∧ ¬ s.Publishing .stderr
  | _ => True

instance BashOp.allowedDecidable (limit : Nat) (s : BashWorld) (op : BashOp) : Decidable (op.Allowed limit s) :=
  match op with
  | .read i data =>
    inferInstanceAs (Decidable (¬ Utf8.Splits (s.got i) data ∧
      (limit < (s.buffer i ++ Utf8.decode data).length → ¬ s.Publishing (BashWorld.other i))))
  | .timeOut => inferInstanceAs (Decidable (¬ s.Publishing .stdout ∧ ¬ s.Publishing .stderr))
  | .published _ | .eof _ | .exited _ | .finish => isTrue trivial

namespace BashWorld

/-! ## The invariant -/

/-- What a reader has decoded and not yet put into an event. -/
def rest (s : BashWorld) (i : OutStream) : List Char :=
  match s.reader i with
  | .reading buffer | .publishing buffer => buffer
  | .done => s.buffer i

structure Consistent (s : BashWorld) : Prop where
  orders : s.events.map (·.order) = List.range s.events.length
  noCode : s.phase ≠ .ended → ∀ e ∈ s.events, e.exitCode = none
  lastCode : s.phase = .ended →
    ∃ es e, s.events = es ++ [e] ∧ e.exitCode.isSome ∧ ∀ e ∈ es, e.exitCode = none
  shared : ∀ i buffer, s.reader i = .reading buffer → s.buffer i = buffer
  counter : s.phase ≠ .ended → (∀ i, ¬ s.Publishing i) → s.events.length = s.outputOrder
  busy : s.phase ≠ .ended → ∀ i, s.Publishing i → s.events.length = s.outputOrder + 1 ∧ ¬ s.Publishing (other i)
  quiet : s.phase = .timedOut → ∀ i, ¬ s.Publishing i
  kept : s.phase ≠ .ended → ∀ i, chunks s.events i ++ s.rest i = Utf8.decode (s.got i)
  text : s.phase = .ended → ∀ i, chunks s.events i = Utf8.decode (s.got i)

theorem Consistent.lossless {s : BashWorld} (hs : s.Consistent) : s.Lossless := by
  refine ⟨hs.orders, hs.noCode, hs.lastCode, fun i => ?_, hs.text⟩
  by_cases hend : s.phase = .ended
  · exact ⟨[], by rw [List.append_nil, hs.text hend i]⟩
  · exact ⟨s.rest i, hs.kept hend i⟩

theorem eq_or_other (i j : OutStream) : j = i ∨ j = other i := by
  cases i <;> cases j <;> simp [other]

theorem other_ne (i : OutStream) : other i ≠ i := by
  cases i <;> simp [other]

theorem other_other (i : OutStream) : other (other i) = i := by
  cases i <;> rfl

/-! ## Steps -/

theorem orders_append {events : List BashOutput} (h : events.map (·.order) = List.range events.length) {e : BashOutput}
    (he : e.order = events.length) :
    (events ++ [e]).map (·.order) = List.range (events ++ [e]).length := by
  rw [List.map_append, h, List.length_append, List.length_singleton, List.range_succ]
  simp [he]

theorem chunks_append (events : List BashOutput) (e : BashOutput) (i : OutStream) :
    chunks (events ++ [e]) i = chunks events i ++ (e.out i).getD [] := by
  cases h : e.out i <;> simp [chunks, h]

theorem chunk_order (i : OutStream) (order : Nat) (text : List Char) : (BashOutput.chunk i order text).order = order := by
  cases i <;> rfl

theorem chunk_exitCode (i : OutStream) (order : Nat) (text : List Char) :
    (BashOutput.chunk i order text).exitCode = none := by
  cases i <;> rfl

theorem chunk_out_self (i : OutStream) (order : Nat) (text : List Char) :
    (BashOutput.chunk i order text).out i = some text := by
  cases i <;> rfl

theorem chunk_out_other (i : OutStream) (order : Nat) (text : List Char) :
    (BashOutput.chunk i order text).out (other i) = none := by
  cases i <;> rfl

section Steps
variable {limit : Nat} {s t : BashWorld} {i : OutStream}

theorem publishing_update_other {pc : ReaderPc} {s' : BashWorld} (h : s'.reader = Function.update s.reader i pc) :
    s'.Publishing (other i) ↔ s.Publishing (other i) := by
  rw [Publishing, h, Function.update_of_ne (other_ne i), Publishing]

/-- `split` from a state in which the reader is between its awaits. -/
theorem Consistent.split {buffer : List Char} (hphase : s.phase = .running)
    (horders : s.events.map (·.order) = List.range s.events.length) (hcode : ∀ e ∈ s.events, e.exitCode = none)
    (hshared : ∀ b, s.reader (other i) = .reading b → s.buffer (other i) = b) (hbuffer : s.buffer i = buffer)
    (hfree : ¬ s.Publishing (other i) → s.events.length = s.outputOrder)
    (hbusy : s.Publishing (other i) → s.events.length = s.outputOrder + 1)
    (halone : limit < buffer.length → ¬ s.Publishing (other i))
    (hkept : chunks s.events i ++ buffer = Utf8.decode (s.got i))
    (hother : chunks s.events (other i) ++ s.rest (other i) = Utf8.decode (s.got (other i))) :
    (s.split limit i buffer).Consistent := by
  have hrun : s.phase ≠ .ended := by rw [hphase]; decide
  unfold BashWorld.split
  split
  · rename_i hlong
    have hnot := halone hlong
    refine ⟨?_, fun _ e he => ?_, fun h => absurd h hrun, fun j b hj => ?_, fun _ hnone => ?_, fun _ j hj => ?_, ?_,
      fun _ j => ?_, fun h => absurd h hrun⟩
    · exact orders_append horders ((chunk_order _ _ _).trans (hfree hnot).symm)
    · rcases List.mem_append.1 he with he | he
      · exact hcode e he
      · rw [List.mem_singleton.1 he, chunk_exitCode]
    · rcases eq_or_other i j with rfl | rfl
      · simp at hj
      · exact hshared b (by simpa [Function.update_of_ne (other_ne i)] using hj)
    · exact absurd ⟨_, Function.update_self _ _ _⟩ (hnone i)
    · rcases eq_or_other i j with rfl | rfl
      · refine ⟨by simp [hfree hnot], fun h => hnot ((publishing_update_other rfl).1 h)⟩
      · exact absurd ((publishing_update_other rfl).1 hj) hnot
    · intro h
      rw [hphase] at h
      cases h
    · rcases eq_or_other i j with rfl | rfl
      · rw [chunks_append, chunk_out_self]
        simp only [rest, Function.update_self, Option.getD_some, List.append_assoc, List.take_append_drop]
        exact hkept
      · rw [chunks_append, chunk_out_other]
        simpa [rest, Function.update_of_ne (other_ne i)] using hother
  · refine ⟨horders, fun _ => hcode, fun h => absurd h hrun, fun j b hj => ?_, fun _ hnone => ?_, fun _ j hj => ?_, ?_,
      fun _ j => ?_, fun h => absurd h hrun⟩
    · rcases eq_or_other i j with rfl | rfl
      · simp only [Function.update_self, ReaderPc.reading.injEq] at hj
        exact hbuffer.trans hj
      · exact hshared b (by simpa [Function.update_of_ne (other_ne i)] using hj)
    · exact hfree fun h => hnone (other i) ((publishing_update_other rfl).2 h)
    · rcases eq_or_other i j with rfl | rfl
      · obtain ⟨b, hb⟩ := hj
        simp at hb
      · refine ⟨hbusy ((publishing_update_other rfl).1 hj), ?_⟩
        rw [other_other]
        rintro ⟨b, hb⟩
        simp at hb
    · intro h
      rw [hphase] at h
      cases h
    · rcases eq_or_other i j with rfl | rfl
      · simp only [rest, Function.update_self]
        exact hkept
      · simpa [rest, Function.update_of_ne (other_ne i)] using hother

theorem not_publishing_of_reading {buffer : List Char} (h : s.reader i = .reading buffer) : ¬ s.Publishing i := by
  rintro ⟨b, hb⟩
  rw [h] at hb
  cases hb

theorem Consistent.read (hs : s.Consistent) {data : List UInt8} (hok : BashOp.Allowed limit s (.read i data))
    (h : s.step limit (.read i data) = some t) : t.Consistent := by
  obtain ⟨hsplit, halone⟩ := hok
  cases hphase : s.phase with
  | running =>
    cases hr : s.reader i with
    | reading buffer =>
      simp only [step, hphase, hr] at h
      split at h
      · cases h
      · cases h
        have hrun : s.phase ≠ .ended := by rw [hphase]; decide
        have hbuffer : s.buffer i = buffer := hs.shared i buffer hr
        have hkept : chunks s.events i ++ buffer = Utf8.decode (s.got i) := by
          have hk := hs.kept hrun i
          rwa [rest, hr] at hk
        have hi : ¬ s.Publishing i := not_publishing_of_reading hr
        refine Consistent.split rfl hs.orders (hs.noCode hrun) (fun b hb => ?_) (Function.update_self _ _ _)
          (fun hnot => ?_) (fun hpub => (hs.busy hrun (other i) hpub).1) (hbuffer ▸ halone) ?_ ?_
        · simpa [Function.update_of_ne (other_ne i)] using hs.shared (other i) b hb
        · refine hs.counter hrun fun j => ?_
          rcases eq_or_other i j with rfl | rfl
          · exact hi
          · exact hnot
        · -- What was decoded before and what is decoded now, as one text.
          simp only [Function.update_self]
          rw [Utf8.decode_append _ _ hsplit, ← hkept, List.append_assoc]
        · simpa [rest, Function.update_of_ne (other_ne i)] using hs.kept hrun (other i)
    | publishing buffer => simp [step, hphase, hr] at h
    | done => simp [step, hphase, hr] at h
  | timedOut => simp [step, hphase] at h
  | ended => simp [step, hphase] at h

theorem Consistent.published (hs : s.Consistent) (h : s.step limit (.published i) = some t) : t.Consistent := by
  cases hphase : s.phase with
  | running =>
    cases hr : s.reader i with
    | publishing buffer =>
      simp only [step, hphase, hr] at h
      cases h
      have hrun : s.phase ≠ .ended := by rw [hphase]; decide
      obtain ⟨hcount, hnot⟩ := hs.busy hrun i ⟨buffer, hr⟩
      have hkept : chunks s.events i ++ buffer = Utf8.decode (s.got i) := by
        have hk := hs.kept hrun i
        rwa [rest, hr] at hk
      refine Consistent.split rfl hs.orders (hs.noCode hrun) (fun b hb => ?_) (Function.update_self _ _ _)
        (fun _ => hcount) (fun hpub => absurd hpub hnot) (fun _ => hnot) hkept ?_
      · simpa [Function.update_of_ne (other_ne i)] using hs.shared (other i) b hb
      · simpa [rest, Function.update_of_ne (other_ne i)] using hs.kept hrun (other i)
    | reading buffer => simp [step, hphase, hr] at h
    | done => simp [step, hphase, hr] at h
  | timedOut => simp [step, hphase] at h
  | ended => simp [step, hphase] at h

theorem Consistent.eof (hs : s.Consistent) (h : s.step limit (.eof i) = some t) : t.Consistent := by
  cases hphase : s.phase with
  | running =>
    cases hr : s.reader i with
    | reading buffer =>
      simp only [step, hphase, hr] at h
      cases h
      have hbuffer : s.buffer i = buffer := hs.shared i buffer hr
      have hpub : ∀ j, Publishing { s with reader := Function.update s.reader i .done, phase := .running } j →
          s.Publishing j := by
        rintro j ⟨b, hb⟩
        rcases eq_or_other i j with rfl | rfl
        · simp at hb
        · exact ⟨b, by simpa [Function.update_of_ne (other_ne i)] using hb⟩
      have hrun : s.phase ≠ .ended := by rw [hphase]; decide
      refine ⟨hs.orders, fun _ => hs.noCode hrun, nofun, fun j b hj => ?_, fun _ hnone => ?_, fun _ j hj => ?_, nofun,
        fun _ j => ?_, nofun⟩
      · rcases eq_or_other i j with rfl | rfl
        · simp at hj
        · exact hs.shared (other i) b (by simpa [Function.update_of_ne (other_ne i)] using hj)
      · refine hs.counter hrun fun j hj => ?_
        rcases eq_or_other i j with rfl | rfl
        · exact not_publishing_of_reading hr hj
        · exact hnone (other i) ((publishing_update_other rfl).2 hj)
      · obtain ⟨hcount, hnot⟩ := hs.busy hrun j (hpub j hj)
        exact ⟨hcount, fun h => hnot (hpub _ h)⟩
      · have hk := hs.kept hrun j
        rcases eq_or_other i j with rfl | rfl
        · rw [rest, hr] at hk
          simpa [rest, hbuffer] using hk
        · simpa [rest, Function.update_of_ne (other_ne i)] using hk
    | publishing buffer => simp [step, hphase, hr] at h
    | done => simp [step, hphase, hr] at h
  | timedOut => simp [step, hphase] at h
  | ended => simp [step, hphase] at h

/-- The last event, with what is left in the buffers. -/
theorem Consistent.emitFinal (hs : s.Consistent) (hphase : s.phase ≠ .ended) (hquiet : ∀ i, ¬ s.Publishing i)
    (code : Int) : (s.emitFinal code).Consistent := by
  have hrest : ∀ i, s.rest i = s.buffer i := by
    intro i
    cases hr : s.reader i with
    | reading buffer =>
      rw [rest, hr]
      exact (hs.shared i buffer hr).symm
    | publishing buffer => exact absurd ⟨buffer, hr⟩ (hquiet i)
    | done => rw [rest, hr]
  refine ⟨orders_append hs.orders (hs.counter hphase hquiet).symm, fun h => absurd rfl h, fun _ => ?_, hs.shared,
    fun h => absurd rfl h, fun h => absurd rfl h, nofun, fun h => absurd rfl h, fun _ i => ?_⟩
  · exact ⟨s.events, _, rfl, rfl, hs.noCode hphase⟩
  · have hk := hs.kept hphase i
    rw [hrest i] at hk
    refine (chunks_append _ _ i).trans ?_
    rw [← show chunks s.events i ++ s.buffer i = Utf8.decode ((s.emitFinal code).got i) from hk]
    congr 1
    cases i <;> simp only [BashOutput.out] <;> split <;> simp_all

theorem Consistent.step {op : BashOp} (hs : s.Consistent) (hok : op.Allowed limit s) (h : s.step limit op = some t) :
    t.Consistent := by
  cases op with
  | read i data => exact hs.read hok h
  | published i => exact hs.published h
  | eof i => exact hs.eof h
  | exited code =>
    simp only [BashWorld.step] at h
    split at h
    · cases h
      exact ⟨hs.orders, hs.noCode, hs.lastCode, hs.shared, hs.counter, hs.busy, hs.quiet, hs.kept, hs.text⟩
    · cases h
  | finish =>
    simp only [BashWorld.step] at h
    split at h
    · rename_i hphase hout herr _
      cases h
      refine hs.emitFinal (by rw [hphase]; decide) (fun i => ?_) _
      rintro ⟨b, hb⟩
      cases i <;> simp_all
    · rename_i hphase
      cases h
      exact hs.emitFinal (by rw [hphase]; decide) (hs.quiet hphase) _
    · cases h
  | timeOut =>
    simp only [BashWorld.step] at h
    split at h
    · rename_i hphase
      cases h
      have hrun : s.phase ≠ .ended := by rw [hphase]; decide
      refine ⟨hs.orders, fun _ => hs.noCode hrun, nofun, hs.shared, fun _ => hs.counter hrun, fun _ => hs.busy hrun,
        fun _ i => ?_, fun _ => hs.kept hrun, nofun⟩
      cases i with
      | stdout => exact hok.1
      | stderr => exact hok.2
    · cases h

end Steps

theorem consistent_init : ({} : BashWorld).Consistent :=
  ⟨rfl, nofun, nofun, fun _ _ h => (by cases h; rfl), fun _ _ => rfl, fun _ _ ⟨_, h⟩ => (by cases h), nofun,
    fun _ _ => rfl, nofun⟩

/-- In every run whose steps meet the condition, nothing is lost or repeated. -/
theorem lossless_of_reaches (limit : Nat) {s : BashWorld}
    (h : Reaches (step limit) (fun s op => op.Allowed limit s) {} s) : s.Lossless := by
  refine Consistent.lossless ?_
  exact h.invariant consistent_init fun _ _ _ hs hok ht => hs.step hok ht

/-- With chunks of two characters: a long and a short stream, read in turns. -/
def mixedOps : List BashOp :=
  [.read .stdout [0x61, 0xC3, 0xA9, 0x62, 0x63, 0x64], .read .stderr [0x78, 0xFF], .published .stdout, .published .stdout,
    .eof .stdout, .exited 3, .read .stderr [0x79], .published .stderr, .eof .stderr, .finish]

theorem lossless_of_reaches_mixed :
    ∃ s, execAllowed (step 2) (fun s op => op.Allowed 2 s) {} mixedOps = some s ∧ s.Lossless ∧ s.phase = .ended ∧
      s.events = [{ order := 0, stdout := some ['a', 'é'] }, { order := 1, stdout := some ['b', 'c'] },
        { order := 2, stderr := some ['x', Utf8.replacement] },
        { order := 3, exitCode := some 3, stdout := some ['d'], stderr := some ['y'] }] := by
  have hrun : (execAllowed (step 2) (fun s op => op.Allowed 2 s) {} mixedOps).map (fun s => (s.phase, s.events)) =
      some (.ended, [{ order := 0, stdout := some ['a', 'é'] }, { order := 1, stdout := some ['b', 'c'] },
        { order := 2, stderr := some ['x', Utf8.replacement] },
        { order := 3, exitCode := some 3, stdout := some ['d'], stderr := some ['y'] }]) := by decide +kernel
  obtain ⟨s, hs, hval⟩ := Option.map_eq_some_iff.1 hrun
  simp only [Prod.mk.injEq] at hval
  exact ⟨s, hs, lossless_of_reaches 2 (reaches_of_execAllowed .init hs), hval⟩

/-- The two bytes of one character in two reads. -/
def splitOps : List BashOp :=
  [.read .stdout [0xC3], .read .stdout [0xA9], .eof .stdout, .eof .stderr, .exited 0, .finish]

theorem lossless_character_split :
    ¬ ∀ s, Reaches (step maxContentCharLength) (fun _ _ => True) {} s → s.Lossless := by
  intro hall
  have hrun : (exec (step maxContentCharLength) {} splitOps).map
      (fun s => (s.phase, chunks s.events .stdout, s.got .stdout)) =
        some (.ended, [Utf8.replacement, Utf8.replacement], [0xC3, 0xA9]) := by decide +kernel
  obtain ⟨s, hs, hval⟩ := Option.map_eq_some_iff.1 hrun
  simp only [Prod.mk.injEq] at hval
  have htext := (hall s (reaches_of_exec .init hs)).text hval.1 .stdout
  rw [hval.2.1, hval.2.2] at htext
  exact absurd htext (by decide +kernel)

end BashWorld

end AgentSdk
