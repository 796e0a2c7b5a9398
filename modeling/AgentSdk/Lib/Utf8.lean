import Mathlib.Data.List.Basic
/-!
# UTF-8 with replacement

The decoder that puts one U+FFFD for each longest piece of bytes that is the
beginning of a character but is not continued as one, and one for each byte that
begins no character.
-/

namespace AgentSdk.Lib.Utf8

/-- Inside a character: how many bytes follow the next one, the bounds of the
next one, and the bits so far. -/
structure Pending where
  more : Nat
  low : UInt8
  high : UInt8
  bits : Nat
deriving DecidableEq, Repr

namespace Pending

def Continues (p : Pending) (b : UInt8) : Prop := p.low ≤ b ∧ b ≤ p.high

instance continuesDecidable (p : Pending) (b : UInt8) : Decidable (p.Continues b) :=
  inferInstanceAs (Decidable (p.low ≤ b ∧ b ≤ p.high))

def next (p : Pending) (b : UInt8) : List Char × Option Pending :=
  let bits := p.bits * 64 + b.toNat % 64
  if p.more = 0 then ([Char.ofNat bits], none) else ([], some ⟨p.more - 1, 0x80, 0xBF, bits⟩)

end Pending

def replacement : Char := Char.ofNat 0xFFFD

/-- A byte between characters. The bounds rule out overlong forms, surrogates
and what is above U+10FFFF. -/
def first (b : UInt8) : List Char × Option Pending :=
  if b ≤ 0x7F then ([Char.ofNat b.toNat], none)
  else if 0xC2 ≤ b ∧ b ≤ 0xDF then ([], some ⟨0, 0x80, 0xBF, b.toNat % 32⟩)
  else if b = 0xE0 then ([], some ⟨1, 0xA0, 0xBF, b.toNat % 16⟩)
  else if b = 0xED then ([], some ⟨1, 0x80, 0x9F, b.toNat % 16⟩)
  else if 0xE1 ≤ b ∧ b ≤ 0xEF then ([], some ⟨1, 0x80, 0xBF, b.toNat % 16⟩)
  else if b = 0xF0 then ([], some ⟨2, 0x90, 0xBF, b.toNat % 8⟩)
  else if 0xF1 ≤ b ∧ b ≤ 0xF3 then ([], some ⟨2, 0x80, 0xBF, b.toNat % 8⟩)
  else if b = 0xF4 then ([], some ⟨2, 0x80, 0x8F, b.toNat % 8⟩)
  else ([replacement], none)

def feed : Option Pending → UInt8 → List Char × Option Pending
  | none, b => first b
  | some p, b => if p.Continues b then p.next b else (replacement :: (first b).1, (first b).2)

/-- What is written for a character that the end of the bytes cuts short. -/
def flush : Option Pending → List Char
  | none => []
  | some _ => [replacement]

def decodeFrom : Option Pending → List UInt8 → List Char
  | q, [] => flush q
  | q, b :: bs => (feed q b).1 ++ decodeFrom (feed q b).2 bs

def decode (bs : List UInt8) : List Char := decodeFrom none bs

/-- The characters that are complete. -/
def text : Option Pending → List UInt8 → List Char
  | _, [] => []
  | q, b :: bs => (feed q b).1 ++ text (feed q b).2 bs

def stateAfter : Option Pending → List UInt8 → Option Pending
  | q, [] => q
  | q, b :: bs => stateAfter (feed q b).2 bs

/-- The first byte of `after` continues the character in which `before` ends. -/
def Splits (before after : List UInt8) : Prop :=
  match stateAfter none before, after with
  | some p, b :: _ => p.Continues b
  | _, _ => False

instance splitsDecidable (before after : List UInt8) : Decidable (Splits before after) :=
  match h : stateAfter none before, after with
  | some p, b :: _ => decidable_of_iff (p.Continues b) (by simp [Splits, h])
  | none, _ => isFalse (by simp [Splits, h])
  | some _, [] => isFalse (by simp [Splits])

theorem decodeFrom_append (q : Option Pending) (a b : List UInt8) :
    decodeFrom q (a ++ b) = text q a ++ decodeFrom (stateAfter q a) b := by
  induction a generalizing q with
  | nil => rfl
  | cons x a ih => rw [List.cons_append, decodeFrom, ih, text, stateAfter, List.append_assoc]

theorem decodeFrom_eq (q : Option Pending) (a : List UInt8) : decodeFrom q a = text q a ++ flush (stateAfter q a) := by
  have h := decodeFrom_append q a []
  rwa [List.append_nil] at h

/-- A character that is not continued is given up, and the next byte is read
as if it were the first. -/
theorem decodeFrom_some (p : Pending) (bs : List UInt8) (h : ∀ b ∈ bs.head?, ¬ p.Continues b) :
    decodeFrom (some p) bs = replacement :: decode bs := by
  cases bs with
  | nil => rfl
  | cons b bs =>
    have hb : ¬ p.Continues b := h b rfl
    simp only [decodeFrom, decode, feed, if_neg hb, List.cons_append]

/-- Two pieces may be decoded apart unless a character spans them. -/
theorem decode_append (a b : List UInt8) (h : ¬ Splits a b) : decode (a ++ b) = decode a ++ decode b := by
  rw [decode, decodeFrom_append, decode, decodeFrom_eq none a, List.append_assoc]
  congr 1
  cases hq : stateAfter none a with
  | none => rfl
  | some p =>
    apply decodeFrom_some
    intro x hx
    obtain ⟨bs, rfl⟩ := List.head?_eq_some_iff.1 hx
    intro hcont
    exact h (by simpa [Splits, hq] using hcont)

example : decode [0x61, 0xC3, 0xA9, 0xE2, 0x82, 0xAC, 0xF0, 0x9F, 0x98, 0x80] = ['a', 'é', '€', '😀'] := by
  decide +kernel

example : decode [0xED, 0xA0, 0x80, 0xE2, 0x82, 0x41] =
    [replacement, replacement, replacement, replacement, 'A'] := by decide +kernel

end AgentSdk.Lib.Utf8
