import AgentSdk.Event
import Mathlib.Data.List.TakeWhile
/-!
# Event file names

`EVENT_FILE_PATTERN` and `EVENT_NAME_RE`: an event file's name carries the
on-disk index and the event id, and the scan of the directory reads both back
from it when the id matches.
-/

namespace AgentSdk

/-- The two parts of an event file's name. -/
structure EventFile where
  diskIdx : Nat
  eventId : EventID
deriving DecidableEq, Repr

/-- `{idx:05d}`. -/
def padIdx (idx : Nat) : List Char := (Nat.toDigits 10 idx).leftpad 5 '0'

/-- `EVENT_FILE_PATTERN`. -/
def EventFile.name (f : EventFile) : String :=
  "event-" ++ String.ofList (padIdx f.diskIdx) ++ "-" ++ f.eventId ++ ".json"

/-- `[0-9a-fA-F\-]{8,}`, on a whole id. -/
def eventIdRe (id : List Char) : Bool := 8 ≤ id.length && id.all fun c => c.isHexDigit || c = '-'

/-- `EVENT_NAME_RE.match`. -/
def eventNameRe (name : String) : Option EventFile := do
  let name ← name.toList.dropPrefix? "event-".toList
  let idx := name.takeWhile Char.isDigit
  let name ← (name.dropWhile Char.isDigit).dropPrefix? ['-']
  let id ← name.dropSuffix? ".json".toList
  if 5 ≤ idx.length && eventIdRe id then some ⟨Nat.ofDigitChars 10 idx 0, String.ofList id⟩ else none

/-- An event id that survives a scan. -/
def MatchesNameRe (id : EventID) : Prop := eventIdRe id.toList = true

instance (id : EventID) : Decidable (MatchesNameRe id) := inferInstanceAs (Decidable (_ = _))

/-! ## Reading a name back -/

theorem isDigit_of_mem_padIdx {idx : Nat} {c : Char} (h : c ∈ padIdx idx) : c.isDigit = true := by
  unfold padIdx List.leftpad at h
  rcases List.mem_append.1 h with h | h
  · rw [List.eq_of_mem_replicate h]
    decide
  · exact Nat.isDigit_of_mem_toDigits (by decide) (by decide) h

theorem length_padIdx (idx : Nat) : 5 ≤ (padIdx idx).length := by
  rw [padIdx, List.length_leftpad]
  exact Nat.le_max_left _ _

theorem ofDigitChars_padIdx (idx : Nat) : Nat.ofDigitChars 10 (padIdx idx) 0 = idx := by
  rw [padIdx, List.leftpad, Nat.ofDigitChars_append, Nat.ofDigitChars_replicate_zero, Nat.mul_zero,
    Nat.ofDigitChars_ten_toDigits]

theorem toList_name (f : EventFile) :
    f.name.toList = "event-".toList ++ (padIdx f.diskIdx ++ '-' :: (f.eventId.toList ++ ".json".toList)) := by
  simp [EventFile.name]

theorem takeWhile_isDigit_padIdx (idx : Nat) (rest : List Char) :
    (padIdx idx ++ '-' :: rest).takeWhile Char.isDigit = padIdx idx := by
  rw [List.takeWhile_append_of_pos fun c => isDigit_of_mem_padIdx]
  simp

theorem dropWhile_isDigit_padIdx (idx : Nat) (rest : List Char) :
    (padIdx idx ++ '-' :: rest).dropWhile Char.isDigit = '-' :: rest := by
  rw [List.dropWhile_append_of_pos fun c => isDigit_of_mem_padIdx]
  simp

/-- A name gives back its file exactly if the id matches. -/
theorem eventNameRe_name (f : EventFile) : eventNameRe f.name = if MatchesNameRe f.eventId then some f else none := by
  have hpre : (padIdx f.diskIdx ++ '-' :: (f.eventId.toList ++ ".json".toList)).dropWhile Char.isDigit =
      ['-'] ++ (f.eventId.toList ++ ".json".toList) := dropWhile_isDigit_padIdx _ _
  have hsuffix : (f.eventId.toList ++ ".json".toList).dropSuffix? ".json".toList = some f.eventId.toList :=
    List.dropSuffix?_eq_some_iff.2 ⟨_, rfl, beq_self_eq_true _⟩
  unfold eventNameRe
  rw [toList_name, List.dropPrefix?_append_of_beq _ (beq_self_eq_true _)]
  simp only [Option.bind_eq_bind, Option.bind_some]
  rw [takeWhile_isDigit_padIdx, hpre, List.dropPrefix?_append_of_beq _ (beq_self_eq_true _), Option.bind_some,
    hsuffix, Option.bind_some]
  simp [length_padIdx, ofDigitChars_padIdx, MatchesNameRe]
  rfl

end AgentSdk
