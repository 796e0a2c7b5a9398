import AgentSdk.Lib.Dict
import AgentSdk.Lib.Text
import Mathlib.Data.List.Basic
import Mathlib.Data.List.Nodup
/-!
# JSON texts

`dumps` and `loads` of Python's `json` module with their default arguments:
ASCII output, `", "` and `": "` as separators, `NaN` and the infinities as
extra literals. An object is an insertion-ordered dict. Floats are a parameter
(`JsonFloat`): how one is printed and read belongs to the platform.
-/

namespace AgentSdk.Lib

/-! ## Values and their text -/

inductive Json (F : Type) where
  | null
  | bool (b : Bool)
  | int (i : Int)
  | float (x : F)
  | str (s : Text)
  | arr (xs : List (Json F))
  | obj (kvs : List (Text × Json F))

/-- `str(n)` of an integer. -/
def intText (i : Int) : Text :=
  if i < 0 then '-' :: Nat.toDigits 10 i.natAbs else Nat.toDigits 10 i.natAbs

def hex4 (n : Nat) : Text :=
  [Nat.digitChar (n / 4096 % 16), Nat.digitChar (n / 256 % 16), Nat.digitChar (n / 16 % 16), Nat.digitChar (n % 16)]

/-- A code point as UTF-16 code units. -/
def utf16 (n : Nat) : List Nat :=
  if n < 0x10000 then [n] else [0xd800 + (n - 0x10000) / 1024, 0xdc00 + (n - 0x10000) % 1024]

/-- `py_encode_basestring_ascii`, one character. -/
def escapeChar (c : Char) : Text :=
  if c = '"' ∨ c = '\\' then ['\\', c]
  else if c = '\n' then ['\\', 'n']
  else if c = '\r' then ['\\', 'r']
  else if c = '\t' then ['\\', 't']
  else if c.toNat = 12 then ['\\', 'f']
  else if c.toNat = 8 then ['\\', 'b']
  else if 32 ≤ c.toNat ∧ c.toNat < 127 then [c]
  else (utf16 c.toNat).flatMap fun u => '\\' :: 'u' :: hex4 u

def quoted (s : Text) : Text := '"' :: (s.flatMap escapeChar ++ ['"'])

/-! ### Floats -/

def IntPart (t : Text) : Prop := t = ['0'] ∨ ∃ c u, t = c :: u ∧ c ≠ '0' ∧ ∀ d ∈ c :: u, d.isDigit = true

/-- Digits behind a mark: a fraction or an exponent. -/
def MarkedDigits (marks : List Text) (t : Text) : Prop :=
  t = [] ∨ ∃ mark ∈ marks, ∃ c u, t = mark ++ c :: u ∧ ∀ d ∈ c :: u, d.isDigit = true

def exponentMarks : List Text := ['e', 'E'].flatMap fun c => [[c], [c, '+'], [c, '-']]

/-- A number with a fraction or an exponent. -/
def FloatToken (t : Text) : Prop :=
  ∃ sign i f e, t = sign ++ i ++ f ++ e ∧ (sign = [] ∨ sign = ['-']) ∧ IntPart i ∧ MarkedDigits [['.']] f ∧
    MarkedDigits exponentMarks e ∧ (f ≠ [] ∨ e ≠ [])

def nonFinite : List Text := ["NaN".toList, "Infinity".toList, "-Infinity".toList]

/-- The floats of the platform: `token` is what `dumps` writes for one, and
`float()` reads it back. -/
class JsonFloat (F : Type) where
  token : F → Text
  ofToken : Text → F
  isToken : ∀ x, FloatToken (token x) ∨ token x ∈ nonFinite
  ofToken_token : ∀ x, ofToken (token x) = x

/-! ### Writing -/

section
variable {F : Type} [JsonFloat F]

mutual

/-- `json.dumps`. -/
def dumps : Json F → Text
  | .null => "null".toList
  | .bool true => "true".toList
  | .bool false => "false".toList
  | .int i => intText i
  | .float x => JsonFloat.token x
  | .str s => quoted s
  | .arr [] => "[]".toList
  | .arr (x :: xs) => '[' :: (dumps x ++ dumpsElems xs)
  | .obj [] => "\x7b\x7d".toList
  | .obj ((k, v) :: kvs) => '\x7b' :: (quoted k ++ ':' :: ' ' :: (dumps v ++ dumpsFields kvs))

/-- The elements behind the first one, and the bracket. -/
def dumpsElems : List (Json F) → Text
  | [] => [']']
  | x :: xs => ',' :: ' ' :: (dumps x ++ dumpsElems xs)

def dumpsFields : List (Text × Json F) → Text
  | [] => ['\x7d']
  | (k, v) :: kvs => ',' :: ' ' :: (quoted k ++ ':' :: ' ' :: (dumps v ++ dumpsFields kvs))

end

end

/-! ### Reading -/

def skipWs (t : Text) : Text := t.dropWhile fun c => c = ' ' ∨ c = '\t' ∨ c = '\n' ∨ c = '\r'

def hexValue (c : Char) : Option Nat :=
  if '0' ≤ c ∧ c ≤ '9' then some (c.toNat - '0'.toNat)
  else if 'a' ≤ c ∧ c ≤ 'f' then some (c.toNat - 'a'.toNat + 10)
  else if 'A' ≤ c ∧ c ≤ 'F' then some (c.toNat - 'A'.toNat + 10)
  else none

def hex4Value (a b c d : Char) : Option Nat := do
  return (← hexValue a) * 4096 + (← hexValue b) * 256 + (← hexValue c) * 16 + (← hexValue d)

/-- The characters of the simple escapes. -/
def escapeValue (c : Char) : Option Nat :=
  if c = '"' ∨ c = '\\' ∨ c = '/' then some c.toNat
  else if c = 'n' then some 10
  else if c = 'r' then some 13
  else if c = 't' then some 9
  else if c = 'f' then some 12
  else if c = 'b' then some 8
  else none

/-- A string behind its opening quote, as UTF-16 code units where it is
escaped and code points elsewhere. -/
def scanUnits : Text → Option (List Nat × Text)
  | [] => none
  | c :: t =>
    if c = '"' then some ([], t)
    else if c = '\\' then
      match t with
      | [] => none
      | e :: t =>
        if e = 'u' then
          match t with
          | h₁ :: h₂ :: h₃ :: h₄ :: t => do
            let u ← hex4Value h₁ h₂ h₃ h₄
            let (us, rest) ← scanUnits t
            return (u :: us, rest)
          | _ => none
        else do
          let u ← escapeValue e
          let (us, rest) ← scanUnits t
          return (u :: us, rest)
    else if c.toNat < 32 then none
    else (scanUnits t).map fun r => (c.toNat :: r.1, r.2)

def isHigh (u : Nat) : Bool := 0xd800 ≤ u ∧ u < 0xdc00

def isLow (u : Nat) : Bool := 0xdc00 ≤ u ∧ u < 0xe000

/-- Surrogate pairs joined. A lone surrogate is no text here. -/
def joinUnits : List Nat → Option Text
  | [] => some []
  | u :: us =>
    if isHigh u then
      match us with
      | [] => none
      | v :: us =>
        if isLow v then (joinUnits us).map (Char.ofNat (0x10000 + (u - 0xd800) * 1024 + (v - 0xdc00)) :: ·) else none
    else if isLow u then none
    else (joinUnits us).map (Char.ofNat u :: ·)

def scanString (t : Text) : Option (Text × Text) := do
  let (us, rest) ← scanUnits t
  return (← joinUnits us, rest)

def scanInt : Text → Option (Text × Text)
  | [] => none
  | c :: t =>
    if c = '0' then some (['0'], t)
    else if c.isDigit then some (c :: t.takeWhile Char.isDigit, t.dropWhile Char.isDigit)
    else none

def scanDigits (t : Text) : Option (Text × Text) :=
  if t.takeWhile Char.isDigit = [] then none else some (t.takeWhile Char.isDigit, t.dropWhile Char.isDigit)

def scanFrac (t : Text) : Text × Text :=
  match t with
  | '.' :: u => ((scanDigits u).map fun r => ('.' :: r.1, r.2)).getD ([], t)
  | _ => ([], t)

def scanSign (marks : Text) (t : Text) : Text × Text :=
  match t with
  | c :: u => if c ∈ marks then ([c], u) else ([], t)
  | [] => ([], [])

def scanExp (t : Text) : Text × Text :=
  match t with
  | c :: u =>
    if c = 'e' ∨ c = 'E' then
      let (sign, v) := scanSign ['+', '-'] u
      ((scanDigits v).map fun r => (c :: (sign ++ r.1), r.2)).getD ([], t)
    else ([], t)
  | [] => ([], [])

section
variable {F : Type} [JsonFloat F]

def scanNumber (t : Text) : Option (Json F × Text) := do
  let (sign, t) := scanSign ['-'] t
  let (i, t) ← scanInt t
  let (f, u) := scanFrac t
  let (e, u) := scanExp u
  if f = [] ∧ e = [] then
    let n := Nat.ofDigitChars 10 i 0
    return (.int (if sign = [] then n else -n), t)
  else return (.float (JsonFloat.ofToken (sign ++ i ++ f ++ e)), u)

def literals : List (Text × Json F) :=
  [("null".toList, .null), ("true".toList, .bool true), ("false".toList, .bool false)] ++
    nonFinite.map fun w => (w, .float (JsonFloat.ofToken w))

/-- The values that are neither strings nor containers. -/
def scanScalar (t : Text) : Option (Json F × Text) :=
  scanNumber t <|> literals.findSome? fun (w, v) => (t.dropPrefix? w).map (v, ·)

mutual

/-- `scan_once`. Each nested call costs one unit of `fuel`. -/
def scanOnce : Nat → Text → Option (Json F × Text)
  | 0, _ => none
  | fuel + 1, t =>
    match t with
    | '"' :: t => (scanString t).map fun r => (.str r.1, r.2)
    | '[' :: t =>
      match skipWs t with
      | ']' :: t => some (.arr [], t)
      | t => do
        let (x, t) ← scanOnce fuel t
        let (xs, t) ← scanElems fuel t
        return (.arr (x :: xs), t)
    | '\x7b' :: t =>
      match skipWs t with
      | '\x7d' :: t => some (.obj [], t)
      | t => do
        let (kv, t) ← scanField fuel t
        let (kvs, t) ← scanFields fuel t
        return (.obj (dictOf (kv :: kvs)), t)
    | t => scanScalar t

/-- The elements behind a first one. -/
def scanElems : Nat → Text → Option (List (Json F) × Text)
  | 0, _ => none
  | fuel + 1, t =>
    match skipWs t with
    | ']' :: t => some ([], t)
    | ',' :: t => do
      let (x, t) ← scanOnce fuel (skipWs t)
      let (xs, t) ← scanElems fuel t
      return (x :: xs, t)
    | _ => none

def scanField : Nat → Text → Option ((Text × Json F) × Text)
  | 0, _ => none
  | fuel + 1, t =>
    match t with
    | '"' :: t => do
      let (k, t) ← scanString t
      match skipWs t with
      | ':' :: t =>
        let (v, t) ← scanOnce fuel (skipWs t)
        return ((k, v), t)
      | _ => none
    | _ => none

def scanFields : Nat → Text → Option (List (Text × Json F) × Text)
  | 0, _ => none
  | fuel + 1, t =>
    match skipWs t with
    | '\x7d' :: t => some ([], t)
    | ',' :: t => do
      let (kv, t) ← scanField fuel (skipWs t)
      let (kvs, t) ← scanFields fuel t
      return (kv :: kvs, t)
    | _ => none

end

/-- `json.loads`; `none` is a `JSONDecodeError`. -/
def loads (t : Text) : Option (Json F) := do
  let (v, rest) ← scanOnce (t.length + 1) (skipWs t)
  if skipWs rest = [] then return v else none

end

/-! ## Numbers are read back -/

theorem intPart_toDigits (n : Nat) : IntPart (Nat.toDigits 10 n) := by
  induction n using Nat.strongRecOn with
  | _ n ih =>
    rcases Nat.lt_or_ge n 10 with hlt | hge
    · rw [Nat.toDigits_of_lt_base hlt]
      rcases Nat.eq_zero_or_pos n with rfl | hpos
      · exact .inl rfl
      · refine .inr ⟨_, [], rfl, (by decide : ∀ m < 10, 0 < m → m.digitChar ≠ '0') n hlt hpos, ?_⟩
        rw [List.forall_mem_singleton]
        exact (by decide : ∀ m < 10, m.digitChar.isDigit = true) n hlt
    · rw [Nat.toDigits_of_base_le (by decide) hge]
      rcases ih (n / 10) (by omega) with h0 | ⟨c, u, hcu, hc, hdig⟩
      · have hval := Nat.ofDigitChars_ten_toDigits (n := n / 10)
        rw [h0] at hval
        have hpos : 0 < n / 10 := by omega
        rw [← hval] at hpos
        exact absurd hpos (by decide)
      · refine .inr ⟨c, u ++ [(n % 10).digitChar], by rw [hcu]; rfl, hc, ?_⟩
        rw [← List.cons_append, List.forall_mem_append, List.forall_mem_singleton]
        exact ⟨hdig, (by decide : ∀ m < 10, m.digitChar.isDigit = true) _ (Nat.mod_lt n (by decide))⟩

/-- What follows neither continues a number nor its fraction or exponent. -/
def NumberEnds (t : Text) : Prop := ∀ c ∈ t.head?, c.isDigit = false ∧ c ≠ '.' ∧ c ≠ 'e' ∧ c ≠ 'E'

def DigitsEnd (t : Text) : Prop := ∀ c ∈ t.head?, c.isDigit = false

theorem NumberEnds.digitsEnd {t : Text} (h : NumberEnds t) : DigitsEnd t := fun c hc => (h c hc).1

section
variable {u rest : Text}

theorem takeWhile_digits (hu : ∀ c ∈ u, c.isDigit = true) (hr : DigitsEnd rest) :
    (u ++ rest).takeWhile Char.isDigit = u ∧ (u ++ rest).dropWhile Char.isDigit = rest := by
  rw [List.takeWhile_append_of_pos hu, List.dropWhile_append_of_pos hu]
  cases rest with
  | nil => simp
  | cons c rest => simp [hr c rfl]

theorem scanDigits_append {c : Char} (hu : ∀ d ∈ c :: u, d.isDigit = true) (hr : DigitsEnd rest) :
    scanDigits (c :: u ++ rest) = some (c :: u, rest) := by
  obtain ⟨ht, hd⟩ := takeWhile_digits hu hr
  rw [scanDigits, ht, hd, if_neg (List.cons_ne_nil _ _)]

theorem scanInt_append {i : Text} (hi : IntPart i) (hr : DigitsEnd rest) : scanInt (i ++ rest) = some (i, rest) := by
  rcases hi with rfl | ⟨c, u, rfl, hc, hu⟩
  · rfl
  · obtain ⟨ht, hd⟩ := takeWhile_digits (fun d hd => hu d (List.mem_cons_of_mem _ hd)) hr
    rw [List.cons_append, scanInt, if_neg hc, if_pos (hu c List.mem_cons_self), ht, hd]

theorem scanFrac_append {f : Text} (hf : MarkedDigits [['.']] f) (hr : DigitsEnd rest) (hdot : ∀ c ∈ rest.head?, c ≠ '.') :
    scanFrac (f ++ rest) = (f, rest) := by
  rcases hf with rfl | ⟨mark, hmark, c, u, rfl, hu⟩
  · cases rest with
    | nil => rfl
    | cons d rest =>
      have hd := hdot d rfl
      unfold scanFrac
      split
      · rename_i heq
        cases heq
        exact absurd rfl hd
      · rfl
  · rw [List.mem_singleton.1 hmark]
    show ((scanDigits (c :: u ++ rest)).map fun r => ('.' :: r.1, r.2)).getD _ = _
    rw [scanDigits_append hu hr]
    rfl

theorem scanSign_append {marks sign t : Text} {c : Char} (hs : sign = [] ∨ ∃ m ∈ marks, sign = [m]) (hc : c ∉ marks) :
    scanSign marks (sign ++ c :: t) = (sign, c :: t) := by
  rcases hs with rfl | ⟨m, hm, rfl⟩
  · rw [List.nil_append, scanSign, if_neg hc]
  · rw [List.singleton_append, scanSign, if_pos hm]

theorem digit_not_mem {marks : Text} (hm : ∀ m ∈ marks, m.isDigit = false) {c : Char} (hc : c.isDigit = true) :
    c ∉ marks := fun h => by simp [hm c h] at hc

theorem scanExp_append {e : Text} (he : MarkedDigits exponentMarks e) (hr : NumberEnds rest) :
    scanExp (e ++ rest) = (e, rest) := by
  rcases he with rfl | ⟨mark, hmark, c, u, rfl, hu⟩
  · cases rest with
    | nil => rfl
    | cons d rest =>
      obtain ⟨-, -, hlow, hup⟩ := hr d rfl
      simp [scanExp, hlow, hup]
  · have hdigits := scanDigits_append hu hr.digitsEnd
    obtain ⟨l, hl, hmark⟩ := List.mem_flatMap.1 hmark
    obtain ⟨sign, rfl, hsign⟩ : ∃ sign, mark = l :: sign ∧ (sign = [] ∨ ∃ m ∈ ['+', '-'], sign = [m]) := by
      simp only [List.mem_cons, List.not_mem_nil, or_false] at hmark
      rcases hmark with rfl | rfl | rfl <;> exact ⟨_, rfl, by simp⟩
    have hle : l = 'e' ∨ l = 'E' := by simpa using hl
    have hscan : scanSign ['+', '-'] (sign ++ (c :: u ++ rest)) = (sign, c :: u ++ rest) :=
      scanSign_append hsign (digit_not_mem (by simp) (hu c List.mem_cons_self))
    rw [show l :: sign ++ c :: u ++ rest = l :: (sign ++ (c :: u ++ rest)) by simp, scanExp, if_pos hle, hscan]
    simp only [hdigits, Option.map_some, Option.getD_some]
    rfl

end

theorem IntPart.head {i : Text} (h : IntPart i) : ∃ c u, i = c :: u ∧ c.isDigit = true := by
  rcases h with rfl | ⟨c, u, rfl, -, hu⟩
  · exact ⟨'0', [], rfl, rfl⟩
  · exact ⟨c, u, rfl, hu c List.mem_cons_self⟩

/-- How a fraction or an exponent begins, or what follows it. -/
theorem MarkedDigits.head {marks : List Text} {P : Char → Prop} (hm : ∀ m ∈ marks, ∃ d v, m = d :: v ∧ P d)
    {t rest : Text} (h : MarkedDigits marks t) (hr : ∀ c ∈ rest.head?, P c) : ∀ c ∈ (t ++ rest).head?, P c := by
  rcases h with rfl | ⟨mark, hmark, c, u, rfl, -⟩
  · exact hr
  · obtain ⟨d, v, rfl, hd⟩ := hm mark hmark
    rintro x hx
    cases hx
    exact hd

theorem exponentMarks_head : ∀ m ∈ exponentMarks, ∃ d v, m = d :: v ∧ d.isDigit = false ∧ d ≠ '.' := by
  intro m hm
  simp only [exponentMarks, List.flatMap_cons, List.flatMap_nil, List.append_nil, List.cons_append, List.nil_append,
    List.mem_cons, List.not_mem_nil, or_false] at hm
  rcases hm with rfl | rfl | rfl | rfl | rfl | rfl <;> exact ⟨_, _, rfl, by decide, by decide⟩

section
variable {F : Type} [JsonFloat F] {sign i f e rest : Text}

theorem scanNumber_append (hs : sign = [] ∨ sign = ['-']) (hi : IntPart i) (hf : MarkedDigits [['.']] f)
    (he : MarkedDigits exponentMarks e) (hr : NumberEnds rest) :
    scanNumber (F := F) (sign ++ i ++ f ++ e ++ rest) =
      if f = [] ∧ e = [] then
        some (.int (if sign = [] then Nat.ofDigitChars 10 i 0 else -(Nat.ofDigitChars 10 i 0 : Nat)), rest)
      else some (.float (JsonFloat.ofToken (sign ++ i ++ f ++ e)), rest) := by
  obtain ⟨c, u, rfl, hc⟩ := hi.head
  have hsign : scanSign ['-'] (sign ++ c :: (u ++ (f ++ (e ++ rest)))) = (sign, c :: (u ++ (f ++ (e ++ rest)))) :=
    scanSign_append (by simpa using hs) (digit_not_mem (by simp) hc)
  have hexp : ∀ c ∈ (e ++ rest).head?, c.isDigit = false ∧ c ≠ '.' :=
    he.head exponentMarks_head fun c hc => ⟨(hr c hc).1, (hr c hc).2.1⟩
  have hfrac : DigitsEnd (f ++ (e ++ rest)) :=
    hf.head (P := fun c => c.isDigit = false) (fun m hm => ⟨'.', [], List.mem_singleton.1 hm, rfl⟩)
      fun c hc => (hexp c hc).1
  have hint : scanInt (c :: (u ++ (f ++ (e ++ rest)))) = some (c :: u, f ++ (e ++ rest)) := scanInt_append hi hfrac
  rw [show sign ++ c :: u ++ f ++ e ++ rest = sign ++ c :: (u ++ (f ++ (e ++ rest))) by simp]
  simp only [scanNumber, hsign, hint, scanExp_append he hr, bind, Option.bind,
    scanFrac_append hf (fun c hc => (hexp c hc).1) fun c hc => (hexp c hc).2]
  split
  · rename_i hfe
    rw [hfe.1, hfe.2]
    rfl
  · rfl

theorem scanNumber_digits (hs : sign = [] ∨ sign = ['-']) (n : Nat) (hr : NumberEnds rest) :
    scanNumber (F := F) (sign ++ (Nat.toDigits 10 n ++ rest)) = some (.int (if sign = [] then n else -(n : Int)), rest) := by
  have hnum := scanNumber_append (F := F) hs (intPart_toDigits n) (.inl rfl) (.inl rfl) hr
  simp only [List.append_nil, List.append_assoc, and_self, if_true, Nat.ofDigitChars_ten_toDigits] at hnum
  exact hnum

theorem scanNumber_int (n : Int) (hr : NumberEnds rest) : scanNumber (F := F) (intText n ++ rest) = some (.int n, rest) := by
  by_cases hneg : n < 0
  · rw [intText, if_pos hneg]
    refine (scanNumber_digits (.inr rfl) n.natAbs hr).trans ?_
    have hn : -(n.natAbs : Int) = n := by omega
    rw [if_neg (List.cons_ne_nil _ _), hn]
  · rw [intText, if_neg hneg]
    refine (scanNumber_digits (.inl rfl) n.natAbs hr).trans ?_
    have hn : (n.natAbs : Int) = n := by omega
    simp [hn]

theorem scanNumber_float {t : Text} (h : FloatToken t) (hr : NumberEnds rest) :
    scanNumber (F := F) (t ++ rest) = some (.float (JsonFloat.ofToken t), rest) := by
  obtain ⟨sign, i, f, e, rfl, hs, hi, hf, he, hfe⟩ := h
  rw [scanNumber_append hs hi hf he hr, if_neg]
  rintro ⟨rfl, rfl⟩
  simp at hfe

end

/-! ## Strings are read back -/

theorem hexValue_digitChar : ∀ d < 16, hexValue d.digitChar = some d := by decide

theorem scanUnits_hex4 {n : Nat} (hn : n < 65536) (t : Text) :
    scanUnits ('\\' :: 'u' :: (hex4 n ++ t)) = (scanUnits t).map fun r => (n :: r.1, r.2) := by
  have hval : hex4Value (n / 4096 % 16).digitChar (n / 256 % 16).digitChar (n / 16 % 16).digitChar
      (n % 16).digitChar = some n := by
    simp only [hex4Value, hexValue_digitChar _ (Nat.mod_lt _ (by decide)), bind, Option.bind, pure, Option.some.injEq]
    omega
  simp only [hex4, List.cons_append, List.nil_append, scanUnits, hval, bind, Option.bind, pure]
  cases scanUnits t <;> simp

theorem char_units (c : Char) : c.toNat < 0xd800 ∨ 0xe000 ≤ c.toNat ∧ c.toNat < 0x110000 := by
  rcases c.valid with h | h
  · exact .inl h
  · exact .inr ⟨h.1, h.2⟩

theorem utf16_lt (c : Char) : ∀ u ∈ utf16 c.toNat, u < 65536 := by
  have hc := char_units c
  unfold utf16
  split
  · simpa using by omega
  · simp only [List.mem_cons, List.not_mem_nil, or_false, forall_eq_or_imp, forall_eq]
    omega

theorem scanUnits_flatMap (us : List Nat) (h : ∀ u ∈ us, u < 65536) (t : Text) :
    scanUnits ((us.flatMap fun u => '\\' :: 'u' :: hex4 u) ++ t) = (scanUnits t).map fun r => (us ++ r.1, r.2) := by
  induction us with
  | nil => simp
  | cons u us ih =>
    rw [List.forall_mem_cons] at h
    rw [List.flatMap_cons, List.append_assoc, List.cons_append, List.cons_append, scanUnits_hex4 h.1, ih h.2]
    cases scanUnits t <;> rfl

theorem scanUnits_quote (t : Text) : scanUnits ('"' :: t) = some ([], t) := by
  rw [scanUnits.eq_def]
  rfl

theorem scanUnits_escape {e : Char} {u : Nat} (he : e ≠ 'u') (hu : escapeValue e = some u) (t : Text) :
    scanUnits ('\\' :: e :: t) = (scanUnits t).map fun r => (u :: r.1, r.2) := by
  rw [scanUnits.eq_def]
  simp only [Char.reduceEq, if_false, if_true, he, hu, bind, Option.bind, pure]
  cases scanUnits t <;> rfl

theorem scanUnits_plain {c : Char} (hq : c ≠ '"') (hb : c ≠ '\\') (hc : 32 ≤ c.toNat) (t : Text) :
    scanUnits (c :: t) = (scanUnits t).map fun r => (c.toNat :: r.1, r.2) := by
  rw [scanUnits.eq_def]
  simp only [hq, hb, if_false, if_neg (Nat.not_lt.2 hc)]

/-- A character is read back as its code units. -/
theorem scanUnits_escapeChar (c : Char) (t : Text) :
    scanUnits (escapeChar c ++ t) = (scanUnits t).map fun r => (utf16 c.toNat ++ r.1, r.2) := by
  unfold escapeChar
  split
  · rename_i hc
    rcases hc with rfl | rfl <;> exact scanUnits_escape (by decide) rfl t
  split
  · subst_vars
    exact scanUnits_escape (by decide) rfl t
  split
  · subst_vars
    exact scanUnits_escape (by decide) rfl t
  split
  · subst_vars
    exact scanUnits_escape (by decide) rfl t
  split
  · rename_i hc
    rw [hc]
    exact scanUnits_escape (by decide) rfl t
  split
  · rename_i hc
    rw [hc]
    exact scanUnits_escape (by decide) rfl t
  split
  · rename_i h1 _ _ _ _ _ hc
    rw [not_or] at h1
    rw [List.singleton_append, scanUnits_plain h1.1 h1.2 hc.1, utf16, if_pos (by omega)]
    rfl
  · exact scanUnits_flatMap _ (utf16_lt c) t

theorem joinUnits_single {u : Nat} (hh : isHigh u = false) (hl : isLow u = false) (us : List Nat) :
    joinUnits (u :: us) = (joinUnits us).map (Char.ofNat u :: ·) := by
  rw [joinUnits.eq_def]
  simp only [hh, hl, Bool.false_eq_true, if_false]

theorem joinUnits_utf16 (c : Char) (us : List Nat) :
    joinUnits (utf16 c.toNat ++ us) = (joinUnits us).map (c :: ·) := by
  have hc := char_units c
  unfold utf16
  split
  · have hhigh : isHigh c.toNat = false := by simp [isHigh]; omega
    have hlow : isLow c.toNat = false := by simp [isLow]; omega
    rw [List.singleton_append, joinUnits_single hhigh hlow, Char.ofNat_toNat]
  · have hhigh : isHigh (0xd800 + (c.toNat - 0x10000) / 1024) = true := by simp [isHigh]; omega
    have hlow : isLow (0xdc00 + (c.toNat - 0x10000) % 1024) = true := by simp [isLow]; omega
    have hval : 0x10000 + (0xd800 + (c.toNat - 0x10000) / 1024 - 0xd800) * 1024 +
        (0xdc00 + (c.toNat - 0x10000) % 1024 - 0xdc00) = c.toNat := by omega
    simp only [List.cons_append, List.nil_append, joinUnits, hhigh, hlow, if_true, hval, Char.ofNat_toNat]

theorem scanString_append (s t : Text) : scanString (s.flatMap escapeChar ++ '"' :: t) = some (s, t) := by
  have hscan : scanUnits (s.flatMap escapeChar ++ '"' :: t) = some (s.flatMap fun c => utf16 c.toNat, t) := by
    induction s with
    | nil => exact scanUnits_quote t
    | cons c s ih =>
      rw [List.flatMap_cons, List.append_assoc, scanUnits_escapeChar, ih]
      rfl
  have hjoin : joinUnits (s.flatMap fun c => utf16 c.toNat) = some s := by
    clear hscan
    induction s with
    | nil => rfl
    | cons c s ih => rw [List.flatMap_cons, joinUnits_utf16, ih]; rfl
  simp [scanString, hscan, hjoin]

/-! ## Values are read back -/

section
variable {F : Type}

mutual

/-- The keys of every object are distinct, as those of a dict are. -/
def Json.WellKeyed : Json F → Prop
  | .arr xs => WellKeyedElems xs
  | .obj kvs => (kvs.map Prod.fst).Nodup ∧ WellKeyedFields kvs
  | _ => True

def WellKeyedElems : List (Json F) → Prop
  | [] => True
  | x :: xs => x.WellKeyed ∧ WellKeyedElems xs

def WellKeyedFields : List (Text × Json F) → Prop
  | [] => True
  | (_, v) :: kvs => v.WellKeyed ∧ WellKeyedFields kvs

end

mutual

/-- The nested calls it takes to read a value. -/
def Json.size : Json F → Nat
  | .arr (x :: xs) => 1 + x.size + sizeElems xs
  | .obj ((_, v) :: kvs) => 2 + v.size + sizeFields kvs
  | _ => 1

def sizeElems : List (Json F) → Nat
  | [] => 1
  | x :: xs => 1 + x.size + sizeElems xs

def sizeFields : List (Text × Json F) → Nat
  | [] => 1
  | (_, v) :: kvs => 2 + v.size + sizeFields kvs

end

theorem size_pos (v : Json F) : 0 < v.size := by
  match v with
  | .null | .bool _ | .int _ | .float _ | .str _ | .arr [] | .obj [] => exact Nat.one_pos
  | .arr (_ :: _) | .obj ((_, _) :: _) =>
    simp only [Json.size]
    omega

theorem wellKeyedFields_iff {kvs : List (Text × Json F)} : WellKeyedFields kvs ↔ ∀ p ∈ kvs, p.2.WellKeyed := by
  induction kvs with
  | nil => simp [WellKeyedFields]
  | cons p kvs ih => rw [WellKeyedFields, ih, List.forall_mem_cons]

variable [JsonFloat F]

/-- A value does not begin with white space or a closing bracket. -/
def ValueHead (c : Char) : Prop := c ≠ ' ' ∧ c ≠ '\t' ∧ c ≠ '\n' ∧ c ≠ '\r' ∧ c ≠ ']'

instance ValueHead.decidable (c : Char) : Decidable (ValueHead c) := by unfold ValueHead; infer_instance

theorem ValueHead.of_digit {c : Char} (hc : c.isDigit = true) : ValueHead c := by
  refine ⟨?_, ?_, ?_, ?_, ?_⟩ <;> (rintro rfl; exact absurd hc (by decide))

theorem intText_head (n : Int) : ∃ c t, intText n = c :: t ∧ (c = '-' ∨ c.isDigit = true) := by
  unfold intText
  split
  · exact ⟨_, _, rfl, .inl rfl⟩
  · obtain ⟨c, u, hcu, hc⟩ := (intPart_toDigits n.natAbs).head
    exact ⟨c, u, hcu, .inr hc⟩

theorem token_head (x : F) : ∃ c t, JsonFloat.token x = c :: t ∧ (c = '-' ∨ c = 'N' ∨ c = 'I' ∨ c.isDigit = true) := by
  rcases JsonFloat.isToken x with ⟨sign, i, f, e, ht, hs, hi, -⟩ | hmem
  · obtain ⟨c, u, rfl, hc⟩ := hi.head
    rcases hs with rfl | rfl
    · exact ⟨c, _, by rw [ht]; simp; rfl, .inr (.inr (.inr hc))⟩
    · exact ⟨'-', _, by rw [ht]; simp; rfl, .inl rfl⟩
  · simp only [nonFinite, List.mem_cons, List.not_mem_nil, or_false] at hmem
    rcases hmem with h | h | h
    · exact ⟨'N', _, h, .inr (.inl rfl)⟩
    · exact ⟨'I', _, h, .inr (.inr (.inl rfl))⟩
    · exact ⟨'-', _, h, .inl rfl⟩

theorem dumps_head (v : Json F) : ∃ c t, dumps v = c :: t ∧ ValueHead c := by
  match v with
  | .null => exact ⟨'n', _, rfl, by decide⟩
  | .bool true => exact ⟨'t', _, rfl, by decide⟩
  | .bool false => exact ⟨'f', _, rfl, by decide⟩
  | .str _ => exact ⟨'"', _, rfl, by decide⟩
  | .arr [] | .arr (_ :: _) => exact ⟨'[', _, rfl, by decide⟩
  | .obj [] | .obj ((_, _) :: _) => exact ⟨'\x7b', _, rfl, by decide⟩
  | .int n =>
    obtain ⟨c, t, ht, hc⟩ := intText_head n
    refine ⟨c, t, by rw [dumps, ht], ?_⟩
    rcases hc with rfl | hc
    · decide
    · exact .of_digit hc
  | .float x =>
    obtain ⟨c, t, ht, hc⟩ := token_head x
    refine ⟨c, t, by rw [dumps, ht], ?_⟩
    rcases hc with rfl | rfl | rfl | hc
    · decide
    · decide
    · decide
    · exact .of_digit hc

theorem skipWs_of_head {c : Char} {t : Text} (h : ValueHead c) : skipWs (c :: t) = c :: t := by
  obtain ⟨h1, h2, h3, h4, -⟩ := h
  simp [skipWs, h1, h2, h3, h4]

theorem skipWs_dumps (v : Json F) (t : Text) : skipWs (dumps v ++ t) = dumps v ++ t := by
  obtain ⟨c, u, hu, hc⟩ := dumps_head v
  rw [hu, List.cons_append, skipWs_of_head hc]

theorem scanOnce_scalar {c : Char} {t : Text} (h1 : c ≠ '"') (h2 : c ≠ '[') (h3 : c ≠ '\x7b') (fuel : Nat) :
    scanOnce (F := F) (fuel + 1) (c :: t) = scanScalar (c :: t) := by
  rw [scanOnce.eq_def]
  simp only
  split <;> simp_all

theorem scanScalar_of_number {t : Text} {r : Json F × Text} (h : scanNumber t = some r) : scanScalar t = some r := by
  rw [scanScalar, h]
  rfl

theorem scanScalar_null (t : Text) : scanScalar (F := F) ("null".toList ++ t) = some (.null, t) := by
  simp [scanScalar, scanNumber, scanSign, scanInt, literals, nonFinite, List.dropPrefix?]

theorem scanScalar_true (t : Text) : scanScalar (F := F) ("true".toList ++ t) = some (.bool true, t) := by
  simp [scanScalar, scanNumber, scanSign, scanInt, literals, nonFinite, List.dropPrefix?]

theorem scanScalar_false (t : Text) : scanScalar (F := F) ("false".toList ++ t) = some (.bool false, t) := by
  simp [scanScalar, scanNumber, scanSign, scanInt, literals, nonFinite, List.dropPrefix?]

theorem scanScalar_nonFinite {w : Text} (hw : w ∈ nonFinite) (t : Text) :
    scanScalar (F := F) (w ++ t) = some (.float (JsonFloat.ofToken w), t) := by
  simp only [nonFinite, List.mem_cons, List.not_mem_nil, or_false] at hw
  rcases hw with rfl | rfl | rfl <;>
    simp [scanScalar, scanNumber, scanSign, scanInt, literals, nonFinite, List.dropPrefix?]

theorem scanOnce_int (n : Int) {fuel : Nat} {t : Text} (ht : NumberEnds t) :
    scanOnce (F := F) (fuel + 1) (intText n ++ t) = some (.int n, t) := by
  obtain ⟨c, u, hu, hc⟩ := intText_head n
  have hnum := scanScalar_of_number (scanNumber_int (F := F) n ht)
  rw [hu, List.cons_append] at hnum ⊢
  rw [scanOnce_scalar ?_ ?_ ?_, hnum] <;> (rintro rfl; exact absurd hc (by decide))

theorem scanOnce_float (x : F) {fuel : Nat} {t : Text} (ht : NumberEnds t) :
    scanOnce (fuel + 1) (JsonFloat.token x ++ t) = some (.float x, t) := by
  obtain ⟨c, u, hu, hc⟩ := token_head x
  have hscalar : scanScalar (JsonFloat.token x ++ t) = some (.float x, t) := by
    rcases JsonFloat.isToken x with htok | hmem
    · rw [scanScalar_of_number (scanNumber_float htok ht), JsonFloat.ofToken_token]
    · rw [scanScalar_nonFinite hmem, JsonFloat.ofToken_token]
  rw [hu, List.cons_append] at hscalar ⊢
  rw [scanOnce_scalar ?_ ?_ ?_, hscalar] <;> (rintro rfl; exact absurd hc (by decide))

theorem numberEnds_elems (xs : List (Json F)) (t : Text) : NumberEnds (dumpsElems xs ++ t) := by
  cases xs <;> (rintro c hc; cases hc; decide)

theorem numberEnds_fields (kvs : List (Text × Json F)) (t : Text) : NumberEnds (dumpsFields kvs ++ t) := by
  match kvs with
  | [] | (_, _) :: _ =>
    rintro c hc
    cases hc
    decide

mutual

theorem scanOnce_dumps (v : Json F) (fuel : Nat) (t : Text) (hv : v.WellKeyed) (hf : v.size ≤ fuel) (ht : NumberEnds t) :
    scanOnce fuel (dumps v ++ t) = some (v, t) := by
  cases fuel with
  | zero => exact absurd (size_pos v) (by omega)
  | succ fuel =>
    match v, hv, hf with
    | .null, _, _ => exact (scanOnce_scalar (by decide) (by decide) (by decide) fuel).trans (scanScalar_null t)
    | .bool true, _, _ => exact (scanOnce_scalar (by decide) (by decide) (by decide) fuel).trans (scanScalar_true t)
    | .bool false, _, _ => exact (scanOnce_scalar (by decide) (by decide) (by decide) fuel).trans (scanScalar_false t)
    | .int n, _, _ => exact scanOnce_int n ht
    | .float x, _, _ => exact scanOnce_float x ht
    | .str s, _, _ =>
      have hs := scanString_append s t
      simp [dumps, quoted, scanOnce, hs]
    | .arr [], _, _ => rfl
    | .arr (x :: xs), hv, hf =>
      simp only [Json.size] at hf
      have hx := scanOnce_dumps x fuel (dumpsElems xs ++ t) hv.1 (by omega) (numberEnds_elems xs t)
      have hxs := scanElems_dumps xs fuel t hv.2 (by omega)
      rw [dumps, List.cons_append, List.append_assoc]
      obtain ⟨c, u, hu, hc⟩ := dumps_head x
      have hws := skipWs_dumps x (dumpsElems xs ++ t)
      rw [hu, List.cons_append] at hx hws ⊢
      have hbracket : c ≠ ']' := hc.2.2.2.2
      simp [scanOnce, hws, hbracket, hx, hxs]
    | .obj [], _, _ => rfl
    | .obj ((k, v) :: kvs), hv, hf =>
      simp only [Json.size] at hf
      have hkv := scanField_dumps k v fuel (dumpsFields kvs ++ t) hv.2.1 (by omega) (numberEnds_fields kvs t)
      have hkvs := scanFields_dumps kvs fuel t hv.2.2 (by omega)
      rw [quoted, List.cons_append] at hkv
      simp [dumps, scanOnce, quoted, skipWs]
      simp at hkv
      simp [hkv, hkvs, dictOf_eq hv.1]
termination_by fuel

theorem scanElems_dumps (xs : List (Json F)) (fuel : Nat) (t : Text) (hx : WellKeyedElems xs)
    (hf : sizeElems xs ≤ fuel) : scanElems fuel (dumpsElems xs ++ t) = some (xs, t) := by
  cases fuel with
  | zero => cases xs <;> simp [sizeElems] at hf
  | succ fuel =>
    match xs, hx, hf with
    | [], _, _ => rfl
    | x :: xs, hx, hf =>
      simp only [sizeElems] at hf
      have hhead := scanOnce_dumps x fuel (dumpsElems xs ++ t) hx.1 (by omega) (numberEnds_elems xs t)
      have htail := scanElems_dumps xs fuel t hx.2 (by omega)
      have hws : skipWs (' ' :: (dumps x ++ (dumpsElems xs ++ t))) = dumps x ++ (dumpsElems xs ++ t) :=
        skipWs_dumps x (dumpsElems xs ++ t)
      rw [dumpsElems, List.cons_append, List.cons_append, List.append_assoc, scanElems,
        show ∀ u, skipWs (',' :: u) = ',' :: u from fun _ => rfl]
      simp [hws, hhead, htail]
termination_by fuel

theorem scanField_dumps (k : Text) (v : Json F) (fuel : Nat) (t : Text) (hv : v.WellKeyed) (hf : 1 + v.size ≤ fuel)
    (ht : NumberEnds t) : scanField fuel (quoted k ++ ':' :: ' ' :: (dumps v ++ t)) = some ((k, v), t) := by
  cases fuel with
  | zero => simp at hf
  | succ fuel =>
    have hk := scanString_append k (':' :: ' ' :: (dumps v ++ t))
    have hval := scanOnce_dumps v fuel t hv (by omega) ht
    have hws : skipWs (' ' :: (dumps v ++ t)) = dumps v ++ t := skipWs_dumps v t
    rw [quoted, List.cons_append, List.append_assoc, List.singleton_append, scanField, hk]
    simp [show ∀ u, skipWs (':' :: u) = ':' :: u from fun _ => rfl, hws, hval]
termination_by fuel

theorem scanFields_dumps (kvs : List (Text × Json F)) (fuel : Nat) (t : Text) (hv : WellKeyedFields kvs)
    (hf : sizeFields kvs ≤ fuel) : scanFields fuel (dumpsFields kvs ++ t) = some (kvs, t) := by
  cases fuel with
  | zero => cases kvs <;> simp [sizeFields] at hf
  | succ fuel =>
    match kvs, hv, hf with
    | [], _, _ => rfl
    | (k, v) :: kvs, hv, hf =>
      simp only [sizeFields] at hf
      have hhead := scanField_dumps k v fuel (dumpsFields kvs ++ t) hv.1 (by omega) (numberEnds_fields kvs t)
      have htail := scanFields_dumps kvs fuel t hv.2 (by omega)
      have hws : ∀ u, skipWs (' ' :: (quoted k ++ u)) = quoted k ++ u := fun _ => rfl
      rw [dumpsFields, List.cons_append, List.cons_append, List.append_assoc, List.cons_append, List.cons_append,
        List.append_assoc, scanFields, show ∀ u, skipWs (',' :: u) = ',' :: u from fun _ => rfl]
      simp [hws, hhead, htail]
termination_by fuel

end

mutual

theorem size_le_length : ∀ v : Json F, v.size ≤ (dumps v).length
  | .arr (x :: xs) => by
    have hx := size_le_length x
    have hxs := sizeElems_le_length xs
    simp only [Json.size, dumps, List.length_cons, List.length_append]
    omega
  | .obj ((k, v) :: kvs) => by
    have hv := size_le_length v
    have hkvs := sizeFields_le_length kvs
    simp only [Json.size, dumps, List.length_cons, List.length_append]
    omega
  | .null | .bool _ | .int _ | .float _ | .str _ | .arr [] | .obj [] => by
    obtain ⟨c, u, hu, -⟩ := dumps_head (F := F) _
    rw [hu]
    simp [Json.size]

theorem sizeElems_le_length : ∀ xs : List (Json F), sizeElems xs ≤ (dumpsElems xs).length
  | [] => Nat.le_refl _
  | x :: xs => by
    have hx := size_le_length x
    have hxs := sizeElems_le_length xs
    simp only [sizeElems, dumpsElems, List.length_cons, List.length_append]
    omega

theorem sizeFields_le_length : ∀ kvs : List (Text × Json F), sizeFields kvs ≤ (dumpsFields kvs).length
  | [] => Nat.le_refl _
  | (k, v) :: kvs => by
    have hv := size_le_length v
    have hkvs := sizeFields_le_length kvs
    simp only [sizeFields, dumpsFields, List.length_cons, List.length_append]
    omega

end

/-- What `dumps` writes, `loads` reads. -/
theorem loads_dumps {v : Json F} (hv : v.WellKeyed) : loads (dumps v) = some v := by
  have hscan := scanOnce_dumps v ((dumps v).length + 1) [] hv (Nat.le_succ_of_le (size_le_length v)) nofun
  have hws := skipWs_dumps v []
  rw [List.append_nil] at hscan hws
  simp only [loads, hws, hscan, bind, Option.bind]
  rfl

/-! ## What is read is well keyed -/

theorem wellKeyed_scanNumber {t r : Text} {v : Json F} (h : scanNumber t = some (v, r)) : v.WellKeyed := by
  simp only [scanNumber, bind, Option.bind_eq_some_iff] at h
  obtain ⟨i, -, h⟩ := h
  split at h <;> (cases h; trivial)

theorem wellKeyed_scanScalar {t r : Text} {v : Json F} (h : scanScalar t = some (v, r)) : v.WellKeyed := by
  unfold scanScalar at h
  cases hn : scanNumber (F := F) t with
  | some x =>
    rw [hn] at h
    cases h
    exact wellKeyed_scanNumber hn
  | none =>
    rw [hn] at h
    obtain ⟨⟨w, x⟩, hmem, h⟩ := List.exists_of_findSome?_eq_some h
    obtain ⟨u, -, hu⟩ := Option.map_eq_some_iff.1 h
    cases hu
    simp only [literals, List.mem_append, List.mem_cons, List.not_mem_nil, or_false, List.mem_map, Prod.mk.injEq] at hmem
    rcases hmem with (⟨-, rfl⟩ | ⟨-, rfl⟩ | ⟨-, rfl⟩) | ⟨_, -, -, rfl⟩ <;> trivial

theorem wellKeyed_scan (fuel : Nat) :
    (∀ t (v : Json F) r, scanOnce fuel t = some (v, r) → v.WellKeyed) ∧
    (∀ t (xs : List (Json F)) r, scanElems fuel t = some (xs, r) → WellKeyedElems xs) ∧
    (∀ t k (v : Json F) r, scanField fuel t = some ((k, v), r) → v.WellKeyed) ∧
    (∀ t (kvs : List (Text × Json F)) r, scanFields fuel t = some (kvs, r) → WellKeyedFields kvs) := by
  induction fuel with
  | zero => exact ⟨nofun, nofun, nofun, nofun⟩
  | succ fuel ih =>
    obtain ⟨ihOnce, ihElems, ihField, ihFields⟩ := ih
    refine ⟨fun t v r h => ?_, fun t xs r h => ?_, fun t k v r h => ?_, fun t kvs r h => ?_⟩
    · -- A value: an array, an object, or a scalar without keys.
      unfold scanOnce at h
      split at h
      · obtain ⟨_, -, hr⟩ := Option.map_eq_some_iff.1 h
        cases hr
        trivial
      · split at h
        · cases h
          trivial
        · simp only [bind, Option.bind_eq_some_iff] at h
          obtain ⟨⟨x, _⟩, hx, ⟨xs, _⟩, hxs, hr⟩ := h
          cases hr
          exact ⟨ihOnce _ _ _ hx, ihElems _ _ _ hxs⟩
      · split at h
        · cases h
          exact ⟨List.nodup_nil, trivial⟩
        · simp only [bind, Option.bind_eq_some_iff] at h
          obtain ⟨⟨⟨k, x⟩, _⟩, hkv, ⟨kvs, _⟩, hkvs, hr⟩ := h
          cases hr
          -- The keys of the dictionary are distinct, whatever the fields are.
          refine ⟨nodup_dictOf _, wellKeyedFields_iff.2 fun p hp => ?_⟩
          rcases List.mem_cons.1 (mem_dictOf hp) with rfl | hp
          · exact ihField _ _ _ _ hkv
          · exact wellKeyedFields_iff.1 (ihFields _ _ _ hkvs) p hp
      · exact wellKeyed_scanScalar h
    · unfold scanElems at h
      split at h
      · cases h
        trivial
      · simp only [bind, Option.bind_eq_some_iff] at h
        obtain ⟨⟨x, _⟩, hx, ⟨xs, _⟩, hxs, hr⟩ := h
        cases hr
        exact ⟨ihOnce _ _ _ hx, ihElems _ _ _ hxs⟩
      · cases h
    · unfold scanField at h
      split at h
      · simp only [bind, Option.bind_eq_some_iff] at h
        obtain ⟨⟨k, _⟩, -, h⟩ := h
        split at h
        · rw [Option.bind_eq_some_iff] at h
          obtain ⟨⟨x, _⟩, hx, hr⟩ := h
          cases hr
          exact ihOnce _ _ _ hx
        · cases h
      · cases h
    · unfold scanFields at h
      split at h
      · cases h
        trivial
      · simp only [bind, Option.bind_eq_some_iff] at h
        obtain ⟨⟨⟨k, x⟩, _⟩, hkv, ⟨kvs, _⟩, hkvs, hr⟩ := h
        cases hr
        exact ⟨ihField _ _ _ _ hkv, ihFields _ _ _ hkvs⟩
      · cases h

/-- `loads` gives dicts. -/
theorem wellKeyed_loads {t : Text} {v : Json F} (h : loads t = some v) : v.WellKeyed := by
  simp only [loads, bind, Option.bind_eq_some_iff] at h
  obtain ⟨⟨x, r⟩, hx, h⟩ := h
  split at h
  · cases h
    exact (wellKeyed_scan _).1 _ _ _ hx
  · cases h

/-! ## A text is longer than the string it holds -/

theorem scanUnits_length (t : Text) : ∀ us r, scanUnits t = some (us, r) → us.length + r.length < t.length := by
  fun_induction scanUnits t with
  | case1 | case3 | case5 | case7 => nofun
  | case2 t =>
    rintro us r h
    cases h
    simp
  | case4 _ _ _ _ _ _ ih | case6 _ _ _ _ ih =>
    intro us r h
    simp only [bind, Option.bind_eq_some_iff] at h
    obtain ⟨u, -, ⟨vs, rest⟩, hrest, h⟩ := h
    cases h
    have hlen := ih _ _ hrest
    simp only [List.length_cons] at hlen ⊢
    omega
  | case8 _ _ _ _ _ ih =>
    intro us r h
    obtain ⟨⟨vs, rest⟩, hrest, h⟩ := Option.map_eq_some_iff.1 h
    cases h
    have hlen := ih _ _ hrest
    simp only [List.length_cons] at hlen ⊢
    omega

theorem joinUnits_length (us : List Nat) : ∀ s, joinUnits us = some s → s.length ≤ us.length := by
  fun_induction joinUnits us with
  | case1 =>
    rintro s h
    cases h
    exact Nat.le_refl _
  | case2 | case4 | case5 => nofun
  | case3 _ _ _ _ _ ih | case6 _ _ _ _ ih =>
    intro s h
    obtain ⟨s, hs, rfl⟩ := Option.map_eq_some_iff.1 h
    have hlen := ih _ hs
    simp only [List.length_cons] at hlen ⊢
    omega

theorem scanScalar_not_str {t r s : Text} : scanScalar (F := F) t ≠ some (.str s, r) := by
  intro h
  unfold scanScalar at h
  cases hn : scanNumber (F := F) t with
  | some x =>
    rw [hn] at h
    cases h
    simp only [scanNumber, bind, Option.bind_eq_some_iff] at hn
    obtain ⟨i, -, hn⟩ := hn
    split at hn <;> cases hn
  | none =>
    rw [hn] at h
    obtain ⟨⟨w, x⟩, hmem, h⟩ := List.exists_of_findSome?_eq_some h
    obtain ⟨u, -, hu⟩ := Option.map_eq_some_iff.1 h
    cases hu
    simp [literals] at hmem

/-- A string costs its quotes and at least a character for each of its own. -/
theorem scanOnce_str_length {fuel : Nat} {t r s : Text} (h : scanOnce (F := F) fuel t = some (.str s, r)) :
    s.length + 2 ≤ t.length := by
  cases fuel with
  | zero => cases h
  | succ fuel =>
    unfold scanOnce at h
    split at h
    · obtain ⟨⟨s', r'⟩, hs, hr⟩ := Option.map_eq_some_iff.1 h
      cases hr
      simp only [scanString, bind, Option.bind_eq_some_iff] at hs
      obtain ⟨⟨us, rest⟩, hus, text, htext, hr⟩ := hs
      cases hr
      have hunits := scanUnits_length _ _ _ hus
      have hjoin : s'.length ≤ us.length := joinUnits_length _ _ htext
      simp only [List.length_cons]
      omega
    · split at h
      · cases h
      · simp only [bind, Option.bind_eq_some_iff] at h
        obtain ⟨_, -, _, -, hr⟩ := h
        cases hr
    · split at h
      · cases h
      · simp only [bind, Option.bind_eq_some_iff] at h
        obtain ⟨_, -, _, -, hr⟩ := h
        cases hr
    · exact absurd h scanScalar_not_str

theorem loads_str_length {t s : Text} (h : loads (F := F) t = some (.str s)) : s.length + 2 ≤ t.length := by
  simp only [loads, bind, Option.bind_eq_some_iff] at h
  obtain ⟨⟨x, r⟩, hx, h⟩ := h
  split at h
  · cases h
    exact Nat.le_trans (scanOnce_str_length hx) (List.dropWhile_suffix _).length_le
  · cases h

end

end AgentSdk.Lib
