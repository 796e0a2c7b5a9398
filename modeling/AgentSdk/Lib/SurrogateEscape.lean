import Mathlib.Data.List.Basic
import Mathlib.Data.List.Infix
/-!
# UTF-8 with surrogate escapes

Texts with surrogates. A byte that is part of no character is decoded to one of the
surrogates U+DC80 to U+DCFF, which is encoded to the byte again.
-/

namespace AgentSdk.Lib.SurrogateEscape

inductive CodePoint where
  | char (c : Char)
  /-- U+D800 and the offset. -/
  | surrogate (offset : Fin 0x800)
deriving DecidableEq

abbrev Text := List CodePoint

def encodePoint : CodePoint → Option (List UInt8)
  | .char c => some (String.utf8EncodeChar c)
  | .surrogate n => if 0x480 ≤ n.val ∧ n.val < 0x500 then some [UInt8.ofNat (n.val - 0x400)] else none

/-- `text.encode("utf-8", errors="surrogateescape")`; nothing where it raises. -/
def encode : Text → Option (List UInt8)
  | [] => some []
  | p :: text => do
    let bytes ← encodePoint p
    return bytes ++ (← encode text)

def escape (b : UInt8) : CodePoint := .surrogate ⟨0x400 + b.toNat, by have := b.toNat_lt; omega⟩

/-- The character whose bytes a text begins with. -/
def charAt (bytes : List UInt8) : Option Char := bytes.toByteArray.utf8DecodeChar? 0

def decodeFrom : Nat → List UInt8 → Text
  | _, [] => []
  | skip + 1, _ :: s => decodeFrom skip s
  | 0, b :: s =>
    match charAt (b :: s) with
    | some c => .char c :: decodeFrom ((String.utf8EncodeChar c).length - 1) s
    | none => escape b :: decodeFrom 0 s

/-- `bytes.decode("utf-8", errors="surrogateescape")`. -/
def decode (bytes : List UInt8) : Text := decodeFrom 0 bytes

/-- A character whose bytes lie on both sides. -/
def Straddles (s t : List UInt8) : Prop :=
  ∃ c x u v y, s = x ++ u ∧ t = v ++ y ∧ u ≠ [] ∧ v ≠ [] ∧ String.utf8EncodeChar c = u ++ v

/-! ## Characters in bytes -/

variable {s t u v : List UInt8} {b : UInt8} {c : Char}

theorem charAt_encodeChar (c : Char) (t : List UInt8) : charAt (String.utf8EncodeChar c ++ t) = some c := by
  unfold charAt
  rw [List.toByteArray_append]
  exact ByteArray.utf8DecodeChar?_utf8EncodeChar_append

theorem charAt_eq_some (h : charAt s = some c) : ∃ t, s = String.utf8EncodeChar c ++ t := by
  obtain ⟨b, hb⟩ := ByteArray.exists_of_utf8DecodeChar?_eq_some h
  refine ⟨b.data.toList, ?_⟩
  have hdata := congrArg (fun a : ByteArray => a.data.toList) hb
  simpa using hdata

theorem encodeChar_ne_nil (c : Char) : String.utf8EncodeChar c ≠ [] := String.utf8EncodeChar_ne_nil

/-- Only the first byte of a character is one that begins a character. -/
theorem firstByte_iff (h : String.utf8EncodeChar c = u ++ b :: v) : b.IsUTF8FirstByte ↔ u = [] := by
  have hlen : u.length < (String.utf8EncodeChar c).length := by simp [h]
  have hb : (String.utf8EncodeChar c)[u.length] = b := by simp [h]
  rw [← hb, UInt8.isUTF8FirstByte_getElem_utf8EncodeChar]
  exact List.length_eq_zero_iff

/-- A byte that begins no character is none of ASCII. -/
theorem charAt_ne_none (h : b.toNat < 0x80) : charAt (b :: s) ≠ none := by
  have hvalid : b.toUInt32.isValidChar := .inl (by simp; omega)
  have henc : String.utf8EncodeChar ⟨b.toUInt32, hvalid⟩ = [b] := by
    have hle : b.toNat ≤ 127 := by omega
    simp [String.utf8EncodeChar, hle]
  have := charAt_encodeChar ⟨b.toUInt32, hvalid⟩ s
  rw [henc] at this
  rw [show b :: s = [b] ++ s from rfl, this]
  exact Option.some_ne_none _

/-! ## Decoding -/

theorem decodeFrom_append (s t : List UInt8) : decodeFrom s.length (s ++ t) = decode t := by
  induction s with
  | nil => rfl
  | cons b s ih => exact ih

theorem decode_encodeChar (c : Char) (t : List UInt8) : decode (String.utf8EncodeChar c ++ t) = .char c :: decode t := by
  obtain ⟨b, s, hs⟩ := List.exists_cons_of_ne_nil (encodeChar_ne_nil c)
  have hat := charAt_encodeChar c t
  rw [hs, List.cons_append] at hat
  rw [hs, List.cons_append, decode, decodeFrom, hat]
  simp only [hs, List.length_cons, Nat.add_sub_cancel, decodeFrom_append]

theorem decode_escape (h : charAt (b :: s) = none) : decode (b :: s) = escape b :: decode s := by
  rw [decode, decodeFrom, h]
  rfl

/-- A byte that begins no character is escaped. -/
theorem decode_continuation (h : ¬ b.IsUTF8FirstByte) : decode (b :: s) = escape b :: decode s := by
  apply decode_escape
  cases hc : charAt (b :: s) with
  | none => rfl
  | some c =>
    obtain ⟨t, ht⟩ := charAt_eq_some hc
    obtain ⟨d, v, hv⟩ := List.exists_cons_of_ne_nil (encodeChar_ne_nil c)
    rw [hv] at ht
    obtain ⟨rfl, -⟩ := List.cons.inj ht
    exact absurd ((firstByte_iff (u := []) hv).2 rfl) h

theorem encodePoint_escape (h : 0x80 ≤ b.toNat) : encodePoint (escape b) = some [b] := by
  have hlt := b.toNat_lt
  unfold encodePoint escape
  dsimp only
  rw [if_pos (by omega), Nat.add_sub_cancel_left, UInt8.ofNat_toNat]

/-- The bytes decide how a text is cut into characters and escapes. -/
theorem decode_cases (s : List UInt8) : s = [] ∨ (∃ c t, s = String.utf8EncodeChar c ++ t) ∨
    ∃ b t, s = b :: t ∧ charAt s = none := by
  cases s with
  | nil => exact .inl rfl
  | cons b s =>
    cases hc : charAt (b :: s) with
    | none => exact .inr (.inr ⟨b, s, rfl, rfl⟩)
    | some c =>
      obtain ⟨t, ht⟩ := charAt_eq_some hc
      exact .inr (.inl ⟨c, t, ht⟩)

theorem encode_append {x y : Text} (hx : encode x = some s) (hy : encode y = some t) : encode (x ++ y) = some (s ++ t) := by
  induction x generalizing s with
  | nil =>
    cases hx
    exact hy
  | cons p x ih =>
    obtain ⟨u, hu, hx⟩ := Option.bind_eq_some_iff.1 hx
    obtain ⟨v, hv, hs⟩ := Option.bind_eq_some_iff.1 hx
    cases hs
    rw [List.cons_append, encode, hu, ih hv]
    simp

/-- What was decoded is encoded to the same bytes. -/
theorem encode_decode (s : List UInt8) : encode (decode s) = some s := by
  induction hn : s.length using Nat.strong_induction_on generalizing s with
  | _ n ih =>
    rcases decode_cases s with rfl | ⟨c, t, rfl⟩ | ⟨b, t, rfl, hnone⟩
    · rfl
    · have hpos := List.length_pos_iff.2 (encodeChar_ne_nil c)
      rw [decode_encodeChar, encode, ih t.length (by simp only [← hn, List.length_append]; omega) t rfl]
      rfl
    · have hb : 0x80 ≤ b.toNat := Nat.le_of_not_lt fun hb => charAt_ne_none hb hnone
      rw [decode_escape hnone, encode, encodePoint_escape hb, ih t.length (by simp [← hn]) t rfl]
      rfl

/-! ## Decoding in parts -/

theorem decode_append (h : ¬ Straddles s t) : decode (s ++ t) = decode s ++ decode t := by
  induction hn : s.length using Nat.strong_induction_on generalizing s with
  | _ n ih =>
    have hrest : ∀ {x s'}, s = x ++ s' → x ≠ [] → decode (s' ++ t) = decode s' ++ decode t := by
      rintro x s' rfl hx
      have hpos := List.length_pos_iff.2 hx
      refine ih s'.length (by simp [← hn]; omega) ?_ rfl
      rintro ⟨c, y, u, v, z, rfl, ht, hu, hv, hc⟩
      exact h ⟨c, x ++ y, u, v, z, (List.append_assoc x y u).symm, ht, hu, hv, hc⟩
    rcases decode_cases s with rfl | ⟨c, s', hs⟩ | ⟨b, s', hs, hnone⟩
    · rfl
    · rw [hs, List.append_assoc, decode_encodeChar, decode_encodeChar, hrest hs (encodeChar_ne_nil c)]
      rfl
    · have hnone' : charAt (s ++ t) = none := by
        cases hc : charAt (s ++ t) with
        | none => rfl
        | some c =>
          obtain ⟨w, hw⟩ := charAt_eq_some hc
          rcases List.append_eq_append_iff.1 hw with ⟨v, hv, ht⟩ | ⟨x, hx, -⟩
          · by_cases hvn : v = []
            · rw [hvn, List.append_nil] at hv
              rw [← hv, ← List.append_nil (String.utf8EncodeChar c), charAt_encodeChar] at hnone
              cases hnone
            · exact absurd ⟨c, [], s, v, w, rfl, ht, hs ▸ List.cons_ne_nil b s', hvn, hv⟩ h
          · rw [hx, charAt_encodeChar] at hnone
            cases hnone
      rw [hs] at hnone hnone' ⊢
      rw [List.cons_append] at hnone' ⊢
      rw [decode_escape hnone', decode_escape hnone, hrest (x := [b]) hs (List.cons_ne_nil b [])]
      rfl

theorem length_decode_append_lt (h : Straddles s t) : (decode (s ++ t)).length < (decode s).length + (decode t).length := by
  obtain ⟨c, x, u, v, y, rfl, rfl, hu, hv, hc⟩ := h
  obtain ⟨b, u, rfl⟩ := List.exists_cons_of_ne_nil hu
  have hb : b.IsUTF8FirstByte := (firstByte_iff (u := []) hc).2 rfl
  -- the character begins after `x`, on both sides
  have hx : ∀ z, ¬ Straddles x (b :: z) := by
    rintro z ⟨d, _, u', v', _, _, hz, hu', hv', hd⟩
    obtain ⟨b', v', rfl⟩ := List.exists_cons_of_ne_nil hv'
    obtain ⟨rfl, -⟩ := List.cons.inj hz
    exact hu' ((firstByte_iff hd).1 hb)
  have hescape : ∀ w, (∃ u', u' ≠ [] ∧ String.utf8EncodeChar c = u' ++ w) →
      (decode (w ++ y)).length = w.length + (decode y).length := by
    intro w
    induction w with
    | nil => simp
    | cons d w ih =>
      rintro ⟨u', hu', hw⟩
      have hd : ¬ d.IsUTF8FirstByte := fun hd => hu' ((firstByte_iff hw).1 hd)
      rw [List.cons_append, decode_continuation hd, List.length_cons, List.length_cons,
        ih ⟨u' ++ [d], by simp, by rw [hw, List.append_assoc]; rfl⟩]
      omega
  have hwhole : decode (x ++ b :: u ++ (v ++ y)) = decode x ++ .char c :: decode y := by
    rw [List.append_assoc, show b :: u ++ (v ++ y) = String.utf8EncodeChar c ++ y by rw [hc, List.append_assoc],
      ← decode_encodeChar, hc]
    exact decode_append (hx _)
  have hleft : decode (x ++ b :: u) = decode x ++ decode (b :: u) := decode_append (hx u)
  have hne : decode (b :: u) ≠ [] := by
    intro hnil
    have := encode_decode (b :: u)
    rw [hnil] at this
    cases this
  have hpos := List.length_pos_iff.2 hne
  have hvpos := List.length_pos_iff.2 hv
  rw [hwhole, hleft, hescape v ⟨b :: u, List.cons_ne_nil b u, hc⟩]
  simp only [List.length_append, List.length_cons]
  omega

theorem length_decode_flatten_le (parts : List (List UInt8)) :
    (decode parts.flatten).length ≤ (parts.map decode).flatten.length := by
  induction parts with
  | nil => exact Nat.le_refl _
  | cons p parts ih =>
    have hle : (decode (p ++ parts.flatten)).length ≤ (decode p).length + (decode parts.flatten).length := by
      by_cases h : Straddles p parts.flatten
      · exact (length_decode_append_lt h).le
      · rw [decode_append h, List.length_append]
    simp only [List.map_cons, List.flatten_cons, List.length_append] at hle ⊢
    omega

/-- Bytes decoded part by part give the whole text where no character straddles. -/
theorem decode_flatten_iff (parts : List (List UInt8)) : (parts.map decode).flatten = decode parts.flatten ↔
    ∀ l r, parts = l ++ r → ¬ Straddles l.flatten r.flatten := by
  constructor
  · rintro h l r rfl hstr
    have hlt := length_decode_append_lt hstr
    have hl := length_decode_flatten_le l
    have hr := length_decode_flatten_le r
    have hlen := congrArg List.length h
    rw [List.flatten_append, List.map_append, List.flatten_append, List.length_append] at hlen
    omega
  · intro h
    induction parts with
    | nil => rfl
    | cons p parts ih =>
      have hp : ¬ Straddles p parts.flatten := by simpa using h [p] parts rfl
      rw [List.map_cons, List.flatten_cons, List.flatten_cons, decode_append hp, ih]
      rintro l r rfl ⟨c, x, u, v, y, hl, hr, hu, hv, hc⟩
      refine h (p :: l) r rfl ⟨c, p ++ x, u, v, y, ?_, hr, hu, hv, hc⟩
      rw [List.flatten_cons, hl, List.append_assoc]

end AgentSdk.Lib.SurrogateEscape
