import AgentSdk.Lib.Words
import AgentSdk.Lib.SurrogateEscape
/-!
# The filter of terminal queries

`escape_filter`: sequences by which a program asks the terminal something are taken
out of its output. What may be the beginning of one is held back until more output
comes.
-/

namespace AgentSdk.EscapeFilter
open Lib (Regex)
open Lib.Regex Lib.Words Lib.SurrogateEscape

abbrev Bytes := List UInt8

def byte (c : Char) : UInt8 := UInt8.ofNat c.toNat

def esc : UInt8 := 0x1b
def bel : UInt8 := 0x07
def newline : UInt8 := 0x0a

/-- The string terminator. -/
def st : Bytes := [esc, byte '\\']

def isDigit (b : UInt8) : Bool := byte '0' ≤ b && b ≤ byte '9'

/-! ## The patterns -/

/-- `\x1b\[6n` -/
def dsrPattern : Regex UInt8 := word [esc, byte '[', byte '6', byte 'n']

/-- `\x1b\]\d+(?:;[^;\x07\x1b]*)?;\?(?:\x07|\x1b\\)` -/
def oscQueryPattern : Regex UInt8 :=
  seq (word [esc, byte ']']) <| seq (plus (one isDigit)) <|
    seq (optional (seq (word [byte ';']) (many (one fun b => b ≠ byte ';' && b ≠ bel && b ≠ esc)))) <|
      seq (word [byte ';', byte '?']) (alt (word [bel]) (word st))

/-- `\x1b\[0?c` -/
def daPattern : Regex UInt8 := seq (word [esc, byte '[']) (seq (optional (word [byte '0'])) (word [byte 'c']))

/-- `\x1b\[>0?c` -/
def da2Pattern : Regex UInt8 :=
  seq (word [esc, byte '[', byte '>']) (seq (optional (word [byte '0'])) (word [byte 'c']))

/-- `\x1bP\$q[^\x1b]*\x1b\\` -/
def decrqssPattern : Regex UInt8 :=
  seq (word [esc, byte 'P', byte '$', byte 'q']) (seq (many (one fun b => b ≠ esc)) (word st))

/-- `$`: the end, or before a newline that ends the text. -/
def atEnd : Regex UInt8 := look fun t => t = [] || t = [newline]

def isParam (b : UInt8) : Bool := isDigit b || b = byte ';' || b = byte '>'

/-- `[^\x1b]|\x1b(?!\\)` -/
def dcsItem : Regex UInt8 :=
  alt (one fun b => b ≠ esc) (seq (one fun b => b = esc) (look fun t => t.head? ≠ some (byte '\\')))

/-- `\x1b$`, `\x1b\[[0-9;>]*$`, `\x1b\][^\x07]*$`, `\x1bP(?:[^\x1b]|\x1b(?!\\))*$` -/
def incompleteEscPattern : Regex UInt8 :=
  alt (seq (word [esc]) atEnd) <|
    alt (seq (word [esc, byte '[']) (seq (many (one isParam)) atEnd)) <|
      alt (seq (word [esc, byte ']']) (seq (many (one fun b => b ≠ bel)) atEnd)) <|
        seq (word [esc, byte 'P']) (seq (many dcsItem) atEnd)

def queryPatterns : List (Regex UInt8) := [dsrPattern, oscQueryPattern, daPattern, da2Pattern, decrqssPattern]

/-! ## The filter -/

def filterCompleteQueries (output : Bytes) : Bytes :=
  let output := remove dsrPattern output
  let output := remove oscQueryPattern output
  let output := remove daPattern output
  let output := remove da2Pattern output
  remove decrqssPattern output

structure TerminalQueryFilter where
  pending : Bytes := []

namespace TerminalQueryFilter

/-- Nothing where the text cannot be encoded. -/
def filter (f : TerminalQueryFilter) (output : Text) : Option (Text × TerminalQueryFilter) := do
  let bytes ← encode output
  let (ready, pending) := cut incompleteEscPattern (f.pending ++ bytes)
  return (decode (filterCompleteQueries ready), ⟨pending⟩)

def flush (f : TerminalQueryFilter) : Text × TerminalQueryFilter :=
  if f.pending = [] then ([], f) else (decode (filterCompleteQueries f.pending), ⟨[]⟩)

/-- What comes out for a text that comes in chunks. -/
def filterChunks : TerminalQueryFilter → List Text → Option Text
  | f, [] => some f.flush.1
  | f, chunk :: chunks => do
    let (out, f) ← f.filter chunk
    return out ++ (← filterChunks f chunks)

end TerminalQueryFilter

def filterTerminalQueries (output : Text) : Option Text := do
  let (result, f) ← TerminalQueryFilter.filter {} output
  return result ++ f.flush.1

/-! ## The queries -/

def Query (w : Bytes) : Prop := ∃ r ∈ queryPatterns, r.Matches w []

def anyQueryPattern : Regex UInt8 :=
  alt dsrPattern (alt oscQueryPattern (alt daPattern (alt da2Pattern decrqssPattern)))

/-- The text without its queries, all of them taken out at once. -/
def withoutQueries (bytes : Bytes) : Bytes := remove anyQueryPattern bytes

theorem query_iff {w : Bytes} : Query w ↔ anyQueryPattern.Matches w [] := by
  simp [Query, queryPatterns, anyQueryPattern]

theorem plain_of_mem {r : Regex UInt8} (h : r ∈ queryPatterns) : r.Plain := by
  simp only [queryPatterns, List.mem_cons, List.not_mem_nil, or_false] at h
  rcases h with rfl | rfl | rfl | rfl | rfl
  · exact plain_word _
  · exact ⟨plain_word _, ⟨trivial, trivial⟩, ⟨⟨plain_word _, trivial⟩, trivial⟩, plain_word _, plain_word _, plain_word _⟩
  · exact ⟨plain_word _, ⟨plain_word _, trivial⟩, plain_word _⟩
  · exact ⟨plain_word _, ⟨plain_word _, trivial⟩, plain_word _⟩
  · exact ⟨plain_word _, trivial, plain_word _⟩

theorem plain_anyQuery : anyQueryPattern.Plain :=
  ⟨plain_of_mem (by simp [queryPatterns]), plain_of_mem (by simp [queryPatterns]), plain_of_mem (by simp [queryPatterns]),
    plain_of_mem (by simp [queryPatterns]), plain_of_mem (by simp [queryPatterns])⟩

/-- An introducer, a body and what ends it. -/
inductive Framed : Bytes → Prop
  | csi {body : Bytes} {last : UInt8} : (∀ b ∈ body, isParam b = true) → last = byte 'n' ∨ last = byte 'c' →
      Framed (esc :: byte '[' :: (body ++ [last]))
  | osc {body stop : Bytes} : (∀ b ∈ body, b ≠ bel ∧ b ≠ esc) → stop = [bel] ∨ stop = st →
      Framed (esc :: byte ']' :: (body ++ stop))
  | dcs {body : Bytes} : (∀ b ∈ body, b ≠ esc) → Framed (esc :: byte 'P' :: (body ++ st))

theorem isDigit_ne {b : UInt8} (h : isDigit b = true) : b ≠ bel ∧ b ≠ esc := by
  constructor
  · rintro rfl
    exact absurd h (by decide)
  · rintro rfl
    exact absurd h (by decide)

theorem framed_osc {w : Bytes} (h : oscQueryPattern.Matches w []) : Framed w := by
  obtain ⟨_, rfl, hdigits⟩ := matches_word_seq_iff.1 h
  obtain ⟨digits, _, rfl, hdigits, hsub⟩ := matches_seq_iff.1 hdigits
  obtain ⟨sub, _, rfl, hsub, hquery⟩ := matches_seq_iff.1 hsub
  obtain ⟨stop, rfl, hstop⟩ := matches_word_seq_iff.1 hquery
  obtain ⟨d, ds, rfl, hd, hds⟩ := matches_one_seq_iff.1 hdigits
  have hsub' : ∀ b ∈ sub, b ≠ bel ∧ b ≠ esc := by
    intro b hb
    rcases matches_optional_iff.1 hsub with hsub | rfl
    · obtain ⟨text, rfl, htext⟩ := matches_word_seq_iff.1 hsub
      rcases List.mem_cons.1 hb with rfl | hb
      · decide
      · have := matches_many_one_iff.1 htext b hb
        simp only [ne_eq, Bool.and_eq_true, decide_eq_true_eq] at this
        exact ⟨this.1.2, this.2⟩
    · exact absurd hb List.not_mem_nil
  have hbody : ∀ b ∈ d :: ds ++ (sub ++ [byte ';', byte '?']), b ≠ bel ∧ b ≠ esc := by
    intro b hb
    rcases List.mem_append.1 hb with hb | hb
    · rcases List.mem_cons.1 hb with rfl | hb
      · exact isDigit_ne hd
      · exact isDigit_ne (matches_many_one_iff.1 hds b hb)
    · rcases List.mem_append.1 hb with hb | hb
      · exact hsub' b hb
      · simp only [List.mem_cons, List.not_mem_nil, or_false] at hb
        rcases hb with rfl | rfl <;> decide
  have hclosed : stop = [bel] ∨ stop = st := by simpa [matches_word_iff] using hstop
  have hframed := Framed.osc hbody hclosed
  simpa using hframed

/-- `ESC [`, parameters before an optional `0`, and `c`. -/
theorem framed_da {front w : Bytes} (hfront : ∀ b ∈ front, isParam b = true)
    (h : Matches (seq (word (esc :: byte '[' :: front)) (seq (optional (word [byte '0'])) (word [byte 'c']))) w []) :
    Framed w := by
  obtain ⟨_, rfl, hzero⟩ := matches_word_seq_iff.1 h
  obtain ⟨zero, last, rfl, hzero, hlast⟩ := matches_seq_iff.1 hzero
  obtain rfl := matches_word_iff.1 hlast
  have hbody : ∀ b ∈ front ++ zero, isParam b = true := by
    intro b hb
    rcases List.mem_append.1 hb with hb | hb
    · exact hfront b hb
    · rcases matches_optional_iff.1 hzero with hzero | rfl
      · obtain rfl := matches_word_iff.1 hzero
        obtain rfl := List.mem_singleton.1 hb
        decide
      · exact absurd hb List.not_mem_nil
  have hframed := Framed.csi hbody (.inr rfl)
  simpa using hframed

theorem framed_decrqss {w : Bytes} (h : decrqssPattern.Matches w []) : Framed w := by
  obtain ⟨_, rfl, hsetting⟩ := matches_word_seq_iff.1 h
  obtain ⟨setting, stop, rfl, hsetting, hstop⟩ := matches_seq_iff.1 hsetting
  obtain rfl := matches_word_iff.1 hstop
  have hbody : ∀ b ∈ [byte '$', byte 'q'] ++ setting, b ≠ esc := by
    intro b hb
    rcases List.mem_append.1 hb with hb | hb
    · simp only [List.mem_cons, List.not_mem_nil, or_false] at hb
      rcases hb with rfl | rfl <;> decide
    · simpa using matches_many_one_iff.1 hsetting b hb
  have hframed := Framed.dcs hbody
  simpa using hframed

theorem Query.framed {w : Bytes} (h : Query w) : Framed w := by
  obtain ⟨r, hr, hw⟩ := h
  simp only [queryPatterns, List.mem_cons, List.not_mem_nil, or_false] at hr
  rcases hr with rfl | rfl | rfl | rfl | rfl
  · obtain rfl := matches_word_iff.1 hw
    exact @Framed.csi [byte '6'] _ (List.forall_mem_singleton.2 (by decide)) (.inl rfl)
  · exact framed_osc hw
  · exact @framed_da [] _ (List.forall_mem_nil _) hw
  · exact @framed_da [byte '>'] _ (List.forall_mem_singleton.2 (by decide)) hw
  · exact framed_decrqss hw

/-! ## Queries do not overlap -/

/-- What ends the body of a sequence. -/
def ends (intro' : UInt8) (b : UInt8) : Bool :=
  b = esc || intro' = byte '[' && (b = byte 'n' || b = byte 'c') || intro' = byte ']' && b = bel

/-- What follows the end of a body. -/
def closing (b : UInt8) : Bytes := if b = esc then [byte '\\'] else []

theorem isParam_not_ends {b : UInt8} (h : isParam b = true) : ends (byte '[') b = false := by
  apply Bool.eq_false_iff.2
  intro hends
  simp only [ends, show byte '[' ≠ byte ']' by decide, decide_true, decide_false, Bool.true_and, Bool.false_and,
    Bool.or_false, Bool.or_eq_true, decide_eq_true_eq] at hends
  rcases hends with rfl | rfl | rfl
  all_goals exact absurd h (by decide)

theorem Framed.form {w : Bytes} (h : Framed w) : ∃ c body x, w = esc :: c :: (body ++ x :: closing x) ∧ c ≠ byte '\\' ∧
    c ≠ esc ∧ (∀ b ∈ body, ends c b = false) ∧ ends c x = true := by
  cases h with
  | @csi body last hbody hlast =>
    refine ⟨byte '[', body, last, ?_, by decide, by decide, fun b hb => isParam_not_ends (hbody b hb), ?_⟩
    · rcases hlast with rfl | rfl <;> rfl
    · rcases hlast with rfl | rfl <;> decide
  | @osc body stop hbody hstop =>
    have hends : ∀ b ∈ body, ends (byte ']') b = false := by
      intro b hb
      obtain ⟨hbel, hesc⟩ := hbody b hb
      simp [ends, hbel, hesc, show byte ']' ≠ byte '[' by decide]
    rcases hstop with rfl | rfl
    · exact ⟨byte ']', body, bel, rfl, by decide, by decide, hends, by decide⟩
    · exact ⟨byte ']', body, esc, rfl, by decide, by decide, hends, by decide⟩
  | @dcs body hbody =>
    refine ⟨byte 'P', body, esc, rfl, by decide, by decide, fun b hb => ?_, by decide⟩
    simp [ends, hbody b hb, show byte 'P' ≠ byte '[' by decide, show byte 'P' ≠ byte ']' by decide]

/-- Up to the first end two texts agree. -/
theorem body_unique {p : UInt8 → Bool} : ∀ {body body' s t : Bytes} {x y : UInt8}, (∀ b ∈ body, p b = false) → p x = true →
    (∀ b ∈ body', p b = false) → p y = true → body ++ x :: s = body' ++ y :: t → body = body' ∧ x = y ∧ s = t
  | [], [], _, _, _, _, _, _, _, _, h => ⟨rfl, List.cons.inj h⟩
  | [], c :: body', _, _, _, _, _, hx, hbody', _, h => by
    obtain ⟨rfl, -⟩ := List.cons.inj h
    rw [hbody' _ (List.mem_cons_self ..)] at hx
    cases hx
  | c :: body, [], _, _, _, _, hbody, _, _, hy, h => by
    obtain ⟨rfl, -⟩ := List.cons.inj h
    rw [hbody _ (List.mem_cons_self ..)] at hy
    cases hy
  | c :: body, d :: body', _, _, _, _, hbody, hx, hbody', hy, h => by
    obtain ⟨rfl, htail⟩ := List.cons.inj h
    obtain ⟨rfl, hrest⟩ := body_unique (fun b hb => hbody b (List.mem_cons_of_mem _ hb)) hx
      (fun b hb => hbody' b (List.mem_cons_of_mem _ hb)) hy htail
    exact ⟨rfl, hrest⟩

/-- Inside a sequence an escape stands at its end only. -/
theorem esc_in_body {c x : UInt8} {body y : Bytes} (hbody : ∀ b ∈ body, ends c b = false) {l : Bytes}
    (h : body ++ x :: closing x = l ++ esc :: y) : y = [byte '\\'] := by
  induction body generalizing l with
  | nil =>
    cases l with
    | nil =>
      obtain ⟨rfl, rfl⟩ := List.cons.inj h
      rfl
    | cons d l =>
      have htail : closing x = l ++ esc :: y := (List.cons.inj h).2
      unfold closing at htail
      split at htail
      · cases l with
        | nil =>
          have hesc : byte '\\' = esc := (List.cons.inj htail).1
          exact absurd hesc (by decide)
        | cons e l => simp at htail
      · simp at htail
  | cons b body ih =>
    cases l with
    | nil =>
      obtain ⟨rfl, -⟩ := List.cons.inj h
      exact absurd (hbody _ (List.mem_cons_self ..)) (by simp [ends])
    | cons d l => exact ih (fun b hb => hbody b (List.mem_cons_of_mem _ hb)) (List.cons.inj h).2

theorem Framed.esc_inside {x y : Bytes} (h : Framed (x ++ esc :: y)) (hx : x ≠ []) : y = [byte '\\'] := by
  obtain ⟨c, body, stop, hw, -, hc, hbody, -⟩ := h.form
  obtain ⟨d, x, rfl⟩ := List.exists_cons_of_ne_nil hx
  obtain ⟨rfl, htail⟩ := List.cons.inj hw
  cases x with
  | nil => exact absurd (List.cons.inj htail).1.symm hc
  | cons d x => exact esc_in_body hbody (List.cons.inj htail).2.symm

theorem apart_framed : Apart Framed where
  ne_nil h := by
    rintro rfl
    cases h
  unique hv hw h := by
    obtain ⟨c, body, x, rfl, -, -, hbody, hx⟩ := hv.form
    obtain ⟨c', body', x', rfl, -, -, hbody', hx'⟩ := hw.form
    simp only [List.cons_append, List.append_assoc, List.cons.injEq, true_and] at h
    obtain ⟨rfl, h⟩ := h
    obtain ⟨rfl, rfl, -⟩ := body_unique hbody hx hbody' hx' h
    rfl
  inside := by
    rintro _ _ x y s t hv hw rfl hx hy hword
    obtain ⟨c, body, stop, rfl, hc, -⟩ := hw.form
    obtain ⟨_, y, rfl⟩ := List.exists_cons_of_ne_nil hy
    obtain ⟨rfl, htail⟩ := List.cons.inj hword
    obtain rfl := hv.esc_inside hx
    exact hc (List.cons.inj htail).1

/-! ## What is held back -/

def AtEnd (t : Bytes) : Prop := t = [] ∨ t = [newline]

theorem AtEnd.esc_not_mem {t : Bytes} (h : AtEnd t) : esc ∉ t := by
  rcases h with rfl | rfl
  · exact List.not_mem_nil
  · decide

theorem matches_atEnd_iff {u t : Bytes} : atEnd.Matches u t ↔ AtEnd t ∧ u = [] := by
  simp [atEnd, AtEnd]

theorem length_dcsItem {u t : Bytes} (h : dcsItem.Matches u t) : u.length = 1 := by
  rcases matches_alt_iff.1 h with h | h
  · obtain ⟨b, -, rfl⟩ := matches_one_iff.1 h
    rfl
  · obtain ⟨b, v, rfl, -, hv⟩ := matches_one_seq_iff.1 h
    obtain ⟨-, rfl⟩ := matches_look_iff.1 hv
    rfl

theorem matches_dcsItem_iff {b : UInt8} {t : Bytes} :
    dcsItem.Matches [b] t ↔ (b = esc → t.head? ≠ some (byte '\\')) := by
  by_cases hb : b = esc
  · simp [dcsItem, hb]
  · simp [dcsItem, hb]

theorem matches_dcsItems_iff {u t : Bytes} : (many dcsItem).Matches u t ↔
    ∀ l r, u = l ++ esc :: r → (r ++ t).head? ≠ some (byte '\\') := by
  induction u with
  | nil => simp [Matches.done]
  | cons b u ih =>
    rw [matches_many_cons_iff length_dcsItem, matches_dcsItem_iff, ih]
    constructor
    · rintro ⟨hb, hu⟩ l r h
      cases l with
      | nil =>
        obtain ⟨rfl, rfl⟩ := List.cons.inj h
        exact hb rfl
      | cons c l => exact hu l r (List.cons.inj h).2
    · intro h
      refine ⟨?_, fun l r hu => h (b :: l) r (by rw [hu]; rfl)⟩
      rintro rfl
      exact h [] u rfl

/-- What may be the beginning of a query. -/
inductive Held : Bytes → Prop
  | escape {t : Bytes} : AtEnd t → Held (esc :: t)
  | csi {params t : Bytes} : (∀ b ∈ params, isParam b = true) → AtEnd t → Held (esc :: byte '[' :: (params ++ t))
  | osc {text : Bytes} : bel ∉ text → Held (esc :: byte ']' :: text)
  | dcs {text : Bytes} : ¬ st <:+: text → Held (esc :: byte 'P' :: text)

theorem not_st_infix_iff {text : Bytes} : ¬ st <:+: text ↔ ∀ l r, text = l ++ esc :: r → r.head? ≠ some (byte '\\') := by
  constructor
  · rintro h l r rfl hr
    cases r with
    | nil => cases hr
    | cons c r =>
      obtain rfl : c = byte '\\' := Option.some.inj hr
      exact h ⟨l, r, by simp [st]⟩
  · rintro h ⟨l, r, rfl⟩
    exact h l (byte '\\' :: r) (by simp [st]) rfl

theorem starts_incomplete_iff {s : Bytes} : starts incompleteEscPattern s = true ↔ Held s := by
  rw [starts_iff]
  constructor
  · rintro ⟨u, t, rfl, h⟩
    rcases matches_alt_iff.1 h with h | h
    · obtain ⟨v, rfl, hv⟩ := matches_word_seq_iff.1 h
      obtain ⟨ht, rfl⟩ := matches_atEnd_iff.1 hv
      exact .escape ht
    rcases matches_alt_iff.1 h with h | h
    · obtain ⟨v, rfl, hv⟩ := matches_word_seq_iff.1 h
      obtain ⟨params, w, rfl, hparams, hw⟩ := matches_seq_iff.1 hv
      obtain ⟨ht, rfl⟩ := matches_atEnd_iff.1 hw
      rw [List.append_nil]
      exact .csi (matches_many_one_iff.1 hparams) ht
    rcases matches_alt_iff.1 h with h | h
    · obtain ⟨v, rfl, hv⟩ := matches_word_seq_iff.1 h
      obtain ⟨text, w, rfl, htext, hw⟩ := matches_seq_iff.1 hv
      obtain ⟨ht, rfl⟩ := matches_atEnd_iff.1 hw
      rw [List.append_nil]
      refine @Held.osc (text ++ t) fun hbel => ?_
      rcases List.mem_append.1 hbel with hbel | hbel
      · simpa using matches_many_one_iff.1 htext bel hbel
      · rcases ht with rfl | rfl
        · cases hbel
        · exact absurd (List.mem_singleton.1 hbel) (by decide)
    · obtain ⟨v, rfl, hv⟩ := matches_word_seq_iff.1 h
      obtain ⟨text, w, rfl, htext, hw⟩ := matches_seq_iff.1 hv
      obtain ⟨ht, rfl⟩ := matches_atEnd_iff.1 hw
      rw [List.append_nil]
      refine @Held.dcs (text ++ t) (not_st_infix_iff.2 fun l r h => ?_)
      rcases List.append_eq_append_iff.1 h with ⟨x, -, hx⟩ | ⟨x, rfl, hx⟩
      · exact absurd (by simp [hx]) ht.esc_not_mem
      · cases x with
        | nil =>
          rw [List.nil_append] at hx
          exact absurd (by simp [← hx]) ht.esc_not_mem
        | cons c x =>
          obtain ⟨rfl, rfl⟩ := List.cons.inj hx
          exact matches_dcsItems_iff.1 htext l x rfl
  · intro h
    cases h with
    | @escape t ht => exact ⟨[esc], t, rfl, .left (matches_word_seq_iff.2 ⟨[], rfl, matches_atEnd_iff.2 ⟨ht, rfl⟩⟩)⟩
    | @csi params t hparams ht =>
      refine ⟨esc :: byte '[' :: params, t, rfl, .right (.left (matches_word_seq_iff.2 ⟨params, rfl, ?_⟩))⟩
      exact matches_seq_iff.2 ⟨params, [], (List.append_nil _).symm, matches_many_one_iff.2 hparams,
        matches_atEnd_iff.2 ⟨ht, rfl⟩⟩
    | @osc text htext =>
      refine ⟨esc :: byte ']' :: text, [], (List.append_nil _).symm, .right (.right (.left
        (matches_word_seq_iff.2 ⟨text, rfl, ?_⟩)))⟩
      refine matches_seq_iff.2 ⟨text, [], (List.append_nil _).symm, matches_many_one_iff.2 fun b hb => ?_,
        matches_atEnd_iff.2 ⟨.inl rfl, rfl⟩⟩
      exact decide_eq_true fun h => htext (h ▸ hb)
    | @dcs text htext =>
      refine ⟨esc :: byte 'P' :: text, [], (List.append_nil _).symm, .right (.right (.right
        (matches_word_seq_iff.2 ⟨text, rfl, ?_⟩)))⟩
      refine matches_seq_iff.2 ⟨text, [], (List.append_nil _).symm, matches_dcsItems_iff.2 fun l r h => ?_,
        matches_atEnd_iff.2 ⟨.inl rfl, rfl⟩⟩
      rw [List.append_nil, List.append_nil]
      exact not_st_infix_iff.1 htext l r h

theorem Held.head {s : Bytes} (h : Held s) : ∃ t, s = esc :: t ∧ t.head? ≠ some (byte '\\') := by
  cases h with
  | @escape t ht =>
    refine ⟨t, rfl, ?_⟩
    rcases ht with rfl | rfl <;> decide
  | csi => exact ⟨_, rfl, by simp; decide⟩
  | osc => exact ⟨_, rfl, by simp; decide⟩
  | dcs => exact ⟨_, rfl, by simp; decide⟩

theorem AtEnd.append_inv {t v : Bytes} (h : AtEnd (t ++ v)) : AtEnd t := by
  cases t with
  | nil => exact .inl rfl
  | cons b t =>
    rcases h with h | h
    · cases h
    · simp only [List.cons_append, List.cons.injEq, List.append_eq_nil_iff] at h
      obtain ⟨rfl, rfl, -⟩ := h
      exact .inr rfl

theorem introducer_cases {b c : UInt8} {s u v : Bytes} (hu : u ≠ []) (h : u ++ v = b :: c :: s) :
    u = [b] ∨ ∃ u', u = b :: c :: u' ∧ u' ++ v = s := by
  match u, hu, h with
  | [_], _, h => exact .inl (congrArg (fun s => [s]) (List.cons.inj h).1)
  | _ :: _ :: u', _, h =>
    obtain ⟨rfl, htail⟩ := List.cons.inj h
    obtain ⟨rfl, hrest⟩ := List.cons.inj htail
    exact .inr ⟨u', rfl, hrest⟩

/-- The beginnings of what is held back are held back. -/
theorem Held.of_append {u v : Bytes} (hne : u ≠ []) (h : Held (u ++ v)) : Held u := by
  generalize hs : u ++ v = s at h
  cases h with
  | @escape t ht =>
    obtain ⟨b, u, rfl⟩ := List.exists_cons_of_ne_nil hne
    obtain ⟨rfl, rfl⟩ := List.cons.inj hs
    exact .escape ht.append_inv
  | @csi params t hparams ht =>
    rcases introducer_cases hne hs with rfl | ⟨u, rfl, hu⟩
    · exact .escape (.inl rfl)
    rcases List.append_eq_append_iff.1 hu with ⟨x, rfl, -⟩ | ⟨x, rfl, rfl⟩
    · rw [← List.append_nil u]
      exact .csi (fun b hb => hparams b (List.mem_append_left x hb)) (.inl rfl)
    · exact .csi hparams ht.append_inv
  | @osc text htext =>
    rcases introducer_cases hne hs with rfl | ⟨u, rfl, rfl⟩
    · exact .escape (.inl rfl)
    · exact .osc fun h => htext (List.mem_append_left v h)
  | @dcs text htext =>
    rcases introducer_cases hne hs with rfl | ⟨u, rfl, rfl⟩
    · exact .escape (.inl rfl)
    · exact .dcs fun h => htext (h.trans (List.prefix_append u v).isInfix)

/-- The beginnings of a query are held back. -/
theorem Framed.held {u v : Bytes} (h : Framed (u ++ v)) (hu : u ≠ []) (hv : v ≠ []) : Held u := by
  generalize hs : u ++ v = s at h
  cases h with
  | @csi body last hbody =>
    rcases introducer_cases hu hs with rfl | ⟨u, rfl, huv⟩
    · exact .escape (.inl rfl)
    obtain ⟨v, d, rfl⟩ := (List.eq_nil_or_concat v).resolve_left hv
    rw [List.concat_eq_append, ← List.append_assoc] at huv
    obtain ⟨rfl, -⟩ := List.append_inj' huv rfl
    rw [← List.append_nil u]
    exact .csi (fun b hb => hbody b (List.mem_append_left v hb)) (.inl rfl)
  | @osc body stop hbody hstop =>
    rcases introducer_cases hu hs with rfl | ⟨u, rfl, huv⟩
    · exact .escape (.inl rfl)
    refine .osc fun hbel => ?_
    rcases hstop with rfl | rfl
    · -- the bell ends the sequence
      obtain ⟨v, d, rfl⟩ := (List.eq_nil_or_concat v).resolve_left hv
      rw [List.concat_eq_append, ← List.append_assoc] at huv
      obtain ⟨rfl, -⟩ := List.append_inj' huv rfl
      exact (hbody bel (List.mem_append_left v hbel)).1 rfl
    · have hmem : bel ∈ body ++ st := huv ▸ List.mem_append_left v hbel
      rcases List.mem_append.1 hmem with hmem | hmem
      · exact (hbody bel hmem).1 rfl
      · exact absurd hmem (by decide)
  | @dcs body hbody =>
    rcases introducer_cases hu hs with rfl | ⟨u, rfl, huv⟩
    · exact .escape (.inl rfl)
    refine .dcs ?_
    rintro ⟨l, r, rfl⟩
    have hends : ∀ b ∈ body, ends (byte 'P') b = false := fun b hb => by
      simp [ends, hbody b hb, show byte 'P' ≠ byte '[' by decide, show byte 'P' ≠ byte ']' by decide]
    have hlast := esc_in_body (x := esc) (l := l) (y := byte '\\' :: (r ++ v)) hends (by
      rw [show closing esc = [byte '\\'] from rfl]
      simpa [st] using huv.symm)
    exact hv (List.append_eq_nil_iff.1 (List.cons.inj hlast).2).2

end AgentSdk.EscapeFilter
