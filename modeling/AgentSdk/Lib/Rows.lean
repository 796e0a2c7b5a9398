import AgentSdk.Lib.Text
/-!
# Lines and words

Lines and words as the cuts of a text at single characters. A reader that takes a
text line by line, skips the blank lines and does not mind white space around a line
sees the same rows whatever was stripped off the text before.
-/

namespace AgentSdk.Lib

/-! ## Lines -/

theorem splitLines_eq_nil {t : Text} (h : splitLines t = []) : t = [] := by
  fun_cases splitLines t with
  | case1 => rfl
  | case2 rest => simp [splitLines] at h
  | case3 c rest hne hmem => simp [splitLines, hmem] at h
  | case4 c rest hne hmem hnil => simp [splitLines, hmem, hnil] at h
  | case5 c rest hne hmem line lines hlines => simp [splitLines, hmem, hlines] at h

/-- Lines joined again are as long as the text, but for a line end after the
last of them. -/
theorem length_le_splitLines {t : Text} (h : '\r' ∉ t) :
    t.length ≤ (List.intercalate ['\n'] (splitLines t)).length + 1 := by
  fun_induction splitLines t with
  | case1 => simp
  | case2 rest ih => simp at h
  | case3 c rest hne hmem ih =>
    have ih := ih fun hr => h (List.mem_cons_of_mem _ hr)
    by_cases hnil : splitLines rest = []
    · rw [splitLines_eq_nil hnil]
      simp
    · rw [List.intercalate_cons_of_ne_nil hnil]
      simp only [List.length_cons, List.length_append, List.length_nil]
      omega
  | case4 c rest hne hmem hnil ih =>
    rw [splitLines_eq_nil hnil]
    simp
  | case5 c rest hne hmem line lines hlines ih =>
    have ih := ih fun hr => h (List.mem_cons_of_mem _ hr)
    rw [hlines] at ih
    rw [List.intercalate_cons_cons_left]
    simp only [List.length_cons]
    omega

/-! ## Cuts at single characters -/

theorem not_sep_of_mem_splitOnP {α : Type} {p : α → Bool} {xs l : List α} (hl : l ∈ xs.splitOnP p) :
    ∀ x ∈ l, p x = false := by
  induction xs generalizing l with
  | nil =>
    rw [List.splitOnP_nil, List.mem_singleton] at hl
    rw [hl]
    simp
  | cons a xs ih =>
    rw [List.splitOnP_cons_eq_if_modifyHead] at hl
    split at hl
    · rcases List.mem_cons.1 hl with rfl | hl
      · simp
      · exact ih hl
    · rename_i ha
      obtain ⟨first, rest, hsplit⟩ := List.exists_cons_of_ne_nil (List.splitOnP_ne_nil p xs)
      rw [hsplit, List.modifyHead_cons] at hl
      rcases List.mem_cons.1 hl with rfl | hl
      · intro x hx
        rcases List.mem_cons.1 hx with rfl | hx
        · simpa using ha
        · exact ih (by rw [hsplit]; exact List.mem_cons_self) x hx
      · exact ih (by rw [hsplit]; exact List.mem_cons_of_mem _ hl)

theorem exists_mem_splitOnP {α : Type} {p : α → Bool} {xs : List α} {x : α} (hx : x ∈ xs) (hp : p x = false) :
    ∃ l ∈ xs.splitOnP p, x ∈ l := by
  induction xs with
  | nil => cases hx
  | cons a xs ih =>
    obtain ⟨first, rest, hsplit⟩ := List.exists_cons_of_ne_nil (List.splitOnP_ne_nil p xs)
    rw [List.splitOnP_cons_eq_if_modifyHead]
    rcases List.mem_cons.1 hx with rfl | hx
    · rw [if_neg (by simpa using hp), hsplit, List.modifyHead_cons]
      exact ⟨_, List.mem_cons_self, List.mem_cons_self⟩
    · obtain ⟨l, hl, hxl⟩ := ih hx
      split
      · exact ⟨l, List.mem_cons_of_mem _ hl, hxl⟩
      · rw [hsplit] at hl ⊢
        rw [List.modifyHead_cons]
        rcases List.mem_cons.1 hl with rfl | hl
        · exact ⟨_, List.mem_cons_self, List.mem_cons_of_mem _ hxl⟩
        · exact ⟨l, List.mem_cons_of_mem _ hl, hxl⟩

/-! ## White space around a text -/

/-- What does not see white space at the ends of a text does not see that it is stripped. -/
theorem apply_strip {γ : Type} {g : Text → γ} (lead : ∀ {c t}, isSpace c = true → g (c :: t) = g t)
    (trail : ∀ {c t}, isSpace c = true → g (t ++ [c]) = g t) (t : Text) : g (strip t) = g t := by
  have leading : ∀ u, g (lstrip u) = g u := by
    intro u
    induction u with
    | nil => rfl
    | cons c u ih =>
      by_cases hc : isSpace c = true
      · rw [lead hc, ← ih, lstrip, List.dropWhile_cons_of_pos hc]
        rfl
      · rw [lstrip_cons (by simpa using hc)]
  have trailing : ∀ u, g (rstrip u) = g u := by
    intro u
    induction u using List.reverseRecOn with
    | nil => rfl
    | append_singleton u c ih =>
      by_cases hc : isSpace c = true
      · rw [trail hc, ← ih, rstrip, List.rdropWhile_concat_pos _ _ _ hc]
        rfl
      · rw [rstrip_concat (by simpa using hc)]
  rw [strip, trailing, leading]

/-! ## Words -/

/-- `str.split()`. -/
def words (t : Text) : List Text := (t.splitOnP isSpace).filter (!·.isEmpty)

theorem words_cut (t u : Text) {c : Char} (hc : isSpace c = true) : words (t ++ c :: u) = words t ++ words u := by
  rw [words, List.splitOnP_append_cons t u hc, List.filter_append]
  rfl

theorem words_nil : words [] = [] := by simp [words]

theorem words_solid {t : Text} (ht : Solid t) (hne : t ≠ []) : words t = [t] := by
  rw [words, List.splitOnP_eq_singleton ht]
  simp [hne]

theorem solid_of_mem_words {t w : Text} (h : w ∈ words t) : Solid w :=
  not_sep_of_mem_splitOnP (List.mem_filter.1 h).1

/-! ## Rows -/

/-- What `str.splitlines` cuts at. -/
def isLineEnd (c : Char) : Bool :=
  c.toNat ∈ [0x0a, 0x0d, 0x0b, 0x0c, 0x1c, 0x1d, 0x1e, 0x85, 0x2028, 0x2029]

theorem isSpace_of_isLineEnd {c : Char} (h : isLineEnd c = true) : isSpace c = true := by
  simp only [isLineEnd, List.mem_cons, List.not_mem_nil, or_false, decide_eq_true_eq] at h
  simp only [isSpace, List.mem_cons, List.not_mem_nil, or_false, Bool.or_eq_true, decide_eq_true_eq]
  omega

theorem not_lineEnd_of_solid {t : Text} (ht : Solid t) : ∀ c ∈ t, isLineEnd c = false := by
  intro c hc
  by_contra hend
  have hspace := isSpace_of_isLineEnd (by simpa using hend)
  rw [ht c hc] at hspace
  exact Bool.false_ne_true hspace

/-- A text ends with a line that has no line end in it. -/
theorem exists_last_line (t : Text) :
    (∀ c ∈ t, isLineEnd c = false) ∨
      ∃ front e line, t = front ++ e :: line ∧ isLineEnd e = true ∧ ∀ c ∈ line, isLineEnd c = false := by
  induction t with
  | nil => exact .inl (by simp)
  | cons c t ih =>
    rcases ih with hfree | ⟨front, e, line, rfl, he, hline⟩
    · by_cases hc : isLineEnd c = true
      · exact .inr ⟨[], c, t, rfl, hc, hfree⟩
      · refine .inl fun d hd => ?_
        rcases List.mem_cons.1 hd with rfl | hd
        · simpa using hc
        · exact hfree d hd
    · exact .inr ⟨c :: front, e, line, rfl, he, hline⟩

/-- A text begins with a line that has no line end in it. -/
theorem exists_first_line (t : Text) :
    (∀ c ∈ t, isLineEnd c = false) ∨
      ∃ line e rest, t = line ++ e :: rest ∧ isLineEnd e = true ∧ ∀ c ∈ line, isLineEnd c = false := by
  induction t with
  | nil => exact .inl (by simp)
  | cons c t ih =>
    by_cases hc : isLineEnd c = true
    · exact .inr ⟨[], c, t, rfl, hc, by simp⟩
    have hc' : isLineEnd c = false := by simpa using hc
    rcases ih with hfree | ⟨line, e, rest, rfl, he, hline⟩
    · exact .inl (List.forall_mem_cons.2 ⟨hc', hfree⟩)
    · exact .inr ⟨c :: line, e, rest, rfl, he, List.forall_mem_cons.2 ⟨hc', hline⟩⟩

variable {β : Type}

/-- What is read from a line does not depend on the white space around it. -/
structure IgnoresMargins (f : Text → List β) : Prop where
  blank : f [] = []
  lead : ∀ {c t}, isSpace c = true → f (c :: t) = f t
  trail : ∀ {c t}, isSpace c = true → f (t ++ [c]) = f t

theorem words_ignoresMargins : IgnoresMargins words where
  blank := words_nil
  lead {c t} hc := by
    have h := words_cut [] t hc
    rwa [words_nil] at h
  trail {c t} hc := by rw [words_cut t [] hc, words_nil, List.append_nil]

theorem words_eq_nil {t : Text} : words t = [] ↔ strip t = [] := by
  constructor
  · intro h
    have hspace : ∀ c ∈ t, isSpace c = true := by
      intro c hc
      by_contra hsolid
      obtain ⟨w, hw, hcw⟩ := exists_mem_splitOnP hc (by simpa using hsolid)
      have hmem : w ∈ words t := by simpa [words, hw] using List.ne_nil_of_mem hcw
      rw [h] at hmem
      cases hmem
    rw [strip, lstrip, List.dropWhile_eq_nil_iff.2 hspace]
    rfl
  · intro h
    rw [← apply_strip words_ignoresMargins.lead words_ignoresMargins.trail t, h, words_nil]

theorem strip_ignoresMargins : IgnoresMargins strip where
  blank := rfl
  lead {c t} hc := by rw [strip, lstrip, List.dropWhile_cons_of_pos hc]; rfl
  trail {c t} hc := by
    rw [strip, strip, lstrip, lstrip, List.dropWhile_append]
    split
    · rename_i h
      rw [List.isEmpty_iff.1 h, List.dropWhile_cons_of_pos hc]
      rfl
    · exact List.rdropWhile_concat_pos _ _ _ hc

/-- What is read from the lines of a text that are not blank. -/
def rows (f : Text → List β) (t : Text) : List (List β) := ((splitLines t).map f).filter (!·.isEmpty)

/-- The two ways to cut differ in blank lines only: `\r\n` is one line end, and nothing follows the last one. -/
theorem splitLines_cuts {f : Text → List β} (h : f [] = []) (t : Text) :
    (t = [] ∧ splitLines t = []) ∨
      ∃ line lines cuts, splitLines t = line :: lines ∧ t.splitOnP isLineEnd = line :: cuts ∧
        (lines.map f).filter (!·.isEmpty) = (cuts.map f).filter (!·.isEmpty) := by
  have blank : ∀ u, ((u = [] ∧ splitLines u = []) ∨
      ∃ line lines cuts, splitLines u = line :: lines ∧ u.splitOnP isLineEnd = line :: cuts ∧
        (lines.map f).filter (!·.isEmpty) = (cuts.map f).filter (!·.isEmpty)) →
      ((splitLines u).map f).filter (!·.isEmpty) = ((u.splitOnP isLineEnd).map f).filter (!·.isEmpty) := by
    rintro u (⟨rfl, hu⟩ | ⟨line, lines, cuts, hs, hc, heq⟩)
    · rw [hu, List.splitOnP_nil]
      simp [h]
    · rw [hs, hc, List.map_cons, List.map_cons, List.filter_cons, List.filter_cons, heq]
  fun_induction splitLines t with
  | case1 => exact .inl ⟨rfl, rfl⟩
  | case2 rest ih =>
    refine .inr ⟨[], splitLines rest, [] :: rest.splitOnP isLineEnd, rfl, ?_, ?_⟩
    · rw [List.splitOnP_cons_eq_if_modifyHead, if_pos (by decide), List.splitOnP_cons_eq_if_modifyHead, if_pos (by decide)]
    · rw [blank rest ih, List.map_cons, h]
      rfl
  | case3 c rest hne hc ih =>
    refine .inr ⟨[], splitLines rest, rest.splitOnP isLineEnd, rfl, ?_, blank rest ih⟩
    have hend : isLineEnd c = true := by simpa [isLineEnd] using hc
    rw [List.splitOnP_cons_eq_if_modifyHead, if_pos hend]
  | case4 c rest hne hc hnil ih =>
    have hend : isLineEnd c = false := by simpa [isLineEnd] using hc
    rcases ih with ⟨rfl, -⟩ | ⟨line, lines, cuts, hs, -⟩
    · exact .inr ⟨[c], [], [], rfl, List.splitOnP_eq_singleton (by simpa using hend), rfl⟩
    · rw [hnil] at hs
      cases hs
  | case5 c rest hne hc line lines heq ih =>
    have hend : ¬ isLineEnd c = true := by simpa [isLineEnd] using hc
    rcases ih with ⟨-, hnil⟩ | ⟨line', lines', cuts, hs, hcuts, hrows⟩
    · rw [heq] at hnil
      cases hnil
    · rw [heq] at hs
      cases hs
      exact .inr ⟨c :: line, lines, cuts, rfl, by
        rw [List.splitOnP_cons_eq_if_modifyHead, if_neg hend, hcuts, List.modifyHead_cons], hrows⟩

namespace IgnoresMargins
variable {f : Text → List β} (hf : IgnoresMargins f)
include hf

theorem rows_eq (t : Text) : rows f t = ((t.splitOnP isLineEnd).map f).filter (!·.isEmpty) := by
  rcases splitLines_cuts hf.blank t with ⟨rfl, -⟩ | ⟨line, lines, cuts, hs, hc, hrows⟩
  · rw [rows, List.splitOnP_nil]
    simp [splitLines, hf.blank]
  · rw [rows, hs, hc, List.map_cons, List.map_cons, List.filter_cons, List.filter_cons, hrows]

theorem rows_cut (t u : Text) {e : Char} (he : isLineEnd e = true) : rows f (t ++ e :: u) = rows f t ++ rows f u := by
  rw [hf.rows_eq, hf.rows_eq, hf.rows_eq, List.splitOnP_append_cons t u he, List.map_append, List.filter_append]

theorem rows_line {t : Text} (ht : ∀ c ∈ t, isLineEnd c = false) : rows f t = [f t].filter (!·.isEmpty) := by
  rw [hf.rows_eq, List.splitOnP_eq_singleton ht]
  rfl

theorem rows_lead {c : Char} (hc : isSpace c = true) (t : Text) : rows f (c :: t) = rows f t := by
  by_cases hend : isLineEnd c = true
  · exact hf.rows_cut [] t hend
  have hend' : isLineEnd c = false := by simpa using hend
  rcases exists_first_line t with hfree | ⟨line, e, rest, rfl, he, hline⟩
  · rw [hf.rows_line (List.forall_mem_cons.2 ⟨hend', hfree⟩), hf.rows_line hfree, hf.lead hc]
  · rw [← List.cons_append, hf.rows_cut _ _ he, hf.rows_cut _ _ he,
      hf.rows_line (List.forall_mem_cons.2 ⟨hend', hline⟩), hf.rows_line hline, hf.lead hc]

theorem rows_trail {c : Char} (hc : isSpace c = true) (t : Text) : rows f (t ++ [c]) = rows f t := by
  by_cases hend : isLineEnd c = true
  · rw [hf.rows_cut t [] hend]
    exact List.append_nil _
  have hend' : isLineEnd c = false := by simpa using hend
  have line_of : ∀ {line : Text}, (∀ d ∈ line, isLineEnd d = false) → ∀ d ∈ line ++ [c], isLineEnd d = false := by
    intro line hline
    rw [List.forall_mem_append]
    exact ⟨hline, by simpa using hend'⟩
  rcases exists_last_line t with hfree | ⟨front, e, line, rfl, he, hline⟩
  · rw [hf.rows_line (line_of hfree), hf.rows_line hfree, hf.trail hc]
  · rw [List.append_assoc, List.cons_append, hf.rows_cut _ _ he, hf.rows_cut _ _ he,
      hf.rows_line (line_of hline), hf.rows_line hline, hf.trail hc]

theorem rows_strip (t : Text) : rows f (strip t) = rows f t :=
  apply_strip (fun hc => hf.rows_lead hc _) (fun hc => hf.rows_trail hc _) t

theorem rows_newlines (t : Text) : rows f (newlines t) = rows f t := by
  -- The text read so far goes in front, since a line may begin in it.
  suffices h : ∀ front, rows f (front ++ newlines t) = rows f (front ++ t) from h []
  fun_induction newlines t with
  | case1 cs ih =>
    intro front
    have hih := ih []
    rw [List.nil_append, List.nil_append] at hih
    have hreturn : rows f ('\n' :: cs) = rows f cs := hf.rows_cut [] cs (by decide)
    rw [hf.rows_cut _ _ (by decide), hf.rows_cut _ _ (by decide), hih, hreturn]
  | case2 cs hne ih =>
    intro front
    have hih := ih []
    rw [List.nil_append, List.nil_append] at hih
    rw [hf.rows_cut _ _ (by decide), hf.rows_cut _ _ (by decide), hih]
  | case3 c cs hne₁ hne₂ ih =>
    intro front
    have hih := ih (front ++ [c])
    rwa [List.append_assoc, List.append_assoc] at hih
  | case4 => intro front; rfl

theorem mem_rows {t : Text} {r : List β} (h : r ∈ rows f t) :
    r ≠ [] ∧ ∃ line : Text, r = f line ∧ ∀ c ∈ line, isLineEnd c = false := by
  rw [hf.rows_eq] at h
  obtain ⟨hr, hne⟩ := List.mem_filter.1 h
  obtain ⟨line, hline, rfl⟩ := List.mem_map.1 hr
  exact ⟨by simpa using hne, line, rfl, not_sep_of_mem_splitOnP hline⟩

end IgnoresMargins

end AgentSdk.Lib
