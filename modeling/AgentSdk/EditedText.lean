import AgentSdk.EditorSteps
import AgentSdk.FunctionCallText
/-!
# What an edit changes

The text of a file before and after `str_replace` and `insert`, line terminators
included.
-/

namespace AgentSdk.FileEditing
open Lib

/-! ## Universal newlines -/

section Newlines
variable {a b t : Text}

/-- The pairs `\r\n`. -/
def crlfs : Text → Nat
  | '\r' :: '\n' :: cs => crlfs cs + 1
  | _ :: cs => crlfs cs
  | [] => 0

theorem length_newlines (t : Text) : t.length = (newlines t).length + crlfs t := by
  fun_induction newlines t with
  | case1 cs ih =>
    rw [crlfs, List.length_cons, List.length_cons, List.length_cons, ih]
    omega
  | case2 cs hne ih =>
    rw [crlfs.eq_2 _ _ fun _ _ => hne _, List.length_cons, List.length_cons, ih]
    omega
  | case3 c cs hne₁ hne₂ ih =>
    rw [crlfs.eq_2 _ _ fun _ hr => absurd hr hne₂, List.length_cons, List.length_cons, ih]
    omega
  | case4 => rfl

theorem crlfs_le (t : Text) : crlfs t ≤ t.count '\r' := by
  fun_induction crlfs t with
  | case1 cs ih =>
    rw [List.count_cons_self, List.count_cons_of_ne (by decide)]
    omega
  | case2 c cs hne ih => exact ih.trans (List.count_le_count_cons)
  | case3 => exact Nat.le_refl _

/-- Where each carriage return counts as a pair, a line feed follows it. -/
theorem head?_of_crlfs (h : t.count '\r' ≤ crlfs t) (ht : t = a ++ '\r' :: b) : b.head? = some '\n' := by
  fun_induction crlfs t generalizing a with
  | case1 cs ih =>
    rw [List.count_cons_self, List.count_cons_of_ne (by decide)] at h
    cases a with
    | nil =>
      cases ht
      rfl
    | cons c a =>
      obtain ⟨-, ht⟩ := List.cons.inj ht
      cases a with
      | nil => cases ht
      | cons d a => exact ih (by omega) (List.cons.inj ht).2
  | case2 c cs hne ih =>
    have hle := crlfs_le cs
    cases a with
    | nil =>
      cases ht
      rw [List.count_cons_self] at h
      omega
    | cons d a =>
      exact ih ((List.count_le_count_cons).trans h) (List.cons.inj ht).2
  | case3 => simp at ht

end Newlines

/-! ## What is asked -/

/-- The string that is replaced. -/
def target (raw oldStr : Text) : Text := if oldStr <:+: raw then oldStr else strip oldStr

/-- The target occurs once, overlapping occurrences counted. -/
def OccursOnce (old raw : Text) : Prop :=
  ∃ pre post, raw = pre ++ (old ++ post) ∧ ∀ pre' post', raw = pre' ++ (old ++ post') → pre' = pre

/-- A line of the file, at its end maybe terminated now. -/
def Keeps (line kept : Text) : Prop :=
  kept = line ∨ line.getLast? ≠ some '\n' ∧ line.getLast? ≠ some '\r' ∧ kept = line ++ ['\n']

/-- The text before and after: the one occurrence is replaced; the lines stay as
they are with the new ones between them. -/
def Edit.Asked : Edit → Text → Text → Prop
  | .strReplace oldStr newStr, raw, new => ∃ pre post, raw = pre ++ (target raw oldStr ++ post) ∧
      new = pre ++ (newStr ++ post) ∧ ∀ pre' post', raw = pre' ++ (target raw oldStr ++ post') → pre' = pre
  | .insert k newStr, raw, new => ∃ before, List.Forall₂ Keeps ((uniLines raw).take k.toNat) before ∧
      uniLines new = before ++ (uniLines (newStr ++ ['\n']) ++ (uniLines raw).drop k.toNat)

/-- `old_str` ends inside the only terminator with a carriage return, the stripped
string is found, and to replace it leaves the same text. -/
def CutsTerminator (raw oldStr newStr : Text) : Prop :=
  ∃ pre post idx, oldStr = strip oldStr ++ ['\r'] ∧ raw = pre ++ (oldStr ++ '\n' :: post) ∧ '\r' ∉ pre ∧ '\r' ∉ post ∧
    matchesOf (strip oldStr) (newlines raw) = [idx] ∧
    (newlines raw).take idx ++ newStr ++ (newlines raw).drop (idx + (strip oldStr).length) =
      pre ++ (newStr ++ '\n' :: post)

/-- No carriage return is in the file, and what is asked for can be told: the
string occurs once; the lines are all terminated or something follows. -/
def Edit.Exact : Edit → Text → Prop
  | .strReplace oldStr newStr, raw =>
    '\r' ∉ raw ∧ OccursOnce (target raw oldStr) raw ∨ CutsTerminator raw oldStr newStr
  | .insert k _, raw => '\r' ∉ raw ∧ (k < (lines raw).length ∨ raw = [] ∨ raw.getLast? = some '\n')

/-! ## Replacements -/

section Replacements
variable {raw t oldStr newStr new : Text} {stop : Nat}

theorem findOld_eq (t oldStr : Text) : findOld t oldStr = (target t oldStr, matchesOf (target t oldStr) t) := by
  unfold findOld target
  by_cases h : oldStr <:+: t
  · rw [if_pos h, if_neg fun hnil => matchesOf_eq_nil.1 hnil h]
  · rw [if_neg h, if_pos (matchesOf_eq_nil.2 h)]

theorem strReplace_plan (h : (Edit.strReplace oldStr newStr).plan t = some (new, stop)) :
    ∃ idx, matchesOf (target t oldStr) t = [idx] ∧
      new = t.take idx ++ newStr ++ t.drop (idx + (target t oldStr).length) := by
  unfold Edit.plan at h
  dsimp only at h
  rw [findOld_eq] at h
  split at h
  · rename_i old idx heq
    obtain ⟨rfl, hidx⟩ := Prod.mk.inj heq
    exact ⟨idx, hidx, (Prod.mk.inj (Option.some.inj h)).1.symm⟩
  · cases h

theorem strip_split (u : Text) : ∃ w₁ w₂, u = w₁ ++ (strip u ++ w₂) := by
  refine ⟨u.takeWhile isSpace, (lstrip u).rtakeWhile isSpace, ?_⟩
  have hback : strip u ++ (lstrip u).rtakeWhile isSpace = lstrip u := List.rdropWhile_append_rtakeWhile
  rw [hback]
  exact List.takeWhile_append_dropWhile.symm

theorem strip_head {u : Text} {c : Char} {cs : Text} (h : strip u = c :: cs) : isSpace c = false := by
  have hpre : strip u <+: lstrip u := List.rdropWhile_prefix _ _
  rw [h] at hpre
  obtain ⟨r, hr⟩ := hpre
  have hfirst := List.head?_dropWhile_not isSpace u
  rw [← show lstrip u = u.dropWhile isSpace from rfl, ← hr] at hfirst
  exact hfirst

/-- No place of an edit holds a carriage return but in the string that is replaced. -/
theorem asked_free {pre post : Text} (ht : '\r' ∉ t)
    (hnew : new = pre ++ (newStr ++ post)) {idx n : Nat} (hplan : new = t.take idx ++ newStr ++ t.drop (idx + n)) :
    '\r' ∉ pre ∧ '\r' ∉ post := by
  have hcount := congrArg (List.count '\r') (hnew.symm.trans hplan)
  rw [List.count_append, List.count_append, List.count_append, List.count_append,
    List.count_eq_zero_of_not_mem fun h => ht (List.mem_of_mem_take h),
    List.count_eq_zero_of_not_mem fun h => ht (List.mem_of_mem_drop h)] at hcount
  exact ⟨List.count_eq_zero.1 (by omega), List.count_eq_zero.1 (by omega)⟩

theorem length_matchesOf_nil (t : Text) : (matchesOf ([] : Text) t).length = t.length + 1 := by
  have hfrom : ∀ pos, (matchesFrom ([] : Text) 0 pos t).length = t.length + 1 := by
    induction t with
    | nil => intro pos; rfl
    | cons c cs ih =>
      intro pos
      have hpre : ([] : Text).isPrefixOf (c :: cs) = true := rfl
      rw [matchesFrom, if_pos hpre, List.length_cons, List.length_cons]
      exact congrArg (· + 1) (ih (pos + 1))
  exact hfrom 0

theorem newlines_nil_iff (raw : Text) : newlines raw = [] ↔ raw = [] := by
  constructor
  · intro h
    unfold newlines at h
    split at h
    · cases h
    · cases h
    · cases h
    · rfl
  · rintro rfl
    rfl

/-- If the carriage returns all lie in the string that is asked for, that string
ends inside a terminator. -/
theorem cuts_of_asked {pre post : Text} (hplan : (Edit.strReplace oldStr newStr).plan (newlines raw) = some (new, stop))
    (hraw : raw = pre ++ (target raw oldStr ++ post)) (hnew : new = pre ++ (newStr ++ post)) (hcr : '\r' ∈ raw) :
    CutsTerminator raw oldStr newStr := by
  obtain ⟨idx, hmatch, hval⟩ := strReplace_plan hplan
  obtain ⟨hpre, hpost⟩ := asked_free (not_mem_newlines raw) hnew hval
  have hin : '\r' ∈ target raw oldStr := by
    rw [hraw] at hcr
    simpa [hpre, hpost] using hcr
  obtain ⟨w₁, w₂, hold⟩ := strip_split oldStr
  have hinold : '\r' ∈ oldStr := by
    unfold target at hin
    split at hin
    · exact hin
    · rw [hold]
      simp [hin]
  -- So the string is not in the text that is read, and the stripped one is.
  have htarget : target (newlines raw) oldStr = strip oldStr :=
    if_neg fun h => not_mem_newlines raw (h.subset hinold)
  rw [htarget] at hmatch hval
  have hsplit := matchesOf_split (by rw [hmatch]; exact List.mem_singleton.2 rfl : idx ∈ matchesOf (strip oldStr) (newlines raw))
  have hstrip : '\r' ∉ strip oldStr := fun h => not_mem_newlines raw (by rw [hsplit]; simp [h])
  have hocc : oldStr <:+: raw := by
    by_contra hno
    rw [target, if_neg hno] at hin
    exact hstrip hin
  rw [target, if_pos hocc] at hraw
  -- The lengths leave room for nothing but the pairs.
  have hlen := congrArg List.length hsplit
  have hlen' := congrArg List.length (hnew.symm.trans hval)
  have hraw' := congrArg List.length hraw
  have hold' := congrArg List.length hold
  have hcount := congrArg (List.count '\r') hraw
  have hcount' := congrArg (List.count '\r') hold
  have hpairs := length_newlines raw
  have hle := crlfs_le raw
  have hw₁ := List.count_le_length (a := '\r') (l := w₁)
  have hw₂ := List.count_le_length (a := '\r') (l := w₂)
  simp only [List.length_append, List.count_append, List.length_take, List.length_drop,
    List.count_eq_zero_of_not_mem hpre, List.count_eq_zero_of_not_mem hpost,
    List.count_eq_zero_of_not_mem hstrip] at hlen hlen' hraw' hold' hcount hcount'
  have hall₁ : w₁.count '\r' = w₁.length := by omega
  have hall₂ : w₂.count '\r' = w₂.length := by omega
  have hfollowed : raw.count '\r' ≤ crlfs raw := by omega
  rw [List.count_eq_length] at hall₁ hall₂
  -- A carriage return in front of the stripped string is not followed by a line feed.
  have hfront : w₁ = [] := by
    cases w₁ with
    | nil => rfl
    | cons c w₁ =>
      obtain rfl : '\r' = c := hall₁ c List.mem_cons_self
      have hnext := @head?_of_crlfs pre (w₁ ++ (strip oldStr ++ w₂) ++ post) raw hfollowed
        (hraw.trans ((congrArg (fun u => pre ++ (u ++ post)) hold).trans (by simp)))
      cases w₁ with
      | cons d w₁ =>
        have hd := hall₁ d (List.mem_cons_of_mem _ List.mem_cons_self)
        rw [← hd] at hnext
        cases hnext
      | nil =>
        cases hs : strip oldStr with
        | cons d ds =>
          rw [hs] at hnext
          have hd : d = '\n' := Option.some.inj hnext
          have hspace := strip_head hs
          rw [hd] at hspace
          cases hspace
        | nil =>
          have hlen₀ := length_matchesOf_nil (newlines raw)
          rw [← hs, hmatch] at hlen₀
          have hempty := (newlines_nil_iff raw).1 (List.length_eq_zero_iff.1 (by simpa using hlen₀.symm))
          rw [hempty] at hcr
          cases hcr
  subst hfront
  rw [List.nil_append] at hold
  cases w₂ with
  | nil =>
    rw [List.append_nil] at hold
    rw [hold] at hinold
    exact absurd hinold hstrip
  | cons c w₂ =>
    obtain rfl : '\r' = c := hall₂ c List.mem_cons_self
    have hnext := @head?_of_crlfs (pre ++ strip oldStr) (w₂ ++ post) raw hfollowed
      (hraw.trans ((congrArg (fun u => pre ++ (u ++ post)) hold).trans (by simp)))
    cases w₂ with
    | cons d w₂ =>
      have hd := hall₂ d (List.mem_cons_of_mem _ List.mem_cons_self)
      rw [← hd] at hnext
      cases hnext
    | nil =>
      cases post with
      | nil => cases hnext
      | cons d post =>
        obtain rfl : d = '\n' := Option.some.inj hnext
        refine ⟨pre, post, idx, hold, hraw, hpre, fun h => hpost (List.mem_cons_of_mem _ h), hmatch, ?_⟩
        rw [← hval, hnew]

theorem strReplace_asked_iff (hplan : (Edit.strReplace oldStr newStr).plan (newlines raw) = some (new, stop)) :
    (Edit.strReplace oldStr newStr).Asked raw new ↔ (Edit.strReplace oldStr newStr).Exact raw := by
  obtain ⟨idx, hmatch, hval⟩ := strReplace_plan hplan
  constructor
  · rintro ⟨pre, post, hraw, hnew, honce⟩
    by_cases hcr : '\r' ∈ raw
    · exact .inr (cuts_of_asked hplan hraw hnew hcr)
    · exact .inl ⟨hcr, pre, post, hraw, honce⟩
  · rintro (⟨hcr, pre, post, hraw, honce⟩ | ⟨pre, post, idx', hold, hraw, hpre, hpost, hmatch', heq⟩)
    · rw [newlines_eq hcr] at hmatch hval
      have hsplit := matchesOf_split (by rw [hmatch]; exact List.mem_singleton.2 rfl : idx ∈ matchesOf (target raw oldStr) raw)
      obtain rfl := honce _ _ hsplit
      have hpost := List.append_cancel_left (List.append_cancel_left (hraw.symm.trans hsplit))
      exact ⟨_, post, hraw, by rw [hval, hpost, List.append_assoc], honce⟩
    · have hocc : oldStr <:+: raw := ⟨pre, '\n' :: post, by rw [hraw, List.append_assoc]⟩
      have hinold : '\r' ∈ oldStr := by
        rw [hold]
        simp
      have htarget : target (newlines raw) oldStr = strip oldStr :=
        if_neg fun h => not_mem_newlines raw (h.subset hinold)
      rw [htarget, hmatch'] at hmatch
      obtain rfl := List.singleton_inj.1 hmatch
      rw [htarget, heq] at hval
      refine ⟨pre, '\n' :: post, by rw [target, if_pos hocc]; exact hraw, hval, fun pre' post' hraw' => ?_⟩
      rw [target, if_pos hocc] at hraw'
      -- The one carriage return of the file tells the place.
      have hstrip : '\r' ∉ strip oldStr := by
        intro h
        have hsplit := matchesOf_split (by rw [hmatch']; exact List.mem_singleton.2 rfl :
          idx' ∈ matchesOf (strip oldStr) (newlines raw))
        exact not_mem_newlines raw (by rw [hsplit]; simp [h])
      have hboth : (pre ++ strip oldStr) ++ '\r' :: ('\n' :: post) = (pre' ++ strip oldStr) ++ '\r' :: post' := by
        have hat : ∀ a b : Text, a ++ (oldStr ++ b) = (a ++ strip oldStr) ++ '\r' :: b := fun a b =>
          (congrArg (fun u => a ++ (u ++ b)) hold).trans (by simp)
        rw [← hat, ← hat]
        exact hraw.symm.trans hraw'
      have hplace := (List.append_cons_inj_of_notMem (by simp [hpre, hstrip]) (by simp [hpost])).1 hboth
      exact (List.append_cancel_right hplace.1).symm

end Replacements

/-! ## Insertions -/

section Insertions
variable {raw newStr new : Text} {k : Int} {stop : Nat}

theorem flatten_newLines (newStr : Text) : ((newStr.splitOn '\n').map (· ++ ['\n'])).flatten = newStr ++ ['\n'] := by
  have hjoin : ∀ ls : List Text, ls ≠ [] → (ls.map (· ++ ['\n'])).flatten = ['\n'].intercalate ls ++ ['\n'] := by
    intro ls hls
    induction ls with
    | nil => exact absurd rfl hls
    | cons l ls ih =>
      cases ls with
      | nil => simp [List.intercalate]
      | cons l' ls =>
        rw [List.map_cons, List.flatten_cons, ih (List.cons_ne_nil _ _)]
        simp [List.intercalate, List.intersperse]
  rw [hjoin _ (List.splitOn_ne_nil _ _), List.intercalate_splitOn]

theorem insert_plan (h : (Edit.insert k newStr).plan (newlines raw) = some (new, stop)) :
    0 ≤ k ∧ k ≤ (lines (newlines raw)).length ∧
      new = ((lines (newlines raw)).take k.toNat).flatten ++ ((newStr ++ ['\n']) ++
        ((lines (newlines raw)).drop k.toNat).flatten) := by
  unfold Edit.plan at h
  dsimp only at h
  split at h
  · cases h
  · rename_i hk
    rw [not_or] at hk
    obtain ⟨hnew, -⟩ := Prod.mk.inj (Option.some.inj h)
    refine ⟨by omega, by omega, ?_⟩
    rw [← hnew, List.flatten_append, List.flatten_append, flatten_newLines, List.append_assoc]

theorem Keeps.count {line kept : Text} (h : Keeps line kept) : kept.count '\r' = line.count '\r' := by
  rcases h with rfl | ⟨-, -, rfl⟩
  · rfl
  · rw [List.count_append, List.count_singleton]
    rfl

theorem count_flatten_keeps {ls ks : List Text} (h : List.Forall₂ Keeps ls ks) :
    ks.flatten.count '\r' = ls.flatten.count '\r' := by
  induction h with
  | nil => rfl
  | cons hline _ ih => rw [List.flatten_cons, List.flatten_cons, List.count_append, List.count_append, hline.count, ih]

theorem insert_asked_iff (hplan : (Edit.insert k newStr).plan (newlines raw) = some (new, stop)) :
    (Edit.insert k newStr).Asked raw new ↔ (Edit.insert k newStr).Exact raw := by
  obtain ⟨hk, hle, hval⟩ := insert_plan hplan
  constructor
  · rintro ⟨before, hkeeps, hlines⟩
    have hnew : new = before.flatten ++ ((newStr ++ ['\n']) ++ ((uniLines raw).drop k.toNat).flatten) := by
      rw [← flatten_uniLines new, hlines, List.flatten_append, List.flatten_append, flatten_uniLines]
    have hcr : '\r' ∉ raw := by
      have hcount := congrArg (List.count '\r') (hnew.symm.trans hval)
      have htake : '\r' ∉ ((lines (newlines raw)).take k.toNat).flatten := by
        intro h
        refine not_mem_newlines raw ?_
        rw [← flatten_lines (newlines raw), ← List.take_append_drop k.toNat (lines (newlines raw)), List.flatten_append]
        exact List.mem_append_left _ h
      have hdrop : '\r' ∉ ((lines (newlines raw)).drop k.toNat).flatten := by
        intro h
        refine not_mem_newlines raw ?_
        rw [← flatten_lines (newlines raw), ← List.take_append_drop k.toNat (lines (newlines raw)), List.flatten_append]
        exact List.mem_append_right _ h
      simp only [List.count_append, List.count_eq_zero_of_not_mem htake, List.count_eq_zero_of_not_mem hdrop,
        count_flatten_keeps hkeeps] at hcount
      have hwhole : raw.count '\r' = ((uniLines raw).take k.toNat).flatten.count '\r' +
          ((uniLines raw).drop k.toNat).flatten.count '\r' := by
        rw [← List.count_append, ← List.flatten_append, List.take_append_drop, flatten_uniLines]
      exact List.count_eq_zero.1 (by omega)
    refine ⟨hcr, ?_⟩
    rw [newlines_eq hcr] at hval hle
    by_contra hno
    rw [not_or, not_or] at hno
    obtain ⟨hlast, hne, hend⟩ := hno
    -- The new text goes on with the last line: there is one line less than asked for.
    have hkn : k.toNat = (lines raw).length := by omega
    rw [hkn, List.take_length, List.drop_length, flatten_lines, List.flatten_nil, List.append_nil] at hval
    have hjoined := @length_uniLines_append raw (newStr ++ ['\n']) hcr hne hend (by simp)
    rw [← hval, hlines, hkn, uniLines_eq_lines hcr, List.drop_length, List.append_nil, List.length_append] at hjoined
    have hlen := hkeeps.length_eq
    rw [hkn, uniLines_eq_lines hcr, List.take_length] at hlen
    omega
  · rintro ⟨hcr, hend⟩
    rw [newlines_eq hcr] at hval hle
    refine ⟨(uniLines raw).take k.toNat, List.forall₂_same.2 fun _ _ => .inl rfl, ?_⟩
    have hfirst : ((lines raw).take k.toNat).flatten = [] ∨ ((lines raw).take k.toNat).flatten.getLast? = some '\n' := by
      by_cases hlt : k.toNat < (lines raw).length
      · exact getLast?_flatten_take hlt
      · rw [List.take_of_length_le (by omega), flatten_lines]
        exact hend.resolve_left (by omega)
    have hfree : ∀ ls : List Text, ls.flatten <:+: raw → uniLines ls.flatten = lines ls.flatten :=
      fun ls h => uniLines_eq_lines fun hm => hcr (h.subset hm)
    have hwhole : ((lines raw).take k.toNat).flatten ++ ((lines raw).drop k.toNat).flatten = raw := by
      rw [← List.flatten_append, List.take_append_drop, flatten_lines]
    rw [hval, uniLines_append hfirst, uniLines_append (.inr (by simp)), hfree _ ⟨[], _, by simpa using hwhole⟩,
      hfree _ ⟨_, [], by simpa using hwhole⟩, lines_take, lines_drop, uniLines_eq_lines hcr]

end Insertions

/-! ## Edits -/

/-- Nothing but the file changes, and the file as asked for exactly if the text
has no carriage return and the place can be told. -/
theorem edits_only_what_was_asked (p : Platform) (m : Moment) (s s' : FileEditor) (path : Path) (e : Edit)
    (obs : Observation) (h : call p m path e.command s = .ok obs s') :
    ∃ f raw new r, s.nodes path = some (.file f) ∧ p.decode (s.encodingOf p path f) f.bytes = some raw ∧
      encodeText p (s.encodingOf p path f) new = some r ∧ p.decode r.1 r.2 = some new ∧
      s'.nodes = Function.update s.nodes path (some (.file ⟨r.2, m.now⟩)) ∧ (e.Asked raw new ↔ e.Exact raw) := by
  obtain ⟨t, new, stop, s₁, hedit, -, rfl⟩ := edit_ok h
  obtain ⟨f, raw, r, hf, -, -, hraw, rfl, hr, hs₁⟩ := hedit.file
  refine ⟨f, raw, new, r, hf, hraw, hr, decode_encodeText hr, ?_, ?_⟩
  · rw [look_nodes]
    show s₁.nodes = _
    rw [hs₁, FileEditor.put, look_nodes]
  · cases e with
    | strReplace oldStr newStr => exact strReplace_asked_iff hedit.plan
    | insert k newStr => exact insert_asked_iff hedit.plan

/-- A line is added after the first of two. -/
theorem edits_only_the_middle : ∃ obs s', call plainPlatform ⟨true, 1⟩ "/f"
      (Edit.insert 1 "new".toList).command (editorOf "a\nb") = .ok obs s' ∧
    ∃ f raw new r, (editorOf "a\nb").nodes "/f" = some (.file f) ∧
      plainPlatform.decode ((editorOf "a\nb").encodingOf plainPlatform "/f" f) f.bytes = some raw ∧
      encodeText plainPlatform ((editorOf "a\nb").encodingOf plainPlatform "/f" f) new = some r ∧
      plainPlatform.decode r.1 r.2 = some new ∧
      s'.nodes = Function.update (editorOf "a\nb").nodes "/f" (some (.file ⟨r.2, 1⟩)) ∧
      ((Edit.insert 1 "new".toList).Asked raw new ↔ (Edit.insert 1 "new".toList).Exact raw) := by
  have hrun : outcome (editorOf "a\nb") (Edit.insert 1 "new".toList).command =
      some (⟨some "a\nb".toList, "a\nnew\nb".toList⟩, some (.file ⟨"a\nnew\nb".toUTF8, 1⟩)) := by decide +kernel
  obtain ⟨s', hcall, -⟩ := ok_of_outcome hrun
  exact ⟨_, s', hcall, edits_only_what_was_asked plainPlatform ⟨true, 1⟩ _ s' "/f" _ _ hcall⟩

/-- A line that is added at the end of a file whose last line is not terminated. -/
theorem insert_joins_lines : ¬ ∀ (p : Platform) (m : Moment) (s s' : FileEditor) (path : Path) (e : Edit)
    (obs : Observation), call p m path e.command s = .ok obs s' →
    ∃ f raw new r, s.nodes path = some (.file f) ∧ p.decode (s.encodingOf p path f) f.bytes = some raw ∧
      encodeText p (s.encodingOf p path f) new = some r ∧ p.decode r.1 r.2 = some new ∧
      s'.nodes = Function.update s.nodes path (some (.file ⟨r.2, m.now⟩)) ∧ e.Asked raw new := by
  intro hall
  have hrun : outcome (editorOf "a") (Edit.insert 1 "b".toList).command =
      some (⟨some "a".toList, "ab\n".toList⟩, some (.file ⟨"ab\n".toUTF8, 1⟩)) := by decide +kernel
  obtain ⟨s', hcall, hafter⟩ := ok_of_outcome hrun
  obtain ⟨f, raw, new, r, hf, hraw, hr, hnew, hnodes, hasked⟩ := hall _ _ _ _ _ _ _ hcall
  obtain rfl : File.mk "a".toUTF8 0 = f := by
    have h : (editorOf "a").nodes "/f" = some (fileWith "a") := rfl
    rw [h] at hf
    exact Node.file.inj (Option.some.inj hf)
  have hencoding : (editorOf "a").encodingOf plainPlatform "/f" ⟨"a".toUTF8, 0⟩ = defaultEncoding := by decide +kernel
  have hdecode : plainPlatform.decode defaultEncoding "a".toUTF8 = some "a".toList := by decide +kernel
  rw [hencoding] at hraw hr
  obtain rfl : "a".toList = raw := Option.some.inj (hdecode.symm.trans hraw)
  rw [encodeText_default] at hr
  obtain rfl := Option.some.inj hr
  rw [hnodes, Function.update_self] at hafter
  have hbytes : (String.ofList new).toUTF8 = "ab\n".toUTF8 := (File.mk.inj (Node.file.inj (Option.some.inj hafter))).1
  have hdecode' : plainPlatform.decode defaultEncoding "ab\n".toUTF8 = some "ab\n".toList := by decide +kernel
  rw [hbytes] at hnew
  obtain rfl : "ab\n".toList = new := Option.some.inj (hdecode'.symm.trans hnew)
  have hplan : (Edit.insert 1 "b".toList).plan (newlines "a".toList) = some ("ab\n".toList, 2) := by decide +kernel
  obtain ⟨-, hlt | hnil | hend⟩ := (insert_asked_iff hplan).1 hasked
  · revert hlt
    decide +kernel
  · cases hnil
  · revert hend
    decide +kernel

end AgentSdk.FileEditing
