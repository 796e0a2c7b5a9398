import AgentSdk.ApplyPatch
import AgentSdk.Lib.Sections
/-!
# What a patch does to a file

A patch is read, or a `DiffError` is raised: no index is out of range and every
loop ends. The commit has the files that the patch's headers name, one change
for each. The sections of an updated file match the file where they were found,
and its new lines are the old ones with the hunks of the sections applied.
-/

namespace AgentSdk.ApplyPatch
open Lib

/-! ## The files of a patch -/

def ActionType.mark : ActionType → Text
  | .update => updateFile
  | .delete => deleteFile
  | .add => addFile

/-- What a line names in a patch, if it is a header with a path. -/
def header (line : Text) : Option (ActionType × Path) :=
  [.update, .delete, .add].findSome? fun type : ActionType =>
    if type.mark.isPrefixOf line && line != type.mark then some (type, String.ofList (line.drop type.mark.length)) else none

/-- What ends the part of a file. -/
def sectionMarks : List Text := [endPatch, "*** Update File:".toList, "*** Delete File:".toList, "*** Add File:".toList]

/-- A file of the patch, with the lines under its header. -/
structure FileSection where
  type : ActionType
  path : Path
  body : List Text
deriving DecidableEq

/-- The files up to the end mark, one for each header. -/
def fileSectionsIn (lines : List Text) : List FileSection :=
  (sectionsOf (startsWithAny · sectionMarks) header (lines.takeWhile fun line => !endPatch.isPrefixOf line)).map
    fun s => ⟨s.1.1, s.1.2, s.2⟩

def fileSections (text : Text) : List FileSection := fileSectionsIn (patchLines text).tail

/-- Where an updated file is moved to. -/
def FileSection.move (s : FileSection) : Option Text :=
  s.body.head?.bind fun line => if moveTo.isPrefixOf line then some (line.drop moveTo.length) else none

/-- The sections of an updated file. -/
def FileSection.script (s : FileSection) : List Text := if s.move.isSome then s.body.tail else s.body

/-- The text of an added file. -/
def FileSection.newFile (s : FileSection) : Text := joinLines (s.body.map List.tail)

/-- The headers before the end mark are the files of the patch. -/
theorem fileSections_headers (text : Text) : (fileSections text).map (fun s => (s.type, s.path)) =
    ((patchLines text).tail.takeWhile fun line => !endPatch.isPrefixOf line).filterMap header := by
  rw [fileSections, fileSectionsIn, List.map_map, ← @map_fst_sectionsOf _ _ (startsWithAny · sectionMarks) header _]
  rfl

/-! ## What a section changes -/

def opOf (mode : Mode) (line : Text) : EditOp Text :=
  match mode with
  | .keep => .keep line
  | .add => .insert line
  | .delete => .delete line

def readOp (line : Text) : Option (EditOp Text) := (readMode line).map fun m => opOf m.1 m.2

/-- A section as it stands in the patch: its anchor lines, the lines of its
script, and the mark that it ends the file. -/
structure Section where
  anchor : List Text
  body : List Text
  ops : List (EditOp Text)
  eof : Bool
  reads : body.map readOp = ops.map some
  anchored : ∀ line ∈ anchor, "@@".toList <+: line

def Section.lines (s : Section) : List Text := s.anchor ++ (s.body ++ if s.eof then [endOfFile] else [])

/-- A line of the file stands for one of the patch. -/
def SameLine (exact : Prop) (line patched : Text) : Prop := strip line = strip patched ∧ (exact → line = patched)

/-- The lines of the patch are sections that stand in the text, and `newText` is
the text with their hunks applied. -/
def Updated (exact : Prop) (script : List Text) (text newText : Text) : Prop :=
  ∃ (sections : List (Section × Nat)) (dest : List Text), script = sections.flatMap (fun s => s.1.lines) ∧
    (∀ s ∈ sections, MatchesAt (SameLine exact) (text.splitOn '\n') s.2 (oldSide s.1.ops)) ∧
    Patched (SameLine exact) 0 (sections.flatMap fun s => hunksAt s.2 s.1.ops) (text.splitOn '\n') dest ∧
    newText = joinLines dest

/-- The change is what the patch has for the file. -/
structure FileChange.Follows (files : List (Path × Text)) (exact : Prop) (s : FileSection) (change : FileChange) : Prop where
  type : change.type = s.type
  add : s.type = .add → change.newContent = some s.newFile
  delete : s.type = .delete → ∃ text, files.lookup s.path = some text ∧ change.oldContent = some text
  update : s.type = .update → change.movePath = some (String.ofList (s.move.getD [])) ∧
    ∃ text newText, files.lookup s.path = some text ∧ change.oldContent = some text ∧
      change.newContent = some newText ∧ Updated exact s.script text newText

def commitOf (fuel : Nat) (text : Text) (orig : List (Path × Text)) : Parses (Commit × Nat) := do
  let (patch, fuzz) ← textToPatch fuel text orig
  let commit ← patchToCommit patch orig
  return (commit, fuzz)

def Raised.IsDiff : Raised → Prop
  | .diffError _ => True
  | _ => False

/-! ## Whitespace around a line -/

theorem strip_rstrip (t : Text) : strip (rstrip t) = strip t := by
  induction t using List.reverseRecOn with
  | nil => rfl
  | append_singleton u c ih =>
    by_cases hc : isSpace c = true
    · rw [rstrip, List.rdropWhile_concat_pos _ _ _ hc, ← rstrip, ih, strip, strip, lstrip, lstrip, List.dropWhile_append]
      split
      · rename_i hnil
        rw [List.isEmpty_iff.1 hnil, List.dropWhile_cons_of_pos hc, List.dropWhile_nil]
      · rw [rstrip, rstrip, List.rdropWhile_concat_pos _ _ _ hc]
    · rw [rstrip, List.rdropWhile_concat_neg _ _ _ hc]

theorem strip_eq_of_rstrip_eq {s t : Text} (h : rstrip s = rstrip t) : strip s = strip t := by
  rw [← strip_rstrip s, h, strip_rstrip]

/-! ## The search -/

section Search
variable {lines context : List Text} {start : Int}

theorem map_eq_map_iff {f : Text → Text} {s t : List Text} : s.map f = t.map f ↔ List.Forall₂ (fun a b => f a = f b) s t := by
  rw [← List.forall₂_eq_eq_eq, List.forall₂_map_left_iff, List.forall₂_map_right_iff]

/-- What the search by a key finds. -/
theorem searchContext_spec {key : Text → Text}
    (hstart : 0 ≤ start ∨ lines.length < context.length) {i : Int} (h : searchContext key lines context start = some i) :
    ∃ k : Nat, i = k ∧ start ≤ i ∧ MatchesAt (fun a b => key a = key b) lines k context := by
  have hmem := List.mem_of_find?_eq_some h
  have hfound := List.find?_some h
  rw [beq_iff_eq, map_eq_map_iff] at hfound
  have hlen := hfound.length_eq
  obtain ⟨hle, hlt⟩ := mem_rangeInt.1 hmem
  have hpos : 0 ≤ i := by
    rcases hstart with hstart | hstart
    · omega
    · have := length_slice_le lines i (i + context.length)
      omega
  obtain ⟨k, rfl⟩ := Int.eq_ofNat_of_zero_le hpos
  refine ⟨k, rfl, hle, lines.take k, (lines.drop k).take context.length, (lines.drop k).drop context.length, ?_, ?_, ?_⟩
  · rw [List.take_append_drop, List.take_append_drop]
  · rw [List.length_take]
    omega
  · have hslice : slice lines k (k + context.length) = (lines.drop k).take context.length := by
      have hcast : ((k : Int) + context.length) = ((k + context.length : Nat) : Int) := by omega
      rw [hcast, slice_natCast, List.drop_take]
      congr 1
      omega
    rw [← hslice]
    exact hfound

/-- A context that is found is there, as it stands if there is no fuzz. -/
theorem findContextCore_spec (hstart : (0 ≤ start ∧ start ≤ lines.length) ∨ lines.length < context.length) :
    (findContextCore lines context start).1 = -1 ∨
      ∃ k : Nat, (findContextCore lines context start).1 = k ∧
        MatchesAt (SameLine ((findContextCore lines context start).2 = 0)) lines k context := by
  unfold findContextCore
  by_cases hne : context.isEmpty = true
  · rw [if_pos hne]
    rw [List.isEmpty_iff] at hne
    subst hne
    have hs : 0 ≤ start ∧ start ≤ lines.length := hstart.resolve_right (by simp)
    obtain ⟨k, rfl⟩ := Int.eq_ofNat_of_zero_le hs.1
    refine .inr ⟨k, rfl, lines.take k, [], lines.drop k, (List.take_append_drop _ _).symm, ?_, .nil⟩
    rw [List.length_take]
    omega
  · rw [if_neg hne]
    have hs : 0 ≤ start ∨ lines.length < context.length := hstart.imp_left And.left
    cases hid : searchContext id lines context start with
    | some i =>
      obtain ⟨k, rfl, -, hmatch⟩ := searchContext_spec hs hid
      refine .inr ⟨k, rfl, hmatch.mono fun a b hab => ⟨?_, fun _ => hab⟩⟩
      rw [show a = b from hab]
    | none =>
      dsimp only
      cases hr : searchContext rstrip lines context start with
      | some i =>
        obtain ⟨k, rfl, -, hmatch⟩ := searchContext_spec hs hr
        exact .inr ⟨k, rfl, hmatch.mono fun a b hab => ⟨strip_eq_of_rstrip_eq hab, nofun⟩⟩
      | none =>
        dsimp only
        cases hst : searchContext strip lines context start with
        | some i =>
          obtain ⟨k, rfl, -, hmatch⟩ := searchContext_spec hs hst
          exact .inr ⟨k, rfl, hmatch.mono fun a b hab => ⟨hab, nofun⟩⟩
        | none => exact .inl rfl

theorem findContext_spec (hpos : 0 ≤ start) (hle : start ≤ lines.length) (eof : Bool) :
    (findContext lines context start eof).1 = -1 ∨
      ∃ k : Nat, (findContext lines context start eof).1 = k ∧
        MatchesAt (SameLine ((findContext lines context start eof).2 = 0)) lines k context := by
  unfold findContext
  cases eof with
  | false => exact findContextCore_spec (.inl ⟨hpos, hle⟩)
  | true =>
    dsimp only
    rw [if_pos rfl]
    split
    · rcases @findContextCore_spec lines context (lines.length - context.length) (by omega) with h | h
      · exact absurd h ‹_›
      · exact .inr h
    · rcases @findContextCore_spec lines context start (.inl ⟨hpos, hle⟩) with h | ⟨k, hk, hmatch⟩
      · exact .inl h
      · refine .inr ⟨k, hk, hmatch.mono fun a b hab => ⟨hab.1, fun hzero => ?_⟩⟩
        dsimp only at hzero
        omega

end Search

/-! ## Sections -/

section Sections

/-- A position before or at the end mark of the patch. -/
structure Standing (lines : List Text) (i : Nat) : Prop where
  last : lines.getLast? = some endPatch
  lt : i < lines.length

variable {lines : List Text} {i : Nat}

theorem Standing.line (h : Standing lines i) : ∃ line, lines[i]? = some line :=
  ⟨_, List.getElem?_eq_getElem h.lt⟩

/-- A line other than the end mark has a line after it. -/
theorem Standing.next (h : Standing lines i) {line : Text} (hline : lines[i]? = some line) (hne : line ≠ endPatch) :
    Standing lines (i + 1) := by
  refine ⟨h.last, Nat.lt_of_le_of_ne h.lt fun heq => hne ?_⟩
  have hlast := h.last
  rw [List.getLast?_eq_getElem?, ← heq, Nat.add_sub_cancel, hline] at hlast
  exact Option.some.inj hlast

theorem drop_eq_cons {line : Text} (hline : lines[i]? = some line) : lines.drop i = line :: lines.drop (i + 1) := by
  obtain ⟨hlt, hget⟩ := List.getElem?_eq_some_iff.1 hline
  rw [List.drop_eq_getElem_cons hlt, hget]

def Chunk.ofHunk (h : Hunk Text) : Chunk := ⟨h.pos, h.del, h.ins⟩

/-- What has been read of a section. -/
structure Peek.Holds (st : Peek) (ops : List (EditOp Text)) : Prop where
  old : st.old = oldSide ops
  length : st.delLines.length ≤ st.old.length
  kept : st.mode = .keep → st.delLines = [] ∧ st.insLines = []
  chunks : ∀ more, (hunksAt 0 (ops ++ more)).map Chunk.ofHunk =
    st.chunks ++ (hunksFrom (st.old.length - st.delLines.length) st.delLines st.insLines more).map Chunk.ofHunk

theorem Peek.Holds.init (i : Nat) : Peek.Holds { index := i } [] := ⟨rfl, Nat.le_refl _, fun _ => ⟨rfl, rfl⟩, fun _ => rfl⟩

/-- `flush` closes the run. -/
theorem chunks_flush {st : Peek} (h : st.delLines.length ≤ st.old.length) :
    st.flush.chunks =
      st.chunks ++ (closeHunk (st.old.length - st.delLines.length) st.delLines st.insLines).map Chunk.ofHunk := by
  unfold Peek.flush closeHunk
  dsimp only
  cases hins : st.insLines <;> cases hdel : st.delLines <;> simp [Chunk.ofHunk]
  · rw [hdel] at h
    simp at h
    omega
  · rw [hdel] at h
    simp at h
    omega

theorem Peek.Holds.flush {st : Peek} {ops : List (EditOp Text)} (h : st.Holds ops) :
    st.flush.chunks = (hunksAt 0 ops).map Chunk.ofHunk := by
  have hall := h.chunks []
  rw [List.append_nil] at hall
  rw [chunks_flush h.length, hall]
  rfl

theorem Peek.Holds.take {st : Peek} {ops : List (EditOp Text)} (h : st.Holds ops) (mode : Mode) (s : Text) :
    (st.take mode s).Holds (ops ++ [opOf mode s]) := by
  have hold : st.old ++ oldSide [opOf mode s] = oldSide (ops ++ [opOf mode s]) := by rw [oldSide_append, h.old]
  have hlen := h.length
  cases mode with
  | add =>
    refine ⟨?_, hlen, nofun, fun more => ?_⟩
    · rw [← hold]
      exact (List.append_nil _).symm
    · rw [List.append_assoc]
      exact h.chunks _
  | delete =>
    refine ⟨hold, ?_, nofun, fun more => ?_⟩
    · show (st.delLines ++ [s]).length ≤ (st.old ++ [s]).length
      rw [List.length_append, List.length_append]
      exact Nat.add_le_add_right hlen _
    · have hpos : (st.old ++ [s]).length - (st.delLines ++ [s]).length = st.old.length - st.delLines.length := by
        rw [List.length_append, List.length_append]
        omega
      show _ = st.chunks ++ (hunksFrom ((st.old ++ [s]).length - (st.delLines ++ [s]).length) _ _ more).map _
      rw [List.append_assoc, hpos]
      exact h.chunks _
  | keep =>
    -- a run that is open is closed, and without one there is nothing to close
    have hstate : (st.take .keep s).delLines = [] ∧ (st.take .keep s).insLines = [] ∧
        (st.take .keep s).old = st.old ++ [s] ∧ (st.take .keep s).chunks =
          st.chunks ++ (closeHunk (st.old.length - st.delLines.length) st.delLines st.insLines).map Chunk.ofHunk := by
      unfold Peek.take
      by_cases hmode : st.mode = .keep
      · obtain ⟨hdel, hins⟩ := h.kept hmode
        rw [if_neg fun hand => hand.2 hmode]
        refine ⟨hdel, hins, rfl, ?_⟩
        rw [hdel, hins]
        exact (List.append_nil _).symm
      · rw [if_pos ⟨rfl, hmode⟩]
        exact ⟨rfl, rfl, rfl, chunks_flush hlen⟩
    obtain ⟨hdel, hins, hnew, hchunks⟩ := hstate
    refine ⟨hnew.trans hold, by rw [hdel]; exact Nat.zero_le _, fun _ => ⟨hdel, hins⟩, fun more => ?_⟩
    have hpos : st.old.length - st.delLines.length + st.delLines.length + 1 = (st.old ++ [s]).length - 0 := by
      rw [List.length_append, List.length_singleton]
      omega
    rw [List.append_assoc, hdel, hins, hnew, hchunks, List.append_assoc, ← List.map_append, List.length_nil, ← hpos]
    exact h.chunks (.keep s :: more)

theorem startsWithAny_endPatch {marks : List Text} (h : endPatch ∈ marks) : startsWithAny endPatch marks = true :=
  List.any_eq_true.2 ⟨endPatch, h, List.isPrefixOf_iff_prefix.2 (List.prefix_refl _)⟩

/-- The loop stops before the end mark, and what it read is a script. -/
theorem peekLoop_spec {rest : List Text} {st : Peek} {ops : List (EditOp Text)} (h : st.Holds ops)
    (hlast : rest.getLast? = some endPatch) :
    Yields (peekLoop rest st) Raised.IsDiff fun st' => ∃ body more, body.map readOp = more.map some ∧
      st'.Holds (ops ++ more) ∧ st'.index = st.index + body.length ∧ ∃ line after, rest = body ++ line :: after := by
  induction rest generalizing st ops with
  | nil => cases hlast
  | cons s rest ih =>
    have hstop : ∃ body more, body.map readOp = more.map some ∧ st.Holds (ops ++ more) ∧
        st.index = st.index + body.length ∧ ∃ line after, s :: rest = body ++ line :: after :=
      ⟨[], [], rfl, by rw [List.append_nil]; exact h, rfl, s, rest, rfl⟩
    unfold peekLoop
    split
    · exact hstop
    rename_i hmark
    split
    · exact hstop
    split
    · exact trivial
    have hlast' : rest.getLast? = some endPatch := by
      cases rest with
      | nil =>
        obtain rfl : s = endPatch := Option.some.inj hlast
        exact absurd (startsWithAny_endPatch (by decide)) hmark
      | cons t rest => exact hlast
    cases hread : readMode s with
    | none => exact trivial
    | some m =>
      refine (ih (h.take m.1 m.2) hlast').mono ?_
      rintro st' ⟨body, more, hbody, hst', hindex, line, after, hrest⟩
      refine ⟨s :: body, opOf m.1 m.2 :: more, ?_, ?_, ?_, line, after, by rw [hrest]; rfl⟩
      · rw [List.map_cons, List.map_cons, hbody, readOp, hread]
        rfl
      · rw [List.append_assoc] at hst'
        exact hst'
      · have hone : (st.take m.1 m.2).index = st.index + 1 := by
          unfold Peek.take
          cases m.1 <;> rfl
        rw [hindex, hone, List.length_cons]
        omega

theorem getLast?_drop (h : Standing lines i) : (lines.drop i).getLast? = some endPatch := by
  rw [List.getLast?_drop, if_neg (by have := h.lt; omega)]
  exact h.last

theorem peekNextSection_spec (h : Standing lines i) :
    Yields (peekNextSection lines i) Raised.IsDiff fun r => ∃ body ops, body.map readOp = ops.map some ∧
      r.1 = oldSide ops ∧ r.2.1 = (hunksAt 0 ops).map Chunk.ofHunk ∧ i < r.2.2.1 ∧ Standing lines r.2.2.1 ∧
      lines.drop i = (body ++ if r.2.2.2 then [endOfFile] else []) ++ lines.drop r.2.2.1 := by
  refine (peekLoop_spec (Peek.Holds.init i) (getLast?_drop h)).bind ?_
  rintro st ⟨body, ops, hbody, hst, hindex, line, after, hrest⟩
  have hold : st.flush.old = oldSide ops := hst.old
  have hflush : st.flush.chunks = (hunksAt 0 ops).map Chunk.ofHunk := hst.flush
  have hat : st.flush.index = i + body.length := hindex
  have hline : lines[st.flush.index]? = some line := by
    rw [hat, ← List.getElem?_drop, hrest, List.getElem?_append_right (Nat.le_refl _), Nat.sub_self]
    rfl
  have hdrop : lines.drop i = body ++ lines.drop st.flush.index := by
    rw [hat, ← List.drop_drop, hrest, List.drop_left]
  have hlt : st.flush.index < lines.length := (List.getElem?_eq_some_iff.1 hline).1
  dsimp only
  split
  · rename_i heof
    have hnext : Standing lines (st.flush.index + 1) := Standing.next ⟨h.last, hlt⟩ heof (by decide)
    refine ⟨body, ops, hbody, hold, hflush, ?_, hnext, ?_⟩
    · show i < st.flush.index + 1
      omega
    · rw [hdrop, drop_eq_cons heof]
      simp
  · split
    · rw [lineAt, hline]
      exact trivial
    · rename_i hne
      refine ⟨body, ops, hbody, hold, hflush, ?_, ⟨h.last, hlt⟩, by simpa using hdrop⟩
      show i < st.flush.index
      omega

end Sections

/-! ## The parts of the patch -/

section Parts

def FileSection.header (s : FileSection) : Text := s.type.mark ++ s.path.toList

theorem startsWithAny_iff {line : Text} {marks : List Text} :
    startsWithAny line marks = true ↔ ∃ m ∈ marks, m <+: line := by
  rw [startsWithAny, List.any_eq_true]
  exact exists_congr fun m => and_congr_right fun _ => List.isPrefixOf_iff_prefix

theorem header_append {type : ActionType} {path : Text} (h : path ≠ []) :
    header (type.mark ++ path) = some (type, String.ofList path) := by
  have hpre : type.mark.isPrefixOf (type.mark ++ path) = true := List.isPrefixOf_iff_prefix.2 (List.prefix_append _ _)
  have hne : (type.mark ++ path != type.mark) = true := by simpa using h
  have hself : (if type.mark.isPrefixOf (type.mark ++ path) && type.mark ++ path != type.mark then
      some (type, String.ofList ((type.mark ++ path).drop type.mark.length)) else none) = some (type, String.ofList path) := by
    rw [hpre, hne, List.drop_left]
    rfl
  unfold header
  cases type with
  | update => rw [List.findSome?_cons, hself]
  | delete => rw [List.findSome?_cons, List.findSome?_cons, hself]; rfl
  | add => rw [List.findSome?_cons, List.findSome?_cons, List.findSome?_cons, hself]; rfl

theorem mark_isMark (type : ActionType) (path : Text) : startsWithAny (type.mark ++ path) sectionMarks = true := by
  cases type <;> rfl

/-- A header is a mark. -/
theorem header_eq_none {line : Text} (h : startsWithAny line sectionMarks = false) : header line = none := by
  unfold header
  refine List.findSome?_eq_none_iff.2 fun type _ => if_neg fun hand => ?_
  rw [Bool.and_eq_true, List.isPrefixOf_iff_prefix] at hand
  obtain ⟨path, rfl⟩ := hand.1
  rw [mark_isMark] at h
  cases h

theorem not_endPatch {line : Text} (h : startsWithAny line sectionMarks = false) : endPatch.isPrefixOf line = false := by
  by_contra hpre
  rw [Bool.not_eq_false, List.isPrefixOf_iff_prefix] at hpre
  have hmark : startsWithAny line sectionMarks = true := startsWithAny_iff.2 ⟨endPatch, List.mem_cons_self, hpre⟩
  rw [h] at hmark
  cases hmark

theorem fileSectionsIn_end {line : Text} {rest : List Text} (h : endPatch.isPrefixOf line = true) :
    fileSectionsIn (line :: rest) = [] := by
  rw [fileSectionsIn, List.takeWhile_cons_of_neg (by simp [h])]
  rfl

/-- A file stands first, behind headers without a path. -/
theorem fileSectionsIn_cons {s : FileSection} {blank rest : List Text} (hpath : s.path.toList ≠ [])
    (hblank : ∀ line ∈ blank, ∃ type : ActionType, line = type.mark)
    (hbody : ∀ line ∈ s.body, startsWithAny line sectionMarks = false)
    (hrest : ∀ line ∈ rest.head?, startsWithAny line sectionMarks = true) :
    fileSectionsIn (blank ++ (s.header :: (s.body ++ rest))) = s :: fileSectionsIn rest := by
  have hend : (blank ++ (s.header :: (s.body ++ rest))).takeWhile (fun line => !endPatch.isPrefixOf line) =
      blank ++ (s.header :: (s.body ++ rest.takeWhile fun line => !endPatch.isPrefixOf line)) := by
    rw [List.takeWhile_append_of_pos, List.takeWhile_cons_of_pos, List.takeWhile_append_of_pos]
    · exact fun line hline => by rw [not_endPatch (hbody line hline)]; rfl
    · rw [FileSection.header]
      cases s.type <;> rfl
    · intro line hline
      obtain ⟨type, rfl⟩ := hblank line hline
      cases type <;> rfl
  have hmarked : ∀ line ∈ (rest.takeWhile fun line => !endPatch.isPrefixOf line).head?,
      startsWithAny line sectionMarks = true := by
    cases rest with
    | nil => exact nofun
    | cons a rest =>
      intro line hline
      rw [List.takeWhile_cons] at hline
      split at hline
      · exact hrest line hline
      · cases hline
  have hnone : ∀ line ∈ blank, ApplyPatch.header line = none := by
    intro line hline
    obtain ⟨type, rfl⟩ := hblank line hline
    cases type <;> rfl
  have hhead : ApplyPatch.header s.header = some (s.type, s.path) := by
    rw [FileSection.header, header_append hpath, String.ofList_toList]
  rw [fileSectionsIn, hend, sectionsOf_append_of_none hnone,
    sectionsOf_cons_append hhead (fun x hx => header_eq_none hx) hbody hmarked, fileSectionsIn]
  rfl

theorem notMark_cons {c : Char} (t : Text) (hc : c ≠ '*') : startsWithAny (c :: t) sectionMarks = false := by
  have hmark : ∀ m ∈ sectionMarks, ∃ t, m = '*' :: t := by
    intro m hm
    simp only [sectionMarks, List.mem_cons, List.not_mem_nil, or_false] at hm
    rcases hm with rfl | rfl | rfl | rfl <;> exact ⟨_, rfl⟩
  rw [Bool.eq_false_iff, ne_eq, startsWithAny_iff]
  rintro ⟨m, hm, hpre⟩
  obtain ⟨u, rfl⟩ := hmark m hm
  exact hc (List.cons_prefix_cons.1 hpre).1.symm

theorem Section.notMark (s : Section) {line : Text} (h : line ∈ s.lines) : startsWithAny line sectionMarks = false := by
  rcases List.mem_append.1 h with h | h
  · obtain ⟨t, rfl⟩ := s.anchored line h
    exact notMark_cons ('@' :: t) (by decide)
  · rcases List.mem_append.1 h with h | h
    · have hread : readOp line ≠ none := by
        have hmem := List.mem_map_of_mem (f := readOp) h
        rw [s.reads] at hmem
        obtain ⟨op, -, hop⟩ := List.mem_map.1 hmem
        rw [← hop]
        nofun
      match line with
      | [] => rfl
      | c :: t =>
        by_cases hc : c = '*'
        · subst hc
          exact absurd rfl hread
        · exact notMark_cons t hc
    · split at h
      · rw [List.mem_singleton.1 h]
        rfl
      · cases h

end Parts

/-! ## The parser -/

/-- The parser has read the lines. -/
structure Read (p p' : Parser) (ls : List Text) : Prop where
  lines : p'.lines = p.lines
  files : p'.currentFiles = p.currentFiles
  patch : p'.patch = p.patch
  rest : p.lines.drop p.index = ls ++ p.lines.drop p'.index
  standing : Standing p.lines p'.index

section Parsing
variable {p p' p'' : Parser} {ls ms : List Text}

theorem Read.trans (h : Read p p' ls) (h' : Read p' p'' ms) : Read p p'' (ls ++ ms) := by
  refine ⟨h'.lines.trans h.lines, h'.files.trans h.files, h'.patch.trans h.patch, ?_, h.lines ▸ h'.standing⟩
  have hrest := h'.rest
  rw [h.lines] at hrest
  rw [h.rest, hrest, List.append_assoc]

theorem Read.le (h : Read p p' ls) : p.index + ls.length = p'.index := by
  have hlen := congrArg List.length h.rest
  rw [List.length_append, List.length_drop, List.length_drop] at hlen
  have := h.standing.lt
  omega

/-- A mark that the end of the patch does not have. -/
theorem readStr_spec (h : Standing p.lines p.index) {mark : Text} (hmark : ¬ mark <+: endPatch) :
    Yields (p.readStr mark) Raised.IsDiff fun r =>
      (r = ([], p) ∧ ∀ line, p.lines[p.index]? = some line → ¬ mark <+: line) ∨
        (r.2 = { p with index := p.index + 1 } ∧ Read p r.2 [mark ++ r.1]) := by
  obtain ⟨line, hline⟩ := h.line
  unfold Parser.readStr
  rw [hline]
  dsimp only
  split
  · rename_i hpre
    rw [List.isPrefixOf_iff_prefix] at hpre
    obtain ⟨s, rfl⟩ := hpre
    refine .inr ⟨rfl, rfl, rfl, rfl, ?_, ?_⟩
    · rw [drop_eq_cons hline, List.drop_left]
      rfl
    · refine h.next hline ?_
      rintro heq
      exact hmark (heq ▸ List.prefix_append _ _)
  · rename_i hpre
    refine .inl ⟨rfl, fun l hl => ?_⟩
    obtain rfl := Option.some.inj hl
    exact fun hp => hpre (List.isPrefixOf_iff_prefix.2 hp)

/-- The anchor is at most two lines. -/
theorem readAnchor_spec (h : Standing p.lines p.index) (index : Int) :
    Yields (p.readAnchor index) Raised.IsDiff fun r => ∃ ls, Read p r.2 ls ∧ r.2.fuzz = p.fuzz ∧
      ∀ line ∈ ls, "@@".toList <+: line := by
  have hself : ∀ q : Parser, Standing q.lines q.index → Read q q [] := fun q hq => ⟨rfl, rfl, rfl, rfl, hq⟩
  refine (readStr_spec h (by decide)).bind ?_
  rintro ⟨defStr, q⟩ hq
  have hread : ∃ ls, Read p q ls ∧ q.fuzz = p.fuzz ∧ ∀ line ∈ ls, "@@".toList <+: line := by
    rcases hq with ⟨heq, -⟩ | ⟨hqe, hq⟩
    · obtain ⟨-, rfl⟩ := Prod.mk.inj heq
      exact ⟨[], hself _ h, rfl, fun l hl => absurd hl List.not_mem_nil⟩
    · dsimp only at hqe
      refine ⟨_, hq, by rw [hqe], fun l hl => ?_⟩
      rw [List.mem_singleton.1 hl]
      exact ⟨' ' :: defStr, rfl⟩
  obtain ⟨ls, hls, hfuzz, hanch⟩ := hread
  dsimp only
  split
  · have hst : Standing q.lines q.index := hls.lines ▸ hls.standing
    obtain ⟨line, hline⟩ := hst.line
    rw [lineAt, hline]
    show Yields (if line = "@@".toList then _ else _) _ _
    split
    · rename_i hat
      have hone : Read q { q with index := q.index + 1 } [line] :=
        ⟨rfl, rfl, rfl, drop_eq_cons hline, hst.next hline (by rw [hat]; decide)⟩
      refine ⟨ls ++ [line], hls.trans hone, hfuzz, fun l hl => ?_⟩
      rcases List.mem_append.1 hl with hl | hl
      · exact hanch l hl
      · rw [List.mem_singleton.1 hl, hat]
    · split
      · exact trivial
      · exact ⟨ls, hls, hfuzz, hanch⟩
  · exact ⟨ls, hls, hfuzz, hanch⟩

/-- An anchor is in the file. -/
theorem seekAnchor_bounds {lines : List Text} {index : Int} (hpos : 0 ≤ index) (hle : index ≤ lines.length)
    (anchor : Text) : 0 ≤ (Parser.seekAnchor lines index anchor).1 ∧ (Parser.seekAnchor lines index anchor).1 ≤ lines.length := by
  have hseek : ∀ (key : Text → Text) (i : Int), Parser.seekBy key lines index anchor = some i → 0 ≤ i ∧ i ≤ lines.length := by
    intro key i hi
    unfold Parser.seekBy at hi
    split at hi
    · cases hi
    · obtain ⟨n, hn, rfl⟩ := Option.map_eq_some_iff.1 hi
      obtain ⟨k, rfl⟩ := Int.eq_ofNat_of_zero_le hpos
      obtain ⟨hlt, -⟩ := List.findIdx?_eq_some_iff_getElem.1 hn
      rw [slice_from, List.length_drop] at hlt
      omega
  unfold Parser.seekAnchor
  split
  · exact ⟨hpos, hle⟩
  · split
    · exact hseek id _ ‹_›
    · split
      · exact hseek strip _ ‹_›
      · exact ⟨hpos, hle⟩

/-- One section: what it reads, where it stands in the file and what it changes. -/
theorem readSection_spec (h : Standing p.lines p.index) {lines : List Text} {index : Int} (hpos : 0 ≤ index)
    (hle : index ≤ lines.length) :
    Yields (p.readSection lines index) Raised.IsDiff fun r => ∃ (s : Section) (k : Nat),
      Read p r.1 s.lines ∧ p.index < r.1.index ∧ p.fuzz ≤ r.1.fuzz ∧ (0 ≤ r.2.1 ∧ r.2.1 ≤ lines.length) ∧
        r.2.2 = (hunksAt k s.ops).map Chunk.ofHunk ∧
        MatchesAt (SameLine (r.1.fuzz = p.fuzz)) lines k (oldSide s.ops) := by
  refine (readAnchor_spec h index).bind ?_
  rintro ⟨defStr, q⟩ ⟨anchor, hread, hfuzz, hanch⟩
  have hst : Standing q.lines q.index := hread.lines ▸ hread.standing
  obtain ⟨hpos', hle'⟩ := seekAnchor_bounds hpos hle defStr
  dsimp only at hread hfuzz ⊢
  refine (peekNextSection_spec hst).bind ?_
  rintro ⟨context, chunks, endIndex, eof⟩ ⟨body, ops, hbody, rfl, rfl, hlt, hend, hdrop⟩
  dsimp only at hlt hend hdrop ⊢
  split
  · exact trivial
  rename_i hfound
  obtain ⟨k, hk, hmatch⟩ := (@findContext_spec _ (oldSide ops) _ hpos' hle' eof).resolve_left hfound
  have hbound := hmatch.le
  refine ⟨⟨anchor, body, ops, eof, hbody, hanch⟩, k, ?_, ?_, ?_, ?_, ?_, ?_⟩
  · refine hread.trans ⟨rfl, rfl, rfl, hdrop, hend⟩
  · have := hread.le
    show p.index < endIndex
    omega
  · show p.fuzz ≤ q.fuzz + _ + _
    omega
  · show 0 ≤ (findContext lines (oldSide ops) _ eof).1 + ((oldSide ops).length : Int) ∧ _
    rw [hk]
    refine ⟨by omega, ?_⟩
    show (k : Int) + (oldSide ops).length ≤ lines.length
    omega
  · have hshift := hunksFrom_shift k ops 0 [] []
    rw [Nat.zero_add] at hshift
    dsimp only
    rw [hk, hunksAt, hunksAt, hshift, List.map_map, List.map_map]
    refine List.map_congr_left fun c _ => ?_
    simp [Chunk.ofHunk]
  · refine hmatch.mono fun a b hab => ⟨hab.1, fun hzero => hab.2 ?_⟩
    have hsum : q.fuzz + (Parser.seekAnchor lines index defStr).2 +
      (findContext lines (oldSide ops) (Parser.seekAnchor lines index defStr).1 eof).2 = p.fuzz := hzero
    omega

theorem updateLoop_spec {lines : List Text} {fuel : Nat} {index : Int} {chunks : List Chunk}
    (h : Standing p.lines p.index) (hfuel : p.lines.length < p.index + fuel) (hpos : 0 ≤ index) (hle : index ≤ lines.length) :
    Yields (Parser.updateLoop lines fuel p index chunks) Raised.IsDiff fun r => ∃ sections : List (Section × Nat),
      Read p r.2 (sections.flatMap fun s => s.1.lines) ∧ p.fuzz ≤ r.2.fuzz ∧
        r.1 = { type := .update,
                chunks := chunks ++ (sections.flatMap fun s => hunksAt s.2 s.1.ops).map Chunk.ofHunk } ∧
        ∀ s ∈ sections, MatchesAt (SameLine (r.2.fuzz = p.fuzz)) lines s.2 (oldSide s.1.ops) := by
  induction fuel generalizing p index chunks with
  | zero =>
    have := h.lt
    omega
  | succ fuel ih =>
    unfold Parser.updateLoop
    split
    · refine ⟨[], ⟨rfl, rfl, rfl, rfl, h⟩, Nat.le_refl _, ?_, fun s hs => absurd hs List.not_mem_nil⟩
      simp
    · refine (readSection_spec h hpos hle).bind ?_
      rintro ⟨q, index', more⟩ ⟨s, k, hread, hlt, hfuzz, ⟨hpos', hle'⟩, rfl, hmatch⟩
      dsimp only at hread hlt hfuzz hpos' hle' hmatch ⊢
      have hst : Standing q.lines q.index := hread.lines ▸ hread.standing
      refine (ih hst (by rw [hread.lines]; omega) hpos' hle').mono ?_
      rintro ⟨action, r⟩ ⟨sections, hrest, hfuzz', rfl, hmatches⟩
      dsimp only at hrest hfuzz' hmatches ⊢
      refine ⟨(s, k) :: sections, ?_, Nat.le_trans hfuzz hfuzz', ?_, fun e he => ?_⟩
      · rw [List.flatMap_cons]
        exact hread.trans hrest
      · rw [List.flatMap_cons, List.map_append, List.append_assoc]
      · rcases List.mem_cons.1 he with rfl | he
        · exact hmatch.mono fun a b hab => ⟨hab.1, fun heq => hab.2 (by omega)⟩
        · exact (hmatches e he).mono fun a b hab => ⟨hab.1, fun heq => hab.2 (by omega)⟩

theorem addLoop_spec {fuel : Nat} {added : List Text} (h : Standing p.lines p.index)
    (hfuel : p.lines.length < p.index + fuel) :
    Yields (Parser.addLoop fuel p added) Raised.IsDiff fun r => ∃ ls, Read p r.2 ls ∧ r.2.fuzz = p.fuzz ∧
      r.1 = { type := .add, newFile := some (joinLines (added ++ ls.map List.tail)) } ∧
      ∀ line ∈ ls, startsWithAny line sectionMarks = false := by
  induction fuel generalizing p added with
  | zero =>
    have := h.lt
    omega
  | succ fuel ih =>
    unfold Parser.addLoop
    split
    · exact ⟨[], ⟨rfl, rfl, rfl, rfl, h⟩, rfl, by rw [List.map_nil, List.append_nil], fun l hl => absurd hl List.not_mem_nil⟩
    · rename_i hdone
      obtain ⟨line, hline⟩ := h.line
      have hne : line ≠ endPatch := by
        rintro rfl
        refine hdone ?_
        unfold Parser.isDone
        rw [hline]
        exact startsWithAny_endPatch (by decide)
      have hone : Read p { p with index := p.index + 1 } [line] :=
        ⟨rfl, rfl, rfl, drop_eq_cons hline, h.next hline hne⟩
      have hstr : p.readStr [] = .ok (line, { p with index := p.index + 1 }) := by
        unfold Parser.readStr
        rw [hline]
        simp
      rw [hstr]
      dsimp only [bind, Except.bind]
      split
      · rename_i t
        have hfuel' : p.lines.length < p.index + 1 + fuel := by omega
        refine (@ih { p with index := p.index + 1 } _ hone.standing hfuel').mono ?_
        rintro r ⟨ls, hread, hfuzz, haction, hmarks⟩
        refine ⟨_, hone.trans hread, hfuzz, ?_, fun l hl => ?_⟩
        · rw [haction, List.append_assoc]
          rfl
        · rcases List.mem_cons.1 hl with rfl | hl
          · exact notMark_cons t (by decide)
          · exact hmarks l hl
      · exact trivial

/-- What the parser has for a file of the patch. -/
structure Planned (files : List (Path × Text)) (exact : Prop) (s : FileSection) (action : PatchAction) : Prop where
  type : action.type = s.type
  add : s.type = .add → action.newFile = some s.newFile
  delete : s.type = .delete → ∃ text, files.lookup s.path = some text
  update : s.type = .update → action.movePath = some (String.ofList (s.move.getD [])) ∧
    ∃ text, ∃ sections : List (Section × Nat), files.lookup s.path = some text ∧
      s.script = sections.flatMap (fun s => s.1.lines) ∧
      action.chunks = (sections.flatMap fun s => hunksAt s.2 s.1.ops).map Chunk.ofHunk ∧
      ∀ s ∈ sections, MatchesAt (SameLine exact) (text.splitOn '\n') s.2 (oldSide s.1.ops)

variable {files : List (Path × Text)} {s : FileSection}

theorem Planned.mono {exact exact' : Prop} {action : PatchAction} (h : Planned files exact s action)
    (himp : exact' → exact) : Planned files exact' s action := by
  refine ⟨h.type, h.add, h.delete, fun htype => ?_⟩
  obtain ⟨hmove, text, sections, htext, hscript, hchunks, hmatch⟩ := h.update htype
  exact ⟨hmove, text, sections, htext, hscript, hchunks, fun s hs =>
    (hmatch s hs).mono fun a b hab => ⟨hab.1, fun he => hab.2 (himp he)⟩⟩

/-- A round of the loop of `parse`, from the line of the header: the file is read
and has its action, as the last one. -/
structure Filed (p p' : Parser) (s : FileSection) : Prop where
  path : s.path.toList ≠ []
  fresh : s.path ∉ p.patch.actions.map Prod.fst
  body : ∀ line ∈ s.body, startsWithAny line sectionMarks = false
  planned : ∃ r action, Read p r (s.header :: s.body) ∧ p.fuzz ≤ r.fuzz ∧ p' = r.setAction s.path action ∧
    Planned p.currentFiles (r.fuzz = 0) s action

/-- The line of a move, if there is one; what follows it are the sections. -/
theorem readMove_spec (h : Standing p.lines p.index) (path : Path) :
    Yields (p.readStr moveTo) Raised.IsDiff fun r => ∃ moves, Read p r.2 moves ∧ r.2.fuzz = p.fuzz ∧
      (∀ line ∈ moves, startsWithAny line sectionMarks = false) ∧
      ∀ script rest, r.2.lines.drop r.2.index = script ++ rest →
        (FileSection.move ⟨.update, path, moves ++ script⟩).getD [] = r.1 ∧
          FileSection.script ⟨.update, path, moves ++ script⟩ = script := by
  refine (readStr_spec h (by decide)).mono ?_
  rintro ⟨move, r⟩ (⟨heq, hnot⟩ | ⟨heq, hread⟩)
  · obtain ⟨rfl, rfl⟩ := Prod.mk.inj heq
    refine ⟨[], ⟨rfl, rfl, rfl, rfl, h⟩, rfl, fun l hl => absurd hl List.not_mem_nil, fun script rest hnext => ?_⟩
    have hnone : FileSection.move ⟨.update, path, [] ++ script⟩ = none := by
      cases script with
      | nil => rfl
      | cons line script =>
        have hline : r.lines[r.index]? = some line := by
          rw [← Nat.add_zero r.index, ← List.getElem?_drop, hnext]
          rfl
        exact if_neg fun hpre => hnot line hline (List.isPrefixOf_iff_prefix.1 hpre)
    rw [FileSection.script, hnone]
    exact ⟨rfl, rfl⟩
  · dsimp only at heq hread
    have hmove : ∀ script, FileSection.move ⟨.update, path, [moveTo ++ move] ++ script⟩ = some move := by
      intro script
      show (if moveTo.isPrefixOf (moveTo ++ move) = true then some ((moveTo ++ move).drop moveTo.length) else none) = _
      rw [if_pos (List.isPrefixOf_iff_prefix.2 (List.prefix_append _ _)), List.drop_left]
    refine ⟨_, hread, by rw [heq], fun l hl => ?_, fun script rest _ => ?_⟩
    · rw [List.mem_singleton.1 hl]
      rfl
    · rw [FileSection.script, hmove script]
      exact ⟨rfl, rfl⟩

theorem parseUpdate_spec {path : Text} (hpath : path ≠ []) {fuel : Nat} {q : Parser} (hread : Read p q [updateFile ++ path])
    (hq : q.fuzz = p.fuzz) (hfuel : p.lines.length < q.index + fuel) :
    Yields (q.parseUpdate fuel (String.ofList path)) Raised.IsDiff fun p' => ∃ s, Filed p p' s := by
  have hqst : Standing q.lines q.index := hread.lines ▸ hread.standing
  unfold Parser.parseUpdate
  by_cases hdup : String.ofList path ∈ q.patch.actions.map Prod.fst
  · rw [if_pos hdup]
    exact trivial
  rw [if_neg hdup]
  refine (readMove_spec hqst (String.ofList path)).bind ?_
  rintro ⟨move, r⟩ ⟨moves, hmoves, hrf, hmarks, hbody⟩
  dsimp only at hmoves hrf hbody ⊢
  split
  · exact trivial
  cases htext : r.currentFiles.lookup (String.ofList path) with
  | none => exact trivial
  | some text =>
    have hrst : Standing r.lines r.index := hmoves.lines ▸ hmoves.standing
    have hrl : r.lines = p.lines := hmoves.lines.trans hread.lines
    have hle := hmoves.le
    have hloop := @updateLoop_spec r (text.splitOn '\n') fuel 0 [] hrst (by rw [hrl]; omega) (Int.le_refl _) (by omega)
    refine hloop.bind ?_
    rintro ⟨action, t⟩ ⟨sections, hsections, hsf, rfl, hmatch⟩
    dsimp only at hsections hsf hmatch ⊢
    obtain ⟨hmove, hscript⟩ := hbody _ _ hsections.rest
    refine ⟨⟨.update, String.ofList path, moves ++ sections.flatMap fun s => s.1.lines⟩, ?_, ?_, fun line hline => ?_, t, _,
      ?_, by omega, rfl, rfl, nofun, nofun, fun _ => ⟨by rw [hmove], text, sections, ?_, hscript, rfl, fun s hs => ?_⟩⟩
    · rwa [String.toList_ofList]
    · rwa [← hread.patch]
    · rcases List.mem_append.1 hline with hline | hline
      · exact hmarks line hline
      · obtain ⟨s, -, hs⟩ := List.mem_flatMap.1 hline
        exact s.1.notMark hs
    · have hall := hread.trans (hmoves.trans hsections)
      rwa [← String.toList_ofList (l := path)] at hall
    · rw [← htext, hmoves.files, hread.files]
    · exact (hmatch s hs).mono fun a b hab => ⟨hab.1, fun hzero => hab.2 (by omega)⟩

theorem parseDelete_spec {path : Text} (hpath : path ≠ []) {q : Parser} (hread : Read p q [deleteFile ++ path])
    (hq : q.fuzz = p.fuzz) : Yields (q.parseDelete (String.ofList path)) Raised.IsDiff fun p' => ∃ s, Filed p p' s := by
  unfold Parser.parseDelete
  split
  · exact trivial
  rename_i hdup
  split
  · exact trivial
  rename_i hfile
  rw [Option.isNone_iff_eq_none] at hfile
  obtain ⟨text, htext⟩ := Option.ne_none_iff_exists'.1 hfile
  refine ⟨⟨.delete, String.ofList path, []⟩, ?_, ?_, fun l hl => absurd hl List.not_mem_nil, q, _, ?_, Nat.le_of_eq hq.symm,
    rfl, rfl, nofun, fun _ => ⟨text, ?_⟩, nofun⟩
  · rwa [String.toList_ofList]
  · rwa [← hread.patch]
  · rwa [← String.toList_ofList (l := path)] at hread
  · rw [← htext, hread.files]

theorem parseAdd_spec {path : Text} (hpath : path ≠ []) {fuel : Nat} {q : Parser} (hread : Read p q [addFile ++ path])
    (hq : q.fuzz = p.fuzz) (hfuel : p.lines.length < q.index + fuel) :
    Yields (q.parseAdd fuel (String.ofList path)) Raised.IsDiff fun p' => ∃ s, Filed p p' s := by
  have hqst : Standing q.lines q.index := hread.lines ▸ hread.standing
  unfold Parser.parseAdd
  by_cases hdup : String.ofList path ∈ q.patch.actions.map Prod.fst
  · rw [if_pos hdup]
    exact trivial
  rw [if_neg hdup]
  refine (addLoop_spec hqst (by rw [hread.lines]; exact hfuel)).bind ?_
  rintro ⟨action, r⟩ ⟨ls, hls, hrf, rfl, hmarks⟩
  dsimp only at hls hrf ⊢
  refine ⟨⟨.add, String.ofList path, ls⟩, ?_, ?_, hmarks, r, _, ?_, by omega, rfl, rfl, fun _ => rfl, nofun, nofun⟩
  · rwa [String.toList_ofList]
  · rwa [← hread.patch]
  · have hall := hread.trans hls
    rwa [← String.toList_ofList (l := path)] at hall

/-- Headers without a path are passed over. -/
structure Passed (p q : Parser) (blank : List Text) : Prop where
  read : Read p q blank
  fuzz : q.fuzz = p.fuzz
  blank : ∀ line ∈ blank, ∃ type : ActionType, line = type.mark

theorem Passed.trans {q r : Parser} {blank more : List Text} (h : Passed p q blank) (h' : Passed q r more) :
    Passed p r (blank ++ more) :=
  ⟨h.read.trans h'.read, h'.fuzz.trans h.fuzz, fun line hline =>
    (List.mem_append.1 hline).elim (h.blank line) (h'.blank line)⟩

/-- A header with a path is read; one without is passed over, as is the place of
a line of another kind. -/
theorem readHeader_spec (hst : Standing p.lines p.index) (type : ActionType) :
    Yields (p.readStr type.mark) Raised.IsDiff fun r => (r.1 = [] → ∃ blank, Passed p r.2 blank) ∧
      (r.1 ≠ [] → Read p r.2 [type.mark ++ r.1] ∧ r.2.fuzz = p.fuzz) := by
  have hmark : ¬ type.mark <+: endPatch := by cases type <;> decide
  refine (readStr_spec hst hmark).mono ?_
  rintro ⟨path, q⟩ (⟨heq, -⟩ | ⟨heq, hread⟩)
  · obtain ⟨rfl, rfl⟩ := Prod.mk.inj heq
    exact ⟨fun _ => ⟨[], ⟨rfl, rfl, rfl, rfl, hst⟩, rfl, fun l hl => absurd hl List.not_mem_nil⟩, fun hne => absurd rfl hne⟩
  · dsimp only at heq hread ⊢
    have hfuzz : q.fuzz = p.fuzz := by rw [heq]
    refine ⟨?_, fun _ => ⟨hread, hfuzz⟩⟩
    rintro rfl
    exact ⟨_, hread, hfuzz, fun line hline => ⟨type, by rw [List.mem_singleton.1 hline, List.append_nil]⟩⟩

/-- A round of the loop of `parse`: the next file of the patch is read. -/
theorem parseFile_spec (hst : Standing p.lines p.index) {fuel : Nat} (hfuel : p.lines.length ≤ p.index + fuel) :
    Yields (p.parseFile fuel) Raised.IsDiff fun p' => ∃ s blank q, Passed p q blank ∧ Filed q p' s := by
  have hself : Passed p p [] := ⟨⟨rfl, rfl, rfl, rfl, hst⟩, rfl, fun l hl => absurd hl List.not_mem_nil⟩
  unfold Parser.parseFile
  refine (readHeader_spec hst .update).bind ?_
  rintro ⟨path, q⟩ ⟨hpass, hfound⟩
  dsimp only at hpass hfound ⊢
  split
  · rename_i hne
    have hpath : path ≠ [] := by simpa using hne
    obtain ⟨hread, hqf⟩ := hfound hpath
    have hlt : p.index + 1 = q.index := hread.le
    exact (parseUpdate_spec hpath hread hqf (by omega)).mono fun p' ⟨s, hs⟩ => ⟨s, [], p, hself, hs⟩
  rename_i hempty
  obtain ⟨blank, hpassed⟩ := hpass (by simpa using hempty)
  have hqst : Standing q.lines q.index := hpassed.read.lines ▸ hpassed.read.standing
  refine (readHeader_spec hqst .delete).bind ?_
  rintro ⟨path, r⟩ ⟨hpass, hfound⟩
  dsimp only at hpass hfound ⊢
  split
  · rename_i hne
    have hpath : path ≠ [] := by simpa using hne
    obtain ⟨hread, hrf⟩ := hfound hpath
    exact (parseDelete_spec hpath hread hrf).mono fun p' ⟨s, hs⟩ => ⟨s, blank, q, hpassed, hs⟩
  rename_i hempty
  obtain ⟨more, hmore⟩ := hpass (by simpa using hempty)
  have hrst : Standing r.lines r.index := hmore.read.lines ▸ hmore.read.standing
  refine (readHeader_spec hrst .add).bind ?_
  rintro ⟨path, t⟩ ⟨hpass, hfound⟩
  dsimp only at hpass hfound ⊢
  split
  · rename_i hne
    have hpath : path ≠ [] := by simpa using hne
    obtain ⟨hread, htf⟩ := hfound hpath
    have hlt : r.index + 1 = t.index := hread.le
    have hlines : r.lines = p.lines := hmore.read.lines.trans hpassed.read.lines
    have hle := (hpassed.trans hmore).read.le
    exact (parseAdd_spec hpath hread htf (by rw [hlines]; omega)).mono fun p' ⟨s, hs⟩ =>
      ⟨s, blank ++ more, r, hpassed.trans hmore, hs⟩
  rename_i hempty
  obtain ⟨last, hlast⟩ := hpass (by simpa using hempty)
  have htst : Standing t.lines t.index := hlast.read.lines ▸ hlast.read.standing
  obtain ⟨line, hline⟩ := htst.line
  rw [lineAt, hline]
  exact trivial

/-- The actions are, in order, those of the files of the patch. -/
def Plans (files : List (Path × Text)) (exact : Prop) : List FileSection → List (Path × PatchAction) → Prop :=
  List.Forall₂ fun s e => e.1 = s.path ∧ Planned files exact s e.2

/-- What a round leads to: the parser behind the file, with one action more. -/
structure Stepped (p p' : Parser) (s : FileSection) (action : PatchAction) : Prop where
  lines : p'.lines = p.lines
  files : p'.currentFiles = p.currentFiles
  standing : Standing p.lines p'.index
  lt : p.index < p'.index
  fuzz : p.fuzz ≤ p'.fuzz
  actions : p'.patch.actions = p.patch.actions ++ [(s.path, action)]
  fresh : s.path ∉ p.patch.actions.map Prod.fst
  planned : Planned p.currentFiles (p'.fuzz = 0) s action
  marked : ∀ line ∈ (p.lines.drop p.index).head?, startsWithAny line sectionMarks = true
  sections : (∀ line ∈ (p.lines.drop p'.index).head?, startsWithAny line sectionMarks = true) →
    fileSectionsIn (p.lines.drop p.index) = s :: fileSectionsIn (p.lines.drop p'.index)

theorem Filed.stepped {q : Parser} {blank : List Text} (hpassed : Passed p q blank) (h : Filed q p' s) :
    ∃ action, Stepped p p' s action := by
  obtain ⟨r, action, hread, hfuzz, rfl, hplanned⟩ := h.planned
  have hall := hpassed.read.trans hread
  have hlen := hall.le
  have hfresh := h.fresh
  rw [hpassed.read.patch] at hfresh
  have hqf := hpassed.fuzz
  refine ⟨action, hall.lines, hall.files, hall.standing, ?_, by show _ ≤ r.fuzz; omega, ?_, hfresh, ?_, ?_, fun hmarked => ?_⟩
  · rw [List.length_append, List.length_cons] at hlen
    show p.index < r.index
    omega
  · show dictSet r.patch.actions s.path action = _
    rw [hall.patch, dictSet_new action hfresh]
  · rw [← hpassed.read.files]
    exact hplanned
  · rw [hall.rest]
    intro line hline
    cases blank with
    | nil =>
      cases hline
      exact mark_isMark s.type s.path.toList
    | cons b blank =>
      cases hline
      obtain ⟨type, rfl⟩ := hpassed.blank line List.mem_cons_self
      rw [← List.append_nil type.mark]
      exact mark_isMark type []
  · rw [hall.rest, List.append_assoc]
    exact fileSectionsIn_cons h.path hpassed.blank h.body hmarked

/-- Every round reads on, so that the loop ends, and the actions are those of the
files that are left. -/
theorem parse_spec {fuel : Nat} (hst : Standing p.lines p.index) (hfuel : p.lines.length < p.index + fuel)
    (hkeys : (p.patch.actions.map Prod.fst).Nodup) :
    Yields (Parser.parse fuel p) Raised.IsDiff fun r =>
      (∀ line ∈ (p.lines.drop p.index).head?, startsWithAny line sectionMarks = true) ∧ p.fuzz ≤ r.fuzz ∧
        (r.patch.actions.map Prod.fst).Nodup ∧ ∃ more, r.patch.actions = p.patch.actions ++ more ∧
          Plans p.currentFiles (r.fuzz = 0) (fileSectionsIn (p.lines.drop p.index)) more := by
  induction fuel generalizing p with
  | zero =>
    have := hst.lt
    omega
  | succ fuel ih =>
    unfold Parser.parse
    split
    · obtain ⟨line, hline⟩ := hst.line
      have hstart : p.startsWith endPatch = .ok (endPatch.isPrefixOf line) := by
        unfold Parser.startsWith
        rw [hline]
      rw [hstart]
      show Yields (if (!endPatch.isPrefixOf line) = true then _ else _) _ _
      split
      · exact trivial
      · rename_i hpre
        have hpre : endPatch.isPrefixOf line = true := by simpa using hpre
        refine ⟨fun l hl => ?_, Nat.le_refl _, hkeys, [], (List.append_nil _).symm, ?_⟩
        · rw [drop_eq_cons hline] at hl
          cases hl
          exact startsWithAny_iff.2 ⟨endPatch, List.mem_cons_self, List.isPrefixOf_iff_prefix.1 hpre⟩
        · rw [drop_eq_cons hline, fileSectionsIn_end hpre]
          exact .nil
    · refine (parseFile_spec hst (by omega)).bind ?_
      rintro q ⟨s, blank, q', hpassed, hfiled⟩
      obtain ⟨action, h⟩ := hfiled.stepped hpassed
      have hqkeys : (q.patch.actions.map Prod.fst).Nodup := by
        rw [h.actions, List.map_append]
        exact hkeys.append (List.nodup_singleton _) (by simpa using h.fresh)
      have hqst : Standing q.lines q.index := h.lines.symm ▸ h.standing
      have hlt := h.lt
      refine (ih hqst (by rw [h.lines]; omega) hqkeys).mono ?_
      rintro r ⟨hmarked, hfuzz, hrkeys, more, hmore, hplans⟩
      rw [h.lines] at hmarked hplans
      refine ⟨h.marked, Nat.le_trans h.fuzz hfuzz, hrkeys, (s.path, action) :: more, ?_, ?_⟩
      · rw [hmore, h.actions, List.append_assoc]
        rfl
      · rw [h.sections hmarked]
        rw [h.files] at hplans
        exact .cons ⟨rfl, h.planned.mono fun hzero => by omega⟩ hplans

end Parsing

/-! ## Applying the chunks -/

section Applying
variable {R : Text → Text → Prop} {file : List Text} {path : Path}

/-- One chunk: what lies before it is kept, and its lines are replaced. -/
theorem apply_spec {d : Dest} {k : Nat} (hd : d.origIndex = k) {h : Hunk Text} (hmatch : MatchesAt R file h.pos h.del) :
    Yields (Dest.apply path file d (Chunk.ofHunk h)) Raised.IsDiff fun d' =>
      d'.origIndex = ((h.pos + h.del.length : Nat) : Int) ∧ ∃ kept gone, d'.lines = d.lines ++ kept ++ h.ins ∧
        k + kept.length = h.pos ∧ List.Forall₂ R gone h.del ∧
        file.drop k = kept ++ (gone ++ file.drop (h.pos + h.del.length)) := by
  unfold Dest.apply
  split
  · exact trivial
  split
  · exact trivial
  rename_i hle
  have hkp : k ≤ h.pos := by
    rw [hd] at hle
    have : ¬ (k : Int) > (h.pos : Int) := hle
    omega
  obtain ⟨before, found, after, hfile, hlen, hR⟩ := hmatch
  refine ⟨?_, slice file k h.pos, found, ?_, ?_, hR, ?_⟩
  · show ((h.pos : Int) + h.del.length) = _
    omega
  · rw [← hd]
    rfl
  · rw [slice_natCast, List.length_drop, List.length_take, hfile, List.length_append]
    omega
  · have hdrop : file.drop (h.pos + h.del.length) = after := by
      rw [hfile, ← hlen, ← hR.length_eq, ← List.length_append, ← List.append_assoc, List.drop_left]
    have htake : file.take h.pos = before := by
      rw [hfile, ← hlen, List.take_left]
    rw [hdrop, slice_natCast, htake, hfile, List.drop_append_of_le_length (by omega)]

/-- The loop over the chunks. -/
theorem foldlM_apply {hs : List (Hunk Text)} {d : Dest} {k : Nat} (hd : d.origIndex = k) (hk : k ≤ file.length)
    (hmatch : ∀ h ∈ hs, MatchesAt R file h.pos h.del) :
    Yields ((hs.map Chunk.ofHunk).foldlM (Dest.apply path file) d) Raised.IsDiff fun d' => ∃ k' : Nat,
      d'.origIndex = k' ∧ ∃ mid, d'.lines = d.lines ++ mid ∧ Patched R k hs (file.drop k) (mid ++ file.drop k') := by
  induction hs generalizing d k with
  | nil => exact ⟨k, hd, [], (List.append_nil _).symm, .done⟩
  | cons h hs ih =>
    rw [List.map_cons, List.foldlM_cons]
    have hhead := hmatch h List.mem_cons_self
    refine (apply_spec hd hhead).bind ?_
    rintro d' ⟨hd', kept, gone, hlines, hpos, hgone, hdrop⟩
    refine (ih hd' hhead.le fun c hc => hmatch c (List.mem_cons_of_mem _ hc)).mono ?_
    rintro d'' ⟨k', hk', mid, hmid, hpatched⟩
    refine ⟨k', hk', kept ++ (h.ins ++ mid), by rw [hmid, hlines]; simp, ?_⟩
    rw [hdrop, List.append_assoc, List.append_assoc]
    exact .hunk hpos hgone hpatched

theorem getUpdatedFile_spec {text : Text} {action : PatchAction} {hs : List (Hunk Text)}
    (hchunks : action.chunks = hs.map Chunk.ofHunk)
    (hmatch : ∀ h ∈ hs, MatchesAt R (text.splitOn '\n') h.pos h.del) :
    Yields (getUpdatedFile text action path) Raised.IsDiff fun newText => ∃ dest,
      Patched R 0 hs (text.splitOn '\n') dest ∧ newText = joinLines dest := by
  unfold getUpdatedFile
  split
  · exact trivial
  rw [hchunks]
  refine (@foldlM_apply R _ path hs {} 0 rfl (Nat.zero_le _) hmatch).bind ?_
  rintro d ⟨k', hk', mid, hmid, hpatched⟩
  dsimp only
  split
  · exact trivial
  split
  · exact trivial
  refine ⟨_, hpatched, ?_⟩
  rw [hk', slice_from, hmid]
  rfl

end Applying

/-! ## The commit -/

section Commits
variable {files : List (Path × Text)} {exact : Prop}

theorem original_spec {path : Path} {text : Text} (h : files.lookup path = some text) : original files path = .ok text := by
  rw [original, h]

theorem changeOf_spec {s : FileSection} {action : PatchAction} (h : Planned files exact s action) :
    Yields (changeOf files s.path action) Raised.IsDiff (FileChange.Follows files exact s) := by
  unfold changeOf
  cases htype : s.type with
  | add =>
    rw [h.type, htype]
    refine ⟨htype.symm, fun _ => h.add htype, fun hd => ?_, fun hu => ?_⟩
    · rw [htype] at hd
      cases hd
    · rw [htype] at hu
      cases hu
  | delete =>
    obtain ⟨text, htext⟩ := h.delete htype
    rw [h.type, htype, original_spec htext]
    refine ⟨htype.symm, fun ha => ?_, fun _ => ⟨text, htext, rfl⟩, fun hu => ?_⟩
    · rw [htype] at ha
      cases ha
    · rw [htype] at hu
      cases hu
  | update =>
    obtain ⟨hmove, text, sections, htext, hscript, hchunks, hmatch⟩ := h.update htype
    rw [h.type, htype, original_spec htext]
    have hhunks : ∀ k ∈ sections.flatMap fun s => hunksAt s.2 s.1.ops,
        MatchesAt (SameLine exact) (text.splitOn '\n') k.pos k.del := by
      intro k hk
      obtain ⟨s, hs, hk⟩ := List.mem_flatMap.1 hk
      exact matchesAt_of_mem_hunksAt (hmatch s hs) hk
    refine (getUpdatedFile_spec hchunks hhunks).bind ?_
    rintro newText ⟨dest, hpatched, rfl⟩
    refine ⟨htype.symm, fun ha => ?_, fun hd => ?_,
      fun _ => ⟨hmove, text, _, htext, rfl, rfl, sections, dest, hscript, hmatch, hpatched, rfl⟩⟩
    · rw [htype] at ha
      cases ha
    · rw [htype] at hd
      cases hd

theorem keys_eq_paths {γ : Type} {P : FileSection → γ → Prop} {sections : List FileSection} {es : List (Path × γ)}
    (h : List.Forall₂ (fun s e => e.1 = s.path ∧ P s e.2) sections es) : es.map Prod.fst = sections.map FileSection.path := by
  induction h with
  | nil => rfl
  | cons hhead _ ih => rw [List.map_cons, List.map_cons, ih, hhead.1]

/-- The commit has the files of the patch, in order, each with its change. -/
def Commits (files : List (Path × Text)) (exact : Prop) : List FileSection → List (Path × FileChange) → Prop :=
  List.Forall₂ fun s e => e.1 = s.path ∧ e.2.Follows files exact s

theorem foldlM_changes {sections : List FileSection} {actions : List (Path × PatchAction)} {commit : Commit}
    (hactions : Plans files exact sections actions)
    (hkeys : ((commit.changes.map Prod.fst) ++ actions.map Prod.fst).Nodup) :
    Yields (actions.foldlM (fun commit e => do
      let change ← changeOf files e.1 e.2
      return (⟨dictSet commit.changes e.1 change⟩ : Commit)) commit) Raised.IsDiff fun c =>
        ∃ more, c.changes = commit.changes ++ more ∧ Commits files exact sections more := by
  induction hactions generalizing commit with
  | nil => exact ⟨[], (List.append_nil _).symm, .nil⟩
  | @cons s a sections actions hhead _ ih =>
    obtain ⟨path, action⟩ := a
    obtain ⟨rfl, hplanned⟩ := hhead
    rw [List.foldlM_cons]
    have hfresh : s.path ∉ commit.changes.map Prod.fst := fun hmem =>
      (List.disjoint_of_nodup_append hkeys) hmem List.mem_cons_self
    have hone : Yields (do
        let change ← changeOf files s.path action
        return (⟨dictSet commit.changes s.path change⟩ : Commit)) Raised.IsDiff fun c =>
          ∃ change, c.changes = commit.changes ++ [(s.path, change)] ∧ change.Follows files exact s :=
      (changeOf_spec hplanned).bind fun change hchange => ⟨change, dictSet_new change hfresh, hchange⟩
    refine hone.bind fun c ⟨change, hc, hchange⟩ => ?_
    have hkeys' : ((c.changes.map Prod.fst) ++ actions.map Prod.fst).Nodup := by
      rw [hc, List.map_append, List.append_assoc]
      exact hkeys
    refine (ih hkeys').mono ?_
    rintro c' ⟨more, hmore, hcommits⟩
    refine ⟨(s.path, change) :: more, ?_, .cons ⟨rfl, hchange⟩ hcommits⟩
    rw [hmore, hc, List.append_assoc]
    rfl

theorem commitOf_spec (text : Text) (orig : List (Path × Text)) (fuel : Nat) (hfuel : (patchLines text).length ≤ fuel) :
    Yields (commitOf fuel text orig) Raised.IsDiff fun r =>
      (r.1.changes.map Prod.fst).Nodup ∧ Commits orig (r.2 = 0) (fileSections text) r.1.changes := by
  unfold commitOf textToPatch
  dsimp only
  split
  · exact trivial
  rename_i hvalid
  simp only [Bool.or_eq_true, decide_eq_true_eq, not_or, Nat.not_lt, ne_eq, Decidable.not_not] at hvalid
  obtain ⟨⟨hlen, -⟩, hlast⟩ := hvalid
  have hparse := @parse_spec { currentFiles := orig, lines := patchLines text, index := 1 } fuel ⟨hlast, hlen⟩
    (show (patchLines text).length < 1 + fuel by omega) .nil
  have hpatch : Yields (do
      let p ← Parser.parse fuel { currentFiles := orig, lines := patchLines text, index := 1 }
      return (p.patch, p.fuzz)) Raised.IsDiff fun r =>
        (r.1.actions.map Prod.fst).Nodup ∧ Plans orig (r.2 = 0) (fileSections text) r.1.actions := by
    refine hparse.bind ?_
    rintro p ⟨-, -, hkeys, more, hmore, hplans⟩
    rw [List.drop_one] at hplans
    exact ⟨hkeys, by rw [hmore]; exact hplans⟩
  refine hpatch.bind ?_
  rintro ⟨patch, fuzz⟩ ⟨hkeys, hplanned⟩
  refine (@foldlM_changes orig (fuzz = 0) _ _ {} hplanned hkeys).bind ?_
  rintro commit ⟨more, hmore, hcommits⟩
  obtain rfl : commit.changes = more := hmore
  refine ⟨?_, hcommits⟩
  show (commit.changes.map Prod.fst).Nodup
  rw [keys_eq_paths hcommits, ← keys_eq_paths hplanned]
  exact hkeys

end Commits

end AgentSdk.ApplyPatch
