import AgentSdk.Lib.CQuote
import AgentSdk.Lib.Result
/-!
# The list of changes

The changes of a repository are read from what two git commands print: a line for
each changed path with tabs between its fields, and a line for each untracked file.
The reader cuts at white space instead of tabs and takes no quotes off, so it finds
the paths that have no white space and that git prints as they are.
-/

namespace AgentSdk.GitChanges
open Lib

/-! ## The reader -/

/-- `GitChangeStatus`. -/
inductive GitChangeStatus where
  | moved | added | deleted | updated
deriving DecidableEq, Repr

/-- `GitChange`, as the API lists it. -/
structure GitChange where
  status : GitChangeStatus
  path : Text
deriving DecidableEq, Repr

/-- `GitCommandError` with what its text is made of. -/
structure GitCommandError where
  message : Text
  command : List Text
  exitCode : Int
  stderr : Text
deriving DecidableEq, Repr

/-- The command that the errors name; the options are not given there. -/
def nameStatusCommand : List Text := ["git".toList, "diff".toList, "--name-status".toList]

/-- A line that does not have the fields of a change. -/
def unexpectedFormat (line : Text) : GitCommandError :=
  { message := "Unexpected git diff output format: ".toList ++ line
    command := nameStatusCommand
    exitCode := 0
    stderr := "Invalid output format".toList }

/-- A valid code without a status. -/
def unknownStatus (status : Text) : GitCommandError :=
  { message := "Unknown git status: ".toList ++ status
    command := nameStatusCommand
    exitCode := 0
    stderr := "Unknown status code: ".toList ++ status }

/-- A code that is not one of the valid ones. -/
def unexpectedStatus (status : Text) : GitCommandError :=
  { message := "Unexpected git status: ".toList ++ status
    command := nameStatusCommand
    exitCode := 0
    stderr := "Unexpected status code: ".toList ++ status }

/-- `_map_git_status_to_enum`. -/
def mapGitStatusToEnum (status : Text) : Option GitChangeStatus :=
  if status = ['M'] then some .updated
  else if status = ['A'] then some .added
  else if status = ['D'] then some .deleted
  else if status = ['U'] then some .updated
  else none

/-- A change under one of the valid codes. -/
def regularChange (status path : Text) : Except GitCommandError (List GitChange) :=
  if status ∈ [['M'], ['A'], ['D'], ['U']] then
    match mapGitStatusToEnum status with
    | some found => .ok [⟨found, path⟩]
    | none => .error (unknownStatus status)
  else .error (unexpectedStatus status)

/-- A line of two fields. -/
def parseRegular (status path : Text) : Except GitCommandError (List GitChange) :=
  regularChange (if status = ['?', '?'] then ['A'] else if status = ['*'] then ['M'] else status) path

/-- The fields of a line that is not blank. -/
def parseParts (line : Text) : List Text → Except GitCommandError (List GitChange)
  | [status, path] => parseRegular (strip status) (strip path)
  | [status, first, second] =>
    if (strip status).head? = some 'R' then .ok [⟨.deleted, strip first⟩, ⟨.added, strip second⟩]
    else if (strip status).head? = some 'C' then .ok [⟨.added, strip second⟩]
    else .error (unexpectedFormat line)
  | _ => .error (unexpectedFormat line)

/-- `_parse_name_status`; the first line that is not understood ends it. -/
def parseNameStatus : List Text → Except GitCommandError (List GitChange)
  | [] => .ok []
  | line :: lines =>
    if strip line = [] then parseNameStatus lines
    else do
      let found ← parseParts line (words line)
      let changes ← parseNameStatus lines
      return found ++ changes

/-- Untracked files are listed as added. -/
def untrackedChanges (untrackedFiles : List Text) : List GitChange :=
  (untrackedFiles.filter fun path => strip path ≠ []).map fun path => ⟨.added, strip path⟩

/-- What git prints for a directory of a repository. -/
structure Repository where
  validRef : Option Text
  diffNameStatus : Text → Except GitCommandError Text
  othersExcludeStandard : Except GitCommandError Text

/-- The output of a command, read as text and stripped. -/
def runGitCommand (output : Except GitCommandError Text) : Except GitCommandError Text := do
  let stdout ← output
  return strip (newlines stdout)

/-- No output has no lines. -/
def outputLines (output : Text) : List Text := if output = [] then [] else splitLines output

/-- `get_changes_in_repo`; without a valid ref there is nothing to compare with. -/
def getChangesInRepo (r : Repository) : Except GitCommandError (List GitChange) :=
  match r.validRef with
  | none => .ok []
  | some ref => do
    let changedFilesOutput ← runGitCommand (r.diffNameStatus ref)
    let changes ← parseNameStatus (outputLines changedFilesOutput)
    let untrackedFiles :=
      match runGitCommand r.othersExcludeStandard with
      | .ok untrackedOutput => outputLines untrackedOutput
      | .error _ => []
    return changes ++ untrackedChanges untrackedFiles

/-! ## What git prints -/

theorem tab_control : '\t'.toNat < 32 := by decide

theorem newline_control : '\n'.toNat < 32 := by decide

/-- A path, or what git prints for one. -/
structure PathName where
  text : Text
  ne_nil : text ≠ [] := by decide
  no_tab : '\t' ∉ text := by decide
  no_newline : '\n' ∉ text := by decide

/-- A status without a score. -/
inductive PlainStatus where
  | modified | added | deleted | typeChanged | unmerged
deriving DecidableEq, Repr

/-- What git prints for a path. -/
def PathName.printed (quotePath : Bool) (p : PathName) : PathName where
  text := cQuote quotePath p.text
  ne_nil := cQuote_ne_nil quotePath p.ne_nil
  no_tab := not_mem_cQuote quotePath p.text tab_control
  no_newline := not_mem_cQuote quotePath p.text newline_control

/-- A change as git sees it; the score says how alike the files are. -/
inductive Change where
  | plain (status : PlainStatus) (path : PathName)
  | renamed (score : Nat) (old new : PathName)
  | copied (score : Nat) (old new : PathName)

/-- The letter of `--name-status`. -/
def PlainStatus.letter : PlainStatus → Char
  | modified => 'M'
  | added => 'A'
  | deleted => 'D'
  | typeChanged => 'T'
  | unmerged => 'U'

/-- A score is printed with three digits. -/
def scoreText (score : Nat) : Text :=
  let digits := Nat.toDigits 10 score
  List.replicate (3 - digits.length) '0' ++ digits

/-- The first field of a line. -/
def Change.status : Change → Text
  | plain status _ => [status.letter]
  | renamed score _ _ => 'R' :: scoreText score
  | copied score _ _ => 'C' :: scoreText score

/-- A change under the names that git prints. -/
def Change.printed (quotePath : Bool) : Change → Change
  | plain status path => .plain status (path.printed quotePath)
  | renamed score old new => .renamed score (old.printed quotePath) (new.printed quotePath)
  | copied score old new => .copied score (old.printed quotePath) (new.printed quotePath)

/-- The names of a line, with a tab between two of them. -/
def Change.fields : Change → Text
  | plain _ path => path.text
  | renamed _ old new => old.text ++ '\t' :: new.text
  | copied _ old new => old.text ++ '\t' :: new.text

/-- A line of `git diff --name-status`. -/
def Change.line (c : Change) : Text := c.status ++ '\t' :: c.fields

/-- The output of `git diff --name-status`. -/
def nameStatus (changes : List Change) : Text := changes.flatMap fun c => c.line ++ ['\n']

/-- The output of `git ls-files`. -/
def lsFiles (untracked : List PathName) : Text := untracked.flatMap fun p => p.text ++ ['\n']

/-- A repository for which git prints these lines. -/
def printing (ref : Text) (changes : List Change) (untracked : List PathName) : Repository :=
  { validRef := some ref
    diffNameStatus := fun _ => .ok (nameStatus changes)
    othersExcludeStandard := .ok (lsFiles untracked) }

/-- A repository with these changes, under a setting of `core.quotePath`. -/
def repository (quotePath : Bool) (ref : Text) (changes : List Change) (untracked : List PathName) : Repository :=
  printing ref (changes.map (Change.printed quotePath)) (untracked.map (PathName.printed quotePath))

/-- What a list of changes should say about a change. -/
def PlainStatus.listed : PlainStatus → GitChangeStatus
  | modified => .updated
  | added => .added
  | deleted => .deleted
  | typeChanged => .updated
  | unmerged => .updated

/-- What should be listed of a change. -/
def Change.entries : Change → List GitChange
  | plain status path => [⟨status.listed, path.text⟩]
  | renamed _ old new => [⟨.deleted, old.text⟩, ⟨.added, new.text⟩]
  | copied _ _ new => [⟨.added, new.text⟩]

/-- What should be listed of an untracked file. -/
def PathName.entry (p : PathName) : GitChange := ⟨.added, p.text⟩

/-- What should be listed altogether. -/
def entries (changes : List Change) (untracked : List PathName) : List GitChange :=
  changes.flatMap Change.entries ++ untracked.map PathName.entry

/-- Every path is listed once and unaltered. -/
def Faithful (quotePath : Bool) (ref : Text) (changes : List Change) (untracked : List PathName) : Prop :=
  ∃ listed, getChangesInRepo (repository quotePath ref changes untracked) = .ok listed ∧
    listed.Perm (entries changes untracked)

/-- The reader takes the fields of the change for what they are. -/
def Change.Readable : Change → Prop
  | plain status path => status ≠ .typeChanged ∧ Solid path.text
  | renamed _ old new => Solid old.text ∧ Solid new.text
  | copied _ old new =>
    (words old.text).length = 1 ∧ (∀ c ∈ old.text, isLineEnd c = false) ∧ Solid new.text

/-- The name of an untracked file is read to the end of its line. -/
def PathName.Readable (p : PathName) : Prop :=
  strip p.text = p.text ∧ ∀ c ∈ p.text, isLineEnd c = false

/-! ## What the reader makes of a row -/

/-- What is listed for the fields of a line, if the reader knows them. -/
def entriesOf (parts : List Text) : Option (List GitChange) := (parseParts [] parts).toOption

theorem entriesOf_eq_some {line : Text} {parts : List Text} {found : List GitChange} :
    parseParts line parts = .ok found ↔ entriesOf parts = some found := by
  unfold entriesOf
  fun_cases parseParts line parts with
  | case1 status path =>
    show parseRegular _ _ = _ ↔ (parseRegular _ _).toOption = _
    cases parseRegular (strip status) (strip path) <;> simp [Except.toOption]
  | case2 status first second hR => simp [parseParts, hR, Except.toOption]
  | case3 status first second hR hC => simp [parseParts, hC, Except.toOption]
  | case4 status first second hR hC => simp [parseParts, hR, hC, Except.toOption]
  | case5 parts h₁ h₂ =>
    rw [parseParts.eq_3 [] parts h₁ h₂]
    simp [Except.toOption]

/-- What is listed for the lines that are not blank. -/
def readRows : List (List Text) → Option (List GitChange)
  | [] => some []
  | row :: later =>
    match entriesOf row, readRows later with
    | some found, some changes => some (found ++ changes)
    | _, _ => none

theorem readRows_cons {row : List Text} {later : List (List Text)} {listed : List GitChange} :
    readRows (row :: later) = some listed ↔
      ∃ found changes, entriesOf row = some found ∧ readRows later = some changes ∧ listed = found ++ changes := by
  cases hrow : entriesOf row with
  | none => simp [readRows, hrow]
  | some found =>
    cases hlater : readRows later with
    | none => simp [readRows, hrow, hlater]
    | some changes => simp [readRows, hrow, hlater, eq_comm]

theorem readRows_append {front back : List (List Text)} {listed : List GitChange} :
    readRows (front ++ back) = some listed ↔
      ∃ found changes, readRows front = some found ∧ readRows back = some changes ∧ listed = found ++ changes := by
  induction front generalizing listed with
  | nil => simp [readRows]
  | cons row front ih =>
    rw [List.cons_append, readRows_cons]
    constructor
    · rintro ⟨found, changes, hrow, hrest, rfl⟩
      obtain ⟨later, changes, hfront, hback, rfl⟩ := ih.1 hrest
      exact ⟨found ++ later, changes, readRows_cons.2 ⟨found, later, hrow, hfront, rfl⟩, hback,
        (List.append_assoc ..).symm⟩
    · rintro ⟨found, changes, hfound, hback, rfl⟩
      obtain ⟨first, later, hrow, hfront, rfl⟩ := readRows_cons.1 hfound
      exact ⟨first, later ++ changes, hrow, ih.2 ⟨later, changes, hfront, hback, rfl⟩, List.append_assoc ..⟩

theorem parseNameStatus_eq_ok {lines : List Text} {listed : List GitChange} :
    parseNameStatus lines = .ok listed ↔ readRows ((lines.map words).filter (!·.isEmpty)) = some listed := by
  induction lines generalizing listed with
  | nil => simp [parseNameStatus, readRows]
  | cons line lines ih =>
    rw [parseNameStatus, List.map_cons]
    by_cases hblank : strip line = []
    · rw [if_pos hblank, words_eq_nil.2 hblank]
      exact ih
    have hwords : (!(words line).isEmpty) = true := by simpa using fun h => hblank (words_eq_nil.1 h)
    rw [if_neg hblank, List.filter_cons, if_pos hwords, readRows_cons]
    constructor
    · intro h
      obtain ⟨found, hline, h⟩ := bind_ok h
      obtain ⟨changes, hlines, h⟩ := bind_ok h
      cases h
      exact ⟨found, changes, entriesOf_eq_some.1 hline, ih.1 hlines, rfl⟩
    · rintro ⟨found, changes, hrow, hlater, rfl⟩
      rw [entriesOf_eq_some.2 hrow, ih.2 hlater]
      rfl

/-- The rows of a list of changes are those of its lines, whatever the reader strips off. -/
theorem rows_nameStatus (changes : List Change) :
    rows words (nameStatus changes) = changes.flatMap fun c => rows words c.line := by
  induction changes with
  | nil => rfl
  | cons c changes ih =>
    rw [nameStatus, List.flatMap_cons, List.flatMap_cons, List.append_assoc, List.singleton_append,
      words_ignoresMargins.rows_cut _ _ (by decide), ← ih, nameStatus]

theorem rows_lsFiles (untracked : List PathName) :
    rows strip (lsFiles untracked) = untracked.flatMap fun p => rows strip p.text := by
  induction untracked with
  | nil => rfl
  | cons p untracked ih =>
    rw [lsFiles, List.flatMap_cons, List.flatMap_cons, List.append_assoc, List.singleton_append,
      strip_ignoresMargins.rows_cut _ _ (by decide), ← ih, lsFiles]

theorem splitLines_outputLines (t : Text) : outputLines t = splitLines t := by
  unfold outputLines
  split
  · rename_i h
    rw [h]
    rfl
  · rfl

theorem untrackedChanges_eq (lines : List Text) :
    untrackedChanges lines = ((lines.map strip).filter (!·.isEmpty)).map fun path => ⟨.added, path⟩ := by
  rw [List.filter_map, List.map_map, untrackedChanges]
  congr 1
  refine List.filter_congr fun path _ => ?_
  rw [Function.comp_apply, decide_not]
  cases strip path <;> rfl

/-! ## The entries of a row -/

/-- The statuses that a line of two fields may have. -/
def regularStatuses : List Text := [['M'], ['A'], ['D'], ['U'], ['?', '?'], ['*']]

theorem regularChange_ok {status path : Text} {found : List GitChange} (h : regularChange status path = .ok found) :
    status ∈ [['M'], ['A'], ['D'], ['U']] ∧ ∃ st, found = [⟨st, path⟩] := by
  unfold regularChange at h
  split at h
  · rename_i hmem
    split at h
    · exact ⟨hmem, _, (Except.ok.inj h).symm⟩
    · cases h
  · cases h

theorem parseRegular_ok {status path : Text} {found : List GitChange} (h : parseRegular status path = .ok found) :
    status ∈ regularStatuses ∧ ∃ st, found = [⟨st, path⟩] := by
  obtain ⟨hmem, hfound⟩ := regularChange_ok h
  refine ⟨?_, hfound⟩
  split at hmem
  · rename_i hq
    rw [hq]
    decide
  split at hmem
  · rename_i hstar
    rw [hstar]
    decide
  · have hcodes : [['M'], ['A'], ['D'], ['U']] ⊆ regularStatuses := by decide
    exact hcodes hmem

/-- A row that is listed has the fields of one change. -/
theorem entriesOf_cases {parts : List Text} {found : List GitChange} (h : entriesOf parts = some found) :
    (∃ status path st, parts = [status, path] ∧ strip status ∈ regularStatuses ∧ found = [⟨st, strip path⟩]) ∨
    (∃ status old new, parts = [status, old, new] ∧ (strip status).head? = some 'R' ∧
      found = [⟨.deleted, strip old⟩, ⟨.added, strip new⟩]) ∨
    ∃ status old new, parts = [status, old, new] ∧ (strip status).head? = some 'C' ∧ found = [⟨.added, strip new⟩] := by
  have hparts : parseParts [] parts = .ok found := entriesOf_eq_some.2 h
  fun_cases parseParts [] parts with
  | case1 status path =>
    obtain ⟨hmem, st, hfound⟩ := parseRegular_ok hparts
    exact .inl ⟨status, path, st, rfl, hmem, hfound⟩
  | case2 status first second hR =>
    rw [parseParts, if_pos hR] at hparts
    exact .inr (.inl ⟨status, first, second, rfl, hR, (Except.ok.inj hparts).symm⟩)
  | case3 status first second hR hC =>
    rw [parseParts, if_neg hR, if_pos hC] at hparts
    exact .inr (.inr ⟨status, first, second, rfl, hC, (Except.ok.inj hparts).symm⟩)
  | case4 status first second hR hC =>
    rw [parseParts, if_neg hR, if_neg hC] at hparts
    cases hparts
  | case5 parts h₁ h₂ =>
    rw [parseParts.eq_3 [] parts h₁ h₂] at hparts
    cases hparts

theorem entriesOf_path {parts : List Text} {found : List GitChange} (h : entriesOf parts = some found)
    {g : GitChange} (hg : g ∈ found) : ∃ w ∈ parts, g.path = strip w := by
  rcases entriesOf_cases h with ⟨status, path, st, rfl, -, rfl⟩ | ⟨status, old, new, rfl, -, rfl⟩ |
    ⟨status, old, new, rfl, -, rfl⟩
  · rw [List.mem_singleton] at hg
    exact ⟨path, by simp, congrArg GitChange.path hg⟩
  · rw [List.mem_pair] at hg
    rcases hg with rfl | rfl
    · exact ⟨old, by simp, rfl⟩
    · exact ⟨new, by simp, rfl⟩
  · rw [List.mem_singleton] at hg
    exact ⟨new, by simp, congrArg GitChange.path hg⟩

theorem entriesOf_length {parts : List Text} {found : List GitChange} (h : entriesOf parts = some found) :
    1 ≤ found.length := by
  rcases entriesOf_cases h with ⟨_, _, _, -, -, rfl⟩ | ⟨_, _, _, -, -, rfl⟩ | ⟨_, _, _, -, -, rfl⟩ <;> simp

theorem readRows_path {t : Text} {found : List GitChange} (h : readRows (rows words t) = some found) :
    ∀ g ∈ found, Solid g.path := by
  have hwords : ∀ row ∈ rows words t, ∀ w ∈ row, Solid w := by
    intro row hrow w hw
    obtain ⟨-, line, rfl, -⟩ := words_ignoresMargins.mem_rows hrow
    exact solid_of_mem_words hw
  generalize rows words t = rs at h hwords
  induction rs generalizing found with
  | nil =>
    cases h
    simp
  | cons row later ih =>
    obtain ⟨first, changes, hrow, hlater, rfl⟩ := readRows_cons.1 h
    intro g hg
    rcases List.mem_append.1 hg with hg | hg
    · obtain ⟨w, hw, hpath⟩ := entriesOf_path hrow hg
      have hsolid := hwords row List.mem_cons_self w hw
      rw [hpath, strip_of_no_space hsolid]
      exact hsolid
    · exact ih hlater (fun row hrow => hwords row (List.mem_cons_of_mem _ hrow)) g hg

theorem readRows_length {rs : List (List Text)} {found : List GitChange} (h : readRows rs = some found) :
    rs.length ≤ found.length := by
  induction rs generalizing found with
  | nil => exact Nat.zero_le _
  | cons row later ih =>
    obtain ⟨first, changes, hrow, hlater, rfl⟩ := readRows_cons.1 h
    have h₁ := entriesOf_length hrow
    have h₂ := ih hlater
    rw [List.length_cons, List.length_append]
    omega

/-! ## The rows of a change -/

theorem scoreText_solid (score : Nat) : Solid (scoreText score) := by
  refine Solid.append ?_ ?_
  · intro c hc
    rw [List.eq_of_mem_replicate hc]
    decide
  · exact fun c hc => isSpace_of_isDigit (Nat.isDigit_of_mem_toDigits (by decide) (by decide) hc)

theorem Change.status_solid (c : Change) : Solid c.status := by
  cases c with
  | plain status path => exact List.forall_mem_singleton.2 (by cases status <;> decide)
  | renamed score old new => exact List.forall_mem_cons.2 ⟨by decide, scoreText_solid score⟩
  | copied score old new => exact List.forall_mem_cons.2 ⟨by decide, scoreText_solid score⟩

theorem Change.status_ne_nil (c : Change) : c.status ≠ [] := by
  cases c <;> exact List.cons_ne_nil _ _

/-- A line has one row, with the status in front, where its fields have no line end. -/
theorem Change.rows_line (c : Change) (h : ∀ d ∈ c.fields, isLineEnd d = false) :
    rows words c.line = [c.status :: words c.fields] := by
  have hfree : ∀ d ∈ c.line, isLineEnd d = false := by
    refine List.forall_mem_append.2 ⟨not_lineEnd_of_solid c.status_solid, List.forall_mem_cons.2 ⟨by decide, h⟩⟩
  rw [words_ignoresMargins.rows_line hfree, Change.line, words_cut _ _ (by decide),
    words_solid c.status_solid c.status_ne_nil]
  rfl

/-- A line end in the fields cuts the line in two. -/
theorem Change.rows_line_cut (c : Change) {front back : Text} {e : Char} (he : isLineEnd e = true)
    (hfree : ∀ d ∈ front, isLineEnd d = false) (h : c.fields = front ++ e :: back) :
    rows words c.line = (c.status :: words front) :: rows words back := by
  have hfirst : ∀ d ∈ c.status ++ '\t' :: front, isLineEnd d = false :=
    List.forall_mem_append.2 ⟨not_lineEnd_of_solid c.status_solid, List.forall_mem_cons.2 ⟨by decide, hfree⟩⟩
  rw [Change.line, h, ← List.cons_append, ← List.append_assoc, words_ignoresMargins.rows_cut _ _ he,
    words_ignoresMargins.rows_line hfirst, words_cut _ _ (by decide), words_solid c.status_solid c.status_ne_nil]
  rfl

/-- The first row of a line has the status in front. -/
theorem Change.exists_rows (c : Change) : ∃ parts later, rows words c.line = (c.status :: parts) :: later := by
  rcases exists_first_line c.fields with hfree | ⟨front, e, back, h, he, hfree⟩
  · exact ⟨_, _, c.rows_line hfree⟩
  · exact ⟨_, _, c.rows_line_cut he hfree h⟩

/-- What the first row of a line has to be for it to be listed at all. -/
theorem Change.first_row {c : Change} {parts : List Text} {found : List GitChange}
    (h : entriesOf (c.status :: parts) = some found) :
    match c with
    | plain status _ => status ≠ .typeChanged ∧ found.length = 1
    | renamed _ _ _ => found.length = 2
    | copied _ _ _ => parts.length = 2 ∧ found.length = 1 := by
  have hstatus : strip c.status = c.status := strip_of_no_space c.status_solid
  rcases entriesOf_cases h with ⟨status, path, st, hparts, hmem, rfl⟩ | ⟨status, old, new, hparts, hhead, rfl⟩ |
    ⟨status, old, new, hparts, hhead, rfl⟩
  · cases hparts
    rw [hstatus] at hmem
    cases c with
    | plain status path => exact ⟨fun ht => by rw [Change.status, ht] at hmem; revert hmem; decide, rfl⟩
    | renamed score old new => simp [regularStatuses, Change.status] at hmem
    | copied score old new => simp [regularStatuses, Change.status] at hmem
  · cases hparts
    rw [hstatus] at hhead
    cases c with
    | plain status path => cases status <;> simp [Change.status, PlainStatus.letter] at hhead
    | renamed score old new => rfl
    | copied score old new => simp [Change.status] at hhead
  · cases hparts
    rw [hstatus] at hhead
    cases c with
    | plain status path => cases status <;> simp [Change.status, PlainStatus.letter] at hhead
    | renamed score old new => simp [Change.status] at hhead
    | copied score old new => exact ⟨rfl, rfl⟩

/-- As many entries are read as the change should have, or more. -/
theorem Change.entries_le {c : Change} {found : List GitChange} (h : readRows (rows words c.line) = some found) :
    c.entries.length ≤ found.length := by
  obtain ⟨parts, later, hrows⟩ := c.exists_rows
  rw [hrows] at h
  obtain ⟨first, changes, hfirst, -, rfl⟩ := readRows_cons.1 h
  have hlen : c.entries.length ≤ first.length := by
    cases c with
    | plain status path => exact (Change.first_row hfirst).2.ge
    | renamed score old new => exact (Change.first_row hfirst).ge
    | copied score old new => exact (Change.first_row hfirst).2.ge
  rw [List.length_append]
  omega

theorem entriesOf_renamed (score : Nat) {old new : Text} (hold : Solid old) (hnew : Solid new) :
    entriesOf ['R' :: scoreText score, old, new] = some [⟨.deleted, old⟩, ⟨.added, new⟩] := by
  refine entriesOf_eq_some.1 (?_ : parseParts [] _ = .ok _)
  have hstatus : Solid ('R' :: scoreText score) := List.forall_mem_cons.2 ⟨by decide, scoreText_solid score⟩
  rw [parseParts, strip_of_no_space hstatus, strip_of_no_space hold, strip_of_no_space hnew]
  rfl

theorem entriesOf_copied (score : Nat) (old : Text) {new : Text} (hnew : Solid new) :
    entriesOf ['C' :: scoreText score, old, new] = some [⟨.added, new⟩] := by
  refine entriesOf_eq_some.1 (?_ : parseParts [] _ = .ok _)
  have hstatus : Solid ('C' :: scoreText score) := List.forall_mem_cons.2 ⟨by decide, scoreText_solid score⟩
  rw [parseParts, strip_of_no_space hstatus, strip_of_no_space hnew]
  rfl

theorem entriesOf_plain {status : PlainStatus} (hs : status ≠ .typeChanged) {path : Text} (hpath : Solid path) :
    entriesOf [[status.letter], path] = some [⟨status.listed, path⟩] := by
  refine entriesOf_eq_some.1 (?_ : parseParts [] _ = .ok _)
  rw [parseParts, strip_of_no_space hpath]
  cases status with
  | typeChanged => exact absurd rfl hs
  | _ => rfl

theorem Change.words_fields {old new : PathName} (hnew : Solid new.text) :
    words (old.text ++ '\t' :: new.text) = words old.text ++ [new.text] := by
  rw [words_cut _ _ (by decide), words_solid hnew new.ne_nil]

theorem Change.read_of_readable {c : Change} (h : c.Readable) : readRows (rows words c.line) = some c.entries := by
  have hone : ∀ {row : List Text} {found : List GitChange}, entriesOf row = some found →
      readRows [row] = some found := fun hrow => readRows_cons.2 ⟨_, [], hrow, rfl, (List.append_nil _).symm⟩
  cases c with
  | plain status path =>
    obtain ⟨hs, hpath⟩ := h
    rw [Change.rows_line (.plain status path) (not_lineEnd_of_solid hpath), Change.fields, words_solid hpath path.ne_nil]
    exact hone (entriesOf_plain hs hpath)
  | renamed score old new =>
    obtain ⟨hold, hnew⟩ := h
    have hfree : ∀ d ∈ old.text ++ '\t' :: new.text, isLineEnd d = false :=
      List.forall_mem_append.2 ⟨not_lineEnd_of_solid hold,
        List.forall_mem_cons.2 ⟨by decide, not_lineEnd_of_solid hnew⟩⟩
    rw [Change.rows_line (.renamed score old new) hfree, Change.fields, Change.words_fields hnew, words_solid hold old.ne_nil]
    exact hone (entriesOf_renamed score hold hnew)
  | copied score old new =>
    obtain ⟨hword, hold, hnew⟩ := h
    have hfree : ∀ d ∈ old.text ++ '\t' :: new.text, isLineEnd d = false :=
      List.forall_mem_append.2 ⟨hold, List.forall_mem_cons.2 ⟨by decide, not_lineEnd_of_solid hnew⟩⟩
    obtain ⟨w, hw⟩ := List.length_eq_one_iff.1 hword
    rw [Change.rows_line (.copied score old new) hfree, Change.fields, Change.words_fields hnew, hw]
    exact hone (entriesOf_copied score w hnew)

/-- A line that ends with a word is not blank. -/
theorem rows_ne_nil (t : Text) {u : Text} (hu : Solid u) (hne : u ≠ []) : rows words (t ++ '\t' :: u) ≠ [] := by
  have hline : ∀ line : Text, (∀ c ∈ line, isLineEnd c = false) → rows words (line ++ '\t' :: u) ≠ [] := by
    intro line hfree
    rw [words_ignoresMargins.rows_line (List.forall_mem_append.2 ⟨hfree,
      List.forall_mem_cons.2 ⟨by decide, not_lineEnd_of_solid hu⟩⟩), words_cut _ _ (by decide), words_solid hu hne]
    simp
  rcases exists_last_line t with hfree | ⟨front, e, line, rfl, he, hfree⟩
  · exact hline t hfree
  · rw [List.append_assoc, List.cons_append, words_ignoresMargins.rows_cut _ _ he]
    exact List.append_ne_nil_of_right_ne_nil _ (hline line hfree)

/-- The entries of a change are read one by one only where its fields are readable. -/
theorem Change.readable_of_exact {c : Change} {found : List GitChange}
    (h : readRows (rows words c.line) = some found) (hlen : found.length = c.entries.length)
    (hsolid : ∀ g ∈ c.entries, Solid g.path) : c.Readable := by
  cases c with
  | plain status path =>
    obtain ⟨parts, later, hrows⟩ := Change.exists_rows (.plain status path)
    rw [hrows] at h
    obtain ⟨first, changes, hfirst, -, rfl⟩ := readRows_cons.1 h
    exact ⟨(Change.first_row hfirst).1, hsolid _ List.mem_cons_self⟩
  | renamed score old new =>
    exact ⟨hsolid ⟨.deleted, old.text⟩ List.mem_cons_self, hsolid ⟨.added, new.text⟩ (by simp [Change.entries])⟩
  | copied score old new =>
    have hnew : Solid new.text := hsolid ⟨.added, new.text⟩ List.mem_cons_self
    rcases exists_first_line old.text with hfree | ⟨front, e, rest, hold, he, hfree⟩
    · have hfields : ∀ d ∈ old.text ++ '\t' :: new.text, isLineEnd d = false :=
        List.forall_mem_append.2 ⟨hfree, List.forall_mem_cons.2 ⟨by decide, not_lineEnd_of_solid hnew⟩⟩
      rw [Change.rows_line (.copied score old new) hfields] at h
      obtain ⟨first, changes, hfirst, -, rfl⟩ := readRows_cons.1 h
      have hparts := (Change.first_row hfirst).1
      rw [Change.fields, Change.words_fields hnew, List.length_append, List.length_singleton] at hparts
      exact ⟨by omega, hfree, hnew⟩
    · -- The part after the line end is a second row, which is listed as well.
      have hfields : Change.fields (.copied score old new) = front ++ e :: (rest ++ '\t' :: new.text) := by
        rw [Change.fields, hold, List.append_assoc, List.cons_append]
      rw [Change.rows_line_cut _ he hfree hfields] at h
      have hcount := readRows_length h
      have hrows := List.length_pos_iff.2 (rows_ne_nil rest hnew new.ne_nil)
      rw [hlen, List.length_cons, Change.entries, List.length_singleton] at hcount
      omega

/-! ## The whole list -/

theorem readRows_of_readable {changes : List Change} (h : ∀ c ∈ changes, c.Readable) :
    readRows (changes.flatMap fun c => rows words c.line) = some (changes.flatMap Change.entries) := by
  induction changes with
  | nil => rfl
  | cons c changes ih =>
    rw [List.flatMap_cons, List.flatMap_cons]
    exact readRows_append.2 ⟨_, _, Change.read_of_readable (h c List.mem_cons_self),
      ih fun d hd => h d (List.mem_cons_of_mem _ hd), rfl⟩

/-- Each change has its entries at least, and no change has more when the count is right. -/
theorem entries_counted {changes : List Change} {listed : List GitChange}
    (h : readRows (changes.flatMap fun c => rows words c.line) = some listed) :
    (changes.flatMap Change.entries).length ≤ listed.length ∧
      (listed.length = (changes.flatMap Change.entries).length →
        ∀ c ∈ changes, ∃ found, readRows (rows words c.line) = some found ∧ found.length = c.entries.length) := by
  induction changes generalizing listed with
  | nil =>
    cases h
    exact ⟨Nat.le_refl _, by simp⟩
  | cons c changes ih =>
    rw [List.flatMap_cons] at h
    obtain ⟨found, later, hfound, hlater, rfl⟩ := readRows_append.1 h
    obtain ⟨hle, heach⟩ := ih hlater
    have hfirst := Change.entries_le hfound
    rw [List.flatMap_cons, List.length_append, List.length_append]
    refine ⟨by omega, fun hlen => ?_⟩
    rw [List.forall_mem_cons]
    exact ⟨⟨found, hfound, by omega⟩, heach (by omega)⟩

theorem PathName.rows_of_readable {p : PathName} (h : p.Readable) : rows strip p.text = [p.text] := by
  rw [strip_ignoresMargins.rows_line h.2, h.1]
  simp [p.ne_nil]

theorem readable_of_mem_rows {t name : Text} (h : name ∈ rows strip t) :
    strip name = name ∧ ∀ c ∈ name, isLineEnd c = false := by
  obtain ⟨-, line, rfl, hfree⟩ := strip_ignoresMargins.mem_rows h
  exact ⟨strip_strip line, fun c hc => hfree c ((strip_within line).subset hc)⟩

theorem flatMap_rows {untracked : List PathName} (h : ∀ p ∈ untracked, p.Readable) :
    (untracked.flatMap fun p => rows strip p.text) = untracked.map PathName.text := by
  induction untracked with
  | nil => rfl
  | cons p untracked ih =>
    rw [List.flatMap_cons, List.map_cons, PathName.rows_of_readable (h p List.mem_cons_self),
      ih fun q hq => h q (List.mem_cons_of_mem _ hq)]
    rfl

/-- What is listed: the rows of the changes, and the names of untracked files without the
white space around them. -/
theorem getChangesInRepo_eq_ok {ref : Text} {changes : List Change} {untracked : List PathName}
    {listed : List GitChange} :
    getChangesInRepo (printing ref changes untracked) = .ok listed ↔
      ∃ found, readRows (changes.flatMap fun c => rows words c.line) = some found ∧
        listed = found ++ (untracked.flatMap fun p => rows strip p.text).map fun path => ⟨.added, path⟩ := by
  have hchanges : ∀ found, parseNameStatus (outputLines (strip (newlines (nameStatus changes)))) = .ok found ↔
      readRows (changes.flatMap fun c => rows words c.line) = some found := by
    intro found
    rw [parseNameStatus_eq_ok, splitLines_outputLines, ← rows_nameStatus,
      ← words_ignoresMargins.rows_newlines (nameStatus changes), ← words_ignoresMargins.rows_strip, rows]
  have huntracked : untrackedChanges (outputLines (strip (newlines (lsFiles untracked)))) =
      (untracked.flatMap fun p => rows strip p.text).map fun path => ⟨.added, path⟩ := by
    rw [untrackedChanges_eq, splitLines_outputLines, ← rows_lsFiles,
      ← strip_ignoresMargins.rows_newlines (lsFiles untracked), ← strip_ignoresMargins.rows_strip, rows]
  rw [← huntracked]
  constructor
  · intro h
    obtain ⟨output, hout, h⟩ := bind_ok h
    cases hout
    obtain ⟨found, hfound, h⟩ := bind_ok h
    cases h
    exact ⟨found, (hchanges found).1 hfound, rfl⟩
  · rintro ⟨found, hfound, rfl⟩
    show (parseNameStatus _ >>= _) = _
    rw [(hchanges found).2 hfound]
    rfl

/-! ## Quoted names -/

section Quoted
variable {quotePath : Bool}

/-- Git prints the listed path as it is. -/
def GitChange.AsIs (quotePath : Bool) (g : GitChange) : Prop := ∀ c ∈ g.path, mustQuote quotePath c = false

/-- An entry under the name that git prints. -/
def GitChange.printed (quotePath : Bool) (g : GitChange) : GitChange := { g with path := cQuote quotePath g.path }

theorem GitChange.printed_eq_self {g : GitChange} : g.printed quotePath = g ↔ g.AsIs quotePath := by
  constructor
  · intro h c hc
    by_contra hquote
    have hlt := length_lt_cQuote hc (Bool.not_eq_false _ ▸ hquote)
    rw [show cQuote quotePath g.path = g.path from congrArg GitChange.path h] at hlt
    exact Nat.lt_irrefl _ hlt
  · intro h
    rw [GitChange.printed, cQuote_eq_self h]

theorem Change.entries_printed (c : Change) :
    (c.printed quotePath).entries = c.entries.map (GitChange.printed quotePath) := by
  cases c <;> rfl

theorem PathName.printed_readable {p : PathName} (h : p.Readable) : (p.printed quotePath).Readable :=
  ⟨strip_cQuote h.1, cQuote_no_lineEnd h.2⟩

theorem flatMap_entries_printed (changes : List Change) : (changes.map (Change.printed quotePath)).flatMap Change.entries =
    (changes.flatMap Change.entries).map (GitChange.printed quotePath) := by
  rw [List.flatMap_map, List.map_flatMap]
  exact List.flatMap_congr fun c _ => c.entries_printed

theorem readRows_printed {changes : List Change} (h : ∀ c ∈ changes, (c.printed quotePath).Readable) :
    readRows ((changes.map (Change.printed quotePath)).flatMap fun c => rows words c.line) =
      some ((changes.flatMap Change.entries).map (GitChange.printed quotePath)) := by
  rw [← flatMap_entries_printed]
  refine readRows_of_readable fun c hc => ?_
  obtain ⟨d, hd, rfl⟩ := List.mem_map.1 hc
  exact h d hd

theorem flatMap_rows_printed {untracked : List PathName} (h : ∀ p ∈ untracked, p.Readable) :
    (((untracked.map (PathName.printed quotePath)).flatMap fun p => rows strip p.text).map fun path => ⟨.added, path⟩) =
      (untracked.map PathName.entry).map (GitChange.printed quotePath) := by
  rw [flatMap_rows fun p hp => ?_, List.map_map, List.map_map, List.map_map]
  · rfl
  · obtain ⟨q, hq, rfl⟩ := List.mem_map.1 hp
    exact PathName.printed_readable (h q hq)

/-- Among what is listed, only untracked names have white space in them, and no
more of them than there are. -/
theorem solid_of_perm {found : List GitChange} {changes : List Change} {untracked : List PathName}
    (hfound : ∀ g ∈ found, Solid g.path)
    (hperm : (found ++ (untracked.map PathName.entry).map (GitChange.printed quotePath)).Perm
      (entries changes untracked)) : ∀ g ∈ changes.flatMap Change.entries, Solid g.path := by
  have hcount := hperm.countP_eq fun g => !decide (Solid g.path)
  have hnone : found.countP (fun g => !decide (Solid g.path)) = 0 :=
    List.countP_eq_zero.2 fun g hg => by simpa using hfound g hg
  rw [entries, List.countP_append, List.countP_append, hnone, Nat.zero_add, List.countP_map] at hcount
  have hle : (untracked.map PathName.entry).countP ((fun g : GitChange => !decide (Solid g.path)) ∘
      GitChange.printed quotePath) ≤ (untracked.map PathName.entry).countP fun g => !decide (Solid g.path) := by
    refine List.countP_mono_left fun g _ hg => ?_
    simp only [Function.comp_apply, Bool.not_eq_true', decide_eq_false_iff_not] at hg ⊢
    exact fun hsolid => hg (cQuote_solid hsolid)
  have hzero : (changes.flatMap Change.entries).countP (fun g => !decide (Solid g.path)) = 0 := by omega
  intro g hg
  simpa using List.countP_eq_zero.1 hzero g hg

end Quoted

/-- Every changed path and every untracked file is listed once and as it is if and only if
git quotes no listed path, and in what it prints no listed path has white space in it, no file
changed its type, the old path of a copy is one word, and an untracked name has no white space
around it and no line end. -/
theorem listed_faithfully_iff (quotePath : Bool) (ref : Text) (changes : List Change) (untracked : List PathName) :
    Faithful quotePath ref changes untracked ↔ (∀ g ∈ entries changes untracked, g.AsIs quotePath) ∧
      (∀ c ∈ changes, (c.printed quotePath).Readable) ∧ ∀ p ∈ untracked, p.Readable := by
  constructor
  · rintro ⟨listed, hok, hperm⟩
    obtain ⟨found, hfound, rfl⟩ := getChangesInRepo_eq_ok.1 hok
    have hpaths : ∀ g ∈ found, Solid g.path :=
      readRows_path (t := nameStatus (changes.map (Change.printed quotePath))) (by rwa [rows_nameStatus])
    have hread : ∀ g ∈ entries changes untracked, strip g.path = g.path ∧ ∀ c ∈ g.path, isLineEnd c = false := by
      intro g hg
      rcases List.mem_append.1 (hperm.mem_iff.2 hg) with hg | hg
      · exact ⟨strip_of_no_space (hpaths g hg), not_lineEnd_of_solid (hpaths g hg)⟩
      · obtain ⟨name, hname, rfl⟩ := List.mem_map.1 hg
        obtain ⟨p, -, hname⟩ := List.mem_flatMap.1 hname
        exact readable_of_mem_rows hname
    have huntracked : ∀ p ∈ untracked, p.Readable := fun p hp =>
      hread ⟨.added, p.text⟩ (List.mem_append_right _ (List.mem_map.2 ⟨p, hp, rfl⟩))
    rw [flatMap_rows_printed huntracked] at hperm
    have hsolid := solid_of_perm hpaths hperm
    -- The lines of the changes are listed one by one.
    obtain ⟨-, heach⟩ := entries_counted hfound
    have hlen : found.length = ((changes.map (Change.printed quotePath)).flatMap Change.entries).length := by
      have hall := hperm.length_eq
      rw [flatMap_entries_printed, List.length_map]
      simp only [entries, List.length_append, List.length_map] at hall
      omega
    have hchanges : ∀ c ∈ changes, (c.printed quotePath).Readable := by
      intro c hc
      obtain ⟨chunk, hchunk, hcount⟩ := heach hlen _ (List.mem_map_of_mem hc)
      refine Change.readable_of_exact hchunk hcount fun g hg => ?_
      rw [Change.entries_printed] at hg
      obtain ⟨d, hd, rfl⟩ := List.mem_map.1 hg
      exact cQuote_solid (hsolid d (List.mem_flatMap.2 ⟨c, hc, hd⟩))
    refine ⟨fun g hg => ?_, hchanges, huntracked⟩
    obtain rfl := Option.some.inj (hfound.symm.trans (readRows_printed hchanges))
    rw [← List.map_append] at hperm
    refine GitChange.printed_eq_self.1 (fixed_of_perm_map (GitChange.printed quotePath) (·.path.length)
      (fun g => ?_) hperm g hg)
    rcases cQuote_cases quotePath g.path with heq | ⟨t, -, hlt⟩
    · exact .inl (by rw [GitChange.printed, heq])
    · exact .inr hlt
  · rintro ⟨hasis, hchanges, huntracked⟩
    refine ⟨_, getChangesInRepo_eq_ok.2 ⟨_, readRows_printed hchanges, rfl⟩, ?_⟩
    rw [flatMap_rows_printed huntracked, ← List.map_append]
    have hself : (entries changes untracked).map (GitChange.printed quotePath) = entries changes untracked :=
      (List.map_congr_left fun g hg => GitChange.printed_eq_self.2 (hasis g hg)).trans (List.map_id _)
    rw [← entries, hself]

/-- A file with a space in its name. -/
theorem spaced_path_refused :
    ¬ Faithful true "HEAD".toList [.plain .modified { text := "a b".toList }] [] := by
  rintro ⟨listed, hok, -⟩
  have hrefused :
      (getChangesInRepo (repository true "HEAD".toList [.plain .modified { text := "a b".toList }] [])).toOption = none := by
    decide +kernel
  rw [hok] at hrefused
  cases hrefused

end AgentSdk.GitChanges
