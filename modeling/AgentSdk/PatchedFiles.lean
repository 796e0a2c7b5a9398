import AgentSdk.AppliedHunks
import AgentSdk.Lib.Effects
import AgentSdk.LocalFileStore
/-!
# Patches of a workspace

`process_patch` with the file functions of `ApplyPatchExecutor`. The files are a
tree below the workspace's root; where a path leads, symbolic links included, is
a parameter.
-/

namespace AgentSdk.ApplyPatch
open Lib

/-- `_resolve_path`: a place below the workspace's root, one outside it, or an
`OSError` or `ValueError`. -/
inductive Resolution where
  | inside (place : List String)
  | outside
  | unresolved
deriving DecidableEq

inductive Failure where
  | raised (e : Raised)
  | fileNotFound
  | os
deriving DecidableEq

def escaping : Failure := .raised (.diffError "Absolute or escaping paths are not allowed")

/-- A workspace: what is above a file or directory is a directory. -/
structure Workspace where
  tree : Tree
  closed : ∀ p n, tree.node p = some n → ∀ q ∈ Tree.parents p, tree.node q = some .dir

def encode (text : Text) : ByteArray := (String.ofList text).toUTF8

abbrev Edits := EStateM Failure Tree

section Model
variable (resolve : Path → Resolution)

/-- A file in the way of the path. -/
def blocked (t : Tree) (place : List String) : Bool :=
  (Tree.parents place).any fun q => t.node q ≠ none ∧ t.node q ≠ some .dir

def openFile (t : Tree) (path : Path) : Except Failure Text :=
  match resolve path with
  | .outside => .error escaping
  | .unresolved => .error .os
  | .inside place =>
    match t.node place with
    | some (.file contents) =>
      match readText contents with
      | .ok text => .ok text
      | .error _ => .error .os
    | some .dir => .error .os
    | none => .error (if blocked t place then .os else .fileNotFound)

def writeFile (path : Path) (content : Text) : Edits Unit := do
  match resolve path with
  | .outside => throw escaping
  | .unresolved => throw .os
  | .inside place =>
    match (← get).makedirs place >>= fun t => t.writeFile place (encode content) with
    | .ok t => set t
    | .error _ => throw .os

/-- `unlink(missing_ok=False)`. -/
def removeFile (path : Path) : Edits Unit := do
  match resolve path with
  | .outside => throw escaping
  | .unresolved => throw .os
  | .inside place =>
    let t ← get
    match t.node place with
    | some (.file _) => set (t.filter fun e => e.1 ≠ place : Tree)
    | some .dir => throw .os
    | none => throw (if blocked t place then .os else .fileNotFound)

/-- A set in the source; the files are read in some order. -/
def identifyFilesNeeded (text : Text) : List Path :=
  ((patchLines text).flatMap fun line =>
    (if updateFile.isPrefixOf line then [String.ofList (line.drop updateFile.length)] else []) ++
      if deleteFile.isPrefixOf line then [String.ofList (line.drop deleteFile.length)] else []).eraseDups

def loadFile (t : Tree) (path : Path) : Except Failure Text :=
  match openFile resolve t path with
  | .error .fileNotFound => .error (.raised (.diffError ("Delete File Error: Missing File: " ++ path)))
  | r => r

def loadFiles (t : Tree) (paths : List Path) : Except Failure (List (Path × Text)) :=
  paths.foldlM (fun orig path => (loadFile resolve t path).map (dictSet orig path)) []

def noContent (kind : String) (path : Path) : Failure :=
  .raised (.diffError ("apply_commit: " ++ kind ++ " change for '" ++ path ++ "' has no content"))

def applyChange (path : Path) (change : FileChange) : Edits Unit :=
  match change.type with
  | .delete => removeFile resolve path
  | .add =>
    match change.newContent with
    | none => throw (noContent "ADD" path)
    | some content => writeFile resolve path content
  | .update =>
    match change.newContent with
    | none => throw (noContent "UPDATE" path)
    | some content =>
      match change.movePath.filter (· ≠ "") with
      | some move => do
        writeFile resolve move content
        removeFile resolve path
      | none => writeFile resolve path content

def applyCommit (commit : Commit) : Edits Unit := commit.changes.forM fun e => applyChange resolve e.1 e.2

/-- The commit of a patch: what happens before a file is written. As many rounds
as the patch has lines are enough for the parser's loops. -/
def prepare (text : Text) (t : Tree) : Except Failure (Commit × Nat) :=
  if !"*** Begin Patch".toList.isPrefixOf text then
    .error (.raised (.diffError "Invalid patch: must start with '*** Begin Patch'"))
  else do
    let orig ← loadFiles resolve t (identifyFilesNeeded text)
    (commitOf (patchLines text).length text orig).mapError .raised

def processPatch (text : Text) : Edits (String × Nat × Commit) := do
  match prepare resolve text (← get) with
  | .error e => throw e
  | .ok (commit, fuzz) =>
    applyCommit resolve commit
    return ("Done!", fuzz, commit)

end Model

/-! ## What a patch prescribes -/

/-- What a section asks for: a file with a content, or that a file is gone. -/
inductive Step where
  | write (path : Path) (content : Text)
  | remove (path : Path)
  | refuse (kind : String) (path : Path)
deriving DecidableEq

def stepsOf (path : Path) (change : FileChange) : List Step :=
  match change.type with
  | .delete => [.remove path]
  | .add =>
    match change.newContent with
    | none => [.refuse "ADD" path]
    | some content => [.write path content]
  | .update =>
    match change.newContent with
    | none => [.refuse "UPDATE" path]
    | some content =>
      match change.movePath.filter (· ≠ "") with
      | some move => [.write move content, .remove path]
      | none => [.write path content]

def Commit.steps (c : Commit) : List Step := c.changes.flatMap fun e => stepsOf e.1 e.2

def fileAt (t : Tree) (place : List String) : Option ByteArray :=
  match t.node place with
  | some (.file contents) => some contents
  | _ => none

def Step.path? : Step → Option Path
  | .write path _ | .remove path => some path
  | .refuse _ _ => none

/-- The step's path leads to the place. -/
def Step.At (resolve : Path → Resolution) (s : Step) (place : List String) : Prop :=
  s.path?.map resolve = some (.inside place)

instance Step.decidableAt (resolve : Path → Resolution) (s : Step) (place : List String) :
    Decidable (s.At resolve place) := inferInstanceAs (Decidable (_ = _))

/-- What the step leaves at its place. -/
def Step.leaves : Step → Option ByteArray
  | .write _ content => some (encode content)
  | _ => none

/-- Every place is as the patch prescribes it. -/
structure Prescribed (resolve : Path → Resolution) (steps : List Step) (t t' : Tree) : Prop where
  written : ∀ path content place, .write path content ∈ steps → resolve path = .inside place →
    fileAt t' place = some (encode content)
  gone : ∀ path place, .remove path ∈ steps → resolve path = .inside place →
    (∀ other content, .write other content ∈ steps → resolve other ≠ .inside place) → fileAt t' place = none
  others : ∀ place, (∀ s ∈ steps, ¬ s.At resolve place) → fileAt t' place = fileAt t place

/-- What the part of a file in the patch asks for; the new text is that of an
updated file. -/
def FileSection.steps (s : FileSection) (newText : Text) : List Step :=
  match s.type with
  | .delete => [.remove s.path]
  | .add => [.write s.path s.newFile]
  | .update =>
    match s.move.filter (· ≠ []) with
    | some move => [.write (String.ofList move) newText, .remove s.path]
    | none => [.write s.path newText]

def Commit.newText (c : Commit) (path : Path) : Text := ((c.changes.lookup path).bind (·.newContent)).getD []

/-- What the patch asks for, file by file; the new texts are those of the commit. -/
def asked (text : Text) (commit : Commit) : List Step :=
  (fileSections text).flatMap fun s => s.steps (commit.newText s.path)

/-- The new text of an updated file is the old one with the sections of the patch
applied. -/
def NewTexts (resolve : Path → Resolution) (text : Text) (t : Tree) (exact : Prop) (commit : Commit) : Prop :=
  ∀ s ∈ fileSections text, s.type = .update →
    ∃ old, openFile resolve t s.path = .ok old ∧ Updated exact s.script old (commit.newText s.path)

/-- A call that raises `DiffError` changes nothing, and one that returns leaves
what the patch prescribes. There is no other end but an `OSError`. -/
def LosesNothing (resolve : Path → Resolution) (text : Text) (w : Workspace) : Prop :=
  match processPatch resolve text w.tree with
  | .ok (_, fuzz, commit) t' =>
    NewTexts resolve text w.tree (fuzz = 0) commit ∧ Prescribed resolve (asked text commit) w.tree t'
  | .error (.raised e) t' => e.IsDiff ∧ ∀ place, t'.node place = w.tree.node place
  | .error _ _ => True

/-! ## When it holds -/

def runStep (resolve : Path → Resolution) : Step → Edits Unit
  | .write path content => writeFile resolve path content
  | .remove path => removeFile resolve path
  | .refuse kind path => throw (noContent kind path)

/-- The steps lead from one state of the files to another; none is stopped. -/
def Leads (resolve : Path → Resolution) (steps : List Step) (t t' : Tree) : Prop :=
  steps.forM (runStep resolve) t = .ok ⟨⟩ t'

/-- The step that comes last at the place. -/
def lastAt (resolve : Path → Resolution) (steps : List Step) (place : List String) : Option Step :=
  (steps.filter fun s => s.At resolve place).getLast?

/-- The step raises `DiffError` by its path or for want of a content. -/
def Step.Refused (resolve : Path → Resolution) (s : Step) : Prop :=
  s.path?.map resolve = none ∨ s.path?.map resolve = some .outside

/-- Where a section writes, the last section writes too, the same content; and
what comes before a section with a path outside the workspace leaves the files as
they were. -/
structure Compatible (resolve : Path → Resolution) (steps : List Step) (t : Tree) : Prop where
  written : ∀ t', Leads resolve steps t t' → ∀ path content place, .write path content ∈ steps →
    resolve path = .inside place → ∃ other, lastAt resolve steps place = some (.write other content)
  refused : ∀ pre s post t', steps = pre ++ s :: post → s.Refused resolve → Leads resolve pre t t' →
    ∀ place last, lastAt resolve pre place = some last → last.leaves = fileAt t place

/-! ## One step -/

section Steps
variable {resolve : Path → Resolution} {t t' : Tree} {s : Step} {steps : List Step} {place q : List String}

/-- What a step changes: the node at its place, and for a write the directories
above it. -/
structure Acted (t t' : Tree) (place : List String) (new : Option ByteArray) : Prop where
  node : t'.node place = new.map .file
  free : t.node place ≠ some .dir
  frame : ∀ q, q ≠ place → t'.node q = t.node q ∨
    new ≠ none ∧ q ∈ Tree.parents place ∧ t.node q = none ∧ t'.node q = some .dir

theorem writeFile_spec (path : Path) (content : Text) :
    Ends (writeFile resolve path content) t
      (fun _ t' => ∃ place, resolve path = .inside place ∧ Acted t t' place (some (encode content)))
      fun e t' => t' = t ∧ (e = .os ∨ e = escaping ∧ resolve path = .outside) := by
  unfold writeFile
  cases hres : resolve path with
  | outside => exact ⟨rfl, .inr ⟨rfl, rfl⟩⟩
  | unresolved => exact ⟨rfl, .inl rfl⟩
  | inside place =>
    refine Ends.get_then ?_
    cases hwrite : t.makedirs place >>= fun t => t.writeFile place (encode content) with
    | error e => exact ⟨rfl, .inl rfl⟩
    | ok t' =>
      obtain ⟨t₁, hdirs, hfile⟩ := bind_ok hwrite
      obtain ⟨hdir, hfree, hnode⟩ := Tree.write_ok hdirs hfile
      refine ⟨place, rfl, by rw [hnode, if_pos rfl]; rfl, hdir, fun q hq => ?_⟩
      rw [hnode, if_neg hq]
      split
      · rename_i hpar
        rcases hfree q hpar with hnone | hsome
        · exact .inr ⟨nofun, hpar, hnone, rfl⟩
        · exact .inl hsome.symm
      · exact .inl rfl

theorem node_filter (t : Tree) (p q : List String) :
    Tree.node (t.filter fun e => e.1 ≠ p) q = if q = p then none else t.node q := by
  have h := lookup_filter_keys t (fun q => decide (q ≠ p)) q
  rw [Tree.node, h]
  by_cases hq : q = p
  · rw [if_pos hq, if_neg (by simpa using hq)]
  · rw [if_neg hq, if_pos (by simpa using hq)]
    rfl

theorem removeFile_spec (path : Path) :
    Ends (removeFile resolve path) t
      (fun _ t' => ∃ place, resolve path = .inside place ∧ Acted t t' place none)
      fun e t' => t' = t ∧ (e = .os ∨ e = .fileNotFound ∨ e = escaping ∧ resolve path = .outside) := by
  unfold removeFile
  cases hres : resolve path with
  | outside => exact ⟨rfl, .inr (.inr ⟨rfl, rfl⟩)⟩
  | unresolved => exact ⟨rfl, .inl rfl⟩
  | inside place =>
    refine Ends.get_then ?_
    cases hnode : t.node place with
    | none =>
      refine ⟨rfl, ?_⟩
      split
      · exact .inl rfl
      · exact .inr (.inl rfl)
    | some n =>
      cases n with
      | dir => exact ⟨rfl, .inl rfl⟩
      | file contents =>
        refine ⟨place, rfl, ?_, by rw [hnode]; nofun, fun q hq => .inl ?_⟩
        · rw [node_filter, if_pos rfl]
          rfl
        · rw [node_filter, if_neg hq]

theorem runStep_spec (s : Step) :
    Ends (runStep resolve s) t (fun _ t' => ∃ place, s.At resolve place ∧ Acted t t' place s.leaves)
      fun e t' => t' = t ∧ ∀ r, e = .raised r → r.IsDiff ∧ s.Refused resolve := by
  cases s with
  | write path content =>
    refine (writeFile_spec path content).mono ?_ ?_
    · rintro - t' ⟨place, hres, hact⟩
      exact ⟨place, congrArg some hres, hact⟩
    · rintro e t' ⟨rfl, rfl | ⟨rfl, hres⟩⟩
      · exact ⟨rfl, nofun⟩
      · refine ⟨rfl, fun r hr => ?_⟩
        cases hr
        exact ⟨trivial, .inr (congrArg some hres)⟩
  | remove path =>
    refine (removeFile_spec path).mono ?_ ?_
    · rintro - t' ⟨place, hres, hact⟩
      exact ⟨place, congrArg some hres, hact⟩
    · rintro e t' ⟨rfl, rfl | rfl | ⟨rfl, hres⟩⟩
      · exact ⟨rfl, nofun⟩
      · exact ⟨rfl, nofun⟩
      · refine ⟨rfl, fun r hr => ?_⟩
        cases hr
        exact ⟨trivial, .inr (congrArg some hres)⟩
  | refuse kind path =>
    refine ⟨rfl, fun r hr => ?_⟩
    cases hr
    exact ⟨trivial, .inl rfl⟩

theorem runStep_refused (h : s.Refused resolve) : ∃ e : Raised, e.IsDiff ∧ runStep resolve s t = .error (.raised e) t := by
  cases s with
  | write path content =>
    rcases h with h | h
    · cases h
    · have hres : resolve path = .outside := Option.some.inj h
      refine ⟨.diffError "Absolute or escaping paths are not allowed", trivial, ?_⟩
      simp only [runStep, writeFile, hres]
      rfl
  | remove path =>
    rcases h with h | h
    · cases h
    · have hres : resolve path = .outside := Option.some.inj h
      refine ⟨.diffError "Absolute or escaping paths are not allowed", trivial, ?_⟩
      simp only [runStep, removeFile, hres]
      rfl
  | refuse kind path => exact ⟨.diffError _, trivial, rfl⟩

/-! ## The steps of a commit -/

theorem applyChange_eq (path : Path) (change : FileChange) :
    applyChange resolve path change = (stepsOf path change).forM (runStep resolve) := by
  unfold applyChange stepsOf
  cases change.type with
  | delete => simp [runStep]
  | add => cases change.newContent <;> simp [runStep]
  | update =>
    cases change.newContent with
    | none => simp [runStep]
    | some content => cases change.movePath.filter (· ≠ "") <;> simp [runStep]

theorem applyCommit_eq (commit : Commit) : applyCommit resolve commit = commit.steps.forM (runStep resolve) := by
  unfold applyCommit Commit.steps
  induction commit.changes with
  | nil => rfl
  | cons e changes ih =>
    rw [List.flatMap_cons]
    simp only [List.forM_eq_forM, List.forM_cons, List.forM_append] at ih ⊢
    rw [ih, applyChange_eq]
    rfl

theorem Acted.fileAt_eq {new : Option ByteArray} (h : Acted t t' place new) (q : List String) :
    fileAt t' q = if q = place then new else fileAt t q := by
  by_cases hq : q = place
  · subst hq
    rw [if_pos rfl, fileAt, h.node]
    cases new <;> rfl
  · rw [if_neg hq]
    rcases h.frame q hq with hsame | ⟨-, -, hnone, hdir⟩
    · rw [fileAt, fileAt, hsame]
    · rw [fileAt, fileAt, hnone, hdir]

theorem leads_cons (h : Leads resolve (s :: steps) t t') :
    ∃ t₁ place, s.At resolve place ∧ Acted t t₁ place s.leaves ∧ Leads resolve steps t₁ t' := by
  obtain ⟨t₁, hone, hrest⟩ := forM_cons_ok h
  obtain ⟨place, hat, hact⟩ := (runStep_spec s).of_ok hone
  exact ⟨t₁, place, hat, hact, hrest⟩

theorem At.unique {p : List String} (hp : s.At resolve p) (hq : s.At resolve q) : p = q := by
  have h := hp.symm.trans hq
  simpa using h

theorem lastAt_cons (s : Step) (steps : List Step) (q : List String) :
    lastAt resolve (s :: steps) q =
      (lastAt resolve steps q).elim (if s.At resolve q then some s else none) some := by
  unfold lastAt
  by_cases hat : s.At resolve q
  · rw [List.filter_cons_of_pos (by simpa using hat), List.getLast?_cons, if_pos hat]
    cases (steps.filter fun s => decide (s.At resolve q)).getLast? <;> rfl
  · rw [List.filter_cons_of_neg (by simpa using hat), if_neg hat]
    cases (steps.filter fun s => decide (s.At resolve q)).getLast? <;> rfl

theorem mem_of_lastAt (h : lastAt resolve steps q = some s) : s ∈ steps ∧ s.At resolve q := by
  have := List.mem_filter.1 (List.mem_of_getLast? h)
  simpa using this

theorem lastAt_eq_none : lastAt resolve steps q = none ↔ ∀ s ∈ steps, ¬ s.At resolve q := by
  simp [lastAt]

/-- The files after the steps: what the last step at each place leaves. -/
theorem Leads.fileAt_eq (h : Leads resolve steps t t') (q : List String) :
    fileAt t' q = (lastAt resolve steps q).elim (fileAt t q) Step.leaves := by
  induction steps generalizing t with
  | nil =>
    cases h
    rfl
  | cons s steps ih =>
    obtain ⟨t₁, place, hat, hact, hrest⟩ := leads_cons h
    rw [ih hrest, lastAt_cons, hact.fileAt_eq]
    cases hlast : lastAt resolve steps q with
    | some last => rfl
    | none =>
      dsimp only [Option.elim_none]
      by_cases hq : q = place
      · subst hq
        rw [if_pos rfl, if_pos hat]
        rfl
      · have hnot : ¬ s.At resolve q := fun hs => hq (At.unique hs hat)
        rw [if_neg hq, if_neg hnot]
        rfl

theorem Leads.dir (h : Leads resolve steps t t') (hq : t.node q = some .dir) : t'.node q = some .dir := by
  induction steps generalizing t with
  | nil =>
    cases h
    exact hq
  | cons s steps ih =>
    obtain ⟨t₁, place, hat, hact, hrest⟩ := leads_cons h
    refine ih hrest ?_
    have hne : q ≠ place := by
      rintro rfl
      exact hact.free hq
    rcases hact.frame q hne with hsame | ⟨-, -, hnone, -⟩
    · rw [hsame, hq]
    · rw [hq] at hnone
      cases hnone

/-- A directory that is made lies above a place that is written. -/
theorem Leads.made (h : Leads resolve steps t t') (hq : t'.node q = some .dir) :
    t.node q = some .dir ∨ ∃ path content place, .write path content ∈ steps ∧ resolve path = .inside place ∧
      q ∈ Tree.parents place := by
  induction steps generalizing t with
  | nil =>
    cases h
    exact .inl hq
  | cons s steps ih =>
    obtain ⟨t₁, place, hat, hact, hrest⟩ := leads_cons h
    rcases ih hrest with hdir | ⟨path, content, p, hmem, hrest⟩
    · have hne : q ≠ place := by
        rintro rfl
        rw [hact.node] at hdir
        cases hs : s.leaves <;> rw [hs] at hdir <;> cases hdir
      rcases hact.frame q hne with hsame | ⟨hnew, hpar, -, -⟩
      · exact .inl (hsame.symm.trans hdir)
      · cases s with
        | write path content =>
          exact .inr ⟨path, content, place, List.mem_cons_self, Option.some.inj hat, hpar⟩
        | remove path => exact absurd rfl hnew
        | refuse kind path => exact absurd rfl hnew
    · exact .inr ⟨path, content, p, List.mem_cons_of_mem _ hmem, hrest⟩

/-- Steps after which every file is as it was have made no directory either. -/
theorem Leads.node_eq (w : Workspace) (h : Leads resolve steps w.tree t')
    (hloaded : ∀ path place, .remove path ∈ steps → resolve path = .inside place → fileAt w.tree place ≠ none)
    (hfiles : ∀ q, fileAt t' q = fileAt w.tree q) (q : List String) : t'.node q = w.tree.node q := by
  have hfile := hfiles q
  unfold fileAt at hfile
  cases ht : w.tree.node q with
  | some n =>
    cases n with
    | dir => exact h.dir ht
    | file contents =>
      rw [ht] at hfile
      cases ht' : t'.node q with
      | none => simp [ht'] at hfile
      | some n =>
        rw [ht'] at hfile
        cases n with
        | dir => simp at hfile
        | file contents' => simpa using hfile
  | none =>
    rw [ht] at hfile
    cases ht' : t'.node q with
    | none => rfl
    | some n =>
      rw [ht'] at hfile
      cases n with
      | file contents => simp at hfile
      | dir =>
        exfalso
        obtain hdir | ⟨path, content, place, hmem, hres, hpar⟩ := h.made ht'
        · rw [ht] at hdir
          cases hdir
        -- The place held a file before: its last step writes what was there, or removes it.
        have hwas : fileAt w.tree place ≠ none := by
          cases hlast : lastAt resolve steps place with
          | none => exact absurd (congrArg some hres) (lastAt_eq_none.1 hlast _ hmem)
          | some last =>
            obtain ⟨hin, hat⟩ := mem_of_lastAt hlast
            have hleft := h.fileAt_eq place
            rw [hfiles, hlast] at hleft
            cases last with
            | write other content' =>
              rw [hleft]
              nofun
            | remove other => exact hloaded other place hin (Option.some.inj hat)
            | refuse kind other => cases hat
        unfold fileAt at hwas
        cases hplace : w.tree.node place with
        | none => simp [hplace] at hwas
        | some n =>
          have hdir := w.closed place n hplace q hpar
          rw [ht] at hdir
          cases hdir

/-! ## What a patch is applied to -/

theorem openFile_ok {path : Path} {text : Text} (h : openFile resolve t path = .ok text)
    (hres : resolve path = .inside place) : fileAt t place ≠ none := by
  unfold openFile at h
  rw [hres] at h
  unfold fileAt
  cases hnode : t.node place with
  | none => simp [hnode] at h
  | some n =>
    cases n with
    | dir => simp [hnode] at h
    | file contents => nofun

theorem loadFile_spec (path : Path) :
    Yields (loadFile resolve t path) (fun e => ∀ r, e = .raised r → r.IsDiff) fun text =>
      openFile resolve t path = .ok text := by
  unfold loadFile
  cases hopen : openFile resolve t path with
  | ok text => exact rfl
  | error e =>
    cases e with
    | os => exact nofun
    | fileNotFound =>
      rintro r ⟨⟩
      exact trivial
    | raised r =>
      -- Only a path outside the workspace raises here.
      have hout : Failure.raised r = escaping := by
        unfold openFile at hopen
        repeat' split at hopen
        all_goals cases hopen
        rfl
      rintro r' ⟨⟩
      cases hout
      exact trivial

theorem loadFiles_spec (paths : List Path) :
    Yields (loadFiles resolve t paths) (fun e => ∀ r, e = .raised r → r.IsDiff) fun orig =>
      ∀ e ∈ orig, openFile resolve t e.1 = .ok e.2 := by
  have hloop : ∀ orig : List (Path × Text), (∀ e ∈ orig, openFile resolve t e.1 = .ok e.2) →
      Yields (paths.foldlM (fun orig path => (loadFile resolve t path).map (dictSet orig path)) orig)
        (fun e => ∀ r, e = .raised r → r.IsDiff) fun orig => ∀ e ∈ orig, openFile resolve t e.1 = .ok e.2 := by
    induction paths with
    | nil => exact fun orig horig => horig
    | cons path paths ih =>
      intro orig horig
      rw [List.foldlM_cons]
      have hload := @loadFile_spec resolve t path
      cases hone : loadFile resolve t path with
      | error e =>
        rw [hone] at hload
        exact hload
      | ok text =>
        rw [hone] at hload
        refine ih (dictSet orig path text) fun e he => ?_
        rcases mem_dictSet he with rfl | he
        · exact hload
        · exact horig e he
  exact hloop [] fun e he => absurd he List.not_mem_nil

theorem Commits.loaded {orig : List (Path × Text)} {exact : Prop} {sections : List FileSection}
    {changes : List (Path × FileChange)} (h : Commits orig exact sections changes) {e : Path × FileChange}
    (he : e ∈ changes) (htype : e.2.type ≠ .add) : ∃ text, orig.lookup e.1 = some text := by
  obtain ⟨s, -, hpath, hs⟩ := exists_of_forall₂ h he
  rw [hpath]
  rw [hs.type] at htype
  cases hkind : s.type with
  | add => exact absurd hkind htype
  | delete =>
    obtain ⟨text, htext, -⟩ := hs.delete hkind
    exact ⟨text, htext⟩
  | update =>
    obtain ⟨-, text, -, htext, -⟩ := hs.update hkind
    exact ⟨text, htext⟩

theorem mem_stepsOf_remove {path other : Path} {change : FileChange} (h : Step.remove path ∈ stepsOf other change) :
    path = other ∧ change.type ≠ .add := by
  unfold stepsOf at h
  cases htype : change.type with
  | delete => simpa [htype] using h
  | add => cases hc : change.newContent <;> simp [htype, hc] at h
  | update =>
    cases hc : change.newContent with
    | none => simp [htype, hc] at h
    | some content =>
      rw [htype, hc] at h
      dsimp only at h
      split at h <;> simp_all

/-- A change that follows its part of the patch is what that part asks for. -/
theorem stepsOf_of_follows {files : List (Path × Text)} {exact : Prop} {s : FileSection} {change : FileChange}
    (h : change.Follows files exact s) : stepsOf s.path change = s.steps (change.newContent.getD []) := by
  unfold stepsOf FileSection.steps
  rw [h.type]
  cases htype : s.type with
  | delete => rfl
  | add => rw [h.add htype]
  | update =>
    obtain ⟨hmove, -, newText, -, -, hnew, -⟩ := h.update htype
    rw [hnew, hmove]
    cases s.move with
    | none => rfl
    | some move =>
      cases move with
      | nil => rfl
      | cons c move =>
        have hne : String.ofList (c :: move) ≠ "" := by
          intro heq
          have hlist := congrArg String.toList heq
          rw [String.toList_ofList] at hlist
          cases hlist
        have hkept : (some (String.ofList (c :: move))).filter (· ≠ "") = some (String.ofList (c :: move)) := by
          rw [Option.filter_some, if_pos (decide_eq_true hne)]
        dsimp only [Option.getD_some]
        rw [hkept]
        rfl

/-- What is applied is what the patch asks for. -/
theorem steps_eq_asked {files : List (Path × Text)} {exact : Prop} {text : Text} {commit : Commit}
    (hkeys : (commit.changes.map Prod.fst).Nodup) (h : Commits files exact (fileSections text) commit.changes) :
    commit.steps = asked text commit := by
  have hnew : ∀ e ∈ commit.changes, commit.newText e.1 = e.2.newContent.getD [] := by
    intro e he
    rw [Commit.newText, lookup_of_mem hkeys he]
    rfl
  have hall : ∀ sections changes, Commits files exact sections changes → (∀ e ∈ changes, e ∈ commit.changes) →
      changes.flatMap (fun e => stepsOf e.1 e.2) = sections.flatMap fun s => s.steps (commit.newText s.path) := by
    intro sections changes hchanges
    induction hchanges with
    | nil => exact fun _ => rfl
    | @cons s e sections changes hhead _ ih =>
      intro hsub
      obtain ⟨hpath, hfollows⟩ := hhead
      rw [List.flatMap_cons, List.flatMap_cons, ih fun e he => hsub e (List.mem_cons_of_mem _ he), ← hpath,
        hnew e (hsub e List.mem_cons_self), hpath, stepsOf_of_follows hfollows]
  exact hall _ _ h fun e he => he

/-- What is known before a file is written: every file to be removed was read, and
the commit is what the patch asks for. -/
structure Prepared (resolve : Path → Resolution) (text : Text) (t : Tree) (r : Commit × Nat) : Prop where
  loaded : ∀ path place, .remove path ∈ r.1.steps → resolve path = .inside place → fileAt t place ≠ none
  steps : r.1.steps = asked text r.1
  newTexts : NewTexts resolve text t (r.2 = 0) r.1

theorem prepare_spec (text : Text) :
    Yields (prepare resolve text t) (fun e => ∀ r, e = .raised r → r.IsDiff) (Prepared resolve text t) := by
  unfold prepare
  split
  · rintro r ⟨⟩
    exact trivial
  refine (loadFiles_spec _).bind fun orig horig => ?_
  have hcommit := commitOf_spec text orig (patchLines text).length (Nat.le_refl _)
  cases hc : commitOf (patchLines text).length text orig with
  | error e =>
    rw [hc] at hcommit
    rintro r ⟨⟩
    exact hcommit
  | ok r =>
    rw [hc] at hcommit
    obtain ⟨hkeys, hcommits⟩ := hcommit
    refine ⟨fun path place hmem hres => ?_, steps_eq_asked hkeys hcommits, fun s hs htype => ?_⟩
    · obtain ⟨e, he, hstep⟩ := List.mem_flatMap.1 hmem
      obtain ⟨rfl, hadd⟩ := mem_stepsOf_remove hstep
      obtain ⟨text', htext'⟩ := hcommits.loaded he hadd
      exact openFile_ok (horig _ (mem_of_lookup htext')) hres
    · obtain ⟨e, he, hpath, hfollows⟩ := exists_of_forall₂ (List.Forall₂.flip hcommits) hs
      obtain ⟨-, old, newText, hold, -, hnew, hupdated⟩ := hfollows.update htype
      refine ⟨old, horig _ (mem_of_lookup hold), ?_⟩
      have hlookup : r.1.changes.lookup s.path = some e.2 := by
        rw [← hpath]
        exact lookup_of_mem hkeys he
      rw [Commit.newText, hlookup, Option.bind_some, hnew]
      exact hupdated

/-! ## The result -/

theorem encode_injective {a b : Text} (h : encode a = encode b) : a = b := by
  have hdecode : ∀ c : Text, (encode c).utf8Decode? = some c.toArray := by
    intro c
    rw [encode, String.toUTF8_eq_toByteArray, String.toByteArray_ofList, List.utf8Decode?_utf8Encode]
  have harray := (hdecode a).symm.trans ((congrArg _ h).trans (hdecode b))
  simpa using harray

theorem forM_refused {pre post : List Step} (hpre : Leads resolve pre t t') (hs : s.Refused resolve) :
    ∃ r : Raised, r.IsDiff ∧ (pre ++ s :: post).forM (runStep resolve) t = .error (.raised r) t' := by
  obtain ⟨r, hr, hrun⟩ := @runStep_refused resolve t' s hs
  exact ⟨r, hr, (forM_append_of_ok hpre).trans (forM_cons_of_error hrun)⟩

/-- The sections of a patch that was read, one after another. -/
theorem processPatch_eq {text : Text} {commit : Commit} {fuzz : Nat}
    (h : prepare resolve text t = .ok (commit, fuzz)) :
    processPatch resolve text t =
      match commit.steps.forM (runStep resolve) t with
      | .ok _ t' => .ok ("Done!", fuzz, commit) t'
      | .error e t' => .error e t' := by
  simp only [processPatch, bind, EStateM.bind, get_apply, h]
  rw [← applyCommit_eq]
  cases applyCommit resolve commit t <;> rfl

/-- After steps that were not stopped, the places are as prescribed exactly if the
last step at a written place writes what every other one writes. -/
theorem prescribed_iff (h : Leads resolve steps t t') :
    Prescribed resolve steps t t' ↔ ∀ path content place, .write path content ∈ steps →
      resolve path = .inside place → ∃ other, lastAt resolve steps place = some (.write other content) := by
  constructor
  · intro hp path content place hmem hres
    have hleft := hp.written path content place hmem hres
    rw [h.fileAt_eq] at hleft
    cases hlast : lastAt resolve steps place with
    | none => exact absurd (congrArg some hres) (lastAt_eq_none.1 hlast _ hmem)
    | some last =>
      rw [hlast] at hleft
      cases last with
      | write other content' => exact ⟨other, by rw [encode_injective (Option.some.inj hleft)]⟩
      | remove other => cases hleft
      | refuse kind other => cases hleft
  · intro hlast
    refine ⟨fun path content place hmem hres => ?_, fun path place hmem hres hno => ?_, fun place hno => ?_⟩
    · obtain ⟨other, hother⟩ := hlast path content place hmem hres
      rw [h.fileAt_eq, hother]
      rfl
    · rw [h.fileAt_eq]
      cases hl : lastAt resolve steps place with
      | none => exact absurd (congrArg some hres) (lastAt_eq_none.1 hl _ hmem)
      | some last =>
        obtain ⟨hin, hat⟩ := mem_of_lastAt hl
        cases last with
        | write other content => exact absurd (Option.some.inj hat) (hno other content hin)
        | remove other => rfl
        | refuse kind other => rfl
    · rw [h.fileAt_eq, lastAt_eq_none.2 hno]
      rfl

/-- No file is lost exactly if what the patch asks for is compatible. -/
theorem loses_nothing_iff (resolve : Path → Resolution) (text : Text) (w : Workspace) :
    LosesNothing resolve text w ↔ ∀ commit fuzz, prepare resolve text w.tree = .ok (commit, fuzz) →
      Compatible resolve (asked text commit) w.tree := by
  have hspec := @prepare_spec resolve w.tree text
  cases hprep : prepare resolve text w.tree with
  | error e =>
    -- Nothing was prepared, so nothing is written.
    have hrun : processPatch resolve text w.tree = .error e w.tree := by
      simp only [processPatch, bind, EStateM.bind, get_apply, hprep]
      rfl
    rw [hprep] at hspec
    refine ⟨fun _ c f h => (by cases h), fun _ => ?_⟩
    unfold LosesNothing
    rw [hrun]
    cases e with
    | raised r => exact ⟨hspec r rfl, fun _ => rfl⟩
    | fileNotFound => exact trivial
    | os => exact trivial
  | ok r =>
    obtain ⟨commit, fuzz⟩ := r
    rw [hprep] at hspec
    have hcommit : (∀ c f, (Except.ok (commit, fuzz) : Except Failure _) = .ok (c, f) →
        Compatible resolve (asked text c) w.tree) ↔ Compatible resolve commit.steps w.tree := by
      rw [show commit.steps = asked text commit from hspec.steps]
      exact ⟨fun h => h commit fuzz rfl, fun h c f hc => by cases hc; exact h⟩
    rw [hcommit]
    unfold LosesNothing
    rw [processPatch_eq hprep]
    cases hrun : commit.steps.forM (runStep resolve) w.tree with
    | ok u t' =>
      -- No section is refused in a run to the end.
      dsimp only
      rw [and_iff_right hspec.newTexts, ← show commit.steps = asked text commit from hspec.steps, prescribed_iff hrun]
      refine ⟨fun h => ⟨fun _ _ => h, fun pre s post t₁ heq hs hpre => ?_⟩, fun h => h.written t' hrun⟩
      obtain ⟨r, -, hstop⟩ := @forM_refused resolve _ _ _ _ post hpre hs
      rw [← heq, hrun] at hstop
      cases hstop
    | error e t' =>
      have hnoend : ∀ {t₁ : Tree}, ¬ Leads resolve commit.steps w.tree t₁ := by
        intro t₁ hl
        rw [Leads, hrun] at hl
        cases hl
      -- The run stops at a section; those in front of it are done.
      obtain ⟨pre, s, post, t₁, hsteps, hpre, hstop⟩ := forM_error hrun
      obtain ⟨rfl, hraised⟩ := (runStep_spec s).of_error hstop
      cases e with
      | raised e =>
        obtain ⟨hdiff, hs⟩ := hraised e rfl
        dsimp only
        constructor
        · rintro ⟨-, hsame⟩
          refine ⟨fun t₂ hl => absurd hl hnoend, fun pre' s' post' t₂ heq hs' hpre' place last hlast => ?_⟩
          obtain ⟨r, -, hstop'⟩ := @forM_refused resolve _ _ _ _ post' hpre' hs'
          rw [← heq, hrun] at hstop'
          cases hstop'
          have hleft := hpre'.fileAt_eq place
          rw [hlast] at hleft
          rw [← show fileAt t' place = last.leaves from hleft, fileAt, fileAt, hsame]
        · intro hc
          refine ⟨hdiff, Leads.node_eq w hpre (fun path place hmem => ?_) fun q => ?_⟩
          · refine hspec.loaded path place ?_
            rw [hsteps]
            exact List.mem_append_left _ hmem
          · rw [Leads.fileAt_eq hpre]
            cases hlast : lastAt resolve pre q with
            | none => rfl
            | some last => exact hc.refused pre s post t' hsteps hs hpre q last hlast
      | fileNotFound | os =>
        refine ⟨fun _ => ⟨fun t₂ hl => absurd hl hnoend, fun pre' s' post' t₂ heq hs' hpre' => ?_⟩, fun _ => trivial⟩
        obtain ⟨r, -, hstop'⟩ := @forM_refused resolve _ _ _ _ post' hpre' hs'
        rw [← heq, hrun] at hstop'
        cases hstop'

/-- Paths in a workspace without symbolic links. -/
def resolveIn (root : List String) (path : Path) : Resolution :=
  let names := (splitNames path.toList).foldl normStep (if path.toList.head? = some '/' then [] else root)
  if root <+: names then .inside (names.drop root.length) else .outside

def oneFile : Workspace where
  tree := [([], .dir), (["f"], .file (encode "a".toList))]
  closed := by
    intro p n hp q hq
    have hplaces : p = [] ∨ p = ["f"] := by
      by_contra hne
      rw [not_or] at hne
      simp [Tree.node, List.lookup_cons, beq_eq_false_iff_ne.2 hne.1, beq_eq_false_iff_ne.2 hne.2] at hp
    rcases hplaces with rfl | rfl
    · simp [Tree.parents] at hq
    · have : q = [] := by simpa [Tree.parents] using hq
      subst this
      rfl

/-- What a place holds after the steps, if none is stopped. -/
def fileAfter (resolve : Path → Resolution) (steps : List Step) (t : Tree) (place : List String) :
    Option (Option ByteArray) :=
  match steps.forM (runStep resolve) t with
  | .ok _ t' => some (fileAt t' place)
  | .error _ _ => none

theorem leads_of_fileAfter {found : Option ByteArray} (h : fileAfter resolve steps t place = some found) :
    ∃ t', Leads resolve steps t t' ∧ fileAt t' place = found := by
  unfold fileAfter at h
  cases hrun : steps.forM (runStep resolve) t with
  | ok u t' =>
    rw [hrun] at h
    exact ⟨t', hrun, Option.some.inj h⟩
  | error e t' =>
    rw [hrun] at h
    cases h

theorem LosesNothing.prescribed {text : Text} {w : Workspace} {commit : Commit} {fuzz : Nat}
    (h : LosesNothing resolve text w) (hprep : prepare resolve text w.tree = .ok (commit, fuzz))
    (hrun : Leads resolve commit.steps w.tree t') : Prescribed resolve commit.steps w.tree t' := by
  have hspec := (prepare_spec text).of_ok hprep
  unfold LosesNothing at h
  rw [processPatch_eq hprep] at h
  rw [Leads] at hrun
  rw [hrun] at h
  rw [show commit.steps = asked text commit from hspec.steps]
  exact h.2

def movedToItself : Text := "*** Begin Patch\n*** Update File: f\n*** Move to: f\n@@\n-a\n+b\n*** End Patch".toList

/-- A file that is moved to where it is gets lost. -/
theorem moved_to_itself : ¬ ∀ (resolve : Path → Resolution) (text : Text) (w : Workspace),
    LosesNothing resolve text w := by
  intro h
  have hprep : (prepare (resolveIn ["w"]) movedToItself oneFile.tree).toOption.map (fun r => r.1.steps) =
      some [.write "f" "b".toList, .remove "f"] := by
    unfold movedToItself
    rw [String.toList_ofList]
    decide +kernel
  have hafter : fileAfter (resolveIn ["w"]) [.write "f" "b".toList, .remove "f"] oneFile.tree ["f"] = some none := by
    decide +kernel
  obtain ⟨⟨commit, fuzz⟩, hcommit, hsteps⟩ := Option.map_eq_some_iff.1 hprep
  obtain ⟨t', hleads, hgone⟩ := leads_of_fileAfter hafter
  rw [← show commit.steps = _ from hsteps] at hleads
  have hall := (h _ _ _).prescribed (toOption_eq_some hcommit) hleads
  have hmem : Step.write "f" "b".toList ∈ commit.steps := by
    rw [show commit.steps = _ from hsteps]
    exact List.mem_cons_self
  have hkept := hall.written "f" "b".toList ["f"] hmem (by decide +kernel)
  rw [hgone] at hkept
  cases hkept

end Steps

end AgentSdk.ApplyPatch
