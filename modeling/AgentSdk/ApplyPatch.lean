import AgentSdk.FunctionCalls
import AgentSdk.Lib.Dict
import AgentSdk.Lib.Hunks
import AgentSdk.Lib.Result
import AgentSdk.Lib.Slices
/-!
# Patches

The pure part of the `apply_patch` tool: a patch is parsed against the files that
it names, the places of its hunks are searched, and the updated files are put
together. Positions are integers, as in Python.
-/

namespace AgentSdk.ApplyPatch
open Lib

abbrev Path := String

/-- `ActionType`: what a section of the patch does to its file. -/
inductive ActionType where
  | add
  | delete
  | update
deriving DecidableEq

/-- `f"{action.type}"`. -/
def ActionType.str : ActionType → String
  | .add => "ActionType.ADD"
  | .delete => "ActionType.DELETE"
  | .update => "ActionType.UPDATE"

/-- What is to become of a file. -/
structure FileChange where
  type : ActionType
  oldContent : Option Text := none
  newContent : Option Text := none
  movePath : Option Path := none
deriving DecidableEq

/-- The changes of a patch, each under the path of its file. -/
structure Commit where
  changes : List (Path × FileChange) := []
deriving DecidableEq

/-- Lines that are taken away at a place, and those that are put there. -/
structure Chunk where
  origIndex : Int := -1
  delLines : List Text := []
  insLines : List Text := []
deriving DecidableEq

/-- The section of one file. -/
structure PatchAction where
  type : ActionType
  newFile : Option Text := none
  chunks : List Chunk := []
  movePath : Option Path := none
deriving DecidableEq

/-- `Patch`: the sections by their paths. -/
structure Patch where
  actions : List (Path × PatchAction) := []
deriving DecidableEq

/-- What the code raises; `outOfFuel` is that a loop was given too few rounds. -/
inductive Raised where
  | diffError (message : String)
  | indexError
  | keyError
  | outOfFuel
deriving DecidableEq

/-- `Parser` with the lines of the patch and the files that it is for. -/
structure Parser where
  currentFiles : List (Path × Text) := []
  lines : List Text := []
  index : Nat := 0
  patch : Patch := {}
  fuzz : Nat := 0

/-- A function of the parser, which raises or returns. -/
abbrev Parses := Except Raised

/-- `raise DiffError(message)`. -/
def diffError {α : Type} (message : String) : Parses α := .error (.diffError message)

/-- The last line of a patch. -/
def endPatch : Text := "*** End Patch".toList
/-- The marks in front of a path. -/
def updateFile : Text := "*** Update File: ".toList
def deleteFile : Text := "*** Delete File: ".toList
def addFile : Text := "*** Add File: ".toList
def moveTo : Text := "*** Move to: ".toList
def endOfFile : Text := "*** End of File".toList

/-- What ends the sections of a file. -/
def fileMarks : List Text :=
  [endPatch, "*** Update File:".toList, "*** Delete File:".toList, "*** Add File:".toList, endOfFile]

/-- `line.startswith(prefixes)`. -/
def startsWithAny (line : Text) (marks : List Text) : Bool := marks.any fun m => m.isPrefixOf line

/-- `lines[i]`. -/
def lineAt (lines : List Text) (i : Nat) : Parses Text :=
  match lines[i]? with
  | some line => .ok line
  | none => .error .indexError

/-- `"\n".join(lines)`. -/
def joinLines (lines : List Text) : Text := List.intercalate ['\n'] lines

/-! ## Where a context stands -/

/-- One of the loops of `find_context_core`: the lines are compared by `key`. -/
def searchContext (key : Text → Text) (lines context : List Text) (start : Int) : Option Int :=
  (rangeInt start lines.length).find? fun i =>
    (slice lines i (i + context.length)).map key == context.map key

/-- `-1` means that it was not found. -/
def findContextCore (lines context : List Text) (start : Int) : Int × Nat :=
  if context.isEmpty then (start, 0)
  else
    match searchContext id lines context start with
    | some i => (i, 0)
    | none =>
      match searchContext rstrip lines context start with
      | some i => (i, 1)
      | none =>
        match searchContext strip lines context start with
        | some i => (i, 100)
        | none => (-1, 0)

/-- `find_context`: at the end of the file first, if the section says so. -/
def findContext (lines context : List Text) (start : Int) (eof : Bool) : Int × Nat :=
  if eof then
    let (newIndex, fuzz) := findContextCore lines context (lines.length - context.length)
    if newIndex ≠ -1 then (newIndex, fuzz)
    else
      let (newIndex, fuzz) := findContextCore lines context start
      (newIndex, fuzz + 10000)
  else findContextCore lines context start

/-! ## Sections -/

/-- What the last line of a section was. -/
inductive Mode where
  | keep
  | add
  | delete
deriving DecidableEq

/-- The state of the loop of `peek_next_section`. -/
structure Peek where
  old : List Text := []
  delLines : List Text := []
  insLines : List Text := []
  chunks : List Chunk := []
  mode : Mode := .keep
  index : Nat

/-- The chunk that is being read, if it changes anything. -/
def Peek.flush (st : Peek) : Peek :=
  { st with
    chunks := if !st.insLines.isEmpty || !st.delLines.isEmpty then
        st.chunks ++ [⟨st.old.length - st.delLines.length, st.delLines, st.insLines⟩]
      else st.chunks
    delLines := []
    insLines := [] }

/-- How a line of a section is read; an empty one is an empty line of context. -/
def readMode : Text → Option (Mode × Text)
  | [] => some (.keep, [])
  | '+' :: s => some (.add, s)
  | '-' :: s => some (.delete, s)
  | ' ' :: s => some (.keep, s)
  | _ => none

/-- A line is taken over; a context line closes the chunk in front of it. -/
def Peek.take (st : Peek) (mode : Mode) (s : Text) : Peek :=
  let st' := if mode = .keep ∧ st.mode ≠ mode then st.flush else st
  let st' := { st' with mode := mode, index := st.index + 1 }
  match mode with
  | .delete => { st' with delLines := st'.delLines ++ [s], old := st'.old ++ [s] }
  | .add => { st' with insLines := st'.insLines ++ [s] }
  | .keep => { st' with old := st'.old ++ [s] }

/-- A line that no section can have. -/
def invalidLine {α : Type} (s : Text) : Parses α := diffError ("Invalid Line: " ++ String.ofList s)

/-- The loop of `peek_next_section`, over the lines that are left. -/
def peekLoop : List Text → Peek → Parses Peek
  | [], st => .ok st
  | s :: rest, st =>
    if startsWithAny s ("@@".toList :: fileMarks) then .ok st
    else if s = "***".toList then .ok st
    else if "***".toList.isPrefixOf s then invalidLine s
    else
      match readMode s with
      | some (mode, s) => peekLoop rest (st.take mode s)
      | none => invalidLine s

/-- `peek_next_section`: the lines it replaces, its chunks, and where it ends. -/
def peekNextSection (lines : List Text) (index : Nat) : Parses (List Text × List Chunk × Nat × Bool) := do
  let st ← peekLoop (lines.drop index) { index := index }
  let st := st.flush
  if lines[st.index]? = some endOfFile then
    return (st.old, st.chunks, st.index + 1, true)
  if st.index = index then
    let line ← lineAt lines st.index
    diffError ("Nothing in this section - index=" ++ toString st.index ++ " " ++ String.ofList line)
  else
    return (st.old, st.chunks, st.index, false)

/-! ## The parser -/

namespace Parser

/-- `is_done`: the end of the lines, or one of these marks. -/
def isDone (p : Parser) (marks : List Text) : Bool :=
  match p.lines[p.index]? with
  | none => true
  | some line => startsWithAny line marks

/-- The error of a patch that stops too soon. -/
def unexpectedEnd {α : Type} (p : Parser) : Parses α :=
  diffError ("Unexpected end of patch at index " ++ toString p.index)

/-- `startswith`, which raises at the end of the lines. -/
def startsWith (p : Parser) (mark : Text) : Parses Bool :=
  match p.lines[p.index]? with
  | none => p.unexpectedEnd
  | some line => .ok (mark.isPrefixOf line)

/-- The rest of a line with the mark, which is then read. -/
def readStr (p : Parser) (mark : Text) : Parses (Text × Parser) :=
  match p.lines[p.index]? with
  | none => p.unexpectedEnd
  | some line =>
    if mark.isPrefixOf line then .ok (line.drop mark.length, { p with index := p.index + 1 }) else .ok ([], p)

/-- An anchor that is not in the lines before `index` is searched after it. -/
def seekBy (key : Text → Text) (lines : List Text) (index : Int) (anchor : Text) : Option Int :=
  if (slice lines 0 index).any fun s => key s == key anchor then none
  else
    ((slice lines index lines.length).findIdx? fun s => key s == key anchor).map fun (i : Nat) => index + i + 1

/-- The line after the anchor, and the fuzz of finding it. -/
def seekAnchor (lines : List Text) (index : Int) (anchor : Text) : Int × Nat :=
  if (strip anchor).isEmpty then (index, 0)
  else
    match seekBy id lines index anchor with
    | some i => (i, 0)
    | none =>
      match seekBy strip lines index anchor with
      | some i => (i, 1)
      | none => (index, 0)

/-- The anchor of a section: `@@ ` with a text, or `@@` alone. -/
def readAnchor (p : Parser) (index : Int) : Parses (Text × Parser) := do
  let (defStr, p) ← p.readStr "@@ ".toList
  if defStr.isEmpty then
    let line ← lineAt p.lines p.index
    if line = "@@".toList then
      return (defStr, { p with index := p.index + 1 })
    if index ≠ 0 then
      diffError ("Invalid Line:\n" ++ String.ofList line)
    else
      return (defStr, p)
  else
    return (defStr, p)

/-- One section of an update: the parser after it, the line of the file after it,
and its chunks. -/
def readSection (p : Parser) (lines : List Text) (index : Int) : Parses (Parser × Int × List Chunk) := do
  let (defStr, p) ← p.readAnchor index
  let (index, anchorFuzz) := seekAnchor lines index defStr
  let (context, chunks, endPatchIndex, eof) ← peekNextSection p.lines p.index
  let (newIndex, fuzz) := findContext lines context index eof
  if newIndex = -1 then
    diffError ((if eof then "Invalid EOF Context " else "Invalid Context ") ++ toString index ++ ":\n" ++
      String.ofList (joinLines context))
  else
    return ({ p with fuzz := p.fuzz + anchorFuzz + fuzz, index := endPatchIndex }, newIndex + context.length,
      chunks.map fun ch => { ch with origIndex := ch.origIndex + newIndex })

/-- The loop of `parse_update_file`. -/
def updateLoop (lines : List Text) : Nat → Parser → Int → List Chunk → Parses (PatchAction × Parser)
  | 0, _, _, _ => .error .outOfFuel
  | fuel + 1, p, index, chunks =>
    if p.isDone fileMarks then .ok ({ type := .update, chunks := chunks }, p)
    else do
      let (p, index, more) ← p.readSection lines index
      updateLoop lines fuel p index (chunks ++ more)

/-- `parse_update_file`. -/
def parseUpdateFile (fuel : Nat) (p : Parser) (text : Text) : Parses (PatchAction × Parser) :=
  updateLoop (text.splitOn '\n') fuel p 0 []

/-- The loop of `parse_add_file`. -/
def addLoop : Nat → Parser → List Text → Parses (PatchAction × Parser)
  | 0, _, _ => .error .outOfFuel
  | fuel + 1, p, lines =>
    if p.isDone [endPatch, "*** Update File:".toList, "*** Delete File:".toList, "*** Add File:".toList] then
      .ok ({ type := .add, newFile := some (joinLines lines) }, p)
    else do
      let (s, p) ← p.readStr []
      match s with
      | '+' :: s => addLoop fuel p (lines ++ [s])
      | s => diffError ("Invalid Add File Line: " ++ String.ofList s)

/-- `parse_add_file`. -/
def parseAddFile (fuel : Nat) (p : Parser) : Parses (PatchAction × Parser) := addLoop fuel p []

/-- `self.patch.actions[path] = action`. -/
def setAction (p : Parser) (path : Path) (action : PatchAction) : Parser :=
  { p with patch := ⟨dictSet p.patch.actions path action⟩ }

/-- A path that leaves the directory. -/
def invalidMove (moveTo : Text) : Bool := "..".toList ∈ moveTo.splitOn '/' || "/".toList.isPrefixOf moveTo

/-- The section of a file that is changed, and perhaps moved. -/
def parseUpdate (fuel : Nat) (p : Parser) (path : Path) : Parses Parser := do
  if path ∈ p.patch.actions.map Prod.fst then
    diffError ("Update File Error: Duplicate Path: " ++ path)
  let (move, p) ← p.readStr moveTo
  if !move.isEmpty && invalidMove move then
    diffError ("Update File Error: Invalid move path '" ++ String.ofList move ++
      "': must be a relative path without '..' components")
  match p.currentFiles.lookup path with
  | none => diffError ("Update File Error: Missing File: " ++ path)
  | some text =>
    let (action, p) ← p.parseUpdateFile fuel text
    return p.setAction path { action with movePath := some (String.ofList move) }

/-- The section of a file that is deleted. -/
def parseDelete (p : Parser) (path : Path) : Parses Parser :=
  if path ∈ p.patch.actions.map Prod.fst then diffError ("Delete File Error: Duplicate Path: " ++ path)
  else if (p.currentFiles.lookup path).isNone then diffError ("Delete File Error: Missing File: " ++ path)
  else .ok (p.setAction path { type := .delete })

/-- The section of a new file. -/
def parseAdd (fuel : Nat) (p : Parser) (path : Path) : Parses Parser := do
  if path ∈ p.patch.actions.map Prod.fst then
    diffError ("Add File Error: Duplicate Path: " ++ path)
  let (action, p) ← p.parseAddFile fuel
  return p.setAction path action

/-- One round of `parse`: the section of a file. -/
def parseFile (fuel : Nat) (p : Parser) : Parses Parser := do
  let (path, p) ← p.readStr updateFile
  if !path.isEmpty then
    return ← p.parseUpdate fuel (String.ofList path)
  let (path, p) ← p.readStr deleteFile
  if !path.isEmpty then
    return ← p.parseDelete (String.ofList path)
  let (path, p) ← p.readStr addFile
  if !path.isEmpty then
    return ← p.parseAdd fuel (String.ofList path)
  let line ← lineAt p.lines p.index
  diffError ("Unknown Line: " ++ String.ofList line)

/-- The loop of `parse`, and the end of the patch. -/
def parse : Nat → Parser → Parses Parser
  | 0, _ => .error .outOfFuel
  | fuel + 1, p =>
    if p.isDone [endPatch] then do
      if !(← p.startsWith endPatch) then
        diffError "Missing End Patch"
      else
        return { p with index := p.index + 1 }
    else do
      parse fuel (← p.parseFile fuel)

end Parser

/-! ## Applying a patch -/

/-- The lines of a patch. -/
def patchLines (text : Text) : List Text := (strip text).splitOn '\n'

/-- `text_to_patch`; the number says how far contexts had to be bent. -/
def textToPatch (fuel : Nat) (text : Text) (orig : List (Path × Text)) : Parses (Patch × Nat) := do
  let lines := patchLines text
  if lines.length < 2 || !startsWithAny (lines.headD []) ["*** Begin Patch".toList] || lines.getLast? ≠ some endPatch then
    diffError "Invalid patch text"
  else
    let p ← Parser.parse fuel { currentFiles := orig, lines := lines, index := 1 }
    return (p.patch, p.fuzz)

/-- The state of the loop of `_get_updated_file`. -/
structure Dest where
  lines : List Text := []
  origIndex : Int := 0
  destIndex : Int := 0

/-- One round of the loop: what is between two chunks stays. -/
def Dest.apply (path : Path) (origLines : List Text) (d : Dest) (chunk : Chunk) : Parses Dest :=
  if chunk.origIndex > origLines.length then
    diffError ("_get_updated_file: " ++ path ++ ": chunk.orig_index " ++ toString chunk.origIndex ++ " > len(lines) " ++
      toString origLines.length)
  else if d.origIndex > chunk.origIndex then
    diffError ("_get_updated_file: " ++ path ++ ": orig_index " ++ toString d.origIndex ++ " > chunk.orig_index " ++
      toString chunk.origIndex)
  else
    .ok { lines := d.lines ++ slice origLines d.origIndex chunk.origIndex ++ chunk.insLines
          origIndex := chunk.origIndex + chunk.delLines.length
          destIndex := d.destIndex + (chunk.origIndex - d.origIndex) + chunk.insLines.length }

/-- `_get_updated_file`. -/
def getUpdatedFile (text : Text) (action : PatchAction) (path : Path) : Parses Text :=
  if action.type ≠ .update then
    diffError ("_get_updated_file: expected UPDATE action for '" ++ path ++ "', got " ++ action.type.str)
  else do
    let origLines := text.splitOn '\n'
    let d ← action.chunks.foldlM (Dest.apply path origLines) {}
    let destLines := d.lines ++ slice origLines d.origIndex origLines.length
    let delta := origLines.length - d.origIndex
    if d.origIndex + delta ≠ origLines.length then
      diffError ("_get_updated_file: " ++ path ++ ": did not consume all original lines (orig_index=" ++
        toString (d.origIndex + delta) ++ ", len=" ++ toString origLines.length ++ ")")
    else if d.destIndex + delta ≠ destLines.length then
      diffError ("_get_updated_file: " ++ path ++ ": dest line count mismatch (dest_index=" ++
        toString (d.destIndex + delta) ++ ", len=" ++ toString destLines.length ++ ")")
    else
      return joinLines destLines

/-- `orig[path]`. -/
def original (orig : List (Path × Text)) (path : Path) : Parses Text :=
  match orig.lookup path with
  | some text => .ok text
  | none => .error .keyError

/-- What a section makes of its file. -/
def changeOf (orig : List (Path × Text)) (path : Path) (action : PatchAction) : Parses FileChange :=
  match action.type with
  | .delete => do
    let text ← original orig path
    return { type := .delete, oldContent := some text }
  | .add => return { type := .add, newContent := action.newFile }
  | .update => do
    let text ← original orig path
    let newContent ← getUpdatedFile text action path
    return { type := .update, oldContent := some text, newContent := some newContent, movePath := action.movePath }

/-- `patch_to_commit`, section by section. -/
def patchToCommit (patch : Patch) (orig : List (Path × Text)) : Parses Commit :=
  patch.actions.foldlM (fun commit e => do
    let change ← changeOf orig e.1 e.2
    return ⟨dictSet commit.changes e.1 change⟩) {}

end AgentSdk.ApplyPatch
