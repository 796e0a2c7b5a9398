import AgentSdk.FunctionCalls
import AgentSdk.Lib.Effects
import AgentSdk.Lib.Lines
import AgentSdk.LocalFileStore
import Mathlib.Logic.Function.Basic
/-!
# The file editor

`FileEditor` with its `FileHistoryManager` and `EncodingManager`. Codecs and the
packages that guess what a file is are a parameter. A file is what a path leads to.
-/

namespace AgentSdk.FileEditing
open Lib

abbrev Path := String
abbrev Encoding := String
abbrev Time := Int

/-! ## Encodings -/

/-- A codec that reads what it wrote. -/
structure Codec where
  decode : ByteArray → Option Text
  encode : Text → Option ByteArray
  decode_encode : ∀ t b, encode t = some b → decode b = some t

/-- The codec of `utf-8`; it writes every text. -/
def utf8 : Codec where
  decode b := b.utf8Decode?.map Array.toList
  encode t := some (String.ofList t).toUTF8
  decode_encode := by
    rintro t b ⟨⟩
    rw [String.toUTF8_eq_toByteArray, String.toByteArray_ofList, List.utf8Decode?_utf8Encode]
    rfl

/-- What `charset_normalizer.detect` says; `confident` is above the threshold. -/
structure Guess where
  encoding : Encoding
  confident : Bool

/-- `EncodingManager.default_encoding`. -/
def defaultEncoding : Encoding := "utf-8"

/-- What the editor finds on its host: the codecs, and what the packages make of a file. -/
structure Platform where
  /-- The codecs that Python knows. -/
  codec : Encoding → Option Codec
  codec_default : codec defaultEncoding = some utf8
  /-- The first lines of a file, which is decoded no further than it is read. -/
  firstLines : Encoding → ByteArray → Nat → Option (List Text)
  firstLines_of_decode : ∀ e b t n, (codec e).bind (·.decode b) = some t →
    firstLines e b n = some ((lines (newlines t)).take n)
  detect : ByteArray → Option Guess
  isBinary : Path → ByteArray → Bool
  isHostAbsolutePath : Path → Bool

/-- A file under a named codec; nothing where the codec is unknown or cannot read it. -/
def Platform.decode (p : Platform) (e : Encoding) (b : ByteArray) : Option Text :=
  (p.codec e).bind (·.decode b)

/-- A file opened as text: universal newlines. -/
def Platform.readText (p : Platform) (e : Encoding) (b : ByteArray) : Option Text := (p.decode e b).map newlines

/-- `BINARY_CONTROL_CHARS`. -/
def isControl (c : Char) : Bool := c.toNat ≤ 8 || (14 ≤ c.toNat && c.toNat ≤ 31) || c.toNat = 127

/-- No control characters. -/
def isCleanText (t : Text) : Bool := !t.any isControl

/-- The first megabyte. -/
def sample (b : ByteArray) : ByteArray := b.extract 0 (1024 * 1024)

/-- The byte order mark of UTF-8. -/
def bomUtf8 : ByteArray := ⟨#[0xef, 0xbb, 0xbf]⟩

/-- `str.lower` of a codec's name. -/
def lower (e : Encoding) : Encoding := String.ofList (e.toList.map Char.toLower)

/-- `detect_encoding` on the first megabyte: a mark, then UTF-8, then a confident guess. -/
def detectEncoding (p : Platform) (b : ByteArray) : Encoding :=
  if bomUtf8.toList.isPrefixOf (sample b).toList then "utf-8-sig"
  else if (utf8.decode (sample b)).isSome then defaultEncoding
  else
    match p.detect (sample b) with
    | some g => if g.confident then if lower g.encoding = "ascii" then defaultEncoding else g.encoding else defaultEncoding
    | none => defaultEncoding

/-- `TEXT_DECODE_CANDIDATES`, in the order in which they are tried. -/
def textDecodeCandidates : List Encoding := ["utf-8", "cp1252", "latin-1", "cp1251"]

/-- `TEXT_DECODE_ALIASES`: other names for the candidates. -/
def textDecodeAliases : List (Encoding × Encoding) :=
  [("windows-1251", "cp1251"), ("windows-1252", "cp1252"), ("iso-8859-1", "latin-1"), ("iso-8859-15", "latin-1")]

/-- The best guess, when it is one of the candidates under its own name or an alias. -/
def bestGuessEncoding (p : Platform) (b : ByteArray) : Option Encoding := do
  let g ← p.detect (sample b)
  let normalized := String.ofList ((lower g.encoding).toList.map fun c => if c = '_' then '-' else c)
  match textDecodeAliases.lookup normalized with
  | some e => some e
  | none => if normalized ∈ textDecodeCandidates then some normalized else none

/-- The first candidate that reads the file as clean text; what a candidate says
again changes nothing. -/
def recoverEncoding (p : Platform) (b : ByteArray) : Option Encoding :=
  (defaultEncoding :: (bestGuessEncoding p b).toList ++ textDecodeCandidates).find? fun e =>
    (p.readText e b).any isCleanText

/-- `get_encoding` for a file that is not in the cache. -/
def freshEncoding (p : Platform) (b : ByteArray) : Encoding :=
  if detectEncoding p b = defaultEncoding then (recoverEncoding p b).getD defaultEncoding else detectEncoding p b

/-! ## The history -/

/-- The numbers of the entries that a path has, and the next number. -/
structure Metadata where
  entries : List Nat := []
  counter : Nat := 0
deriving DecidableEq

/-- A value of the cache: the text of an entry, or the metadata of a path. -/
inductive CacheValue where
  | text (t : Text)
  | metadata (m : Metadata)
deriving DecidableEq

/-- `FileCache`: values by their keys. -/
abbrev FileCache := String → Option CacheValue

namespace FileCache

/-- A path without metadata has no entries. -/
def getMetadata (h : FileCache) (path : Path) : Metadata :=
  match h (path ++ ".metadata") with
  | some (.metadata m) => m
  | _ => {}

/-- The metadata of a path is written under its own key. -/
def setMetadata (h : FileCache) (path : Path) (m : Metadata) : FileCache :=
  Function.update h (path ++ ".metadata") (some (.metadata m))

/-- `_get_history_key`. -/
def historyKey (path : Path) (counter : Nat) : String := path ++ "." ++ toString counter

/-- The entry under a key. -/
def getText (h : FileCache) (key : String) : Option Text :=
  match h key with
  | some (.text t) => some t
  | _ => none

/-- Only the last entries are kept. -/
def trim (maxHistory : Nat) (path : Path) : List Nat → FileCache → List Nat × FileCache
  | [], h => ([], h)
  | n :: ns, h =>
    if maxHistory < (n :: ns).length then trim maxHistory path ns (Function.update h (historyKey path n) none)
    else (n :: ns, h)

/-- `add_history`: the new entry is written first, then old ones are dropped. -/
def addHistory (maxHistory : Nat) (path : Path) (content : Text) (h : FileCache) : FileCache :=
  let m := getMetadata h path
  let h := Function.update h (historyKey path m.counter) (some (.text content))
  let (entries, h) := trim maxHistory path (m.entries ++ [m.counter]) h
  setMetadata h path ⟨entries, m.counter + 1⟩

/-- `pop_last_history`: an entry that is gone from the cache is dropped all the same. -/
def popLastHistory (path : Path) (h : FileCache) : Option Text × FileCache :=
  let m := getMetadata h path
  match m.entries.getLast? with
  | none => (none, h)
  | some last =>
    let key := historyKey path last
    match getText h key with
    | none => (none, setMetadata h path { m with entries := m.entries.dropLast })
    | some content => (some content, setMetadata (Function.update h key none) path { m with entries := m.entries.dropLast })

end FileCache

/-! ## The editor -/

/-- A file's bytes and the time of its last change. -/
structure File where
  bytes : ByteArray
  modified : Time
deriving DecidableEq

/-- What a path leads to. -/
inductive Node where
  | file (f : File)
  | dir
deriving DecidableEq

/-- The editor with the files that it sees. -/
structure FileEditor where
  maxFileSize : Nat := 10 * 1024 * 1024
  maxHistory : Nat := 10
  nodes : Path → Option Node := fun _ => none
  /-- The encoding cache. -/
  encodings : Path → Option (Encoding × Time) := fun _ => none
  history : FileCache := fun _ => none

/-- The errors of a command, with what their texts are made of. -/
inductive ToolError where
  | parameterMissing (command parameter : String)
  | notAbsolute (path : Path)
  | alreadyExists (path : Path)
  | doesNotExist (path : Path)
  | isDirectory (path : Path)
  | sameStrings
  | insertLine (value : Int) (numLines : Nat)
  | tooLarge (path : Path) (fileSize : Nat)
  | binary (path : Path)
  | reading (path : Path)
  | writing (path : Path)
  | noOccurrence (oldStr : Text) (path : Path)
  | multipleOccurrences (oldStr : Text) (lineNumbers : List Nat)
  | noHistory (path : Path)
  /-- An error of the codec that is not caught. -/
  | codec
deriving DecidableEq

/-- The commands that write; `view` is left out. -/
inductive Command where
  | create (fileText : Option Text)
  | strReplace (oldStr newStr : Option Text)
  | insert (insertLine : Option Int) (newStr : Option Text)
  | undoEdit
deriving DecidableEq

/-- The name under which a command is called. -/
def Command.name : Command → String
  | .create _ => "create"
  | .strReplace _ _ => "str_replace"
  | .insert _ _ => "insert"
  | .undoEdit => "undo_edit"

/-- The contents that an observation reports. -/
structure Observation where
  oldContent : Option Text := none
  newContent : Text
deriving DecidableEq

/-- What happens around a command: whether the temporary file can be written and
put in place, and the time that the file then has. -/
structure Moment where
  writable : Bool := true
  now : Time

/-- A command keeps what it changed before it raised. -/
abbrev Edits := EStateM ToolError FileEditor

/-- `IMAGE_EXTENSIONS`: binary files that are shown all the same. -/
def imageExtensions : List String := [".png", ".jpg", ".jpeg", ".gif", ".webp", ".bmp"]

/-- `path.suffix`. -/
def suffix (path : Path) : String :=
  let name := (path.toList.splitOn '/').getLast?.getD []
  let stem := name.rdropWhile (· ≠ '.')
  let tail := name.rtakeWhile (· ≠ '.')
  if 1 < stem.length ∧ tail ≠ [] then String.ofList ('.' :: tail) else ""

/-- A file is an image by its name. -/
def isImage (path : Path) : Bool := decide (lower (suffix path) ∈ imageExtensions)

section Model
variable (p : Platform)

/-- The cached encoding of a file, as long as the file was not changed. -/
def FileEditor.encodingOf (s : FileEditor) (path : Path) (f : File) : Encoding :=
  match s.encodings path with
  | some (e, modified) => if modified = f.modified then e else freshEncoding p f.bytes
  | none => freshEncoding p f.bytes

/-- `get_encoding`, which remembers what it found. -/
def getEncoding (path : Path) (f : File) : Edits Encoding := do
  let e := (← get).encodingOf p path f
  modify fun s => { s with encodings := Function.update s.encodings path (some (e, f.modified)) }
  return e

/-- `validate_file`: no file that is too large or binary; a path without a file passes. -/
def validateFile (path : Path) : Edits Unit := do
  match (← get).nodes path with
  | some (.file f) =>
    if (← get).maxFileSize < f.bytes.size then throw (.tooLarge path f.bytes.size)
    if p.isBinary path f.bytes && !isImage path then
      let e ← getEncoding p path f
      if !(p.readText e f.bytes).any isCleanText then throw (.binary path)
  | _ => return

/-- `open` of a file; the decorator has found its encoding. -/
def withFile {α : Type} (path : Path) (read : File → Encoding → Edits α) : Edits α := do
  match (← get).nodes path with
  | some (.file f) =>
    let e ← getEncoding p path f
    validateFile p path
    read f e
  | _ => throw (.reading path)

/-- `read_file` of a whole file. -/
def readFile (path : Path) : Edits Text :=
  withFile p path fun f e =>
    match p.readText e f.bytes with
    | some t => return t
    | none => throw (.reading path)

/-- The lines from `start` to `stop`, counted from one. -/
def readLines (path : Path) (start stop : Nat) : Edits Text :=
  withFile p path fun f e =>
    match p.firstLines e f.bytes stop with
    | some ls => return (ls.drop (start - 1)).flatten
    | none => throw (.reading path)

/-- The encoding and the bytes in which a text is written: the file's encoding, or
UTF-8 where that cannot represent the text. -/
def encodeText (e : Encoding) (text : Text) : Option (Encoding × ByteArray) :=
  match p.codec e with
  | none => none
  | some c =>
    match c.encode text with
    | some b => some (e, b)
    | none => if e = defaultEncoding then none else (utf8.encode text).map fun b => (defaultEncoding, b)

/-- `_atomic_write`: the temporary file takes the place of the old one, or nothing is written. -/
def atomicWrite (m : Moment) (path : Path) (text : Text) (e : Encoding) : Edits Unit :=
  match encodeText p e text with
  | none => throw (.writing path)
  | some (_, bytes) =>
    if m.writable then
      modify fun s => { s with nodes := Function.update s.nodes path (some (.file ⟨bytes, m.now⟩)) }
    else throw (.writing path)

/-- `write_file`; a file that is not there yet is written in the default encoding. -/
def writeFile (m : Moment) (path : Path) (text : Text) : Edits Unit := do
  match (← get).nodes path with
  | some (.file f) =>
    let e ← getEncoding p path f
    validateFile p path
    atomicWrite p m path text e
  | some .dir => throw (.writing path)
  | none => atomicWrite p m path text defaultEncoding

/-- The history of the editor after one more entry. -/
def addHistory (path : Path) (content : Text) : Edits Unit :=
  modify fun s => { s with history := FileCache.addHistory s.maxHistory path content s.history }

/-- `SNIPPET_CONTEXT_WINDOW`. -/
def snippetContextWindow : Nat := 4

/-- The line on which a place lies, counted from one. -/
def lineOf (t : Text) (place : Nat) : Nat := (t.take place).count '\n' + 1

/-- The string that is looked for and the places at which it is found. -/
def findOld (t oldStr : Text) : Text × List Nat :=
  if matchesOf oldStr t = [] then (strip oldStr, matchesOf (strip oldStr) t) else (oldStr, matchesOf oldStr t)

/-- Sorted, without repetitions; the places come in order. -/
def lineNumbers (t : Text) (places : List Nat) : List Nat := (places.map (lineOf t)).dedup

/-- `str_replace`. The lines of the snippet are read after the edit, which stays where that raises. -/
def strReplace (m : Moment) (path : Path) (oldStr newStr : Text) : Edits Observation := do
  validateFile p path
  let fileContent ← readFile p path
  match findOld fileContent oldStr with
  | (old, []) => throw (.noOccurrence old path)
  | (old, [idx]) =>
    let newContent := fileContent.take idx ++ newStr ++ fileContent.drop (idx + old.length)
    writeFile p m path newContent
    addHistory path fileContent
    let line := lineOf fileContent idx
    let _ ← readLines p path (line - snippetContextWindow + 1) (line + snippetContextWindow + newStr.count '\n')
    return ⟨some fileContent, newContent⟩
  | (old, places) => throw (.multipleOccurrences old (lineNumbers fileContent places))

/-- `insert`. The entry of the history is added after the file was written and the snippet was read. -/
def insert (m : Moment) (path : Path) (insertLine : Int) (newStr : Text) : Edits Observation := do
  match (← get).nodes path with
  | some (.file f) =>
    let e ← getEncoding p path f
    validateFile p path
    match p.readText e f.bytes with
    | none => throw .codec
    | some text =>
      let numLines := (lines text).length
      if insertLine < 0 ∨ insertLine > numLines then throw (.insertLine insertLine numLines)
      let k := insertLine.toNat
      let newLines := (newStr.splitOn '\n').map (· ++ ['\n'])
      writeFile p m path ((lines text).take k ++ newLines ++ (lines text).drop k).flatten
      let _ ← readLines p path (k - snippetContextWindow + 1)
        (min (numLines + newLines.length) (k + snippetContextWindow + newLines.length))
      addHistory path ((lines text).take k ++ (lines text).drop k).flatten
      let newText ← readFile p path
      return ⟨some ((lines text).take k ++ (lines text).drop k).flatten, newText⟩
  | _ => throw .codec

/-- `undo_edit`. The entry is taken from the history before the file is written. -/
def undoEdit (m : Moment) (path : Path) : Edits Observation := do
  let currentText ← readFile p path
  let (oldText, history) := FileCache.popLastHistory path (← get).history
  modify fun s => { s with history }
  match oldText with
  | none => throw (.noHistory path)
  | some oldText =>
    writeFile p m path oldText
    return ⟨some currentText, oldText⟩

/-- `validate_path`: only `create` wants a path that is not there. -/
def validatePath (command : Command) (path : Path) : Edits Unit := do
  if !p.isHostAbsolutePath path then throw (.notAbsolute path)
  match command, (← get).nodes path with
  | .create _, some _ => throw (.alreadyExists path)
  | .create _, none => return
  | _, none => throw (.doesNotExist path)
  | _, some .dir => throw (.isDirectory path)
  | _, some (.file _) => return

/-- `__call__`. -/
def call (m : Moment) (path : Path) (command : Command) : Edits Observation := do
  validatePath p command path
  match command with
  | .create none => throw (.parameterMissing "create" "file_text")
  | .create (some fileText) => do
    writeFile p m path fileText
    addHistory path fileText
    return ⟨none, fileText⟩
  | .strReplace none _ => throw (.parameterMissing "str_replace" "old_str")
  | .strReplace (some _) none => throw (.parameterMissing "str_replace" "new_str")
  | .strReplace (some oldStr) (some newStr) =>
    if newStr = oldStr then throw .sameStrings else strReplace p m path oldStr newStr
  | .insert none _ => throw (.parameterMissing "insert" "insert_line")
  | .insert (some _) none => throw (.parameterMissing "insert" "new_str")
  | .insert (some k) (some newStr) => insert p m path k newStr
  | .undoEdit => undoEdit p m path

end Model

end AgentSdk.FileEditing
