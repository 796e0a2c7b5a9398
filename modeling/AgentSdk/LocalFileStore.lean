import AgentSdk.Lib.Result
import AgentSdk.Lib.Runs
import AgentSdk.Lib.Text
import AgentSdk.MemoryCache
import Mathlib
/-!
# The local file store

`LocalFileStore`: text and binary files under a root directory, with the texts
in a memory cache. Paths are lists of names; the files and directories below
the root are a list of which no path occurs twice.
-/

namespace AgentSdk
open Lib

/-! ## Paths -/

/-- An absolute path. POSIX keeps two leading slashes apart from one. -/
structure FullPath where
  doubleSlash : Bool := false
  names : List String
deriving DecidableEq

/-- `os.path.normpath`, name by name, from the names so far. -/
def normStep (names : List String) (name : String) : List String :=
  if name = "" ∨ name = "." then names
  else if name = ".." then names.dropLast
  else names ++ [name]

/-- `to_posix_path`. -/
def toPosixPath (path : List Char) : List Char := path.map fun c => if c = '\\' then '/' else c

def splitNames (path : List Char) : List String := (path.splitOn '/').map String.ofList

/-- `get_full_path` without the check, for the root's names. -/
def joinRoot (root : List String) (path : String) : FullPath :=
  let path := if path.toList.head? = some '/' then path.toList.tail else path.toList
  let path := toPosixPath path
  if path.head? = some '/' then
    ⟨['/', '/'] <+: path ∧ ¬ ['/', '/', '/'] <+: path, (splitNames path).foldl normStep []⟩
  else ⟨false, (splitNames path).foldl normStep root⟩

inductive FileError where
  | escapesRoot (path : String)
  | fileNotFound (path : String)
  | isADirectory
  | notADirectory
  | decode
deriving DecidableEq

/-- Where a path lies below the root. -/
def FullPath.below (full : FullPath) (root : List String) : List String := full.names.drop root.length

/-! ## Files -/

inductive Node where
  | file (contents : ByteArray)
  | dir
deriving DecidableEq

/-- The files and directories at and below the root, by their names from there. -/
abbrev Tree := List (List String × Node)

namespace Tree

def node (t : Tree) (p : List String) : Option Node := t.lookup p

def set (t : Tree) (p : List String) (n : Node) : Tree := t.filter (·.1 ≠ p) ++ [(p, n)]

def isDir (t : Tree) (p : List String) : Bool := t.node p = some .dir

def makedir (t : Tree) (p : List String) : Except FileError Tree :=
  match t.node p with
  | none => .ok (t.set p .dir)
  | some .dir => .ok t
  | some (.file _) => .error .notADirectory

/-- The directories above a path, from the root on. -/
def parents (p : List String) : List (List String) := p.inits.filter (· ≠ p)

/-- `os.makedirs` of a path's directory; a file in the way stops it before
anything is made. -/
def makedirs (t : Tree) (p : List String) : Except FileError Tree := (parents p).foldlM makedir t

/-- A file appears under its name with all of its contents. -/
def writeFile (t : Tree) (p : List String) (contents : ByteArray) : Except FileError Tree :=
  if t.isDir p then .error .isADirectory else .ok (t.set p (.file contents))

/-- `shutil.rmtree` and `os.remove`. -/
def remove (t : Tree) (p : List String) : Tree := t.filter fun e => ¬ p <+: e.1

/-- `os.listdir`. -/
def listdir (t : Tree) (p : List String) : List String :=
  t.filterMap fun e =>
    match e.1.getLast? with
    | some name => if e.1.dropLast = p then some name else none
    | none => none

end Tree

/-- What a text file is read as. -/
def readText (contents : ByteArray) : Except FileError (List Char) :=
  match contents.utf8Decode? with
  | some cs => .ok (newlines cs.toList)
  | none => .error .decode

/-! ## The store -/

inductive Contents where
  | text (t : List Char)
  | bytes (b : ByteArray)
deriving DecidableEq

def Contents.encode : Contents → ByteArray
  | .text t => (String.ofList t).toUTF8
  | .bytes b => b

structure LocalFileStore where
  root : List String
  tree : Tree := [([], .dir)]
  cache : MemoryLRUCache FullPath

namespace LocalFileStore

/-- `get_full_path`. -/
def getFullPath (s : LocalFileStore) (path : String) : Except FileError FullPath :=
  let full := joinRoot s.root path
  if s.root <+: full.names then .ok full else .error (.escapesRoot path)

variable (r : Recency FullPath)

def write (s : LocalFileStore) (path : String) (contents : Contents) : Except FileError LocalFileStore := do
  let full ← s.getFullPath path
  let tree ← s.tree.makedirs (full.below s.root)
  let tree ← tree.writeFile (full.below s.root) contents.encode
  match contents with
  | .text t => return { s with tree, cache := s.cache.setItem r full t }
  | .bytes _ => return { s with tree }

def read (s : LocalFileStore) (path : String) : Except FileError (List Char × LocalFileStore) := do
  let full ← s.getFullPath path
  match s.cache.getItem r full with
  | some (v, cache) => return (v, { s with cache })
  | none =>
    match s.tree.node (full.below s.root) with
    | none => throw (.fileNotFound path)
    | some .dir => throw .isADirectory
    | some (.file contents) =>
      let result ← readText contents
      return (result, { s with cache := s.cache.setItem r full result })

/-- `os.path.join`. -/
def joinPath (path name : String) : String :=
  if path = "" ∨ path.toList.getLast? = some '/' then path ++ name else path ++ "/" ++ name

def list (s : LocalFileStore) (path : String) : Except FileError (List String) := do
  let full ← s.getFullPath path
  match s.tree.node (full.below s.root) with
  | none => return []
  | some (.file _) => return [path]
  | some .dir =>
    ((s.tree.listdir (full.below s.root)).map (joinPath path)).mapM fun f => do
      let g ← s.getFullPath f
      return if s.tree.isDir (g.below s.root) then f ++ "/" else f

/-- `delete`; an error is logged and swallowed. -/
def delete (s : LocalFileStore) (path : String) : LocalFileStore :=
  match s.getFullPath path with
  | .error _ => s
  | .ok full =>
    match s.tree.node (full.below s.root) with
    | none => s
    | some (.file _) => { s with tree := s.tree.remove (full.below s.root), cache := s.cache.delItem full }
    | some .dir => { s with tree := s.tree.remove (full.below s.root), cache := s.cache.clear }

end LocalFileStore

/-! ## Runs -/

inductive FileOp where
  | write (path : String) (contents : Contents)
  | read (path : String)
  | list (path : String)
  | delete (path : String)

/-- The store. Kept for the statement only: the contents of the last write to
each path that no delete removed, and what each read gave and should have given. -/
structure FileWorld where
  store : LocalFileStore
  contents : List String → Option Contents := fun _ => none
  reads : List (Except FileError (List Char) × Except FileError (List Char)) := []

/-- The contents as the text that a read can return. -/
def Contents.asText : Contents → Except FileError (List Char)
  | .text t => .ok t
  | .bytes b =>
    match b.utf8Decode? with
    | some cs => .ok cs.toList
    | none => .error .decode

namespace FileWorld

/-- What `read` should give: the contents, or `FileNotFoundError`. -/
def expected (w : FileWorld) (path : String) : Except FileError (List Char) :=
  match w.store.getFullPath path with
  | .error e => .error e
  | .ok full =>
    match w.contents (full.below w.store.root) with
    | some c => c.asText
    | none => .error (.fileNotFound path)

variable (r : Recency FullPath)

/-- An operation that raises leaves the store as it is. -/
def step (w : FileWorld) : FileOp → Option FileWorld
  | .write path c =>
    match w.store.getFullPath path, w.store.write r path c with
    | .ok full, .ok store => some { w with store, contents := Function.update w.contents (full.below w.store.root) (some c) }
    | _, _ => some w
  | .read path =>
    let reads := w.reads ++ [((w.store.read r path).map Prod.fst, w.expected path)]
    match w.store.read r path with
    | .ok (_, store) => some { w with store, reads }
    | .error _ => some { w with reads }
  | .list _ => some w
  | .delete path =>
    match w.store.getFullPath path with
    | .ok full =>
      some { w with
        store := w.store.delete path
        contents := fun p => if full.below w.store.root <+: p then none else w.contents p }
    | .error _ => some w

/-- Every read gave what it should have given. -/
def Coherent (w : FileWorld) : Prop := ∀ x ∈ w.reads, x.1 = x.2

/-- The path's text is in the cache. -/
def cached (w : FileWorld) (path : String) : Bool :=
  match w.store.getFullPath path with
  | .ok full => w.store.cache.contains full
  | .error _ => false

/-- A read from disk gives the text as it was written: no directory is read,
and no carriage return. -/
def plainOnDisk (w : FileWorld) (path : String) : Bool :=
  match w.store.getFullPath path with
  | .error _ => true
  | .ok full =>
    match w.store.tree.node (full.below w.store.root) with
    | none => true
    | some .dir => false
    | some (.file b) => b.utf8Decode?.all fun cs => '\r' ∉ cs.toList

end FileWorld

/-- Bytes, and texts too large for the cache, are written only where nothing is
cached, and what is read from disk is plain. -/
def FileOp.Allowed (w : FileWorld) : FileOp → Prop
  | .write path (.text t) => (joinRoot w.store.root path).doubleSlash = false ∧
      ((t.length : Int) ≤ w.store.cache.maxMemory ∨ w.cached path = false)
  | .write path (.bytes _) => (joinRoot w.store.root path).doubleSlash = false ∧ w.cached path = false
  | .read path => (joinRoot w.store.root path).doubleSlash = false ∧ (w.cached path = true ∨ w.plainOnDisk path = true)
  | .list _ => True
  | .delete path => (joinRoot w.store.root path).doubleSlash = false

instance FileOp.decidableAllowed (w : FileWorld) (op : FileOp) : Decidable (op.Allowed w) :=
  match op with
  | .write _ (.text _) => inferInstanceAs (Decidable (_ ∧ _))
  | .write _ (.bytes _) => inferInstanceAs (Decidable (_ ∧ _))
  | .read _ => inferInstanceAs (Decidable (_ ∧ _))
  | .list _ => isTrue trivial
  | .delete _ => inferInstanceAs (Decidable (_ = _))

/-! ## The tree -/

section
variable {β : Type}

theorem lookup_filter_keys (es : List (List String × β)) (P : List String → Bool) (q : List String) :
    (es.filter fun e => P e.1).lookup q = if P q then es.lookup q else none := by
  induction es with
  | nil => simp
  | cons e es ih =>
    obtain ⟨k, v⟩ := e
    by_cases hq : q = k
    · subst hq
      cases hP : P q <;> simp [hP, ih]
    · have hne : (q == k) = false := beq_eq_false_iff_ne.2 hq
      cases hk : P k <;> simp [hk, hne, ih, List.lookup_cons]

end

namespace Tree
variable {t : Tree} {p q : List String}

theorem node_set (t : Tree) (p : List String) (n : Node) (q : List String) :
    (t.set p n).node q = if q = p then some n else t.node q := by
  have hkept : (t.filter fun e => decide (e.1 ≠ p)).lookup q = if decide (q ≠ p) then t.lookup q else none :=
    lookup_filter_keys t (fun k => decide (k ≠ p)) q
  rw [node, set, List.lookup_append, hkept]
  by_cases h : q = p
  · simp [h]
  · have hne : (q == p) = false := beq_eq_false_iff_ne.2 h
    simp [h, hne, node, List.lookup_cons]

theorem node_remove (t : Tree) (p q : List String) :
    (t.remove p).node q = if p <+: q then none else t.node q := by
  have hkept : (t.filter fun e => decide (¬ p <+: e.1)).lookup q = if decide (¬ p <+: q) then t.lookup q else none :=
    lookup_filter_keys t (fun k => decide (¬ p <+: k)) q
  rw [node, remove, hkept]
  by_cases h : p <+: q <;> simp [h, node]

theorem mem_parents : q ∈ parents p ↔ q <+: p ∧ q ≠ p := by simp [parents, List.mem_filter]

theorem makedir_ok {t' : Tree} (h : t.makedir p = .ok t') :
    (t.node p = none ∨ t.node p = some .dir) ∧ ∀ q, t'.node q = if q = p then some .dir else t.node q := by
  unfold makedir at h
  split at h
  · rename_i hnone
    cases h
    exact ⟨.inl hnone, node_set t p .dir⟩
  · rename_i hdir
    cases h
    refine ⟨.inr hdir, fun q => ?_⟩
    split
    · rename_i hq
      rw [hq, hdir]
    · rfl
  · cases h

/-- Every directory above the path is there, the rest is unchanged. -/
theorem foldlM_makedir {ps : List (List String)} {t' : Tree} (h : ps.foldlM makedir t = .ok t') :
    (∀ q ∈ ps, t.node q = none ∨ t.node q = some .dir) ∧
      ∀ q, t'.node q = if q ∈ ps then some .dir else t.node q := by
  induction ps generalizing t with
  | nil =>
    cases h
    exact ⟨nofun, fun q => by simp⟩
  | cons p ps ih =>
    rw [List.foldlM_cons] at h
    obtain ⟨u, hu, h⟩ := bind_ok h
    obtain ⟨hp, hnode⟩ := makedir_ok hu
    obtain ⟨hfree, hall⟩ := ih h
    refine ⟨fun q hq => ?_, fun q => ?_⟩
    · rcases List.mem_cons.1 hq with rfl | hq
      · exact hp
      · have hq' := hfree q hq
        rw [hnode q] at hq'
        split at hq'
        · rename_i heq
          exact heq ▸ hp
        · exact hq'
    · rw [hall q, hnode q]
      by_cases hqs : q ∈ ps <;> by_cases hqp : q = p <;> simp [hqs, hqp]

/-- What a completed write leaves: the file, the directories above it, and the
rest as it was. -/
theorem write_ok {t₁ t₂ : Tree} {b : ByteArray} (hdirs : t.makedirs p = .ok t₁) (hfile : t₁.writeFile p b = .ok t₂) :
    t.node p ≠ some .dir ∧ (∀ q ∈ parents p, t.node q = none ∨ t.node q = some .dir) ∧
      ∀ q, t₂.node q = if q = p then some (.file b) else if q ∈ parents p then some .dir else t.node q := by
  obtain ⟨hfree, hnode⟩ := foldlM_makedir hdirs
  unfold writeFile at hfile
  split at hfile
  · cases hfile
  · rename_i hdir
    cases hfile
    refine ⟨fun hp => hdir ?_, hfree, fun q => ?_⟩
    · have hown : p ∉ parents p := fun hp => (mem_parents.1 hp).2 rfl
      simp [isDir, hnode p, hown, hp]
    · rw [node_set, hnode q]

end Tree

/-! ## The invariant -/

/-- The files are the contents, directories lead to them, and what is cached is
the text of the contents. -/
structure Agree (root : List String) (t : Tree) (entries : List (FullPath × List Char))
    (contents : List String → Option Contents) : Prop where
  file : ∀ p c, contents p = some c → t.node p = some (.file c.encode)
  written : ∀ p b, t.node p = some (.file b) → ∃ c, contents p = some c ∧ c.encode = b
  parents : ∀ p n, t.node p = some n → ∀ q ∈ Tree.parents p, t.node q = some .dir
  cached : ∀ e ∈ entries, e.1.doubleSlash = false ∧ root <+: e.1.names ∧
    ∃ c, contents (e.1.below root) = some c ∧ c.asText = .ok e.2

/-- A text that is written and read back from disk, without carriage returns. -/
theorem readText_encode (c : Contents) (h : c.encode.utf8Decode?.all fun cs => '\r' ∉ cs.toList) :
    readText c.encode = c.asText := by
  have hdecode : ∀ b : ByteArray, (b.utf8Decode?.all fun cs => '\r' ∉ cs.toList) = true →
      readText b = (Contents.bytes b).asText := by
    intro b hb
    rw [readText, Contents.asText]
    cases hd : b.utf8Decode? with
    | none => rfl
    | some cs =>
      rw [hd, Option.all_some, decide_eq_true_eq] at hb
      simp only [newlines_eq hb]
  cases c with
  | bytes b => exact hdecode b h
  | text t =>
    have hb := hdecode _ h
    have hround : (String.ofList t).toUTF8.utf8Decode? = some t.toArray := by
      rw [String.toUTF8_eq_toByteArray, String.toByteArray_ofList, List.utf8Decode?_utf8Encode]
    have htext : (Contents.bytes (String.ofList t).toUTF8).asText = .ok t := by simp only [Contents.asText, hround]
    exact hb.trans htext

namespace FileWorld
variable {r : Recency FullPath} {w : FileWorld}

theorem getFullPath_ok {s : LocalFileStore} {path : String} {full : FullPath} (h : s.getFullPath path = .ok full) :
    full = joinRoot s.root path ∧ s.root <+: full.names := by
  unfold LocalFileStore.getFullPath at h
  dsimp only at h
  split at h
  · cases h
    exact ⟨rfl, ‹_›⟩
  · cases h

/-- Two paths under the root are the same when they are so below it. -/
theorem below_inj {root : List String} {f g : FullPath} (hf : root <+: f.names) (hg : root <+: g.names)
    (hfs : f.doubleSlash = false) (hgs : g.doubleSlash = false) (h : f.below root = g.below root) : f = g := by
  obtain ⟨u, hu⟩ := hf
  obtain ⟨v, hv⟩ := hg
  obtain ⟨fs, fnames⟩ := f
  obtain ⟨gs, gnames⟩ := g
  dsimp only at hu hv hfs hgs
  subst hu hv hfs hgs
  simp only [FullPath.below, List.drop_left] at h
  rw [h]

end FileWorld

namespace Agree
variable {root : List String} {t : Tree} {entries : List (FullPath × List Char)}
  {contents : List String → Option Contents}

/-- A completed write: the tree and the contents change at the path, and the
cache holds nothing else for it. -/
theorem write (hw : Agree root t entries contents) {full : FullPath} {c : Contents} {t₁ t₂ : Tree}
    {entries' : List (FullPath × List Char)} (hdirs : t.makedirs (full.below root) = .ok t₁)
    (hfile : t₁.writeFile (full.below root) c.encode = .ok t₂) (hroot : root <+: full.names)
    (hslash : full.doubleSlash = false)
    (hcache : ∀ e ∈ entries', (e.1 = full ∧ c.asText = .ok e.2) ∨ (e ∈ entries ∧ e.1 ≠ full)) :
    Agree root t₂ entries' (Function.update contents (full.below root) (some c)) := by
  obtain ⟨hnodir, hfree, hnode⟩ := Tree.write_ok hdirs hfile
  refine ⟨fun p c' hc' => ?_, fun p b hb => ?_, fun p n hn q hq => ?_, fun e he => ?_⟩
  · by_cases hp : p = full.below root
    · subst hp
      rw [Function.update_self] at hc'
      cases hc'
      simp [hnode]
    · rw [Function.update_of_ne hp] at hc'
      have hold := hw.file p c' hc'
      -- A file is no directory above another one.
      have hno : p ∉ Tree.parents (full.below root) := by
        intro hpar
        rcases hfree p hpar with h | h <;> rw [h] at hold <;> cases hold
      simp [hnode, hp, hno, hold]
  · rw [hnode] at hb
    split at hb
    · rename_i hp
      cases hb
      exact ⟨c, by rw [hp, Function.update_self], rfl⟩
    · rename_i hp
      split at hb
      · cases hb
      · rw [Function.update_of_ne hp]
        exact hw.written p b hb
  · rw [hnode] at hn ⊢
    obtain ⟨hqp, hne⟩ := Tree.mem_parents.1 hq
    split at hn
    · rename_i hp
      subst hp
      rw [if_neg hne, if_pos hq]
    · rename_i hp
      split at hn
      · rename_i hpar
        obtain ⟨hpp, hpne⟩ := Tree.mem_parents.1 hpar
        have hqne : q ≠ full.below root := by
          rintro rfl
          exact hne (hqp.eq_of_length (Nat.le_antisymm hqp.length_le hpp.length_le))
        rw [if_neg hqne, if_pos (Tree.mem_parents.2 ⟨hqp.trans hpp, hqne⟩)]
      · have hdir := hw.parents p n hn q hq
        split
        · rename_i hqf
          exact absurd (hqf ▸ hdir) hnodir
        · split
          · rfl
          · exact hdir
  · rcases hcache e he with ⟨rfl, htext⟩ | ⟨he, hne⟩
    · exact ⟨hslash, hroot, c, Function.update_self _ _ _, htext⟩
    · obtain ⟨hs, hr, c', hc', htext⟩ := hw.cached e he
      have hbelow : e.1.below root ≠ full.below root := fun h => hne (FileWorld.below_inj hr hroot hs hslash h)
      exact ⟨hs, hr, c', by rw [Function.update_of_ne hbelow, hc'], htext⟩

/-- A cache of the same texts, or of texts that are right. -/
theorem cache (hw : Agree root t entries contents) {entries' : List (FullPath × List Char)}
    (h : ∀ e ∈ entries', e ∈ entries ∨ (e.1.doubleSlash = false ∧ root <+: e.1.names ∧
      ∃ c, contents (e.1.below root) = some c ∧ c.asText = .ok e.2)) : Agree root t entries' contents :=
  ⟨hw.file, hw.written, hw.parents, fun e he => (h e he).elim (hw.cached e) id⟩

/-- What a path leads to is gone. -/
theorem remove (hw : Agree root t entries contents) {p : List String} {entries' : List (FullPath × List Char)}
    (h : ∀ e ∈ entries', e ∈ entries ∧ ¬ p <+: e.1.below root) :
    Agree root (t.remove p) entries' (fun q => if p <+: q then none else contents q) := by
  refine ⟨fun q c hc => ?_, fun q b hb => ?_, fun q n hn q' hq' => ?_, fun e he => ?_⟩
  · rw [Tree.node_remove]
    split at hc
    · cases hc
    · rw [if_neg ‹_›, hw.file q c hc]
  · rw [Tree.node_remove] at hb
    split at hb
    · cases hb
    · obtain ⟨c, hc, hb⟩ := hw.written q b hb
      exact ⟨c, by rw [if_neg ‹_›, hc], hb⟩
  · rw [Tree.node_remove] at hn ⊢
    split at hn
    · cases hn
    · rename_i hpq
      rw [if_neg fun hp => hpq (hp.trans (Tree.mem_parents.1 hq').1), hw.parents q n hn q' hq']
  · obtain ⟨he, hp⟩ := h e he
    obtain ⟨hs, hr, c, hc, htext⟩ := hw.cached e he
    exact ⟨hs, hr, c, by rw [if_neg hp, hc], htext⟩

/-- Nothing was written below a path that does not exist. -/
theorem contents_of_none (hw : Agree root t entries contents) {p : List String} (hp : t.node p = none) :
    (fun q => if p <+: q then none else contents q) = contents := by
  funext q
  split
  · rename_i hpq
    cases hc : contents q with
    | none => rfl
    | some c =>
      have hfile := hw.file q c hc
      by_cases hqp : p = q
      · rw [← hqp, hp] at hfile
        cases hfile
      · have hdir := hw.parents q _ hfile p (Tree.mem_parents.2 ⟨hpq, hqp⟩)
        rw [hp] at hdir
        cases hdir
  · rfl

end Agree

namespace FileWorld
variable {r : Recency FullPath} {w : FileWorld}

def Consistent (w : FileWorld) : Prop := Agree w.store.root w.store.tree w.store.cache.entries w.contents

/-- The text in the cache is the one to be read. -/
theorem Consistent.expected_of_mem (hw : w.Consistent) {path : String} {full : FullPath}
    (hfull : w.store.getFullPath path = .ok full) {v : List Char} (hv : (full, v) ∈ w.store.cache.entries) :
    w.expected path = .ok v := by
  obtain ⟨-, -, c, hc, htext⟩ := hw.cached _ hv
  simp only [expected, hfull, hc, htext]

theorem not_mem_of_uncached {full : FullPath} {path : String} (hfull : w.store.getFullPath path = .ok full)
    (h : w.cached path = false) {e : FullPath × List Char} (he : e ∈ w.store.cache.entries) : e.1 ≠ full := by
  rintro rfl
  simp only [cached, hfull, MemoryLRUCache.contains, List.any_eq_false, decide_eq_true_eq] at h
  exact h e he rfl

/-! ### Each operation keeps it -/

theorem Consistent.step_write (hw : w.Consistent) {path : String} {c : Contents}
    (hok : (FileOp.write path c).Allowed w) {w' : FileWorld} (h : w.step r (.write path c) = some w') :
    w'.Consistent ∧ w'.reads = w.reads := by
  unfold FileWorld.step at h
  dsimp only at h
  split at h
  · rename_i full store hfull hwrite
    cases h
    refine ⟨?_, rfl⟩
    obtain ⟨hjoin, hroot⟩ := getFullPath_ok hfull
    simp only [LocalFileStore.write, hfull, bind, Except.bind] at hwrite
    cases hdirs : w.store.tree.makedirs (full.below w.store.root) with
    | error e => simp [hdirs] at hwrite
    | ok t₁ =>
      cases hfile : t₁.writeFile (full.below w.store.root) c.encode with
      | error e => simp [hdirs, hfile] at hwrite
      | ok t₂ =>
        simp only [hdirs, hfile] at hwrite
        cases c with
        | text t =>
          obtain ⟨hslash, hfits⟩ := hok
          rw [← hjoin] at hslash
          cases hwrite
          refine Agree.write hw hdirs hfile hroot hslash fun e he => ?_
          rcases MemoryLRUCache.mem_setItem he with ⟨-, rfl | ⟨he, hne⟩⟩ | ⟨hlarge, he⟩
          · exact .inl ⟨rfl, rfl⟩
          · exact .inr ⟨he, hne⟩
          · exact .inr ⟨he, not_mem_of_uncached hfull (hfits.resolve_left hlarge) he⟩
        | bytes b =>
          obtain ⟨hslash, hun⟩ := hok
          rw [← hjoin] at hslash
          cases hwrite
          refine Agree.write hw hdirs hfile hroot hslash fun e he => ?_
          exact .inr ⟨he, not_mem_of_uncached hfull hun he⟩
  · cases h
    exact ⟨hw, rfl⟩

theorem Consistent.step_read (hw : w.Consistent) {path : String} (hok : (FileOp.read path).Allowed w) {w' : FileWorld}
    (h : w.step r (.read path) = some w') :
    w'.Consistent ∧ ∃ x, w'.reads = w.reads ++ [x] ∧ x.1 = x.2 := by
  obtain ⟨hslash, hok⟩ := hok
  simp only [FileWorld.step] at h
  cases hfull : w.store.getFullPath path with
  | error e =>
    have hread : w.store.read r path = .error e := by simp only [LocalFileStore.read, hfull, bind, Except.bind]
    simp only [hread] at h
    cases h
    refine ⟨hw, _, rfl, ?_⟩
    simp only [expected, hfull, Except.map]
  | ok full =>
    obtain ⟨hjoin, hroot⟩ := getFullPath_ok hfull
    rw [← hjoin] at hslash
    cases hhit : w.store.cache.entries.lookup full with
    | some v =>
      -- A hit: what the cache has is what was written last.
      have hexp := hw.expected_of_mem hfull (MemoryLRUCache.mem_of_lookup hhit)
      simp only [LocalFileStore.read, hfull, MemoryLRUCache.getItem, hhit, Option.map_some, bind, Except.bind, pure,
        Except.pure] at h
      cases h
      refine ⟨Agree.cache hw fun e he => .inl ((r.perm _ _).mem_iff.1 he), _, rfl, ?_⟩
      rw [hexp]
      rfl
    | none =>
      -- No hit: the file is read, which gives the text back that was written.
      have hplain : w.plainOnDisk path = true := by
        refine hok.resolve_left fun hc => ?_
        simp only [cached, hfull, MemoryLRUCache.contains, List.any_eq_true, decide_eq_true_eq] at hc
        obtain ⟨e, he, rfl⟩ := hc
        have hall := List.lookup_eq_none_iff.1 hhit e he
        simp at hall
      simp only [plainOnDisk, hfull] at hplain
      cases hn : w.store.tree.node (full.below w.store.root) with
      | none =>
        have hcon : w.contents (full.below w.store.root) = none := by
          cases hc : w.contents (full.below w.store.root) with
          | none => rfl
          | some c =>
            have hfile := hw.file _ _ hc
            rw [hn] at hfile
            cases hfile
        simp only [LocalFileStore.read, hfull, MemoryLRUCache.getItem, hhit, hn, Option.map_none, bind, Except.bind] at h
        cases h
        refine ⟨hw, _, rfl, ?_⟩
        simp only [expected, hfull, hcon]
        rfl
      | some n =>
        cases n with
        | dir => simp [hn] at hplain
        | file b =>
          obtain ⟨c, hc, rfl⟩ := hw.written _ _ hn
          rw [hn] at hplain
          have htext := readText_encode c hplain
          simp only [LocalFileStore.read, hfull, MemoryLRUCache.getItem, hhit, hn, Option.map_none, htext, bind,
            Except.bind] at h
          cases ha : c.asText with
          | error e =>
            simp only [ha] at h
            cases h
            refine ⟨hw, _, rfl, ?_⟩
            simp only [expected, hfull, hc, ha]
            rfl
          | ok v =>
            simp only [ha] at h
            cases h
            refine ⟨Agree.cache hw fun e he => ?_, _, rfl, ?_⟩
            · rcases MemoryLRUCache.mem_setItem he with ⟨-, rfl | ⟨he, -⟩⟩ | ⟨-, he⟩
              · exact .inr ⟨hslash, hroot, c, hc, ha⟩
              · exact .inl he
              · exact .inl he
            · simp only [expected, hfull, hc, ha]
              rfl

theorem Consistent.step_delete (hw : w.Consistent) {path : String} (hok : (FileOp.delete path).Allowed w)
    {w' : FileWorld} (h : w.step r (.delete path) = some w') : w'.Consistent ∧ w'.reads = w.reads := by
  simp only [FileWorld.step, LocalFileStore.delete] at h
  cases hfull : w.store.getFullPath path with
  | error e =>
    simp only [hfull] at h
    cases h
    exact ⟨hw, rfl⟩
  | ok full =>
    obtain ⟨hjoin, hroot⟩ := getFullPath_ok hfull
    have hslash : full.doubleSlash = false := by
      rw [hjoin]
      exact hok
    simp only [hfull] at h
    cases hn : w.store.tree.node (full.below w.store.root) with
    | none =>
      simp only [hn] at h
      cases h
      refine ⟨?_, rfl⟩
      show Agree _ _ _ _
      rw [Agree.contents_of_none hw hn]
      exact hw
    | some n =>
      cases n with
      | dir =>
        simp only [hn] at h
        cases h
        refine ⟨Agree.remove hw fun e he => ?_, rfl⟩
        rw [MemoryLRUCache.clear_entries] at he
        cases he
      | file b =>
        simp only [hn] at h
        cases h
        refine ⟨Agree.remove hw fun e he => ?_, rfl⟩
        obtain ⟨he, hne⟩ := MemoryLRUCache.mem_delItem he
        obtain ⟨hs, hr, c, hc, -⟩ := hw.cached e he
        refine ⟨he, fun hpre => ?_⟩
        -- Nothing lies below a file.
        have hstrict : full.below w.store.root ≠ e.1.below w.store.root :=
          fun heq => hne (below_inj hr hroot hs hslash heq.symm)
        have hdir := hw.parents _ _ (hw.file _ _ hc) _ (Tree.mem_parents.2 ⟨hpre, hstrict⟩)
        rw [hn] at hdir
        cases hdir

/-- The step lemma. -/
theorem Consistent.step (hw : w.Consistent) {op : FileOp} (hok : op.Allowed w) {w' : FileWorld}
    (h : w.step r op = some w') : w'.Consistent ∧ (w.Coherent → w'.Coherent) := by
  cases op with
  | write path c =>
    obtain ⟨hw', hreads⟩ := hw.step_write hok h
    exact ⟨hw', fun hc => by rw [Coherent, hreads]; exact hc⟩
  | read path =>
    obtain ⟨hw', x, hreads, hx⟩ := hw.step_read hok h
    refine ⟨hw', fun hc y hy => ?_⟩
    rw [hreads] at hy
    rcases List.mem_append.1 hy with hy | hy
    · exact hc y hy
    · rw [List.mem_singleton.1 hy]
      exact hx
  | list path =>
    cases h
    exact ⟨hw, id⟩
  | delete path =>
    obtain ⟨hw', hreads⟩ := hw.step_delete hok h
    exact ⟨hw', fun hc => by rw [Coherent, hreads]; exact hc⟩

/-- A new store on an empty directory, with an empty cache of any limits. -/
def new (root : List String) (maxMemory maxSize : Int) : FileWorld := { store := { root, cache := { maxMemory, maxSize } } }

theorem consistent_new (root : List String) (maxMemory maxSize : Int) : (new root maxMemory maxSize).Consistent := by
  have hnode : ∀ p n, Tree.node [([], .dir)] p = some n → p = [] ∧ n = .dir := by
    intro p n hp
    rw [Tree.node, List.lookup_cons] at hp
    split at hp
    · cases hp
      exact ⟨eq_of_beq ‹_›, rfl⟩
    · cases hp
  refine ⟨fun p c hc => (by cases hc), fun p b hb => ?_, fun p n hn q hq => ?_, fun e he => (by cases he)⟩
  · cases (hnode p _ hb).2
  · obtain ⟨hqp, hne⟩ := Tree.mem_parents.1 hq
    rw [(hnode p n hn).1] at hqp hne
    exact absurd (List.prefix_nil.1 hqp) hne

/-- In every run that keeps to the condition each read gives the contents of
the last write that no delete removed, or finds no file. -/
theorem coherent_of_reaches (r : Recency FullPath) (root : List String) (maxMemory maxSize : Int) {w : FileWorld}
    (h : Reaches (step r) (fun w op => op.Allowed w) (new root maxMemory maxSize) w) : w.Coherent := by
  have hinv : w.Consistent ∧ w.Coherent := by
    refine Reaches.invariant (I := fun w => w.Consistent ∧ w.Coherent)
      ⟨consistent_new root maxMemory maxSize, fun x hx => by cases hx⟩ ?_ h
    intro s op t hs hop ht
    obtain ⟨ht', hc⟩ := hs.1.step hop ht
    exact ⟨ht', hc hs.2⟩
  exact hinv.2

/-- Writes, reads from the cache and from disk, an eviction, and a deleted directory. -/
def mixedOps : List FileOp :=
  [.write "a/b" (.text "xy".toList), .read "a/b", .write "c" (.bytes "hello".toUTF8), .read "c",
    .write "d" (.text "123456".toList), .read "d", .read "a/b", .delete "a", .read "a/b", .list ""]

theorem coherent_of_reaches_mixed :
    ∃ w, execAllowed (step Recency.lru) (fun w op => op.Allowed w) (new ["data"] 4 1) mixedOps = some w ∧ w.Coherent ∧
      w.reads.map Prod.fst = [.ok "xy".toList, .ok "hello".toList, .ok "123456".toList, .ok "xy".toList,
        .error (.fileNotFound "a/b")] := by
  have hrun : (execAllowed (step Recency.lru) (fun w op => op.Allowed w) (new ["data"] 4 1) mixedOps).map
      (fun w => w.reads.map Prod.fst) = some [.ok "xy".toList, .ok "hello".toList, .ok "123456".toList, .ok "xy".toList,
        .error (.fileNotFound "a/b")] := by decide +kernel
  obtain ⟨w, hw, hreads⟩ := Option.map_eq_some_iff.1 hrun
  exact ⟨w, hw, coherent_of_reaches Recency.lru ["data"] 4 1 (reaches_of_execAllowed .init hw), hreads⟩

/-- A text that is cached, then bytes or a text too large for the cache: the old
text is read. A carriage return that is read from disk. -/
theorem read_stale :
    (∃ w, exec (step Recency.lru) (new ["data"] 4 1)
      [.write "a" (.text "old".toList), .write "a" (.bytes "new".toUTF8), .read "a"] = some w ∧ ¬ w.Coherent) ∧
    (∃ w, exec (step Recency.lru) (new ["data"] 4 1)
      [.write "a" (.text "old".toList), .write "a" (.text "a longer one".toList), .read "a"] = some w ∧ ¬ w.Coherent) ∧
    ∃ w, exec (step Recency.lru) (new ["data"] 4 1) [.write "a" (.bytes "x\r\ny".toUTF8), .read "a"] = some w ∧
      ¬ w.Coherent := by
  have hstale : ∀ ops, (exec (step Recency.lru) (new ["data"] 4 1) ops).map (fun w => w.reads.all fun x => x.1 = x.2) =
      some false → ∃ w, exec (step Recency.lru) (new ["data"] 4 1) ops = some w ∧ ¬ w.Coherent := by
    intro ops hrun
    obtain ⟨w, hw, hreads⟩ := Option.map_eq_some_iff.1 hrun
    refine ⟨w, hw, fun hc => ?_⟩
    have hall : (w.reads.all fun x => x.1 = x.2) = true := List.all_eq_true.2 fun x hx => decide_eq_true (hc x hx)
    rw [hreads] at hall
    cases hall
  refine ⟨hstale _ ?_, hstale _ ?_, hstale _ ?_⟩ <;> decide +kernel

end FileWorld

end AgentSdk
