import AgentSdk.Lib.Runs
import AgentSdk.Lib.Text
import Mathlib
/-!
# Truncated output

`maybe_truncate` cuts the middle out of a long text and saves the full text to
a file, whose name is a short hash: a file that is there already is taken for
the same text.
-/

namespace AgentSdk.Truncate
open Lib

def defaultTruncateNotice : Text :=
  ("<response clipped><NOTE>Due to the max output limit, only part of the full " ++
    "response has been shown to you.</NOTE>").toList

/-- The notice with a saved file, up to the path. -/
def savedTo : Text :=
  ("<response clipped><NOTE>Due to the max output limit, only part of the full " ++
    "response has been shown to you. The complete output has been saved to ").toList

theorem length_savedTo : savedTo.length = 145 := by
  unfold savedTo
  rw [String.toList_append, String.toList_ofList, String.toList_ofList]
  decide +kernel

/-- `DEFAULT_TRUNCATE_NOTICE_WITH_PERSIST.format(..)`. -/
def persistNotice (filePath : Text) (lineNum : Nat) : Text :=
  savedTo ++ filePath ++
    " - you can use other tools to view the full content (truncated part starts around line ".toList ++
      Nat.toDigits 10 lineNum ++ ").</NOTE>".toList

def encode (t : Text) : List UInt8 := (String.ofList t).toUTF8.data.toList

/-- How writing a file ends: an error leaves no file, or the first bytes. -/
inductive WriteOutcome where
  | written
  | notCreated
  | cut (bytes : Nat)
deriving DecidableEq, Repr

/-- The first eight digits of SHA-256, `str(Path(save_dir) / filename)`, and
the file that a path names. -/
structure Platform (φ : Type) where
  sha8 : Text → Text
  filePath : Text → Text → Text
  file : Text → φ

structure TruncateCall where
  content : Text
  truncateAfter : Option Int := none
  truncateNotice : Text := defaultTruncateNotice
  saveDir : Option Text := none
  toolPrefix : Text := "output".toList
  write : WriteOutcome := .written
deriving DecidableEq

abbrev Files (φ : Type) := φ → Option (List UInt8)

/-- A result, with the path of the saved file if there is one. -/
structure Truncated (φ : Type) where
  text : Text
  saved : Option Text
  files : Files φ

section
variable {φ : Type} [DecidableEq φ] (p : Platform φ) (files : Files φ)

def TruncateCall.savedPath (c : TruncateCall) (saveDir : Text) : Text :=
  p.filePath saveDir (c.toolPrefix ++ "_output_".toList ++ p.sha8 c.content ++ ".txt".toList)

/-- `_save_full_content`. -/
def saveFullContent (c : TruncateCall) (saveDir : Text) : Option Text × Files φ :=
  let filePath := c.savedPath p saveDir
  if (files (p.file filePath)).isSome then (some filePath, files)
  else
    match c.write with
    | .written => (some filePath, Function.update files (p.file filePath) (some (encode c.content)))
    | .notCreated => (none, files)
    | .cut bytes => (none, Function.update files (p.file filePath) (some ((encode c.content).take bytes)))

/-- The head and the tail of the content around the notice. -/
def clip (content finalNotice : Text) (proposedHead limit : Nat) : Text :=
  if limit ≤ finalNotice.length then finalNotice.take limit
  else
    let remaining := limit - finalNotice.length
    let headChars := min proposedHead remaining
    let tailChars := remaining - headChars
    content.take headChars ++ finalNotice ++ (if 0 < tailChars then content.drop (content.length - tailChars) else [])

def maybeTruncate (c : TruncateCall) : Truncated φ :=
  match c.truncateAfter with
  | none => ⟨c.content, none, files⟩
  | some truncateAfter =>
    if truncateAfter = 0 ∨ c.content.length ≤ truncateAfter ∨ truncateAfter < 0 then ⟨c.content, none, files⟩
    else
      let limit := truncateAfter.toNat
      if limit ≤ c.truncateNotice.length then ⟨c.truncateNotice.take limit, none, files⟩
      else
        let availableChars := limit - c.truncateNotice.length
        let proposedHead := availableChars / 2 + availableChars % 2
        let saveDir := c.saveDir.getD []
        if saveDir = [] then ⟨clip c.content c.truncateNotice proposedHead limit, none, files⟩
        else
          match saveFullContent p files c saveDir with
          | (none, files) => ⟨clip c.content c.truncateNotice proposedHead limit, none, files⟩
          | (some filePath, files) =>
            let headContentLines := (splitLines (c.content.take proposedHead)).length
            ⟨clip c.content (persistNotice filePath (headContentLines + 1)) proposedHead limit, some filePath, files⟩

end

/-! ## What a result shows -/

/-- The notice of a result, before it is cut. -/
inductive IsNotice (c : TruncateCall) : Option Text → Text → Prop
  | base : IsNotice c none c.truncateNotice
  | saved (filePath : Text) (lineNum : Nat) : IsNotice c (some filePath) (persistNotice filePath lineNum)

/-- A start of the content, a notice and an end of the content. A notice that
fills the limit is cut, and stands alone. -/
structure Clipped (c : TruncateCall) (saved : Option Text) (limit : Nat) (text : Text) : Prop where
  length_le : text.length ≤ limit
  parts : ∃ notice, IsNotice c saved notice ∧
    (text = notice.take limit ∨ ∃ head tail, text = head ++ notice ++ tail ∧ head <+: c.content ∧ tail <:+ c.content)

section
variable {φ : Type}

/-- A file that the text names completely holds the content. -/
def Held (p : Platform φ) (files : Files φ) (c : TruncateCall) (text : Text) (saved : Option Text) : Prop :=
  ∀ filePath ∈ saved, savedTo ++ filePath <:+: text → files (p.file filePath) = some (encode c.content)

/-- The result is the content, or cut to the limit; and what it points to is
the full content. -/
structure Faithful (p : Platform φ) (files : Files φ) (c : TruncateCall) (text : Text) (saved : Option Text) : Prop where
  shape : text = c.content ∨ ∃ limit : Nat, c.truncateAfter = some (limit : Int) ∧ Clipped c saved limit text
  held : Held p files c text saved

end

/-! ## How a call ends -/

def TruncateCall.limit (c : TruncateCall) : Nat := (c.truncateAfter.getD 0).toNat

/-- The content is to be saved. -/
def TruncateCall.Saves (c : TruncateCall) : Prop :=
  c.truncateNotice.length < c.limit ∧ c.limit < c.content.length ∧ c.saveDir.getD [] ≠ []

instance TruncateCall.savesDecidable (c : TruncateCall) : Decidable c.Saves := inferInstanceAs (Decidable (_ ∧ _ ∧ _))

section
variable {φ : Type} [DecidableEq φ] {p : Platform φ} {files files' : Files φ} {c : TruncateCall} {saved : Option Text}

/-- The content as it is, the notice cut, the content around the notice, or
what is left of a try to save it. -/
theorem maybeTruncate_cases (p : Platform φ) (files : Files φ) (c : TruncateCall) :
    maybeTruncate p files c = ⟨c.content, none, files⟩ ∨
    ∃ limit : Nat, c.truncateAfter = some (limit : Int) ∧ limit < c.content.length ∧
      (maybeTruncate p files c = ⟨c.truncateNotice.take limit, none, files⟩ ∨
      ∃ proposedHead, maybeTruncate p files c = ⟨clip c.content c.truncateNotice proposedHead limit, none, files⟩ ∨
        c.Saves ∧ ∃ files',
          saveFullContent p files c (c.saveDir.getD []) = (none, files') ∧
            maybeTruncate p files c = ⟨clip c.content c.truncateNotice proposedHead limit, none, files'⟩ ∨
          ∃ filePath lineNum, saveFullContent p files c (c.saveDir.getD []) = (some filePath, files') ∧
            maybeTruncate p files c =
              ⟨clip c.content (persistNotice filePath lineNum) proposedHead limit, some filePath, files'⟩) := by
  unfold maybeTruncate
  cases hafter : c.truncateAfter with
  | none => exact .inl rfl
  | some truncateAfter =>
    dsimp only
    split
    · exact .inl rfl
    · rename_i hlong
      have hlimit : ((truncateAfter.toNat : Nat) : Int) = truncateAfter := Int.toNat_of_nonneg (by omega)
      have hlen : truncateAfter.toNat < c.content.length := by omega
      refine .inr ⟨truncateAfter.toNat, by rw [hlimit], hlen, ?_⟩
      split
      · exact .inl rfl
      · rename_i hnotice
        refine .inr ⟨(truncateAfter.toNat - c.truncateNotice.length) / 2 +
          (truncateAfter.toNat - c.truncateNotice.length) % 2, ?_⟩
        split
        · exact .inl rfl
        · rename_i hdir
          have hsaves : c.Saves := by
            refine ⟨?_, ?_, hdir⟩ <;> rw [TruncateCall.limit, hafter, Option.getD_some] <;> omega
          refine .inr ⟨hsaves, ?_⟩
          rcases hsave : saveFullContent p files c (c.saveDir.getD []) with ⟨o, files'⟩
          cases o with
          | none => exact ⟨files', .inl ⟨rfl, rfl⟩⟩
          | some filePath => exact ⟨files', .inr ⟨filePath, _, rfl, rfl⟩⟩

theorem limit_of_some {truncateAfter : Int} (h : c.truncateAfter = some truncateAfter) :
    c.limit = truncateAfter.toNat := by
  rw [TruncateCall.limit, h, Option.getD_some]

theorem limit_of_truncateAfter {limit : Nat} (h : c.truncateAfter = some (limit : Int)) : c.limit = limit :=
  (limit_of_some h).trans (Int.toNat_natCast limit)

theorem clip_clipped {notice : Text} (h : IsNotice c saved notice) (proposedHead limit : Nat) :
    Clipped c saved limit (clip c.content notice proposedHead limit) := by
  unfold clip
  split
  · exact ⟨List.length_take_le _ _, notice, h, .inl rfl⟩
  · rename_i hroom
    dsimp only
    refine ⟨?_, notice, h, .inr ⟨_, _, rfl, List.take_prefix _ _, ?_⟩⟩
    · rw [List.length_append, List.length_append, List.length_take]
      split
      · rw [List.length_drop]
        omega
      · rw [List.length_nil]
        omega
    · split
      · exact List.drop_suffix _ _
      · exact List.nil_suffix

/-- Whatever happens to the files, the result is the content or cut to the limit. -/
theorem maybeTruncate_shape (p : Platform φ) (files : Files φ) (c : TruncateCall) :
    (maybeTruncate p files c).text = c.content ∧ (maybeTruncate p files c).saved = none ∨
      ∃ limit : Nat, c.truncateAfter = some (limit : Int) ∧
        Clipped c (maybeTruncate p files c).saved limit (maybeTruncate p files c).text := by
  rcases maybeTruncate_cases p files c with
    heq | ⟨limit, hafter, -, heq | ⟨proposedHead, heq | ⟨-, files', ⟨-, heq⟩ | ⟨filePath, lineNum, -, heq⟩⟩⟩⟩ <;> rw [heq]
  · exact .inl ⟨rfl, rfl⟩
  · exact .inr ⟨limit, hafter, List.length_take_le _ _, c.truncateNotice, .base, .inl rfl⟩
  · exact .inr ⟨limit, hafter, clip_clipped .base _ _⟩
  · exact .inr ⟨limit, hafter, clip_clipped .base _ _⟩
  · exact .inr ⟨limit, hafter, clip_clipped (.saved filePath lineNum) _ _⟩

theorem saveFullContent_kept (dir : Text) {f : φ} {bytes : List UInt8} (hf : files f = some bytes) :
    (saveFullContent p files c dir).2 f = some bytes := by
  unfold saveFullContent
  dsimp only
  split
  · exact hf
  · rename_i hnone
    have hne : f ≠ p.file (c.savedPath p dir) := by
      rintro rfl
      simp [hf] at hnone
    cases c.write with
    | written => exact (Function.update_of_ne hne _ _).trans hf
    | notCreated => exact hf
    | cut n => exact (Function.update_of_ne hne _ _).trans hf

/-- A path is returned for a file that was there, or for the content just written. -/
theorem saveFullContent_some {dir filePath : Text} (h : saveFullContent p files c dir = (some filePath, files')) :
    filePath = c.savedPath p dir ∧
      ((∃ bytes, files (p.file filePath) = some bytes) ∧ files' = files ∨
        files' (p.file filePath) = some (encode c.content)) := by
  unfold saveFullContent at h
  dsimp only at h
  split at h
  · rename_i hsome
    cases h
    exact ⟨rfl, .inl ⟨Option.isSome_iff_exists.1 hsome, rfl⟩⟩
  · cases hw : c.write with
    | written =>
      rw [hw] at h
      cases h
      exact ⟨rfl, .inr (Function.update_self _ _ _)⟩
    | notCreated =>
      rw [hw] at h
      cases h
    | cut n =>
      rw [hw] at h
      cases h

/-- A notice is cut behind the path when the limit leaves room for the path. -/
theorem named_clip {filePath : Text} {limit : Nat} (hroom : (savedTo ++ filePath).length ≤ limit)
    (content : Text) (lineNum proposedHead : Nat) :
    savedTo ++ filePath <:+: clip content (persistNotice filePath lineNum) proposedHead limit := by
  have hstart : savedTo ++ filePath <+: persistNotice filePath lineNum :=
    ((List.prefix_append _ _).trans (List.prefix_append _ _)).trans (List.prefix_append _ _)
  unfold clip
  split
  · exact (List.prefix_take_iff.2 ⟨hstart, hroom⟩).isInfix
  · dsimp only
    exact hstart.isInfix.trans ⟨_, _, rfl⟩

/-- A file of the name of the content is taken for the content. -/
theorem maybeTruncate_found (hsaves : c.Saves)
    (hfound : (files (p.file (c.savedPath p (c.saveDir.getD [])))).isSome = true)
    (hroom : (savedTo ++ c.savedPath p (c.saveDir.getD [])).length ≤ c.limit) :
    (maybeTruncate p files c).saved = some (c.savedPath p (c.saveDir.getD [])) ∧
      savedTo ++ c.savedPath p (c.saveDir.getD []) <:+: (maybeTruncate p files c).text := by
  obtain ⟨hnotice, hlong, hdir⟩ := hsaves
  have hsave : saveFullContent p files c (c.saveDir.getD []) =
      (some (c.savedPath p (c.saveDir.getD [])), files) := if_pos hfound
  unfold maybeTruncate
  cases hafter : c.truncateAfter with
  | none =>
    rw [TruncateCall.limit, hafter] at hnotice
    cases hnotice
  | some truncateAfter =>
    rw [limit_of_some hafter] at hnotice hlong hroom
    dsimp only
    rw [if_neg (by omega), if_neg (by omega), if_neg hdir, hsave]
    exact ⟨rfl, named_clip hroom _ _ _⟩

/-- What a file holds, it keeps. -/
theorem maybeTruncate_kept {f : φ} {bytes : List UInt8} (hf : files f = some bytes) :
    (maybeTruncate p files c).files f = some bytes := by
  rcases maybeTruncate_cases p files c with
    heq | ⟨limit, hafter, -, heq | ⟨proposedHead, heq | ⟨-, files', ⟨hsave, heq⟩ | ⟨filePath, lineNum, hsave, heq⟩⟩⟩⟩ <;>
    rw [heq]
  · exact hf
  · exact hf
  · exact hf
  · have hkept := saveFullContent_kept (p := p) (c := c) (c.saveDir.getD []) hf
    rwa [hsave] at hkept
  · have hkept := saveFullContent_kept (p := p) (c := c) (c.saveDir.getD []) hf
    rwa [hsave] at hkept

end

/-! ## Calls and the files -/

structure World (φ : Type) where
  files : Files φ
  results : List (TruncateCall × Text × Option Text) := []

namespace World

section
variable {φ : Type} [DecidableEq φ] (p : Platform φ)

def step (w : World φ) (c : TruncateCall) : Option (World φ) :=
  let r := maybeTruncate p w.files c
  some { files := r.files, results := w.results ++ [(c, r.text, r.saved)] }

/-- A file of the name of the content is not there or holds the content, or
the notice is cut before the end of the name. -/
def Allowed (w : World φ) (c : TruncateCall) : Prop :=
  c.Saves → (∀ bytes ∈ w.files (p.file (c.savedPath p (c.saveDir.getD []))), bytes = encode c.content) ∨
    c.limit < (savedTo ++ c.savedPath p (c.saveDir.getD [])).length

instance allowedDecidable (w : World φ) (c : TruncateCall) : Decidable (w.Allowed p c) := by
  unfold Allowed
  infer_instance

end

section
variable {φ : Type} [DecidableEq φ] {p : Platform φ} {w : World φ} {c : TruncateCall}

theorem faithful_of_allowed (hok : w.Allowed p c) :
    Faithful p (maybeTruncate p w.files c).files c (maybeTruncate p w.files c).text (maybeTruncate p w.files c).saved := by
  have hshape := maybeTruncate_shape p w.files c
  refine ⟨hshape.imp And.left id, fun filePath hpath hnamed => ?_⟩
  rcases hshape with ⟨-, hnone⟩ | ⟨limit, hafter, hclipped⟩
  · rw [hnone] at hpath
    cases hpath
  · have hlimit := limit_of_truncateAfter hafter
    -- The notice has room for the whole path.
    have hroom := hnamed.length_le.trans hclipped.length_le
    rcases maybeTruncate_cases p w.files c with
      heq | ⟨_, -, -, heq | ⟨_, heq | ⟨hsaves, files', ⟨-, heq⟩ | ⟨filePath', lineNum, hsave, heq⟩⟩⟩⟩ <;> rw [heq] at hpath ⊢
    · cases hpath
    · cases hpath
    · cases hpath
    · cases hpath
    · cases hpath
      obtain ⟨rfl, ⟨⟨bytes, hbytes⟩, rfl⟩ | hwritten⟩ := saveFullContent_some hsave
      · rcases hok hsaves with hsame | hcut
        · rw [← hsame bytes hbytes]
          exact hbytes
        · rw [hlimit] at hcut
          omega
      · exact hwritten

omit [DecidableEq φ] in
theorem Faithful.kept {files files' : Files φ} {text : Text} {saved : Option Text}
    (h : Faithful p files c text saved) (hkept : ∀ f bytes, files f = some bytes → files' f = some bytes) :
    Faithful p files' c text saved :=
  ⟨h.shape, fun filePath hpath hnamed => hkept _ _ (h.held filePath hpath hnamed)⟩

/-- In every run in which no call finds another content under the name of its
own, every result is faithful to its content, and stays so. -/
theorem truncated_output_held {files : Files φ} (h : Reaches (step p) (Allowed p) { files } w) :
    ∀ r ∈ w.results, Faithful p w.files r.1 r.2.1 r.2.2 := by
  refine h.invariant (I := fun w => ∀ r ∈ w.results, Faithful p w.files r.1 r.2.1 r.2.2) (fun r hr => by cases hr) ?_
  rintro w c t hw hok ht r hr
  cases ht
  rcases List.mem_append.1 hr with hr | hr
  · exact Faithful.kept (hw r hr) fun f bytes hf => maybeTruncate_kept hf
  · rw [List.mem_singleton.1 hr]
    exact faithful_of_allowed hok

end

/-- A directory `out` and the digits of the only content. -/
private def disk : Platform Text where
  sha8 _ := "c2a908d9".toList
  filePath dir name := dir ++ '/' :: name
  file := id

private def long (write : WriteOutcome) : TruncateCall :=
  { content := List.replicate 200 'a', truncateAfter := some 180, truncateNotice := "...".toList
    saveDir := some "out".toList, write }

/-- The second result points to the file of the first. -/
theorem truncated_output_held_twice : ∃ w, execAllowed (step disk) (Allowed disk) { files := fun _ => none }
      [long .written, long .notCreated] = some w ∧
    (w.results.map fun r => r.2.2.isSome) = [true, true] ∧ ∀ r ∈ w.results, Faithful disk w.files r.1 r.2.1 r.2.2 := by
  have hrun : (execAllowed (step disk) (Allowed disk) { files := fun _ => none } [long .written, long .notCreated]).map
      (fun w => w.results.map fun r => r.2.2.isSome) = some [true, true] := by decide +kernel
  obtain ⟨w, hw, hsaved⟩ := Option.map_eq_some_iff.1 hrun
  exact ⟨w, hw, hsaved, truncated_output_held (reaches_of_execAllowed .init hw)⟩

/-- The file is what the first write left of the content. -/
theorem partial_file_trusted : ∃ w, exec (step disk) { files := fun _ => none } [long (.cut 1), long .written] = some w ∧
    w.files "out/output_output_c2a908d9.txt".toList = some [97] ∧
    ¬ ∀ r ∈ w.results, Faithful disk w.files r.1 r.2.1 r.2.2 := by
  have hroom : (savedTo ++ (long .written).savedPath disk ((long .written).saveDir.getD [])).length ≤
      (long .written).limit := by
    rw [List.length_append, length_savedTo]
    decide +kernel
  have hfound : ((maybeTruncate disk (fun _ => none) (long (.cut 1))).files
      (disk.file ((long .written).savedPath disk ((long .written).saveDir.getD [])))).isSome = true := by decide +kernel
  obtain ⟨hsaved, hnamed⟩ := maybeTruncate_found (by decide +kernel) hfound hroom
  refine ⟨_, rfl, by decide +kernel, fun h => ?_⟩
  have hheld := (h _ (List.mem_append_right _ (List.mem_singleton_self _))).held
  dsimp only at hheld
  rw [hsaved] at hheld
  have hlast := hheld _ rfl hnamed
  revert hlast
  decide +kernel

end World

end AgentSdk.Truncate
