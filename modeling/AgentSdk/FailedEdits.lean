import AgentSdk.EditorSteps
/-!
# Commands that fail

When a command of the editor that raises leaves the files and the histories as
they were.
-/

namespace AgentSdk.FileEditing
open Lib

variable {p : Platform} {m : Moment} {s s' : FileEditor} {path : Path}

def Node.contents : Node → Option ByteArray
  | .file f => some f.bytes
  | .dir => none

/-- Each path holds what it held, and so does the history. -/
structure Unchanged (s s' : FileEditor) : Prop where
  contents : ∀ q, (s'.nodes q).map Node.contents = (s.nodes q).map Node.contents
  history : s'.history = s.history

def FailsCleanly (p : Platform) (m : Moment) (s : FileEditor) (path : Path) (c : Command) : Prop :=
  ∀ e s', call p m path c s = .error e s' → Unchanged s s'

/-- An edited text can be read once it is in place: after `str_replace` the lines
that are shown, after `insert` the whole text as well. An edit of `insert` that
puts the very same bytes in place changes nothing if it fails. -/
def Edit.ReadsBack (p : Platform) (m : Moment) (s : FileEditor) (path : Path) (e : Edit) : Prop :=
  ∀ t new stop s₁, Edited p m s path e t new stop s₁ →
    match e with
    | .strReplace _ _ => s₁.readsLines p path stop = true
    | .insert _ _ =>
      if s₁.readsLines p path stop then s₁.reads p path ≠ none
      else (s₁.nodes path).map Node.contents = (s.nodes path).map Node.contents

/-- What has to hold before the command. -/
def Command.Safe (p : Platform) (m : Moment) (s : FileEditor) (path : Path) : Command → Prop
  | .strReplace (some oldStr) (some newStr) =>
    newStr ≠ oldStr → p.isHostAbsolutePath path = true → (Edit.strReplace oldStr newStr).ReadsBack p m s path
  | .insert (some k) (some newStr) =>
    p.isHostAbsolutePath path = true → (Edit.insert k newStr).ReadsBack p m s path
  | .undoEdit => p.isHostAbsolutePath path = true → s.reads p path ≠ none →
      (FileCache.getMetadata s.history path).entries ≠ [] →
        m.writable = true ∧ (FileCache.popLastHistory path s.history).1 ≠ none
  | _ => True

/-! ## The history -/

/-- An entry that is added is counted. -/
theorem addHistory_ne (maxHistory : Nat) (path : Path) (content : Text) (h : FileCache) :
    FileCache.addHistory maxHistory path content h ≠ h := by
  intro heq
  have hcounter := congrArg (fun h => (FileCache.getMetadata h path).counter) heq
  unfold FileCache.addHistory at hcounter
  simp only [getMetadata_setMetadata] at hcounter
  omega

theorem popLastHistory_empty {h : FileCache} (hnil : (FileCache.getMetadata h path).entries = []) :
    FileCache.popLastHistory path h = (none, h) := by
  unfold FileCache.popLastHistory
  dsimp only
  rw [hnil]
  rfl

/-- An entry that is taken is gone. -/
theorem popLastHistory_ne {h : FileCache} (hne : (FileCache.getMetadata h path).entries ≠ []) :
    (FileCache.popLastHistory path h).2 ≠ h := by
  intro heq
  have hentries := congrArg (fun h => (FileCache.getMetadata h path).entries.length) heq
  unfold FileCache.popLastHistory at hentries
  dsimp only at hentries
  rw [List.getLast?_eq_some_getLast hne] at hentries
  have hpos := List.length_pos_iff.2 hne
  dsimp only at hentries
  split at hentries <;> simp only [getMetadata_setMetadata, List.length_dropLast] at hentries <;> omega

/-! ## Each command -/

theorem Untouched.unchanged (h : Untouched s s') : Unchanged s s' := ⟨fun q => by rw [h.1], h.2⟩

theorem not_unchanged_of_record {s₁ : FileEditor} {t : Text} (hs₁ : s₁.history = s.history) :
    ¬ Unchanged s ((s₁.record path t).look p path) := by
  intro h
  have hhistory := h.history
  rw [look_history] at hhistory
  exact addHistory_ne s₁.maxHistory path t s₁.history (hhistory.trans hs₁.symm)

theorem Edited.history {e : Edit} {t new : Text} {stop : Nat} {s₁ : FileEditor} (h : Edited p m s path e t new stop s₁) :
    s₁.history = s.history := by
  obtain ⟨r, -, rfl⟩ := h.written
  exact look_history s path

theorem Edited.nodes {e : Edit} {t new : Text} {stop : Nat} {s₁ : FileEditor} (h : Edited p m s path e t new stop s₁) :
    ∀ q, q ≠ path → s₁.nodes q = s.nodes q := by
  obtain ⟨r, -, rfl⟩ := h.written
  intro q hq
  show Function.update (s.look p path).nodes path _ q = _
  rw [Function.update_of_ne hq, look_nodes]

theorem strReplace_cleanly_iff {oldStr newStr : Text} {f : File} (hf : s.nodes path = some (.file f)) :
    (∀ e s', strReplace p m path oldStr newStr s = .error e s' → Unchanged s s') ↔
      (Edit.strReplace oldStr newStr).ReadsBack p m s path := by
  have hspec := @strReplace_spec p m s path f oldStr newStr hf
  constructor
  · intro hclean t new stop s₁ hedit
    cases hrun : strReplace p m path oldStr newStr s with
    | ok obs s' =>
      obtain ⟨t', new', stop', s₁', hedit', hlines, -, -⟩ := hspec.of_ok hrun
      obtain ⟨rfl, rfl, rfl, rfl⟩ := hedit.unique hedit'
      exact hlines
    | error e s' =>
      rcases hspec.of_error hrun with ⟨-, hno⟩ | ⟨t', new', stop', s₁', hedit', -, rfl⟩
      · exact absurd hedit (hno t new stop s₁)
      · exact absurd (hclean e _ hrun) (not_unchanged_of_record hedit'.history)
  · intro hreads e s' hrun
    rcases hspec.of_error hrun with ⟨hsame, -⟩ | ⟨t, new, stop, s₁, hedit, hno, -⟩
    · exact hsame.unchanged
    · rw [show s₁.readsLines p path stop = true from hreads t new stop s₁ hedit] at hno
      cases hno

theorem insert_cleanly_iff {k : Int} {newStr : Text} {f : File} (hf : s.nodes path = some (.file f)) :
    (∀ e s', insert p m path k newStr s = .error e s' → Unchanged s s') ↔
      (Edit.insert k newStr).ReadsBack p m s path := by
  have hspec := @insert_spec p m s path f k newStr hf
  constructor
  · intro hclean t new stop s₁ hedit
    dsimp only
    cases hrun : insert p m path k newStr s with
    | ok obs s' =>
      obtain ⟨t', new', stop', s₁', hedit', hlines, -, -, hreads⟩ := hspec.of_ok hrun
      obtain ⟨rfl, rfl, rfl, rfl⟩ := hedit.unique hedit'
      rw [if_pos hlines, hreads]
      nofun
    | error e s' =>
      rcases hspec.of_error hrun with ⟨-, hno⟩ | ⟨t', new', stop', s₁', hedit', ⟨hlines, rfl⟩ | ⟨-, -, rfl⟩⟩
      · exact absurd hedit (hno t new stop s₁)
      · obtain ⟨rfl, rfl, rfl, rfl⟩ := hedit.unique hedit'
        rw [if_neg (by rw [hlines]; nofun)]
        have hsame := (hclean e _ hrun).contents path
        rwa [look_nodes] at hsame
      · exact absurd (hclean e _ hrun) (not_unchanged_of_record hedit'.history)
  · intro hreads e s' hrun
    rcases hspec.of_error hrun with ⟨hsame, -⟩ | ⟨t, new, stop, s₁, hedit, hfail⟩
    · exact hsame.unchanged
    have hback := hreads t new stop s₁ hedit
    dsimp only at hback
    rcases hfail with ⟨hlines, rfl⟩ | ⟨hlines, hno, -⟩
    · rw [if_neg (by rw [hlines]; nofun)] at hback
      refine ⟨fun q => ?_, by rw [look_history, hedit.history]⟩
      rw [look_nodes]
      by_cases hq : q = path
      · rw [hq, hback]
      · rw [hedit.nodes q hq]
    · rw [if_pos hlines] at hback
      exact absurd hno hback

/-- A file that was read can be written. -/
theorem writes_of_reads {t text : Text} (hreads : s.reads p path = some t) (hw : m.writable = true) :
    s.writes p m path text ≠ none := by
  unfold FileEditor.reads at hreads
  unfold FileEditor.writes
  cases hf : s.nodes path with
  | none => simp [hf] at hreads
  | some n =>
    cases n with
    | dir => simp [hf] at hreads
    | file f =>
      rw [hf] at hreads
      dsimp only at hreads ⊢
      split at hreads
      · rename_i hok
        rw [hok, hw, Bool.and_self, if_pos rfl]
        unfold encodeText
        cases hc : p.codec (s.encodingOf p path f) with
        | none => simp [Platform.readText, Platform.decode, hc] at hreads
        | some c =>
          dsimp only
          cases henc : c.encode text with
          | some b => exact fun h => by cases h
          | none =>
            dsimp only
            split
            · rename_i hdefault
              rw [hdefault, p.codec_default] at hc
              cases hc
              cases henc
            · exact fun h => by cases h
      · cases hreads

theorem undoEdit_cleanly_iff : (∀ e s', undoEdit p m path s = .error e s' → Unchanged s s') ↔
    (s.reads p path ≠ none → (FileCache.getMetadata s.history path).entries ≠ [] →
      m.writable = true ∧ (FileCache.popLastHistory path s.history).1 ≠ none) := by
  have hspec := @undoEdit_spec p m s path
  constructor
  · intro hclean hread hentries
    cases hrun : undoEdit p m path s with
    | ok obs s' =>
      obtain ⟨t, old, r, -, hpop, hr, -, -⟩ := hspec.of_ok hrun
      refine ⟨?_, by rw [hpop]; nofun⟩
      by_contra hno
      have hnone : s.writes p m path old = none := by
        unfold FileEditor.writes
        cases s.nodes path with
        | none => simp [hno]
        | some n => cases n <;> simp [hno]
      rw [hnone] at hr
      cases hr
    | error e s' =>
      rcases hspec.of_error hrun with ⟨-, hno⟩ | ⟨t, -, -, rfl⟩
      · exact absurd hno hread
      · exact absurd (hclean e _ hrun).history (popLastHistory_ne hentries)
  · intro hsafe e s' hrun
    rcases hspec.of_error hrun with ⟨hsame, -⟩ | ⟨t, hread, hnowrite, rfl⟩
    · exact hsame.unchanged
    by_cases hentries : (FileCache.getMetadata s.history path).entries = []
    · rw [popLastHistory_empty hentries]
      exact ⟨fun q => by rw [look_nodes], rfl⟩
    · obtain ⟨hw, hsome⟩ := hsafe (by rw [hread]; nofun) hentries
      obtain ⟨old, hold⟩ := Option.ne_none_iff_exists'.1 hsome
      exact absurd (hnowrite old hold) (writes_of_reads hread hw)

theorem create_cleanly (fileText : Option Text) : FailsCleanly p m s path (.create fileText) := by
  have hends : Ends (call p m path (.create fileText) ) s (fun _ _ => True) fun _ s' => Untouched s s' := by
    unfold call
    refine ((validatePath_spec s _ path).mono (fun _ _ h => h) ?_ : Ends _ _ _ _).bind ?_
    · rintro - s' rfl
      exact .refl s'
    rintro - s' ⟨rfl, -⟩
    cases fileText with
    | none => exact .refl s'
    | some fileText =>
      refine ((writeFile_spec _ path _).mono (fun _ _ h => h) ?_ : Ends _ _ _ _).bind ?_
      · rintro - s'' ⟨rfl, -⟩
        exact untouched_look s' path
      · exact fun _ _ _ => trivial
  exact fun e s' h => (hends.of_error h).unchanged

/-- A command on a path that is refused changes nothing. -/
theorem fails_cleanly_of_invalid {c : Command} (h : ∀ s', validatePath p c path s ≠ .ok ⟨⟩ s') :
    FailsCleanly p m s path c := by
  intro e s' hcall
  cases hv : validatePath p c path s with
  | ok u s'' => exact absurd hv (h s'')
  | error e' s'' =>
    rw [call_of_invalid hv] at hcall
    cases hcall
    rw [(validatePath_spec s c path).of_error hv]
    exact (Untouched.refl s).unchanged

theorem validatePath_relative {c : Command} (habs : p.isHostAbsolutePath path = false) :
    validatePath p c path s = .error (.notAbsolute path) s := by
  simp [validatePath, bind, EStateM.bind, habs, throw_apply]

/-- A command that lacks an argument changes nothing. -/
theorem missing_cleanly {c : Command} (hc : ∀ t, c ≠ .create t)
    (h : validatePath p c path s = .ok ⟨⟩ s → ∃ e, call p m path c s = .error e s) : FailsCleanly p m s path c := by
  cases habs : p.isHostAbsolutePath path with
  | false => exact fails_cleanly_of_invalid fun s' => by rw [validatePath_relative habs]; nofun
  | true =>
    by_cases hf : ∃ f, s.nodes path = some (.file f)
    · obtain ⟨f, hf⟩ := hf
      obtain ⟨e, hcall⟩ := h (validatePath_file habs hf hc)
      intro e' s' hrun
      rw [hcall] at hrun
      cases hrun
      exact (Untouched.refl s).unchanged
    · refine fails_cleanly_of_invalid fun s' hv => ?_
      obtain ⟨-, ⟨⟨t, ht⟩, -⟩ | ⟨-, hfile⟩⟩ := (validatePath_spec s c path).of_ok hv
      · exact hc t ht
      · exact hf hfile

/-- A command on a file: it is decided by what follows the check of the path. -/
theorem cleanly_iff_of_file {c : Command} {P : Prop} (hc : ∀ t, c ≠ .create t)
    (hno : (∀ f, s.nodes path ≠ some (.file f)) → P)
    (hfile : ∀ f, s.nodes path = some (.file f) → validatePath p c path s = .ok ⟨⟩ s → (FailsCleanly p m s path c ↔ P)) :
    FailsCleanly p m s path c ↔ (p.isHostAbsolutePath path = true → P) := by
  cases habs : p.isHostAbsolutePath path with
  | false => exact ⟨fun _ => nofun, fun _ => fails_cleanly_of_invalid fun s' => by rw [validatePath_relative habs]; nofun⟩
  | true =>
    by_cases hf : ∃ f, s.nodes path = some (.file f)
    · obtain ⟨f, hf⟩ := hf
      rw [hfile f hf (validatePath_file habs hf hc)]
      exact ⟨fun h _ => h, fun h => h rfl⟩
    · refine ⟨fun _ _ => hno fun f h => hf ⟨f, h⟩, fun _ => fails_cleanly_of_invalid fun s' hv => ?_⟩
      obtain ⟨-, ⟨⟨t, ht⟩, -⟩ | ⟨-, hfile⟩⟩ := (validatePath_spec s c path).of_ok hv
      · exact hc t ht
      · exact hf hfile

theorem reads_of_no_file (h : ∀ f, s.nodes path ≠ some (.file f)) : s.reads p path = none := by
  unfold FileEditor.reads
  cases hn : s.nodes path with
  | none => rfl
  | some n =>
    cases n with
    | dir => rfl
    | file f => exact absurd hn (h f)

theorem readsBack_of_no_file {e : Edit} (h : ∀ f, s.nodes path ≠ some (.file f)) : e.ReadsBack p m s path :=
  fun t new stop s₁ hedit => absurd hedit (noEdit_of_unread (reads_of_no_file h) t new stop s₁)

/-- A command that fails changes nothing exactly if it is safe. -/
theorem fails_cleanly_iff (p : Platform) (m : Moment) (s : FileEditor) (path : Path) (c : Command) :
    FailsCleanly p m s path c ↔ c.Safe p m s path := by
  cases c with
  | create fileText => exact ⟨fun _ => trivial, fun _ => create_cleanly fileText⟩
  | undoEdit =>
    refine cleanly_iff_of_file (fun _ h => by cases h) (fun hno hread => absurd (reads_of_no_file hno) hread) fun f hf hv => ?_
    unfold FailsCleanly
    rw [call_undoEdit hv]
    exact undoEdit_cleanly_iff
  | insert k newStr =>
    have hmissing : ∀ c : Command, (c = .insert none newStr ∨ ∃ k, c = .insert (some k) none) → FailsCleanly p m s path c := by
      rintro c (rfl | ⟨k, rfl⟩)
      · exact missing_cleanly (fun _ h => by cases h) fun hv => ⟨_, by simp only [call, bind, EStateM.bind, hv]; rfl⟩
      · exact missing_cleanly (fun _ h => by cases h) fun hv => ⟨_, by simp only [call, bind, EStateM.bind, hv]; rfl⟩
    cases k with
    | none => exact ⟨fun _ => trivial, fun _ => hmissing _ (.inl rfl)⟩
    | some k =>
      cases newStr with
      | none => exact ⟨fun _ => trivial, fun _ => hmissing _ (.inr ⟨k, rfl⟩)⟩
      | some newStr =>
        refine cleanly_iff_of_file (fun _ h => by cases h) readsBack_of_no_file fun f hf hv => ?_
        unfold FailsCleanly
        rw [show Command.insert (some k) (some newStr) = (Edit.insert k newStr).command from rfl, call_edit hv]
        exact insert_cleanly_iff hf
  | strReplace oldStr newStr =>
    have hmissing : ∀ c : Command, (c = .strReplace none newStr ∨ ∃ o, c = .strReplace (some o) none) →
        FailsCleanly p m s path c := by
      rintro c (rfl | ⟨o, rfl⟩)
      · exact missing_cleanly (fun _ h => by cases h) fun hv => ⟨_, by simp only [call, bind, EStateM.bind, hv]; rfl⟩
      · exact missing_cleanly (fun _ h => by cases h) fun hv => ⟨_, by simp only [call, bind, EStateM.bind, hv]; rfl⟩
    cases oldStr with
    | none => exact ⟨fun _ => trivial, fun _ => hmissing _ (.inl rfl)⟩
    | some oldStr =>
      cases newStr with
      | none => exact ⟨fun _ => trivial, fun _ => hmissing _ (.inr ⟨oldStr, rfl⟩)⟩
      | some newStr =>
        by_cases hsame : newStr = oldStr
        · refine ⟨fun _ hne => absurd hsame hne, fun _ => missing_cleanly (fun _ h => by cases h) fun hv => ⟨.sameStrings, ?_⟩⟩
          simp only [call, bind, EStateM.bind, hv, if_pos hsame]
          rfl
        · have hedit : FailsCleanly p m s path (.strReplace (some oldStr) (some newStr)) ↔
              (p.isHostAbsolutePath path = true → (Edit.strReplace oldStr newStr).ReadsBack p m s path) := by
            refine cleanly_iff_of_file (fun _ h => by cases h) readsBack_of_no_file fun f hf hv => ?_
            unfold FailsCleanly
            rw [show Command.strReplace (some oldStr) (some newStr) = (Edit.strReplace oldStr newStr).command from rfl,
              call_edit hv, runEdit, if_neg hsame]
            exact strReplace_cleanly_iff hf
          rw [hedit]
          exact ⟨fun h _ => h, fun h => h hsame⟩

/-- An editor whose file was edited once. -/
def editedOnce : FileEditor := (editorOf "b").record "/f" "a".toList

/-- An undo that cannot write loses the entry. -/
theorem undo_loses_entry : ¬ ∀ (p : Platform) (m : Moment) (s : FileEditor) (path : Path) (c : Command),
    FailsCleanly p m s path c := by
  intro h
  have hclean := h plainPlatform ⟨false, 1⟩ editedOnce "/f" .undoEdit
  have hv : validatePath plainPlatform .undoEdit "/f" editedOnce = .ok ⟨⟩ editedOnce :=
    validatePath_file (by decide +kernel) (show editedOnce.nodes "/f" = some (.file ⟨"b".toUTF8, 0⟩) from rfl) nofun
  unfold FailsCleanly at hclean
  rw [call_undoEdit hv] at hclean
  have hread : (editedOnce.reads plainPlatform "/f").isSome = true := by decide +kernel
  have hentries : (FileCache.getMetadata editedOnce.history "/f").entries = [0] := by decide +kernel
  have hsafe := undoEdit_cleanly_iff.1 hclean (Option.ne_none_iff_isSome.2 hread) (by rw [hentries]; nofun)
  cases hsafe.1

end AgentSdk.FileEditing
