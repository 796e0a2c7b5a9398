import AgentSdk.FileEditor
/-!
# What the editor's functions leave

Each function of the editor as its effect on the state: what is read, what is
written, and when it fails.
-/

namespace AgentSdk.FileEditing
open Lib

variable {p : Platform} {m : Moment} {s : FileEditor} {path q : Path} {f : File}

/-! ## The history -/

theorem getMetadata_setMetadata (h : FileCache) (path : Path) (md : Metadata) :
    FileCache.getMetadata (FileCache.setMetadata h path md) path = md := by
  unfold FileCache.getMetadata FileCache.setMetadata
  rw [Function.update_self]

/-! ## Effects -/

section Effects
variable (p)

/-- The encoding of the file is found and kept. -/
def FileEditor.look (s : FileEditor) (path : Path) : FileEditor :=
  match s.nodes path with
  | some (.file f) =>
    { s with encodings := Function.update s.encodings path (some (s.encodingOf p path f, f.modified)) }
  | _ => s

def FileEditor.put (s : FileEditor) (path : Path) (f : File) : FileEditor :=
  { s with nodes := Function.update s.nodes path (some (.file f)) }

def FileEditor.record (s : FileEditor) (path : Path) (content : Text) : FileEditor :=
  { s with history := FileCache.addHistory s.maxHistory path content s.history }

def FileEditor.accepts (s : FileEditor) (path : Path) (f : File) : Bool :=
  decide (f.bytes.size ≤ s.maxFileSize) &&
    (!(p.isBinary path f.bytes && !isImage path) || (p.readText (s.encodingOf p path f) f.bytes).any isCleanText)

def FileEditor.reads (s : FileEditor) (path : Path) : Option Text :=
  match s.nodes path with
  | some (.file f) => if s.accepts p path f then p.readText (s.encodingOf p path f) f.bytes else none
  | _ => none

/-- The lines up to this one can be read. -/
def FileEditor.readsLines (s : FileEditor) (path : Path) (stop : Nat) : Bool :=
  match s.nodes path with
  | some (.file f) => s.accepts p path f && (p.firstLines (s.encodingOf p path f) f.bytes stop).isSome
  | _ => false

/-- The encoding and the bytes in which a text is put in place, if it can be. -/
def FileEditor.writes (s : FileEditor) (m : Moment) (path : Path) (text : Text) : Option (Encoding × ByteArray) :=
  match s.nodes path with
  | some (.file f) =>
    if s.accepts p path f && m.writable then encodeText p (s.encodingOf p path f) text else none
  | some .dir => none
  | none => if m.writable then encodeText p defaultEncoding text else none

end Effects

@[simp] theorem look_nodes (s : FileEditor) (path : Path) : (s.look p path).nodes = s.nodes := by
  unfold FileEditor.look
  split <;> rfl

@[simp] theorem look_history (s : FileEditor) (path : Path) : (s.look p path).history = s.history := by
  unfold FileEditor.look
  split <;> rfl

@[simp] theorem look_maxHistory (s : FileEditor) (path : Path) : (s.look p path).maxHistory = s.maxHistory := by
  unfold FileEditor.look
  split <;> rfl

@[simp] theorem look_maxFileSize (s : FileEditor) (path : Path) : (s.look p path).maxFileSize = s.maxFileSize := by
  unfold FileEditor.look
  split <;> rfl

theorem look_of_file (h : s.nodes path = some (.file f)) : s.look p path =
    { s with encodings := Function.update s.encodings path (some (s.encodingOf p path f, f.modified)) } := by
  rw [FileEditor.look, h]

theorem encodingOf_look (h : s.nodes path = some (.file f)) :
    (s.look p path).encodingOf p path f = s.encodingOf p path f := by
  rw [look_of_file h]
  simp only [FileEditor.encodingOf, Function.update_self, ↓reduceIte]

theorem accepts_look (h : s.nodes path = some (.file f)) : (s.look p path).accepts p path f = s.accepts p path f := by
  unfold FileEditor.accepts
  rw [encodingOf_look h, look_maxFileSize]

@[simp] theorem look_look (s : FileEditor) (path : Path) : (s.look p path).look p path = s.look p path := by
  cases h : s.nodes path with
  | none => simp only [FileEditor.look, h]
  | some n =>
    cases n with
    | dir => simp only [FileEditor.look, h]
    | file f =>
      rw [look_of_file (by rw [look_nodes, h] : (s.look p path).nodes path = _), encodingOf_look h, look_of_file h]
      simp only [Function.update_idem]

theorem reads_look (s : FileEditor) (path : Path) : (s.look p path).reads p path = s.reads p path := by
  unfold FileEditor.reads
  rw [look_nodes]
  cases h : s.nodes path with
  | none => rfl
  | some n =>
    cases n with
    | dir => rfl
    | file f =>
      dsimp only
      rw [accepts_look h, encodingOf_look h]

theorem writes_look (s : FileEditor) (path : Path) (text : Text) :
    (s.look p path).writes p m path text = s.writes p m path text := by
  unfold FileEditor.writes
  rw [look_nodes]
  cases h : s.nodes path with
  | none => rfl
  | some n =>
    cases n with
    | dir => rfl
    | file f =>
      dsimp only
      rw [accepts_look h, encodingOf_look h]

/-! ## Reading and writing -/

theorem getEncoding_eq (h : s.nodes path = some (.file f)) :
    getEncoding p path f s = .ok (s.encodingOf p path f) (s.look p path) := by
  rw [look_of_file h]
  rfl

/-- The file passes, or is refused; its encoding may have been found. -/
theorem validateFile_spec (h : s.nodes path = some (.file f)) :
    Ends (validateFile p path) s (fun _ s' => (s' = s ∨ s' = s.look p path) ∧ s.accepts p path f = true)
      fun _ s' => (s' = s ∨ s' = s.look p path) ∧ s.accepts p path f = false := by
  unfold validateFile
  refine Ends.get_then ?_
  rw [h]
  dsimp only
  refine Ends.get_then ?_
  unfold FileEditor.accepts
  by_cases hsize : s.maxFileSize < f.bytes.size
  · rw [if_pos hsize]
    refine ⟨.inl rfl, ?_⟩
    rw [decide_eq_false (by omega)]
    rfl
  · rw [if_neg hsize, decide_eq_true (by omega)]
    by_cases hbin : (p.isBinary path f.bytes && !isImage path) = true
    · rw [if_pos hbin, hbin]
      refine Ends.bind (Q := fun e s' => e = s.encodingOf p path f ∧ s' = s.look p path) (?_ : Ends _ _ _ _) ?_
      · show Ends (getEncoding p path f) s _ _
        unfold Ends
        rw [getEncoding_eq h]
        exact ⟨rfl, rfl⟩
      · rintro e s' ⟨rfl, rfl⟩
        cases hclean : (p.readText (s.encodingOf p path f) f.bytes).any isCleanText with
        | true => exact ⟨.inr rfl, rfl⟩
        | false => exact ⟨.inr rfl, rfl⟩
    · rw [if_neg hbin, Bool.not_eq_true] at *
      rw [hbin]
      exact ⟨.inl rfl, rfl⟩

theorem validateFile_look (h : s.nodes path = some (.file f)) :
    Ends (validateFile p path) (s.look p path) (fun _ s' => s' = s.look p path ∧ s.accepts p path f = true)
      fun _ s' => s' = s.look p path ∧ s.accepts p path f = false := by
  have hnode : (s.look p path).nodes path = some (.file f) := by rw [look_nodes, h]
  refine (validateFile_spec hnode).mono ?_ ?_
  · rintro - s' ⟨hs', hok⟩
    rw [look_look, or_self] at hs'
    exact ⟨hs', by rwa [accepts_look h] at hok⟩
  · rintro - s' ⟨hs', hno⟩
    rw [look_look, or_self] at hs'
    exact ⟨hs', by rwa [accepts_look h] at hno⟩

/-- A file that is opened: its encoding is found, and it passes or is refused. -/
theorem withFile_spec {α : Type} {read : File → Encoding → Edits α} {Q : α → FileEditor → Prop}
    {R : ToolError → FileEditor → Prop} (hno : s.nodes path = none ∨ s.nodes path = some .dir → R (.reading path) s)
    (hrefused : ∀ f, s.nodes path = some (.file f) → s.accepts p path f = false → ∀ e, R e (s.look p path))
    (hread : ∀ f, s.nodes path = some (.file f) → s.accepts p path f = true →
      Ends (read f (s.encodingOf p path f)) (s.look p path) Q R) : Ends (withFile p path read) s Q R := by
  unfold withFile
  refine Ends.get_then ?_
  cases h : s.nodes path with
  | none => exact hno (.inl h)
  | some n =>
    cases n with
    | dir => exact hno (.inr h)
    | file f =>
      have hget : Ends (getEncoding p path f) s (fun e s' => e = s.encodingOf p path f ∧ s' = s.look p path) R := by
        unfold Ends
        rw [getEncoding_eq h]
        exact ⟨rfl, rfl⟩
      refine hget.bind ?_
      rintro e s' ⟨rfl, rfl⟩
      have hvalid : Ends (validateFile p path) (s.look p path)
          (fun _ s' => s' = s.look p path ∧ s.accepts p path f = true) R := by
        refine (validateFile_look h).mono (fun _ _ h => h) ?_
        rintro e s' ⟨rfl, hno⟩
        exact hrefused f h hno e
      refine hvalid.bind ?_
      rintro - s' ⟨rfl, hok⟩
      exact hread f h hok

theorem readFile_spec (s : FileEditor) (path : Path) :
    Ends (readFile p path) s (fun t s' => s' = s.look p path ∧ s.reads p path = some t)
      fun _ s' => s' = s.look p path ∧ s.reads p path = none := by
  unfold readFile
  refine withFile_spec ?_ ?_ ?_
  · rintro (h | h) <;> simp only [FileEditor.look, FileEditor.reads, h, and_self]
  · intro f h hno _
    exact ⟨rfl, by simp [FileEditor.reads, h, hno]⟩
  · intro f h hok
    cases ht : p.readText (s.encodingOf p path f) f.bytes with
    | some t => exact ⟨rfl, by simp [FileEditor.reads, h, hok, ht]⟩
    | none => exact ⟨rfl, by simp [FileEditor.reads, h, hok, ht]⟩

theorem readLines_spec (s : FileEditor) (path : Path) (start stop : Nat) :
    Ends (readLines p path start stop) s (fun _ s' => s' = s.look p path ∧ s.readsLines p path stop = true)
      fun _ s' => s' = s.look p path ∧ s.readsLines p path stop = false := by
  unfold readLines
  refine withFile_spec ?_ ?_ ?_
  · rintro (h | h) <;> simp only [FileEditor.look, FileEditor.readsLines, h, and_self]
  · intro f h hno _
    exact ⟨rfl, by simp [FileEditor.readsLines, h, hno]⟩
  · intro f h hok
    cases ht : p.firstLines (s.encodingOf p path f) f.bytes stop with
    | some ls => exact ⟨rfl, by simp [FileEditor.readsLines, h, hok, ht]⟩
    | none => exact ⟨rfl, by simp [FileEditor.readsLines, h, hok, ht]⟩

theorem atomicWrite_spec (s : FileEditor) (path : Path) (text : Text) (e : Encoding) :
    Ends (atomicWrite p m path text e) s
      (fun _ s' => ∃ r, m.writable = true ∧ encodeText p e text = some r ∧ s' = s.put path ⟨r.2, m.now⟩)
      fun _ s' => s' = s ∧ (m.writable = false ∨ encodeText p e text = none) := by
  unfold atomicWrite
  cases hr : encodeText p e text with
  | none => exact ⟨rfl, .inr rfl⟩
  | some r =>
    cases hw : m.writable with
    | true => exact ⟨r, rfl, rfl, rfl⟩
    | false => exact ⟨rfl, .inl rfl⟩

theorem writeFile_spec (s : FileEditor) (path : Path) (text : Text) :
    Ends (writeFile p m path text) s
      (fun _ s' => ∃ r, s.writes p m path text = some r ∧ s' = (s.look p path).put path ⟨r.2, m.now⟩)
      fun _ s' => s' = s.look p path ∧ s.writes p m path text = none := by
  unfold writeFile
  refine Ends.get_then ?_
  cases h : s.nodes path with
  | none =>
    have hlook : s.look p path = s := by simp only [FileEditor.look, h]
    refine (atomicWrite_spec s path text defaultEncoding).mono ?_ ?_
    · rintro - s' ⟨r, hw, hr, rfl⟩
      exact ⟨r, by simp [FileEditor.writes, h, hw, hr], by rw [hlook]⟩
    · rintro - s' ⟨rfl, hno⟩
      exact ⟨hlook.symm, by rcases hno with hno | hno <;> simp [FileEditor.writes, h, hno]⟩
  | some n =>
    cases n with
    | dir => exact ⟨by simp only [FileEditor.look, h], by simp only [FileEditor.writes, h]⟩
    | file f =>
      dsimp only
      have hget : Ends (getEncoding p path f) s (fun e s' => e = s.encodingOf p path f ∧ s' = s.look p path)
          fun _ s' => s' = s.look p path ∧ s.writes p m path text = none := by
        unfold Ends
        rw [getEncoding_eq h]
        exact ⟨rfl, rfl⟩
      refine hget.bind ?_
      rintro e s' ⟨rfl, rfl⟩
      have hvalid : Ends (validateFile p path) (s.look p path)
          (fun _ s' => s' = s.look p path ∧ s.accepts p path f = true)
          fun _ s' => s' = s.look p path ∧ s.writes p m path text = none := by
        refine (validateFile_look h).mono (fun _ _ h => h) ?_
        rintro e s' ⟨rfl, hno⟩
        exact ⟨rfl, by simp [FileEditor.writes, h, hno]⟩
      refine hvalid.bind ?_
      rintro - s' ⟨rfl, hok⟩
      refine (atomicWrite_spec _ path text _).mono ?_ ?_
      · rintro - s' ⟨r, hw, hr, rfl⟩
        exact ⟨r, by simp [FileEditor.writes, h, hok, hw, hr], rfl⟩
      · rintro - s' ⟨rfl, hno⟩
        exact ⟨rfl, by rcases hno with hno | hno <;> simp [FileEditor.writes, h, hno]⟩

/-! ## Edits -/

inductive Edit where
  | strReplace (oldStr newStr : Text)
  | insert (insertLine : Int) (newStr : Text)
deriving DecidableEq

def Edit.command : Edit → Command
  | .strReplace oldStr newStr => .strReplace (some oldStr) (some newStr)
  | .insert k newStr => .insert (some k) (some newStr)

/-- The text that is written for a text that was read, and the last line of the
snippet that is shown of it. -/
def Edit.plan : Edit → Text → Option (Text × Nat)
  | .strReplace oldStr newStr, t =>
    match findOld t oldStr with
    | (old, [idx]) =>
      some (t.take idx ++ newStr ++ t.drop (idx + old.length), lineOf t idx + snippetContextWindow + newStr.count '\n')
    | _ => none
  | .insert k newStr, t =>
    let numLines := (lines t).length
    if k < 0 ∨ k > numLines then none
    else
      let newLines := (newStr.splitOn '\n').map (· ++ ['\n'])
      some (((lines t).take k.toNat ++ newLines ++ (lines t).drop k.toNat).flatten,
        min (numLines + newLines.length) (k.toNat + snippetContextWindow + newLines.length))

/-- Up to the moment when the edited text is in place. -/
structure Edited (p : Platform) (m : Moment) (s : FileEditor) (path : Path) (e : Edit) (t new : Text) (stop : Nat)
    (s₁ : FileEditor) : Prop where
  reads : s.reads p path = some t
  plan : e.plan t = some (new, stop)
  written : ∃ r, s.writes p m path new = some r ∧ s₁ = (s.look p path).put path ⟨r.2, m.now⟩

/-- The edit does not come to a text in place. -/
def NoEdit (p : Platform) (m : Moment) (s : FileEditor) (path : Path) (e : Edit) : Prop :=
  ∀ t new stop s₁, ¬ Edited p m s path e t new stop s₁

theorem noEdit_of_unread {e : Edit} (h : s.reads p path = none) : NoEdit p m s path e := by
  intro t new stop s₁ hedit
  have := hedit.reads
  rw [h] at this
  cases this

theorem noEdit_of_unwritten {e : Edit} {t new : Text} {stop : Nat} (hreads : s.reads p path = some t)
    (hplan : e.plan t = some (new, stop)) (h : s.writes p m path new = none) : NoEdit p m s path e := by
  intro t' new' stop' s₁ hedit
  obtain rfl := Option.some.inj (hreads.symm.trans hedit.reads)
  obtain ⟨rfl, -⟩ := Prod.mk.inj (Option.some.inj (hplan.symm.trans hedit.plan))
  obtain ⟨r, hr, -⟩ := hedit.written
  rw [h] at hr
  cases hr

theorem noEdit_of_unplanned {e : Edit} {t : Text} (hreads : s.reads p path = some t) (h : e.plan t = none) :
    NoEdit p m s path e := by
  intro t' new stop s₁ hedit
  obtain rfl := Option.some.inj (hreads.symm.trans hedit.reads)
  have := hedit.plan
  rw [h] at this
  cases this

theorem Edited.unique {e : Edit} {t t' new new' : Text} {stop stop' : Nat} {s₁ s₁' : FileEditor}
    (h : Edited p m s path e t new stop s₁) (h' : Edited p m s path e t' new' stop' s₁') :
    t = t' ∧ new = new' ∧ stop = stop' ∧ s₁ = s₁' := by
  obtain rfl := Option.some.inj (h.reads.symm.trans h'.reads)
  obtain ⟨rfl, rfl⟩ := Prod.mk.inj (Option.some.inj (h.plan.symm.trans h'.plan))
  obtain ⟨r, hr, rfl⟩ := h.written
  obtain ⟨r', hr', rfl⟩ := h'.written
  obtain rfl := Option.some.inj (hr.symm.trans hr')
  exact ⟨rfl, rfl, rfl, rfl⟩

/-- The files and the histories are as they were. -/
def Untouched (s s' : FileEditor) : Prop := s'.nodes = s.nodes ∧ s'.history = s.history

theorem Untouched.refl (s : FileEditor) : Untouched s s := ⟨rfl, rfl⟩

theorem untouched_look (s : FileEditor) (path : Path) : Untouched s (s.look p path) := ⟨look_nodes s path, look_history s path⟩

theorem look_setHistory (s : FileEditor) (path : Path) (history : FileCache) :
    FileEditor.look p { s with history } path = { s.look p path with history } := by
  unfold FileEditor.look
  dsimp only
  split <;> rfl

theorem look_record (s : FileEditor) (path : Path) (content : Text) :
    (s.record path content).look p path = (s.look p path).record path content := by
  unfold FileEditor.record
  rw [look_setHistory]
  simp

theorem reads_of_refused (h : s.nodes path = some (.file f)) (hno : s.accepts p path f = false) :
    s.reads p path = none := by simp [FileEditor.reads, h, hno]

theorem strReplace_spec {oldStr newStr : Text} (h : s.nodes path = some (.file f)) :
    Ends (strReplace p m path oldStr newStr) s
      (fun obs s' => ∃ t new stop s₁, Edited p m s path (.strReplace oldStr newStr) t new stop s₁ ∧
        s₁.readsLines p path stop = true ∧ s' = (s₁.record path t).look p path ∧ obs = ⟨some t, new⟩)
      fun _ s' => Untouched s s' ∧ NoEdit p m s path (.strReplace oldStr newStr) ∨
        ∃ t new stop s₁, Edited p m s path (.strReplace oldStr newStr) t new stop s₁ ∧
          s₁.readsLines p path stop = false ∧ s' = (s₁.record path t).look p path := by
  unfold strReplace
  refine ((validateFile_spec h).mono (fun _ _ h => h) ?_ : Ends _ _ _ _).bind ?_
  · rintro - s' ⟨rfl | rfl, hno⟩
    · exact .inl ⟨.refl _, noEdit_of_unread (reads_of_refused h hno)⟩
    · exact .inl ⟨untouched_look s path, noEdit_of_unread (reads_of_refused h hno)⟩
  rintro - s₀ ⟨hs₀, -⟩
  have hlook : s₀.look p path = s.look p path := by
    rcases hs₀ with rfl | rfl
    · rfl
    · exact look_look s path
  have hreads : s₀.reads p path = s.reads p path := by
    rcases hs₀ with rfl | rfl
    · rfl
    · exact reads_look s path
  refine ((readFile_spec s₀ path).mono (fun _ _ h => h) ?_ : Ends _ _ _ _).bind ?_
  · rintro - s' ⟨rfl, hno⟩
    rw [hlook]
    exact .inl ⟨untouched_look s path, noEdit_of_unread (hreads.symm.trans hno)⟩
  rintro t s' ⟨rfl, ht⟩
  rw [hreads] at ht
  rw [hlook]
  rcases hfound : findOld t oldStr with ⟨old, places⟩
  match places with
  | [] => exact .inl ⟨untouched_look s path, noEdit_of_unplanned ht (by rw [Edit.plan, hfound])⟩
  | _ :: _ :: _ => exact .inl ⟨untouched_look s path, noEdit_of_unplanned ht (by rw [Edit.plan, hfound])⟩
  | [idx] =>
    dsimp only
    have hplan : (Edit.strReplace oldStr newStr).plan t = some (t.take idx ++ newStr ++ t.drop (idx + old.length),
        lineOf t idx + snippetContextWindow + newStr.count '\n') := by rw [Edit.plan, hfound]
    refine ((writeFile_spec _ path _).mono (fun _ _ h => h) ?_ : Ends _ _ _ _).bind ?_
    · rintro - s' ⟨rfl, hno⟩
      rw [look_look]
      rw [writes_look] at hno
      exact .inl ⟨untouched_look s path, noEdit_of_unwritten ht hplan hno⟩
    rintro - s₁ ⟨r, hr, rfl⟩
    rw [writes_look] at hr
    rw [look_look]
    have hedit : Edited p m s path (.strReplace oldStr newStr) t _ _ _ := ⟨ht, hplan, r, hr, rfl⟩
    refine Ends.modify_then ?_
    refine ((readLines_spec _ path _ _).mono (fun _ _ h => h) ?_ : Ends _ _ _ _).bind ?_
    · rintro - s' ⟨rfl, hno⟩
      exact .inr ⟨t, _, _, _, hedit, hno, rfl⟩
    · rintro - s' ⟨rfl, hok⟩
      exact ⟨t, _, _, _, hedit, hok, rfl, rfl⟩

theorem insert_spec {k : Int} {newStr : Text} (h : s.nodes path = some (.file f)) :
    Ends (insert p m path k newStr) s
      (fun obs s' => ∃ t new stop s₁, Edited p m s path (.insert k newStr) t new stop s₁ ∧
        s₁.readsLines p path stop = true ∧ s' = (s₁.record path t).look p path ∧ obs.oldContent = some t ∧
          s₁.reads p path = some obs.newContent)
      fun _ s' => Untouched s s' ∧ NoEdit p m s path (.insert k newStr) ∨
        ∃ t new stop s₁, Edited p m s path (.insert k newStr) t new stop s₁ ∧
          (s₁.readsLines p path stop = false ∧ s' = s₁.look p path ∨
            s₁.readsLines p path stop = true ∧ s₁.reads p path = none ∧ s' = (s₁.record path t).look p path) := by
  unfold insert
  refine Ends.get_then ?_
  rw [h]
  dsimp only
  -- The encoding is looked up, then the size is checked and the text read.
  have hget : Ends (getEncoding p path f) s (fun e s' => e = s.encodingOf p path f ∧ s' = s.look p path)
      fun _ s' => Untouched s s' ∧ NoEdit p m s path (.insert k newStr) ∨
        ∃ t new stop s₁, Edited p m s path (.insert k newStr) t new stop s₁ ∧
          (s₁.readsLines p path stop = false ∧ s' = s₁.look p path ∨
            s₁.readsLines p path stop = true ∧ s₁.reads p path = none ∧ s' = (s₁.record path t).look p path) := by
    unfold Ends
    rw [getEncoding_eq h]
    exact ⟨rfl, rfl⟩
  refine hget.bind ?_
  rintro e s' ⟨rfl, rfl⟩
  refine ((validateFile_look h).mono (fun _ _ h => h) ?_ : Ends _ _ _ _).bind ?_
  · rintro - s' ⟨rfl, hno⟩
    exact .inl ⟨untouched_look s path, noEdit_of_unread (reads_of_refused h hno)⟩
  rintro - s' ⟨rfl, hok⟩
  cases ht : p.readText (s.encodingOf p path f) f.bytes with
  | none => exact .inl ⟨untouched_look s path, noEdit_of_unread (by simp [FileEditor.reads, h, ht])⟩
  | some t =>
    have hreads : s.reads p path = some t := by simp [FileEditor.reads, h, hok, ht]
    dsimp only
    -- A line that the file does not have is refused before anything is written.
    by_cases hk : k < 0 ∨ k > (lines t).length
    · rw [if_pos hk]
      exact .inl ⟨untouched_look s path, noEdit_of_unplanned hreads (by rw [Edit.plan, if_pos hk])⟩
    rw [if_neg hk]
    have hplan := show (Edit.insert k newStr).plan t = _ by rw [Edit.plan, if_neg hk]
    refine ((writeFile_spec _ path _).mono (fun _ _ h => h) ?_ : Ends _ _ _ _).bind ?_
    · rintro - s' ⟨rfl, hno⟩
      rw [look_look]
      rw [writes_look] at hno
      exact .inl ⟨untouched_look s path, noEdit_of_unwritten hreads hplan hno⟩
    rintro - s₁ ⟨r, hr, rfl⟩
    rw [writes_look] at hr
    rw [look_look]
    have hedit : Edited p m s path (.insert k newStr) t _ _ _ := ⟨hreads, hplan, r, hr, rfl⟩
    -- The lines in front of the place and behind it are the old content.
    have hold : ((lines t).take k.toNat ++ (lines t).drop k.toNat).flatten = t := by
      rw [List.take_append_drop, flatten_lines]
    refine ((readLines_spec _ path _ _).mono (fun _ _ h => h) ?_ : Ends _ _ _ _).bind ?_
    · rintro - s' ⟨rfl, hno⟩
      exact .inr ⟨t, _, _, _, hedit, .inl ⟨hno, rfl⟩⟩
    rintro - s' ⟨rfl, hlines⟩
    refine Ends.modify_then ?_
    rw [hold]
    -- The old content goes to the history, whatever has been looked up since.
    have hrecord : ∀ s₁ : FileEditor, ({ s₁.look p path with
        history := FileCache.addHistory (s₁.look p path).maxHistory path t (s₁.look p path).history } : FileEditor) =
        (s₁.record path t).look p path := fun s₁ => (look_record s₁ path t).symm
    rw [hrecord]
    refine ((readFile_spec _ path).mono (fun _ _ h => h) ?_ : Ends _ _ _ _).bind ?_
    · rintro - s' ⟨rfl, hno⟩
      rw [reads_look] at hno
      rw [look_look]
      exact .inr ⟨t, _, _, _, hedit, .inr ⟨hlines, hno, rfl⟩⟩
    · rintro newText s' ⟨rfl, hyes⟩
      rw [reads_look] at hyes
      rw [look_look]
      exact ⟨t, _, _, _, hedit, hlines, rfl, rfl, hyes⟩

theorem undoEdit_spec (s : FileEditor) (path : Path) :
    Ends (undoEdit p m path) s
      (fun obs s' => ∃ t old r, s.reads p path = some t ∧ (FileCache.popLastHistory path s.history).1 = some old ∧
        s.writes p m path old = some r ∧ obs = ⟨some t, old⟩ ∧
        s' = { (s.look p path).put path ⟨r.2, m.now⟩ with history := (FileCache.popLastHistory path s.history).2 })
      fun _ s' => Untouched s s' ∧ s.reads p path = none ∨ ∃ t, s.reads p path = some t ∧
        (∀ old, (FileCache.popLastHistory path s.history).1 = some old → s.writes p m path old = none) ∧
        s' = { s.look p path with history := (FileCache.popLastHistory path s.history).2 } := by
  unfold undoEdit
  refine ((readFile_spec s path).mono (fun _ _ h => h) ?_ : Ends _ _ _ _).bind ?_
  · rintro - s' ⟨rfl, hno⟩
    exact .inl ⟨untouched_look s path, hno⟩
  rintro t s' ⟨rfl, ht⟩
  refine Ends.get_then ?_
  rw [look_history]
  rcases hpop : FileCache.popLastHistory path s.history with ⟨old, history⟩
  dsimp only
  refine Ends.modify_then ?_
  cases old with
  | none => exact .inr ⟨t, ht, nofun, rfl⟩
  | some old =>
    dsimp only
    have hwrites : FileEditor.writes p { s.look p path with history } m path old = s.writes p m path old :=
      writes_look s path old
    have hlook : FileEditor.look p { s.look p path with history } path = { s.look p path with history } := by
      rw [look_setHistory, look_look]
    refine ((writeFile_spec _ path _).mono (fun _ _ h => h) ?_ : Ends _ _ _ _).bind ?_
    · rintro - s' ⟨rfl, hno⟩
      rw [hlook]
      refine .inr ⟨t, ht, fun old' ho => ?_, rfl⟩
      cases ho
      rwa [hwrites] at hno
    · rintro - s' ⟨r, hr, rfl⟩
      rw [hwrites] at hr
      rw [hlook]
      exact ⟨t, old, r, ht, rfl, hr, rfl, rfl⟩

/-! ## Commands -/

theorem validatePath_spec (s : FileEditor) (command : Command) (path : Path) :
    Ends (validatePath p command path) s
      (fun _ s' => s' = s ∧ ((∃ t, command = .create t) ∧ s.nodes path = none ∨
        (∀ t, command ≠ .create t) ∧ ∃ f, s.nodes path = some (.file f)))
      fun _ s' => s' = s := by
  unfold validatePath
  split
  · exact rfl
  refine Ends.get_then ?_
  cases command with
  | create t =>
    cases h : s.nodes path with
    | none => exact ⟨rfl, .inl ⟨⟨t, rfl⟩, rfl⟩⟩
    | some n => exact rfl
  | strReplace _ _ | insert _ _ | undoEdit =>
    cases h : s.nodes path with
    | none => exact rfl
    | some n =>
      cases n with
      | dir => exact rfl
      | file f => exact ⟨rfl, .inr ⟨nofun, f, rfl⟩⟩

theorem call_of_invalid {c : Command} {e : ToolError} {s' : FileEditor} (h : validatePath p c path s = .error e s') :
    call p m path c s = .error e s' := by
  simp only [call, bind, EStateM.bind, h]

/-- The part of `__call__` that runs an edit. -/
def runEdit (p : Platform) (m : Moment) (path : Path) : Edit → Edits Observation
  | .strReplace oldStr newStr => if newStr = oldStr then throw .sameStrings else strReplace p m path oldStr newStr
  | .insert k newStr => insert p m path k newStr

theorem call_edit {e : Edit} (h : validatePath p e.command path s = .ok ⟨⟩ s) :
    call p m path e.command s = runEdit p m path e s := by
  cases e <;> simp only [call, bind, EStateM.bind, Edit.command, runEdit] at h ⊢ <;> rw [h]

theorem call_undoEdit (h : validatePath p .undoEdit path s = .ok ⟨⟩ s) :
    call p m path .undoEdit s = undoEdit p m path s := by
  simp only [call, bind, EStateM.bind, h]

theorem validatePath_file {c : Command} (habs : p.isHostAbsolutePath path = true) (hf : s.nodes path = some (.file f))
    (hc : ∀ t, c ≠ .create t) : validatePath p c path s = .ok ⟨⟩ s := by
  cases c with
  | create t => exact absurd rfl (hc t)
  | strReplace _ _ | insert _ _ | undoEdit =>
    simp [validatePath, bind, EStateM.bind, habs, get_apply, hf, pure, EStateM.pure]

/-- What a successful edit leaves. -/
theorem edit_ok {e : Edit} {obs : Observation} {s' : FileEditor} (h : call p m path e.command s = .ok obs s') :
    ∃ t new stop s₁, Edited p m s path e t new stop s₁ ∧ s₁.readsLines p path stop = true ∧
      s' = (s₁.record path t).look p path := by
  have hends : Ends (call p m path e.command) s (fun _ s' => ∃ t new stop s₁, Edited p m s path e t new stop s₁ ∧
      s₁.readsLines p path stop = true ∧ s' = (s₁.record path t).look p path) fun _ _ => True := by
    unfold call
    refine ((validatePath_spec s _ path).mono (fun _ _ h => h) fun _ _ _ => trivial : Ends _ _ _ _).bind ?_
    rintro - s₀ ⟨rfl, ⟨⟨t, ht⟩, -⟩ | ⟨-, f, hf⟩⟩
    · cases e <;> cases ht
    cases e with
    | strReplace oldStr newStr =>
      dsimp only [Edit.command]
      split
      · exact trivial
      refine (strReplace_spec hf).mono ?_ fun _ _ _ => trivial
      rintro obs s' ⟨t, new, stop, s₁, hedit, hlines, hs', -⟩
      exact ⟨t, new, stop, s₁, hedit, hlines, hs'⟩
    | insert k newStr =>
      refine (insert_spec hf).mono ?_ fun _ _ _ => trivial
      rintro obs s' ⟨t, new, stop, s₁, hedit, hlines, hs', -⟩
      exact ⟨t, new, stop, s₁, hedit, hlines, hs'⟩
  exact hends.of_ok h

theorem create_ok {fileText : Option Text} {obs : Observation} {s' : FileEditor}
    (h : call p m path (.create fileText) s = .ok obs s') :
    ∃ t r, fileText = some t ∧ s.nodes path = none ∧ encodeText p defaultEncoding t = some r ∧
      s' = (s.put path ⟨r.2, m.now⟩).record path t := by
  have hends : Ends (call p m path (.create fileText)) s (fun _ s' => ∃ t r, fileText = some t ∧ s.nodes path = none ∧
      encodeText p defaultEncoding t = some r ∧ s' = (s.put path ⟨r.2, m.now⟩).record path t) fun _ _ => True := by
    unfold call
    refine ((validatePath_spec s _ path).mono (fun _ _ h => h) fun _ _ _ => trivial : Ends _ _ _ _).bind ?_
    rintro - s₀ ⟨rfl, ⟨-, hnone⟩ | ⟨hne, -⟩⟩
    · cases fileText with
      | none => exact trivial
      | some t =>
        refine ((writeFile_spec _ path _).mono (fun _ _ h => h) fun _ _ _ => trivial : Ends _ _ _ _).bind ?_
        rintro - s' ⟨r, hr, rfl⟩
        have hlook : s₀.look p path = s₀ := by simp only [FileEditor.look, hnone]
        unfold FileEditor.writes at hr
        rw [hnone] at hr
        dsimp only at hr
        split at hr
        · refine ⟨t, r, rfl, hnone, hr, ?_⟩
          rw [hlook]
          rfl
        · cases hr
    · exact absurd rfl (hne fileText)
  exact hends.of_ok h

theorem undo_ok {obs : Observation} {s' : FileEditor} (h : call p m path .undoEdit s = .ok obs s') :
    ∃ t old r, s.reads p path = some t ∧ (FileCache.popLastHistory path s.history).1 = some old ∧
      s.writes p m path old = some r ∧ obs = ⟨some t, old⟩ ∧
      s' = { (s.look p path).put path ⟨r.2, m.now⟩ with history := (FileCache.popLastHistory path s.history).2 } := by
  cases hv : validatePath p .undoEdit path s with
  | ok u s₀ =>
    obtain rfl := ((validatePath_spec s _ path).of_ok hv).1
    rw [call_undoEdit hv] at h
    exact (undoEdit_spec s₀ path).of_ok h
  | error e s₀ =>
    rw [call_of_invalid hv] at h
    cases h

/-- What a successful command is and leaves. -/
theorem call_cases {c : Command} {obs : Observation} {s' : FileEditor} (h : call p m path c s = .ok obs s') :
    (∃ t r, c = .create (some t) ∧ s.nodes path = none ∧ encodeText p defaultEncoding t = some r ∧
      s' = (s.put path ⟨r.2, m.now⟩).record path t) ∨
    (∃ e t new stop s₁, c = Edit.command e ∧ Edited p m s path e t new stop s₁ ∧
      s' = (s₁.record path t).look p path) ∨
    c = .undoEdit ∧ ∃ t old r, s.reads p path = some t ∧ (FileCache.popLastHistory path s.history).1 = some old ∧
      s.writes p m path old = some r ∧ obs = ⟨some t, old⟩ ∧
      s' = { (s.look p path).put path ⟨r.2, m.now⟩ with history := (FileCache.popLastHistory path s.history).2 } := by
  have hedit : ∀ e : Edit, call p m path e.command s = .ok obs s' → ∃ e' t new stop s₁, e.command = Edit.command e' ∧
      Edited p m s path e' t new stop s₁ ∧ s' = (s₁.record path t).look p path := by
    intro e he
    obtain ⟨t, new, stop, s₁, hedited, -, hs'⟩ := edit_ok he
    exact ⟨e, t, new, stop, s₁, rfl, hedited, hs'⟩
  have hmissing : (∃ e, ∀ s₀, validatePath p c path s = .ok ⟨⟩ s₀ → call p m path c s = .error e s₀) → False := by
    rintro ⟨e, he⟩
    cases hv : validatePath p c path s with
    | ok u s₀ =>
      rw [he s₀ hv] at h
      cases h
    | error e' s₀ =>
      rw [call_of_invalid hv] at h
      cases h
  cases c with
  | create fileText =>
    obtain ⟨t, r, rfl, hrest⟩ := create_ok h
    exact .inl ⟨t, r, rfl, hrest⟩
  | undoEdit => exact .inr (.inr ⟨rfl, undo_ok h⟩)
  | strReplace oldStr newStr =>
    cases oldStr with
    | none => exact absurd ⟨_, fun s₀ hv => by simp only [call, bind, EStateM.bind, hv]; rfl⟩ hmissing
    | some oldStr =>
      cases newStr with
      | none => exact absurd ⟨_, fun s₀ hv => by simp only [call, bind, EStateM.bind, hv]; rfl⟩ hmissing
      | some newStr => exact .inr (.inl (hedit (.strReplace oldStr newStr) h))
  | insert k newStr =>
    cases k with
    | none => exact absurd ⟨_, fun s₀ hv => by simp only [call, bind, EStateM.bind, hv]; rfl⟩ hmissing
    | some k =>
      cases newStr with
      | none => exact absurd ⟨_, fun s₀ hv => by simp only [call, bind, EStateM.bind, hv]; rfl⟩ hmissing
      | some newStr => exact .inr (.inl (hedit (.insert k newStr) h))

theorem Edited.file {e : Edit} {t new : Text} {stop : Nat} {s₁ : FileEditor} (h : Edited p m s path e t new stop s₁) :
    ∃ f raw r, s.nodes path = some (.file f) ∧ s.accepts p path f = true ∧ m.writable = true ∧
      p.decode (s.encodingOf p path f) f.bytes = some raw ∧ t = newlines raw ∧
      encodeText p (s.encodingOf p path f) new = some r ∧ s₁ = (s.look p path).put path ⟨r.2, m.now⟩ := by
  obtain ⟨hreads, -, r, hr, hs₁⟩ := h
  unfold FileEditor.reads at hreads
  unfold FileEditor.writes at hr
  cases hf : s.nodes path with
  | none => simp [hf] at hreads
  | some n =>
    cases n with
    | dir => simp [hf] at hreads
    | file f =>
      rw [hf] at hreads hr
      dsimp only at hreads hr
      split at hr
      · rename_i hok
        rw [Bool.and_eq_true] at hok
        rw [if_pos hok.1] at hreads
        obtain ⟨raw, hraw, ht⟩ := Option.map_eq_some_iff.1 hreads
        exact ⟨f, raw, r, rfl, hok.1, hok.2, hraw, ht.symm, hr, hs₁⟩
      · cases hr

/-- What is written can be read. -/
theorem decode_encodeText {e : Encoding} {t : Text} {r : Encoding × ByteArray} (h : encodeText p e t = some r) :
    p.decode r.1 r.2 = some t := by
  unfold encodeText at h
  split at h
  · cases h
  · rename_i c hc
    split at h
    · rename_i b hb
      cases h
      rw [Platform.decode, hc]
      exact c.decode_encode t b hb
    · split at h
      · cases h
      · obtain ⟨b, hb, rfl⟩ := Option.map_eq_some_iff.1 h
        rw [Platform.decode, p.codec_default]
        exact utf8.decode_encode t b hb

theorem decode_writes {text : Text} {r : Encoding × ByteArray} (h : s.writes p m path text = some r) :
    p.decode r.1 r.2 = some text := by
  unfold FileEditor.writes at h
  split at h
  · split at h
    · exact decode_encodeText h
    · cases h
  · cases h
  · split at h
    · exact decode_encodeText h
    · cases h

theorem encodeText_default (p : Platform) (t : Text) :
    encodeText p defaultEncoding t = some (defaultEncoding, (String.ofList t).toUTF8) := by
  unfold encodeText
  rw [p.codec_default]
  rfl

/-! ## A plain platform -/

/-- Python with UTF-8 files that are taken for text. -/
def plainPlatform : Platform where
  codec e := if e = defaultEncoding then some utf8 else none
  codec_default := rfl
  firstLines e b n :=
    ((if e = defaultEncoding then some utf8 else none).bind (·.decode b)).map fun t => (lines (newlines t)).take n
  firstLines_of_decode e b t n h := by rw [h, Option.map_some]
  detect _ := none
  isBinary _ _ := false
  isHostAbsolutePath path := path.toList.head? = some '/'

def fileWith (text : String) : Node := .file ⟨text.toUTF8, 0⟩

/-- An editor of one file. -/
def editorOf (text : String) : FileEditor := { nodes := fun q => if q = "/f" then some (fileWith text) else none }

/-- How a command on the one file ends, and the file. -/
def outcome (s : FileEditor) (command : Command) : Option (Observation × Option Node) :=
  match call plainPlatform ⟨true, 1⟩ "/f" command s with
  | .ok obs s' => some (obs, s'.nodes "/f")
  | .error _ _ => none

theorem ok_of_outcome {s : FileEditor} {command : Command} {obs : Observation} {n : Option Node}
    (h : outcome s command = some (obs, n)) :
    ∃ s', call plainPlatform ⟨true, 1⟩ "/f" command s = .ok obs s' ∧ s'.nodes "/f" = n := by
  unfold outcome at h
  cases hcall : call plainPlatform ⟨true, 1⟩ "/f" command s with
  | ok obs' s' =>
    rw [hcall] at h
    obtain ⟨rfl, hn⟩ := Prod.mk.inj (Option.some.inj h)
    exact ⟨s', rfl, hn⟩
  | error e s' =>
    rw [hcall] at h
    cases h

end AgentSdk.FileEditing
