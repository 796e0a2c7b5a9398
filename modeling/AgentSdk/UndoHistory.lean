import AgentSdk.EditorSteps
import AgentSdk.Lib.Runs
import AgentSdk.Lib.UndoStack
/-!
# Undo

The history of each path as a bounded undo stack, over every run of successful
commands.
-/

namespace AgentSdk.FileEditing
open Lib

/-! ## Keys -/

section Keys
variable {path q : Path} {n k : Nat}

theorem toList_toString (n : Nat) : (toString n).toList = Nat.toDigits 10 n := by
  show (String.ofList (Nat.toDigits 10 n)).toList = _
  exact String.toList_ofList

theorem toString_ne_metadata (n : Nat) : toString n ≠ "metadata" := by
  intro h
  have hm : 'm' ∈ (toString n).toList := by
    rw [h]
    decide
  rw [toList_toString] at hm
  exact absurd (Nat.isDigit_of_mem_toDigits (by decide) (by decide) hm) (by decide)

theorem dot_not_mem (n : Nat) : '.' ∉ (toString n).toList := by
  rw [toList_toString]
  intro h
  exact absurd (Nat.isDigit_of_mem_toDigits (by decide) (by decide) h) (by decide)

theorem split_at_first {c : Char} {a b x y : List Char} (ha : c ∉ a) (hb : c ∉ b) (h : a ++ c :: x = b ++ c :: y) :
    a = b ∧ x = y := by
  induction a generalizing b with
  | nil =>
    cases b with
    | nil => exact ⟨rfl, (List.cons.inj h).2⟩
    | cons d b =>
      obtain ⟨rfl, -⟩ := List.cons.inj h
      exact absurd List.mem_cons_self hb
  | cons d a ih =>
    cases b with
    | nil =>
      obtain ⟨rfl, -⟩ := List.cons.inj h
      exact absurd List.mem_cons_self ha
    | cons e b =>
      obtain ⟨rfl, hrest⟩ := List.cons.inj h
      rw [List.mem_cons, not_or] at ha hb
      obtain ⟨rfl, rfl⟩ := ih ha.2 hb.2 hrest
      exact ⟨rfl, rfl⟩

/-- A key tells its path: what follows the last dot has none. -/
theorem key_unique {a b : String} (ha : '.' ∉ a.toList) (hb : '.' ∉ b.toList)
    (h : path ++ "." ++ a = q ++ "." ++ b) : path = q ∧ a = b := by
  have hlist := congrArg (fun s => s.toList.reverse) h
  have hdot : ".".toList = ['.'] := by decide
  simp only [String.toList_append, List.reverse_append, hdot, List.reverse_singleton, List.singleton_append] at hlist
  obtain ⟨hab, hpq⟩ := split_at_first (by simpa using ha) (by simpa using hb) hlist
  exact ⟨String.toList_injective (List.reverse_injective hpq), String.toList_injective (List.reverse_injective hab)⟩

theorem historyKey_inj (h : FileCache.historyKey path n = FileCache.historyKey q k) : path = q ∧ n = k := by
  obtain ⟨hpath, hnum⟩ := key_unique (dot_not_mem n) (dot_not_mem k) h
  refine ⟨hpath, ?_⟩
  have hdigits := congrArg String.toList hnum
  rw [toList_toString, toList_toString] at hdigits
  have := congrArg (Nat.ofDigitChars 10 · 0) hdigits
  rwa [Nat.ofDigitChars_ten_toDigits, Nat.ofDigitChars_ten_toDigits] at this

theorem metadata_eq (path : Path) : path ++ ".metadata" = path ++ "." ++ "metadata" := by
  rw [String.append_assoc]
  rfl

theorem historyKey_ne_metadata (path q : Path) (n : Nat) : FileCache.historyKey path n ≠ q ++ ".metadata" := by
  intro h
  rw [metadata_eq] at h
  exact toString_ne_metadata n (key_unique (dot_not_mem n) (by decide) h).2

theorem metadata_inj (h : path ++ ".metadata" = q ++ ".metadata") : path = q := by
  rw [metadata_eq, metadata_eq] at h
  exact (key_unique (by decide) (by decide) h).1

end Keys

/-! ## The history as a stack -/

/-- The history of the path holds the texts, the last entry first. -/
structure Holds (maxHistory : Nat) (h : FileCache) (path : Path) (texts : List Text) : Prop where
  stored : (FileCache.getMetadata h path).entries.reverse.map (fun n => h (FileCache.historyKey path n)) =
    texts.map fun t => some (.text t)
  nodup : (FileCache.getMetadata h path).entries.Nodup
  lt : ∀ n ∈ (FileCache.getMetadata h path).entries, n < (FileCache.getMetadata h path).counter
  length : texts.length ≤ maxHistory

/-- The keys of the path hold the same. -/
def SameKeys (h h' : FileCache) (path : Path) : Prop :=
  h' (path ++ ".metadata") = h (path ++ ".metadata") ∧
    ∀ n, h' (FileCache.historyKey path n) = h (FileCache.historyKey path n)

section History
variable {maxHistory : Nat} {h h' : FileCache} {path q : Path} {texts : List Text}

theorem SameKeys.trans {h'' : FileCache} (h₁ : SameKeys h h' path) (h₂ : SameKeys h' h'' path) : SameKeys h h'' path :=
  ⟨h₂.1.trans h₁.1, fun n => (h₂.2 n).trans (h₁.2 n)⟩

theorem sameKeys_update (hq : q ≠ path) (n : Nat) (v : Option CacheValue) :
    SameKeys h (Function.update h (FileCache.historyKey path n) v) q :=
  ⟨Function.update_of_ne (historyKey_ne_metadata path q n).symm _ _,
    fun _ => Function.update_of_ne (fun hk => hq (historyKey_inj hk).1) _ _⟩

theorem sameKeys_setMetadata (hq : q ≠ path) (md : Metadata) : SameKeys h (FileCache.setMetadata h path md) q :=
  ⟨Function.update_of_ne (fun hk => hq (metadata_inj hk)) _ _,
    fun n => Function.update_of_ne (historyKey_ne_metadata q path n) _ _⟩

theorem SameKeys.getMetadata (hs : SameKeys h h' path) : FileCache.getMetadata h' path = FileCache.getMetadata h path := by
  unfold FileCache.getMetadata
  rw [hs.1]

theorem SameKeys.holds (hs : SameKeys h h' path) (hh : Holds maxHistory h path texts) : Holds maxHistory h' path texts := by
  obtain ⟨htexts, hnodup, hlt, hlen⟩ := hh
  refine ⟨?_, by rwa [hs.getMetadata], by rwa [hs.getMetadata], hlen⟩
  rw [hs.getMetadata]
  rw [← htexts]
  exact List.map_congr_left fun n _ => hs.2 n

/-! ### An entry is added -/

theorem trim_spec (maxHistory : Nat) (path : Path) (ns : List Nat) (h : FileCache) :
    (FileCache.trim maxHistory path ns h).1 = ns.drop (ns.length - maxHistory) ∧
      (∀ n ∉ ns, (FileCache.trim maxHistory path ns h).2 (FileCache.historyKey path n) = h (FileCache.historyKey path n)) ∧
      (ns.Nodup → ∀ n ∈ ns.drop (ns.length - maxHistory),
        (FileCache.trim maxHistory path ns h).2 (FileCache.historyKey path n) = h (FileCache.historyKey path n)) ∧
      (FileCache.trim maxHistory path ns h).2 (path ++ ".metadata") = h (path ++ ".metadata") ∧
      ∀ q, q ≠ path → SameKeys h (FileCache.trim maxHistory path ns h).2 q := by
  induction ns generalizing h with
  | nil => exact ⟨by simp [FileCache.trim], fun _ _ => rfl, fun _ _ _ => rfl, rfl, fun _ _ => ⟨rfl, fun _ => rfl⟩⟩
  | cons n ns ih =>
    unfold FileCache.trim
    by_cases hlen : maxHistory < (n :: ns).length
    · rw [if_pos hlen]
      obtain ⟨hentries, hout, hin, hmeta, hother⟩ := ih (Function.update h (FileCache.historyKey path n) none)
      have hdrop : (n :: ns).drop ((n :: ns).length - maxHistory) = ns.drop (ns.length - maxHistory) := by
        have hpos : (n :: ns).length - maxHistory = (ns.length - maxHistory) + 1 := by
          rw [List.length_cons] at hlen ⊢
          omega
        rw [hpos, List.drop_succ_cons]
      rw [hdrop]
      refine ⟨hentries, fun k hk => ?_, fun hnodup k hk => ?_, ?_, fun q hq => (sameKeys_update hq n none).trans (hother q hq)⟩
      · rw [List.mem_cons, not_or] at hk
        rw [hout k hk.2]
        exact Function.update_of_ne (fun heq => hk.1 (historyKey_inj heq).2) _ _
      · rw [List.nodup_cons] at hnodup
        rw [hin hnodup.2 k hk]
        refine Function.update_of_ne (fun heq => hnodup.1 ?_) _ _
        rw [← (historyKey_inj heq).2]
        exact List.mem_of_mem_drop hk
      · rw [hmeta]
        exact Function.update_of_ne (historyKey_ne_metadata path path n).symm _ _
    · rw [if_neg hlen]
      refine ⟨?_, fun _ _ => rfl, fun _ _ _ => rfl, rfl, fun _ _ => ⟨rfl, fun _ => rfl⟩⟩
      rw [show (n :: ns).length - maxHistory = 0 by omega]
      rfl

theorem addHistory_other (maxHistory : Nat) (content : Text) (h : FileCache) (hq : q ≠ path) :
    SameKeys h (FileCache.addHistory maxHistory path content h) q :=
  ((sameKeys_update hq _ _).trans ((trim_spec maxHistory path _ _).2.2.2.2 q hq)).trans (sameKeys_setMetadata hq _)

theorem Holds.add (hh : Holds maxHistory h path texts) (content : Text) :
    Holds maxHistory (FileCache.addHistory maxHistory path content h) path ((content :: texts).take maxHistory) := by
  obtain ⟨hstored, hnodup, hlt, hlen⟩ := hh
  obtain ⟨hentries, -, hin, -, -⟩ := trim_spec maxHistory path
    ((FileCache.getMetadata h path).entries ++ [(FileCache.getMetadata h path).counter])
    (Function.update h (FileCache.historyKey path (FileCache.getMetadata h path).counter) (some (.text content)))
  have hadd : FileCache.addHistory maxHistory path content h = FileCache.setMetadata (FileCache.trim maxHistory path
      ((FileCache.getMetadata h path).entries ++ [(FileCache.getMetadata h path).counter])
      (Function.update h (FileCache.historyKey path (FileCache.getMetadata h path).counter) (some (.text content)))).2 path
        ⟨((FileCache.getMetadata h path).entries ++ [(FileCache.getMetadata h path).counter]).drop
          (((FileCache.getMetadata h path).entries ++ [(FileCache.getMetadata h path).counter]).length - maxHistory),
          (FileCache.getMetadata h path).counter + 1⟩ := by
    rw [← hentries]
    rfl
  generalize FileCache.getMetadata h path = md at *
  have hfresh : md.counter ∉ md.entries := fun hm => Nat.lt_irrefl _ (hlt _ hm)
  have hnew : (md.entries ++ [md.counter]).Nodup := by
    rw [List.nodup_append]
    refine ⟨hnodup, List.nodup_singleton _, ?_⟩
    rintro n hn k hk rfl
    rw [List.mem_singleton] at hk
    exact hfresh (hk ▸ hn)
  rw [hadd]
  refine ⟨?_, ?_, ?_, ?_⟩
  · rw [getMetadata_setMetadata]
    dsimp only
    have hkept : ∀ n ∈ ((md.entries ++ [md.counter]).drop ((md.entries ++ [md.counter]).length - maxHistory)).reverse,
        FileCache.setMetadata (FileCache.trim maxHistory path (md.entries ++ [md.counter]) (Function.update h
          (FileCache.historyKey path md.counter) (some (.text content)))).2 path
            ⟨(md.entries ++ [md.counter]).drop ((md.entries ++ [md.counter]).length - maxHistory), md.counter + 1⟩
            (FileCache.historyKey path n) =
          Function.update h (FileCache.historyKey path md.counter) (some (.text content)) (FileCache.historyKey path n) := by
      intro n hn
      rw [FileCache.setMetadata, Function.update_of_ne (historyKey_ne_metadata path path n),
        hin hnew n (List.mem_reverse.1 hn)]
    rw [List.map_congr_left hkept, ← List.take_reverse, List.map_take, List.map_take, List.reverse_append]
    congr 1
    rw [List.reverse_singleton, List.singleton_append, List.map_cons, List.map_cons, Function.update_self, ← hstored]
    congr 1
    refine List.map_congr_left fun n hn => Function.update_of_ne (fun heq => hfresh ?_) _ _
    rw [← (historyKey_inj heq).2]
    exact List.mem_reverse.1 hn
  · rw [getMetadata_setMetadata]
    exact hnew.sublist (List.drop_sublist _ _)
  · rw [getMetadata_setMetadata]
    intro n hn
    rcases List.mem_append.1 (List.mem_of_mem_drop hn) with hn | hn
    · exact (hlt n hn).trans (Nat.lt_succ_self _)
    · rw [List.mem_singleton.1 hn]
      exact Nat.lt_succ_self _
  · exact List.length_take_le _ _

/-! ### The last entry is taken -/

theorem pop_other (h : FileCache) (hq : q ≠ path) : SameKeys h (FileCache.popLastHistory path h).2 q := by
  unfold FileCache.popLastHistory
  dsimp only
  split
  · exact ⟨rfl, fun _ => rfl⟩
  · split
    · exact sameKeys_setMetadata hq _
    · exact (sameKeys_update hq _ none).trans (sameKeys_setMetadata hq _)

theorem Holds.pop (hh : Holds maxHistory h path texts) :
    (FileCache.popLastHistory path h).1 = texts.head? ∧
      Holds maxHistory (FileCache.popLastHistory path h).2 path texts.tail := by
  obtain ⟨hstored, hnodup, hlt, hlen⟩ := hh
  cases texts with
  | nil =>
    have hnil : (FileCache.getMetadata h path).entries = [] := by simpa using hstored
    have hpop : FileCache.popLastHistory path h = (none, h) := by
      unfold FileCache.popLastHistory
      dsimp only
      rw [hnil]
      rfl
    rw [hpop]
    exact ⟨rfl, hstored, hnodup, hlt, hlen⟩
  | cons t texts =>
    rcases List.eq_nil_or_concat (FileCache.getMetadata h path).entries with hnil | ⟨entries, last, hconcat⟩
    · rw [hnil] at hstored
      cases hstored
    rw [List.concat_eq_append] at hconcat
    rw [hconcat, List.reverse_append, List.reverse_singleton, List.singleton_append, List.map_cons, List.map_cons] at hstored
    obtain ⟨hlast, hrest⟩ := List.cons.inj hstored
    have hpop : FileCache.popLastHistory path h = (some t, FileCache.setMetadata
        (Function.update h (FileCache.historyKey path last) none) path ⟨entries, (FileCache.getMetadata h path).counter⟩) := by
      unfold FileCache.popLastHistory
      dsimp only
      rw [hconcat, List.getLast?_concat]
      dsimp only
      rw [FileCache.getText, hlast]
      simp
    rw [hpop]
    rw [hconcat] at hnodup hlt
    rw [List.nodup_append] at hnodup
    refine ⟨rfl, ?_, ?_, ?_, ?_⟩
    · rw [getMetadata_setMetadata]
      dsimp only [List.tail_cons]
      rw [← hrest]
      refine List.map_congr_left fun n hn => ?_
      rw [FileCache.setMetadata, Function.update_of_ne (historyKey_ne_metadata path path n),
        Function.update_of_ne fun heq => ?_]
      exact hnodup.2.2 n (List.mem_reverse.1 hn) last (List.mem_singleton.2 rfl) (historyKey_inj heq).2
    · rw [getMetadata_setMetadata]
      exact hnodup.1
    · rw [getMetadata_setMetadata]
      exact fun n hn => hlt n (List.mem_append_left _ hn)
    · exact (Nat.le_succ _).trans hlen

theorem holds_empty (maxHistory : Nat) (path : Path) : Holds maxHistory (fun _ => none) path [] :=
  ⟨rfl, List.nodup_nil, fun _ hn => absurd hn List.not_mem_nil, Nat.zero_le _⟩

end History

/-! ## Runs -/

inductive EditorOp where
  | command (path : Path) (m : Moment) (c : Command)
  /-- Other files push the path out of the encoding cache. -/
  | forget (path : Path)

/-- The editor. Kept for the statement only: the text of each path and its edits. -/
structure EditorWorld where
  editor : FileEditor
  undo : Path → UndoStack Text

def Command.edit? : Command → Option Edit
  | .strReplace (some oldStr) (some newStr) => some (.strReplace oldStr newStr)
  | .insert (some k) (some newStr) => some (.insert k newStr)
  | _ => none

namespace EditorWorld

/-- What a successful command is for the undo stack of its path. -/
def after (p : Platform) (w : EditorWorld) (path : Path) : Command → UndoStack Text
  | .create (some t) => (w.undo path).create w.editor.maxHistory t
  | .undoEdit => (w.undo path).undo.getD (w.undo path)
  | c =>
    match c.edit?.bind fun e => (w.editor.reads p path).bind e.plan with
    | some (new, _) => (w.undo path).edit w.editor.maxHistory new
    | none => w.undo path

def step (p : Platform) (w : EditorWorld) : EditorOp → Option EditorWorld
  | .command path m c =>
    match call p m path c w.editor with
    | .ok _ editor => some ⟨editor, Function.update w.undo path (w.after p path c)⟩
    | .error _ _ => none
  | .forget path => some { w with editor := { w.editor with encodings := Function.update w.editor.encodings path none } }

/-- The text of a file as it is found. -/
def found (p : Platform) (nodes : Path → Option Node) (path : Path) : Text :=
  match nodes path with
  | some (.file f) => (p.decode (freshEncoding p f.bytes) f.bytes).getD []
  | _ => []

def new (p : Platform) (maxFileSize maxHistory : Nat) (nodes : Path → Option Node) : EditorWorld where
  editor := { maxFileSize, maxHistory, nodes }
  undo path := { value := found p nodes path }

end EditorWorld

/-- What is edited is read as the text that it is. -/
def EditorOp.Allowed (p : Platform) (w : EditorWorld) : EditorOp → Prop
  | .command path _ c => c.edit?.isSome → w.editor.reads p path = some (w.undo path).value
  | .forget _ => True

instance EditorOp.decidableAllowed (p : Platform) (w : EditorWorld) (op : EditorOp) : Decidable (op.Allowed p w) := by
  cases op <;> unfold Allowed <;> infer_instance

namespace EditorWorld
variable {p : Platform} {w : EditorWorld} {path q : Path} {m : Moment} {c : Command}

/-- The file holds the text, in some encoding; or it never was one. -/
def IsText (p : Platform) (f : File) (t : Text) : Prop :=
  (∃ e, p.decode e f.bytes = some t) ∨ p.decode (freshEncoding p f.bytes) f.bytes = none

structure Consistent (p : Platform) (w : EditorWorld) : Prop where
  sound : ∀ path, (w.undo path).Sound
  holds : ∀ path, Holds w.editor.maxHistory w.editor.history path ((w.undo path).entries.map Prod.snd)
  absent : ∀ path, w.editor.nodes path = none → (w.undo path).entries = [] ∧ (w.undo path).pending = []
  text : ∀ path f, w.editor.nodes path = some (.file f) → IsText p f (w.undo path).value

theorem consistent_new (p : Platform) (maxFileSize maxHistory : Nat) (nodes : Path → Option Node) :
    (new p maxFileSize maxHistory nodes).Consistent p where
  sound path := UndoStack.sound_new _
  holds path := holds_empty _ path
  absent path _ := ⟨rfl, rfl⟩
  text path f hf := by
    have hnode : nodes path = some (.file f) := hf
    show IsText p f (found p nodes path)
    unfold found
    rw [hnode]
    cases hd : p.decode (freshEncoding p f.bytes) f.bytes with
    | none => exact .inr hd
    | some t =>
      refine .inl ⟨freshEncoding p f.bytes, ?_⟩
      show p.decode _ f.bytes = some ((p.decode (freshEncoding p f.bytes) f.bytes).getD [])
      rw [hd]
      rfl

/-- A command writes one file and leaves the entries of the other paths alone. -/
theorem Consistent.put (hw : w.Consistent p) {s' : FileEditor} {u : UndoStack Text} {r : Encoding × ByteArray}
    (hmax : s'.maxHistory = w.editor.maxHistory)
    (hnodes : s'.nodes = Function.update w.editor.nodes path (some (.file ⟨r.2, m.now⟩)))
    (hother : ∀ q, q ≠ path → SameKeys w.editor.history s'.history q)
    (hsound : u.Sound) (hholds : Holds w.editor.maxHistory s'.history path (u.entries.map Prod.snd))
    (htext : p.decode r.1 r.2 = some u.value) :
    Consistent p ⟨s', Function.update w.undo path u⟩ := by
  refine ⟨fun q => ?_, fun q => ?_, fun q hq => ?_, fun q f hf => ?_⟩
  · dsimp only
    by_cases hq : q = path
    · rw [hq, Function.update_self]
      exact hsound
    · rw [Function.update_of_ne hq]
      exact hw.sound q
  · dsimp only
    rw [hmax]
    by_cases hq : q = path
    · rw [hq, Function.update_self]
      exact hholds
    · rw [Function.update_of_ne hq]
      exact (hother q hq).holds (hw.holds q)
  · dsimp only at hq ⊢
    rw [hnodes] at hq
    by_cases heq : q = path
    · rw [heq, Function.update_self] at hq
      cases hq
    · rw [Function.update_of_ne heq] at hq ⊢
      exact hw.absent q hq
  · dsimp only at hf ⊢
    rw [hnodes] at hf
    by_cases heq : q = path
    · rw [heq, Function.update_self] at hf ⊢
      cases hf
      exact .inl ⟨_, htext⟩
    · rw [Function.update_of_ne heq] at hf ⊢
      exact hw.text q f hf

theorem edit?_command (e : Edit) : e.command.edit? = some e := by cases e <;> rfl

theorem after_edit {e : Edit} {t new : Text} {stop : Nat} (hreads : w.editor.reads p path = some t)
    (hplan : e.plan t = some (new, stop)) :
    w.after p path e.command = (w.undo path).edit w.editor.maxHistory new := by
  have hbind : (e.command.edit?.bind fun e => (w.editor.reads p path).bind e.plan) = some (new, stop) := by
    rw [edit?_command, hreads]
    exact hplan
  cases e <;> simp only [after, Edit.command] at hbind ⊢ <;> rw [hbind]

theorem Consistent.undo_of_pop (hw : w.Consistent p) {old : Text}
    (hpop : (FileCache.popLastHistory path w.editor.history).1 = some old) :
    ∃ v, (w.undo path).undo = some v ∧ v.value = old := by
  rw [(hw.holds path).pop.1] at hpop
  unfold UndoStack.undo
  cases hes : (w.undo path).entries with
  | nil =>
    rw [hes] at hpop
    cases hpop
  | cons e es =>
    rw [hes] at hpop
    cases hpop
    exact ⟨_, rfl, rfl⟩

theorem recorded_history (s : FileEditor) (path : Path) (f : File) (t : Text) :
    ((((s.look p path).put path f).record path t).look p path).history =
      FileCache.addHistory s.maxHistory path t s.history := by
  rw [look_history]
  show FileCache.addHistory (s.look p path).maxHistory path t (s.look p path).history = _
  rw [look_maxHistory, look_history]

theorem Consistent.command (hw : w.Consistent p) (hok : (EditorOp.command path m c).Allowed p w) {obs : Observation}
    {s' : FileEditor} (h : call p m path c w.editor = .ok obs s') :
    Consistent p ⟨s', Function.update w.undo path (w.after p path c)⟩ := by
  rcases call_cases h with ⟨t, r, rfl, hnone, hr, rfl⟩ | ⟨e, t, new, stop, s₁, rfl, hedit, rfl⟩ |
    ⟨rfl, t, old, r, hread, hpop, hr, -, rfl⟩
  · obtain ⟨hentries, hpending⟩ := hw.absent path hnone
    have hholds := hw.holds path
    rw [hentries] at hholds
    refine hw.put rfl rfl (fun q hq => addHistory_other _ t _ hq)
      (UndoStack.Sound.create hentries hpending _ t) ?_ (decode_encodeText hr)
    have hadd := hholds.add t
    show Holds _ _ path ((((none, t) :: (w.undo path).entries).take _).map Prod.snd)
    rw [hentries, List.map_take]
    exact hadd
  · have hread : w.editor.reads p path = some (w.undo path).value := hok (by rw [edit?_command]; rfl)
    obtain rfl := Option.some.inj (hedit.reads.symm.trans hread)
    obtain ⟨f, raw, r, hf, -, -, -, -, hr, rfl⟩ := hedit.file
    rw [after_edit hedit.reads hedit.plan]
    have hadd := (hw.holds path).add (w.undo path).value
    refine hw.put (m := m) ?_ ?_ ?_ ((hw.sound path).edit _ new) ?_ (decode_encodeText hr)
    · rw [look_maxHistory]
      exact look_maxHistory _ _
    · rw [look_nodes]
      show Function.update (w.editor.look p path).nodes path _ = _
      rw [look_nodes]
    · intro q hq
      rw [recorded_history]
      exact addHistory_other _ _ _ hq
    · rw [recorded_history]
      show Holds _ _ path ((((some (w.undo path).count, (w.undo path).value) :: (w.undo path).entries).take _).map Prod.snd)
      rw [List.map_take]
      exact hadd
  · obtain ⟨v, hv, rfl⟩ := hw.undo_of_pop hpop
    have hafter : w.after p path .undoEdit = v := by
      show (w.undo path).undo.getD _ = v
      rw [hv]
      rfl
    rw [hafter]
    refine hw.put (m := m) (r := r) (look_maxHistory _ _) ?_ (fun q hq => pop_other _ hq) ((hw.sound path).undo hv) ?_ ?_
    · show Function.update (w.editor.look p path).nodes path _ = _
      rw [look_nodes]
    · obtain ⟨e, es, hes, rfl⟩ := UndoStack.undo_some hv
      have hpopped := (hw.holds path).pop.2
      rw [hes] at hpopped
      exact hpopped
    · exact decode_writes hr

theorem Consistent.step (hw : w.Consistent p) {op : EditorOp} (hok : op.Allowed p w) {w' : EditorWorld}
    (h : w.step p op = some w') : w'.Consistent p := by
  cases op with
  | command path m c =>
    unfold EditorWorld.step at h
    dsimp only at h
    cases hcall : call p m path c w.editor with
    | error e s' =>
      rw [hcall] at h
      cases h
    | ok obs s' =>
      rw [hcall] at h
      cases h
      exact hw.command hok hcall
  | forget path =>
    cases h
    exact ⟨hw.sound, hw.holds, hw.absent, hw.text⟩

theorem consistent_of_reaches {maxFileSize maxHistory : Nat} {nodes : Path → Option Node}
    (h : Reaches (step p) (fun w op => op.Allowed p w) (new p maxFileSize maxHistory nodes) w) : w.Consistent p :=
  h.invariant (consistent_new p maxFileSize maxHistory nodes) fun _ _ _ hw hok ht => hw.step hok ht

/-- What an undo of the path comes to, and that no command reaches another path. -/
structure Inverts (p : Platform) (w : EditorWorld) (path : Path) : Prop where
  text : ∀ f, w.editor.nodes path = some (.file f) → IsText p f (w.undo path).value
  undone : ∀ m obs s', call p m path .undoEdit w.editor = .ok obs s' →
    ∃ (f : File) (r : Encoding × ByteArray), s'.nodes path = some (.file f) ∧
    f.bytes = r.2 ∧ p.decode r.1 r.2 = some obs.newContent ∧
    (∀ n before rest, (w.undo path).pending = (n, before) :: rest → (w.undo path).Keeps n → obs.newContent = before) ∧
    ((∀ e ∈ (w.undo path).pending, ¬ (w.undo path).Keeps e.1) → obs.newContent = (w.undo path).value)
  others : ∀ m q c obs s', q ≠ path → call p m q c w.editor = .ok obs s' →
    s'.nodes path = w.editor.nodes path ∧ SameKeys w.editor.history s'.history path

theorem nodes_other {obs : Observation} {s s' : FileEditor} (hq : q ≠ path) (h : call p m path c s = .ok obs s') :
    s'.nodes q = s.nodes q ∧ SameKeys s.history s'.history q := by
  rcases call_cases h with ⟨t, r, rfl, -, -, rfl⟩ | ⟨e, t, new, stop, s₁, rfl, hedit, rfl⟩ |
    ⟨rfl, t, old, r, -, -, -, -, rfl⟩
  · exact ⟨Function.update_of_ne hq _ _, addHistory_other _ _ _ hq⟩
  · obtain ⟨f, raw, r, -, -, -, -, -, -, rfl⟩ := hedit.file
    refine ⟨?_, ?_⟩
    · rw [look_nodes]
      show Function.update (s.look p path).nodes path _ q = _
      rw [Function.update_of_ne hq, look_nodes]
    · rw [recorded_history]
      exact addHistory_other _ _ _ hq
  · refine ⟨?_, pop_other _ hq⟩
    show Function.update (s.look p path).nodes path _ q = _
    rw [Function.update_of_ne hq, look_nodes]

theorem undo_inverts (p : Platform) (maxFileSize maxHistory : Nat) (nodes : Path → Option Node) {w : EditorWorld}
    (h : Reaches (step p) (fun w op => op.Allowed p w) (new p maxFileSize maxHistory nodes) w) (path : Path) :
    w.Inverts p path := by
  have hw := consistent_of_reaches h
  refine ⟨hw.text path, fun m obs s' hcall => ?_, fun m q c obs s' hq hcall => nodes_other hq.symm hcall⟩
  obtain ⟨t, old, r, -, hpop, hr, rfl, rfl⟩ := undo_ok hcall
  obtain ⟨v, hv, rfl⟩ := hw.undo_of_pop hpop
  refine ⟨⟨r.2, m.now⟩, r, Function.update_self _ _ _, rfl, decode_writes hr, fun n before rest hp _ => ?_, fun hno => ?_⟩
  · exact ((hw.sound path).restores hv hp).1
  · exact (hw.sound path).keeps_value hv hno

def twoEdits : List EditorOp :=
  [.command "/f" ⟨true, 1⟩ (.create (some "a\nb\n".toList)),
    .command "/f" ⟨true, 2⟩ (.strReplace (some "a".toList) (some "x".toList)),
    .command "/f" ⟨true, 3⟩ (.insert (some 2) (some "c".toList))]

/-- Two edits of a new file, which push the entry of its creation out. -/
theorem undo_inverts_twoEdits : ∃ w, execAllowed (step plainPlatform) (fun w op => op.Allowed plainPlatform w)
      (new plainPlatform 1000 2 fun _ => none) twoEdits = some w ∧
    (w.undo "/f").pending.map Prod.snd = ["x\nb\n".toList, "a\nb\n".toList] ∧
    (w.undo "/f").entries.map Prod.fst = [some 1, some 0] ∧ w.Inverts plainPlatform "/f" := by
  have hrun : (execAllowed (step plainPlatform) (fun w op => op.Allowed plainPlatform w)
      (new plainPlatform 1000 2 fun _ => none) twoEdits).map
        (fun w => ((w.undo "/f").pending.map Prod.snd, (w.undo "/f").entries.map Prod.fst)) =
      some (["x\nb\n".toList, "a\nb\n".toList], [some 1, some 0]) := by decide +kernel
  obtain ⟨w, hw, hw'⟩ := Option.map_eq_some_iff.1 hrun
  obtain ⟨hpending, hentries⟩ := Prod.mk.inj hw'
  exact ⟨w, hw, hpending, hentries, undo_inverts plainPlatform 1000 2 _ (reaches_of_execAllowed .init hw) "/f"⟩

def crlfEdit : List EditorOp :=
  [.command "/f" ⟨true, 1⟩ (.create (some "a\r\nb".toList)),
    .command "/f" ⟨true, 2⟩ (.strReplace (some "a".toList) (some "x".toList))]

/-- An edit of a file with carriage returns, undone. -/
theorem undo_loses_returns : ¬ ∀ (p : Platform) (maxFileSize maxHistory : Nat) (nodes : Path → Option Node)
    (w : EditorWorld), Reaches (step p) (fun _ _ => True) (new p maxFileSize maxHistory nodes) w →
      ∀ path, w.Inverts p path := by
  intro hall
  have hrun : (exec (step plainPlatform) (new plainPlatform 1000 10 fun _ => none) crlfEdit).map
      (fun w => ((w.undo "/f").pending, (w.undo "/f").entries.map Prod.fst,
        (outcome w.editor .undoEdit).map fun r => r.1.newContent)) =
      some ([(0, "a\r\nb".toList)], [some 0, none], some "a\nb".toList) := by decide +kernel
  obtain ⟨w, hw, hw'⟩ := Option.map_eq_some_iff.1 hrun
  obtain ⟨hpending, hrest⟩ := Prod.mk.inj hw'
  obtain ⟨hentries, houtcome⟩ := Prod.mk.inj hrest
  obtain ⟨⟨obs, n⟩, houtcome, hnew⟩ := Option.map_eq_some_iff.1 houtcome
  obtain ⟨s', hcall, -⟩ := ok_of_outcome houtcome
  obtain ⟨f, r, -, -, -, hrestored, -⟩ :=
    (hall plainPlatform 1000 10 _ w (reaches_of_exec .init hw) "/f").undone _ _ _ hcall
  have hkeeps : (w.undo "/f").Keeps 0 := by
    show some 0 ∈ (w.undo "/f").entries.map Prod.fst
    rw [hentries]
    exact List.mem_cons_self
  have hwrong := hnew.symm.trans (hrestored 0 _ [] hpending hkeeps)
  exact absurd hwrong (by decide +kernel)

end EditorWorld

end AgentSdk.FileEditing
