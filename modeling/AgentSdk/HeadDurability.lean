import AgentSdk.ConversationState
/-!
# HEAD across a crash

An event is one file and HEAD is a field of `base_state.json`, so moving HEAD
to a new event is a second store write. Outside a `with state` block it follows
at once; inside, every field is saved by the exit of the outermost block. A
crash leaves the store as it is between two writes, and `create` loads it.
-/

namespace AgentSdk
open Lib

/-! ## The store -/

/-- The event files, and what `base_state.json` last held. -/
structure StateStore where
  events : EventLog := {}
  base : ConversationState := {}
deriving DecidableEq

/-- A conversation in memory over its store. `past` lists the store before each
of the writes so far, latest first. -/
structure LiveState where
  state : ConversationState := {}
  saveDepth : Nat := 0
  dirty : Bool := false
  store : StateStore := {}
  past : List StateStore := []
deriving DecidableEq

/-- An assignment to a public field other than HEAD. `other` is a field that
`ConversationState` does not carry here; `changed` is `old != value`. -/
inductive FieldAssignment where
  | executionStatus (value : ConversationExecutionStatus)
  | blockedActions (value : List (EventID × String))
  | blockedMessages (value : List (EventID × String))
  | lastUserMessageId (value : Option EventID)
  | other (name : String) (changed : Bool)

namespace FieldAssignment

def name : FieldAssignment → String
  | executionStatus _ => "execution_status"
  | blockedActions _ => "blocked_actions"
  | blockedMessages _ => "blocked_messages"
  | lastUserMessageId _ => "last_user_message_id"
  | other name _ => name

def apply (s : ConversationState) : FieldAssignment → ConversationState
  | executionStatus value => { s with executionStatus := value }
  | blockedActions value => { s with blockedActions := value }
  | blockedMessages value => { s with blockedMessages := value }
  | lastUserMessageId value => { s with lastUserMessageId := value }
  | other _ _ => s

def changed (s : ConversationState) : FieldAssignment → Bool
  | executionStatus value => s.executionStatus ≠ value
  | blockedActions value => s.blockedActions ≠ value
  | blockedMessages value => s.blockedMessages ≠ value
  | lastUserMessageId value => s.lastUserMessageId ≠ value
  | other _ changed => changed

end FieldAssignment

namespace LiveState

/-- One write to the store. -/
def write (w : LiveState) (store : StateStore) : LiveState :=
  { w with store, past := w.store :: w.past }

/-- `_save_base_state`. -/
def saveBaseState (w : LiveState) : LiveState := w.write { w.store with base := w.state }

/-- `__setattr__` up to the callback: the state with the field assigned. -/
def setattr (w : LiveState) (s : ConversationState) (changed : Bool) : LiveState :=
  let w := { w with state := s }
  if changed then
    if 0 < w.saveDepth then { w with dirty := true } else w.saveBaseState
  else w

/-- `append_event`. One that raises changes nothing. -/
def appendEvent (w : LiveState) (e : Event) : LiveState :=
  let e := w.state.stampParentId e
  match w.state.events.append e with
  | .error _ => w
  | .ok log =>
    let w := { w with state.events := log }.write { w.store with events := log }
    if e.isStateUpdate then w
    else
      let w := w.setattr { w.state with leafEventId := some e.id } (w.state.leafEventId ≠ some e.id)
      if w.state.headIsEmpty then w.setattr { w.state with headIsEmpty := false } true else w

/-- `__setattr__` of another field. The callback, when it is set, appends a
state update of the given id. -/
def assign (w : LiveState) (field : FieldAssignment) (onStateChange : Option NewId) : LiveState :=
  let changed := field.changed w.state
  let w := w.setattr (field.apply w.state) changed
  match onStateChange with
  | some new => if changed then w.appendEvent (stateUpdateEvent new field.name) else w
  | none => w

/-- `__enter__`. -/
def enter (w : LiveState) : LiveState := { w with saveDepth := w.saveDepth + 1 }

/-- `__exit__`, also of a block that an exception leaves. -/
def exit (w : LiveState) : LiveState :=
  let w := { w with saveDepth := w.saveDepth - 1 }
  if w.saveDepth = 0 ∧ w.dirty then { w.saveBaseState with dirty := false } else w

/-- The resume path of `create`. -/
def create (store : StateStore) : Except ValueError LiveState := do
  let headRepaired := store.base.leafEventId.any (· ∉ store.events.ids)
  let state ← ConversationState.resume store.base store.events
  let w : LiveState := { state, store }
  return if headRepaired then w.saveBaseState else w

end LiveState

/-- What a conversation does that never navigates. The events come without a
parent: `append_event` is where they get it. -/
inductive StateOp where
  | enter
  | exit
  | append (new : NewId) (body : EventBody)
  | assign (field : FieldAssignment) (onStateChange : Option NewId)

def StateOp.step (w : LiveState) : StateOp → LiveState
  | enter => w.enter
  | exit => w.exit
  | append new body => w.appendEvent (new.event body)
  | assign field onStateChange => w.assign field onStateChange

/-! ## Durable HEADs -/

/-- The last event that `append_event` moved HEAD to. -/
def EventLog.lastTreeEvent (log : EventLog) : Option Event := log.events.reverse.find? (!·.isStateUpdate)

namespace StateStore

/-- What is loaded has every persisted tree event on its active branch, and the
next append continues from the last one. -/
def HeadDurable (d : StateStore) : Prop :=
  ∃ w, LiveState.create d = .ok w ∧
    (∃ branch, w.state.activeBranch = .ok branch ∧
      ∀ e ∈ d.events.events, e.isStateUpdate = false → e ∈ branch) ∧
    ∀ e ∈ d.events.lastTreeEvent, ∀ (new : NewId) (body : EventBody),
      (w.state.stampParentId (new.event body)).parentId = some e.id

/-- `base_state.json` names the last tree event, or it names no event yet and
the last tree event is not one that `_resolve_active_leaf` skips. -/
def HeadSaved (d : StateStore) : Prop :=
  match d.base.leafEventId with
  | some leaf => d.events.lastTreeEvent.map Event.id = some leaf
  | none => ∀ e ∈ d.events.lastTreeEvent, e.isArtifact = false

instance HeadSaved.decidable (d : StateStore) : Decidable d.HeadSaved :=
  match h : d.base.leafEventId with
  | some leaf => decidable_of_iff (d.events.lastTreeEvent.map Event.id = some leaf) (by simp [HeadSaved, h])
  | none => decidable_of_iff (d.events.lastTreeEvent.all (!·.isArtifact) = true) (by simp [HeadSaved, h, Option.all_eq_true])

end StateStore

/-- The runs of a new conversation. A restart loads what a crash left, as long
as HEAD was saved there. -/
inductive LiveState.Reachable : LiveState → Prop
  | fresh : Reachable {}
  | step {w : LiveState} (op : StateOp) : Reachable w → Reachable (op.step w)
  | restart {w w' : LiveState} {d : StateStore} : Reachable w → d ∈ w.store :: w.past → d.HeadSaved →
      LiveState.create d = .ok w' → Reachable w'

/-! ## The last tree event -/

namespace EventLog
variable {log log' : EventLog} {e : Event}

theorem lastTreeEvent_spec (h : log.lastTreeEvent = some e) :
    e.isStateUpdate = false ∧ ∃ pre post, log.events = pre ++ e :: post ∧ ∀ x ∈ post, x.isStateUpdate = true := by
  obtain ⟨he, as, bs, hev, has⟩ := List.find?_eq_some_iff_append.1 h
  refine ⟨by simpa using he, bs.reverse, as.reverse, ?_, fun x hx => ?_⟩
  · rw [← List.reverse_reverse log.events, hev]
    simp
  · simpa using has x (List.mem_reverse.1 hx)

theorem lastTreeEvent_none (h : log.lastTreeEvent = none) : ∀ x ∈ log.events, x.isStateUpdate = true := by
  intro x hx
  simpa using List.find?_eq_none.1 h x (List.mem_reverse.2 hx)

theorem lastTreeEvent_mem (h : log.lastTreeEvent = some e) : e ∈ log.events := by
  obtain ⟨-, pre, post, hev, -⟩ := lastTreeEvent_spec h
  simp [hev]

theorem lastTreeEvent_append (h : log'.events = log.events ++ [e]) :
    log'.lastTreeEvent = if e.isStateUpdate then log.lastTreeEvent else some e := by
  rw [lastTreeEvent, h, List.reverse_append, List.reverse_singleton, List.singleton_append, List.find?_cons]
  cases he : e.isStateUpdate <;> simp [lastTreeEvent]

theorem event_unique {f : Event} (he : e ∈ log.events) (hf : f ∈ log.events) (hid : e.id = f.id) : e = f :=
  List.inj_on_of_nodup_map log.idsNodup he hf hid

/-- The lineage rule finds the last tree event, unless it skips it. -/
theorem lastRealEvent_iff : ConversationState.lastRealEvent log = log.lastTreeEvent.map Event.id ↔
    ∀ e ∈ log.lastTreeEvent, e.isArtifact = false := by
  constructor
  · intro h e he
    rw [he, ConversationState.lastRealEvent, Option.map_some, Option.map_eq_some_iff] at h
    obtain ⟨x, hx, hid⟩ := h
    have hxe := event_unique (List.mem_reverse.1 (List.mem_of_find?_eq_some hx)) (lastTreeEvent_mem he) hid
    simpa [hxe] using List.find?_some hx
  · intro h
    cases hl : log.lastTreeEvent with
    | none =>
      have hnone : ∀ x ∈ log.events, x.isArtifact = true := by
        intro x hx
        by_contra hcon
        rw [Bool.not_eq_true] at hcon
        simpa [Event.isStateUpdate_of_isArtifact hcon] using lastTreeEvent_none hl x hx
      have hfind : log.events.reverse.find? (!·.isArtifact) = none :=
        List.find?_eq_none.2 fun x hx => by simpa using hnone x (List.mem_reverse.1 hx)
      rw [ConversationState.lastRealEvent, hfind]
    | some e =>
      obtain ⟨-, pre, post, hev, hpost⟩ := lastTreeEvent_spec hl
      have hart : ∀ x ∈ post, x.isArtifact = true := by
        intro x hx
        by_contra hcon
        rw [Bool.not_eq_true] at hcon
        simpa [Event.isStateUpdate_of_isArtifact hcon] using hpost x hx
      have hfind : log.events.reverse.find? (!·.isArtifact) = some e := by
        refine List.find?_eq_some_iff_append.2 ⟨by simpa using h e hl, post.reverse, pre.reverse, ?_, ?_⟩
        · simp [hev]
        · intro x hx
          simpa using hart x (List.mem_reverse.1 hx)
      rw [ConversationState.lastRealEvent, hfind]

/-- The branch of an early event holds early events only. -/
theorem Branch.subset_prefix (hw : log.WellFormed) {pre post l : List Event} (hev : log.events = pre ++ post)
    {leaf : Option EventID} (hb : log.Branch leaf l)
    (hleaf : ∀ v ∈ leaf, ∃ i < pre.length, log.getId i = some v) : l ⊆ pre := by
  unfold Branch at hb
  induction hb with
  | root => simp
  | @node v b p l hn _ ih =>
    obtain ⟨i, hi, hid, rfl⟩ := next_eq_some.1 hn
    obtain ⟨j, hj, hjv⟩ := hleaf v rfl
    have hij : i = j := by
      obtain ⟨f, hf, hfv⟩ := exists_of_getId hjv
      have h1 : log.getIndex v = some i := getIndex_eq_some.2 ⟨b, hi, hid⟩
      have h2 : log.getIndex v = some j := getIndex_eq_some.2 ⟨f, hf, hfv⟩
      exact Option.some.inj (h1.symm.trans h2)
    have hlt : i < pre.length := hij ▸ hj
    have hbp : b ∈ pre := by
      rw [hev, List.getElem?_append_left hlt] at hi
      exact List.mem_of_getElem? hi
    refine List.append_subset.2 ⟨ih fun q hq => ?_, by simpa using hbp⟩
    obtain ⟨k, hk, hkq⟩ := effectiveParentId_lt hw hi hq
    exact ⟨k, by omega, hkq⟩

/-- The log of a conversation that never navigated: one line of tree events. -/
def Linear (log : EventLog) : Prop :=
  ∃ l, log.Branch (log.lastTreeEvent.map Event.id) l ∧ ∀ e ∈ log.events, e.isStateUpdate = false → e ∈ l

/-- Only the branch of the last tree event has them all. -/
theorem Linear.branch_iff (hl : log.Linear) (hw : log.WellFormed) {r : Option EventID} {l : List Event}
    (hr : ∀ id ∈ r, ∃ e ∈ log.events, e.id = id ∧ e.isStateUpdate = false) (hb : log.Branch r l) :
    (∀ e ∈ log.events, e.isStateUpdate = false → e ∈ l) ↔ r = log.lastTreeEvent.map Event.id := by
  constructor
  · intro hall
    cases ht : log.lastTreeEvent with
    | none =>
      cases r with
      | none => rfl
      | some id =>
        obtain ⟨e, he, -, hu⟩ := hr id rfl
        simp [lastTreeEvent_none ht e he] at hu
    | some t =>
      obtain ⟨htu, pre, post, hev, hpost⟩ := lastTreeEvent_spec ht
      have htl := hall t (lastTreeEvent_mem ht) htu
      by_contra hne
      have hpre : t ∉ pre := by
        have hnd := log.idsNodup.of_map
        rw [hev, List.nodup_append] at hnd
        exact fun h => hnd.2.2 t h t List.mem_cons_self rfl
      refine hpre (hb.subset_prefix hw hev (fun v hv => ?_) htl)
      obtain ⟨e, he, rfl, hu⟩ := hr v hv
      rw [hev, List.mem_append, List.mem_cons] at he
      rcases he with he | rfl | he
      · obtain ⟨i, hi, rfl⟩ := List.getElem_of_mem he
        refine ⟨i, hi, ?_⟩
        rw [getId, ids, List.getElem?_map, hev, List.getElem?_append_left hi, List.getElem?_eq_getElem hi]
        rfl
      · exact absurd hv hne
      · simp [hpost e he] at hu
  · rintro rfl
    obtain ⟨l', hb', hall⟩ := hl
    rwa [Trail.unique hb hb']

end EventLog

/-! ## What loading makes of a store -/

/-- What every write of such a conversation leaves in the store. -/
structure StateStore.Sound (d : StateStore) : Prop where
  log : d.events.WellFormed
  linear : d.events.Linear
  notEmpty : d.base.headIsEmpty = false
  leaf : ∀ id ∈ d.base.leafEventId, ∃ e ∈ d.events.events, e.id = id ∧ e.isStateUpdate = false

/-- HEAD by the rules of `_resolve_active_leaf`, when it was never emptied. -/
theorem ConversationState.resolveActiveLeaf_eq {s : ConversationState} (h : s.headIsEmpty = false) :
    s.resolveActiveLeaf = (s.leafEventId <|> lastRealEvent s.events) := by
  unfold ConversationState.resolveActiveLeaf
  cases s.leafEventId with
  | none => simp [h]
  | some leaf => rfl

namespace StateStore
variable {d : StateStore}

/-- HEAD as it would be loaded. -/
def head (d : StateStore) : Option EventID := d.base.leafEventId <|> ConversationState.lastRealEvent d.events

theorem headSaved_iff : d.HeadSaved ↔ d.head = d.events.lastTreeEvent.map Event.id := by
  unfold HeadSaved head
  cases d.base.leafEventId with
  | none => exact EventLog.lastRealEvent_iff.symm
  | some leaf => exact eq_comm

namespace Sound

theorem valid (hd : d.Sound) : (d.base.withLog d.events).Valid := by
  refine ⟨hd.log, fun id hid => ?_⟩
  obtain ⟨e, he, rfl, -⟩ := hd.leaf id hid
  exact EventLog.mem_ids.2 ⟨e, he, rfl⟩

theorem head_tree (hd : d.Sound) : ∀ id ∈ d.head, ∃ e ∈ d.events.events, e.id = id ∧ e.isStateUpdate = false := by
  intro id hid
  unfold head at hid
  cases hb : d.base.leafEventId with
  | some leaf => exact hd.leaf id (by simpa [hb] using hid)
  | none =>
    have hlast : ConversationState.lastRealEvent d.events = some id := by simpa [hb] using hid
    obtain ⟨e, he, rfl⟩ := Option.map_eq_some_iff.1 hlast
    have hart : e.isArtifact = false := by simpa using List.find?_some he
    exact ⟨e, List.mem_reverse.1 (List.mem_of_find?_eq_some he), rfl, Event.isStateUpdate_of_isArtifact hart⟩

/-- Loading a sound store succeeds and keeps its HEAD. -/
theorem create (hd : d.Sound) : ∃ w l, LiveState.create d = .ok w ∧ w.store = d ∧ w.past = [] ∧
    w.saveDepth = 0 ∧ w.dirty = false ∧ w.state.events = d.events ∧ w.state.leafEventId = d.base.leafEventId ∧
    w.state.headIsEmpty = false ∧ d.events.Branch d.head l := by
  have hv := hd.valid
  have hres : (d.base.withLog d.events).resolveActiveLeaf = d.head :=
    ConversationState.resolveActiveLeaf_eq hd.notEmpty
  obtain ⟨l, hl⟩ := hv.exists_branch
  have hpath : d.events.pathToRoot d.head = .ok l := hres ▸ hl.pathToRoot
  have hkept : d.base.leafEventId.any (· ∉ d.events.ids) = false := by
    cases hb : d.base.leafEventId with
    | none => rfl
    | some leaf => simpa using show leaf ∈ d.events.ids from hv.leaf leaf hb
  simp only [LiveState.create, ConversationState.resume, hv.repairMissingLeaf, ConversationState.rebuildView, hres,
    hkept, bind, Except.bind, show (d.base.withLog d.events).events = d.events from rfl, hpath, pure, Except.pure]
  exact ⟨_, l, rfl, rfl, rfl, rfl, rfl, rfl, rfl, hd.notEmpty, hres ▸ hl⟩

theorem empty : Sound {} := ⟨fun i e hi => by simp at hi, ⟨[], .root, by simp⟩, rfl, nofun⟩

/-- HEAD is durable where it was saved. -/
theorem headDurable_iff (hd : d.Sound) : d.HeadDurable ↔ d.HeadSaved := by
  obtain ⟨w, l, hw, -, -, -, -, hev, hleaf, hempty, hl⟩ := hd.create
  have hres : w.state.resolveActiveLeaf = d.head := by
    rw [ConversationState.resolveActiveLeaf_eq hempty, hleaf, hev, head]
  have hbranch : w.state.activeBranch = .ok l := ConversationState.activeBranch_eq (by rwa [hres, hev])
  rw [headSaved_iff, ← hd.linear.branch_iff hd.log hd.head_tree hl]
  constructor
  · rintro ⟨w', hw', ⟨b, hb, hall⟩, -⟩
    rw [hw] at hw'
    cases hw'
    rw [hbranch] at hb
    cases hb
    exact hall
  · intro hall
    have hhead := (hd.linear.branch_iff hd.log hd.head_tree hl).1 hall
    refine ⟨w, hw, ⟨l, hbranch, hall⟩, fun e he new body => ?_⟩
    rw [he, Option.map_some] at hhead
    simp [ConversationState.stampParentId, NewId.event, hres, hhead]

end Sound

end StateStore

/-! ## Appending -/

namespace ConversationState
variable {s s' : ConversationState} {e : Event} {d : StateStore}

/-- A state as the store would hold it. -/
def snapshot (s : ConversationState) : StateStore := ⟨s.events, s⟩

theorem snapshot_head (hs : s.snapshot.Sound) : s.resolveActiveLeaf = s.snapshot.head :=
  resolveActiveLeaf_eq hs.notEmpty

theorem snapshot_valid (hs : s.snapshot.Sound) : s.Valid := ⟨hs.valid.log, hs.valid.leaf⟩

@[simp] theorem stampParentId_isStateUpdate (s : ConversationState) (e : Event) :
    (s.stampParentId e).isStateUpdate = e.isStateUpdate := by
  simp only [Event.isStateUpdate, stampParentId_body]

theorem appendEvent_lastTreeEvent (h : s.appendEvent e = .ok s') :
    s'.events.lastTreeEvent = if e.isStateUpdate then s.events.lastTreeEvent else some (s.stampParentId e) := by
  rw [EventLog.lastTreeEvent_append (appendEvent_events h), stampParentId_isStateUpdate]

theorem appendEvent_head (h : s.appendEvent e = .ok s') :
    s'.leafEventId = (if e.isStateUpdate then s.leafEventId else some e.id) ∧
      s'.headIsEmpty = (if e.isStateUpdate then s.headIsEmpty else false) := by
  obtain ⟨log, -, rfl⟩ := appendEvent_ok h
  split <;> exact ⟨rfl, rfl⟩

/-- An append keeps the log one line of tree events. -/
theorem linear_appendEvent (hs : s.snapshot.Sound) (hh : s.snapshot.HeadSaved) (hp : e.parentId = none)
    (h : s.appendEvent e = .ok s') : s'.events.Linear := by
  obtain ⟨l, hl, hall⟩ := hs.linear
  have hv := snapshot_valid hs
  have hres : s.resolveActiveLeaf = s.events.lastTreeEvent.map Event.id :=
    (snapshot_head hs).trans (StateStore.headSaved_iff.1 hh)
  have hev := appendEvent_events h
  have hlast := appendEvent_lastTreeEvent h
  cases hu : e.isStateUpdate with
  | true =>
    rw [hu, if_pos rfl] at hlast
    refine ⟨l, by rw [hlast]; exact branch_appendEvent hv h hl, fun x hx hxu => ?_⟩
    rw [hev, List.mem_append, List.mem_singleton] at hx
    rcases hx with hx | rfl
    · exact hall x hx hxu
    · simp [hu] at hxu
  | false =>
    obtain ⟨-, hb⟩ := activeBranch_appendEvent hv h hu hp (hres ▸ hl)
    refine ⟨l ++ [s.stampParentId e], by simpa [hlast, hu] using hb, fun x hx hxu => ?_⟩
    rw [hev, List.mem_append] at hx
    rcases hx with hx | hx
    · exact List.mem_append_left _ (hall x hx hxu)
    · exact List.mem_append_right _ hx

/-- What the store held stays sound over the longer log. -/
theorem sound_appendEvent (hs : s.snapshot.Sound) (hh : s.snapshot.HeadSaved) (hp : e.parentId = none)
    (h : s.appendEvent e = .ok s') (hd : d.Sound) (hde : d.events = s.events) :
    StateStore.Sound ⟨s'.events, d.base⟩ where
  log := ((snapshot_valid hs).appendEvent h).log
  linear := linear_appendEvent hs hh hp h
  notEmpty := hd.notEmpty
  leaf := by
    intro id hid
    obtain ⟨x, hx, hxid⟩ := hd.leaf id hid
    refine ⟨x, ?_, hxid⟩
    rw [appendEvent_events h]
    exact List.mem_append_left _ (hde ▸ hx)

theorem snapshot_appendEvent (hs : s.snapshot.Sound) (hh : s.snapshot.HeadSaved) (hp : e.parentId = none)
    (h : s.appendEvent e = .ok s') : s'.snapshot.Sound ∧ s'.snapshot.HeadSaved := by
  have hold := sound_appendEvent hs hh hp h hs rfl
  obtain ⟨hleaf, hempty⟩ := appendEvent_head h
  have hlast := appendEvent_lastTreeEvent h
  have hev := appendEvent_events h
  cases hu : e.isStateUpdate with
  | true =>
    rw [hu, if_pos rfl] at hleaf hempty hlast
    refine ⟨⟨hold.log, hold.linear, hempty.trans hs.notEmpty, fun id hid => hold.leaf id (hleaf ▸ hid)⟩, ?_⟩
    have hres := resolve_appendEvent_update h hu
    rw [resolveActiveLeaf_eq (hempty.trans hs.notEmpty), snapshot_head hs, StateStore.headSaved_iff.1 hh] at hres
    rw [StateStore.headSaved_iff]
    exact hres.trans (congrArg (Option.map Event.id) hlast.symm)
  | false =>
    simp only [hu, Bool.false_eq_true, if_false] at hleaf hempty hlast
    refine ⟨⟨hold.log, hold.linear, hempty, fun id hid => ?_⟩, StateStore.headSaved_iff.2 ?_⟩
    · rw [show s'.snapshot.base.leafEventId = some e.id from hleaf] at hid
      cases hid
      exact ⟨s.stampParentId e, by simp [snapshot, hev], stampParentId_id s e, by simpa using hu⟩
    · simp [StateStore.head, snapshot, hlast, hleaf]

end ConversationState

/-! ## Runs -/

namespace LiveState

/-- What holds also between the two writes of an append. -/
structure Kept (w : LiveState) : Prop where
  sound : w.state.snapshot.Sound
  head : w.state.snapshot.HeadSaved
  log : w.store.events = w.state.events
  stores : ∀ d ∈ w.store :: w.past, d.Sound
  outside : w.saveDepth = 0 → w.dirty = false

/-- Between the operations, HEAD waits for a save only inside a block. -/
structure Inv (w : LiveState) : Prop extends w.Kept where
  saved : w.dirty = false → w.store.base.leafEventId = w.state.leafEventId

variable {w : LiveState} {e : Event}

/-- The save that a changed field asks for. -/
def persist (w : LiveState) : LiveState := if 0 < w.saveDepth then { w with dirty := true } else w.saveBaseState

/-- The event file of an append, written. -/
def recorded (w : LiveState) (s : ConversationState) : LiveState :=
  { w with state := s }.write { w.store with events := s.events }

theorem setattr_eq (s : ConversationState) (changed : Bool) :
    w.setattr s changed = if changed then persist { w with state := s } else { w with state := s } := rfl

/-- Everything `append_event` does to the store. -/
theorem appendEvent_cases (hw : w.Kept) : w.appendEvent e = w ∨ ∃ s, w.state.appendEvent e = .ok s ∧
    w.appendEvent e = if e.isStateUpdate then w.recorded s else (w.recorded s).persist := by
  have hempty : w.state.headIsEmpty = false := hw.sound.notEmpty
  cases hl : w.state.events.append (w.state.stampParentId e) with
  | error err => exact .inl (by simp [appendEvent, hl])
  | ok log =>
    refine .inr ?_
    have hfresh : w.state.leafEventId ≠ some e.id := by
      intro hleaf
      refine (EventLog.append_ok hl).1 ?_
      simpa using (ConversationState.snapshot_valid hw.sound).leaf e.id hleaf
    simp only [ConversationState.appendEvent, hl, bind, Except.bind, pure, Except.pure, appendEvent, setattr_eq,
      ConversationState.stampParentId_isStateUpdate, ConversationState.stampParentId_id]
    cases hu : e.isStateUpdate with
    | true => exact ⟨_, rfl, rfl⟩
    | false =>
      refine ⟨_, rfl, ?_⟩
      simp only [Bool.false_eq_true, if_false, write, hfresh, ne_eq, not_false_eq_true, decide_true, if_true]
      by_cases hin : 0 < w.saveDepth <;> simp [persist, recorded, write, saveBaseState, hempty, hin]

theorem Kept.persist (hw : w.Kept) : w.persist.Inv := by
  unfold LiveState.persist
  split
  · rename_i hin
    exact ⟨⟨hw.sound, hw.head, hw.log, hw.stores, fun hout => absurd hout (by simpa using Nat.ne_of_gt hin)⟩, nofun⟩
  · refine ⟨⟨hw.sound, hw.head, hw.log, ?_, hw.outside⟩, fun _ => rfl⟩
    rw [saveBaseState, write]
    refine List.forall_mem_cons.2 ⟨?_, hw.stores⟩
    have hsnap := hw.sound
    exact ⟨hw.log ▸ hsnap.log, hw.log ▸ hsnap.linear, hsnap.notEmpty, hw.log ▸ hsnap.leaf⟩

theorem Kept.recorded (hw : w.Kept) (hp : e.parentId = none) {s : ConversationState}
    (h : w.state.appendEvent e = .ok s) : (w.recorded s).Kept := by
  obtain ⟨hsound, hhead⟩ := ConversationState.snapshot_appendEvent hw.sound hw.head hp h
  refine ⟨hsound, hhead, rfl, List.forall_mem_cons.2 ⟨?_, hw.stores⟩, hw.outside⟩
  exact ConversationState.sound_appendEvent hw.sound hw.head hp h (hw.stores _ List.mem_cons_self) hw.log

theorem Inv.appendEvent (hw : w.Inv) (hp : e.parentId = none) : (w.appendEvent e).Inv := by
  rcases appendEvent_cases hw.toKept (e := e) with heq | ⟨s, hs, heq⟩
  · rwa [heq]
  · have hrec := hw.toKept.recorded hp hs
    rw [heq]
    cases hu : e.isStateUpdate with
    | true =>
      refine ⟨hrec, fun hd => ?_⟩
      have hleaf := (ConversationState.appendEvent_head hs).1
      rw [hu, if_pos rfl] at hleaf
      exact (hw.saved hd).trans hleaf.symm
    | false => exact hrec.persist

theorem Kept.assigned (hw : w.Kept) (field : FieldAssignment) : Kept { w with state := field.apply w.state } := by
  obtain ⟨⟨hl, hlin, hempty, hleaf⟩, hhead, hlog, hstores, hout⟩ := hw
  cases field <;> exact ⟨⟨hl, hlin, hempty, hleaf⟩, hhead, hlog, hstores, hout⟩

theorem Inv.setattr (hw : w.Inv) (field : FieldAssignment) :
    (w.setattr (field.apply w.state) (field.changed w.state)).Inv := by
  have hkept := hw.toKept.assigned field
  rw [setattr_eq]
  split
  · exact hkept.persist
  · refine ⟨hkept, fun hd => (hw.saved hd).trans ?_⟩
    cases field <;> rfl

theorem Inv.assign (hw : w.Inv) (field : FieldAssignment) (onStateChange : Option NewId) :
    (w.assign field onStateChange).Inv := by
  have hset := hw.setattr field
  unfold LiveState.assign
  cases onStateChange with
  | none => exact hset
  | some new =>
    dsimp only
    split
    · exact hset.appendEvent rfl
    · exact hset

theorem Inv.enter (hw : w.Inv) : w.enter.Inv :=
  ⟨⟨hw.sound, hw.head, hw.log, hw.stores, nofun⟩, hw.saved⟩

theorem Inv.exit (hw : w.Inv) : w.exit.Inv := by
  unfold LiveState.exit
  dsimp only
  split
  · rename_i hlast
    have hsnap := hw.sound
    refine ⟨⟨hw.sound, hw.head, hw.log, List.forall_mem_cons.2 ⟨?_, hw.stores⟩, fun _ => rfl⟩, fun _ => rfl⟩
    exact ⟨hw.log ▸ hsnap.log, hw.log ▸ hsnap.linear, hsnap.notEmpty, hw.log ▸ hsnap.leaf⟩
  · rename_i hmore
    refine ⟨⟨hw.sound, hw.head, hw.log, hw.stores, fun hout => ?_⟩, hw.saved⟩
    simpa using fun hd => hmore ⟨hout, hd⟩

theorem Inv.step (hw : w.Inv) (op : StateOp) : (op.step w).Inv := by
  cases op with
  | enter => exact hw.enter
  | exit => exact hw.exit
  | append new body => exact hw.appendEvent rfl
  | assign field onStateChange => exact hw.assign field onStateChange

theorem Inv.fresh : Inv {} where
  sound := StateStore.Sound.empty
  head := by
    intro e he
    cases he
  log := rfl
  stores := List.forall_mem_singleton.2 StateStore.Sound.empty
  outside := fun _ => rfl
  saved := fun _ => rfl

theorem Inv.restart {d : StateStore} (hd : d.Sound) (hsaved : d.HeadSaved) (h : create d = .ok w) : w.Inv := by
  obtain ⟨w', l, hw', hstore, hpast, -, hdirty, hev, hleaf, hempty, -⟩ := hd.create
  rw [h] at hw'
  cases hw'
  refine ⟨⟨⟨?_, ?_, hempty, ?_⟩, ?_, ?_, ?_, fun _ => hdirty⟩, fun _ => ?_⟩
  · simpa [ConversationState.snapshot, hev] using hd.log
  · simpa [ConversationState.snapshot, hev] using hd.linear
  · simpa [ConversationState.snapshot, hev, hleaf] using hd.leaf
  · rw [StateStore.headSaved_iff] at hsaved ⊢
    simpa [ConversationState.snapshot, StateStore.head, hev, hleaf] using hsaved
  · rw [hstore, hev]
  · simpa [hstore, hpast] using hd
  · rw [hstore, hleaf]

theorem Reachable.inv (h : Reachable w) : w.Inv := by
  induction h with
  | fresh => exact Inv.fresh
  | step op _ ih => exact ih.step op
  | restart _ hd hsaved hw ih => exact Inv.restart (ih.stores _ hd) hsaved hw

theorem reachable_foldl (h : Reachable w) (ops : List StateOp) : Reachable (ops.foldl StateOp.step w) := by
  induction ops generalizing w with
  | nil => exact h
  | cons op ops ih => exact ih (h.step op)

/-- Outside a block, HEAD is saved between the operations. -/
theorem Inv.headSaved (hw : w.Inv) (hout : w.saveDepth = 0) : w.store.HeadSaved := by
  have hsnap := StateStore.headSaved_iff.1 hw.head
  rw [StateStore.headSaved_iff, StateStore.head, hw.saved (hw.outside hout), hw.log]
  exact hsnap

/-- **Where HEAD is durable.** Between any two writes of any run, what is loaded
has every persisted tree event on its branch just when HEAD was saved. Outside
a block it always was, once the operation is over. -/
theorem headDurable_of_reachable (h : Reachable w) :
    (∀ d ∈ w.store :: w.past, d.HeadDurable ↔ d.HeadSaved) ∧ (w.saveDepth = 0 → w.store.HeadDurable) := by
  have hw := h.inv
  have hiff : ∀ d ∈ w.store :: w.past, d.HeadDurable ↔ d.HeadSaved := fun d hd => (hw.stores d hd).headDurable_iff
  exact ⟨hiff, fun hout => (hiff _ List.mem_cons_self).2 (hw.headSaved hout)⟩

/-- Two blocks with one append each, the second one still open. -/
def secondBlock : LiveState :=
  [.enter, .append { id := "e0" } (.other "pause"), .exit, .enter,
    .append { id := "e1" } (.other "pause")].foldl StateOp.step {}

theorem headDurable_secondBlock : Reachable secondBlock ∧ ∀ d ∈ secondBlock.past, d.HeadDurable := by
  have hr : Reachable secondBlock := reachable_foldl .fresh _
  refine ⟨hr, fun d hd => ?_⟩
  have hiff := (headDurable_of_reachable hr).1 d (List.mem_cons_of_mem secondBlock.store hd)
  exact hiff.2 ((by decide +kernel : ∀ d ∈ secondBlock.past, d.HeadSaved) d hd)

/-- A crash inside the second block: HEAD on disk is still the first event, so
the second one, whose file is there, is loaded outside the active branch. -/
theorem head_stale : Reachable secondBlock ∧ secondBlock.store.events.ids = ["e0", "e1"] ∧
    (create secondBlock.store).map (fun w => w.state.activeBranch.map (List.map Event.id)) = .ok (.ok ["e0"]) ∧
    ¬ secondBlock.store.HeadDurable := by
  have hr : Reachable secondBlock := reachable_foldl .fresh _
  refine ⟨hr, by decide +kernel, by decide +kernel, fun h => ?_⟩
  have hsaved := (hr.inv.stores _ List.mem_cons_self).headDurable_iff.1 h
  exact absurd hsaved (by decide +kernel)

end LiveState

end AgentSdk
