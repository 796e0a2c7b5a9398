import AgentSdk.Lib.Bisect
import AgentSdk.Lib.Runs
import Mathlib
/-!
# The remote event list

`RemoteEventsList`: the client's copy of the server's event log, filled by an
initial full sync, by events from the websocket and by reconciles. The server
appends events in the order of their timestamps; an ACP tool call has a started
event and, later, a terminal one.
-/

namespace AgentSdk
open Lib

inductive AcpStatus where
  | started
  | completed
  | failed
deriving DecidableEq, Repr

structure AcpToolCall where
  toolCallId : String
  status : AcpStatus
deriving DecidableEq, Repr

structure RemoteEvent (κ : Type) where
  id : String
  timestamp : κ
  acp : Option AcpToolCall := none
deriving DecidableEq, Repr

namespace RemoteEvent
variable {κ : Type}

def call? (e : RemoteEvent κ) : Option String := e.acp.map (·.toolCallId)

def isStarted (e : RemoteEvent κ) : Bool := e.acp.any (·.status = .started)

def SameCall (a b : RemoteEvent κ) : Prop := a.call?.isSome ∧ a.call? = b.call?

/-- A started event and the terminal event of its call. -/
def FinishedBy (e t : RemoteEvent κ) : Prop := e.SameCall t ∧ e.isStarted = true ∧ t.isStarted = false

instance sameCallDecidable (a b : RemoteEvent κ) : Decidable (a.SameCall b) :=
  inferInstanceAs (Decidable (_ ∧ _))

instance finishedByDecidable (e t : RemoteEvent κ) : Decidable (e.FinishedBy t) :=
  inferInstanceAs (Decidable (_ ∧ _))

end RemoteEvent

/-- An entry of the cache; whether it took the place of another one is kept for
the statement only. -/
structure CachedEvent (κ : Type) where
  event : RemoteEvent κ
  merged : Bool := false
deriving DecidableEq, Repr

/-- A reconcile that has fetched the first `upTo` events of the log, and has
added `done` of them under the lock. -/
inductive ReconcilePc where
  | idle
  | merging (upTo done : Nat)
deriving DecidableEq, Repr

inductive RemoteOp (κ : Type) where
  | append (event : RemoteEvent κ)
  | deliver (i : Nat)
  | reconcile (upTo : Nat)
  | next
  | finish
deriving DecidableEq

/-- The server's log and the client's list. Kept for the statement only: how
many events the initial sync fetched, how often a started event took the place of
its terminal event, and what the last step reconciled. -/
structure RemoteWorld (κ : Type) where
  log : List (RemoteEvent κ)
  cachedEvents : List (CachedEvent κ)
  cachedEventIds : String → Bool
  acpIndex : String → Option String := fun _ => none
  reconcile : ReconcilePc := .idle
  synced : Nat
  downgrades : Nat := 0
  reconciled : Option Nat := none

namespace RemoteWorld
variable {κ : Type} [LinearOrder κ]

/-! ## The list -/

/-- `_do_full_sync` in the constructor. -/
def initial (log : List (RemoteEvent κ)) : RemoteWorld κ where
  log := log
  cachedEvents := log.map fun e => { event := e }
  cachedEventIds := fun id => log.any fun e => e.id = id
  synced := log.length

/-- The timestamps that the binary search for `event` sees. -/
def timestampAt (s : RemoteWorld κ) (event : RemoteEvent κ) (i : Nat) : κ :=
  (s.cachedEvents[i]?.map fun x => x.event.timestamp).getD event.timestamp

def insertPos (s : RemoteWorld κ) (event : RemoteEvent κ) : Nat :=
  bisectRight (s.timestampAt event) event.timestamp 0 s.cachedEvents.length

def insert (s : RemoteWorld κ) (event : RemoteEvent κ) : RemoteWorld κ :=
  { s with
    cachedEvents :=
      s.cachedEvents.take (s.insertPos event) ++ { event := event } :: s.cachedEvents.drop (s.insertPos event)
    cachedEventIds := Function.update s.cachedEventIds event.id true
    acpIndex :=
      match event.call? with
      | some call => Function.update s.acpIndex call (some event.id)
      | none => s.acpIndex }

/-- `_add_event_unsafe`. -/
def addEventUnsafe (s : RemoteWorld κ) (event : RemoteEvent κ) : RemoteWorld κ :=
  match event.call? with
  | none => s.insert event
  | some call =>
    match s.acpIndex call with
    | none => s.insert event
    | some existing =>
      match s.cachedEvents.findIdx? fun x => x.event.id = existing with
      | some i =>
        { s with
          cachedEvents := s.cachedEvents.set i { event := event, merged := true }
          cachedEventIds := Function.update (Function.update s.cachedEventIds existing false) event.id true
          acpIndex := Function.update s.acpIndex call (some event.id)
          downgrades := if s.cachedEvents[i]?.any fun x => event.FinishedBy x.event then s.downgrades + 1 else s.downgrades }
      | none =>
        insert { s with
          cachedEventIds := Function.update s.cachedEventIds existing false
          acpIndex := Function.update s.acpIndex call none } event

def addEvent (s : RemoteWorld κ) (event : RemoteEvent κ) : RemoteWorld κ :=
  if s.cachedEventIds event.id then s else s.addEventUnsafe event

/-- What the server promises of two events in the order of its log. -/
def Follows (a b : RemoteEvent κ) : Prop :=
  a.id ≠ b.id ∧ a.timestamp ≤ b.timestamp ∧ (a.SameCall b → a.isStarted = true ∧ b.isStarted = false)

instance followsDecidable (a b : RemoteEvent κ) : Decidable (Follows a b) :=
  inferInstanceAs (Decidable (_ ∧ _))

def LogOk (log : List (RemoteEvent κ)) : Prop := log.Pairwise Follows

instance logOkDecidable (log : List (RemoteEvent κ)) : Decidable (LogOk log) :=
  inferInstanceAs (Decidable (log.Pairwise Follows))

/-- A reconcile fetches page by page without the lock, and the log only grows,
so what it has when it stops is a first part of the log. It adds that under the
lock, one event in a step. -/
def step (s : RemoteWorld κ) : RemoteOp κ → Option (RemoteWorld κ)
  | .append event =>
    if ∀ a ∈ s.log, Follows a event then some { s with log := s.log ++ [event] } else none
  | .deliver i =>
    match s.reconcile, s.log[i]? with
    | .idle, some event => some { s.addEvent event with reconciled := none }
    | _, _ => none
  | .reconcile upTo =>
    match s.reconcile with
    | .idle => if upTo ≤ s.log.length then some { s with reconcile := .merging upTo 0, reconciled := none } else none
    | _ => none
  | .next =>
    match s.reconcile with
    | .merging upTo done =>
      if done < upTo then
        match s.log[done]? with
        | some event => some { s.addEvent event with reconcile := .merging upTo (done + 1) }
        | none => none
      else none
    | _ => none
  | .finish =>
    match s.reconcile with
    | .merging upTo done => if done = upTo then some { s with reconcile := .idle, reconciled := some upTo } else none
    | _ => none

/-! ## What has to hold -/

def Has (s : RemoteWorld κ) (e : RemoteEvent κ) : Prop := ∃ x ∈ s.cachedEvents, x.event = e

/-- No event is twice in the list, and of the first `n` events of the log the
list has all but the started events of finished calls. -/
structure Converged (s : RemoteWorld κ) (n : Nat) : Prop where
  once : s.cachedEvents.Pairwise fun x y => x.event.id ≠ y.event.id
  has : ∀ e ∈ s.log.take n, s.Has e ↔ ¬ ∃ t ∈ s.log.take n, e.FinishedBy t

def InOrder (s : RemoteWorld κ) : Prop :=
  s.cachedEvents.Pairwise fun x y => x.merged = false → y.merged = false → x.event.timestamp ≤ y.event.timestamp

/-! ## When it holds -/

/-- The event that a step gives to the list. -/
def given (s : RemoteWorld κ) : RemoteOp κ → Option (RemoteEvent κ)
  | .deliver i => s.log[i]?
  | .next =>
    match s.reconcile with
    | .merging _ done => s.log[done]?
    | .idle => none
  | _ => none

/-- The search for a new event's place is not misled by a merged entry. -/
def Straight (s : RemoteWorld κ) (e : RemoteEvent κ) : Prop :=
  s.cachedEventIds e.id = false → e.call?.bind s.acpIndex = none →
    ∀ p ∈ bisectProbes (s.timestampAt e) e.timestamp 0 s.cachedEvents.length, ∀ m ∈ s.cachedEvents[p]?, m.merged = true →
      (e.timestamp < m.event.timestamp →
        ∀ x ∈ s.cachedEvents.drop (p + 1), x.merged = false → e.timestamp ≤ x.event.timestamp) ∧
      (m.event.timestamp ≤ e.timestamp →
        ∀ x ∈ s.cachedEvents.take p, x.merged = false → x.event.timestamp ≤ e.timestamp)

/-- A started event that is not in the list, while its terminal event is. -/
def Late (s : RemoteWorld κ) (e : RemoteEvent κ) : Prop :=
  s.cachedEventIds e.id = false ∧ ∃ x ∈ s.cachedEvents, e.FinishedBy x.event

end RemoteWorld

namespace RemoteOp
variable {κ : Type} [LinearOrder κ]

/-- No call is reconciled whose started event is from the initial sync. -/
def Merges (s : RemoteWorld κ) : RemoteOp κ → Prop
  | .reconcile upTo => ∀ e ∈ s.log.take s.synced, ∀ t ∈ s.log.take upTo, ¬ e.FinishedBy t
  | _ => True

def NotLate (s : RemoteWorld κ) (op : RemoteOp κ) : Prop := ∀ e ∈ s.given op, ¬ s.Late e

def Straight (s : RemoteWorld κ) (op : RemoteOp κ) : Prop := ∀ e ∈ s.given op, s.Straight e

instance mergesDecidable (s : RemoteWorld κ) (op : RemoteOp κ) : Decidable (op.Merges s) := by
  cases op <;> unfold Merges <;> infer_instance

instance notLateDecidable (s : RemoteWorld κ) (op : RemoteOp κ) : Decidable (op.NotLate s) := by
  unfold NotLate RemoteWorld.Late
  infer_instance

instance straightDecidable (s : RemoteWorld κ) (op : RemoteOp κ) : Decidable (op.Straight s) := by
  unfold Straight RemoteWorld.Straight
  infer_instance

end RemoteOp

namespace RemoteWorld
variable {κ : Type} [LinearOrder κ]

/-! ## The log -/

section Log
variable {log : List (RemoteEvent κ)} {a b e : RemoteEvent κ}

theorem LogOk.id_ne (h : LogOk log) (ha : a ∈ log) (hb : b ∈ log) (hab : a ≠ b) : a.id ≠ b.id := by
  have hpair : log.Pairwise fun x y => x.id ≠ y.id := h.imp fun hxy => hxy.1
  have : Std.Symm fun x y : RemoteEvent κ => x.id ≠ y.id := ⟨fun _ _ hxy => hxy.symm⟩
  exact hpair.forall ha hb hab

theorem LogOk.eq_of_id (h : LogOk log) (ha : a ∈ log) (hb : b ∈ log) (hid : a.id = b.id) : a = b := by
  by_contra hab
  exact h.id_ne ha hb hab hid

omit [LinearOrder κ] in
theorem SameCall.symm (h : a.SameCall b) : b.SameCall a := ⟨h.2 ▸ h.1, h.2.symm⟩

/-- Of two events of a call one is the started one. -/
theorem LogOk.started_ne (h : LogOk log) (ha : a ∈ log) (hb : b ∈ log) (hab : a ≠ b) (hcall : a.SameCall b) :
    a.isStarted ≠ b.isStarted := by
  have hpair : log.Pairwise fun x y => x.SameCall y → x.isStarted ≠ y.isStarted :=
    h.imp fun hxy hsame => by
      obtain ⟨hx, hy⟩ := hxy.2.2 hsame
      rw [hx, hy]
      decide
  have : Std.Symm fun x y : RemoteEvent κ => x.SameCall y → x.isStarted ≠ y.isStarted :=
    ⟨fun _ _ hxy hsame => (hxy (SameCall.symm hsame)).symm⟩
  exact hpair.forall ha hb hab hcall

/-- A call has no third event. -/
theorem LogOk.two (h : LogOk log) {c : RemoteEvent κ} (ha : a ∈ log) (hb : b ∈ log) (hc : c ∈ log)
    (hab : a.SameCall b) (hac : a.SameCall c) (hne : a ≠ b) (hne' : a ≠ c) : b = c := by
  by_contra hbc
  have h₁ := h.started_ne ha hb hne hab
  have h₂ := h.started_ne ha hc hne' hac
  have h₃ := h.started_ne hb hc hbc ⟨hab.2 ▸ hab.1, hab.2.symm.trans hac.2⟩
  cases ha' : a.isStarted <;> cases hb' : b.isStarted <;> cases hc' : c.isStarted <;> simp_all

theorem LogOk.follows (h : LogOk log) {k : Nat} (he : log[k]? = some e) (ha : a ∈ log.take k) : Follows a e := by
  obtain ⟨hk, rfl⟩ := List.getElem?_eq_some_iff.1 he
  unfold LogOk at h
  rw [← List.take_append_drop k log, List.pairwise_append] at h
  refine h.2.2 a ha log[k] ?_
  rw [List.drop_eq_getElem_cons hk]
  exact List.mem_cons_self

omit [LinearOrder κ] in
theorem mem_take_succ {k : Nat} (he : log[k]? = some e) : a ∈ log.take (k + 1) ↔ a ∈ log.take k ∨ a = e := by
  rw [List.take_add_one, he, List.mem_append]
  simp

end Log

/-! ## The invariant -/

structure Consistent (s : RemoteWorld κ) : Prop where
  log : LogOk s.log
  synced : s.synced ≤ s.log.length
  ids : ∀ id, s.cachedEventIds id = true ↔ ∃ x ∈ s.cachedEvents, x.event.id = id
  fromLog : ∀ x ∈ s.cachedEvents, x.event ∈ s.log
  once : s.cachedEvents.Pairwise fun x y => x.event.id ≠ y.event.id
  first : ∀ e ∈ s.log.take s.synced, s.Has e
  index : ∀ c id, s.acpIndex c = some id →
    ∃ x ∈ s.cachedEvents, x.event.id = id ∧ x.event.call? = some c ∧ x.event ∉ s.log.take s.synced
  indexed : ∀ x ∈ s.cachedEvents, ∀ c, x.event.call? = some c →
    x.event ∈ s.log.take s.synced ∨ s.acpIndex c = some x.event.id
  merging : ∀ n k, s.reconcile = .merging n k → k ≤ n ∧ n ≤ s.log.length
  reconciled : ∀ n, s.reconciled = some n → n ≤ s.log.length

section Add
variable {s t : RemoteWorld κ} {e e' : RemoteEvent κ}

theorem Consistent.has_iff (hs : s.Consistent) (he : e ∈ s.log) : s.Has e ↔ s.cachedEventIds e.id = true := by
  rw [hs.ids e.id]
  constructor
  · rintro ⟨x, hx, rfl⟩
    exact ⟨x, hx, rfl⟩
  · rintro ⟨x, hx, hid⟩
    exact ⟨x, hx, hs.log.eq_of_id (hs.fromLog x hx) he hid⟩

/-- What adding an event of the log can do: nothing, insert it, or put it in
the place of the other event of its call. -/
inductive Added (s : RemoteWorld κ) (e : RemoteEvent κ) : RemoteWorld κ → Prop
  | known : s.Has e → Added s e s
  | inserted : ¬ s.Has e → e.call?.bind s.acpIndex = none → Added s e (s.insert e)
  | merged (l₁ l₂ : List (CachedEvent κ)) (x : CachedEvent κ) (c : String) (i : Nat) : ¬ s.Has e →
      s.cachedEvents = l₁ ++ x :: l₂ → e.call? = some c → x.event.call? = some c →
      x.event ∉ s.log.take s.synced → s.acpIndex c = some x.event.id →
      Added s e { s with
        cachedEvents := l₁ ++ { event := e, merged := true } :: l₂
        cachedEventIds := Function.update (Function.update s.cachedEventIds x.event.id false) e.id true
        acpIndex := Function.update s.acpIndex c (some e.id)
        downgrades := if e.FinishedBy x.event then s.downgrades + 1 else s.downgrades }

theorem Consistent.added (hs : s.Consistent) (he : e ∈ s.log) : Added s e (s.addEvent e) := by
  unfold addEvent
  by_cases hknown : s.cachedEventIds e.id = true
  · rw [if_pos hknown]
    exact .known ((hs.has_iff he).2 hknown)
  · have hnew : ¬ s.Has e := fun h => hknown ((hs.has_iff he).1 h)
    rw [if_neg hknown, addEventUnsafe]
    cases hcall : e.call? with
    | none => exact .inserted hnew (by rw [hcall]; rfl)
    | some c =>
      dsimp only
      cases hidx : s.acpIndex c with
      | none => exact .inserted hnew (by rw [hcall]; exact hidx)
      | some existing =>
        dsimp only
        obtain ⟨x, hx, rfl, hxc, hxs⟩ := hs.index c existing hidx
        obtain ⟨i, hi⟩ := Option.isSome_iff_exists.1
          ((List.findIdx?_isSome (p := fun y : CachedEvent κ => decide (y.event.id = x.event.id))).trans
            (List.any_eq_true.2 ⟨x, hx, by simp⟩))
        rw [hi]
        dsimp only
        obtain ⟨hlt, hid, -⟩ := List.findIdx?_eq_some_iff_getElem.1 hi
        -- The entry found is the one of the index.
        have hfound : s.cachedEvents[i].event = x.event :=
          hs.log.eq_of_id (hs.fromLog _ (List.getElem_mem hlt)) (hs.fromLog x hx) (by simpa using hid)
        have hsplit : s.cachedEvents = s.cachedEvents.take i ++ s.cachedEvents[i] :: s.cachedEvents.drop (i + 1) := by
          rw [← List.drop_eq_getElem_cons hlt, List.take_append_drop]
        have hget : s.cachedEvents[i]? = some s.cachedEvents[i] := List.getElem?_eq_getElem hlt
        rw [List.set_eq_take_append_cons_drop, if_pos hlt, hget, ← hfound]
        simp only [Option.any_some, decide_eq_true_eq]
        exact .merged _ _ _ c i hnew hsplit hcall (hfound ▸ hxc) (hfound ▸ hxs) (hfound ▸ hidx)

theorem mem_insert {y : CachedEvent κ} :
    y ∈ (s.insert e).cachedEvents ↔ y = { event := e } ∨ y ∈ s.cachedEvents := by
  have hparts : y ∈ s.cachedEvents ↔
      y ∈ s.cachedEvents.take (s.insertPos e) ∨ y ∈ s.cachedEvents.drop (s.insertPos e) := by
    rw [← List.mem_append, List.take_append_drop]
  rw [hparts, insert, List.mem_append, List.mem_cons]
  exact or_left_comm

theorem has_insert : (s.insert e).Has e' ↔ s.Has e' ∨ e' = e := by
  constructor
  · rintro ⟨y, hy, rfl⟩
    rcases mem_insert.1 hy with rfl | hy
    · exact .inr rfl
    · exact .inl ⟨y, hy, rfl⟩
  · rintro (⟨y, hy, rfl⟩ | rfl)
    · exact ⟨y, mem_insert.2 (.inr hy), rfl⟩
    · exact ⟨_, mem_insert.2 (.inl rfl), rfl⟩

omit [LinearOrder κ] in
theorem once_middle {l₁ l₂ : List (CachedEvent κ)} {x : CachedEvent κ} :
    ((l₁ ++ x :: l₂).Pairwise fun y z => y.event.id ≠ z.event.id) ↔
      (∀ y ∈ l₁ ++ l₂, x.event.id ≠ y.event.id) ∧ (l₁ ++ l₂).Pairwise fun y z => y.event.id ≠ z.event.id := by
  rw [List.pairwise_middle fun {_ _} h => h.symm, List.pairwise_cons]

/-- An event takes the place of the other one of its call. -/
theorem Consistent.has_merged (hs : s.Consistent) {l₁ l₂ : List (CachedEvent κ)} {x : CachedEvent κ}
    (hsplit : s.cachedEvents = l₁ ++ x :: l₂) (hcached : t.cachedEvents = l₁ ++ { event := e, merged := true } :: l₂) :
    t.Has e' ↔ (s.Has e' ∧ e' ≠ x.event) ∨ e' = e := by
  have honce := hs.once
  rw [hsplit, once_middle] at honce
  constructor
  · rintro ⟨y, hy, rfl⟩
    rw [hcached, List.mem_append, List.mem_cons, or_left_comm, ← List.mem_append] at hy
    rcases hy with rfl | hy
    · exact .inr rfl
    · refine .inl ⟨⟨y, ?_, rfl⟩, fun heq => honce.1 y hy (by rw [heq])⟩
      rw [hsplit, List.mem_append, List.mem_cons, or_left_comm, ← List.mem_append]
      exact .inr hy
  · rintro (⟨⟨y, hy, rfl⟩, hne⟩ | rfl)
    · rw [hsplit, List.mem_append, List.mem_cons, or_left_comm, ← List.mem_append] at hy
      refine ⟨y, ?_, rfl⟩
      rw [hcached, List.mem_append, List.mem_cons, or_left_comm, ← List.mem_append]
      rcases hy with rfl | hy
      · exact absurd rfl hne
      · exact .inr hy
    · exact ⟨_, by rw [hcached]; exact List.mem_append_right _ List.mem_cons_self, rfl⟩

theorem Consistent.insert (hs : s.Consistent) (he : e ∈ s.log) (hnew : ¬ s.Has e)
    (hidx : e.call?.bind s.acpIndex = none) : (s.insert e).Consistent := by
  have hids : ∀ y ∈ s.cachedEvents, e.id ≠ y.event.id := fun y hy hid =>
    hnew ⟨y, hy, hs.log.eq_of_id (hs.fromLog y hy) he hid.symm⟩
  refine ⟨hs.log, hs.synced, fun id => ?_, fun y hy => ?_, ?_, fun e' he' => ?_, fun c id hc => ?_, fun y hy c hc => ?_,
    hs.merging, hs.reconciled⟩
  · show Function.update s.cachedEventIds e.id true id = true ↔ _
    by_cases hid : id = e.id
    · subst hid
      rw [Function.update_self]
      exact ⟨fun _ => ⟨_, mem_insert.2 (.inl rfl), rfl⟩, fun _ => rfl⟩
    · rw [Function.update_of_ne hid, hs.ids id]
      constructor
      · rintro ⟨y, hy, rfl⟩
        exact ⟨y, mem_insert.2 (.inr hy), rfl⟩
      · rintro ⟨y, hy, rfl⟩
        rcases mem_insert.1 hy with rfl | hy
        · exact absurd rfl hid
        · exact ⟨y, hy, rfl⟩
  · rcases mem_insert.1 hy with rfl | hy
    · exact he
    · exact hs.fromLog y hy
  · simp only [RemoteWorld.insert]
    rw [once_middle, List.take_append_drop]
    exact ⟨hids, hs.once⟩
  · exact has_insert.2 (.inl (hs.first e' he'))
  · have hold : ∀ c id, s.acpIndex c = some id →
        ∃ y ∈ (s.insert e).cachedEvents, y.event.id = id ∧ y.event.call? = some c ∧ y.event ∉ s.log.take s.synced := by
      intro c id hc
      obtain ⟨y, hy, h⟩ := hs.index c id hc
      exact ⟨y, mem_insert.2 (.inr hy), h⟩
    simp only [RemoteWorld.insert] at hc
    cases hcall : e.call? with
    | none =>
      rw [hcall] at hc
      exact hold c id hc
    | some c' =>
      rw [hcall] at hc
      dsimp only at hc
      by_cases hcc : c = c'
      · subst hcc
        rw [Function.update_self] at hc
        cases hc
        exact ⟨_, mem_insert.2 (.inl rfl), rfl, hcall, fun hfirst => hnew (hs.first e hfirst)⟩
      · rw [Function.update_of_ne hcc] at hc
        exact hold c id hc
  · simp only [RemoteWorld.insert]
    rcases mem_insert.1 hy with rfl | hy
    · rw [show e.call? = some c from hc]
      exact .inr (Function.update_self _ _ _)
    · rcases hs.indexed y hy c hc with hfirst | hidx'
      · exact .inl hfirst
      · right
        cases hcall : e.call? with
        | none => exact hidx'
        | some c' =>
          by_cases hcc : c = c'
          · subst hcc
            rw [hcall, Option.bind_some, hidx'] at hidx
            cases hidx
          · exact (Function.update_of_ne hcc _ _).trans hidx'

theorem Consistent.merge (hs : s.Consistent) (he : e ∈ s.log) (hnew : ¬ s.Has e) {l₁ l₂ : List (CachedEvent κ)}
    {x : CachedEvent κ} {c : String} (hsplit : s.cachedEvents = l₁ ++ x :: l₂) (hcall : e.call? = some c)
    (hxcall : x.event.call? = some c) (hlate : x.event ∉ s.log.take s.synced)
    (hindex : s.acpIndex c = some x.event.id) (d : Nat) :
    ({ s with
      cachedEvents := l₁ ++ { event := e, merged := true } :: l₂
      cachedEventIds := Function.update (Function.update s.cachedEventIds x.event.id false) e.id true
      acpIndex := Function.update s.acpIndex c (some e.id)
      downgrades := d } : RemoteWorld κ).Consistent := by
  -- `x` is replaced by the event, in its place.
  have hmem : ∀ y, y ∈ s.cachedEvents ↔ y = x ∨ y ∈ l₁ ++ l₂ := fun y => by
    rw [hsplit, List.mem_append, List.mem_cons, or_left_comm, ← List.mem_append]
  have hmem' : ∀ y : CachedEvent κ, y ∈ l₁ ++ { event := e, merged := true } :: l₂ ↔
      y = { event := e, merged := true } ∨ y ∈ l₁ ++ l₂ := fun y => by
    rw [List.mem_append, List.mem_cons, or_left_comm, ← List.mem_append]
  have honce := hs.once
  rw [hsplit, once_middle] at honce
  have hids : ∀ y ∈ l₁ ++ l₂, e.id ≠ y.event.id := fun y hy hid => by
    have hy' := (hmem y).2 (.inr hy)
    exact hnew ⟨y, hy', hs.log.eq_of_id (hs.fromLog y hy') he hid.symm⟩
  have hnotFirst : e ∉ s.log.take s.synced := fun hfirst => hnew (hs.first e hfirst)
  refine ⟨hs.log, hs.synced, fun id => ?_, fun y hy => ?_, ?_, fun e' he' => ?_, fun c' id hc => ?_,
    fun y hy c' hc => ?_, hs.merging, hs.reconciled⟩
  · dsimp only
    -- The ids: the new one comes in, the one of `x` goes.
    by_cases hid : id = e.id
    · subst hid
      rw [Function.update_self]
      exact ⟨fun _ => ⟨_, (hmem' _).2 (.inl rfl), rfl⟩, fun _ => rfl⟩
    · rw [Function.update_of_ne hid]
      by_cases hidx : id = x.event.id
      · subst hidx
        rw [Function.update_self]
        refine ⟨nofun, ?_⟩
        rintro ⟨y, hy, heq⟩
        rcases (hmem' y).1 hy with rfl | hy
        · exact absurd heq.symm hid
        · exact absurd heq.symm (honce.1 y hy)
      · rw [Function.update_of_ne hidx, hs.ids id]
        constructor
        · rintro ⟨y, hy, rfl⟩
          rcases (hmem y).1 hy with rfl | hy
          · exact absurd rfl hidx
          · exact ⟨y, (hmem' y).2 (.inr hy), rfl⟩
        · rintro ⟨y, hy, rfl⟩
          rcases (hmem' y).1 hy with rfl | hy
          · exact absurd rfl hid
          · exact ⟨y, (hmem y).2 (.inr hy), rfl⟩
  · rcases (hmem' y).1 hy with rfl | hy
    · exact he
    · exact hs.fromLog y ((hmem y).2 (.inr hy))
  · rw [once_middle]
    exact ⟨hids, honce.2⟩
  · -- What the initial sync fetched is never replaced.
    obtain ⟨y, hy, rfl⟩ := hs.first e' he'
    rcases (hmem y).1 hy with rfl | hy
    · exact absurd he' hlate
    · exact ⟨y, (hmem' y).2 (.inr hy), rfl⟩
  · dsimp only at hc ⊢
    -- The index of the call names the new event.
    by_cases hcc : c' = c
    · subst hcc
      rw [Function.update_self] at hc
      cases hc
      exact ⟨_, (hmem' _).2 (.inl rfl), rfl, hcall, hnotFirst⟩
    · rw [Function.update_of_ne hcc] at hc
      obtain ⟨y, hy, hid, hyc, hyf⟩ := hs.index c' id hc
      rcases (hmem y).1 hy with rfl | hy
      · rw [hxcall] at hyc
        exact absurd (Option.some.inj hyc).symm hcc
      · exact ⟨y, (hmem' y).2 (.inr hy), hid, hyc, hyf⟩
  · dsimp only
    rcases (hmem' y).1 hy with rfl | hrest
    · rw [hcall] at hc
      cases hc
      exact .inr (Function.update_self _ _ _)
    · rcases hs.indexed y ((hmem y).2 (.inr hrest)) c' hc with hfirst | hidx
      · exact .inl hfirst
      · by_cases hcc : c' = c
        · subst hcc
          exact absurd (Option.some.inj (hindex.symm.trans hidx)) (honce.1 y hrest)
        · exact .inr ((Function.update_of_ne hcc _ _).trans hidx)

theorem Consistent.addEvent (hs : s.Consistent) (he : e ∈ s.log) : (s.addEvent e).Consistent := by
  generalize ht : s.addEvent e = t
  have hadd := hs.added he
  rw [ht] at hadd
  cases hadd with
  | known _ => exact hs
  | inserted hnew hidx => exact hs.insert he hnew hidx
  | merged l₁ l₂ x c i hnew hsplit hcall hxcall hlate hindex =>
    exact hs.merge he hnew hsplit hcall hxcall hlate hindex _

theorem Added.same (h : Added s e t) :
    t.log = s.log ∧ t.synced = s.synced ∧ t.reconcile = s.reconcile ∧ t.reconciled = s.reconciled := by
  cases h <;> exact ⟨rfl, rfl, rfl, rfl⟩

end Add

/-! ## Steps -/

section Steps
variable {s t : RemoteWorld κ} {e : RemoteEvent κ} {op : RemoteOp κ}

/-- What a step can do. -/
inductive Stepped (s : RemoteWorld κ) : RemoteOp κ → RemoteWorld κ → Prop
  | append {event : RemoteEvent κ} : (∀ a ∈ s.log, Follows a event) →
      Stepped s (.append event) { s with log := s.log ++ [event] }
  | deliver {i : Nat} {event : RemoteEvent κ} : s.reconcile = .idle → s.log[i]? = some event →
      Stepped s (.deliver i) { s.addEvent event with reconciled := none }
  | reconcile {n : Nat} : s.reconcile = .idle → n ≤ s.log.length →
      Stepped s (.reconcile n) { s with reconcile := .merging n 0, reconciled := none }
  | next {n k : Nat} {event : RemoteEvent κ} : s.reconcile = .merging n k → k < n → s.log[k]? = some event →
      Stepped s .next { s.addEvent event with reconcile := .merging n (k + 1) }
  | finish {n : Nat} : s.reconcile = .merging n n → Stepped s .finish { s with reconcile := .idle, reconciled := some n }

theorem stepped_of_step (h : s.step op = some t) : s.Stepped op t := by
  cases op with
  | append event =>
    simp only [step] at h
    split at h
    · rename_i hok
      cases h
      exact .append hok
    · cases h
  | deliver i =>
    simp only [step] at h
    split at h
    · rename_i hidle hget
      cases h
      exact .deliver hidle hget
    · cases h
  | reconcile upTo =>
    simp only [step] at h
    split at h
    · rename_i hidle
      split at h
      · rename_i hle
        cases h
        exact .reconcile hidle hle
      · cases h
    · cases h
  | next =>
    simp only [step] at h
    split at h
    · rename_i hmerging
      split at h
      · rename_i hlt
        split at h
        · rename_i hget
          cases h
          exact .next hmerging hlt hget
        · cases h
      · cases h
    · cases h
  | finish =>
    simp only [step] at h
    split at h
    · rename_i hmerging
      split at h
      · rename_i heq
        cases h
        exact .finish (heq ▸ hmerging)
      · cases h
    · cases h

/-- Only where the client is in a reconcile changes. -/
theorem Consistent.setPc (hs : s.Consistent) {pc : ReconcilePc} {r : Option Nat}
    (hpc : ∀ n k, pc = .merging n k → k ≤ n ∧ n ≤ s.log.length) (hr : ∀ n, r = some n → n ≤ s.log.length) :
    ({ s with reconcile := pc, reconciled := r } : RemoteWorld κ).Consistent :=
  ⟨hs.log, hs.synced, hs.ids, hs.fromLog, hs.once, hs.first, hs.index, hs.indexed, hpc, hr⟩

theorem Consistent.append (hs : s.Consistent) (hok : ∀ a ∈ s.log, Follows a e) :
    ({ s with log := s.log ++ [e] } : RemoteWorld κ).Consistent := by
  have hfirst : (s.log ++ [e]).take s.synced = s.log.take s.synced := List.take_append_of_le_length hs.synced
  have hlen : (s.log ++ [e]).length = s.log.length + 1 := by simp
  refine ⟨?_, ?_, hs.ids, fun x hx => List.mem_append_left _ (hs.fromLog x hx), hs.once, ?_, ?_, ?_, fun n k h => ?_,
    fun n h => ?_⟩
  · refine List.pairwise_append.2 ⟨hs.log, List.pairwise_singleton _ _, fun a ha b hb => ?_⟩
    rw [List.mem_singleton.1 hb]
    exact hok a ha
  · have := hs.synced
    dsimp only
    omega
  · dsimp only
    rw [hfirst]
    exact hs.first
  · dsimp only
    rw [hfirst]
    exact hs.index
  · dsimp only
    rw [hfirst]
    exact hs.indexed
  · obtain ⟨hk, hn⟩ := hs.merging n k h
    dsimp only
    omega
  · have := hs.reconciled n h
    dsimp only
    omega

theorem Consistent.step (hs : s.Consistent) (h : s.step op = some t) : t.Consistent := by
  cases stepped_of_step h with
  | append hok => exact hs.append hok
  | deliver _ hget =>
    have hadd := hs.addEvent (List.mem_of_getElem? hget)
    exact hadd.setPc hadd.merging nofun
  | reconcile _ hle =>
    refine hs.setPc (fun n k hnk => ?_) nofun
    cases hnk
    exact ⟨Nat.zero_le _, hle⟩
  | next hmerging hlt hget =>
    have he := List.mem_of_getElem? hget
    refine (hs.addEvent he).setPc (fun n k hnk => ?_) (hs.addEvent he).reconciled
    cases hnk
    rw [(hs.added he).same.1]
    exact ⟨hlt, (hs.merging _ _ hmerging).2⟩
  | finish hmerging =>
    refine hs.setPc nofun fun n hn => ?_
    cases hn
    exact (hs.merging _ _ hmerging).2

end Steps

theorem consistent_initial {log : List (RemoteEvent κ)} (hlog : LogOk log) : (initial log).Consistent := by
  have hmem : ∀ x, x ∈ (initial log).cachedEvents ↔ x.merged = false ∧ x.event ∈ log := by
    intro x
    obtain ⟨event, merged⟩ := x
    simp only [initial, List.mem_map, CachedEvent.mk.injEq]
    constructor
    · rintro ⟨e, he, rfl, rfl⟩
      exact ⟨rfl, he⟩
    · rintro ⟨rfl, he⟩
      exact ⟨event, he, rfl, rfl⟩
  have hall : (initial log).log.take (initial log).synced = log := List.take_length
  refine ⟨hlog, Nat.le_refl _, fun id => ?_, fun x hx => ((hmem x).1 hx).2, ?_, fun e he => ?_, nofun,
    fun x hx c _ => ?_, nofun, nofun⟩
  · simp [initial]
  · refine List.pairwise_map.2 (hlog.imp ?_)
    exact fun hxy => hxy.1
  · rw [hall] at he
    exact ⟨{ event := e }, (hmem _).2 ⟨rfl, he⟩, rfl⟩
  · rw [hall]
    exact .inl ((hmem x).1 hx).2

/-! ## Reconciles -/

/-- Of the first `k` events the list has all but the finished started ones. -/
def Done (s : RemoteWorld κ) (k : Nat) : Prop :=
  ∀ e ∈ s.log.take k, s.Has e ↔ ¬ ∃ t ∈ s.log.take k, e.FinishedBy t

section Reconcile
variable {s t : RemoteWorld κ} {e a : RemoteEvent κ} {k : Nat}

theorem Consistent.indexed_has (hs : s.Consistent) (ha : s.Has a) (hfirst : a ∉ s.log.take s.synced) {c : String}
    (hc : a.call? = some c) : s.acpIndex c = some a.id := by
  obtain ⟨x, hx, rfl⟩ := ha
  exact (hs.indexed x hx c hc).resolve_left hfirst

theorem LogOk.not_mem_take {log : List (RemoteEvent κ)} (h : LogOk log) (hget : log[k]? = some e) : e ∉ log.take k :=
  fun hmem => (h.follows hget hmem).1 rfl

/-- The last event of a piece of the log is not finished within it. -/
theorem LogOk.last_unfinished {log : List (RemoteEvent κ)} (h : LogOk log) (hget : log[k]? = some e) :
    ¬ ∃ t ∈ log.take (k + 1), e.FinishedBy t := by
  rintro ⟨t, ht, hcall, hstarted, hterminal⟩
  rcases (mem_take_succ hget).1 ht with ht | rfl
  · have hbefore := (h.follows hget ht).2.2 (SameCall.symm hcall)
    rw [hbefore.2] at hstarted
    cases hstarted
  · rw [hstarted] at hterminal
    cases hterminal

/-- One event of the log after the other: the reconcile makes its way. -/
theorem Consistent.done_succ (hs : s.Consistent) (hget : s.log[k]? = some e)
    (hfirst : ∀ a ∈ s.log.take s.synced, ¬ a.FinishedBy e) (hdone : s.Done k) : (s.addEvent e).Done (k + 1) := by
  have he : e ∈ s.log := List.mem_of_getElem? hget
  have hin : ∀ {a}, a ∈ s.log.take k → a ∈ s.log := fun ha => List.mem_of_mem_take ha
  have hout := hs.log.not_mem_take hget
  have hlast := hs.log.last_unfinished hget
  have hne : ∀ {a}, a ∈ s.log.take k → a ≠ e := fun ha heq => hout (heq ▸ ha)
  -- A started event has at most one terminal event.
  have honly : ∀ {a}, a ∈ s.log.take k → a.FinishedBy e → ¬ ∃ t ∈ s.log.take k, a.FinishedBy t := by
    rintro a ha hfin ⟨t, ht, hcall, hstarted, hterminal⟩
    have hta : a ≠ t := fun heq => by
      rw [heq, hterminal] at hstarted
      cases hstarted
    exact hne ht (hs.log.two (hin ha) (hin ht) he hcall hfin.1 hta (hne ha))
  have hsplit : ∀ {a}, a ∈ s.log.take k →
      ((∃ t ∈ s.log.take (k + 1), a.FinishedBy t) ↔ (∃ t ∈ s.log.take k, a.FinishedBy t) ∨ a.FinishedBy e) := by
    intro a _
    simp only [mem_take_succ hget]
    constructor
    · rintro ⟨t, ht | rfl, hfin⟩
      · exact .inl ⟨t, ht, hfin⟩
      · exact .inr hfin
    · rintro (⟨t, ht, hfin⟩ | hfin)
      · exact ⟨t, .inl ht, hfin⟩
      · exact ⟨e, .inr rfl, hfin⟩
  generalize ht : s.addEvent e = t
  have hadd := hs.added he
  rw [ht] at hadd
  obtain ⟨hlog, -, -, -⟩ := hadd.same
  intro a ha
  rw [hlog] at ha ⊢
  rcases (mem_take_succ hget).1 ha with ha | rfl
  · rw [hsplit ha, not_or, ← hdone a ha]
    cases hadd with
    | known hhas =>
      refine ⟨fun hasa => ⟨hasa, fun hfin => ?_⟩, fun h => h.1⟩
      -- Both events of a call in the list: they are from the initial sync.
      obtain ⟨c, hc⟩ := Option.isSome_iff_exists.1 hfin.1.1
      have hafirst : a ∉ s.log.take s.synced := fun h => hfirst a h hfin
      have hefirst : e ∉ s.log.take s.synced := fun h => by
        rcases Nat.le_total s.synced k with hle | hle
        · exact hout (List.take_subset_take_left _ hle h)
        · exact hafirst (List.take_subset_take_left _ hle ha)
      have h₁ := hs.indexed_has hasa hafirst hc
      have h₂ := hs.indexed_has hhas hefirst (hfin.1.2 ▸ hc)
      exact hs.log.id_ne (hin ha) he (hne ha) (Option.some.inj (h₁.symm.trans h₂))
    | inserted hnew hidx =>
      rw [has_insert, or_iff_left (hne ha)]
      refine ⟨fun hasa => ⟨hasa, fun hfin => ?_⟩, fun h => h.1⟩
      obtain ⟨c, hc⟩ := Option.isSome_iff_exists.1 hfin.1.1
      have h₁ := hs.indexed_has hasa (fun h => hfirst a h hfin) hc
      rw [← hfin.1.2, hc, Option.bind_some, h₁] at hidx
      cases hidx
    | merged l₁ l₂ x c i hnew hparts hcall hxcall hlate hindex =>
      rw [hs.has_merged hparts rfl, or_iff_left (hne ha)]
      have hx : x.event ∈ s.log := hs.fromLog x (by rw [hparts]; simp)
      have hxe : e ≠ x.event := fun heq => hnew ⟨x, by rw [hparts]; simp, heq.symm⟩
      have hxsame : e.SameCall x.event := ⟨by rw [hcall]; rfl, hcall.trans hxcall.symm⟩
      refine and_congr_right fun _ => ⟨fun hax hfin => ?_, fun hnot hax => hnot ?_⟩
      · exact hax (hs.log.two he (hin ha) hx (SameCall.symm hfin.1) hxsame (hne ha).symm hxe)
      · have hcall' : a.SameCall e := hax ▸ SameCall.symm hxsame
        exact ⟨hcall', (hs.log.follows hget ha).2.2 hcall'⟩
  · refine iff_of_true ?_ hlast
    cases hadd with
    | known hhas => exact hhas
    | inserted => exact has_insert.2 (.inr rfl)
    | merged l₁ l₂ x c i hnew hparts => exact (hs.has_merged hparts rfl).2 (.inr rfl)

/-- A reconcile under way has dealt with what it added so far. -/
structure Merging (s : RemoteWorld κ) : Prop extends s.Consistent where
  under : ∀ n k, s.reconcile = .merging n k →
    (∀ e ∈ s.log.take s.synced, ∀ t ∈ s.log.take n, ¬ e.FinishedBy t) ∧ s.Done k ∧ s.reconciled = none
  atEnd : ∀ n, s.reconciled = some n → s.Done n

omit [LinearOrder κ] in
theorem Done.append (hk : k ≤ s.log.length) (h : s.Done k) : ({ s with log := s.log ++ [e] } : RemoteWorld κ).Done k := by
  have htake : (s.log ++ [e]).take k = s.log.take k := List.take_append_of_le_length hk
  intro a ha
  dsimp only at ha ⊢
  rw [htake] at ha ⊢
  exact h a ha

theorem Merging.step {op : RemoteOp κ} (hs : s.Merging) (hok : op.Merges s) (h : s.step op = some t) : t.Merging := by
  have hcons := hs.toConsistent
  refine ⟨hcons.step h, fun n k hpc => ?_, fun n hn => ?_⟩
  · cases stepped_of_step h with
    | append _ =>
      obtain ⟨hfree, hdone, hnone⟩ := hs.under n k hpc
      obtain ⟨hkn, hle⟩ := hcons.merging n k hpc
      refine ⟨?_, hdone.append (Nat.le_trans hkn hle), hnone⟩
      dsimp only
      rw [List.take_append_of_le_length hcons.synced, List.take_append_of_le_length hle]
      exact hfree
    | deliver hidle hget =>
      have hsame := (hcons.added (List.mem_of_getElem? hget)).same.2.2.1
      rw [show (s.addEvent _).reconcile = .merging n k from hpc, hidle] at hsame
      cases hsame
    | reconcile _ _ =>
      cases hpc
      exact ⟨hok, fun a ha => (by cases ha), rfl⟩
    | @next n' k' e hmerging hlt hget =>
      cases hpc
      obtain ⟨hlog, hsynced, -, hsame⟩ := (hcons.added (List.mem_of_getElem? hget)).same
      obtain ⟨hfree, hdone, hnone⟩ := hs.under _ _ hmerging
      have hmem : e ∈ s.log.take n := List.take_subset_take_left _ hlt ((mem_take_succ hget).2 (.inr rfl))
      refine ⟨?_, hcons.done_succ hget (fun a ha => hfree a ha e hmem) hdone, hsame.trans hnone⟩
      dsimp only
      rw [hlog, hsynced]
      exact hfree
    | finish _ => cases hpc
  · cases stepped_of_step h with
    | append _ => exact (hs.atEnd n hn).append (hcons.reconciled n hn)
    | deliver _ _ => cases hn
    | reconcile _ _ => cases hn
    | next hmerging _ hget =>
      -- While a reconcile is under way nothing counts as reconciled.
      have hsame := (hcons.added (List.mem_of_getElem? hget)).same.2.2.2
      rw [show (s.addEvent _).reconciled = some n from hn, (hs.under _ _ hmerging).2.2] at hsame
      cases hsame
    | finish hmerging =>
      cases hn
      exact (hs.under _ _ hmerging).2.1

end Reconcile

/-! ## Terminal events stay -/

section Downgrades
variable {s t : RemoteWorld κ} {e : RemoteEvent κ} {op : RemoteOp κ}

theorem Consistent.downgrades_addEvent (hs : s.Consistent) (he : e ∈ s.log) (hok : ¬ s.Late e) :
    (s.addEvent e).downgrades = s.downgrades := by
  generalize ht : s.addEvent e = t
  have hadd := hs.added he
  rw [ht] at hadd
  cases hadd with
  | known _ => rfl
  | inserted _ _ => rfl
  | merged l₁ l₂ x c i hnew hparts =>
    refine if_neg fun hfin => hok ⟨?_, x, by rw [hparts]; simp, hfin⟩
    rw [hs.has_iff he] at hnew
    simpa using hnew

theorem Consistent.downgrades_step (hs : s.Consistent) (hok : op.NotLate s) (h : s.step op = some t) :
    t.downgrades = s.downgrades := by
  cases stepped_of_step h with
  | append _ => rfl
  | deliver _ hget => exact hs.downgrades_addEvent (List.mem_of_getElem? hget) (hok _ hget)
  | reconcile _ _ => rfl
  | next hmerging _ hget =>
    refine hs.downgrades_addEvent (List.mem_of_getElem? hget) (hok _ ?_)
    simp only [given, hmerging]
    exact hget
  | finish _ => rfl

end Downgrades

/-! ## Order -/

section Order
variable {s t : RemoteWorld κ} {e : RemoteEvent κ} {op : RemoteOp κ}

omit [LinearOrder κ] in
theorem mem_take_iff {l : List (CachedEvent κ)} {x : CachedEvent κ} {n : Nat} :
    x ∈ l.take n ↔ ∃ j, j < n ∧ l[j]? = some x := by
  rw [List.mem_iff_getElem?]
  refine exists_congr fun j => ?_
  rw [List.getElem?_take]
  split <;> simp [*]

omit [LinearOrder κ] in
theorem mem_drop_iff {l : List (CachedEvent κ)} {x : CachedEvent κ} {n : Nat} :
    x ∈ l.drop n ↔ ∃ j, n ≤ j ∧ l[j]? = some x := by
  rw [List.mem_iff_getElem?]
  constructor
  · rintro ⟨j, hj⟩
    rw [List.getElem?_drop] at hj
    exact ⟨n + j, Nat.le_add_right n j, hj⟩
  · rintro ⟨j, hle, hj⟩
    refine ⟨j - n, ?_⟩
    rw [List.getElem?_drop, Nat.add_sub_cancel' hle]
    exact hj

omit [LinearOrder κ] in
theorem timestampAt_of_getElem? {i : Nat} {x : CachedEvent κ} (h : s.cachedEvents[i]? = some x) :
    s.timestampAt e i = x.event.timestamp := by
  rw [timestampAt, h]
  rfl

/-- Where the search for a new event ends, as far as it has to do with the
events that were not merged. -/
theorem InOrder.insertPos (hord : s.InOrder) (hnew : s.cachedEventIds e.id = false)
    (hidx : e.call?.bind s.acpIndex = none) (hok : s.Straight e) :
    (∀ x ∈ s.cachedEvents.take (s.insertPos e), x.merged = false → x.event.timestamp ≤ e.timestamp) ∧
      ∀ x ∈ s.cachedEvents.drop (s.insertPos e), x.merged = false → e.timestamp ≤ x.event.timestamp := by
  let good : Nat → Prop := fun i => ∀ x ∈ s.cachedEvents[i]?, x.merged = false
  have hkey : ∀ i j, 0 ≤ i → i < j → j < s.cachedEvents.length → good i → good j →
      s.timestampAt e i ≤ s.timestampAt e j := by
    intro i j _ hij hj hi' hj'
    have hi : i < s.cachedEvents.length := Nat.lt_trans hij hj
    rw [timestampAt_of_getElem? (List.getElem?_eq_getElem hi), timestampAt_of_getElem? (List.getElem?_eq_getElem hj)]
    exact List.pairwise_iff_getElem.1 hord i j hi hj hij (hi' _ (List.getElem?_eq_getElem hi))
      (hj' _ (List.getElem?_eq_getElem hj))
  have hprobe : ∀ p ∈ bisectProbes (s.timestampAt e) e.timestamp 0 s.cachedEvents.length, ¬ good p →
      (e.timestamp < s.timestampAt e p → ∀ j, p < j → j < s.cachedEvents.length → good j →
        e.timestamp ≤ s.timestampAt e j) ∧
      (s.timestampAt e p ≤ e.timestamp → ∀ j, 0 ≤ j → j < p → good j → s.timestampAt e j ≤ e.timestamp) := by
    intro p hp hbad
    simp only [good, not_forall] at hbad
    obtain ⟨m, hget, hmerged⟩ := hbad
    obtain ⟨hplt, -⟩ := List.getElem?_eq_some_iff.1 hget
    obtain ⟨hleft, hright⟩ := hok hnew hidx p hp m hget (by simpa using hmerged)
    rw [timestampAt_of_getElem? hget]
    refine ⟨fun hlt j hpj hj hgood => ?_, fun hle j _ hjp hgood => ?_⟩
    · have hx := List.getElem?_eq_getElem hj
      rw [timestampAt_of_getElem? hx]
      exact hleft hlt _ (mem_drop_iff.2 ⟨j, hpj, hx⟩) (hgood _ hx)
    · have hx := List.getElem?_eq_getElem (Nat.lt_trans hjp hplt)
      rw [timestampAt_of_getElem? hx]
      exact hright hle _ (mem_take_iff.2 ⟨j, hjp, hx⟩) (hgood _ hx)
  obtain ⟨-, hbefore, hafter⟩ := bisectRight_spec_of_probes (Nat.zero_le s.cachedEvents.length) hkey hprobe
  have hgood : ∀ {j x}, s.cachedEvents[j]? = some x → x.merged = false → good j := by
    intro j x hx hxm y hy
    cases hx.symm.trans hy
    exact hxm
  refine ⟨fun x hx hxm => ?_, fun x hx hxm => ?_⟩
  · obtain ⟨j, hj, hget⟩ := mem_take_iff.1 hx
    rw [← timestampAt_of_getElem? (e := e) hget]
    exact hbefore j (Nat.zero_le j) hj (hgood hget hxm)
  · obtain ⟨j, hj, hget⟩ := mem_drop_iff.1 hx
    rw [← timestampAt_of_getElem? (e := e) hget]
    exact hafter j hj (List.getElem?_eq_some_iff.1 hget).1 (hgood hget hxm)

theorem InOrder.addEvent (hs : s.Consistent) (hord : s.InOrder) (he : e ∈ s.log) (hok : s.Straight e) :
    (s.addEvent e).InOrder := by
  generalize ht : s.addEvent e = t
  have hadd := hs.added he
  rw [ht] at hadd
  cases hadd with
  | known _ => exact hord
  | inserted hnew hidx =>
    rw [hs.has_iff he, Bool.not_eq_true] at hnew
    obtain ⟨hbefore, hafter⟩ := hord.insertPos hnew hidx hok
    have hparts := hord
    rw [InOrder, ← List.take_append_drop (s.insertPos e) s.cachedEvents, List.pairwise_append] at hparts
    refine List.pairwise_append.2 ⟨hparts.1, List.pairwise_cons.2 ⟨fun y hy _ => hafter y hy, hparts.2.1⟩,
      fun x hx y hy hxm hym => ?_⟩
    rcases List.mem_cons.1 hy with rfl | hy
    · exact hbefore x hx hxm
    · exact hparts.2.2 x hx y hy hxm hym
  | merged l₁ l₂ x c i hnew hparts =>
    -- A merged entry says nothing about the order.
    rw [InOrder, hparts, List.pairwise_append, List.pairwise_cons] at hord
    refine List.pairwise_append.2 ⟨hord.1, List.pairwise_cons.2 ⟨fun y _ hm => (by cases hm), hord.2.1.2⟩,
      fun y hy z hz hym hzm => ?_⟩
    rcases List.mem_cons.1 hz with rfl | hz
    · cases hzm
    · exact hord.2.2 y hy z (List.mem_cons_of_mem _ hz) hym hzm

theorem InOrder.step (hs : s.Consistent) (hord : s.InOrder) (hok : op.Straight s) (h : s.step op = some t) :
    t.InOrder := by
  cases stepped_of_step h with
  | append _ => exact hord
  | deliver _ hget => exact hord.addEvent hs (List.mem_of_getElem? hget) (hok _ hget)
  | reconcile _ _ => exact hord
  | next hmerging _ hget =>
    refine hord.addEvent hs (List.mem_of_getElem? hget) (hok _ ?_)
    simp only [given, hmerging]
    exact hget
  | finish _ => exact hord

end Order

theorem inOrder_initial {log : List (RemoteEvent κ)} (hlog : LogOk log) : (initial log).InOrder := by
  refine List.pairwise_map.2 (hlog.imp ?_)
  exact fun hxy _ _ => hxy.2.1

theorem merging_initial {log : List (RemoteEvent κ)} (hlog : LogOk log) : (initial log).Merging :=
  ⟨consistent_initial hlog, nofun, nofun⟩

/-! ## The result -/

/-- For every log and every run: after a reconcile the list has what was
fetched, no terminal event was replaced by its started event, and what was not
merged is in order, each under the condition that the steps meet. -/
theorem faithful_of_reaches {log : List (RemoteEvent κ)} (hlog : LogOk log) {s : RemoteWorld κ} :
    (Reaches step (fun s op => op.Merges s) (initial log) s → ∀ n, s.reconciled = some n → s.Converged n) ∧
      (Reaches step (fun s op => op.NotLate s) (initial log) s → s.downgrades = 0) ∧
        (Reaches step (fun s op => op.Straight s) (initial log) s → s.InOrder) := by
  refine ⟨fun h n hn => ?_, fun h => ?_, fun h => ?_⟩
  · have hs : s.Merging := h.invariant (merging_initial hlog) fun _ _ _ hs hok ht => hs.step hok ht
    exact ⟨hs.once, hs.atEnd n hn⟩
  · have hs : s.Consistent ∧ s.downgrades = 0 := by
      refine h.invariant (I := fun s => s.Consistent ∧ s.downgrades = 0) ⟨consistent_initial hlog, rfl⟩ fun _ _ _ hs hok ht => ?_
      exact ⟨hs.1.step ht, (hs.1.downgrades_step hok ht).trans hs.2⟩
    exact hs.2
  · have hs : s.Consistent ∧ s.InOrder := by
      refine h.invariant (I := fun s => s.Consistent ∧ s.InOrder) ⟨consistent_initial hlog, inOrder_initial hlog⟩ fun _ _ _ hs hok ht => ?_
      exact ⟨hs.1.step ht, hs.2.step hs.1 hok ht⟩
    exact hs.2

/-- A call with a lost terminal event, which the reconcile puts in its place. -/
def lostOps : List (RemoteOp Nat) :=
  [.append { id := "s", timestamp := 2, acp := some ⟨"c", .started⟩ }, .append { id := "b", timestamp := 3 },
    .append { id := "t", timestamp := 4, acp := some ⟨"c", .completed⟩ }, .append { id := "d", timestamp := 5 }, .deliver 4,
    .deliver 1, .deliver 1, .reconcile 5, .next, .next, .next, .append { id := "f", timestamp := 6 }, .next, .next, .finish]

theorem faithful_of_reaches_lost :
    ∃ s, execAllowed step (fun s op => op.Merges s ∧ op.NotLate s ∧ op.Straight s)
        (initial [{ id := "a", timestamp := 1 }]) lostOps = some s ∧ s.reconciled = some 5 ∧ s.Converged 5 ∧
      s.downgrades = 0 ∧ s.InOrder ∧ s.cachedEvents.map (fun x => (x.event.id, x.merged)) =
        [("a", false), ("t", true), ("b", false), ("d", false)] := by
  have hlog : LogOk [({ id := "a", timestamp := 1 } : RemoteEvent Nat)] := by decide
  have hrun : (execAllowed step (fun s op => op.Merges s ∧ op.NotLate s ∧ op.Straight s)
      (initial [{ id := "a", timestamp := 1 }]) lostOps).map
        (fun s => (s.reconciled, s.cachedEvents.map fun x => (x.event.id, x.merged))) =
      some (some 5, [("a", false), ("t", true), ("b", false), ("d", false)]) := by decide +kernel
  obtain ⟨s, hs, hval⟩ := Option.map_eq_some_iff.1 hrun
  simp only [Prod.mk.injEq] at hval
  have hreach := reaches_of_execAllowed .init hs
  obtain ⟨hconverged, hdowngrades, horder⟩ := faithful_of_reaches hlog (s := s)
  exact ⟨s, hs, hval.1, hconverged (hreach.mono fun _ _ h => h.1) 5 hval.1, hdowngrades (hreach.mono fun _ _ h => h.2.1),
    horder (hreach.mono fun _ _ h => h.2.2), hval.2⟩

/-- The initial sync fetches both events of a call. -/
theorem converged_initial_sync :
    ¬ ∀ (log : List (RemoteEvent Nat)) (s : RemoteWorld Nat), LogOk log →
      Reaches step (fun _ _ => True) (initial log) s → ∀ n, s.reconciled = some n → s.Converged n := by
  intro hall
  let started : RemoteEvent Nat := { id := "s", timestamp := 1, acp := some ⟨"c", .started⟩ }
  let terminal : RemoteEvent Nat := { id := "t", timestamp := 2, acp := some ⟨"c", .completed⟩ }
  have hrun : (exec step (initial [started, terminal]) [.reconcile 2, .next, .next, .finish]).map
      (fun s => (s.log, s.cachedEvents, s.reconciled)) =
        some ([started, terminal], [{ event := started }, { event := terminal }], some 2) := by decide +kernel
  obtain ⟨s, hs, hval⟩ := Option.map_eq_some_iff.1 hrun
  simp only [Prod.mk.injEq] at hval
  have hhas := (hall _ s (by decide) (reaches_of_exec .init hs) 2 hval.2.2).has started (by rw [hval.1]; simp)
  refine hhas.1 ⟨{ event := started }, by rw [hval.2.1]; simp, rfl⟩ ⟨terminal, by rw [hval.1]; simp, by decide⟩

end RemoteWorld

end AgentSdk
