import AgentSdk.ConversationState
import AgentSdk.Lib.Result
import AgentSdk.Lib.Runs
import AgentSdk.View.Tidy
/-!
# The cached view

`state.view` replays what was appended since it was last read; a rebuild folds
the whole branch and enforces the properties. When the two agree, over every
run of appends, navigations, rebuilds, reloads and reads.
-/

namespace AgentSdk
open Lib ConversationState

/-! ## Operations -/

inductive CacheOp where
  | append (e : Event)
  | navigate (id : Option EventID)
  | rebuild
  | reload
  | read

/-- An operation that raises changes nothing. -/
def CacheOp.run (s : ConversationState) : CacheOp → Option ConversationState
  | .append e => (s.appendEvent e).toOption
  | .navigate id => (s.navigateTo id).toOption
  | .rebuild => s.rebuildView.toOption
  | .reload => (resume s s.events).toOption
  | .read => s.readView.toOption

/-- Reading `state.view` now gives the rebuilt view of the active branch. -/
def ViewAgrees (s : ConversationState) : Prop :=
  ∀ branch, s.activeBranch = .ok branch → Answered branch →
    ∃ t, s.readView = .ok t ∧ t.cachedView.events = (View.fromEvents branch).events

/-- No observation without its action in the view that is read. -/
def ViewPaired (s : ConversationState) : Prop :=
  ∀ t, s.readView = .ok t → ∀ o ∈ t.cachedView.events, ∀ id, o.observes id = true →
    ∃ e ∈ t.cachedView.events, e.requests id = true

/-! ## Which operations keep the cache sound -/

/-- The node that an appended event hangs below. -/
def parentOf (s : ConversationState) (e : Event) : Option EventID :=
  (s.stampParentId e).parentId.filter (· ≠ rootParentId)

/-- The cached view is of HEAD or a node above it, so reading it replays. -/
def Replays (s : ConversationState) (branch : List Event) : Prop :=
  ∀ leaf, s.viewBranchLeaf = some leaf → leaf ∈ branch.map Event.id

/-- Appends keep together what belongs together, and nothing is rebuilt while
a call of the branch waits for its answer. -/
def CacheOp.Allowed (s : ConversationState) : CacheOp → Prop
  | .append e => ∀ branch, s.events.pathToRoot (parentOf s e) = .ok branch → Appendable branch (s.stampParentId e)
  | .navigate id => ∀ branch, s.events.pathToRoot id = .ok branch → Answered branch
  | .rebuild | .reload => ∀ branch, s.activeBranch = .ok branch → Answered branch
  | .read => ∀ branch, s.activeBranch = .ok branch → Replays s branch ∨ Answered branch

/-- The invariant: every branch is tidy, and the cache is the raw fold of its branch. -/
structure CacheSound (s : ConversationState) : Prop where
  valid : s.Valid
  tidy : ∀ leaf l, s.events.Branch leaf l → Tidy l
  cache : ∃ l, s.events.Branch s.viewBranchLeaf l ∧ s.cachedView.events = View.rawEvents l

theorem Tidy.fromEvents {branch : List Event} (h : Tidy branch) (ha : Answered branch) :
    (View.fromEvents branch).events = View.rawEvents branch := by
  rw [View.fromEvents_events]
  exact View.enforceEvents_of_stable ((closed_iff h.idsNodup).2 (h.closed ha))

theorem stampParentId_none {s : ConversationState} {e : Event} (h : (s.stampParentId e).parentId = none) :
    s.events.events = [] := by
  unfold stampParentId at h
  split at h
  · rename_i hp
    rw [hp] at h
    cases h
  · dsimp only at h
    split at h
    · cases h
    · rename_i hc
      by_contra hne
      exact hc ⟨h, List.length_pos_iff.2 hne⟩

section Steps
variable {s t : ConversationState}

theorem rebuildView_ok {branch : List Event} (hb : s.events.Branch s.resolveActiveLeaf branch)
    (h : s.rebuildView = .ok t) :
    t = { s with cachedView := View.fromEvents branch, viewBranchLeaf := s.resolveActiveLeaf } := by
  obtain ⟨l, hl, h⟩ := bind_ok h
  rw [hb.pathToRoot] at hl
  cases hl
  cases h
  rfl

/-- What a read gives: the replayed view when the cached leaf is on the branch,
and the rebuilt one otherwise. -/
theorem readView_ok (hs : CacheSound s) {branch : List Event} (hb : s.events.Branch s.resolveActiveLeaf branch) :
    ∃ t, s.readView = .ok t ∧ t.events = s.events ∧ t.leafEventId = s.leafEventId ∧
      t.viewBranchLeaf = s.resolveActiveLeaf ∧ (t.cachedView.events = View.rawEvents branch ∨
        ¬ Replays s branch ∧ t.cachedView.events = (View.fromEvents branch).events) := by
  obtain ⟨l, hl, hcache⟩ := hs.cache
  unfold readView
  dsimp only
  by_cases hleaf : s.resolveActiveLeaf = s.viewBranchLeaf
  · rw [if_pos hleaf]
    rw [hleaf] at hb
    exact ⟨s, rfl, rfl, rfl, hleaf.symm, .inl (Trail.unique hl hb ▸ hcache)⟩
  · rw [if_neg hleaf]
    have hlen := Nat.lt_succ_of_le hb.length_le
    obtain ⟨tail, cur, hw, ⟨hcur, l', hl', rfl⟩ | ⟨rfl, hcur, hoff⟩⟩ :=
      walkTo_of_trail EventLog.next_key s.viewBranchLeaf hb _ hlen
    · rw [Nat.succ_eq_add_one] at hw
      rw [hw]
      dsimp only
      rw [if_pos hcur]
      refine ⟨_, rfl, rfl, rfl, rfl, .inl ?_⟩
      rw [hcur] at hl'
      rw [List.reverse_reverse, View.foldl_appendEvent_events, hcache, Trail.unique hl hl', View.rawEvents,
        View.rawEvents, List.foldl_append]
    · rw [Nat.succ_eq_add_one] at hw
      rw [hw]
      dsimp only
      rw [if_neg hcur]
      have hre : s.rebuildView =
          .ok { s with cachedView := View.fromEvents branch, viewBranchLeaf := s.resolveActiveLeaf } := by
        unfold rebuildView
        dsimp only
        rw [hb.pathToRoot]
        rfl
      refine ⟨_, hre, rfl, rfl, rfl, .inr ⟨fun hrep => ?_, rfl⟩⟩
      -- A cached leaf on the branch would have stopped the climb.
      cases hv : s.viewBranchLeaf with
      | none => exact hcur hv.symm
      | some leaf =>
        obtain ⟨e, he, hid⟩ := List.mem_map.1 (hrep leaf hv)
        exact hoff e he (by rw [hid, hv])

theorem CacheSound.append {e : Event} (hs : CacheSound s) (ha : (CacheOp.append e).Allowed s)
    (h : s.appendEvent e = .ok t) : CacheSound t := by
  obtain ⟨log, hl, rfl⟩ := appendEvent_ok h
  have hv := hs.valid.appendEvent h
  have htidy : ∀ leaf l, log.Branch leaf l → Tidy l := by
    intro leaf l hb
    rcases hb.of_append hs.valid.log hl stampParentId_none with hb | ⟨l₀, hl₀, rfl⟩
    · exact hs.tidy leaf l hb
    · refine (hs.tidy _ l₀ hl₀).snoc ?_ (ha l₀ hl₀.pathToRoot)
      intro hmem
      obtain ⟨x, hx, hid⟩ := List.mem_map.1 hmem
      exact (EventLog.append_ok hl).1 (EventLog.mem_ids.2 ⟨x, hl₀.subset hx, hid⟩)
  have hcache : ∃ l, log.Branch s.viewBranchLeaf l ∧ s.cachedView.events = View.rawEvents l := by
    obtain ⟨l, hb, hc⟩ := hs.cache
    exact ⟨l, hb.append hs.valid.log hl, hc⟩
  split at hv
  · rw [if_pos ‹_›]
    exact ⟨hv, htidy, hcache⟩
  · rw [if_neg ‹_›]
    exact ⟨hv, htidy, hcache⟩

/-- A rebuild of an answered branch. -/
theorem CacheSound.rebuild (hs : CacheSound s) (ha : ∀ branch, s.activeBranch = .ok branch → Answered branch)
    (h : s.rebuildView = .ok t) : CacheSound t := by
  obtain ⟨branch, hb⟩ := hs.valid.exists_branch
  rw [rebuildView_ok hb h]
  exact ⟨⟨hs.valid.log, hs.valid.leaf⟩, hs.tidy, branch, hb,
    (hs.tidy _ _ hb).fromEvents (ha branch (activeBranch_eq hb))⟩

theorem CacheSound.of_sameTree (hs : CacheSound s) (hev : t.events = s.events) (hv : t.Valid)
    (hc : t.cachedView = {} ∧ t.viewBranchLeaf = none ∨
      t.cachedView = s.cachedView ∧ t.viewBranchLeaf = s.viewBranchLeaf) : CacheSound t := by
  refine ⟨hv, fun leaf l hl => hs.tidy leaf l (hev ▸ hl), ?_⟩
  rcases hc with ⟨hc, hl⟩ | ⟨hc, hl⟩
  · exact ⟨[], by rw [hl]; exact .root, by rw [hc]; rfl⟩
  · rw [hev, hl, hc]
    exact hs.cache

theorem CacheSound.navigate {id : Option EventID} (hs : CacheSound s) (ha : (CacheOp.navigate id).Allowed s)
    (h : s.navigateTo id = .ok t) : CacheSound t := by
  unfold navigateTo at h
  split at h
  · cases h
  · rename_i hknown
    have hid : ∀ i, id = some i → i ∈ s.events.ids := by
      rintro i rfl
      rw [Option.filter_eq_none_iff] at hknown
      simpa using hknown i rfl
    have hs' : CacheSound { s with leafEventId := id, headIsEmpty := id.isNone } :=
      hs.of_sameTree rfl ⟨hs.valid.log, hid⟩ (.inr ⟨rfl, rfl⟩)
    have hhead : resolveActiveLeaf { s with leafEventId := id, headIsEmpty := id.isNone } = id := by
      cases id <;> rfl
    refine hs'.rebuild (fun branch hb => ha branch ?_) h
    rwa [activeBranch, hhead] at hb

theorem CacheSound.reload (hs : CacheSound s) (ha : CacheOp.reload.Allowed s)
    (h : resume s s.events = .ok t) : CacheSound t := by
  have hv : (s.withLog s.events).Valid := ⟨hs.valid.log, hs.valid.leaf⟩
  unfold resume at h
  rw [hv.repairMissingLeaf] at h
  have hs' : CacheSound (s.withLog s.events) := hs.of_sameTree rfl hv (.inl ⟨rfl, rfl⟩)
  exact hs'.rebuild ha h

theorem CacheSound.read (hs : CacheSound s) (ha : CacheOp.read.Allowed s) (h : s.readView = .ok t) :
    CacheSound t := by
  obtain ⟨branch, hb⟩ := hs.valid.exists_branch
  obtain ⟨u, hu, hev, hl, hleaf, hc⟩ := readView_ok hs hb
  rw [h] at hu
  cases hu
  refine ⟨⟨hev ▸ hs.valid.log, fun id hid => hev ▸ hs.valid.leaf id (hl ▸ hid)⟩,
    fun leaf l hbl => hs.tidy leaf l (hev ▸ hbl), branch, by rw [hev, hleaf]; exact hb, ?_⟩
  rcases hc with hc | ⟨hrep, hc⟩
  · exact hc
  · rw [hc]
    exact (hs.tidy _ _ hb).fromEvents ((ha branch (activeBranch_eq hb)).resolve_left hrep)

/-- The step lemma. -/
theorem CacheSound.step {op : CacheOp} (hs : CacheSound s) (ha : op.Allowed s) (h : op.run s = some t) :
    CacheSound t := by
  cases op with
  | append e => exact hs.append ha (toOption_eq_some h)
  | navigate id => exact hs.navigate ha (toOption_eq_some h)
  | rebuild => exact hs.rebuild ha (toOption_eq_some h)
  | reload => exact hs.reload ha (toOption_eq_some h)
  | read => exact hs.read ha (toOption_eq_some h)

theorem cacheSound_init : CacheSound {} := by
  refine ⟨⟨fun i e h => by simp at h, fun id h => by cases h⟩, fun leaf l h => ?_, [], .root, rfl⟩
  cases leaf with
  | none =>
    rw [EventLog.Branch, Trail.none_iff] at h
    rw [h]
    exact .nil
  | some v =>
    obtain ⟨_, _, _, hn, -⟩ := Trail.some_iff.1 h
    have : v ∈ ({} : EventLog).ids := EventLog.next_isSome.1 (by rw [hn]; rfl)
    simp [EventLog.ids] at this

theorem CacheSound.agrees (hs : CacheSound s) : ViewAgrees s := by
  intro branch hact ha
  obtain ⟨l, hb⟩ := hs.valid.exists_branch
  rw [activeBranch_eq hb] at hact
  cases hact
  obtain ⟨t, ht, -, -, -, hc⟩ := readView_ok hs hb
  refine ⟨t, ht, ?_⟩
  rcases hc with hc | ⟨-, hc⟩
  · rw [hc, (hs.tidy _ _ hb).fromEvents ha]
  · exact hc

theorem CacheSound.paired (hs : CacheSound s) : ViewPaired s := by
  intro t ht o ho id hobs
  obtain ⟨branch, hb⟩ := hs.valid.exists_branch
  obtain ⟨u, hu, -, -, -, hc⟩ := readView_ok hs hb
  rw [ht] at hu
  cases hu
  have htidy := hs.tidy _ _ hb
  rcases hc with hc | ⟨-, hc⟩
  · rw [hc] at ho ⊢
    rcases remembered_of_mem_rawEvents ho with hr | ⟨_, _, rfl⟩
    · obtain ⟨c, hcr, hreq⟩ := htidy.requested o id hr hobs
      refine ⟨c, mem_rawEvents_of_remembered hcr ?_, hreq⟩
      obtain ⟨a, hca, -⟩ := Event.requests_iff.1 hreq
      rw [Event.action?_eq_some] at hca
      simp [Event.isLLMConvertible, hca]
    · cases hobs
  · rw [hc, View.fromEvents_events] at ho ⊢
    exact ((closed_iff htidy.idsNodup).1 (View.enforceEvents_stable branch _)).requested o ho id hobs

end Steps

/-- In every run of allowed operations the view that is read is the rebuilt
view, and an observation never stands in it without its action. -/
theorem view_agrees_of_reaches {s : ConversationState} (h : Reaches CacheOp.run CacheOp.Allowed {} s) :
    ViewAgrees s ∧ ViewPaired s := by
  have hs : CacheSound s := h.invariant cacheSound_init fun _ _ _ hs ha ht => hs.step ha ht
  exact ⟨hs.agrees, hs.paired⟩

/-! ## A rebuild while a call is pending

One call and its observation. A read between them replays; a rebuild between
them drops the call. -/

namespace PendingExample

def action : Event :=
  { id := "action-1"
    body := .action
      { action := some (.other "ls"), toolName := "terminal", toolCall := ⟨"call-1", "terminal", "ls"⟩
        toolCallId := "call-1", llmResponseId := "response" } }

def observation : Event :=
  { id := "observation-1"
    body := .observation { toolName := "terminal", toolCallId := "call-1", kind := .observation ["ok"] [] "action-1" } }

def afterAction : ConversationState := ({} : ConversationState).afterAppends [action]

def afterRead : ConversationState :=
  match afterAction.readView with
  | .ok s => s
  | .error _ => afterAction

def afterObservation : ConversationState := afterRead.afterAppends [observation]

def afterRebuild : ConversationState :=
  match afterAction.rebuildView with
  | .ok s => s
  | .error _ => afterAction

def orphaned : ConversationState := afterRebuild.afterAppends [observation]

theorem answered_pair {e o : Event} (he : ∀ id, e.requests id = true → o.observes id = true)
    (ho : ∀ id, o.requests id = false) : Answered [e, o] := by
  rintro (_ | ⟨x, _ | ⟨y, pre⟩⟩) c post id heq hreq
  · cases heq
    exact ⟨o, List.mem_singleton_self o, he id hreq⟩
  · cases heq
    rw [ho id] at hreq
    cases hreq
  · simp at heq

theorem appendable_action : Appendable [] action where
  notSummary id h := by
    have := congrArg (·.toList.getLast?) h
    simp [action, summaryId] at this
  answers id h := by cases h
  batch c hc := by cases hc
  condensation x _ hx := by simpa using hx.mem

theorem appendable_observation {branch : List Event} (h : afterRead.events.pathToRoot (some "action-1") = .ok branch) :
    Appendable branch (afterRead.stampParentId observation) := by
  have hb : branch = [action] := by
    have : afterRead.events.pathToRoot (some "action-1") = .ok [action] := by decide
    rw [this] at h
    cases h
    rfl
  subst hb
  have hrem : Remembered [action] action := ⟨[], [], rfl, by simp⟩
  refine ⟨fun id h => ?_, fun id h => ⟨⟨action, hrem, ?_⟩, fun o ho => ?_⟩, fun c hc h => ?_, fun x y hx hy _ => ?_⟩
  · have := congrArg (·.toList.getLast?) h
    simp [observation, summaryId] at this
  · have hid : "call-1" = id := by simpa [Event.observes, Event.observation?, observation] using h
    simp [Event.requests, Event.action?, action, hid]
  · rw [List.mem_singleton.1 ho.mem]
    rfl
  · simp [BatchAtomicity.sameBatch, Event.action?, observation] at h
  · rw [List.mem_singleton.1 hx.mem, List.mem_singleton.1 hy.mem]

end PendingExample

open PendingExample in
/-- The observation is replayed behind its call. -/
theorem view_agrees_replayed : ViewAgrees afterObservation ∧ ViewPaired afterObservation := by
  have h₁ : Reaches CacheOp.run CacheOp.Allowed {} afterAction := by
    refine .step .init (?_ : (CacheOp.append action).Allowed {}) rfl
    intro branch hb
    cases hb
    exact appendable_action
  have h₂ : Reaches CacheOp.run CacheOp.Allowed {} afterRead := by
    refine .step h₁ (?_ : CacheOp.read.Allowed afterAction) rfl
    exact fun _ _ => .inl fun leaf hl => by cases hl
  have h₃ : Reaches CacheOp.run CacheOp.Allowed {} afterObservation := by
    refine .step h₂ (?_ : (CacheOp.append observation).Allowed afterRead) rfl
    exact fun branch hb => appendable_observation hb
  exact view_agrees_of_reaches h₃

open PendingExample in
/-- After a rebuild between the call and its observation, the view that is
read holds the observation alone. -/
theorem view_disagrees_after_rebuild :
    ¬ ∀ s, Reaches CacheOp.run (fun _ _ => True) {} s → ViewAgrees s ∧ ViewPaired s := by
  intro h
  have hrun : exec CacheOp.run {} [.append action, .rebuild, .append observation] = some orphaned := rfl
  have hbranch : ∃ e o, orphaned.activeBranch = .ok [e, o] ∧ e.body = action.body ∧ o.body = observation.body ∧
      (View.fromEvents [e, o]).events.length = 2 := ⟨_, _, rfl, rfl, rfl, by decide⟩
  obtain ⟨e, o, hact, he, ho, hlen⟩ := hbranch
  have hanswered : Answered [e, o] := by
    refine answered_pair (fun id hreq => ?_) fun id => ?_
    · simpa [Event.requests, Event.action?, he, Event.observes, Event.observation?, ho, action, observation] using hreq
    · simp [Event.requests, Event.action?, ho, observation]
  obtain ⟨t, ht, hev⟩ := (h orphaned (reaches_of_exec .init hrun)).1 _ hact hanswered
  have hone : orphaned.readView.map (·.cachedView.events.length) = .ok 1 := by decide
  rw [ht, Except.map, hev, hlen] at hone
  cases hone

end AgentSdk
