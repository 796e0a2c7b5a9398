import AgentSdk.ConversationState
/-!
# Crash recovery

`EventService.start` on a conversation that was `RUNNING` when its process
died. A crash keeps some prefix of the appended event files and the base state
of some earlier moment. Recovery scans the whole log for the first unmatched
action and answers it with an `AgentErrorEvent` under that action.
-/

namespace AgentSdk
open Lib ConversationState

/-- The ids of the events that one start creates. `goalUpdate` is there when
the last goal status in the log was still active. -/
structure RecoveryIds where
  statusUpdate : NewId
  error : NewId
  goalUpdate : Option NewId := none

/-- An assignment to `execution_status`: a change is broadcast as an event,
and an exception of the broadcast is only logged. -/
def ConversationState.setExecutionStatus (s : ConversationState) (status : ConversationExecutionStatus)
    (update : NewId) : ConversationState :=
  if s.executionStatus = status then s
  else
    let s := { s with executionStatus := status }
    match s.appendEvent (stateUpdateEvent update "execution_status") with
    | .ok s => s
    | .error _ => s

/-- Whether an observation-like event of the call is in the log. -/
def alreadyObserved (events : List Event) (toolCallId : ToolCallID) : Bool :=
  events.any fun e => e.observation?.any (·.toolCallId = toolCallId)

namespace EventService

def restartError : String :=
  "A restart occurred while this tool was in progress. " ++
  "This may indicate a fatal memory error or system crash. " ++
  "The tool execution was interrupted and did not complete."

def errorEvent (new : NewId) (firstId : EventID) (first : ActionEvent) : Event :=
  { id := new.id
    parentId := some firstId
    body := .observation
      { toolName := first.toolName, toolCallId := first.toolCallId, kind := .agentError restartError }
    notRoot := new.notRoot }

/-- The first unmatched action of the log, unless its call was observed. -/
def interruptedAction (events : List Event) : Option (Event × ActionEvent) :=
  match getUnmatchedActions events with
  | [] => none
  | first :: _ =>
    match first.action? with
    | none => none
    | some a => if alreadyObserved events a.toolCallId then none else some (first, a)

def surfaceInterrupted (s : ConversationState) (error : NewId) : Except ValueError ConversationState :=
  match interruptedAction s.events.events with
  | none => .ok s
  | some (first, a) => s.appendEvent (errorEvent error first.id a)

/-- `start`, from the reload of the conversation to its goal reconciliation. -/
def start (base : ConversationState) (log : EventLog) (ids : RecoveryIds) : Except ValueError ConversationState := do
  let s ← ConversationState.resume base log
  let s ←
    if s.executionStatus = .running then
      surfaceInterrupted (s.setExecutionStatus .error ids.statusUpdate) ids.error
    else pure s
  match ids.goalUpdate with
  | some new => s.appendEvent (stateUpdateEvent new "goal")
  | none => pure s

/-- The new ids are distinct and not in the log. -/
structure Fresh (ids : RecoveryIds) (log : EventLog) : Prop where
  statusUpdate : ids.statusUpdate.id ∉ log.ids
  error : ids.error.id ∉ log.ids
  errorNe : ids.error.id ≠ ids.statusUpdate.id
  goalUpdate : ∀ g ∈ ids.goalUpdate, g.id ∉ log.ids ∧ g.id ≠ ids.statusUpdate.id ∧ g.id ≠ ids.error.id

end EventService

/-! ## The crash -/

/-- A batch of executable actions and, in batch order, the observation-like
events of some first actions of it. -/
structure Batch (actions observations : List Event) : Prop where
  nonempty : actions ≠ []
  executable : ∀ a ∈ actions, a.isExecutable = true
  unstamped : ∀ e ∈ actions ++ observations, e.parentId = none
  length_le : observations.length ≤ actions.length
  observation : ∀ (i : Nat) (o a : Event), observations[i]? = some o → actions[i]? = some a →
    o.answers a = true ∧ ∃ obs, o.observation? = some obs ∧ a.toolCallId? = some obs.toolCallId

/-- The process appended `events` to `s₀` and died when the first `files` of
them had their files and `base` was the base state after the first `saved`. -/
structure Crash (s₀ : ConversationState) (events : List Event) (files saved : Nat) (base : ConversationState)
    (log : EventLog) : Prop where
  files_le : files ≤ events.length
  saved_le : saved ≤ files
  files_eq : ∃ s, s₀.appendEvents (events.take files) = .ok s ∧ s.events = log
  saved_eq : s₀.appendEvents (events.take saved) = .ok base

namespace EventService

/-! ## What start does -/

theorem resume_ok {base : ConversationState} {log : EventLog} (hw : log.WellFormed)
    (hl : ∀ id, base.leafEventId = some id → id ∈ log.ids) :
    ∃ s, ConversationState.resume base log = .ok s ∧ s.Valid ∧ s.events = log ∧
      s.resolveActiveLeaf = (base.withLog log).resolveActiveLeaf ∧
      s.executionStatus = base.executionStatus := by
  have hv : (base.withLog log).Valid := ⟨hw, hl⟩
  obtain ⟨l, hb⟩ := hv.exists_branch
  refine ⟨{ base.withLog log with
    cachedView := View.fromEvents l, viewBranchLeaf := (base.withLog log).resolveActiveLeaf }, ?_, ⟨hw, hl⟩, rfl, rfl, rfl⟩
  rw [ConversationState.resume, hv.repairMissingLeaf]
  simp only [rebuildView, hb.pathToRoot, bind, Except.bind]
  rfl

/-- A state update is accepted and only lengthens the log. -/
theorem appendUpdate_ok {s : ConversationState} (hs : s.Valid) {new : NewId} (key : String)
    (hid : new.id ∉ s.events.ids) :
    ∃ s', s.appendEvent (stateUpdateEvent new key) = .ok s' ∧ s'.Valid ∧
      s'.resolveActiveLeaf = s.resolveActiveLeaf ∧
      (∃ x : Event, s'.events.events = s.events.events ++ [x] ∧ x.unstamped = stateUpdateEvent new key) ∧
      ∀ leaf l, s.events.Branch leaf l → s'.events.Branch leaf l := by
  obtain ⟨s', h⟩ := hs.appendEvent_isOk (e := stateUpdateEvent new key) hid (by rintro p ⟨⟩)
  refine ⟨s', h, hs.appendEvent h, resolve_appendEvent_update h rfl, ⟨_, appendEvent_events h, ?_⟩,
    fun _ _ => branch_appendEvent hs h⟩
  rw [stampParentId_unstamped, Event.unstamped_eq_self rfl]

theorem interruptedAction_append {es : List Event} {x : Event} {key : String}
    (hx : x.body = .conversationStateUpdate key) : interruptedAction (es ++ [x]) = interruptedAction es := by
  have hans : ∀ e, x.answers e = false := by simp [Event.answers, hx]
  have hun : getUnmatchedActions (es ++ [x]) = getUnmatchedActions es := by
    rw [getUnmatchedActions_append, getUnmatchedActions_cons, if_neg (by simp [Event.isExecutable, hx])]
    simp [hans]
  have hobs : ∀ t, alreadyObserved (es ++ [x]) t = alreadyObserved es t := by
    simp [alreadyObserved, Event.observation?, hx]
  simp only [interruptedAction, hun, hobs]

/-- `interruptedAction` in terms of the scan. -/
theorem interruptedAction_eq_some {es : List Event} {u : Event} {a : ActionEvent}
    (h : interruptedAction es = some (u, a)) :
    u ∈ getUnmatchedActions es ∧ u.action? = some a ∧ alreadyObserved es a.toolCallId = false := by
  unfold interruptedAction at h
  split at h
  · cases h
  · rename_i first _ hu
    split at h
    · cases h
    · split at h
      · cases h
      · rename_i hobs
        cases h
        exact ⟨by simp [hu], ‹_›, by simpa using hobs⟩

section Start
variable {base : ConversationState} {log : EventLog} {ids : RecoveryIds}

/-- `start` up to the recovery: the log grew by the status update alone. -/
theorem start_running (hw : log.WellFormed) (hl : ∀ id, base.leafEventId = some id → id ∈ log.ids)
    (hrun : base.executionStatus = .running) (hf : Fresh ids log) :
    ∃ s, s.Valid ∧ s.resolveActiveLeaf = (base.withLog log).resolveActiveLeaf ∧
      s.events.ids = log.ids ++ [ids.statusUpdate.id] ∧
      interruptedAction s.events.events = interruptedAction log.events ∧
      (∀ leaf l, log.Branch leaf l → s.events.Branch leaf l) ∧
      start base log ids = (do
        let s ← surfaceInterrupted s ids.error
        match ids.goalUpdate with
        | some new => s.appendEvent (stateUpdateEvent new "goal")
        | none => pure s) := by
  obtain ⟨s₀, hres, hv, hlog, hleaf, hst⟩ := resume_ok hw hl
  have hv' : { s₀ with executionStatus := .error }.Valid := ⟨hv.log, hv.leaf⟩
  obtain ⟨s, hs, hsv, hsl, ⟨x, hx, hxu⟩, hbr⟩ :=
    appendUpdate_ok hv' "execution_status" (hlog ▸ hf.statusUpdate)
  have hset : s₀.setExecutionStatus .error ids.statusUpdate = s := by
    rw [setExecutionStatus, if_neg (by rw [hst, hrun]; decide)]
    simp only [hs]
  have hid : x.id = ids.statusUpdate.id := congrArg Event.id hxu
  have hbody : x.body = .conversationStateUpdate "execution_status" := congrArg Event.body hxu
  refine ⟨s, hsv, hsl.trans hleaf, ?_, ?_, ?_, ?_⟩
  · simp [EventLog.ids, hx, hid, hlog]
  · rw [hx, interruptedAction_append hbody]
    exact congrArg (fun l : EventLog => interruptedAction l.events) hlog
  · exact fun leaf l hb => hbr leaf l (hlog ▸ hb)
  · simp only [start, hres, bind, Except.bind, hst, hrun, if_true, hset]

theorem goalUpdate_ok (ids : RecoveryIds) {s : ConversationState} (hs : s.Valid) {l : List Event}
    (hb : s.events.Branch s.resolveActiveLeaf l) (hg : ∀ g ∈ ids.goalUpdate, g.id ∉ s.events.ids) :
    ∃ s', (match ids.goalUpdate with
        | some new => s.appendEvent (stateUpdateEvent new "goal")
        | none => pure s) = .ok s' ∧ s'.activeBranch = .ok l := by
  cases hgoal : ids.goalUpdate with
  | none => exact ⟨s, rfl, activeBranch_eq hb⟩
  | some new =>
    obtain ⟨s', h, -, hl, -, hbr⟩ := appendUpdate_ok hs "goal" (hg new hgoal)
    exact ⟨s', h, activeBranch_eq (hl ▸ hbr _ _ hb)⟩

/-- Nothing to answer: the active branch is that of the persisted HEAD. -/
theorem start_quiet (hw : log.WellFormed) (hl : ∀ id, base.leafEventId = some id → id ∈ log.ids)
    (hrun : base.executionStatus = .running) (hf : Fresh ids log) (hi : interruptedAction log.events = none)
    {l : List Event} (hb : log.Branch (base.withLog log).resolveActiveLeaf l) :
    ∃ s', start base log ids = .ok s' ∧ s'.activeBranch = .ok l := by
  obtain ⟨s, hv, hleaf, hids, hint, hbr, hstart⟩ := start_running hw hl hrun hf
  have hsur : surfaceInterrupted s ids.error = .ok s := by
    rw [surfaceInterrupted, hint, hi]
  obtain ⟨s', hs', hact⟩ := goalUpdate_ok ids hv (hleaf ▸ hbr _ _ hb) (fun g hg => by
    simpa [hids] using ⟨(hf.goalUpdate g hg).1, (hf.goalUpdate g hg).2.1⟩)
  exact ⟨s', by rw [hstart, hsur]; exact hs', hact⟩

/-- The first unmatched action is answered: its branch becomes the active
one, with the error event below it. -/
theorem start_error (hw : log.WellFormed) (hl : ∀ id, base.leafEventId = some id → id ∈ log.ids)
    (hrun : base.executionStatus = .running) (hf : Fresh ids log) {u : Event} {a : ActionEvent}
    (hi : interruptedAction log.events = some (u, a)) {l : List Event} (hb : log.Branch (some u.id) l) :
    ∃ s', start base log ids = .ok s' ∧ s'.activeBranch = .ok (l ++ [errorEvent ids.error u.id a]) := by
  obtain ⟨s, hv, hleaf, hids, hint, hbr, hstart⟩ := start_running hw hl hrun hf
  have hu : u.id ∈ s.events.ids := by
    have hmem := getUnmatchedActions_subset _ (interruptedAction_eq_some hi).1
    rw [hids]
    exact List.mem_append_left _ (EventLog.mem_ids.2 ⟨u, hmem, rfl⟩)
  have hfresh : (errorEvent ids.error u.id a).id ∉ s.events.ids := by
    simpa [hids, errorEvent] using ⟨hf.error, hf.errorNe⟩
  obtain ⟨s₁, h₁⟩ := hv.appendEvent_isOk hfresh (by rintro p ⟨⟩; exact hu)
  have hsur : surfaceInterrupted s ids.error = .ok s₁ := by
    rw [surfaceInterrupted, hint, hi]
    exact h₁
  obtain ⟨log₁, hlog₁, rfl⟩ := appendEvent_ok h₁
  rw [if_neg (by simp [errorEvent, Event.isStateUpdate])] at h₁ hsur
  have hb₁ : log₁.Branch (some ids.error.id) (l ++ [errorEvent ids.error u.id a]) :=
    EventLog.Branch.snoc hv.log hlog₁ (hbr _ _ hb) (by simpa using u.notRoot) (.inl ⟨rfl, by simp⟩)
  have hids₁ := EventLog.ids_append hlog₁
  obtain ⟨s', hs', hact⟩ := goalUpdate_ok ids (hv.appendEvent h₁) hb₁ (fun g hg => by
    have := hf.goalUpdate g hg
    simp only [hids₁, hids, stampParentId_id, List.mem_append, List.mem_singleton, not_or]
    exact ⟨⟨this.1, this.2.1⟩, this.2.2⟩)
  exact ⟨s', by rw [hstart, hsur]; exact hs', hact⟩

end Start

end EventService

/-! ## What a crash leaves -/

theorem Batch.treeNode {actions observations : List Event} (hb : Batch actions observations) :
    ∀ e ∈ actions ++ observations, e.isArtifact = false ∧ e.parentId = none := by
  intro e he
  refine ⟨?_, hb.unstamped e he⟩
  rcases List.mem_append.1 he with ha | ho
  · obtain ⟨a, ha', -⟩ := Event.isExecutable_iff.1 (hb.executable e ha)
    simp only [Event.isArtifact, Event.action?_eq_some.1 ha']
  · obtain ⟨i, hi⟩ := List.getElem?_of_mem ho
    have hlt : i < actions.length :=
      Nat.lt_of_lt_of_le (List.getElem?_eq_some_iff.1 hi).1 hb.length_le
    obtain ⟨-, obs, hobs, -⟩ := hb.observation i e _ hi (List.getElem?_eq_getElem hlt)
    simp only [Event.isArtifact, Event.observation?_eq_some.1 hobs]

/-- The log and the HEAD after a crash: the persisted events `st` hang below
the branch `l₀`, and HEAD is after the first `j` of them. -/
structure CrashLayout (s₀ : ConversationState) (l₀ st : List Event) (base : ConversationState) (log : EventLog)
    (j : Nat) : Prop where
  wellFormed : log.WellFormed
  leaf_mem : ∀ id, base.leafEventId = some id → id ∈ log.ids
  status : base.executionStatus = s₀.executionStatus
  events : log.events = s₀.events.events ++ st
  old : ∀ leaf l, s₀.events.Branch leaf l → log.Branch leaf l
  node : ∀ (i : Nat) (e : Event), st[i]? = some e → log.Branch (some e.id) (l₀ ++ st.take (i + 1))
  head_le : j ≤ st.length
  head : log.Branch (base.withLog log).resolveActiveLeaf (l₀ ++ st.take j)

theorem map_unstamped_getElem? {es fs : List Event} (h : es.map Event.unstamped = fs.map Event.unstamped) {i : Nat} {f : Event}
    (hf : fs[i]? = some f) : ∃ e, es[i]? = some e ∧ e.unstamped = f.unstamped := by
  have hi : (es.map Event.unstamped)[i]? = some f.unstamped := by rw [h, List.getElem?_map, hf]; rfl
  rw [List.getElem?_map, Option.map_eq_some_iff] at hi
  exact hi

theorem Crash.layout {s₀ : ConversationState} (hs₀ : s₀.Valid) {events : List Event}
    (hu : ∀ e ∈ events, e.isArtifact = false ∧ e.parentId = none) {files saved : Nat}
    {base : ConversationState} {log : EventLog} (hc : Crash s₀ events files saved base log) {l₀ : List Event}
    (hl₀ : s₀.events.Branch s₀.resolveActiveLeaf l₀) :
    ∃ st j, st.length = files ∧ st.map Event.unstamped = (events.take files).map Event.unstamped ∧
      CrashLayout s₀ l₀ st base log j := by
  obtain ⟨s, hfiles, rfl⟩ := hc.files_eq
  have hu' : ∀ n, ∀ e ∈ events.take n, e.isStateUpdate = false ∧ e.parentId = none := fun n e he =>
    ⟨Event.isStateUpdate_of_isArtifact (hu e (List.mem_of_mem_take he)).1, (hu e (List.mem_of_mem_take he)).2⟩
  obtain ⟨st, hst, hev, hnode⟩ := appendEvents_branches hs₀ (hu' files) hl₀ hfiles
  have hlen : st.length = files := by
    have := congrArg List.length hst
    simpa [Nat.min_eq_left hc.files_le] using this
  have hold := fun leaf l (hb : s₀.events.Branch leaf l) => branch_appendEvents hs₀ hfiles hb
  have hids : s.events.ids = s₀.events.ids ++ st.map Event.id := by
    simp [EventLog.ids, hev]
  have hv := hs₀.appendEvents hfiles
  have hstatus := appendEvents_status hc.saved_eq
  suffices h : (∀ id, base.leafEventId = some id → id ∈ s.events.ids) ∧ ∃ j ≤ st.length,
      s.events.Branch (base.withLog s.events).resolveActiveLeaf (l₀ ++ st.take j) by
    obtain ⟨hleaf, j, hj, hhead⟩ := h
    exact ⟨st, j, hlen, hst, hv.log, hleaf, hstatus, hev, hold, hnode, hj, hhead⟩
  rcases appendEvents_leaf (fun e he => (hu' saved e he).1) hc.saved_eq with ⟨hnil, rfl⟩ | ⟨e, he, hleaf⟩
  · -- The base state is from before the batch: HEAD is there, or unset and
    -- read off the log.
    refine ⟨fun id h => by rw [hids]; exact List.mem_append_left _ (hs₀.leaf id h), ?_⟩
    -- HEAD stays where it was, in front of the batch.
    have hkeep : (base.withLog s.events).resolveActiveLeaf = base.resolveActiveLeaf →
        ∃ j ≤ st.length, s.events.Branch (base.withLog s.events).resolveActiveLeaf (l₀ ++ st.take j) := by
      intro h
      exact ⟨0, Nat.zero_le _, by simpa [h] using hold _ _ hl₀⟩
    cases hn : base.leafEventId with
    | some id => exact hkeep (by simp only [resolveActiveLeaf, withLog, hn])
    | none =>
      cases hh : base.headIsEmpty with
      | true => exact hkeep (by simp only [resolveActiveLeaf, withLog, hn, hh]; rfl)
      | false =>
        rcases List.eq_nil_or_concat st with rfl | ⟨st', e, rfl⟩
        · exact hkeep (by simp [resolveActiveLeaf, withLog, hn, hh, lastRealEvent, hev])
        · rw [List.concat_eq_append] at *
          obtain ⟨f, hf, hfe⟩ := map_unstamped_getElem? hst.symm (List.getElem?_concat_length (l := st') (a := e))
          have hart : e.isArtifact = false := by
            have hbody : f.body = e.body := (Event.unstamped_eq_iff.1 hfe).2
            have := (hu f (List.mem_of_mem_take (List.mem_of_getElem? hf))).1
            simpa only [Event.isArtifact, hbody] using this
          have hlast := lastRealEvent_concat (hev.trans (List.append_assoc _ _ _).symm) hart
          refine ⟨st'.length + 1, by simp, ?_⟩
          have hres : (base.withLog s.events).resolveActiveLeaf = some e.id := by
            simp only [resolveActiveLeaf, withLog, hn, hh, hlast]
            rfl
          rw [hres]
          exact hnode st'.length e (by simp)
  · -- HEAD is the last of the first `saved` events.
    have hpos : 0 < saved := by
      cases saved with
      | zero => simp at he
      | succ n => exact Nat.succ_pos n
    have hlt : saved - 1 < files := by
      have := hc.saved_le
      omega
    have hge : (events.take files)[saved - 1]? = some e := by
      rw [List.getLast?_eq_getElem?, List.length_take] at he
      rw [List.getElem?_take] at he ⊢
      have hsv : min saved events.length = saved := Nat.min_eq_left (Nat.le_trans hc.saved_le hc.files_le)
      rw [hsv, if_pos (by omega)] at he
      rw [if_pos hlt, he]
    obtain ⟨x, hx, hcx⟩ := map_unstamped_getElem? hst hge
    have hid : x.id = e.id := (Event.unstamped_eq_iff.1 hcx).1
    refine ⟨fun id h => ?_, saved, by rw [hlen]; exact hc.saved_le, ?_⟩
    · rw [hleaf] at h
      cases h
      rw [hids, ← hid]
      exact List.mem_append_right _ (List.mem_map_of_mem (List.mem_of_getElem? hx))
    · have hres : (base.withLog s.events).resolveActiveLeaf = some x.id := by
        simp only [resolveActiveLeaf, withLog, hleaf, hid]
      rw [hres]
      have := hnode (saved - 1) x hx
      rwa [Nat.sub_add_cancel hpos] at this

/-! ## When recovery is complete -/

/-- The input of a recovery: a running conversation with nothing pending, as
`Agent._step` checks before it asks for a batch, and a crash during the batch. -/
structure Interrupted (s₀ : ConversationState) (actions observations : List Event) (files saved : Nat)
    (base : ConversationState) (log : EventLog) (ids : RecoveryIds) : Prop where
  valid : s₀.Valid
  running : s₀.executionStatus = .running
  idle : ∃ branch, s₀.activeBranch = .ok branch ∧ getUnmatchedActions branch = []
  batch : Batch actions observations
  crash : Crash s₀ (actions ++ observations) files saved base log
  fresh : EventService.Fresh ids log

/-- Nothing is left to execute on the active branch, and the persisted
observations of the batch are on it. -/
def Recovered (actions observations : List Event) (files : Nat) (s : ConversationState) : Prop :=
  ∃ branch, s.activeBranch = .ok branch ∧ getUnmatchedActions branch = [] ∧
    ∀ o ∈ observations.take (files - actions.length), o.unstamped ∈ branch.map Event.unstamped

/-- HEAD is before the batch, none of whose observations persisted, or it is
at the last persisted event and the batch is answered. -/
def Consistent (s₀ : ConversationState) (actions : List Event) (files : Nat) (base : ConversationState)
    (log : EventLog) : Prop :=
  files ≤ actions.length ∧ (base.withLog log).resolveActiveLeaf = s₀.resolveActiveLeaf ∨
  actions.length < files ∧ (base.withLog log).resolveActiveLeaf = log.events.getLast?.map Event.id ∧
    getUnmatchedActions (log.events.drop s₀.events.events.length) = []

/-- The crashes that `start` recovers from. When it answers an action, no
observation persisted and only that call is open on the action's own branch. -/
def Recoverable (s₀ : ConversationState) (actions : List Event) (files : Nat) (base : ConversationState)
    (log : EventLog) : Prop :=
  match EventService.interruptedAction log.events with
  | none => Consistent s₀ actions files base log
  | some (first, a) =>
    files ≤ actions.length ∧ ∃ branch, log.pathToRoot (some first.id) = .ok branch ∧
      ∀ b ∈ getUnmatchedActions branch, b.toolCallId? = some a.toolCallId

section Layout
variable {s₀ : ConversationState} {l₀ st : List Event} {base : ConversationState} {log : EventLog} {j : Nat}

/-- A persisted event does not occur among the events before it. -/
theorem CrashLayout.not_mem (h : CrashLayout s₀ l₀ st base log j) {i n : Nat} {e : Event} (he : st[i]? = some e)
    (hn : n ≤ i) {l : List Event} (hl : l ⊆ s₀.events.events ++ st.take n) : e.id ∉ l.map Event.id := by
  intro hmem
  have hnd := log.idsNodup
  rw [h.events, ← List.take_append_drop n st, ← List.append_assoc, List.map_append, List.nodup_append] at hnd
  have hdrop : e ∈ st.drop n := by
    refine List.mem_of_getElem? (i := i - n) ?_
    rw [List.getElem?_drop, Nat.add_sub_cancel' hn, he]
  exact hnd.2.2 _ (List.map_subset _ hl hmem) _ (List.mem_map_of_mem hdrop) rfl

/-- HEAD is after the first `i` persisted events just when `i` is `j`. -/
theorem CrashLayout.head_eq_iff (h : CrashLayout s₀ l₀ st base log j) {leaf : Option EventID} {i : Nat}
    (hi : i ≤ st.length) (hb : log.Branch leaf (l₀ ++ st.take i)) :
    (base.withLog log).resolveActiveLeaf = leaf ↔ j = i := by
  rw [Trail.start_eq_iff EventLog.next_key h.head hb, List.append_cancel_left_eq]
  constructor
  · intro ht
    have := congrArg List.length ht
    rwa [List.length_take, List.length_take, Nat.min_eq_left h.head_le, Nat.min_eq_left hi] at this
  · rintro rfl
    rfl

/-- The persisted observations, as they stand in the log. -/
theorem drop_unstamped {actions observations : List Event} {files : Nat}
    (hst : st.map Event.unstamped = ((actions ++ observations).take files).map Event.unstamped) :
    (observations.take (files - actions.length)).map Event.unstamped = (st.drop actions.length).map Event.unstamped := by
  have hdrop : (actions.take files).drop actions.length = [] :=
    List.drop_eq_nil_of_le (by rw [List.length_take]; exact Nat.min_le_right _ _)
  have hrest : ((observations.take (files - actions.length)).drop (actions.length - min files actions.length)) =
      observations.take (files - actions.length) := by
    rcases Nat.le_total actions.length files with hle | hle
    · simp [Nat.min_eq_right hle]
    · simp [Nat.sub_eq_zero_of_le hle]
  rw [List.map_drop, hst, ← List.map_drop, List.take_append, List.drop_append, hdrop, List.length_take, hrest]
  rfl

variable {actions observations : List Event} {files : Nat}
  (hb : Batch actions observations)
  (hst : st.map Event.unstamped = ((actions ++ observations).take files).map Event.unstamped)
include hb hst

/-- The first persisted events are the actions of the batch. -/
theorem isExecutable_of_lt {i : Nat} {e : Event} (he : st[i]? = some e) (hi : i < actions.length) :
    e.isExecutable = true := by
  obtain ⟨f, hf, hc⟩ := map_unstamped_getElem? hst.symm he
  have hbody : f.body = e.body := (Event.unstamped_eq_iff.1 hc).2
  have hmem : f ∈ actions := by
    rw [List.getElem?_take] at hf
    split at hf
    · rw [List.getElem?_append_left hi] at hf
      exact List.mem_of_getElem? hf
    · cases hf
  simpa only [Event.isExecutable, hbody] using hb.executable f hmem

/-- The others are its observations. -/
theorem not_isExecutable_of_ge {i : Nat} {e : Event} (he : st[i]? = some e) (hi : actions.length ≤ i) :
    e.isExecutable = false := by
  obtain ⟨f, hf, hc⟩ := map_unstamped_getElem? hst.symm he
  have hbody : f.body = e.body := (Event.unstamped_eq_iff.1 hc).2
  rw [List.getElem?_take] at hf
  split at hf
  · rw [List.getElem?_append_right hi] at hf
    have hlt := Nat.lt_of_lt_of_le (List.getElem?_eq_some_iff.1 hf).1 hb.length_le
    obtain ⟨-, obs, hobs, -⟩ := hb.observation _ f _ hf (List.getElem?_eq_getElem hlt)
    simp only [Event.isExecutable, ← hbody, Event.observation?_eq_some.1 hobs]
  · cases hf

/-- While HEAD is among the actions of the batch, the last of them is open. -/
theorem getUnmatchedActions_take_ne_nil {i : Nat} (h0 : 0 < i) (hi : i ≤ actions.length) (hle : i ≤ st.length) :
    getUnmatchedActions (st.take i) ≠ [] := by
  obtain ⟨k, rfl⟩ : ∃ k, i = k + 1 := ⟨i - 1, by omega⟩
  obtain ⟨e, hk⟩ : ∃ e, st[k]? = some e := ⟨_, List.getElem?_eq_getElem hle⟩
  have hx := isExecutable_of_lt hb hst hk hi
  intro hnil
  have hmem : e ∈ getUnmatchedActions (st.take (k + 1)) :=
    mem_getUnmatchedActions.2 ⟨st.take k, [], by simp [List.take_add_one, hk], hx, by simp⟩
  rw [hnil] at hmem
  cases hmem

/-- Without an answer to write, recovery is complete for consistent crashes. -/
theorem CrashLayout.quiet_iff (h : CrashLayout s₀ l₀ st base log j) (hlen : st.length = files)
    (hl₀ : s₀.events.Branch s₀.resolveActiveLeaf l₀) (hidle : getUnmatchedActions l₀ = []) :
    (getUnmatchedActions (l₀ ++ st.take j) = [] ∧
      ∀ e ∈ st.drop actions.length, e.unstamped ∈ (l₀ ++ st.take j).map Event.unstamped) ↔
      Consistent s₀ actions files base log := by
  have hun : getUnmatchedActions (l₀ ++ st.take j) = getUnmatchedActions (st.take j) := by
    rw [getUnmatchedActions_append, hidle]
    rfl
  have hhead₀ : (base.withLog log).resolveActiveLeaf = s₀.resolveActiveLeaf ↔ j = 0 :=
    h.head_eq_iff (Nat.zero_le _) (by simpa using h.old _ _ hl₀)
  have hlast : actions.length < files →
      ((base.withLog log).resolveActiveLeaf = log.events.getLast?.map Event.id ↔ j = files) := by
    intro hlt
    obtain ⟨k, rfl⟩ : ∃ k, files = k + 1 := ⟨files - 1, by omega⟩
    obtain ⟨e, hk⟩ : ∃ e, st[k]? = some e := ⟨_, List.getElem?_eq_getElem (by omega)⟩
    have hget : log.events.getLast?.map Event.id = some e.id := by
      rw [h.events, List.getLast?_append, List.getLast?_eq_getElem?, hlen, Nat.add_sub_cancel, hk]
      rfl
    rw [hget]
    exact h.head_eq_iff (by omega) (h.node k _ hk)
  have hdrop : log.events.drop s₀.events.events.length = st := by
    rw [h.events, List.drop_left]
  rw [hun, Consistent, hhead₀, hdrop]
  constructor
  · rintro ⟨hnil, hobs⟩
    have hj : j = 0 ∨ actions.length < j := by
      by_contra hcon
      exact getUnmatchedActions_take_ne_nil hb hst (by omega) (by omega) h.head_le hnil
    rcases Nat.lt_or_ge actions.length files with hlt | hge
    · -- An observation persisted: the last one is on the branch of HEAD only
      -- if HEAD is at it.
      have hjf : j = files := by
        by_contra hne
        obtain ⟨k, rfl⟩ : ∃ k, files = k + 1 := ⟨files - 1, by omega⟩
        have hle := h.head_le
        obtain ⟨o, hk⟩ : ∃ o, st[k]? = some o := ⟨_, List.getElem?_eq_getElem (by omega)⟩
        have hmem := hobs o (List.mem_of_getElem? (i := k - actions.length)
          (by rw [List.getElem?_drop, Nat.add_sub_cancel' (by omega), hk]))
        obtain ⟨e, he, hec⟩ := List.mem_map.1 hmem
        have hid : e.id = o.id := (Event.unstamped_eq_iff.1 hec).1
        have hsub : l₀ ++ st.take j ⊆ s₀.events.events ++ st.take j :=
          List.append_subset.2 ⟨List.Subset.trans hl₀.subset (List.subset_append_left _ _), List.subset_append_right _ _⟩
        exact h.not_mem hk (by omega) hsub (hid ▸ List.mem_map_of_mem he)
      refine .inr ⟨hlt, (hlast hlt).2 hjf, ?_⟩
      rwa [hjf, ← hlen, List.take_length] at hnil
    · have hle := h.head_le
      exact .inl ⟨hge, by omega⟩
  · rintro (⟨hle, rfl⟩ | ⟨hlt, hhead, hnil⟩)
    · refine ⟨rfl, fun e he => ?_⟩
      rw [List.drop_eq_nil_of_le (by omega)] at he
      cases he
    · obtain rfl := (hlast hlt).1 hhead
      rw [← hlen, List.take_length]
      refine ⟨hnil, fun e he => List.mem_map_of_mem ?_⟩
      exact List.mem_append_right _ (List.mem_of_mem_drop he)

/-- The branch of an open action holds no persisted observation of the batch. -/
theorem CrashLayout.open_branch_subset (hs₀ : s₀.Valid) (h : CrashLayout s₀ l₀ st base log j)
    (hl₀ : s₀.events.Branch s₀.resolveActiveLeaf l₀) {u : Event} (hu : u ∈ log.events) (hx : u.isExecutable = true)
    {l : List Event} (hl : log.Branch (some u.id) l) : l ⊆ s₀.events.events ++ st.take actions.length := by
  rw [h.events] at hu
  rcases List.mem_append.1 hu with hu | hu
  · obtain ⟨l', hl'⟩ := hs₀.log.exists_branch (EventLog.mem_ids.2 ⟨u, hu, rfl⟩)
    rw [Trail.unique hl (h.old _ _ hl')]
    exact List.Subset.trans hl'.subset (List.subset_append_left _ _)
  · obtain ⟨i, hi⟩ := List.getElem?_of_mem hu
    have hlt : i < actions.length := by
      by_contra hcon
      have := not_isExecutable_of_ge hb hst hi (Nat.le_of_not_lt hcon)
      rw [hx] at this
      cases this
    rw [Trail.unique hl (h.node i u hi)]
    refine List.append_subset.2 ⟨List.Subset.trans hl₀.subset (List.subset_append_left _ _), ?_⟩
    refine List.Subset.trans ?_ (List.subset_append_right _ _)
    exact (List.take_sublist_take_left hlt).subset

/-- With the answer to `u` written, recovery is complete when no observation
persisted and `u` had the only open call of its branch. -/
theorem CrashLayout.error_iff (hs₀ : s₀.Valid) (h : CrashLayout s₀ l₀ st base log j) (hlen : st.length = files)
    (hl₀ : s₀.events.Branch s₀.resolveActiveLeaf l₀) {ids : RecoveryIds} (hf : EventService.Fresh ids log)
    {u : Event} {a : ActionEvent} (hu : u ∈ getUnmatchedActions log.events) {l : List Event}
    (hl : log.Branch (some u.id) l) :
    (getUnmatchedActions (l ++ [EventService.errorEvent ids.error u.id a]) = [] ∧
      ∀ e ∈ st.drop actions.length, e.unstamped ∈ (l ++ [EventService.errorEvent ids.error u.id a]).map Event.unstamped) ↔
      files ≤ actions.length ∧ ∀ b ∈ getUnmatchedActions l, b.toolCallId? = some a.toolCallId := by
  have hun : getUnmatchedActions (l ++ [EventService.errorEvent ids.error u.id a]) = [] ↔
      ∀ b ∈ getUnmatchedActions l, b.toolCallId? = some a.toolCallId := by
    rw [getUnmatchedActions_append, getUnmatchedActions_cons,
      if_neg (by simp [Event.isExecutable, EventService.errorEvent])]
    simp [Event.answers, EventService.errorEvent, List.filter_eq_nil_iff]
  rw [hun, and_comm]
  refine and_congr_left fun _ => ⟨fun hobs => ?_, fun hle e he => ?_⟩
  · by_contra hcon
    obtain ⟨o, ho⟩ : ∃ o, st[actions.length]? = some o := ⟨_, List.getElem?_eq_getElem (by omega)⟩
    have hmem := hobs o (List.mem_of_getElem? (i := 0) (by simpa using ho))
    obtain ⟨e, he, hec⟩ := List.mem_map.1 hmem
    have hid : e.id = o.id := (Event.unstamped_eq_iff.1 hec).1
    have hsub := h.open_branch_subset hb hst hs₀ hl₀ (getUnmatchedActions_subset _ hu)
      (isExecutable_of_mem_getUnmatchedActions hu) hl
    rcases List.mem_append.1 he with he | he
    · exact h.not_mem ho (Nat.le_refl _) hsub (hid ▸ List.mem_map_of_mem he)
    · rw [List.mem_singleton] at he
      refine hf.error (EventLog.mem_ids.2 ⟨o, ?_, ?_⟩)
      · rw [h.events]
        exact List.mem_append_right _ (List.mem_of_getElem? ho)
      · rw [← hid, he]
        rfl
  · rw [List.drop_eq_nil_of_le (by omega)] at he
    cases he

end Layout

/-- **Crash recovery.** `start` always succeeds on an interrupted batch, and
it leaves no action to execute again and keeps every persisted observation
exactly for the recoverable crashes. -/
theorem recovered_iff_recoverable {s₀ : ConversationState} {actions observations : List Event}
    {files saved : Nat} {base : ConversationState} {log : EventLog} {ids : RecoveryIds}
    (h : Interrupted s₀ actions observations files saved base log ids) :
    ∃ s, EventService.start base log ids = .ok s ∧
      (Recovered actions observations files s ↔ Recoverable s₀ actions files base log) := by
  obtain ⟨l₀, hl₀⟩ := h.valid.exists_branch
  have hidle : getUnmatchedActions l₀ = [] := by
    obtain ⟨branch, hact, hidle⟩ := h.idle
    rw [activeBranch_eq hl₀] at hact
    cases hact
    exact hidle
  obtain ⟨st, j, hlen, hst, hlay⟩ := h.crash.layout h.valid h.batch.treeNode hl₀
  have hrun : base.executionStatus = .running := hlay.status.trans h.running
  -- The persisted observations may be read off the log.
  have hrec : ∀ s branch, s.activeBranch = .ok branch →
      (Recovered actions observations files s ↔ getUnmatchedActions branch = [] ∧
        ∀ e ∈ st.drop actions.length, e.unstamped ∈ branch.map Event.unstamped) := by
    intro s branch hact
    have hobs : (∀ o ∈ observations.take (files - actions.length), o.unstamped ∈ branch.map Event.unstamped) ↔
        ∀ e ∈ st.drop actions.length, e.unstamped ∈ branch.map Event.unstamped := by
      rw [← List.forall_mem_map (P := (· ∈ branch.map Event.unstamped)), drop_unstamped hst, List.forall_mem_map]
    rw [Recovered, ← hobs]
    constructor
    · rintro ⟨b, hb, hun, ho⟩
      rw [hact] at hb
      cases hb
      exact ⟨hun, ho⟩
    · exact fun ⟨hun, ho⟩ => ⟨branch, hact, hun, ho⟩
  cases hi : EventService.interruptedAction log.events with
  | none =>
    obtain ⟨s, hs, hact⟩ :=
      EventService.start_quiet hlay.wellFormed hlay.leaf_mem hrun h.fresh hi hlay.head
    refine ⟨s, hs, ?_⟩
    rw [hrec s _ hact, hlay.quiet_iff h.batch hst hlen hl₀ hidle]
    simp only [Recoverable, hi]
  | some ua =>
    obtain ⟨u, a⟩ := ua
    obtain ⟨hu, -, -⟩ := EventService.interruptedAction_eq_some hi
    obtain ⟨l, hl⟩ := hlay.wellFormed.exists_branch
      (EventLog.mem_ids.2 ⟨u, getUnmatchedActions_subset _ hu, rfl⟩)
    obtain ⟨s, hs, hact⟩ := EventService.start_error hlay.wellFormed hlay.leaf_mem hrun h.fresh hi hl
    refine ⟨s, hs, ?_⟩
    rw [hrec s _ hact, hlay.error_iff h.batch hst h.valid hlen hl₀ h.fresh hu hl]
    simp only [Recoverable, hi, hl.pathToRoot, Except.ok.injEq, exists_eq_left']

/-! ## A crash in the middle of a parallel batch

Two terminal calls, of which the first has its result when the process dies. -/

namespace CrashExample

def terminalAction (id : EventID) (call : ToolCallID) (h : id ≠ rootParentId := by exact ne_rootParentId trivial) : Event :=
  { id, notRoot := h
    body := .action
      { action := some (.other "ls"), toolName := "terminal", toolCall := ⟨call, "terminal", "ls"⟩,
        toolCallId := call, llmResponseId := "response" } }

def terminalObservation (id actionId : EventID) (call : ToolCallID) (h : id ≠ rootParentId := by exact ne_rootParentId trivial) : Event :=
  { id, notRoot := h
    body := .observation { toolName := "terminal", toolCallId := call, kind := .observation ["ok"] [] actionId } }

def userMessage : Event :=
  { id := "message", body := .message { source := .user, llmMessage := { role := .user, content := ["go"] } } }

def asked : ConversationState := { executionStatus := .running : ConversationState }.afterAppends [userMessage]

def actions : List Event := [terminalAction "action-1" "call-1", terminalAction "action-2" "call-2"]

def observations : List Event := [terminalObservation "observation-1" "action-1" "call-1"]

/-- The state after the first `n` appends of the batch. -/
def after (n : Nat) : ConversationState := asked.afterAppends ((actions ++ observations).take n)

def ids : RecoveryIds := { statusUpdate := { id := "update" }, error := { id := "error" } }

theorem asked_valid : asked.Valid := by
  have h₀ : ({ executionStatus := .running } : ConversationState).Valid :=
    ⟨fun i e h => by simp at h, fun id h => by cases h⟩
  have h : ({ executionStatus := .running } : ConversationState).appendEvents [userMessage] = .ok asked := rfl
  exact h₀.appendEvents h

theorem batch : Batch actions observations where
  nonempty := by decide
  executable := by decide
  unstamped := by decide
  length_le := by decide
  observation := by
    rintro (_ | i) o a ho ha
    · cases ho
      cases ha
      exact ⟨by decide, _, rfl, rfl⟩
    · simp [observations] at ho

theorem interrupted {files saved : Nat} (hf : files ≤ 3) (hs : saved ≤ files)
    (hfiles : asked.appendEvents ((actions ++ observations).take files) = .ok (after files))
    (hsaved : asked.appendEvents ((actions ++ observations).take saved) = .ok (after saved))
    (hfresh : EventService.Fresh ids (after files).events) :
    Interrupted asked actions observations files saved (after saved) (after files).events ids where
  valid := asked_valid
  running := rfl
  idle := ⟨_, rfl, by decide⟩
  batch := batch
  crash := ⟨hf, hs, ⟨_, hfiles, rfl⟩, hsaved⟩
  fresh := hfresh

theorem fresh₁ : EventService.Fresh ids (after 1).events :=
  ⟨by decide, by decide, by decide, by simp [ids]⟩

theorem fresh₃ : EventService.Fresh ids (after 3).events :=
  ⟨by decide, by decide, by decide, by simp [ids]⟩

end CrashExample

open CrashExample in
/-- The first action alone persisted, and HEAD still before it: recovered. -/
theorem recovered_stale_head :
    ∃ s, EventService.start (after 0) (after 1).events ids = .ok s ∧ Recovered actions observations 1 s := by
  obtain ⟨s, hs, hiff⟩ :=
    recovered_iff_recoverable (interrupted (by decide) (by decide) rfl rfl fresh₁ : Interrupted _ _ _ 1 0 _ _ _)
  refine ⟨s, hs, hiff.2 ?_⟩
  have hi : ∃ u a, EventService.interruptedAction (after 1).events.events = some (u, a) ∧
      u.id = "action-1" ∧ a.toolCallId = "call-1" := ⟨_, _, rfl, rfl, rfl⟩
  obtain ⟨u, a, hi, hu, ha⟩ := hi
  rw [Recoverable, hi]
  exact ⟨by decide, _, by rw [hu]; rfl, by rw [ha]; decide⟩

open CrashExample in
/-- Both actions and one observation persisted: the first action is executed
again, and its observation is off the active branch. -/
theorem recovery_reexecutes :
    ¬ ∀ s₀ actions observations files saved base log ids,
      Interrupted s₀ actions observations files saved base log ids →
      ∃ s, EventService.start base log ids = .ok s ∧ Recovered actions observations files s := by
  intro h
  obtain ⟨s, hs, branch, hact, hun, -⟩ :=
    h _ _ _ _ _ _ _ _ (interrupted (by decide) (by decide) rfl rfl fresh₃ : Interrupted _ _ _ 3 3 _ _ _)
  have hrun : (EventService.start (after 3) (after 3).events ids).bind activeBranch = .ok branch := by
    rw [hs]
    exact hact
  have hbad : ((EventService.start (after 3) (after 3).events ids).bind activeBranch).map
      (fun b => (getUnmatchedActions b).map Event.id) = .ok ["action-1"] := by decide
  rw [hrun, Except.map, hun] at hbad
  cases hbad

end AgentSdk
