import AgentSdk.ConversationState
/-!
# Emitting events

What the agent and the conversation do to the state through their callbacks:
`on_event` appends an event and remembers the last user message, and an
assignment to a public field is broadcast when the agent server listens.
`Emits` says which calls and answers a piece of work added, in what order.
-/

namespace AgentSdk

/-- A conversation at work. `notifications` are the ids under which coming
field changes are broadcast; none without a state-change callback. -/
structure Session where
  state : ConversationState
  notifications : List NewId := []

namespace Session

/-- `__setattr__` with a changed value. An exception of the broadcast is only
logged. -/
def notify (s : Session) (key : String) (state : ConversationState) : Session :=
  match s.notifications with
  | [] => { s with state }
  | new :: rest =>
    match state.appendEvent (stateUpdateEvent new key) with
    | .ok state => { state, notifications := rest }
    | .error _ => { state, notifications := rest }

def setExecutionStatus (s : Session) (status : ConversationExecutionStatus) : Session :=
  if s.state.executionStatus = status then s
  else s.notify "execution_status" { s.state with executionStatus := status }

def setLastUserMessageId (s : Session) (id : EventID) : Session :=
  if s.state.lastUserMessageId = some id then s
  else s.notify "last_user_message_id" { s.state with lastUserMessageId := some id }

def blockAction (s : Session) (id : EventID) (reason : String) : Session :=
  if s.state.blockedActions.lookup id = some reason then s
  else s.notify "blocked_actions" (s.state.blockAction id reason)

def blockMessage (s : Session) (id : EventID) (reason : String) : Session :=
  if s.state.blockedMessages.lookup id = some reason then s
  else s.notify "blocked_messages" (s.state.blockMessage id reason)

def popBlockedAction (s : Session) (id : EventID) : Option String × Session :=
  match s.state.popBlockedAction id with
  | (none, _) => (none, s)
  | (some reason, state) => (some reason, s.notify "blocked_actions" state)

def popBlockedMessage (s : Session) (id : EventID) : Option String × Session :=
  match s.state.popBlockedMessage id with
  | (none, _) => (none, s)
  | (some reason, state) => (some reason, s.notify "blocked_messages" state)

/-- The callback chain below the hooks: `append_event`, then
`_track_last_user_message`. -/
def onEvent (s : Session) (e : Event) : Except ValueError Session := do
  let state ← s.state.appendEvent e
  let s := { s with state }
  match e.body with
  | .message m => return if m.source = .user then s.setLastUserMessageId e.id else s
  | _ => return s

def onEvents (s : Session) : List Event → Except ValueError Session
  | [] => .ok s
  | e :: es => s.onEvent e >>= fun s => s.onEvents es

end Session

/-! ## What was emitted -/

/-- From `s` to `s'` the calls and answers appended were `tools`, in the log
and on the active branch alike. -/
structure Emits (s s' : ConversationState) (tools : List Event) : Prop where
  valid : s'.Valid
  log : ∃ new, s'.events.events = s.events.events ++ new ∧
    (new.filter Event.isToolEvent).map Event.unstamped = tools
  branch : ∀ l, s.events.Branch s.resolveActiveLeaf l → ∃ new, s'.events.Branch s'.resolveActiveLeaf (l ++ new) ∧
    (new.filter Event.isToolEvent).map Event.unstamped = tools

/-- Two states with the same tree. -/
structure ConversationState.SameTree (s t : ConversationState) : Prop where
  events : t.events = s.events
  leaf : t.leafEventId = s.leafEventId
  empty : t.headIsEmpty = s.headIsEmpty

namespace Emits
variable {s t u : ConversationState} {tools tools' : List Event}

theorem sameTree (hs : s.Valid) (h : s.SameTree t) : Emits s t [] := by
  have hres : t.resolveActiveLeaf = s.resolveActiveLeaf := by
    simp only [ConversationState.resolveActiveLeaf, h.events, h.leaf, h.empty]
  refine ⟨⟨h.events ▸ hs.log, fun id hid => h.events ▸ hs.leaf id (h.leaf ▸ hid)⟩, ⟨[], by simp [h.events], rfl⟩, ?_⟩
  exact fun l hl => ⟨[], by simpa [hres, h.events] using hl, rfl⟩

theorem refl (hs : s.Valid) : Emits s s [] := sameTree hs ⟨rfl, rfl, rfl⟩

theorem trans (h : Emits s t tools) (h' : Emits t u tools') : Emits s u (tools ++ tools') := by
  refine ⟨h'.valid, ?_, fun l hl => ?_⟩
  · obtain ⟨new, hnew, ht⟩ := h.log
    obtain ⟨new', hnew', ht'⟩ := h'.log
    exact ⟨new ++ new', by rw [hnew', hnew, List.append_assoc], by simp [ht, ht']⟩
  · obtain ⟨new, hnew, ht⟩ := h.branch l hl
    obtain ⟨new', hnew', ht'⟩ := h'.branch _ hnew
    exact ⟨new ++ new', by rw [← List.append_assoc]; exact hnew', by simp [ht, ht']⟩

theorem isToolEvent_stamp (s : ConversationState) (e : Event) :
    (s.stampParentId e).isToolEvent = e.isToolEvent := by
  simp only [Event.isToolEvent, Event.action?, Event.observation?, ConversationState.stampParentId_body]

/-- One append emits the event itself, if it is a call or an answer. -/
theorem append {e : Event} (hs : s.Valid) (hp : e.parentId = none) (h : s.appendEvent e = .ok t) :
    Emits s t ([e].filter Event.isToolEvent) := by
  have hev := ConversationState.appendEvent_events h
  have hnew : ([s.stampParentId e].filter Event.isToolEvent).map Event.unstamped = [e].filter Event.isToolEvent := by
    cases ht : e.isToolEvent <;> simp [ht, isToolEvent_stamp, Event.unstamped_eq_self hp]
  refine ⟨hs.appendEvent h, ⟨_, hev, hnew⟩, fun l hl => ?_⟩
  cases hu : e.isStateUpdate with
  | true =>
    refine ⟨[], ?_, ?_⟩
    · rw [ConversationState.resolve_appendEvent_update h hu, List.append_nil]
      exact ConversationState.branch_appendEvent hs h hl
    · have ht : e.isToolEvent = false := by
        unfold Event.isStateUpdate at hu
        unfold Event.isToolEvent Event.action? Event.observation?
        split at hu <;> simp_all
      simp [ht]
  | false =>
    obtain ⟨hleaf, hb⟩ := ConversationState.activeBranch_appendEvent hs h hu hp hl
    exact ⟨[s.stampParentId e], by rw [hleaf]; exact hb, hnew⟩

end Emits

section Session
open Session
variable {s s' : Session}

theorem emits_notify {key : String} {t : ConversationState} (hs : s.state.Valid) (h : s.state.SameTree t) :
    Emits s.state (s.notify key t).state [] := by
  have ht := Emits.sameTree hs h
  unfold notify
  split
  · exact ht
  · split
    · rename_i happ
      exact ht.trans (Emits.append ht.valid rfl happ)
    · exact ht

theorem emits_setExecutionStatus (hs : s.state.Valid) (status : ConversationExecutionStatus) :
    Emits s.state (s.setExecutionStatus status).state [] := by
  unfold setExecutionStatus
  split
  · exact .refl hs
  · exact emits_notify hs ⟨rfl, rfl, rfl⟩

theorem emits_setLastUserMessageId (hs : s.state.Valid) (id : EventID) :
    Emits s.state (s.setLastUserMessageId id).state [] := by
  unfold setLastUserMessageId
  split
  · exact .refl hs
  · exact emits_notify hs ⟨rfl, rfl, rfl⟩

theorem emits_blockAction (hs : s.state.Valid) (id : EventID) (reason : String) :
    Emits s.state (s.blockAction id reason).state [] := by
  unfold Session.blockAction
  split
  · exact .refl hs
  · exact emits_notify hs ⟨rfl, rfl, rfl⟩

theorem emits_blockMessage (hs : s.state.Valid) (id : EventID) (reason : String) :
    Emits s.state (s.blockMessage id reason).state [] := by
  unfold Session.blockMessage
  split
  · exact .refl hs
  · exact emits_notify hs ⟨rfl, rfl, rfl⟩

theorem emits_popBlockedAction (hs : s.state.Valid) (id : EventID) :
    Emits s.state (s.popBlockedAction id).2.state [] := by
  unfold Session.popBlockedAction ConversationState.popBlockedAction
  cases s.state.blockedActions.lookup id with
  | none => exact .refl hs
  | some reason => exact emits_notify hs ⟨rfl, rfl, rfl⟩

theorem emits_popBlockedMessage (hs : s.state.Valid) (id : EventID) :
    Emits s.state (s.popBlockedMessage id).2.state [] := by
  unfold Session.popBlockedMessage ConversationState.popBlockedMessage
  cases s.state.blockedMessages.lookup id with
  | none => exact .refl hs
  | some reason => exact emits_notify hs ⟨rfl, rfl, rfl⟩

theorem emits_onEvent {e : Event} (hs : s.state.Valid) (hp : e.parentId = none) (h : s.onEvent e = .ok s') :
    Emits s.state s'.state ([e].filter Event.isToolEvent) := by
  simp only [onEvent, bind, Except.bind] at h
  split at h
  · cases h
  · rename_i state happ
    have happ' := Emits.append hs hp happ
    split at h
    · cases h
      split
      · simpa using happ'.trans (emits_setLastUserMessageId (s := { s with state }) happ'.valid e.id)
      · exact happ'
    · cases h
      exact happ'

theorem emits_onEvents {es : List Event} (hs : s.state.Valid) (hp : ∀ e ∈ es, e.parentId = none)
    (h : s.onEvents es = .ok s') : Emits s.state s'.state (es.filter Event.isToolEvent) := by
  induction es generalizing s with
  | nil => cases h; exact .refl hs
  | cons e es ih =>
    simp only [onEvents, bind, Except.bind] at h
    split at h
    · cases h
    · rename_i s₁ h₁
      have he := emits_onEvent hs (hp e List.mem_cons_self) h₁
      have hes := ih he.valid (fun x hx => hp x (List.mem_cons_of_mem _ hx)) h
      have hcons : (e :: es).filter Event.isToolEvent =
          [e].filter Event.isToolEvent ++ es.filter Event.isToolEvent := by
        rw [← List.filter_append]
        rfl
      rw [hcons]
      exact he.trans hes

end Session

end AgentSdk
