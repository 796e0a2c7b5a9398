import AgentSdk.RunLoop
/-!
# The last user message

Whatever the conversation and its agent do, the id of the last user message
stays as it is or becomes that of a new event. `arun` relies on this to notice
the messages that came in during a step.
-/

namespace AgentSdk
open Lib ConversationState

/-- From `s` to `t` the log has grown, and the last user message is the same or
one of the new events. -/
structure Tracks (s t : ConversationState) : Prop where
  ids : s.events.ids ⊆ t.events.ids
  last : t.lastUserMessageId = s.lastUserMessageId ∨
    ∃ id, t.lastUserMessageId = some id ∧ id ∉ s.events.ids ∧ id ∈ t.events.ids

/-- The last user message is in the log. -/
def ConversationState.KnowsLast (s : ConversationState) : Prop := ∀ id ∈ s.lastUserMessageId, id ∈ s.events.ids

namespace Tracks
variable {s t u : ConversationState}

theorem same (hevents : t.events = s.events) (hlast : t.lastUserMessageId = s.lastUserMessageId) : Tracks s t :=
  ⟨by rw [hevents]; exact List.Subset.refl _, .inl hlast⟩

theorem refl (s : ConversationState) : Tracks s s := same rfl rfl

theorem trans (h : Tracks s t) (h' : Tracks t u) : Tracks s u := by
  refine ⟨List.Subset.trans h.ids h'.ids, ?_⟩
  rcases h'.last with hsame | ⟨id, hid, hnew, hin⟩
  · rcases h.last with hsame' | ⟨id, hid, hnew, hin⟩
    · exact .inl (hsame.trans hsame')
    · exact .inr ⟨id, hsame.trans hid, hnew, h'.ids hin⟩
  · exact .inr ⟨id, hid, fun hold => hnew (h.ids hold), hin⟩

theorem knowsLast (h : Tracks s t) (hs : s.KnowsLast) : t.KnowsLast := by
  intro id hid
  rcases h.last with hsame | ⟨id', hid', -, hin⟩
  · exact h.ids (hs id (hsame ▸ hid))
  · rw [hid', Option.mem_some_iff] at hid
    exact hid ▸ hin

/-- An id of the log that is not the last user message does not become it. -/
theorem ne_of_ne (h : Tracks s t) {last : Option EventID} (hlast : ∀ id ∈ last, id ∈ s.events.ids)
    (hne : s.lastUserMessageId ≠ last) : t.lastUserMessageId ≠ last := by
  rcases h.last with hsame | ⟨id, hid, hnew, -⟩
  · rwa [hsame]
  · rw [hid]
    rintro rfl
    exact hnew (hlast id rfl)

end Tracks

/-! ## Storing events -/

section Session
variable {s s' : Session}

theorem appendEvent_ids {s t : ConversationState} {e : Event} (h : s.appendEvent e = .ok t) :
    t.events.ids = s.events.ids ++ [e.id] ∧ e.id ∉ s.events.ids ∧ t.lastUserMessageId = s.lastUserMessageId := by
  have hids : t.events.ids = s.events.ids ++ [e.id] := by
    simp only [EventLog.ids, appendEvent_events h, List.map_append, List.map_cons, List.map_nil, stampParentId_id]
  refine ⟨hids, fun hin => ?_, ?_⟩
  · have hnodup : t.events.ids.Nodup := t.events.idsNodup
    rw [hids] at hnodup
    exact (List.nodup_append.1 hnodup).2.2 _ hin _ (List.mem_singleton_self _) rfl
  · obtain ⟨log, -, rfl⟩ := appendEvent_ok h
    split <;> rfl

theorem tracks_append {s t : ConversationState} {e : Event} (h : s.appendEvent e = .ok t) : Tracks s t := by
  obtain ⟨hids, -, hlast⟩ := appendEvent_ids h
  exact ⟨hids ▸ List.subset_append_left _ _, .inl hlast⟩

theorem tracks_notify {key : String} {t : ConversationState} (h : Tracks s.state t) :
    Tracks s.state (s.notify key t).state := by
  unfold Session.notify
  split
  · exact h
  · split
    · exact h.trans (tracks_append ‹_›)
    · exact h

theorem tracks_setExecutionStatus (s : Session) (status : ConversationExecutionStatus) :
    Tracks s.state (s.setExecutionStatus status).state := by
  unfold Session.setExecutionStatus
  split
  · exact .refl _
  · exact tracks_notify (.same rfl rfl)

theorem notify_last (s : Session) (key : String) (t : ConversationState) :
    (s.notify key t).state.lastUserMessageId = t.lastUserMessageId := by
  unfold Session.notify
  split
  · rfl
  · split
    · exact (appendEvent_ids ‹_›).2.2
    · rfl

theorem setLastUserMessageId_last (s : Session) (id : EventID) :
    (s.setLastUserMessageId id).state.lastUserMessageId = some id := by
  unfold Session.setLastUserMessageId
  split
  · assumption
  · exact notify_last _ _ _

theorem ids_subset_notify (s : Session) (key : String) (t : ConversationState) :
    t.events.ids ⊆ (s.notify key t).state.events.ids := by
  unfold Session.notify
  split
  · exact List.Subset.refl _
  · split
    · exact (tracks_append ‹_›).ids
    · exact List.Subset.refl _

theorem ids_subset_setLastUserMessageId (s : Session) (id : EventID) :
    s.state.events.ids ⊆ (s.setLastUserMessageId id).state.events.ids := by
  unfold Session.setLastUserMessageId
  split
  · exact List.Subset.refl _
  · exact ids_subset_notify s _ { s.state with lastUserMessageId := some id }

/-- A user message becomes the last one, other events leave it as it is. -/
theorem onEvent_last {e : Event} (h : s.onEvent e = .ok s') :
    e.id ∉ s.state.events.ids ∧ e.id ∈ s'.state.events.ids ∧ s.state.events.ids ⊆ s'.state.events.ids ∧
      s'.state.lastUserMessageId =
        match e.body with
        | .message m => if m.source = .user then some e.id else s.state.lastUserMessageId
        | _ => s.state.lastUserMessageId := by
  obtain ⟨state, happ, h⟩ := bind_ok h
  obtain ⟨hids, hnew, hlast⟩ := appendEvent_ids happ
  have hold : s.state.events.ids ⊆ state.events.ids := hids ▸ List.subset_append_left _ _
  have hin : e.id ∈ state.events.ids := by simp [hids]
  dsimp only at h
  cases hbody : e.body with
  | message m =>
    rw [hbody] at h
    dsimp only at h
    by_cases hm : m.source = .user
    · rw [if_pos hm] at h
      cases h
      have hsub := ids_subset_setLastUserMessageId { s with state } e.id
      refine ⟨hnew, hsub hin, List.Subset.trans hold hsub, ?_⟩
      rw [setLastUserMessageId_last]
      simp [hm]
    · rw [if_neg hm] at h
      cases h
      exact ⟨hnew, hin, hold, by simp [hm, hlast]⟩
  | _ =>
    rw [hbody] at h
    cases h
    exact ⟨hnew, hin, hold, hlast⟩

theorem tracks_onEvent {e : Event} (h : s.onEvent e = .ok s') : Tracks s.state s'.state := by
  obtain ⟨hnew, hin, hold, hlast⟩ := onEvent_last h
  refine ⟨hold, ?_⟩
  split at hlast
  · split at hlast
    · exact .inr ⟨e.id, hlast, hnew, hin⟩
    · exact .inl hlast
  · exact .inl hlast

theorem tracks_onEvents {es : List Event} (h : s.onEvents es = .ok s') : Tracks s.state s'.state := by
  induction es generalizing s with
  | nil =>
    cases h
    exact .refl _
  | cons e es ih =>
    obtain ⟨t, ht, h⟩ := bind_ok h
    exact (tracks_onEvent ht).trans (ih h)

theorem tracks_blockAction (s : Session) (id : EventID) (reason : String) :
    Tracks s.state (s.blockAction id reason).state := by
  unfold Session.blockAction
  split
  · exact .refl _
  · exact tracks_notify (.same rfl rfl)

theorem tracks_blockMessage (s : Session) (id : EventID) (reason : String) :
    Tracks s.state (s.blockMessage id reason).state := by
  unfold Session.blockMessage
  split
  · exact .refl _
  · exact tracks_notify (.same rfl rfl)

theorem tracks_popBlockedAction (s : Session) (id : EventID) : Tracks s.state (s.popBlockedAction id).2.state := by
  unfold Session.popBlockedAction ConversationState.popBlockedAction
  cases s.state.blockedActions.lookup id with
  | none => exact .refl _
  | some reason => exact tracks_notify (.same rfl rfl)

theorem tracks_popBlockedMessage (s : Session) (id : EventID) : Tracks s.state (s.popBlockedMessage id).2.state := by
  unfold Session.popBlockedMessage ConversationState.popBlockedMessage
  cases s.state.blockedMessages.lookup id with
  | none => exact .refl _
  | some reason => exact tracks_notify (.same rfl rfl)

theorem rebuildView_tracks {s t : ConversationState} (h : s.rebuildView = .ok t) : Tracks s t := by
  obtain ⟨branch, -, h⟩ := bind_ok h
  cases h
  exact .same rfl rfl

theorem readView_tracks {s t : ConversationState} (h : s.readView = .ok t) : Tracks s t := by
  unfold readView at h
  dsimp only at h
  split at h
  · cases h
    exact .refl _
  · split at h
    · split at h
      · cases h
        exact .same rfl rfl
      · exact rebuildView_tracks h
    · exact rebuildView_tracks h

end Session

/-! ## The agent's step -/

namespace Agent
variable {env : StepEnv} {r : LLMResponse} {s s' : Session}

theorem emitUserMessage_tracks {m : MessageRun} (h : emitUserMessage m s = .ok s') : Tracks s.state s'.state := by
  obtain ⟨t, ht, h⟩ := bind_ok h
  have hooks := tracks_onEvents ht
  cases hb : m.blockReason with
  | none =>
    rw [hb] at h
    exact hooks.trans (tracks_onEvent h)
  | some reason =>
    rw [hb] at h
    exact (hooks.trans (tracks_blockMessage t _ _)).trans (tracks_onEvent h)

theorem getActionEvent_tracks {i : Nat} {call : MessageToolCall} {o : Option Event}
    (h : getActionEvent env r i call s = .ok (s', o)) : Tracks s.state s'.state := by
  unfold getActionEvent at h
  dsimp only at h
  cases hp : (env.call i).parsed with
  | invalid error displayName arguments =>
    rw [hp] at h
    obtain ⟨t, ht, h⟩ := bind_ok h
    obtain ⟨u, hu, h⟩ := bind_ok h
    cases h
    exact (tracks_onEvent ht).trans (tracks_onEvent hu)
  | valid action toolName arguments =>
    rw [hp] at h
    obtain ⟨t, ht, h⟩ := bind_ok h
    obtain ⟨u, hu, h⟩ := bind_ok h
    cases h
    have hooks := tracks_onEvents ht
    cases hb : (env.call i).blockReason with
    | none =>
      rw [hb] at hu
      exact hooks.trans (tracks_onEvent hu)
    | some reason =>
      rw [hb] at hu
      exact (hooks.trans (tracks_blockAction t _ _)).trans (tracks_onEvent hu)

theorem getActionEvents_tracks {i : Nat} {calls : List MessageToolCall} {es : List Event}
    (h : getActionEvents env r i calls s = .ok (s', es)) : Tracks s.state s'.state := by
  induction calls generalizing i s es with
  | nil =>
    cases h
    exact .refl _
  | cons call calls ih =>
    obtain ⟨⟨t, o⟩, ht, h⟩ := bind_ok h
    obtain ⟨⟨u, es'⟩, hu, h⟩ := bind_ok h
    cases h
    exact (getActionEvent_tracks ht).trans (ih hu)

theorem requiresUserConfirmation_tracks {actions : List Event} {confirm : Bool}
    (h : requiresUserConfirmation env s actions = .ok (s', confirm)) : Tracks s.state s'.state := by
  obtain ⟨t, ht, h⟩ := bind_ok h
  have hset := Except.ok.inj h
  unfold setConfirmationStatus at hset
  split at hset
  · obtain ⟨rfl, -⟩ := Prod.mk.inj hset
    exact (tracks_onEvents ht).trans (tracks_setExecutionStatus _ _)
  · obtain ⟨rfl, -⟩ := Prod.mk.inj hset
    exact tracks_onEvents ht

theorem popBlockedActions_tracks (es : List Event) (s : Session) : Tracks s.state (popBlockedActions es s).1.state := by
  induction es generalizing s with
  | nil => exact .refl _
  | cons e es ih => exact (tracks_popBlockedAction s e.id).trans (ih _)

theorem emit_tracks {reasons : List (EventID × String)} {es : List Event} (h : emit env reasons es s = .ok s') :
    Tracks s.state s'.state := by
  induction es generalizing s with
  | nil =>
    cases h
    exact .refl _
  | cons e es ih =>
    unfold emit at h
    cases ha : e.action? with
    | none =>
      rw [ha] at h
      exact ih h
    | some a =>
      rw [ha] at h
      obtain ⟨t, ht, h⟩ := bind_ok h
      obtain ⟨u, hu, h⟩ := bind_ok h
      exact ((tracks_onEvents ht).trans (tracks_onEvent hu)).trans (ih h)

theorem finalize_tracks {actions : List Event} {hasFinish : Bool} {reasons : List (EventID × String)}
    (h : finalize env actions hasFinish reasons s = .ok s') : Tracks s.state s'.state := by
  unfold finalize at h
  split at h
  · cases h
    exact .refl _
  · split at h
    · exact (tracks_notify (.refl _)).trans (emitUserMessage_tracks h)
    · cases h
      exact tracks_setExecutionStatus _ _

theorem executeActions_tracks {actions : List Event} (h : executeActions env actions s = .ok s') :
    Tracks s.state s'.state := by
  unfold executeActions at h
  dsimp only at h
  obtain ⟨t, ht, h⟩ := bind_ok h
  exact ((popBlockedActions_tracks _ s).trans (emit_tracks ht)).trans (finalize_tracks h)

theorem emitTokens_tracks (h : emitTokens env s = .ok s') : Tracks s.state s'.state := by
  unfold emitTokens at h
  split at h
  · exact tracks_onEvent h
  · cases h
    exact .refl _

theorem handleMessage_tracks {hcalls : r.message.calls = []} {hasContent : Bool}
    (h : handleMessage env r hcalls hasContent s = .ok s') : Tracks s.state s'.state := by
  unfold handleMessage at h
  obtain ⟨t, ht, h⟩ := bind_ok h
  obtain ⟨u, hu, h⟩ := bind_ok h
  have hmessage := (tracks_onEvent ht).trans (emitTokens_tracks hu)
  cases hasContent with
  | true =>
    cases h
    exact hmessage.trans (tracks_setExecutionStatus _ _)
  | false => exact hmessage.trans (tracks_onEvent h)

theorem decideToolCalls_tracks {actions : List Event} (h : decideToolCalls env actions s = .ok s') :
    Tracks s.state s'.state := by
  obtain ⟨⟨t, confirm⟩, ht, h⟩ := bind_ok h
  have hconfirm := requiresUserConfirmation_tracks ht
  cases confirm with
  | true =>
    cases h
    exact hconfirm
  | false =>
    dsimp only [Bool.false_eq_true] at h
    rw [if_neg (by simp)] at h
    split at h
    · exact hconfirm.trans (emitTokens_tracks h)
    · obtain ⟨u, hu, h⟩ := bind_ok h
      exact (hconfirm.trans (executeActions_tracks hu)).trans (emitTokens_tracks h)

theorem astepRespond_tracks {q : Responded} (h : astepRespond env s = .ok q) : Tracks s.state q.session.state := by
  unfold astepRespond at h
  cases hllm : env.llm with
  | condensation new c | imageUnsupported new text =>
    rw [hllm] at h
    cases h
    exact .refl _
  | functionCallValidation m | contentPolicyViolation m =>
    rw [hllm] at h
    obtain ⟨t, ht, h⟩ := bind_ok h
    cases h
    exact emitUserMessage_tracks (mapError_ok ht)
  | malformedHistory requestId =>
    rw [hllm] at h
    cases requestId with
    | none => cases h
    | some new =>
      obtain ⟨state, hstate, h⟩ := bind_ok h
      obtain ⟨t, ht, h⟩ := bind_ok h
      cases h
      exact (rebuildView_tracks (mapError_ok hstate)).trans (tracks_onEvent (mapError_ok ht))
  | contextWindowExceed requestId =>
    rw [hllm] at h
    cases requestId with
    | none => cases h
    | some new =>
      obtain ⟨t, ht, h⟩ := bind_ok h
      cases h
      exact tracks_onEvent (mapError_ok ht)
  | response r =>
    rw [hllm] at h
    dsimp only at h
    split at h
    · obtain ⟨t, ht, h⟩ := bind_ok h
      cases h
      exact handleMessage_tracks (mapError_ok ht)
    · obtain ⟨⟨t, actions⟩, ht, h⟩ := bind_ok h
      have hcalls := getActionEvents_tracks (mapError_ok ht)
      dsimp only at h
      split at h
      · cases h
        exact hcalls
      · obtain ⟨u, hu, h⟩ := bind_ok h
        cases h
        exact hcalls.trans (decideToolCalls_tracks (mapError_ok hu))

theorem prepare_tracks {half : StepHalf} (h : astepBegin.prepare env s = .ok half) :
    Tracks s.state half.session.state := by
  unfold astepBegin.prepare at h
  cases hllm : env.llm with
  | condensation new c =>
    rw [hllm] at h
    obtain ⟨t, ht, h⟩ := bind_ok h
    cases h
    unfold sample at ht
    obtain ⟨state, hstate, ht⟩ := bind_ok ht
    rw [hllm] at ht
    exact (readView_tracks (mapError_ok hstate)).trans (tracks_onEvent (mapError_ok ht))
  | imageUnsupported new text =>
    rw [hllm] at h
    obtain ⟨t, ht, h⟩ := bind_ok h
    cases h
    unfold sample at ht
    obtain ⟨state, hstate, ht⟩ := bind_ok ht
    rw [hllm] at ht
    obtain ⟨u, hu, ht⟩ := bind_ok ht
    cases ht
    exact ((readView_tracks (mapError_ok hstate)).trans (tracks_onEvent (mapError_ok hu))).trans
      (tracks_setExecutionStatus _ _)
  | _ =>
    rw [hllm] at h
    obtain ⟨state, hstate, h⟩ := bind_ok h
    cases h
    exact readView_tracks (mapError_ok hstate)

theorem astepBegin_tracks {half : StepHalf} (h : astepBegin env s = .ok half) : Tracks s.state half.session.state := by
  unfold astepBegin at h
  obtain ⟨branch, -, h⟩ := bind_ok h
  dsimp only at h
  by_cases hpending : getUnmatchedActions branch ≠ []
  · rw [if_pos hpending] at h
    obtain ⟨t, ht, h⟩ := bind_ok h
    cases h
    exact executeActions_tracks (mapError_ok ht)
  · rw [if_neg hpending] at h
    cases hlast : s.state.lastUserMessageId with
    | none =>
      rw [hlast] at h
      exact prepare_tracks h
    | some id =>
      have hpop := tracks_popBlockedMessage s id
      rw [hlast, Option.map_some] at h
      generalize s.popBlockedMessage id = p at h hpop
      obtain ⟨_ | reason, t⟩ := p
      · exact hpop.trans (prepare_tracks h)
      · cases h
        exact hpop.trans (tracks_setExecutionStatus _ _)

theorem step_tracks (h : step env s = .ok s') : Tracks s.state s'.state := by
  rw [step_eq] at h
  obtain ⟨half, hhalf, h⟩ := bind_ok h
  have hbegin := astepBegin_tracks hhalf
  cases half with
  | done t =>
    cases h
    exact hbegin
  | sampling t =>
    obtain ⟨q, hq, h⟩ := bind_ok h
    have hrespond := hbegin.trans (astepRespond_tracks hq)
    cases q with
    | done u =>
      cases h
      exact hrespond
    | analyzing u actions => exact hrespond.trans (decideToolCalls_tracks (mapError_ok h))

end Agent

/-! ## The conversation around it -/

namespace LocalConversation
open Agent
variable {env : RoundEnv} {s s' : Session}

/-- A message that was sent is the last user message. -/
theorem sendMessage_last {m : MessageRun} (h : sendMessage m s = .ok s') :
    Tracks s.state s'.state ∧ m.id.id ∉ s.state.events.ids ∧ s'.state.lastUserMessageId = some m.id.id := by
  have hemit : ∀ {t : Session}, emitUserMessage m t = .ok s' →
      m.id.id ∉ t.state.events.ids ∧ s'.state.lastUserMessageId = some m.id.id := by
    intro t h
    obtain ⟨u, hu, h⟩ := bind_ok h
    have hooks := tracks_onEvents hu
    cases hb : m.blockReason with
    | none =>
      rw [hb] at h
      obtain ⟨hnew, -, -, hlast⟩ := onEvent_last h
      exact ⟨fun hin => hnew (hooks.ids hin), hlast⟩
    | some reason =>
      rw [hb] at h
      obtain ⟨hnew, -, -, hlast⟩ := onEvent_last h
      exact ⟨fun hin => hnew ((tracks_blockMessage u _ _).ids (hooks.ids hin)), hlast⟩
  unfold sendMessage at h
  split at h
  · have hreset := tracks_setExecutionStatus s .idle
    obtain ⟨hnew, hlast⟩ := hemit h
    exact ⟨hreset.trans (emitUserMessage_tracks h), fun hin => hnew (hreset.ids hin), hlast⟩
  · exact ⟨emitUserMessage_tracks h, hemit h⟩

theorem answerAll_tracks {answer : EventID → ActionEvent → Event} {actions : List Event}
    (h : answerAll answer actions s = .ok s') : Tracks s.state s'.state := by
  induction actions generalizing s with
  | nil =>
    cases h
    exact .refl _
  | cons e es ih =>
    unfold answerAll at h
    cases ha : e.action? with
    | none =>
      rw [ha] at h
      exact ih h
    | some a =>
      rw [ha] at h
      obtain ⟨t, ht, h⟩ := bind_ok h
      exact (tracks_onEvent ht).trans (ih h)

theorem rejectPendingActions_tracks {ids : EventID → NewId} {reason : String}
    (h : rejectPendingActions ids reason s = .ok s') : Tracks s.state s'.state := by
  obtain ⟨branch, -, h⟩ := bind_ok h
  change answerAll _ _ (if _ then _ else s) = _ at h
  split at h
  · exact (tracks_setExecutionStatus s _).trans (answerAll_tracks h)
  · exact answerAll_tracks h

theorem interrupted_tracks {ids : EventID → NewId} {new : NewId} (h : interrupted ids new s = .ok s') :
    Tracks s.state s'.state := by
  obtain ⟨t, ht, h⟩ := bind_ok h
  obtain ⟨branch, -, ht⟩ := bind_ok ht
  exact ((answerAll_tracks ht).trans (tracks_setExecutionStatus t _)).trans (tracks_onEvent h)

theorem pause_tracks {new : NewId} (h : pause new s = .ok s') : Tracks s.state s'.state := by
  unfold pause at h
  split at h
  · exact (tracks_setExecutionStatus s _).trans (tracks_onEvent h)
  · cases h
    exact .refl _

theorem fail_tracks {new : NewId} {code : String} (h : fail new code s = .ok s') : Tracks s.state s'.state :=
  (tracks_setExecutionStatus s _).trans (tracks_onEvent h)

theorem checkStuckOrNudge_tracks {stuck : Bool} (h : checkStuckOrNudge env s = .ok (s', stuck)) :
    Tracks s.state s'.state := by
  unfold checkStuckOrNudge at h
  split at h
  · cases h
    exact .refl _
  · obtain ⟨t, ht, h⟩ := bind_ok h
    cases h
    exact tracks_onEvent ht
  · cases h
    exact tracks_setExecutionStatus s _

theorem startRound_tracks {r : RoundStart} (h : startRound env s = .ok r) : Tracks s.state r.session.state := by
  unfold startRound at h
  split at h
  · cases h
    exact .refl _
  · cases h
    exact .refl _
  · split at h
    · obtain ⟨t, ht, h⟩ := bind_ok h
      cases h
      exact (tracks_onEvents ht).trans (tracks_setExecutionStatus t _)
    · cases h
      exact .refl _
  · obtain ⟨⟨t, stuck⟩, ht, h⟩ := bind_ok h
    have hcheck := checkStuckOrNudge_tracks ht
    dsimp only at h
    split at h
    · cases h
      exact hcheck
    · cases h
      dsimp only [RoundStart.session]
      split
      · exact hcheck.trans (tracks_setExecutionStatus t _)
      · exact hcheck

theorem checkLimits_tracks {max n : Nat} {finished again : Bool} (h : checkLimits env max n finished s = .ok (s', again)) :
    Tracks s.state s'.state := by
  unfold checkLimits at h
  split at h
  · cases h
    exact .refl _
  · split at h
    · obtain ⟨t, ht, h⟩ := bind_ok h
      cases h
      exact fail_tracks ht
    · split at h
      · split at h
        · cases h
          exact .refl _
        · obtain ⟨t, ht, h⟩ := bind_ok h
          cases h
          exact fail_tracks ht
      · cases h
        exact .refl _

theorem finishRound_tracks {max n : Nat} {last : Option EventID} {again : Bool}
    (h : finishRound env max n last s = .ok (s', again)) : Tracks s.state s'.state := by
  -- What follows the rejection, if there was one.
  have hrest : ∀ t : Session, Tracks s.state t.state →
      (if max ≤ n then .ok (t.setExecutionStatus .idle, false)
        else checkLimits env max n (s.state.executionStatus = .finished) (t.setExecutionStatus .running)) =
          .ok (s', again) → Tracks s.state s'.state := by
    intro t ht h
    split at h
    · cases h
      exact ht.trans (tracks_setExecutionStatus t _)
    · exact (ht.trans (tracks_setExecutionStatus t _)).trans (checkLimits_tracks h)
  unfold finishRound at h
  dsimp only at h
  split at h
  · split at h
    · obtain ⟨t, ht, h⟩ := bind_ok h
      exact hrest t (rejectPendingActions_tracks ht) h
    · exact hrest s (.refl _) h
  · exact checkLimits_tracks h

end LocalConversation

end AgentSdk
