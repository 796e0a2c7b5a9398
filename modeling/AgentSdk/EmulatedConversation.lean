import AgentSdk.Agent
import AgentSdk.Condenser
import AgentSdk.EmulatedCalls
import AgentSdk.FunctionCallRoundTrip
import AgentSdk.Lib.Runs
/-!
# Conversations with emulated calls

The agent and its condenser over one conversation whose model has no native
tool calling: requests, results, condensations and rebuilds of the view. Ids
of calls are numbers of the view that was sent, so a condensation that keeps a
call with a high number makes later calls take its id again.
-/

namespace AgentSdk
open Lib

/-! ## State and steps -/

/-- The events and the cached view. `answers` is not in the source: it records
which result was given to which call. -/
structure EmulatedConversation where
  events : List Event := []
  view : View := {}
  answers : List (EventID × EventID) := []

/-- A response, and the ids and the parsed call that the agent makes of it.
`id` is the provider's id of the completion. -/
structure EmulatedResponse (F : Type) where
  tools : List (FunctionTool F)
  asList : Bool
  id : EventID
  content : Option Text
  parsed : ParsedCall
  eventId : NewId
  errorId : NewId

inductive EmulatedOp (F : Type) where
  | respond (r : EmulatedResponse F)
  | answer (actionId : EventID) (new : NewId) (kind : ObservationKind)
  /-- A condenser forgets `events[start:stop]` of the view. -/
  | condense (new : NewId) (start stop : Nat) (summary : Option String)
  /-- Messages of the user, the system prompt and whatever is not sent. -/
  | other (e : Event)
  | rebuild

def Event.isCondensation (e : Event) : Bool :=
  match e.body with
  | .condensation _ => true
  | _ => false

namespace EmulatedConversation

/-- A generated id: no event has it, and no summary has or will have an event's id. -/
def NewIn (events : List Event) (id : EventID) : Prop :=
  id ∉ events.map Event.id ∧ summaryId id ∉ events.map Event.id ∧ id ∉ events.map fun e => summaryId e.id

instance NewIn.decidable (events : List Event) (id : EventID) : Decidable (NewIn events id) := by
  unfold NewIn; infer_instance

def responseIds (events : List Event) : List EventID := events.filterMap fun e => e.action?.map ActionEvent.llmResponseId

def append (s : EmulatedConversation) (e : Event) : Option EmulatedConversation :=
  if NewIn s.events e.id then some { s with events := s.events ++ [e], view := s.view.appendEvent e } else none

/-- The result `o` of the call `e`. -/
def appendAnswer (s : EmulatedConversation) (e o : Event) : Option EmulatedConversation :=
  append { s with answers := (o.id, e.id) :: s.answers } o

/-- The text of a content, as `Message.from_llm_chat_message` takes it. -/
def contentTexts : Content → List String
  | .text t => [String.ofList t]
  | .parts _ => []

/-- The `ActionEvent` of the response's call. -/
def callEvent {F : Type} (r : EmulatedResponse F) (content : Content) (call : MessageToolCall)
    (action : Option Action) (toolName : String) : Event :=
  r.eventId.event <| .action
    { thought := contentTexts content, action, toolName, toolCall := call, toolCallId := call.id, llmResponseId := r.id }

def resultEvent (new : NewId) (toolName : String) (call : ToolCallID) (kind : ObservationKind) : Event :=
  new.event <| .observation { toolName, toolCallId := call, kind }

/-- A call that does not validate is answered at once. -/
def storeCall {F : Type} (s : EmulatedConversation) (r : EmulatedResponse F) (content : Content) (id : Text)
    (function : FunctionChunk) : Option EmulatedConversation :=
  let call (arguments : String) : MessageToolCall := ⟨String.ofList id, String.ofList function.name, arguments⟩
  match r.parsed with
  | .valid action toolName arguments => s.append (callEvent r content (call arguments) (some action) toolName)
  | .invalid error displayName arguments => do
    let e := callEvent r content (call arguments) none (call arguments).name
    let s ← s.append e
    s.appendAnswer e (resultEvent r.errorId displayName (call arguments).id (.agentError error))

def messageEvent {F : Type} (r : EmulatedResponse F) : Event :=
  r.eventId.event <| .message
    { source := .agent
      llmMessage := { role := .assistant, content := r.content.toList.map String.ofList }
      notTool := assistant_ne_tool
      noCalls := fun _ => rfl }

section
variable {F : Type} [PyFloat F]

/-- A request and its response. Nothing is stored when the request cannot be
written or the response does not parse. -/
def respond (s : EmulatedConversation) (r : EmulatedResponse F) : Option EmulatedConversation :=
  if getUnmatchedActions s.events ≠ [] ∨ r.id ∈ responseIds s.events then none
  else do
    let prompt ← toPrompt F r.asList s.view.events
    match ← (postResponsePromptMock r.tools prompt r.content).toOption with
    | .unchanged => s.append (messageEvent r)
    | .call content id function => s.storeCall r content id function

/-- A result for a call that waits for one. -/
def answer (s : EmulatedConversation) (actionId : EventID) (new : NewId) (kind : ObservationKind) :
    Option EmulatedConversation := do
  let e ← (getUnmatchedActions s.events).find? (·.id = actionId)
  let a ← e.action?
  let o := resultEvent new a.toolName a.toolCallId kind
  if o.answers e then s.appendAnswer e o else none

/-- `events[start:stop]` is forgotten, between two manipulation indices. -/
def condense (s : EmulatedConversation) (new : NewId) (start stop : Nat) (summary : Option String) :
    Option EmulatedConversation :=
  if getUnmatchedActions s.events = [] ∧ start ≤ stop ∧ start ∈ s.view.manipulationIndices ∧
      stop ∈ s.view.manipulationIndices then
    s.append <| new.event <| .condensation
      { forgottenEventIds := ((s.view.events.take stop).drop start).map Event.id, summary, summaryOffset := some start }
  else none

/-- Neither call nor result nor condensation, and no text of the agent that reads as a call. -/
def IsOther (e : Event) : Prop := e.isToolEvent = false ∧ e.isCondensation = false ∧ e.ShowsNoCall

instance IsOther.decidable (e : Event) : Decidable (IsOther e) := by unfold IsOther; infer_instance

def step (s : EmulatedConversation) : EmulatedOp F → Option EmulatedConversation
  | .respond r => s.respond r
  | .answer actionId new kind => s.answer actionId new kind
  | .condense new start stop summary => s.condense new start stop summary
  | .other e => if IsOther e then s.append e else none
  | .rebuild => some { s with view := View.fromEvents s.events }

end

/-! ## Call numbers stay apart -/

open ToolCallMatching

/-- What stays when `events[start:stop]` goes. -/
def kept (s : EmulatedConversation) (start stop : Nat) : List Event := s.view.events.take start ++ s.view.events.drop stop

/-- A condensation keeps no call with a number above the number of the calls it
keeps, and the view is not rebuilt while a call waits for its result. -/
def Allowed {F : Type} (s : EmulatedConversation) : EmulatedOp F → Prop
  | .condense _ start stop _ =>
    ∀ id ∈ actionToolCallIds (s.kept start stop), callNumber id ≤ (actionToolCallIds (s.kept start stop)).length
  | .rebuild => getUnmatchedActions s.events = []
  | _ => True

instance Allowed.decidable {F : Type} (s : EmulatedConversation) (op : EmulatedOp F) : Decidable (s.Allowed op) := by
  cases op <;> unfold Allowed <;> infer_instance

/-- The next call gets an id that no call and no result of the view has, each
call of the view has its own result or waits for it, and no result is dropped. -/
structure KeepsCallsApart (F : Type) [PyFloat F] (s : EmulatedConversation) : Prop where
  fresh : ∀ (tools : List (FunctionTool F)) asList prompt response content id function,
    toPrompt F asList s.view.events = some prompt →
    postResponsePromptMock tools prompt response = .ok (.call content id function) →
    String.ofList id ∉ actionToolCallIds s.view.events ∧ String.ofList id ∉ observationToolCallIds s.view.events
  paired : ∀ e ∈ s.view.events, ∀ a, e.action? = some a →
    e ∈ getUnmatchedActions s.events ∧ a.toolCallId ∉ observationToolCallIds s.view.events ∨
      ∃ o ∈ s.view.events, o.observes a.toolCallId = true ∧ (o.id, e.id) ∈ s.answers ∧
        ∀ o' ∈ s.view.events, o'.observes a.toolCallId = true → o' = o
  dropsNone : ObservationUniqueness.enforce s.view.events s.events = [] ∧
    ObservationUniqueness.enforce (View.rawEvents s.events) s.events = []

/-! ## The invariant -/

/-- Without reference to which calls wait: the view is the fold of the events,
calls are numbered within their count, and each result belongs to its call. -/
structure Consistent (s : EmulatedConversation) : Prop where
  sync : s.view.events = View.rawEvents s.events
  ids : (s.events.map Event.id).Nodup
  summaries : ∀ e ∈ s.events, ∀ f ∈ s.events, e.id ≠ summaryId f.id
  viewIds : (s.view.events.map Event.id).Nodup
  noLoops : ∀ e ∈ s.events, ∀ a, e.action? = some a → a.thinkingBlocks = []
  responses : (responseIds s.events).Nodup
  countable : ∀ e ∈ s.events, e.Countable
  numbered : ∀ id ∈ actionToolCallIds s.view.events, ∃ k, k ≤ (actionToolCallIds s.view.events).length ∧
    id = String.ofList (emulatedId k)
  calls : (actionToolCallIds s.view.events).Nodup
  results : (observationToolCallIds s.view.events).Nodup
  after : s.view.events.Pairwise fun e f => ∀ id, e.observes id = true → f.requests id = false
  requested : ∀ o ∈ s.view.events, ∀ id, o.observes id = true →
    ∃ e ∈ s.view.events, e.requests id = true ∧ (o.id, e.id) ∈ s.answers

/-- A call of the view without a result in it. -/
def Unanswered (view : List Event) (x : Event) : Prop :=
  x ∈ view ∧ ∃ id, x.requests id = true ∧ id ∉ observationToolCallIds view

/-- The calls that wait for a result are those that the agent still runs. -/
def WaitsRight (s : EmulatedConversation) : Prop :=
  ∀ e, e ∈ getUnmatchedActions s.events ↔ Unanswered s.view.events e

theorem length_toolCalls (view : List Event) : (toolCalls view).length = (actionToolCallIds view).length := by
  have hids : actionToolCallIds view = (toolCalls view).map (·.id) := by
    rw [actionToolCallIds, toolCalls, List.map_filterMap]
    refine List.filterMap_congr fun e _ => ?_
    cases e.action? with
    | none => rfl
    | some a => exact congrArg some a.callId
  rw [hids, List.length_map]

/-- With distinct values, a value belongs to one element. -/
theorem eq_of_nodup_filterMap {α β : Type _} {f : α → Option β} {l : List α} (h : (l.filterMap f).Nodup) {a b : α}
    (ha : a ∈ l) (hb : b ∈ l) {v : β} (hfa : f a = some v) (hfb : f b = some v) : a = b := by
  by_contra hne
  have hp := List.pairwise_filterMap.1 h
  have : Std.Symm (fun a a' => ∀ b, f a = some b → ∀ b', f a' = some b' → b ≠ b') :=
    ⟨fun _ _ hd b hb b' hb' heq => hd b' hb' b hb heq.symm⟩
  exact hp.forall ha hb hne v hfa v hfb rfl

section Facts
variable {s : EmulatedConversation}

theorem Consistent.mem_view (h : Consistent s) {x : Event} (hx : x ∈ s.view.events) :
    x ∈ s.events ∨ ∃ e ∈ s.events, ∃ c, x = Condensation.summaryEvent e.id c := by
  rw [h.sync] at hx
  rcases mem_ids_rawEvents hx with hx | ⟨e, he, -, text, -, -, rfl⟩
  · exact .inl hx
  · exact .inr ⟨e, he, text, rfl⟩

theorem summaryEvent_countable (id : EventID) (text : String) : (Condensation.summaryEvent id text).Countable := by
  refine ⟨fun a ha => ?_, fun _ m hm hr => ?_⟩
  · cases ha
  · cases hm
    cases hr

theorem Consistent.view_countable (h : Consistent s) : ∀ x ∈ s.view.events, x.Countable := by
  intro x hx
  rcases h.mem_view hx with hx | ⟨e, -, text, rfl⟩
  · exact h.countable x hx
  · exact summaryEvent_countable _ _

/-- Two calls of one id are one event. -/
theorem Consistent.call_unique (h : Consistent s) {e f : Event} (he : e ∈ s.view.events) (hf : f ∈ s.view.events)
    {id : ToolCallID} (heid : e.requests id = true) (hfid : f.requests id = true) : e = f := by
  obtain ⟨a, ha, rfl⟩ := Event.requests_iff.1 heid
  obtain ⟨b, hb, hid⟩ := Event.requests_iff.1 hfid
  refine eq_of_nodup_filterMap h.calls he hf (by rw [ha]; rfl) ?_
  rw [hb, Option.map_some, hid]

/-- The number of the next call is not in use. -/
theorem Consistent.fresh (h : Consistent s) {id : ToolCallID}
    (hid : id = String.ofList (emulatedId ((toolCalls s.view.events).length + 1))) :
    id ∉ actionToolCallIds s.view.events ∧ id ∉ observationToolCallIds s.view.events := by
  have hcalls : id ∉ actionToolCallIds s.view.events := by
    intro hmem
    obtain ⟨k, hk, hidk⟩ := h.numbered id hmem
    rw [length_toolCalls] at hid
    have heq := emulatedId_inj (hid.symm.trans hidk)
    omega
  refine ⟨hcalls, fun hmem => hcalls ?_⟩
  obtain ⟨o, ho, hobs⟩ := mem_observationToolCallIds.1 hmem
  obtain ⟨e, he, hreq, -⟩ := h.requested o ho id hobs
  exact mem_actionToolCallIds.2 ⟨e, he, hreq⟩

theorem NewIn.not_mem_view (h : Consistent s) {id : EventID} (hnew : NewIn s.events id) :
    id ∉ s.view.events.map Event.id := by
  intro hmem
  obtain ⟨x, hx, rfl⟩ := List.mem_map.1 hmem
  rcases h.mem_view hx with hx | ⟨e, he, text, rfl⟩
  · exact hnew.1 (List.mem_map_of_mem hx)
  · exact hnew.2.2 (List.mem_map_of_mem (f := fun e => summaryId e.id) he)

theorem summaryId_inj {i j : EventID} (h : summaryId i = summaryId j) : i = j := by
  have hlist := congrArg String.toList h
  simp only [summaryId, String.toList_append] at hlist
  exact String.toList_inj.1 (List.append_cancel_right hlist)

theorem summaryId_ne (i : EventID) : i ≠ summaryId i := by
  intro h
  have hlen := congrArg String.length h
  have h8 : "-summary".length = 8 := by decide
  rw [summaryId, String.length_append, h8] at hlen
  omega

theorem nodup_append_new {ids : List EventID} (hids : ids.Nodup) {id : EventID} (hid : id ∉ ids) : (ids ++ [id]).Nodup := by
  refine List.nodup_append.2 ⟨hids, List.nodup_singleton _, ?_⟩
  rintro x hx _ hy rfl
  exact hid (List.mem_singleton.1 hy ▸ hx)

theorem Consistent.summaries_append (h : Consistent s) {e : Event} (hnew : NewIn s.events e.id) :
    ∀ x ∈ s.events ++ [e], ∀ f ∈ s.events ++ [e], x.id ≠ summaryId f.id := by
  rw [List.forall_mem_append]
  simp only [List.forall_mem_append, List.forall_mem_singleton]
  refine ⟨fun x hx => ⟨h.summaries x hx, fun heq => hnew.2.1 ?_⟩, fun f hf heq => hnew.2.2 ?_, summaryId_ne _⟩
  · exact heq ▸ List.mem_map_of_mem hx
  · exact heq ▸ List.mem_map_of_mem (f := fun e => summaryId e.id) hf

end Facts

/-! ## Appending an event -/

section Append
variable {s : EmulatedConversation} {e : Event}

/-- What an appended event must be for the invariant: a call of the next
number, the result of a call without one, or neither. -/
structure Appendable (s : EmulatedConversation) (e : Event) (answers : List (EventID × EventID)) : Prop where
  new : NewIn s.events e.id
  notCondensation : e.isCondensation = false
  countable : e.Countable
  call : ∀ a, e.action? = some a → a.thinkingBlocks = [] ∧ a.llmResponseId ∉ responseIds s.events ∧
    a.toolCallId = String.ofList (emulatedId ((toolCalls s.view.events).length + 1))
  result : ∀ id, e.observes id = true → id ∉ observationToolCallIds s.view.events ∧
    ∃ c ∈ s.view.events, c.requests id = true ∧ (e.id, c.id) ∈ answers
  kept : s.answers ⊆ answers

theorem appendRaw_of_not_condensation (he : e.isCondensation = false) (view : List Event) :
    View.appendRaw view e = if e.isLLMConvertible then view ++ [e] else view := by
  unfold Event.isCondensation at he
  unfold View.appendRaw
  cases hb : e.body with
  | condensation c => simp [hb] at he
  | _ => rfl

theorem actionToolCallIds_snoc (view : List Event) (e : Event) :
    actionToolCallIds (view ++ [e]) = actionToolCallIds view ++ (e.action?.map ActionEvent.toolCallId).toList := by
  rw [actionToolCallIds, List.filterMap_append]
  cases h : e.action? <;> simp [actionToolCallIds, h]

theorem observationToolCallIds_snoc (view : List Event) (e : Event) :
    observationToolCallIds (view ++ [e]) =
      observationToolCallIds view ++ (e.observation?.map ObservationBaseEvent.toolCallId).toList := by
  rw [observationToolCallIds, List.filterMap_append]
  cases h : e.observation? <;> simp [observationToolCallIds, h]

theorem observationToolCallIds_of_action {view : List Event} {a : ActionEvent} (ha : e.action? = some a) :
    observationToolCallIds (view ++ [e]) = observationToolCallIds view := by
  rw [observationToolCallIds_snoc, Event.observation?_of_action ha]
  exact List.append_nil _

/-- The step lemma of the invariant. -/
theorem Consistent.append (h : Consistent s) {answers : List (EventID × EventID)} (ha : Appendable s e answers) :
    Consistent ⟨s.events ++ [e], s.view.appendEvent e, answers⟩ := by
  have hraw : (s.view.appendEvent e).events = View.appendRaw s.view.events e := rfl
  have hresponses : (responseIds (s.events ++ [e])).Nodup := by
    rw [responseIds, List.filterMap_append]
    cases hact : e.action? with
    | none => simpa [hact, responseIds] using h.responses
    | some a =>
      have hnew := nodup_append_new h.responses (ha.call a hact).2.1
      simpa [hact, responseIds] using hnew
  have hloops : ∀ x ∈ s.events ++ [e], ∀ a, x.action? = some a → a.thinkingBlocks = [] :=
    List.forall_mem_append.2 ⟨h.noLoops, by simpa using fun a hact => (ha.call a hact).1⟩
  have hcount : ∀ x ∈ s.events ++ [e], x.Countable := List.forall_mem_append.2 ⟨h.countable, by simpa using ha.countable⟩
  have hids : ((s.events ++ [e]).map Event.id).Nodup := by
    rw [List.map_append]
    exact nodup_append_new h.ids ha.new.1
  have hsync : (s.view.appendEvent e).events = View.rawEvents (s.events ++ [e]) := by
    rw [hraw, rawEvents_snoc, h.sync]
  have hsum := h.summaries_append ha.new
  -- An event that the LLM is not shown leaves the view as it is.
  rw [appendRaw_of_not_condensation ha.notCondensation] at hraw
  cases hconv : e.isLLMConvertible with
  | false =>
    rw [hconv, if_neg Bool.false_ne_true] at hraw
    refine ⟨hsync, hids, hsum, ?_, hloops, hresponses, hcount, ?_, ?_, ?_, ?_, ?_⟩
    all_goals simp only [hraw]
    · exact h.viewIds
    · exact h.numbered
    · exact h.calls
    · exact h.results
    · exact h.after
    · intro o ho id hobs
      obtain ⟨c, hc, hreq, hmem⟩ := h.requested o ho id hobs
      exact ⟨c, hc, hreq, ha.kept hmem⟩
  | true =>
    rw [hconv, if_pos rfl] at hraw
    refine ⟨hsync, hids, hsum, ?_, hloops, hresponses, hcount, ?_, ?_, ?_, ?_, ?_⟩
    all_goals simp only [hraw]
    · rw [List.map_append]
      exact nodup_append_new h.viewIds (ha.new.not_mem_view h)
    · rw [actionToolCallIds_snoc]
      cases hact : e.action? with
      | none => simpa using h.numbered
      | some a =>
        intro id hid
        rw [Option.map_some, Option.toList_some, List.length_append, List.length_singleton]
        rcases List.mem_append.1 hid with hid | hid
        · obtain ⟨k, hk, hidk⟩ := h.numbered id hid
          exact ⟨k, by omega, hidk⟩
        · refine ⟨_, ?_, (List.mem_singleton.1 hid).trans (ha.call a hact).2.2⟩
          rw [length_toolCalls]
    · rw [actionToolCallIds_snoc]
      cases hact : e.action? with
      | none => simpa using h.calls
      | some a => exact nodup_append_new h.calls (h.fresh (ha.call a hact).2.2).1
    · rw [observationToolCallIds_snoc]
      cases hobs : e.observation? with
      | none => simpa using h.results
      | some o => exact nodup_append_new h.results (ha.result _ (Event.observes_iff.2 ⟨o, hobs, rfl⟩)).1
    · refine List.pairwise_append.2 ⟨h.after, List.pairwise_singleton _ _, fun x hx f hf id hobs => ?_⟩
      rw [List.mem_singleton.1 hf, ← Bool.not_eq_true]
      intro hreq
      -- The id of a new call is no result's.
      obtain ⟨a, hact, rfl⟩ := Event.requests_iff.1 hreq
      exact (h.fresh (ha.call a hact).2.2).2 (mem_observationToolCallIds.2 ⟨x, hx, hobs⟩)
    · intro o ho id hobs
      rcases List.mem_append.1 ho with ho | ho
      · obtain ⟨c, hc, hreq, hmem⟩ := h.requested o ho id hobs
        exact ⟨c, List.mem_append_left _ hc, hreq, ha.kept hmem⟩
      · rw [List.mem_singleton.1 ho] at hobs ⊢
        obtain ⟨-, c, hc, hreq, hmem⟩ := ha.result id hobs
        exact ⟨c, List.mem_append_left _ hc, hreq, hmem⟩

/-! ### Which calls wait -/

theorem mem_getUnmatchedActions_snoc {events : List Event} {x : Event} : x ∈ getUnmatchedActions (events ++ [e]) ↔
    x ∈ getUnmatchedActions events ∧ e.answers x = false ∨ x = e ∧ e.isExecutable = true := by
  rw [getUnmatchedActions_append, List.mem_append, List.mem_filter, getUnmatchedActions_cons]
  cases hx : e.isExecutable <;> simp

theorem unanswered_snoc {view : List Event} {x : Event} : Unanswered (view ++ [e]) x ↔
    (x ∈ view ∨ x = e) ∧ ∃ id, x.requests id = true ∧ id ∉ observationToolCallIds view ∧ e.observes id = false := by
  have hobs : ∀ id, id ∉ observationToolCallIds (view ++ [e]) ↔
      id ∉ observationToolCallIds view ∧ e.observes id = false := by
    intro id
    simp only [mem_observationToolCallIds, List.mem_append, List.mem_singleton, not_exists, not_and, Bool.not_eq_true]
    exact ⟨fun h => ⟨fun o ho => h o (.inl ho), h e (.inr rfl)⟩,
      fun h o ho => ho.elim (h.1 o) fun heq => heq ▸ h.2⟩
  simp only [Unanswered, List.mem_append, List.mem_singleton, hobs]

theorem answers_eq_false {x : Event} (he : e.observation? = none) : e.answers x = false := by
  unfold Event.observation? at he
  unfold Event.answers
  cases hb : e.body <;> simp_all

theorem observes_eq_false {id : ToolCallID} (he : e.observation? = none) : e.observes id = false := by
  simp [Event.observes, he]

theorem requests_eq_false {id : ToolCallID} (he : e.action? = none) : e.requests id = false := by
  simp [Event.requests, he]

theorem isExecutable_eq_false (he : e.action? = none) : e.isExecutable = false := by
  rw [← Bool.not_eq_true, Event.isExecutable_iff, he]
  simp

/-- Another event changes nothing about calls. -/
theorem WaitsRight.other (h : WaitsRight s) {answers : List (EventID × EventID)} (hc : e.isCondensation = false)
    (hcall : e.action? = none) (hobs : e.observation? = none) :
    WaitsRight ⟨s.events ++ [e], s.view.appendEvent e, answers⟩ := by
  intro x
  have hraw : (s.view.appendEvent e).events = if e.isLLMConvertible then s.view.events ++ [e] else s.view.events :=
    appendRaw_of_not_condensation hc s.view.events
  have hsame : Unanswered (s.view.events ++ [e]) x ↔ Unanswered s.view.events x := by
    rw [unanswered_snoc, Unanswered]
    simp only [observes_eq_false hobs, and_true]
    refine ⟨fun ⟨hx, id, hreq, hid⟩ => ⟨hx.resolve_right fun heq => ?_, id, hreq, hid⟩, fun ⟨hx, hid⟩ => ⟨.inl hx, hid⟩⟩
    rw [heq, requests_eq_false hcall] at hreq
    cases hreq
  have hview : Unanswered (s.view.appendEvent e).events x ↔ Unanswered s.view.events x := by
    rw [hraw]
    split
    · exact hsame
    · exact Iff.rfl
  rw [mem_getUnmatchedActions_snoc, answers_eq_false hobs, isExecutable_eq_false hcall]
  simp only [and_true, Bool.false_eq_true, and_false, or_false]
  exact (h x).trans hview.symm

/-- Of the calls but one, those wait that the agent still runs. -/
def WaitsRightBut (s : EmulatedConversation) (c : Event) : Prop :=
  ∀ x, x ≠ c → (x ∈ getUnmatchedActions s.events ↔ Unanswered s.view.events x)

theorem WaitsRight.call (h : WaitsRight s) {answers : List (EventID × EventID)} {a : ActionEvent}
    (hcall : e.action? = some a) : WaitsRightBut ⟨s.events ++ [e], s.view.appendEvent e, answers⟩ e := by
  intro x hx
  have hobs := Event.observation?_of_action hcall
  have hraw : (s.view.appendEvent e).events = s.view.events ++ [e] := by
    have hb := Event.action?_eq_some.1 hcall
    simp [View.appendEvent, View.appendRaw, hb, Event.isLLMConvertible]
  rw [mem_getUnmatchedActions_snoc, answers_eq_false hobs, hraw, unanswered_snoc]
  simp only [hx, or_false, false_and, and_true, observes_eq_false hobs]
  exact h x

/-- An executable call waits. -/
theorem WaitsRight.executable (h : WaitsRight s) {answers : List (EventID × EventID)} {a : ActionEvent}
    (hcall : e.action? = some a) (hexec : e.isExecutable = true)
    (hnew : a.toolCallId ∉ observationToolCallIds s.view.events) :
    WaitsRight ⟨s.events ++ [e], s.view.appendEvent e, answers⟩ := by
  intro x
  by_cases hx : x = e
  · subst hx
    have hobs := Event.observation?_of_action hcall
    have hraw : (s.view.appendEvent x).events = s.view.events ++ [x] := by
      have hb := Event.action?_eq_some.1 hcall
      simp [View.appendEvent, View.appendRaw, hb, Event.isLLMConvertible]
    have hun : Unanswered (s.view.events ++ [x]) x :=
      unanswered_snoc.2 ⟨.inr rfl, a.toolCallId, Event.requests_iff.2 ⟨a, hcall, rfl⟩, hnew, observes_eq_false hobs⟩
    rw [← hraw] at hun
    exact iff_of_true (mem_getUnmatchedActions_snoc.2 (.inr ⟨rfl, hexec⟩)) hun
  · exact h.call hcall x hx

/-- The call that is answered waits no longer. -/
theorem WaitsRightBut.answer {c : Event} (hs : Consistent s) (h : WaitsRightBut s c)
    {answers : List (EventID × EventID)} (hc : c ∈ s.view.events) {id : ToolCallID} (hcid : c.requests id = true)
    (hobs : e.observes id = true) (hans : e.answers c = true) :
    WaitsRight ⟨s.events ++ [e], s.view.appendEvent e, answers⟩ := by
  obtain ⟨o, ho, rfl⟩ := Event.observes_iff.1 hobs
  have hcall := Event.action?_of_observation ho
  have hraw : (s.view.appendEvent e).events = s.view.events ++ [e] := by
    have hb := Event.observation?_eq_some.1 ho
    simp [View.appendEvent, View.appendRaw, hb, Event.isLLMConvertible]
  have hid : ∀ i, e.observes i = true ↔ o.toolCallId = i := by
    intro i
    simp [Event.observes_iff, ho]
  obtain ⟨a, ha, hca⟩ := Event.requests_iff.1 hcid
  have hcall_mem : ∀ {x : Event} {b : ActionEvent}, x ∈ s.view.events → x.action? = some b → x ∈ s.events := by
    intro x b hx hb
    rcases hs.mem_view hx with hx | ⟨_, _, _, rfl⟩
    · exact hx
    · cases hb
  -- The result answers no other call of the view.
  have hother : ∀ x ∈ s.view.events, ∀ i, x.requests i = true → x ≠ c → e.answers x = false ∧ e.observes i = false := by
    intro x hx i hreq hne
    obtain ⟨b, hb, rfl⟩ := Event.requests_iff.1 hreq
    have hi : e.observes b.toolCallId = false := by
      rw [← Bool.not_eq_true, hid]
      intro heq
      exact hne (hs.call_unique hx hc (heq ▸ hreq) hcid)
    refine ⟨?_, hi⟩
    rw [← Bool.not_eq_true]
    intro hx_ans
    have hbody := Event.observation?_eq_some.1 ho
    unfold Event.answers at hx_ans hans
    simp only [hbody] at hx_ans hans
    cases hk : o.kind with
    | agentError error =>
      rw [hk] at hx_ans
      simp only [Event.toolCallId?, Event.action?_eq_some.1 hb, decide_eq_true_eq, Option.some.injEq] at hx_ans
      rw [(hid _).2 hx_ans.symm] at hi
      cases hi
    | _ =>
      rw [hk] at hx_ans hans
      simp only [decide_eq_true_eq] at hx_ans hans
      refine hne (List.inj_on_of_nodup_map hs.ids (hcall_mem hx hb) (hcall_mem hc ha) ?_)
      rw [hx_ans, hans]
  intro x
  show x ∈ getUnmatchedActions (s.events ++ [e]) ↔ Unanswered (s.view.appendEvent e).events x
  rw [mem_getUnmatchedActions_snoc, isExecutable_eq_false hcall, hraw, unanswered_snoc]
  simp only [Bool.false_eq_true, and_false, or_false]
  have hxe : ∀ {i}, x.requests i = true → x ≠ e := by
    rintro i hreq rfl
    rw [requests_eq_false hcall] at hreq
    cases hreq
  -- The call that is answered waits no more; for any other nothing changes.
  by_cases hxc : x = c
  · subst hxc
    refine iff_of_false (fun hmem => ?_) ?_
    · rw [hans] at hmem
      cases hmem.2
    · rintro ⟨-, i, hreq, -, hi⟩
      obtain ⟨b, hb, rfl⟩ := Event.requests_iff.1 hreq
      rw [ha] at hb
      cases hb
      rw [(hid _).2 hca.symm] at hi
      cases hi
  · constructor
    · rintro ⟨hmem, -⟩
      obtain ⟨hx, i, hreq, hi⟩ := (h x hxc).1 hmem
      exact ⟨.inl hx, i, hreq, hi, (hother x hx i hreq hxc).2⟩
    · rintro ⟨hx, i, hreq, hi, -⟩
      have hx := hx.resolve_right (hxe hreq)
      exact ⟨(h x hxc).2 ⟨hx, i, hreq, hi⟩, (hother x hx i hreq hxc).1⟩

end Append

/-! ## Cutting the view -/

section Cut
variable {s : EmulatedConversation}

/-- Actions without thinking blocks open no loop. -/
theorem toolLoopsFrom_eq_nil {events : List Event}
    (h : ∀ e ∈ events, ∀ a, e.action? = some a → a.thinkingBlocks = []) :
    ToolLoopAtomicity.toolLoopsFrom none events = [] := by
  induction events with
  | nil => rfl
  | cons e events ih =>
    obtain ⟨he, hevents⟩ := List.forall_mem_cons.1 h
    have hmove : ToolLoopAtomicity.move e ≠ .start := by
      unfold ToolLoopAtomicity.move
      cases hb : e.body with
      | action a => simp [he a (Event.action?_eq_some.2 hb)]
      | _ => simp
    rw [ToolLoopAtomicity.toolLoopsFrom]
    cases hm : ToolLoopAtomicity.move e with
    | start => exact absurd hm hmove
    | stay => exact ih hevents
    | exit => exact ih hevents

theorem Consistent.action_mem (h : Consistent s) {x : Event} (hx : x ∈ s.view.events) {a : ActionEvent}
    (ha : x.action? = some a) : x ∈ s.events := by
  rcases h.mem_view hx with hx | ⟨_, _, _, rfl⟩
  · exact hx
  · cases ha

/-- Each response has one call. -/
theorem Consistent.response_unique (h : Consistent s) {x y : Event} (hx : x ∈ s.events) (hy : y ∈ s.events)
    (hs : BatchAtomicity.sameBatch x y = true) : x = y := by
  unfold BatchAtomicity.sameBatch at hs
  cases ha : x.action? with
  | none => simp [ha] at hs
  | some a =>
    cases hb : y.action? with
    | none => simp [ha, hb] at hs
    | some b =>
      have hr : a.llmResponseId = b.llmResponseId := by simpa [ha, hb] using hs
      refine eq_of_nodup_filterMap h.responses hx hy (by rw [ha]; rfl) ?_
      rw [hb, hr]
      rfl

/-- With all calls answered, no property drops anything. -/
theorem Consistent.closed (h : Consistent s) (hw : WaitsRight s) (hnone : getUnmatchedActions s.events = []) :
    Closed s.events s.view.events := by
  refine ⟨h.results, fun e he a ha id => ?_, fun e he id hreq => ?_, fun o ho id hobs => ?_, fun e he l hl => ?_⟩
  · rw [BatchAtomicity.mem_batch, BatchAtomicity.mem_batch]
    constructor
    · rintro ⟨x, hx, b, hb, hr, hid⟩
      exact ⟨x, h.action_mem hx hb, b, hb, hr, hid⟩
    · rintro ⟨x, hx, b, hb, hr, hid⟩
      have hsame : BatchAtomicity.sameBatch e x = true := by simp [BatchAtomicity.sameBatch, ha, hb, hr]
      exact ⟨x, h.response_unique (h.action_mem he ha) hx hsame ▸ he, b, hb, hr, hid⟩
  · by_contra hno
    have hun : e ∈ getUnmatchedActions s.events :=
      (hw e).2 ⟨he, id, hreq, fun hmem => hno (mem_observationToolCallIds.1 hmem)⟩
    rw [hnone] at hun
    cases hun
  · obtain ⟨e, he, hreq, -⟩ := h.requested o ho id hobs
    exact ⟨e, he, hreq⟩
  · have hloops : ToolLoopAtomicity.toolLoops s.events = [] := toolLoopsFrom_eq_nil h.noLoops
    rw [hloops] at hl
    cases hl

/-- Nothing of the view must be kept together over a cut between its calls. -/
theorem Consistent.not_straddled (h : Consistent s) {left right : List Event} (hv : s.view.events = left ++ right) :
    ¬ Straddled s.events left right := by
  have hn := h.viewIds
  have hafter := h.after
  rw [hv] at hn hafter
  rintro ⟨e, he, f, hf, hs | ⟨id, hobs, hreq⟩ | ⟨l, hl, -⟩⟩
  · obtain ⟨a, ha⟩ : ∃ a, e.action? = some a := by
      cases ha : e.action? with
      | none => simp [BatchAtomicity.sameBatch, ha] at hs
      | some a => exact ⟨a, rfl⟩
    obtain ⟨b, hb⟩ := Option.isSome_iff_exists.1 (BatchAtomicity.isCall_of_sameBatch hs)
    have hmem : ∀ {x}, x ∈ left ∨ x ∈ right → x ∈ s.view.events := fun hx => by
      rw [hv]
      exact List.mem_append.2 hx
    have heq := h.response_unique (h.action_mem (hmem (.inl he)) ha) (h.action_mem (hmem (.inr hf)) hb) hs
    rw [List.map_append, List.nodup_append] at hn
    exact hn.2.2 e.id (List.mem_map_of_mem he) f.id (List.mem_map_of_mem hf) (by rw [heq])
  · have hno := (List.pairwise_append.1 hafter).2.2 e he f hf id hobs
    rw [hno] at hreq
    cases hreq
  · have hloops : ToolLoopAtomicity.toolLoops s.events = [] := toolLoopsFrom_eq_nil h.noLoops
    rw [hloops] at hl
    cases hl

/-- The event that a condensation of a part of the view is stored as. -/
theorem appendEvent_cut {v : View} {before gone after : List Event} (hv : v.events = before ++ gone ++ after)
    (hn : (v.events.map Event.id).Nodup) (new : NewId) (summary : Option String) :
    (v.appendEvent (new.event (.condensation ⟨gone.map Event.id, summary, some before.length⟩))).events =
      before ++ (summary.map (Condensation.summaryEvent new.id)).toList ++ after := by
  have hcut := Condensation.apply_cut (hv ▸ hn) new.id summary
  rw [← hv] at hcut
  exact hcut

theorem actionToolCallIds_cut (before after : List Event) (id : EventID) (summary : Option String) :
    actionToolCallIds (before ++ (summary.map (Condensation.summaryEvent id)).toList ++ after) =
      actionToolCallIds (before ++ after) := by
  cases summary with
  | none => simp
  | some text => simp [actionToolCallIds, Condensation.summaryEvent, Event.action?]

/-- A cut between two manipulation indices keeps the invariant when it keeps no
call with a number above the number of the calls it keeps. -/
theorem Consistent.cut (h : Consistent s) (hw : WaitsRight s) (hnone : getUnmatchedActions s.events = [])
    {before gone after : List Event} (hv : s.view.events = before ++ gone ++ after)
    (hg : ¬ Guarded before (gone ++ after)) (hg' : ¬ Guarded (before ++ gone) after) {new : NewId}
    (hnew : NewIn s.events new.id) (summary : Option String)
    (hnum : ∀ id ∈ actionToolCallIds (before ++ after), callNumber id ≤ (actionToolCallIds (before ++ after)).length) :
    let e := new.event (.condensation ⟨gone.map Event.id, summary, some before.length⟩)
    Consistent ⟨s.events ++ [e], s.view.appendEvent e, s.answers⟩ ∧
      WaitsRight ⟨s.events ++ [e], s.view.appendEvent e, s.answers⟩ := by
  intro e
  have hcut : (s.view.appendEvent e).events = before ++ (summary.map (Condensation.summaryEvent new.id)).toList ++ after :=
    appendEvent_cut hv h.viewIds new summary
  have hsummary : ∀ x ∈ summary.map (Condensation.summaryEvent new.id), FreshSummary s.events x := by
    intro x hx
    obtain ⟨text, -, rfl⟩ := Option.map_eq_some_iff.1 hx
    exact ⟨⟨text, rfl⟩, hnew.2.1⟩
  -- A cut at two indices of the view leaves no call or result without the other.
  have hclosed : Closed s.events (before ++ (summary.map (Condensation.summaryEvent new.id)).toList ++ after) := by
    have hbefore : ¬ Straddled s.events before (gone ++ after) := h.not_straddled (by rw [hv, List.append_assoc])
    have hall := h.closed hw hnone
    rw [hv] at hall
    exact hall.cut hg hbefore hg' (h.not_straddled hv) hsummary
  have hsub : (before ++ after).Sublist s.view.events := by
    rw [hv, List.append_assoc]
    exact (List.sublist_append_right _ _).append_left _
  have hkept : ∀ x ∈ before ++ (summary.map (Condensation.summaryEvent new.id)).toList ++ after,
      x ∈ s.view.events ∨ ∃ text, x = Condensation.summaryEvent new.id text := by
    intro x hx
    simp only [List.mem_append, Option.mem_toList] at hx
    rcases hx with (hx | hx) | hx
    · exact .inl (hsub.subset (List.mem_append_left _ hx))
    · obtain ⟨text, -, rfl⟩ := Option.map_eq_some_iff.1 hx
      exact .inr ⟨text, rfl⟩
    · exact .inl (hsub.subset (List.mem_append_right _ hx))
  have hnoAction : e.action? = none := rfl
  refine ⟨⟨?_, ?_, h.summaries_append hnew, ?_, ?_, ?_, ?_, ?_, ?_, ?_, ?_, ?_⟩, ?_⟩
  · show (s.view.appendEvent e).events = View.rawEvents (s.events ++ [e])
    rw [rawEvents_snoc, ← h.sync]
    rfl
  · rw [List.map_append]
    exact nodup_append_new h.ids hnew.1
  · show ((s.view.appendEvent e).events.map Event.id).Nodup
    rw [hcut]
    have hids : ((before ++ after).map Event.id).Nodup := (hsub.map _).nodup h.viewIds
    cases summary with
    | none => simpa using hids
    | some text =>
      -- The summary has an id of its own, made of the new one.
      have hnot : summaryId new.id ∉ (before ++ after).map Event.id := by
        intro hmem
        have hmem' := (hsub.map Event.id).subset hmem
        obtain ⟨x, hx, hid⟩ := List.mem_map.1 hmem'
        rcases h.mem_view hx with hx | ⟨f, hf, _, rfl⟩
        · exact hnew.2.1 (hid ▸ List.mem_map_of_mem hx)
        · exact hnew.1 (summaryId_inj hid ▸ List.mem_map_of_mem hf)
      have hperm : ((before ++ (Condensation.summaryEvent new.id text :: after)).map Event.id).Perm
          (summaryId new.id :: (before ++ after).map Event.id) := by
        rw [List.map_append, List.map_cons, List.map_append]
        exact List.perm_middle
      have hgoal := hperm.nodup_iff.2 (List.nodup_cons.2 ⟨hnot, hids⟩)
      simpa using hgoal
  · exact List.forall_mem_append.2 ⟨h.noLoops, by simp [hnoAction]⟩
  · show (responseIds (s.events ++ [e])).Nodup
    rw [responseIds, List.filterMap_append]
    simpa [hnoAction, responseIds] using h.responses
  · refine List.forall_mem_append.2 ⟨h.countable, ?_⟩
    rw [List.forall_mem_singleton]
    refine ⟨fun a ha => ?_, fun _ m hm => ?_⟩
    · rw [hnoAction] at ha
      cases ha
    · cases hm
  · show ∀ id ∈ actionToolCallIds (s.view.appendEvent e).events, _
    rw [hcut, actionToolCallIds_cut]
    intro id hid
    obtain ⟨k, -, rfl⟩ := h.numbered id ((hsub.filterMap _).subset hid)
    have hle := hnum _ hid
    rw [callNumber_emulatedId] at hle
    exact ⟨k, hle, rfl⟩
  · show (actionToolCallIds (s.view.appendEvent e).events).Nodup
    rw [hcut, actionToolCallIds_cut]
    exact (hsub.filterMap _).nodup h.calls
  · show (observationToolCallIds (s.view.appendEvent e).events).Nodup
    rw [hcut]
    exact hclosed.unique
  · show (s.view.appendEvent e).events.Pairwise _
    rw [hcut]
    have hpair := List.pairwise_append.1 (h.after.sublist hsub)
    refine List.pairwise_append.2 ⟨List.pairwise_append.2 ⟨hpair.1, ?_, fun x _ f hf id _ => ?_⟩, hpair.2.1, ?_⟩
    · cases summary <;> simp
    · exact requests_eq_false (hsummary f (Option.mem_toList.1 hf)).not_tool.1
    · intro x hx f hf id hobs
      rcases List.mem_append.1 hx with hx | hx
      · exact hpair.2.2 x hx f hf id hobs
      · rw [observes_eq_false (hsummary x (Option.mem_toList.1 hx)).not_tool.2] at hobs
        cases hobs
  · show ∀ o ∈ (s.view.appendEvent e).events, _
    intro o ho id hobs
    rw [hcut] at ho
    obtain ⟨c, hc, hreq⟩ := hclosed.requested o ho id hobs
    have hoview : o ∈ s.view.events := by
      rcases hkept o ho with ho | ⟨text, rfl⟩
      · exact ho
      · cases hobs
    have hcview : c ∈ s.view.events := by
      rcases hkept c hc with hc | ⟨text, rfl⟩
      · exact hc
      · cases hreq
    -- The call that was kept is the one that the result was given to.
    obtain ⟨c', hc', hreq', hans⟩ := h.requested o hoview id hobs
    rw [h.call_unique hc' hcview hreq' hreq] at hans
    exact ⟨c, by show c ∈ (s.view.appendEvent e).events; rwa [hcut], hreq, hans⟩
  · intro x
    show x ∈ getUnmatchedActions (s.events ++ [e]) ↔ Unanswered (s.view.appendEvent e).events x
    rw [mem_getUnmatchedActions_snoc, hnone, hcut, isExecutable_eq_false hnoAction]
    -- No call waits before the cut, and none is left to wait by it.
    refine iff_of_false (by simp) fun ⟨hx, id, hreq, hid⟩ => ?_
    obtain ⟨o, ho, hobs⟩ := hclosed.answered x hx id hreq
    exact hid (mem_observationToolCallIds.2 ⟨o, ho, hobs⟩)

theorem condense_consistent (h : Consistent s) (hw : WaitsRight s) {new : NewId} {start stop : Nat}
    {summary : Option String} {t : EmulatedConversation}
    (hok : ∀ id ∈ actionToolCallIds (s.kept start stop), callNumber id ≤ (actionToolCallIds (s.kept start stop)).length)
    (ht : s.condense new start stop summary = some t) : Consistent t ∧ WaitsRight t := by
  unfold condense at ht
  split at ht
  · rename_i hguard
    obtain ⟨hnone, hle, hstart, hstop⟩ := hguard
    unfold EmulatedConversation.append at ht
    split at ht
    · rename_i hnew
      cases ht
      have hlen := View.le_length_of_mem_manipulationIndices hstop
      have htake : (s.view.events.take stop).take start = s.view.events.take start := by
        rw [List.take_take, Nat.min_eq_left hle]
      have hv : s.view.events =
          s.view.events.take start ++ (s.view.events.take stop).drop start ++ s.view.events.drop stop := by
        rw [← htake, List.take_append_drop, List.take_append_drop]
      have hbefore : (s.view.events.take start).length = start := List.length_take_of_le (by omega)
      have hboth : (s.view.events.take start ++ (s.view.events.take stop).drop start).length = stop := by
        rw [← htake, List.take_append_drop]
        exact List.length_take_of_le hlen
      have hv' : s.view.events = s.view.events.take start ++
          ((s.view.events.take stop).drop start ++ s.view.events.drop stop) := by
        rw [← List.append_assoc]
        exact hv
      have hg := View.mem_manipulationIndices hv'
      have hg' := View.mem_manipulationIndices hv
      rw [hbefore] at hg
      rw [hboth] at hg'
      have hcut := h.cut hw hnone hv (hg.1 hstart) (hg'.1 hstop) hnew summary hok
      rwa [hbefore] at hcut
    · cases ht
  · cases ht

/-- Only the events of a view matter to the invariant. -/
theorem Consistent.withView (h : Consistent s) {v : View} (hv : v.events = s.view.events) :
    Consistent { s with view := v } := by
  obtain ⟨hsync, hids, hsum, hview, hloops, hresp, hcount, hnum, hcalls, hresults, hafter, hreq⟩ := h
  rw [← hv] at hsync hview hnum hcalls hresults hafter hreq
  exact ⟨hsync, hids, hsum, hview, hloops, hresp, hcount, hnum, hcalls, hresults, hafter, hreq⟩

theorem rebuild_events (h : Consistent s) (hw : WaitsRight s) (hnone : getUnmatchedActions s.events = []) :
    (View.fromEvents s.events).events = s.view.events := by
  rw [View.fromEvents_events, ← h.sync]
  exact View.enforceEvents_of_stable ((closed_iff h.ids).2 (h.closed hw hnone))

end Cut

/-! ## Runs -/

section Runs
variable {F : Type} [PyFloat F] {s t : EmulatedConversation}

theorem append_some {e : Event} (h : s.append e = some t) :
    NewIn s.events e.id ∧ t = ⟨s.events ++ [e], s.view.appendEvent e, s.answers⟩ := by
  unfold EmulatedConversation.append at h
  split at h
  · cases h
    exact ⟨‹_›, rfl⟩
  · cases h

theorem noCall_parts {text : Text} (h : (Content.text text).NoCall) : (Content.parts [.text text]).NoCall := by
  obtain ⟨c, hc⟩ := Content.noCall_iff.1 h
  have hsearch : search fnMatch (fixStopword text) = none := (Prod.mk.inj (Except.ok.inj hc)).2
  refine Content.noCall_iff.2 ⟨.parts [.text (fixStopword text)], ?_⟩
  simp [contentOr, findFunctionMatch, fixLastPart, ContentPart.hasCall, hsearch]

omit [PyFloat F] in
/-- A response without a call is stored as it was parsed. -/
theorem messageEvent_countable {r : EmulatedResponse F} (h : (contentOr (r.content.map .text)).NoCall) :
    (messageEvent r).Countable := by
  refine ⟨fun a ha => ?_, fun _ m hm _ _ asList => ?_⟩
  · cases ha
  · obtain rfl : _ = m := Option.some.inj hm
    show (normalizeEmptyAssistantContent (Message.serialize asList ⟨.assistant, r.content.toList.map String.ofList ++ [],
      none, none, none, none, []⟩)).NoCall
    rw [List.append_nil]
    cases hc : r.content with
    | none =>
      rw [hc] at h
      cases asList <;> exact h
    | some text =>
      rw [hc] at h
      have htext : (Content.text text).NoCall := h
      cases asList
      · simpa [Message.serialize, normalizeEmptyAssistantContent] using htext
      · simpa [Message.serialize, normalizeEmptyAssistantContent] using noCall_parts htext

theorem other_consistent (h : Consistent s) (hw : WaitsRight s) {e : Event} (htool : e.isToolEvent = false)
    (hc : e.isCondensation = false) (hprose : e.ShowsNoCall) (ht : s.append e = some t) :
    Consistent t ∧ WaitsRight t := by
  obtain ⟨hnew, rfl⟩ := append_some ht
  have hnone : e.action? = none ∧ e.observation? = none := by
    simpa [Event.isToolEvent] using htool
  refine ⟨h.append ⟨hnew, hc, ⟨fun a ha => ?_, fun _ => hprose⟩, fun a ha => ?_, fun id hid => ?_, fun _ hx => hx⟩,
    hw.other hc hnone.1 hnone.2⟩
  · rw [hnone.1] at ha
    cases ha
  · rw [hnone.1] at ha
    cases ha
  · rw [observes_eq_false hnone.2] at hid
    cases hid

omit [PyFloat F] in
/-- The call of a response. -/
theorem callEvent_appendable {r : EmulatedResponse F} (hr : r.id ∉ responseIds s.events) {content : Content}
    (call : MessageToolCall) (hname : CallName call.name.toList)
    (hid : call.id = String.ofList (emulatedId ((toolCalls s.view.events).length + 1))) {action : Option Action}
    {toolName : String} (hnew : NewIn s.events r.eventId.id) :
    Appendable s (callEvent r content call action toolName) s.answers := by
  refine ⟨hnew, rfl, ⟨fun a ha => ?_, fun hnone => ?_⟩, fun a ha => ?_, fun id hobs => ?_, fun _ hx => hx⟩
  · cases ha
    exact hname
  · cases hnone
  · cases ha
    exact ⟨rfl, hr, hid⟩
  · cases hobs

theorem appendAnswer_consistent (h : Consistent s) {c : Event} (hw : WaitsRightBut s c) (hc : c ∈ s.view.events)
    {a : ActionEvent} (ha : c.action? = some a) (hfree : a.toolCallId ∉ observationToolCallIds s.view.events)
    {new : NewId} {toolName : String} {kind : ObservationKind}
    (hans : (resultEvent new toolName a.toolCallId kind).answers c = true)
    (ht : s.appendAnswer c (resultEvent new toolName a.toolCallId kind) = some t) : Consistent t ∧ WaitsRight t := by
  obtain ⟨hnew, rfl⟩ := append_some ht
  have hreq : c.requests a.toolCallId = true := Event.requests_iff.2 ⟨a, ha, rfl⟩
  have hobs : (resultEvent new toolName a.toolCallId kind).observes a.toolCallId = true := by
    simp [resultEvent, NewId.event, Event.observes, Event.observation?]
  refine ⟨h.append ⟨hnew, rfl, ⟨fun b hb => ?_, fun _ m hm hrole => ?_⟩, fun b hb => ?_, fun id hid => ?_,
    List.subset_cons_self _ _⟩, hw.answer h hc hreq hobs hans⟩
  · cases hb
  · cases hm
    cases hrole
  · cases hb
  · obtain ⟨o, ho, rfl⟩ := Event.observes_iff.1 hid
    cases ho
    exact ⟨hfree, c, hc, hreq, List.mem_cons_self⟩

omit [PyFloat F] in
theorem storeCall_consistent (h : Consistent s) (hw : WaitsRight s) {r : EmulatedResponse F}
    (hr : r.id ∉ responseIds s.events) {content : Content} {function : FunctionChunk} (hname : CallName function.name)
    (ht : s.storeCall r content (emulatedId ((toolCalls s.view.events).length + 1)) function = some t) :
    Consistent t ∧ WaitsRight t := by
  have hfree := (h.fresh rfl).2
  have hname' : CallName (String.ofList function.name).toList := by rwa [String.toList_ofList]
  unfold storeCall at ht
  dsimp only at ht
  cases hp : r.parsed with
  | valid action toolName arguments =>
    rw [hp] at ht
    obtain ⟨hnew, rfl⟩ := append_some ht
    let call : MessageToolCall :=
      ⟨String.ofList (emulatedId ((toolCalls s.view.events).length + 1)), String.ofList function.name, arguments⟩
    have hcall : Appendable s (callEvent r content call (some action) toolName) s.answers :=
      callEvent_appendable hr call hname' rfl hnew
    exact ⟨h.append hcall, hw.executable rfl rfl hfree⟩
  | invalid error displayName arguments =>
    rw [hp] at ht
    obtain ⟨u, hu, ht⟩ := Option.bind_eq_some_iff.1 ht
    obtain ⟨hnew, rfl⟩ := append_some hu
    let call : MessageToolCall :=
      ⟨String.ofList (emulatedId ((toolCalls s.view.events).length + 1)), String.ofList function.name, arguments⟩
    have hcall : Appendable s (callEvent r content call none call.name) s.answers :=
      callEvent_appendable hr call hname' rfl hnew
    refine appendAnswer_consistent (h.append hcall) (hw.call rfl) (List.mem_append_right _ List.mem_cons_self) rfl ?_ ?_ ht
    · have hsame : observationToolCallIds (s.view.events ++ [callEvent r content call none call.name]) =
          observationToolCallIds s.view.events := observationToolCallIds_of_action rfl
      rw [← hsame] at hfree
      exact hfree
    · simp [resultEvent, callEvent, NewId.event, Event.answers, Event.toolCallId?]

theorem respond_consistent (h : Consistent s) (hw : WaitsRight s) {r : EmulatedResponse F}
    (ht : s.respond r = some t) : Consistent t ∧ WaitsRight t := by
  unfold respond at ht
  split at ht
  · cases ht
  · rename_i hguard
    rw [not_or] at hguard
    obtain ⟨prompt, hprompt, ht⟩ := Option.bind_eq_some_iff.1 ht
    obtain ⟨m, hm, ht⟩ := Option.bind_eq_some_iff.1 ht
    rcases postResponsePromptMock_id h.view_countable hprompt (toOption_eq_some hm) with
      ⟨rfl, hprose⟩ | ⟨content, function, rfl, hname⟩
    · have hcount := messageEvent_countable hprose
      exact other_consistent h hw rfl rfl (hcount.prose rfl) ht
    · exact storeCall_consistent h hw hguard.2 hname ht

theorem answer_consistent (h : Consistent s) (hw : WaitsRight s) {actionId : EventID} {new : NewId}
    {kind : ObservationKind} (ht : s.answer actionId new kind = some t) : Consistent t ∧ WaitsRight t := by
  unfold answer at ht
  obtain ⟨c, hc, ht⟩ := Option.bind_eq_some_iff.1 ht
  obtain ⟨a, ha, ht⟩ := Option.bind_eq_some_iff.1 ht
  dsimp only at ht
  split at ht
  · rename_i hans
    obtain ⟨hview, id, hreq, hfree⟩ := (hw c).1 (List.mem_of_find?_eq_some hc)
    obtain ⟨b, hb, rfl⟩ := Event.requests_iff.1 hreq
    rw [ha] at hb
    cases hb
    exact appendAnswer_consistent h (fun x _ => hw x) hview ha hfree hans ht
  · cases ht

theorem step_consistent (h : Consistent s) (hw : WaitsRight s) {op : EmulatedOp F} (hok : s.Allowed op)
    (ht : s.step op = some t) : Consistent t ∧ WaitsRight t := by
  cases op with
  | respond r => exact respond_consistent h hw ht
  | answer actionId new kind => exact answer_consistent h hw ht
  | condense new start stop summary => exact condense_consistent h hw hok ht
  | other e =>
    unfold step at ht
    dsimp only at ht
    split at ht
    · rename_i ho
      exact other_consistent h hw ho.1 ho.2.1 ho.2.2 ht
    · cases ht
  | rebuild =>
    cases ht
    have hsame := rebuild_events h hw hok
    refine ⟨h.withView hsame, fun x => ?_⟩
    show x ∈ getUnmatchedActions s.events ↔ Unanswered (View.fromEvents s.events).events x
    rw [hsame]
    exact hw x

theorem consistent_init : Consistent {} ∧ WaitsRight {} := by
  refine ⟨⟨rfl, by simp, by simp, by simp, by simp, by simp [responseIds], by simp, by simp [actionToolCallIds],
    by simp [actionToolCallIds], by simp [observationToolCallIds], by simp, by simp⟩, fun e => ?_⟩
  exact iff_of_false (by simp) fun h => by simpa using h.1

theorem Consistent.keepsCallsApart (h : Consistent s) (hw : WaitsRight s) : KeepsCallsApart F s := by
  refine ⟨fun tools asList prompt response content id function hprompt hparse => ?_, fun e he a ha => ?_, ?_⟩
  · rcases postResponsePromptMock_id h.view_countable hprompt hparse with ⟨hm, -⟩ | ⟨content', fn, hm, -⟩
    · cases hm
    · cases hm
      exact h.fresh rfl
  · have hreq : e.requests a.toolCallId = true := Event.requests_iff.2 ⟨a, ha, rfl⟩
    by_cases hid : a.toolCallId ∈ observationToolCallIds s.view.events
    · obtain ⟨o, ho, hobs⟩ := mem_observationToolCallIds.1 hid
      obtain ⟨c, hc, hcreq, hans⟩ := h.requested o ho _ hobs
      rw [h.call_unique hc he hcreq hreq] at hans
      refine .inr ⟨o, ho, hobs, hans, fun o' ho' hobs' => ?_⟩
      obtain ⟨x, hx, hxid⟩ := Event.observes_iff.1 hobs
      obtain ⟨y, hy, hyid⟩ := Event.observes_iff.1 hobs'
      exact eq_of_nodup_filterMap h.results ho' ho (by rw [hy, Option.map_some, hyid]) (by rw [hx, Option.map_some, hxid])
    · exact .inl ⟨(hw e).2 ⟨he, a.toolCallId, hreq, hid⟩, hid⟩
  · have hnone : ObservationUniqueness.enforce s.view.events s.events = [] :=
      ObservationUniqueness.duplicates_eq_nil.2 ⟨h.results, by simp⟩
    exact ⟨hnone, by rw [← h.sync]; exact hnone⟩

/-- In every run whose condensations keep no call with a number above the count
of the kept calls, ids of new calls are fresh and no result is dropped. -/
theorem keepsCallsApart_of_reaches (h : Reaches (step (F := F)) Allowed {} s) : KeepsCallsApart F s := by
  have hinv : Consistent s ∧ WaitsRight s :=
    h.invariant (I := fun s => Consistent s ∧ WaitsRight s) consistent_init
      fun _ _ _ hs hok ht => step_consistent hs.1 hs.2 hok ht
  exact hinv.1.keepsCallsApart hinv.2

end Runs

/-! ### Two conversations -/

namespace Example

def tool : FunctionTool OneHalf := { name := "f".toList }

def systemPrompt : Event := NewId.event { id := "system" } (.systemPrompt "You are an agent." none)

def task : Event := Agent.messageEvent { id := "task" } .user ["Do it."] []

def respond (n : String) (h : "action-" ++ n ≠ rootParentId := by decide)
    (h' : "error-" ++ n ≠ rootParentId := by decide) : EmulatedOp OneHalf :=
  .respond ⟨[tool], false, "response-" ++ n, some "<function=f>\n</function>".toList, .valid (.other "f") "f" "\x7b\x7d",
    ⟨"action-" ++ n, h⟩, ⟨"error-" ++ n, h'⟩⟩

def answer (n : String) (h : "result-" ++ n ≠ rootParentId := by decide) : EmulatedOp OneHalf :=
  .answer ("action-" ++ n) ⟨"result-" ++ n, h⟩ (.observation ["ok"] [] ("action-" ++ n))

def condense (start stop : Nat) : EmulatedOp OneHalf := .condense { id := "condensation" } start stop (some "So far.")

/-- Four calls. -/
def begin : List (EmulatedOp OneHalf) :=
  [.other systemPrompt, .other task, respond "1", answer "1", respond "2", answer "2", respond "3", answer "3",
    respond "4", answer "4"]

/-- Everything behind the task is forgotten. -/
def all : List (EmulatedOp OneHalf) := begin ++ [condense 2 10, .rebuild, respond "5", answer "5"]

/-- The last call is kept, as `keep_first` of two and a request for a condensation have it. -/
def butLast : List (EmulatedOp OneHalf) :=
  begin ++ [condense 2 8, respond "5", answer "5", respond "6", answer "6", respond "7", answer "7"]

end Example

open Example in
theorem keepsCallsApart_of_reaches_all : ∃ s : EmulatedConversation,
    actionToolCallIds s.view.events = ["toolu_01"] ∧ KeepsCallsApart OneHalf s := by
  have hrun : (execAllowed step Allowed {} all).map (fun s => actionToolCallIds s.view.events) = some ["toolu_01"] := by
    decide +kernel
  obtain ⟨s, hs, hids⟩ := Option.map_eq_some_iff.1 hrun
  exact ⟨s, hids, keepsCallsApart_of_reaches (reaches_of_execAllowed .init hs)⟩

open Example in
/-- The seventh call takes the id of the fourth, and its result is dropped. -/
theorem result_dropped_butLast : ¬ ∀ s : EmulatedConversation, Reaches (step (F := OneHalf)) (fun _ _ => True) {} s →
    KeepsCallsApart OneHalf s := by
  intro h
  have hrun : (exec step {} butLast).map (fun s => ObservationUniqueness.enforce s.view.events s.events) =
      some ["result-7"] := by
    decide +kernel
  obtain ⟨s, hs, hdrop⟩ := Option.map_eq_some_iff.1 hrun
  have hnone := (h s (reaches_of_exec .init hs)).dropsNone.1
  rw [hdrop] at hnone
  cases hnone

end EmulatedConversation

end AgentSdk
