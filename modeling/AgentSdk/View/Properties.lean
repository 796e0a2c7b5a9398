import AgentSdk.Event
/-!
# View properties

The four properties of `openhands.sdk.context.view.properties`. Each one names
the events to drop from a view that violates it (`enforce`), and the indices at
which the view may be cut (`manipulation_indices`). A Python `set` is a list
of which only membership is used.
-/

namespace AgentSdk

/-- `ManipulationIndices`, a set of indices. -/
abbrev ManipulationIndices := List Nat

/-- `ManipulationIndices.complete`: `0 .. len(events)`. -/
def ManipulationIndices.complete (events : List Event) : ManipulationIndices :=
  List.range (events.length + 1)

/-- `manipulation_indices.remove`, for each index of a loop over the events. -/
def ManipulationIndices.without (events : List Event) (removed : List Nat) : ManipulationIndices :=
  (complete events).filter (· ∉ removed)

/-- `ViewPropertyBase`: `enforce current_view_events all_events`. -/
structure ViewProperty where
  enforce : List Event → List Event → List EventID
  manipulationIndices : List Event → ManipulationIndices

/-! ## ObservationUniquenessProperty -/

namespace ObservationUniqueness

/-- The observations of calls that were observed before. -/
def duplicates : List ToolCallID → List Event → List EventID
  | _, [] => []
  | seen, e :: es =>
    match e.observation? with
    | some o =>
      if o.toolCallId ∈ seen then e.id :: duplicates seen es else duplicates (o.toolCallId :: seen) es
    | none => duplicates seen es

/-- `enforce`: the first observation of each call stays. -/
def enforce (view _all : List Event) : List EventID := duplicates [] view

/-- `ObservationUniquenessProperty`; a view may be cut anywhere. -/
def property : ViewProperty := ⟨enforce, ManipulationIndices.complete⟩

end ObservationUniqueness

/-! ## BatchAtomicityProperty -/

namespace BatchAtomicity

/-- `_build_batches(events)[llm_response_id]`, empty for an unknown id. -/
def batch (events : List Event) (llmResponseId : EventID) : List EventID :=
  events.filterMap fun e =>
    match e.action? with
    | some a => if a.llmResponseId = llmResponseId then some e.id else none
    | none => none

/-- Two batches as sets. -/
def sameIds (a b : List EventID) : Bool := a.all (· ∈ b) && b.all (· ∈ a)

/-- `enforce`: an action goes when its batch is not complete any more. -/
def enforce (view all : List Event) : List EventID :=
  view.filterMap fun e =>
    match e.action? with
    | some a =>
      if sameIds (batch view a.llmResponseId) (batch all a.llmResponseId) then none else some e.id
    | none => none

/-- Two actions of one LLM response. -/
def sameBatch (left right : Event) : Bool :=
  match left.action?, right.action? with
  | some a, some b => a.llmResponseId = b.llmResponseId
  | _, _ => false

/-- The index between two neighbours of one batch is removed. -/
def inside : Nat → List Event → List Nat
  | index, left :: right :: es =>
    if sameBatch left right then (index + 1) :: inside (index + 1) (right :: es)
    else inside (index + 1) (right :: es)
  | _, _ => []

/-- All indices but those inside a batch. -/
def manipulationIndices (view : List Event) : ManipulationIndices := .without view (inside 0 view)

/-- `BatchAtomicityProperty`. -/
def property : ViewProperty := ⟨enforce, manipulationIndices⟩

end BatchAtomicity

/-! ## ToolCallMatchingProperty -/

namespace ToolCallMatching

/-- The calls that have an action. -/
def actionToolCallIds (view : List Event) : List ToolCallID :=
  view.filterMap fun e => e.action?.map ActionEvent.toolCallId

/-- The calls that have an observation. -/
def observationToolCallIds (view : List Event) : List ToolCallID :=
  view.filterMap fun e => e.observation?.map ObservationBaseEvent.toolCallId

/-- An action without an observation, or an observation without an action. -/
def unmatched (view : List Event) (e : Event) : Bool :=
  match e.body with
  | .action a => a.toolCallId ∉ observationToolCallIds view
  | .observation o => o.toolCallId ∉ actionToolCallIds view
  | _ => false

/-- `enforce`: unmatched events go. -/
def enforce (view _all : List Event) : List EventID := (view.filter (unmatched view)).map Event.id

/-- `pending_tool_call_ids` after one more event. -/
def pendingStep (pending : List ToolCallID) (e : Event) : List ToolCallID :=
  match e.body with
  | .action a => pending.insert a.toolCallId
  | .observation o => pending.filter (· ≠ o.toolCallId)
  | _ => pending

/-- The indices behind an event at which a call is still pending. -/
def inside : List ToolCallID → Nat → List Event → List Nat
  | _, _, [] => []
  | pending, index, e :: es =>
    let pending := pendingStep pending e
    if pending ≠ [] then (index + 1) :: inside pending (index + 1) es
    else inside pending (index + 1) es

/-- All indices but those at which a call is pending. -/
def manipulationIndices (view : List Event) : ManipulationIndices := .without view (inside [] 0 view)

/-- `ToolCallMatchingProperty`. -/
def property : ViewProperty := ⟨enforce, manipulationIndices⟩

end ToolCallMatching

/-! ## ToolLoopAtomicityProperty -/

namespace ToolLoopAtomicity

/-- How an event moves a tool loop: an action with thinking blocks starts one,
another action or an observation stays in it, anything else ends it. -/
inductive Move where
  | start | stay | exit
deriving DecidableEq, Repr

/-- The move of an event, by what it is. -/
def move (e : Event) : Move :=
  match e.body with
  | .action a => if a.thinkingBlocks ≠ [] then .start else .stay
  | .observation _ => .stay
  | _ => .exit

/-- `_tool_loops`, from the loop the events so far left open. -/
def toolLoopsFrom : Option (List EventID) → List Event → List (List EventID)
  | current, [] => current.toList
  | current, e :: es =>
    match move e with
    | .start => current.toList ++ toolLoopsFrom (some [e.id]) es
    | .stay => toolLoopsFrom (current.map (· ++ [e.id])) es
    | .exit => current.toList ++ toolLoopsFrom none es

/-- `_tool_loops` of all events. -/
def toolLoops (events : List Event) : List (List EventID) := toolLoopsFrom none events

/-- `enforce`'s loop body: `removed` is `events_to_remove` so far. -/
def removeStep (loops : List (List EventID)) (viewIds removed : List EventID) (e : Event) : List EventID :=
  if e.id ∈ removed then removed
  else
    match loops.find? (e.id ∈ ·) with
    | some l => if l.all (· ∈ viewIds) then removed else removed ++ viewIds.filter (· ∈ l)
    | none => removed

/-- `enforce`: what is left of a loop that is not complete goes. -/
def enforce (view all : List Event) : List EventID :=
  view.foldl (removeStep (toolLoops all) (view.map Event.id)) []

/-- The indices in front of the later events of a loop. -/
def inside : Bool → Nat → List Event → List Nat
  | _, _, [] => []
  | inToolLoop, index, e :: es =>
    match move e with
    | .start => inside true (index + 1) es
    | .stay => if inToolLoop then index :: inside inToolLoop (index + 1) es else inside inToolLoop (index + 1) es
    | .exit => inside false (index + 1) es

/-- All indices but those inside a loop. -/
def manipulationIndices (view : List Event) : ManipulationIndices := .without view (inside false 0 view)

/-- `ToolLoopAtomicityProperty`. -/
def property : ViewProperty := ⟨enforce, manipulationIndices⟩

end ToolLoopAtomicity

/-- `ALL_PROPERTIES`, in the order of the source. -/
def allProperties : List ViewProperty :=
  [ObservationUniqueness.property, BatchAtomicity.property, ToolCallMatching.property,
    ToolLoopAtomicity.property]

end AgentSdk
