import AgentSdk.Lib.Settle
import AgentSdk.View.Properties
/-!
# The view

`View`: the events the next LLM request is built from. `append_event` applies
one event at a time, `enforce_properties` drops events until all four
properties hold, and `from_events` does the one and then the other.
-/

namespace AgentSdk
open Lib

/-- `summary_event`, for the condensation stored under `id`. -/
def Condensation.summaryEvent (id : EventID) (summary : String) : Event :=
  { id := summaryId id, body := .condensationSummary summary, notRoot := summaryId_ne_root id }

/-- `apply`: the summary goes in at the offset, or at the end when the offset
lies beyond it, as `list.insert` does. -/
def Condensation.apply (c : Condensation) (id : EventID) (events : List Event) : List Event :=
  let output := events.filter (·.id ∉ c.forgottenEventIds)
  match c.summary, c.summaryOffset with
  | some summary, some offset => output.take offset ++ summaryEvent id summary :: output.drop offset
  | _, _ => output

theorem filter_gone {before gone after : List Event} (hn : ((before ++ gone ++ after).map Event.id).Nodup) :
    (before ++ gone ++ after).filter (fun e => decide (e.id ∉ gone.map Event.id)) = before ++ after := by
  simp only [List.map_append, List.nodup_append, List.mem_append] at hn
  obtain ⟨⟨-, -, hbg⟩, -, hga⟩ := hn
  have hbefore : before.filter (fun e => decide (e.id ∉ gone.map Event.id)) = before :=
    List.filter_eq_self.2 fun e he => decide_eq_true fun hmem => hbg e.id (List.mem_map_of_mem he) e.id hmem rfl
  have hafter : after.filter (fun e => decide (e.id ∉ gone.map Event.id)) = after :=
    List.filter_eq_self.2 fun e he => decide_eq_true fun hmem => hga e.id (.inr hmem) e.id (List.mem_map_of_mem he) rfl
  have hgone : gone.filter (fun e => decide (e.id ∉ gone.map Event.id)) = [] :=
    List.filter_eq_nil_iff.2 fun e he => by simpa using ⟨e, he, rfl⟩
  rw [List.filter_append, List.filter_append, hbefore, hafter, hgone, List.append_nil]

/-- A part is forgotten, and the summary stands in its place. -/
theorem Condensation.apply_cut {before gone after : List Event} (hn : ((before ++ gone ++ after).map Event.id).Nodup)
    (id : EventID) (summary : Option String) :
    Condensation.apply ⟨gone.map Event.id, summary, some before.length⟩ id (before ++ gone ++ after) =
      before ++ (summary.map (summaryEvent id)).toList ++ after := by
  unfold Condensation.apply
  dsimp only
  rw [filter_gone hn]
  cases summary with
  | none => simp
  | some text => simp

theorem none_convertible : ∀ e ∈ ([] : List Event), e.isLLMConvertible = true := List.forall_mem_nil _

structure View where
  events : List Event := []
  unhandledCondensationRequest : Bool := false
  convertible : ∀ e ∈ events, e.isLLMConvertible = true := by first | exact none_convertible | simp
deriving DecidableEq

namespace View

/-- `append_event`, on the events alone. -/
def appendRaw (events : List Event) (e : Event) : List Event :=
  match e.body with
  | .condensation c => c.apply e.id events
  | _ => if e.isLLMConvertible then events ++ [e] else events

theorem mem_apply {c : Condensation} {id : EventID} {events : List Event} {e : Event}
    (h : e ∈ c.apply id events) : e ∈ events ∨ ∃ s, e = Condensation.summaryEvent id s := by
  unfold Condensation.apply at h
  have hout : ∀ x ∈ events.filter (·.id ∉ c.forgottenEventIds), x ∈ events := fun x => List.mem_of_mem_filter
  split at h
  · rcases List.mem_append.1 h with h | h
    · exact .inl (hout e (List.mem_of_mem_take h))
    · rcases List.mem_cons.1 h with rfl | h
      · exact .inr ⟨_, rfl⟩
      · exact .inl (hout e (List.mem_of_mem_drop h))
  · exact .inl (hout e h)

theorem appendRaw_convertible {events : List Event} (h : ∀ x ∈ events, x.isLLMConvertible = true)
    (e : Event) : ∀ x ∈ appendRaw events e, x.isLLMConvertible = true := by
  intro x hx
  unfold appendRaw at hx
  split at hx
  · rcases mem_apply hx with hx | ⟨s, rfl⟩
    · exact h x hx
    · rfl
  · split at hx
    · rcases List.mem_append.1 hx with hx | hx
      · exact h x hx
      · rw [List.mem_singleton.1 hx]
        assumption
    · exact h x hx

def appendEvent (v : View) (e : Event) : View where
  events := appendRaw v.events e
  unhandledCondensationRequest :=
    match e.body with
    | .condensation _ => false
    | .condensationRequest => true
    | _ => v.unhandledCondensationRequest
  convertible := appendRaw_convertible v.convertible e

/-- The enforcement passes over a view, in order. -/
def passes (all : List Event) : List (List Event → List EventID) :=
  allProperties.map fun p view => p.enforce view all

end View

/-! ## Enforcement ends -/

theorem ObservationUniqueness.duplicates_subset (seen : List ToolCallID) (es : List Event) :
    duplicates seen es ⊆ es.map Event.id := by
  induction es generalizing seen with
  | nil => simp [duplicates]
  | cons e es ih =>
    unfold duplicates
    split
    · split
      · exact List.cons_subset_cons _ (ih _)
      · exact List.subset_cons_of_subset _ (ih _)
    · exact List.subset_cons_of_subset _ (ih _)

theorem BatchAtomicity.mem_enforce {view all : List Event} {id : EventID} :
    id ∈ enforce view all ↔ ∃ e ∈ view, e.id = id ∧ ∃ a, e.action? = some a ∧
      sameIds (batch view a.llmResponseId) (batch all a.llmResponseId) = false := by
  simp only [enforce, List.mem_filterMap]
  refine exists_congr fun e => and_congr_right fun _ => ?_
  cases he : e.action? with
  | none => simp
  | some a => by_cases h : sameIds (batch view a.llmResponseId) (batch all a.llmResponseId) <;> simp [h]

theorem ToolLoopAtomicity.removeStep_subset {loops : List (List EventID)} {viewIds removed : List EventID}
    {e : Event} (h : removed ⊆ viewIds) : removeStep loops viewIds removed e ⊆ viewIds := by
  unfold removeStep
  split
  · exact h
  · split
    · split
      · exact h
      · exact List.append_subset.2 ⟨h, List.filter_sublist.subset⟩
    · exact h

theorem ToolLoopAtomicity.enforce_subset (view all : List Event) : enforce view all ⊆ view.map Event.id := by
  have hfold : ∀ (es : List Event) (removed : List EventID), removed ⊆ view.map Event.id →
      es.foldl (removeStep (toolLoops all) (view.map Event.id)) removed ⊆ view.map Event.id := by
    intro es
    induction es with
    | nil => exact fun _ h => h
    | cons e es ih => exact fun removed h => ih _ (removeStep_subset h)
  exact hfold view [] (List.nil_subset _)

/-- A property only ever drops events of the view. -/
theorem View.passes_subset (all : List Event) :
    ∀ p ∈ passes all, ∀ view, p view ⊆ view.map Event.id := by
  intro p hp view
  simp only [passes, allProperties, List.map_cons, List.map_nil, List.mem_cons, List.not_mem_nil,
    or_false] at hp
  rcases hp with rfl | rfl | rfl | rfl
  · exact ObservationUniqueness.duplicates_subset [] view
  · intro id hid
    obtain ⟨e, he, rfl, -⟩ := BatchAtomicity.mem_enforce.1 hid
    exact List.mem_map_of_mem he
  · exact List.map_subset _ List.filter_sublist.subset
  · exact ToolLoopAtomicity.enforce_subset view all

namespace View

/-- The loop of `enforce_properties` ends for every view. -/
theorem settle_passes_isSome (all events : List Event) :
    (settle Event.id (passes all) (events.length + 1) events).isSome :=
  settle_isSome (passes_subset all) (Nat.lt_succ_self _)

/-- `enforce_properties`, on the events alone. -/
def enforceEvents (all events : List Event) : List Event :=
  (settle Event.id (passes all) (events.length + 1) events).get (settle_passes_isSome all events)

theorem enforceEvents_eq (all events : List Event) :
    settle Event.id (passes all) (events.length + 1) events = some (enforceEvents all events) := by
  simp [enforceEvents]

theorem enforceEvents_sublist (all events : List Event) : (enforceEvents all events).Sublist events :=
  settle_sublist (enforceEvents_eq all events)

def enforceProperties (v : View) (all : List Event) : View where
  events := enforceEvents all v.events
  unhandledCondensationRequest := v.unhandledCondensationRequest
  convertible := fun e he => v.convertible e ((enforceEvents_sublist all v.events).subset he)

def fromEvents (events : List Event) : View := (events.foldl appendEvent {}).enforceProperties events

/-- `manipulation_indices`: the indices every property allows. -/
def manipulationIndices (v : View) : ManipulationIndices :=
  allProperties.foldl (fun r p => r.filter (· ∈ p.manipulationIndices v.events))
    (ManipulationIndices.complete v.events)

/-- The events before enforcement. -/
def rawEvents (events : List Event) : List Event := events.foldl appendRaw []

theorem foldl_appendEvent_events (v : View) (events : List Event) :
    (events.foldl appendEvent v).events = events.foldl appendRaw v.events := by
  induction events generalizing v with
  | nil => rfl
  | cons e events ih => exact ih (v.appendEvent e)

theorem fromEvents_events (events : List Event) :
    (fromEvents events).events = enforceEvents events (rawEvents events) := by
  exact congrArg (enforceEvents events) (foldl_appendEvent_events {} events)

/-- A view no property wants to drop from is kept as it is. -/
theorem enforceEvents_of_stable {all events : List Event} (h : ∀ p ∈ passes all, p events = []) :
    enforceEvents all events = events := by
  have hself : settle Event.id (passes all) (events.length + 1) events = some events :=
    settle_of_stable h events.length
  rw [enforceEvents_eq] at hself
  exact Option.some.inj hself

theorem enforceEvents_stable (all events : List Event) : ∀ p ∈ passes all, p (enforceEvents all events) = [] :=
  settle_stable (enforceEvents_eq all events)

end View

end AgentSdk
