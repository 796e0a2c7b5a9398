import AgentSdk.View
import Mathlib.Data.List.Pairwise
/-!
# Closed views

A view that no property wants to drop from, said without the passes: each
observation is the only one of its tool call, batches and tool loops are there
as a whole or not at all, and calls and answers come together.
-/

namespace AgentSdk

/-! ## Tool loops -/

namespace ToolLoopAtomicity

/-- The loops cut up the events in order. -/
theorem flatten_toolLoopsFrom (current : Option (List EventID)) (es : List Event) :
    (toolLoopsFrom current es).flatten.Sublist (current.toList.flatten ++ es.map Event.id) := by
  induction es generalizing current with
  | nil => simp [toolLoopsFrom]
  | cons e es ih =>
    unfold toolLoopsFrom
    cases move e with
    | start =>
      rw [List.flatten_append]
      exact (List.Sublist.refl _).append (ih (some [e.id]))
    | stay =>
      refine (ih _).trans ?_
      cases current with
      | none => exact (List.sublist_cons_self _ _).append_left _
      | some l => simp
    | exit =>
      rw [List.flatten_append]
      exact (List.Sublist.refl _).append ((ih none).trans (List.sublist_cons_self _ _))

theorem flatten_toolLoops (es : List Event) : (toolLoops es).flatten.Sublist (es.map Event.id) :=
  flatten_toolLoopsFrom none es

theorem subset_of_mem_toolLoops {es : List Event} {l : List EventID} (h : l ∈ toolLoops es) :
    l ⊆ es.map Event.id :=
  fun _ hx => (flatten_toolLoops es).subset (List.mem_flatten.2 ⟨l, h, hx⟩)

/-- With distinct ids, an event is in one loop at most. -/
theorem toolLoops_unique {es : List Event} (hn : (es.map Event.id).Nodup) {l l' : List EventID}
    (h : l ∈ toolLoops es) (h' : l' ∈ toolLoops es) {x : EventID} (hx : x ∈ l) (hx' : x ∈ l') : l = l' := by
  have hp := (List.nodup_flatten.1 ((flatten_toolLoops es).nodup hn)).2
  have : Std.Symm (List.Disjoint (α := EventID)) := ⟨fun _ _ hd _ hy hy' => hd hy' hy⟩
  by_contra hne
  exact hp.forall h h' hne hx hx'

theorem find?_toolLoops {es : List Event} (hn : (es.map Event.id).Nodup) {x : EventID} {l : List EventID} :
    (toolLoops es).find? (x ∈ ·) = some l ↔ l ∈ toolLoops es ∧ x ∈ l := by
  constructor
  · intro h
    exact ⟨List.mem_of_find?_eq_some h, by simpa using List.find?_some h⟩
  · rintro ⟨hl, hx⟩
    cases hf : (toolLoops es).find? (x ∈ ·) with
    | none =>
      have := List.find?_eq_none.1 hf l hl
      simp [hx] at this
    | some l' =>
      have hx' : x ∈ l' := by simpa using List.find?_some hf
      rw [toolLoops_unique hn (List.mem_of_find?_eq_some hf) hl hx' hx]

theorem removeStep_eq_nil {loops : List (List EventID)} {viewIds : List EventID} {e : Event}
    (he : e.id ∈ viewIds) : removeStep loops viewIds [] e = [] ↔
      ∀ l, loops.find? (e.id ∈ ·) = some l → l ⊆ viewIds := by
  unfold removeStep
  rw [if_neg List.not_mem_nil]
  cases hf : loops.find? (e.id ∈ ·) with
  | none => simp
  | some l =>
    have hel : e.id ∈ l := by simpa using List.find?_some hf
    have hall : (l.all (· ∈ viewIds)) = true ↔ l ⊆ viewIds := by simp [List.subset_def]
    simp only [Option.some.injEq, forall_eq', hall, List.nil_append]
    by_cases hl : l ⊆ viewIds
    · simp [hl]
    · rw [if_neg hl, List.filter_eq_nil_iff]
      exact iff_of_false (fun h => h e.id he (by simpa using hel)) hl

theorem removeStep_ne_nil {loops : List (List EventID)} {viewIds removed : List EventID} (e : Event)
    (h : removed ≠ []) : removeStep loops viewIds removed e ≠ [] := by
  unfold removeStep
  split
  · exact h
  · split
    · split
      · exact h
      · simp [h]
    · exact h

theorem enforce_eq_nil {view all : List Event} (hn : (all.map Event.id).Nodup) : enforce view all = [] ↔
    ∀ e ∈ view, ∀ l ∈ toolLoops all, e.id ∈ l → l ⊆ view.map Event.id := by
  have hkeep : ∀ (es : List Event) (removed : List EventID), removed ≠ [] →
      es.foldl (removeStep (toolLoops all) (view.map Event.id)) removed ≠ [] := by
    intro es
    induction es with
    | nil => exact fun _ h => h
    | cons e es ih => exact fun removed h => ih _ (removeStep_ne_nil e h)
  have hfold : ∀ es ⊆ view, es.foldl (removeStep (toolLoops all) (view.map Event.id)) [] = [] ↔
      ∀ e ∈ es, ∀ l, (toolLoops all).find? (e.id ∈ ·) = some l → l ⊆ view.map Event.id := by
    intro es
    induction es with
    | nil => simp
    | cons e es ih =>
      intro hsub
      obtain ⟨he, hes⟩ := List.cons_subset.1 hsub
      rw [List.foldl_cons, List.forall_mem_cons, ← removeStep_eq_nil (List.mem_map_of_mem he)]
      by_cases hstep : removeStep (toolLoops all) (view.map Event.id) [] e = []
      · rw [hstep, ih hes]
        simp
      · exact iff_of_false (hkeep es _ hstep) fun h => hstep h.1
  rw [enforce, hfold view (List.Subset.refl _)]
  simp only [find?_toolLoops hn, and_imp]

end ToolLoopAtomicity

/-! ## The other properties -/

theorem ObservationUniqueness.duplicates_eq_nil {seen : List ToolCallID} {es : List Event} :
    duplicates seen es = [] ↔ (ToolCallMatching.observationToolCallIds es).Nodup ∧
      ∀ id ∈ ToolCallMatching.observationToolCallIds es, id ∉ seen := by
  induction es generalizing seen with
  | nil => simp [duplicates, ToolCallMatching.observationToolCallIds]
  | cons e es ih =>
    unfold duplicates
    unfold ToolCallMatching.observationToolCallIds at ih ⊢
    cases ho : e.observation? with
    | none => simpa [ho] using ih
    | some o =>
      simp only [List.filterMap_cons, ho, Option.map_some, List.nodup_cons, List.forall_mem_cons]
      by_cases hs : o.toolCallId ∈ seen
      · rw [if_pos hs]
        exact iff_of_false (by simp) fun h => h.2.1 hs
      · rw [if_neg hs, ih]
        simp only [List.mem_cons, not_or]
        constructor
        · rintro ⟨hn, hd⟩
          exact ⟨⟨fun h => (hd _ h).1 rfl, hn⟩, hs, fun id hid => (hd id hid).2⟩
        · rintro ⟨⟨hni, hn⟩, -, hd⟩
          exact ⟨hn, fun id hid => ⟨fun h => hni (h ▸ hid), hd id hid⟩⟩

namespace BatchAtomicity

theorem mem_batch {events : List Event} {r id : EventID} :
    id ∈ batch events r ↔ ∃ e ∈ events, ∃ a, e.action? = some a ∧ a.llmResponseId = r ∧ e.id = id := by
  simp only [batch, List.mem_filterMap]
  refine exists_congr fun e => and_congr_right fun _ => ?_
  cases he : e.action? with
  | none => simp
  | some a => by_cases h : a.llmResponseId = r <;> simp [h]

theorem sameIds_iff {a b : List EventID} : sameIds a b = true ↔ ∀ id, id ∈ a ↔ id ∈ b := by
  simp only [sameIds, Bool.and_eq_true, List.all_eq_true, decide_eq_true_eq]
  exact ⟨fun h id => ⟨h.1 id, h.2 id⟩, fun h => ⟨fun id => (h id).1, fun id => (h id).2⟩⟩

theorem enforce_eq_nil {view all : List Event} : enforce view all = [] ↔
    ∀ e ∈ view, ∀ a, e.action? = some a → ∀ id, id ∈ batch view a.llmResponseId ↔ id ∈ batch all a.llmResponseId := by
  rw [List.eq_nil_iff_forall_not_mem]
  simp only [mem_enforce, not_exists, not_and, Bool.not_eq_false, sameIds_iff]
  exact ⟨fun h e he a ha => h e.id e he rfl a ha, fun h _ e he _ a ha => h e he a ha⟩

end BatchAtomicity

namespace ToolCallMatching

theorem mem_actionToolCallIds {view : List Event} {id : ToolCallID} :
    id ∈ actionToolCallIds view ↔ ∃ e ∈ view, e.requests id = true := by
  simp [actionToolCallIds, Event.requests_iff, Option.map_eq_some_iff]

theorem mem_observationToolCallIds {view : List Event} {id : ToolCallID} :
    id ∈ observationToolCallIds view ↔ ∃ e ∈ view, e.observes id = true := by
  simp [observationToolCallIds, Event.observes_iff, Option.map_eq_some_iff]

theorem enforce_eq_nil {view all : List Event} : enforce view all = [] ↔
    (∀ e ∈ view, ∀ id, e.requests id = true → ∃ o ∈ view, o.observes id = true) ∧
      ∀ o ∈ view, ∀ id, o.observes id = true → ∃ e ∈ view, e.requests id = true := by
  rw [enforce, List.map_eq_nil_iff, List.filter_eq_nil_iff, ← forall₂_and]
  refine forall₂_congr fun e _ => ?_
  rw [Bool.not_eq_true]
  unfold unmatched
  cases hb : e.body with
  | action a =>
    have ha : e.action? = some a := Event.action?_eq_some.2 hb
    have ho : ∀ id, e.observes id = false := by
      intro id
      simp [Event.observes, Event.observation?_of_action ha]
    simp [ho, Event.requests_iff, ha, mem_observationToolCallIds]
  | observation o =>
    have ho : e.observation? = some o := Event.observation?_eq_some.2 hb
    have ha : ∀ id, e.requests id = false := by
      intro id
      simp [Event.requests, Event.action?_of_observation ho]
    simp [ha, Event.observes_iff, ho, mem_actionToolCallIds]
  | _ => simp [Event.requests, Event.observes, Event.action?, Event.observation?, hb]

end ToolCallMatching

/-! ## Closed -/

structure Closed (all view : List Event) : Prop where
  unique : (ToolCallMatching.observationToolCallIds view).Nodup
  batches : ∀ e ∈ view, ∀ a, e.action? = some a → ∀ id,
    id ∈ BatchAtomicity.batch view a.llmResponseId ↔ id ∈ BatchAtomicity.batch all a.llmResponseId
  answered : ∀ e ∈ view, ∀ id, e.requests id = true → ∃ o ∈ view, o.observes id = true
  requested : ∀ o ∈ view, ∀ id, o.observes id = true → ∃ e ∈ view, e.requests id = true
  loops : ∀ e ∈ view, ∀ l ∈ ToolLoopAtomicity.toolLoops all, e.id ∈ l → l ⊆ view.map Event.id

/-- No property drops anything exactly from the closed views. -/
theorem closed_iff {all view : List Event} (hn : (all.map Event.id).Nodup) :
    (∀ p ∈ View.passes all, p view = []) ↔ Closed all view := by
  have hpasses : (∀ p ∈ View.passes all, p view = []) ↔ ObservationUniqueness.enforce view all = [] ∧
      BatchAtomicity.enforce view all = [] ∧ ToolCallMatching.enforce view all = [] ∧
      ToolLoopAtomicity.enforce view all = [] := by
    simp [View.passes, allProperties, ObservationUniqueness.property, BatchAtomicity.property,
      ToolCallMatching.property, ToolLoopAtomicity.property]
  rw [hpasses, ObservationUniqueness.enforce, ObservationUniqueness.duplicates_eq_nil,
    BatchAtomicity.enforce_eq_nil, ToolCallMatching.enforce_eq_nil, ToolLoopAtomicity.enforce_eq_nil hn]
  constructor
  · rintro ⟨⟨h1, -⟩, h2, ⟨h3, h4⟩, h5⟩
    exact ⟨h1, h2, h3, h4, h5⟩
  · rintro ⟨h1, h2, h3, h4, h5⟩
    exact ⟨⟨h1, by simp⟩, h2, ⟨h3, h4⟩, h5⟩

end AgentSdk
