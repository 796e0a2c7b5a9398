import AgentSdk.View.Closed
import Mathlib.Tactic.IntervalCases
/-!
# Cutting a view

Condensers delete `events[i:j]` and put a summary at `i`, for indices `i ≤ j`
of `View.manipulation_indices`. When such a cut leaves a view on which the
properties hold again, gap by gap.
-/

namespace AgentSdk

/-! ## The two sides of a gap -/

/-- `e` before a gap and `f` behind it must be kept or dropped together. -/
def Joined (all : List Event) (e f : Event) : Prop :=
  BatchAtomicity.sameBatch e f = true ∨ (∃ id, e.observes id = true ∧ f.requests id = true) ∨
    ∃ l ∈ ToolLoopAtomicity.toolLoops all, e.id ∈ l ∧ f.id ∈ l

def Straddled (all before after : List Event) : Prop := ∃ e ∈ before, ∃ f ∈ after, Joined all e f

/-- Neighbours of one batch. -/
def NextInBatch (before after : List Event) : Prop :=
  ∃ l r, before.getLast? = some l ∧ after.head? = some r ∧ BatchAtomicity.sameBatch l r = true

/-- A call without an answer so far. -/
def CallPending (id : ToolCallID) (before : List Event) : Prop :=
  ∃ pre e post, before = pre ++ e :: post ∧ e.requests id = true ∧ ∀ o ∈ post, o.observes id = false

/-- A tool loop is open. -/
def InToolLoop (before : List Event) : Prop :=
  ∃ pre e post, before = pre ++ e :: post ∧ ToolLoopAtomicity.move e = .start ∧
    ∀ x ∈ post, ToolLoopAtomicity.move x = .stay

/-- The gap between two neighbours of a batch, one behind a call that is not
answered yet, or one in the middle of a tool loop of the view. -/
def Guarded (before after : List Event) : Prop :=
  NextInBatch before after ∨ (∃ id, CallPending id before) ∨
    InToolLoop before ∧ ∃ r, after.head? = some r ∧ ToolLoopAtomicity.move r = .stay

/-! ## What the properties allow -/

theorem BatchAtomicity.lt_of_mem_inside {k x : Nat} {es : List Event} (h : x ∈ inside k es) : k < x := by
  fun_induction inside k es with
  | case1 k left right es hs ih =>
    rcases List.mem_cons.1 h with rfl | h
    · omega
    · have := ih h
      omega
  | case2 k left right es hs ih =>
    have := ih h
    omega
  | case3 => simp at h

theorem BatchAtomicity.not_mem_inside (k : Nat) (es : List Event) : k ∉ inside k es := fun h =>
  Nat.lt_irrefl k (lt_of_mem_inside h)

theorem BatchAtomicity.mem_inside {k : Nat} {before after : List Event} :
    k + before.length ∈ inside k (before ++ after) ↔ NextInBatch before after := by
  induction before generalizing k with
  | nil => simpa [NextInBatch] using not_mem_inside k after
  | cons l before ih =>
    cases before with
    | nil =>
      cases after with
      | nil => simp [inside, NextInBatch]
      | cons r after =>
        have hskip := not_mem_inside (k + 1) (r :: after)
        by_cases hs : sameBatch l r = true <;> simp [inside, NextInBatch, hs, hskip]
    | cons l' before =>
      have hlen : k + (l :: l' :: before).length = k + 1 + (l' :: before).length := by
        simp only [List.length_cons]
        omega
      have hlast : NextInBatch (l :: l' :: before) after ↔ NextInBatch (l' :: before) after := by
        rw [NextInBatch, NextInBatch, List.getLast?_cons_cons]
      rw [hlast, ← ih, hlen, List.cons_append, List.cons_append, inside, ← List.cons_append]
      split
      · rw [List.mem_cons]
        refine or_iff_right ?_
        simp
      · rfl

namespace ToolCallMatching

theorem mem_pendingStep {pending : List ToolCallID} {e : Event} {id : ToolCallID} :
    id ∈ pendingStep pending e ↔ e.requests id = true ∨ id ∈ pending ∧ e.observes id = false := by
  unfold pendingStep
  cases hb : e.body with
  | action a =>
    simp only [List.mem_insert_iff, Event.requests, Event.observes, Event.action?, Event.observation?, hb,
      Option.any_some, Option.any_none, decide_eq_true_eq, and_true]
    exact or_congr_left eq_comm
  | observation o =>
    simp only [List.mem_filter, Event.requests, Event.observes, Event.action?, Event.observation?, hb,
      Option.any_some, Option.any_none, decide_eq_true_eq, decide_eq_false_iff_not, Bool.false_eq_true, false_or]
    exact and_congr_right fun _ => ne_comm
  | _ => simp [Event.requests, Event.observes, Event.action?, Event.observation?, hb]

theorem mem_foldl_pendingStep {pending : List ToolCallID} {es : List Event} {id : ToolCallID} :
    id ∈ es.foldl pendingStep pending ↔
      CallPending id es ∨ id ∈ pending ∧ ∀ o ∈ es, o.observes id = false := by
  induction es generalizing pending with
  | nil => simp [CallPending]
  | cons e es ih =>
    have hcons : CallPending id (e :: es) ↔
        CallPending id es ∨ e.requests id = true ∧ ∀ o ∈ es, o.observes id = false := by
      constructor
      · rintro ⟨_ | ⟨x, pre⟩, f, post, heq, hf⟩
        · obtain ⟨rfl, rfl⟩ := List.cons.inj heq
          exact .inr hf
        · obtain ⟨rfl, rfl⟩ := List.cons.inj heq
          exact .inl ⟨pre, f, post, rfl, hf⟩
      · rintro (⟨pre, f, post, rfl, hf⟩ | hf)
        · exact ⟨e :: pre, f, post, rfl, hf⟩
        · exact ⟨[], e, es, rfl, hf⟩
    rw [List.foldl_cons, ih, mem_pendingStep, hcons, List.forall_mem_cons]
    tauto

theorem lt_of_mem_inside {pending : List ToolCallID} {k x : Nat} {es : List Event}
    (h : x ∈ inside pending k es) : k < x := by
  induction es generalizing pending k with
  | nil => simp [inside] at h
  | cons e es ih =>
    simp only [inside] at h
    split at h
    · rcases List.mem_cons.1 h with rfl | h
      · omega
      · have := ih h
        omega
    · have := ih h
      omega

theorem not_mem_inside (pending : List ToolCallID) (k : Nat) (es : List Event) : k ∉ inside pending k es :=
  fun h => Nat.lt_irrefl k (lt_of_mem_inside h)

theorem mem_inside {pending : List ToolCallID} {k : Nat} {before after : List Event} (hb : before ≠ []) :
    k + before.length ∈ inside pending k (before ++ after) ↔ before.foldl pendingStep pending ≠ [] := by
  induction before generalizing pending k with
  | nil => exact absurd rfl hb
  | cons e before ih =>
    have hlen : k + (e :: before).length = k + 1 + before.length := by
      rw [List.length_cons]
      omega
    rw [hlen, List.cons_append, inside, List.foldl_cons]
    by_cases hnil : before = []
    · subst hnil
      by_cases hp : pendingStep pending e = [] <;> simp [hp, not_mem_inside]
    · rw [← ih hnil (k := k + 1)]
      by_cases hp : pendingStep pending e = [] <;> simp [hp, hnil]

end ToolCallMatching

namespace ToolLoopAtomicity

/-- `in_tool_loop` after one more event. -/
def loopStep (inToolLoop : Bool) (e : Event) : Bool :=
  match move e with
  | .start => true
  | .stay => inToolLoop
  | .exit => false

theorem foldl_loopStep {b : Bool} {es : List Event} :
    es.foldl loopStep b = true ↔ InToolLoop es ∨ b = true ∧ ∀ x ∈ es, move x = .stay := by
  induction es generalizing b with
  | nil => simp [InToolLoop]
  | cons e es ih =>
    have hcons : InToolLoop (e :: es) ↔ InToolLoop es ∨ move e = .start ∧ ∀ x ∈ es, move x = .stay := by
      constructor
      · rintro ⟨_ | ⟨x, pre⟩, f, post, heq, hf⟩
        · obtain ⟨rfl, rfl⟩ := List.cons.inj heq
          exact .inr hf
        · obtain ⟨rfl, rfl⟩ := List.cons.inj heq
          exact .inl ⟨pre, f, post, rfl, hf⟩
      · rintro (⟨pre, f, post, rfl, hf⟩ | hf)
        · exact ⟨e :: pre, f, post, rfl, hf⟩
        · exact ⟨[], e, es, rfl, hf⟩
    rw [List.foldl_cons, ih, hcons, List.forall_mem_cons, loopStep]
    cases move e <;> simp

theorem le_of_mem_inside {b : Bool} {k x : Nat} {es : List Event} (h : x ∈ inside b k es) : k ≤ x := by
  induction es generalizing b k with
  | nil => simp [inside] at h
  | cons e es ih =>
    have hrest : ∀ b, x ∈ inside b (k + 1) es → k ≤ x := fun b h => by
      have := ih h
      omega
    unfold inside at h
    cases hm : move e with
    | start => exact hrest _ (by simpa [hm] using h)
    | exit => exact hrest _ (by simpa [hm] using h)
    | stay =>
      cases b with
      | false => exact hrest _ (by simpa [hm] using h)
      | true =>
        rcases (by simpa [hm] using h : x = k ∨ x ∈ inside true (k + 1) es) with rfl | h
        · exact Nat.le_refl _
        · exact hrest _ h

theorem mem_inside {b : Bool} {k : Nat} {before after : List Event} :
    k + before.length ∈ inside b k (before ++ after) ↔
      before.foldl loopStep b = true ∧ ∃ r, after.head? = some r ∧ move r = .stay := by
  induction before generalizing b k with
  | nil =>
    cases after with
    | nil => simp [inside]
    | cons r after =>
      have hlt : ∀ b es, k ∉ inside b (k + 1) es := fun b es h => Nat.lt_irrefl k (le_of_mem_inside h)
      unfold inside
      cases hm : move r <;> cases b <;> simp [hm, hlt]
  | cons e before ih =>
    have hlen : k + (e :: before).length = k + 1 + before.length := by
      rw [List.length_cons]
      omega
    have hne : k + 1 + before.length ≠ k := by omega
    rw [hlen, List.cons_append, inside, List.foldl_cons, loopStep]
    cases hm : move e <;> cases b <;> simp [hne, ih]

end ToolLoopAtomicity

theorem ManipulationIndices.mem_without {before after : List Event} {removed : List Nat} :
    before.length ∈ without (before ++ after) removed ↔ before.length ∉ removed := by
  have hlt : before.length < (before ++ after).length + 1 := by
    rw [List.length_append]
    omega
  simp only [without, complete, List.mem_filter, List.mem_range, hlt, true_and, decide_eq_true_eq]

/-- The manipulation indices are the gaps without a guard. -/
theorem View.mem_manipulationIndices {v : View} {before after : List Event} (h : v.events = before ++ after) :
    before.length ∈ v.manipulationIndices ↔ ¬ Guarded before after := by
  have hcomplete : before.length ∈ ManipulationIndices.complete v.events := by
    simp only [ManipulationIndices.complete, h, List.mem_range, List.length_append]
    omega
  have hmem : before.length ∈ v.manipulationIndices ↔
      before.length ∈ BatchAtomicity.manipulationIndices v.events ∧
      before.length ∈ ToolCallMatching.manipulationIndices v.events ∧
      before.length ∈ ToolLoopAtomicity.manipulationIndices v.events := by
    simp only [manipulationIndices, allProperties, ObservationUniqueness.property, BatchAtomicity.property,
      ToolCallMatching.property, ToolLoopAtomicity.property, List.foldl_cons, List.foldl_nil, List.mem_filter,
      decide_eq_true_eq, hcomplete, true_and, and_assoc]
  have hbatch := @BatchAtomicity.mem_inside 0 before after
  have hloop := @ToolLoopAtomicity.mem_inside false 0 before after
  have hcall : before.length ∈ ToolCallMatching.inside [] 0 (before ++ after) ↔ ∃ id, CallPending id before := by
    by_cases hnil : before = []
    · subst hnil
      simpa [CallPending] using ToolCallMatching.not_mem_inside [] 0 after
    · have hin := @ToolCallMatching.mem_inside [] 0 before after hnil
      rw [Nat.zero_add] at hin
      rw [hin, ne_eq, List.eq_nil_iff_forall_not_mem]
      simp [ToolCallMatching.mem_foldl_pendingStep]
  rw [Nat.zero_add] at hbatch hloop
  simp only [ToolLoopAtomicity.foldl_loopStep, Bool.false_eq_true, false_and, or_false] at hloop
  rw [hmem, h, BatchAtomicity.manipulationIndices, ToolCallMatching.manipulationIndices,
    ToolLoopAtomicity.manipulationIndices, ManipulationIndices.mem_without, ManipulationIndices.mem_without,
    ManipulationIndices.mem_without, hbatch, hcall, hloop, Guarded, not_or, not_or]

/-! ## Cutting -/

/-- A summary that a condensation may insert: its id is no event's. -/
def FreshSummary (all : List Event) (e : Event) : Prop :=
  (∃ summary, e.body = .condensationSummary summary) ∧ e.id ∉ all.map Event.id

/-- After every cut, with a summary in its place or without, no property drops
anything. -/
def ManipulationSound (all : List Event) (v : View) : Prop :=
  ∀ i ∈ v.manipulationIndices, ∀ j ∈ v.manipulationIndices, i ≤ j → ∀ summary : Option Event,
    (∀ e ∈ summary, FreshSummary all e) →
    ∀ p ∈ View.passes all, p (v.events.take i ++ summary.toList ++ v.events.drop j) = []

section Cut
variable {all before gone after : List Event}

theorem FreshSummary.not_tool {e : Event} (h : FreshSummary all e) :
    e.action? = none ∧ e.observation? = none := by
  obtain ⟨⟨s, hs⟩, -⟩ := h
  simp [Event.action?, Event.observation?, hs]

/-- Every call before a gap without a guard has its answer before it. -/
theorem answered_before (h : ¬ Guarded before after) {e : Event} (he : e ∈ before) {id : ToolCallID}
    (hid : e.requests id = true) : ∃ o ∈ before, o.observes id = true := by
  obtain ⟨pre, post, rfl⟩ := List.append_of_mem he
  by_contra hno
  refine h (.inr (.inl ⟨id, pre, e, post, rfl, hid, fun o ho => ?_⟩))
  rw [← Bool.not_eq_true]
  exact fun hobs => hno ⟨o, List.mem_append_right _ (List.mem_cons_of_mem _ ho), hobs⟩

/-- Two observations of one tool call do not stand on two sides of a gap. -/
theorem observation_once {view : List Event} (h : (ToolCallMatching.observationToolCallIds view).Nodup)
    {left right : List Event} (hv : view = left ++ right) {o o' : Event} (ho : o ∈ left) (ho' : o' ∈ right)
    {id : ToolCallID} (hid : o.observes id = true) (hid' : o'.observes id = true) : False := by
  rw [hv, ToolCallMatching.observationToolCallIds, List.filterMap_append, List.nodup_append] at h
  have hmem : ∀ {es : List Event} {x : Event}, x ∈ es → x.observes id = true →
      id ∈ es.filterMap fun e => e.observation?.map ObservationBaseEvent.toolCallId :=
    fun hx hxid => ToolCallMatching.mem_observationToolCallIds.2 ⟨_, hx, hxid⟩
  exact h.2.2 id (hmem ho hid) id (hmem ho' hid') rfl

/-- Cutting between two gaps that nothing straddles keeps a closed view closed. -/
theorem Closed.cut (h : Closed all (before ++ gone ++ after)) (hg : ¬ Guarded before (gone ++ after))
    (hs : ¬ Straddled all before (gone ++ after)) (hg' : ¬ Guarded (before ++ gone) after)
    (hs' : ¬ Straddled all (before ++ gone) after) {summary : Option Event}
    (hsum : ∀ e ∈ summary, FreshSummary all e) : Closed all (before ++ summary.toList ++ after) := by
  -- Nothing that goes belongs together with anything that stays.
  have hsep : ∀ e f, f ∈ gone → (e ∈ before → ¬ Joined all e f) ∧ (e ∈ after → ¬ Joined all f e) :=
    fun e f hf => ⟨fun he hj => hs ⟨e, he, f, List.mem_append_left _ hf, hj⟩,
      fun he hj => hs' ⟨f, List.mem_append_right _ hf, e, he, hj⟩⟩
  -- The events of the new view are those kept, and perhaps the summary.
  have hmem : ∀ e, e ∈ before ++ summary.toList ++ after ↔ (e ∈ before ∨ e ∈ after) ∨ e ∈ summary := by
    intro e
    simp only [List.mem_append, Option.mem_toList]
    tauto
  have hold : ∀ e, e ∈ before ∨ e ∈ after → e ∈ before ++ gone ++ after := by
    intro e he
    simp only [List.mem_append]
    tauto
  have hnew : ∀ e, e ∈ before ∨ e ∈ after → e ∈ before ++ summary.toList ++ after := fun e he => (hmem e).2 (.inl he)
  have hsplit : ∀ e ∈ before ++ gone ++ after, (e ∈ before ∨ e ∈ after) ∨ e ∈ gone := by
    intro e he
    simp only [List.mem_append] at he
    tauto
  refine ⟨?_, fun e he a ha id => ?_, fun e he id hid => ?_, fun o ho id hid => ?_, fun e he l hl hel x hx => ?_⟩
  · have hnil : ToolCallMatching.observationToolCallIds summary.toList = [] := by
      cases summary with
      | none => rfl
      | some e => simp [ToolCallMatching.observationToolCallIds, (hsum e rfl).not_tool.2]
    have heq : ToolCallMatching.observationToolCallIds (before ++ summary.toList ++ after) =
        ToolCallMatching.observationToolCallIds (before ++ after) := by
      unfold ToolCallMatching.observationToolCallIds at hnil ⊢
      rw [List.filterMap_append, List.filterMap_append, hnil, List.append_nil, List.filterMap_append]
    rw [heq]
    refine h.unique.sublist (List.Sublist.filterMap _ ?_)
    rw [List.append_assoc]
    exact (List.sublist_append_right _ _).append_left _
  · rcases (hmem e).1 he with he | he
    · rw [← h.batches e (hold e he) a ha id, BatchAtomicity.mem_batch, BatchAtomicity.mem_batch]
      constructor
      · rintro ⟨f, hf, b, hb, hr, hid⟩
        rcases (hmem f).1 hf with hf | hf
        · exact ⟨f, hold f hf, b, hb, hr, hid⟩
        · simp [(hsum f hf).not_tool.1] at hb
      · rintro ⟨f, hf, b, hb, hr, hid⟩
        rcases hsplit f hf with hf | hf
        · exact ⟨f, hnew f hf, b, hb, hr, hid⟩
        · exfalso
          rcases he with he | he
          · exact (hsep e f hf).1 he (.inl (by simp [BatchAtomicity.sameBatch, ha, hb, hr]))
          · exact (hsep e f hf).2 he (.inl (by simp [BatchAtomicity.sameBatch, ha, hb, hr]))
    · simp [(hsum e he).not_tool.1] at ha
  · rcases (hmem e).1 he with (he | he) | he
    · obtain ⟨o, ho, hobs⟩ := answered_before hg he hid
      exact ⟨o, hnew o (.inl ho), hobs⟩
    · obtain ⟨o, ho, hobs⟩ := h.answered e (hold e (.inr he)) id hid
      rcases hsplit o ho with ho | ho
      · exact ⟨o, hnew o ho, hobs⟩
      · exact absurd (.inr (.inl ⟨id, hobs, hid⟩)) ((hsep e o ho).2 he)
    · simp [Event.requests, (hsum e he).not_tool.1] at hid
  · rcases (hmem o).1 ho with ho | ho
    · obtain ⟨e, he, hreq⟩ := h.requested o (hold o ho) id hid
      rcases hsplit e he with he | he
      · exact ⟨e, hnew e he, hreq⟩
      · exfalso
        rcases ho with ho | ho
        · exact (hsep o e he).1 ho (.inr (.inl ⟨id, hid, hreq⟩))
        · -- The call was answered before the cut, and would be once more behind it.
          obtain ⟨o', ho', hobs⟩ := answered_before hg' (List.mem_append_right _ he) hreq
          exact observation_once h.unique rfl ho' ho hobs hid
    · simp [Event.observes, (hsum o ho).not_tool.2] at hid
  · rcases (hmem e).1 he with he | he
    · obtain ⟨f, hf, rfl⟩ := List.mem_map.1 (h.loops e (hold e he) l hl hel hx)
      rcases hsplit f hf with hf | hf
      · exact List.mem_map_of_mem (hnew f hf)
      · exfalso
        rcases he with he | he
        · exact (hsep e f hf).1 he (.inr (.inr ⟨l, hl, hel, hx⟩))
        · exact (hsep e f hf).2 he (.inr (.inr ⟨l, hl, hx, hel⟩))
    · exact absurd (ToolLoopAtomicity.subset_of_mem_toolLoops hl hel) (hsum e he).2

/-- Dropping all before a straddled gap leaves a view that is not closed. -/
theorem not_closed_of_straddled (h : Closed all (before ++ after)) (hn : ((before ++ after).map Event.id).Nodup)
    (hs : Straddled all before after) : ¬ Closed all after := by
  rintro hc
  have hdisj : ∀ e ∈ before, e.id ∉ after.map Event.id := by
    intro e he hmem
    rw [List.map_append, List.nodup_append] at hn
    exact hn.2.2 e.id (List.mem_map_of_mem he) e.id hmem rfl
  obtain ⟨e, he, f, hf, hbatch | ⟨id, hobs, hreq⟩ | ⟨l, hl, hel, hfl⟩⟩ := hs
  · unfold BatchAtomicity.sameBatch at hbatch
    cases ha : e.action? with
    | none => simp [ha] at hbatch
    | some a =>
      cases hb : f.action? with
      | none => simp [hb] at hbatch
      | some b =>
        simp only [ha, hb, decide_eq_true_eq] at hbatch
        have hall : e.id ∈ BatchAtomicity.batch all b.llmResponseId :=
          (h.batches f (List.mem_append_right _ hf) b hb _).1
            (BatchAtomicity.mem_batch.2 ⟨e, List.mem_append_left _ he, a, ha, hbatch, rfl⟩)
        obtain ⟨e', he', -, -, -, hid⟩ := BatchAtomicity.mem_batch.1 ((hc.batches f hf b hb _).2 hall)
        exact hdisj e he (hid ▸ List.mem_map_of_mem he')
  · obtain ⟨o, ho, hobs'⟩ := hc.answered f hf id hreq
    exact observation_once h.unique rfl he ho hobs hobs'
  · exact hdisj e he (hc.loops f hf l hl hfl hel)

end Cut

/-- The manipulation indices of a stable view are sound exactly when every gap
that something straddles has a guard. -/
theorem manipulationSound_iff {all : List Event} {v : View} (hall : (all.map Event.id).Nodup)
    (hv : (v.events.map Event.id).Nodup) (hstable : ∀ p ∈ View.passes all, p v.events = []) :
    ManipulationSound all v ↔
      ∀ before after, v.events = before ++ after → Straddled all before after → Guarded before after := by
  have hclosed := (closed_iff hall).1 hstable
  constructor
  · intro h before after heq hs
    by_contra hg
    have h0 : ([] : List Event).length ∈ v.manipulationIndices :=
      (View.mem_manipulationIndices (List.nil_append v.events).symm).2 (by
        rintro (⟨_, _, hl, -⟩ | ⟨_, _, _, _, hl, -⟩ | ⟨⟨_, _, _, hl, -⟩, -⟩) <;> simp at hl)
    have hcut := h _ h0 _ ((View.mem_manipulationIndices heq).2 hg) (Nat.zero_le _) none (by simp)
    have hafter : v.events.take ([] : List Event).length ++ (none : Option Event).toList ++
        v.events.drop before.length = after := by
      simp [heq]
    rw [hafter] at hcut
    rw [heq] at hclosed hv
    exact not_closed_of_straddled hclosed hv hs ((closed_iff hall).1 hcut)
  · intro h i hi j hj hij summary hsum
    have hle : j ≤ v.events.length := by
      have hc : j ∈ ManipulationIndices.complete v.events := by
        simp only [View.manipulationIndices, allProperties, List.foldl_cons, List.foldl_nil, List.mem_filter] at hj
        exact hj.1.1.1.1
      simp only [ManipulationIndices.complete, List.mem_range] at hc
      omega
    have hdrop : v.events.drop i = (v.events.drop i).take (j - i) ++ v.events.drop j := by
      conv_lhs => rw [← List.take_append_drop (j - i) (v.events.drop i)]
      rw [List.drop_drop]
      congr 2
      omega
    have hi' : i = (v.events.take i).length := by
      rw [List.length_take]
      omega
    have heq₁ : v.events = v.events.take i ++ ((v.events.drop i).take (j - i) ++ v.events.drop j) := by
      rw [← hdrop, List.take_append_drop]
    have heq₂ : v.events = v.events.take i ++ (v.events.drop i).take (j - i) ++ v.events.drop j := by
      rw [List.append_assoc]
      exact heq₁
    have hj' : j = (v.events.take i ++ (v.events.drop i).take (j - i)).length := by
      rw [List.length_append, List.length_take, List.length_take, List.length_drop]
      omega
    have hg₁ := (View.mem_manipulationIndices heq₁).1 (hi' ▸ hi)
    have hg₂ := (View.mem_manipulationIndices heq₂).1 (hj' ▸ hj)
    rw [closed_iff hall]
    exact Closed.cut (heq₂ ▸ hclosed) hg₁ (fun hs => hg₁ (h _ _ heq₁ hs)) hg₂ (fun hs => hg₂ (h _ _ heq₂ hs)) hsum

/-! ## A batch that starts with an invalid call

Two calls of one response. When both validate, both actions come before the
observations; an invalid first call is answered before the second action. -/

namespace BatchExample

def action (id : EventID) (call : ToolCallID) (action : Option Action) (h : id ≠ rootParentId := by exact ne_rootParentId trivial) : Event :=
  { id, notRoot := h
    body := .action
      { action, toolName := "terminal", toolCall := ⟨call, "terminal", "ls"⟩, toolCallId := call
        llmResponseId := "response" } }

def observation (id actionId : EventID) (call : ToolCallID) (h : id ≠ rootParentId := by exact ne_rootParentId trivial) : Event :=
  { id, notRoot := h
    body := .observation { toolName := "terminal", toolCallId := call, kind := .observation ["ok"] [] actionId } }

def error (id : EventID) (call : ToolCallID) (h : id ≠ rootParentId := by exact ne_rootParentId trivial) : Event :=
  { id, notRoot := h
    body := .observation { toolName := "terminal", toolCallId := call, kind := .agentError "invalid arguments" } }

def valid : List Event :=
  [action "action-1" "call-1" (some (.other "ls")), action "action-2" "call-2" (some (.other "ls")),
    observation "observation-1" "action-1" "call-1", observation "observation-2" "action-2" "call-2"]

def invalidFirst : List Event :=
  [action "action-1" "call-1" none, error "error-1" "call-1",
    action "action-2" "call-2" (some (.other "ls")), observation "observation-2" "action-2" "call-2"]

end BatchExample

open BatchExample in
/-- Between two adjacent actions of a batch no cut is offered. -/
theorem manipulationSound_valid : ManipulationSound valid (View.fromEvents valid) := by
  have hev : (View.fromEvents valid).events = valid := by decide
  refine (manipulationSound_iff (by decide) (by decide) (by decide)).2 fun before after heq hs => ?_
  rw [hev] at heq
  obtain ⟨hbefore, hafter⟩ : before = valid.take before.length ∧ after = valid.drop before.length := by simp [heq]
  rcases Nat.lt_or_ge before.length 2 with hlt | hge
  · interval_cases hk : before.length
    · obtain ⟨e, he, -⟩ := hs
      rw [hbefore] at he
      cases he
    · rw [hbefore, hafter]
      exact .inl ⟨_, _, rfl, rfl, by decide⟩
  · -- Only observations stand behind the other gaps, and there is no loop.
    obtain ⟨e, -, f, hf, hj⟩ := hs
    have hnone : f.action? = none := by
      have hobs : ∀ x ∈ valid.drop 2, x.action? = none := by decide
      have hdrop : valid.drop before.length = (valid.drop 2).drop (before.length - 2) := by
        rw [List.drop_drop]
        congr 1
        omega
      rw [hafter, hdrop] at hf
      exact hobs f (List.mem_of_mem_drop hf)
    have hloops : ToolLoopAtomicity.toolLoops valid = [] := by decide
    rcases hj with hb | ⟨id, -, hreq⟩ | ⟨l, hl, -⟩
    · unfold BatchAtomicity.sameBatch at hb
      simp [hnone] at hb
    · simp [Event.requests, hnone] at hreq
    · simp [hloops] at hl

open BatchExample in
/-- The gap behind the first call's error is offered, and cutting there tears
the batch apart. -/
theorem manipulation_unsound_invalidFirst : ¬ ∀ all v, (all.map Event.id).Nodup → (v.events.map Event.id).Nodup →
    (∀ p ∈ View.passes all, p v.events = []) → ManipulationSound all v := by
  intro h
  have hcut := h invalidFirst (View.fromEvents invalidFirst) (by decide) (by decide) (by decide)
    0 (by decide) 2 (by decide) (by decide) none (by simp)
  revert hcut
  decide

end AgentSdk
