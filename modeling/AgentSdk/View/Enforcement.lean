import AgentSdk.View.Tidy
/-!
# What enforcement keeps

Enforcement drops events in rounds until nothing is left to drop. Said once
for all rounds: an event is lost when it is not there, repeats an answer,
needs something that is lost, or shares its id with a lost event; the view is
what is not lost.
-/

namespace AgentSdk
open Lib

/-- The cascade of enforcement over the branch `events`. -/
inductive Lost (events : List Event) : Event → Prop
  | absent {x : Event} : x ∉ View.rawEvents events → Lost events x
  | repeated {x o : Event} {pre post : List Event} {id : ToolCallID} : View.rawEvents events = pre ++ x :: post →
      o ∈ pre → o.observes id = true → x.observes id = true → Lost events x
  | batch {x y : Event} : BatchAtomicity.sameBatch x y = true → y ∈ events → Lost events y → Lost events x
  | loop {x : Event} {l : List EventID} {id : EventID} : l ∈ ToolLoopAtomicity.toolLoops events → x.id ∈ l → id ∈ l →
      (∀ y ∈ View.rawEvents events, y.id = id → Lost events y) → Lost events x
  | unanswered {x : Event} {id : ToolCallID} : x.requests id = true →
      (∀ o ∈ View.rawEvents events, o.observes id = true → Lost events o) → Lost events x
  | unrequested {x : Event} {id : ToolCallID} : x.observes id = true →
      (∀ c ∈ View.rawEvents events, c.requests id = true → Lost events c) → Lost events x
  | sameId {x y : Event} : x.id = y.id → y ∈ View.rawEvents events → Lost events y → Lost events x

/-- Ids in the raw view are those of events or of summaries that were inserted. -/
theorem mem_ids_rawEvents {events : List Event} {x : Event} (h : x ∈ View.rawEvents events) :
    x ∈ events ∨ ∃ e ∈ events, ∃ c s, e.body = .condensation c ∧ c.summary = some s ∧
      x = Condensation.summaryEvent e.id s := by
  induction events using List.reverseRecOn with
  | nil => simp [View.rawEvents] at h
  | append_singleton events e ih =>
    have hold : x ∈ View.rawEvents events → x ∈ events ++ [e] ∨ ∃ y ∈ events ++ [e], ∃ c s,
        y.body = .condensation c ∧ c.summary = some s ∧ x = Condensation.summaryEvent y.id s := by
      intro hx
      rcases ih hx with hx | ⟨y, hy, hs⟩
      · exact .inl (List.mem_append_left _ hx)
      · exact .inr ⟨y, List.mem_append_left _ hy, hs⟩
    rw [rawEvents_snoc] at h
    unfold View.appendRaw at h
    split at h
    · rename_i c hb
      unfold Condensation.apply at h
      have hout : x ∈ (View.rawEvents events).filter (·.id ∉ c.forgottenEventIds) → x ∈ View.rawEvents events :=
        List.mem_of_mem_filter
      split at h
      · rename_i s _ hs _
        rcases List.mem_append.1 h with h | h
        · exact hold (hout (List.mem_of_mem_take h))
        · rcases List.mem_cons.1 h with h | h
          · exact .inr ⟨e, by simp, c, s, hb, hs, h⟩
          · exact hold (hout (List.mem_of_mem_drop h))
      · exact hold (hout h)
    · split at h
      · rcases List.mem_append.1 h with h | h
        · exact hold h
        · exact .inl (List.mem_append_right _ h)
      · exact hold h

/-- Summaries are no actions. -/
theorem mem_events_of_action {events : List Event} {x : Event} (h : x ∈ View.rawEvents events) {a : ActionEvent}
    (ha : x.action? = some a) : x ∈ events := by
  rcases mem_ids_rawEvents h with hx | ⟨_, _, _, _, _, _, rfl⟩
  · exact hx
  · cases ha

/-! ## One round -/

theorem ObservationUniqueness.mem_duplicates {seen : List ToolCallID} {es : List Event} {id : EventID} :
    id ∈ duplicates seen es ↔ ∃ pre x post t, es = pre ++ x :: post ∧ x.id = id ∧ x.observes t = true ∧
      (t ∈ seen ∨ ∃ o ∈ pre, o.observes t = true) := by
  induction es generalizing seen with
  | nil => simp [duplicates]
  | cons e es ih =>
    have hobs : ∀ {o t}, e.observation? = some o → (e.observes t = true ↔ o.toolCallId = t) := by
      intro o t ho
      simp [Event.observes_iff, ho]
    unfold duplicates
    constructor
    · intro h
      -- A duplicate among the later events, with what is seen at the first one.
      have hrest : ∀ {seen'}, (∀ t ∈ seen', t ∈ seen ∨ e.observes t = true) → id ∈ duplicates seen' es →
          ∃ pre x post t, e :: es = pre ++ x :: post ∧ x.id = id ∧ x.observes t = true ∧
            (t ∈ seen ∨ ∃ o ∈ pre, o.observes t = true) := by
        intro seen' hseen h
        obtain ⟨pre, x, post, t, rfl, hid, hxt, ht⟩ := ih.1 h
        refine ⟨e :: pre, x, post, t, rfl, hid, hxt, ?_⟩
        rcases ht with ht | ⟨o, ho, hot⟩
        · exact (hseen t ht).imp_right fun he => ⟨e, List.mem_cons_self, he⟩
        · exact .inr ⟨o, List.mem_cons_of_mem _ ho, hot⟩
      cases ho : e.observation? with
      | none =>
        rw [ho] at h
        exact hrest (fun _ => .inl) h
      | some o =>
        rw [ho] at h
        dsimp only at h
        split at h
        · -- The first event answers a call that was seen.
          rcases List.mem_cons.1 h with rfl | h
          · exact ⟨[], e, es, o.toolCallId, rfl, rfl, (hobs ho).2 rfl, .inl ‹_›⟩
          · exact hrest (fun _ => .inl) h
        · refine hrest (fun t ht => ?_) h
          rcases List.mem_cons.1 ht with rfl | ht
          · exact .inr ((hobs ho).2 rfl)
          · exact .inl ht
    · rintro ⟨_ | ⟨y, pre⟩, x, post, t, heq, hid, hxt, ht⟩
      · cases heq
        obtain ⟨o, ho, hot⟩ := Event.observes_iff.1 hxt
        have hseen : o.toolCallId ∈ seen := by simpa [hot] using ht
        rw [ho]
        dsimp only
        rw [if_pos hseen, hid]
        exact List.mem_cons_self
      · obtain ⟨rfl, rfl⟩ := List.cons.inj heq
        have hrest : ∀ {seen'}, (t ∈ seen ∨ e.observes t = true → t ∈ seen') →
            id ∈ duplicates seen' (pre ++ x :: post) := by
          intro seen' hseen
          refine ih.2 ⟨pre, x, post, t, rfl, hid, hxt, ?_⟩
          rcases ht with ht | ⟨o, ho, hot⟩
          · exact .inl (hseen (.inl ht))
          · rcases List.mem_cons.1 ho with rfl | ho
            · exact .inl (hseen (.inr hot))
            · exact .inr ⟨o, ho, hot⟩
        cases ho : e.observation? with
        | none => exact hrest fun h => h.resolve_right (by simp [Event.observes, ho])
        | some o =>
          dsimp only
          split
          · refine List.mem_cons_of_mem _ (hrest fun h => h.elim (·) fun hy => ?_)
            rw [← (hobs ho).1 hy]
            assumption
          · refine hrest fun h => ?_
            rcases h with h | hy
            · exact List.mem_cons_of_mem _ h
            · rw [(hobs ho).1 hy]
              exact List.mem_cons_self

/-- An event that loop atomicity drops is in a loop that is not there as a whole. -/
theorem ToolLoopAtomicity.mem_enforce {view all : List Event} (hn : (all.map Event.id).Nodup) {id : EventID}
    (h : id ∈ enforce view all) : ∃ x ∈ view, ∃ l ∈ toolLoops all, x.id ∈ l ∧ ¬ l ⊆ view.map Event.id ∧ x.id = id := by
  have hfold : ∀ (es : List Event) (removed : List EventID), es ⊆ view →
      id ∈ es.foldl (removeStep (toolLoops all) (view.map Event.id)) removed → id ∈ removed ∨
        ∃ x ∈ view, ∃ l ∈ toolLoops all, x.id ∈ l ∧ ¬ l ⊆ view.map Event.id ∧ x.id = id := by
    intro es
    induction es with
    | nil => exact fun _ _ h => .inl h
    | cons e es ih =>
      intro removed hsub h
      rcases ih _ (fun x hx => hsub (List.mem_cons_of_mem _ hx)) h with h | h
      · unfold removeStep at h
        split at h
        · exact .inl h
        · split at h
          · rename_i l hf
            split at h
            · exact .inl h
            · rename_i hall
              rcases List.mem_append.1 h with h | h
              · exact .inl h
              · obtain ⟨hid, hl⟩ := List.mem_filter.1 h
                obtain ⟨x, hx, rfl⟩ := List.mem_map.1 hid
                refine .inr ⟨x, hx, l, ((find?_toolLoops hn).1 hf).1, by simpa using hl, ?_, rfl⟩
                simpa [List.subset_def] using hall
          · exact .inl h
      · exact .inr h
  exact (hfold view [] (List.Subset.refl _) h).resolve_left List.not_mem_nil

/-- What an enforcement pass drops is lost, as long as nothing else is gone. -/
theorem lost_of_dropped {events view : List Event} (hids : (events.map Event.id).Nodup)
    (hsub : view.Sublist (View.rawEvents events)) (hkept : ∀ x, ¬ Lost events x → x ∈ view)
    {p : List Event → List EventID} (hp : p ∈ View.passes events) {id : EventID} (hid : id ∈ p view) :
    ∃ x ∈ view, x.id = id ∧ Lost events x := by
  have hgone : ∀ {x}, x ∉ view → Lost events x := fun hx => by
    by_contra hl
    exact hx (hkept _ hl)
  simp only [View.passes, allProperties, List.map_cons, List.map_nil, List.mem_cons, List.not_mem_nil,
    or_false] at hp
  rcases hp with rfl | rfl | rfl | rfl
  · obtain ⟨pre, x, post, t, rfl, rfl, hxt, ht⟩ := ObservationUniqueness.mem_duplicates.1 hid
    obtain ⟨o, ho, hot⟩ := ht.resolve_left List.not_mem_nil
    obtain ⟨r₁, r₂, hr, h₁, h₂⟩ := List.append_sublist_iff.1 hsub
    obtain ⟨s₁, s₂, rfl⟩ := List.append_of_mem (h₂.subset List.mem_cons_self)
    exact ⟨x, by simp, rfl, .repeated (by rw [hr, List.append_assoc])
      (List.mem_append_left s₁ (h₁.subset ho)) hot hxt⟩
  · obtain ⟨x, hx, rfl, a, ha, hne⟩ := BatchAtomicity.mem_enforce.1 hid
    refine ⟨x, hx, rfl, ?_⟩
    have hbatch : ∀ y ∈ view, ∀ b, y.action? = some b → y ∈ events :=
      fun y hy b hb => mem_events_of_action (hsub.subset hy) hb
    by_contra hx
    rw [← Bool.not_eq_true, BatchAtomicity.sameIds_iff] at hne
    refine hne fun id => ?_
    rw [BatchAtomicity.mem_batch, BatchAtomicity.mem_batch]
    constructor
    · rintro ⟨y, hy, b, hb, hr⟩
      exact ⟨y, hbatch y hy b hb, b, hb, hr⟩
    · rintro ⟨y, hy, b, hb, hr, rfl⟩
      refine ⟨y, hkept y fun hl => hx (.batch ?_ hy hl), b, hb, hr, rfl⟩
      simp [BatchAtomicity.sameBatch, ha, hb, hr]
  · obtain ⟨x, hx, rfl⟩ := List.mem_map.1 hid
    obtain ⟨hx, hun⟩ := List.mem_filter.1 hx
    refine ⟨x, hx, rfl, ?_⟩
    unfold ToolCallMatching.unmatched at hun
    split at hun
    · rename_i a hb
      have ha : x.requests a.toolCallId = true := Event.requests_iff.2 ⟨a, Event.action?_eq_some.2 hb, rfl⟩
      refine .unanswered ha fun o _ ho => hgone fun hview => ?_
      simp only [decide_eq_true_eq] at hun
      exact hun (ToolCallMatching.mem_observationToolCallIds.2 ⟨o, hview, ho⟩)
    · rename_i o hb
      have ho : x.observes o.toolCallId = true := Event.observes_iff.2 ⟨o, Event.observation?_eq_some.2 hb, rfl⟩
      refine .unrequested ho fun c _ hc => hgone fun hview => ?_
      simp only [decide_eq_true_eq] at hun
      exact hun (ToolCallMatching.mem_actionToolCallIds.2 ⟨c, hview, hc⟩)
    · cases hun
  · obtain ⟨x, hx, l, hl, hxl, hnot, rfl⟩ := ToolLoopAtomicity.mem_enforce hids hid
    refine ⟨x, hx, rfl, ?_⟩
    simp only [List.subset_def, not_forall] at hnot
    obtain ⟨id, hidl, hidv⟩ := hnot
    refine .loop hl hxl hidl fun y _ hy => hgone fun hview => hidv ?_
    rw [← hy]
    exact List.mem_map_of_mem hview

/-! ## All rounds -/

section All
variable {events : List Event}

theorem fromEvents_sublist (events : List Event) :
    (View.fromEvents events).events.Sublist (View.rawEvents events) := by
  rw [View.fromEvents_events]
  exact View.enforceEvents_sublist events _

theorem fromEvents_closed (hids : (events.map Event.id).Nodup) :
    Closed events (View.fromEvents events).events := by
  rw [View.fromEvents_events]
  exact (closed_iff hids).1 (View.enforceEvents_stable events _)

/-- Enforcement goes by ids: events of one id share their fate. -/
theorem fromEvents_eq_filter (events : List Event) : ∃ keep : EventID → Bool,
    (View.fromEvents events).events = (View.rawEvents events).filter fun x => keep x.id := by
  rw [View.fromEvents_events]
  refine settle_inv (P := fun l => ∃ keep : EventID → Bool,
    l = (View.rawEvents events).filter fun x => keep x.id) ?_ ⟨fun _ => true, by simp⟩ (View.enforceEvents_eq events _)
  rintro l d ⟨keep, rfl⟩ _
  exact ⟨fun id => decide (id ∉ d) && keep id, by rw [List.filter_filter]⟩

/-- The first round drops every repeated answer. -/
theorem not_repeated_of_mem {x o : Event} {pre post : List Event} {id : ToolCallID}
    (hx : x ∈ (View.fromEvents events).events) (hraw : View.rawEvents events = pre ++ x :: post) (ho : o ∈ pre)
    (hoid : o.observes id = true) (hxid : x.observes id = true) : False := by
  have hdup : x.id ∈ ObservationUniqueness.duplicates [] (View.rawEvents events) :=
    ObservationUniqueness.mem_duplicates.2 ⟨pre, x, post, id, hraw, rfl, hxid, .inr ⟨o, ho, hoid⟩⟩
  have hfirst : firstDrop (View.passes events) (View.rawEvents events) =
      some (ObservationUniqueness.duplicates [] (View.rawEvents events)) := by
    have hne := List.ne_nil_of_mem hdup
    simp only [firstDrop, View.passes, allProperties, ObservationUniqueness.property, List.map_cons,
      List.findSome?_cons, ObservationUniqueness.enforce, if_neg hne]
  have hsettle := View.enforceEvents_eq events (View.rawEvents events)
  simp only [settle, hfirst] at hsettle
  rw [View.fromEvents_events] at hx
  have := (List.mem_filter.1 ((settle_sublist hsettle).subset hx)).2
  simp [hdup] at this

theorem not_mem_of_lost (hids : (events.map Event.id).Nodup) {x : Event} (hl : Lost events x) :
    x ∉ (View.fromEvents events).events := by
  have hc := fromEvents_closed hids
  induction hl with
  | absent hraw => exact fun hx => hraw ((fromEvents_sublist events).subset hx)
  | repeated hraw ho hoid hxid => exact fun hx => not_repeated_of_mem hx hraw ho hoid hxid
  | @batch x y hs hy _ ih =>
    intro hx
    unfold BatchAtomicity.sameBatch at hs
    cases ha : x.action? with
    | none => simp [ha] at hs
    | some a =>
      cases hb : y.action? with
      | none => simp [hb] at hs
      | some b =>
        have hr : a.llmResponseId = b.llmResponseId := by simpa [ha, hb] using hs
        have hall : y.id ∈ BatchAtomicity.batch events a.llmResponseId :=
          BatchAtomicity.mem_batch.2 ⟨y, hy, b, hb, hr.symm, rfl⟩
        obtain ⟨z, hz, c, hcz, -, hid⟩ := BatchAtomicity.mem_batch.1 ((hc.batches x hx a ha _).2 hall)
        have hze : z ∈ events := mem_events_of_action ((fromEvents_sublist events).subset hz) hcz
        exact ih (List.inj_on_of_nodup_map hids hze hy hid ▸ hz)
  | @loop x l id hl hxl hid _ ih =>
    intro hx
    obtain ⟨z, hz, hzid⟩ := List.mem_map.1 (hc.loops x hx l hl hxl hid)
    exact ih z ((fromEvents_sublist events).subset hz) hzid hz
  | @unanswered x id hreq _ ih =>
    intro hx
    obtain ⟨o, ho, hobs⟩ := hc.answered x hx id hreq
    exact ih o ((fromEvents_sublist events).subset ho) hobs ho
  | @unrequested x id hobs _ ih =>
    intro hx
    obtain ⟨c, hcv, hreq⟩ := hc.requested x hx id hobs
    exact ih c ((fromEvents_sublist events).subset hcv) hreq hcv
  | @sameId x y hid hy _ ih =>
    intro hx
    obtain ⟨keep, hkeep⟩ := fromEvents_eq_filter events
    rw [hkeep, List.mem_filter] at hx ih
    exact ih ⟨hy, hid ▸ hx.2⟩

end All

/-! ## The view, said once -/

open Classical in
/-- What is not lost, in the order of the raw view. -/
noncomputable def View.kept (events : List Event) : List Event :=
  (View.rawEvents events).filter (¬ Lost events ·)

/-- The view of a branch is what is not lost. -/
theorem fromEvents_eq_kept {events : List Event} (hids : (events.map Event.id).Nodup) :
    (View.fromEvents events).events = View.kept events := by
  have hkept : ∃ keep : Event → Bool, (View.fromEvents events).events = (View.rawEvents events).filter keep ∧
      ∀ x, ¬ Lost events x → keep x = true := by
    rw [View.fromEvents_events]
    refine settle_inv (P := fun l => ∃ keep : Event → Bool, l = (View.rawEvents events).filter keep ∧
      ∀ x, ¬ Lost events x → keep x = true) ?_ ⟨fun _ => true, by simp, fun _ _ => rfl⟩ (View.enforceEvents_eq events _)
    rintro l d ⟨keep, rfl, hkeep⟩ hd
    refine ⟨fun x => decide (x.id ∉ d) && keep x, by rw [List.filter_filter], fun x hx => ?_⟩
    simp only [hkeep x hx, Bool.and_true, decide_eq_true_eq]
    intro hxd
    obtain ⟨p, hp, rfl, -⟩ := firstDrop_eq_some hd
    have hview : ∀ y, ¬ Lost events y → y ∈ (View.rawEvents events).filter keep := fun y hy =>
      List.mem_filter.2 ⟨by_contra fun hn => hy (.absent hn), hkeep y hy⟩
    obtain ⟨z, hz, hid, hlost⟩ := lost_of_dropped hids List.filter_sublist hview hp hxd
    exact hx (.sameId hid.symm (List.mem_of_mem_filter hz) hlost)
  obtain ⟨keep, heq, hkeep⟩ := hkept
  rw [heq]
  refine List.filter_congr fun x hx => ?_
  by_cases hl : Lost events x
  · have := not_mem_of_lost hids hl
    rw [heq, List.mem_filter, not_and, Bool.not_eq_true] at this
    simp [hl, this hx]
  · simp [hl, hkeep x hl]

end AgentSdk
