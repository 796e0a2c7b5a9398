import AgentSdk.View.Closed
import Mathlib.Data.List.Induction
/-!
# Branches whose view needs no enforcement

A branch grows event by event. As long as every event keeps what belongs
together in the view, enforcing the properties on an answered branch drops
nothing: the raw fold is the view already.
-/

namespace AgentSdk

/-- Each `ActionEvent` of the branch has its observation-like event behind it. -/
def Answered (branch : List Event) : Prop :=
  ∀ pre e post id, branch = pre ++ e :: post → e.requests id = true → ∃ o ∈ post, o.observes id = true

/-! ## What a branch remembers -/

/-- No condensation behind `e` forgets it. -/
def Remembered (branch : List Event) (e : Event) : Prop :=
  ∃ pre post, branch = pre ++ e :: post ∧
    ∀ x ∈ post, ∀ c, x.body = .condensation c → e.id ∉ c.forgottenEventIds

/-- `e` does not make a view forget `x`. -/
def Spares (e x : Event) : Prop := ∀ c, e.body = .condensation c → x.id ∉ c.forgottenEventIds

theorem append_eq_append_cons {α : Type _} {l pre post : List α} {a b : α} (h : l ++ [a] = pre ++ b :: post) :
    (post = [] ∧ pre = l ∧ b = a) ∨ ∃ post', post = post' ++ [a] ∧ l = pre ++ b :: post' := by
  rcases List.eq_nil_or_concat post with rfl | ⟨post', c, rfl⟩
  · obtain ⟨h₁, h₂⟩ := List.append_inj' h rfl
    exact .inl ⟨rfl, h₁.symm, (List.cons.inj h₂).1.symm⟩
  · have h' : l ++ [a] = (pre ++ b :: post') ++ [c] := by simpa using h
    obtain ⟨h₁, h₂⟩ := List.append_inj' h' rfl
    obtain rfl := (List.cons.inj h₂).1
    exact .inr ⟨post', by simp, h₁⟩

theorem remembered_snoc {branch : List Event} {e x : Event} :
    Remembered (branch ++ [e]) x ↔ x = e ∨ Remembered branch x ∧ Spares e x := by
  constructor
  · rintro ⟨pre, post, heq, hpost⟩
    rcases append_eq_append_cons heq with ⟨-, -, rfl⟩ | ⟨post', rfl, rfl⟩
    · exact .inl rfl
    · rw [List.forall_mem_append] at hpost
      exact .inr ⟨⟨pre, post', rfl, hpost.1⟩, hpost.2 e List.mem_cons_self⟩
  · rintro (rfl | ⟨⟨pre, post, rfl, hpost⟩, he⟩)
    · exact ⟨branch, [], rfl, by simp⟩
    · refine ⟨pre, post ++ [e], by simp, ?_⟩
      rw [List.forall_mem_append]
      refine ⟨hpost, fun y hy => ?_⟩
      rw [List.mem_singleton.1 hy]
      exact he

theorem Remembered.mem {branch : List Event} {e : Event} (h : Remembered branch e) : e ∈ branch := by
  obtain ⟨pre, post, rfl, -⟩ := h
  simp

theorem spares_of_isToolEvent {e : Event} (h : e.isToolEvent = true) (x : Event) : Spares e x := by
  intro c hc
  simp [Event.isToolEvent, Event.action?, Event.observation?, hc] at h

theorem rawEvents_snoc (branch : List Event) (e : Event) :
    View.rawEvents (branch ++ [e]) = View.appendRaw (View.rawEvents branch) e := by
  simp [View.rawEvents]

/-- A condensation only drops events and adds a summary. -/
theorem filterMap_apply {β : Type _} (g : Event → Option β)
    (hg : ∀ id s, g (Condensation.summaryEvent id s) = none) (c : Condensation) (id : EventID)
    (events : List Event) : ((c.apply id events).filterMap g).Sublist (events.filterMap g) := by
  have hout : ((events.filter (·.id ∉ c.forgottenEventIds)).filterMap g).Sublist (events.filterMap g) :=
    List.filter_sublist.filterMap _
  unfold Condensation.apply
  split
  · rw [List.filterMap_append, List.filterMap_cons, hg, ← List.filterMap_append, List.take_append_drop]
    exact hout
  · exact hout

theorem filterMap_rawEvents {β : Type _} (g : Event → Option β)
    (hg : ∀ id s, g (Condensation.summaryEvent id s) = none) (branch : List Event) :
    ((View.rawEvents branch).filterMap g).Sublist (branch.filterMap g) := by
  induction branch using List.reverseRecOn with
  | nil => exact List.Sublist.refl _
  | append_singleton branch e ih =>
    have hold : ((View.rawEvents branch).filterMap g).Sublist ((branch ++ [e]).filterMap g) := by
      rw [List.filterMap_append]
      exact ih.trans (List.sublist_append_left _ _)
    rw [rawEvents_snoc]
    unfold View.appendRaw
    split
    · exact (filterMap_apply g hg _ _ _).trans hold
    · split
      · rw [List.filterMap_append, List.filterMap_append]
        exact ih.append_right _
      · exact hold

/-- An event of the raw view is remembered, or it is a summary. -/
theorem remembered_of_mem_rawEvents {branch : List Event} {x : Event} (h : x ∈ View.rawEvents branch) :
    Remembered branch x ∨ ∃ id s, x = Condensation.summaryEvent id s := by
  induction branch using List.reverseRecOn with
  | nil => simp [View.rawEvents] at h
  | append_singleton branch e ih =>
    rw [rawEvents_snoc] at h
    rw [remembered_snoc]
    unfold View.appendRaw at h
    cases hb : e.body with
    | condensation c =>
      rw [hb] at h
      dsimp only at h
      have hout : x ∈ (View.rawEvents branch).filter (·.id ∉ c.forgottenEventIds) ∨
          ∃ id s, x = Condensation.summaryEvent id s := by
        unfold Condensation.apply at h
        split at h
        · rcases List.mem_append.1 h with h | h
          · exact .inl (List.mem_of_mem_take h)
          · rcases List.mem_cons.1 h with h | h
            · exact .inr ⟨_, _, h⟩
            · exact .inl (List.mem_of_mem_drop h)
        · exact .inl h
      rcases hout with hout | hout
      · obtain ⟨hx, hforget⟩ := List.mem_filter.1 hout
        refine (ih hx).imp_left fun hr => .inr ⟨hr, fun c' hc' => ?_⟩
        rw [hb] at hc'
        cases hc'
        simpa using hforget
      · exact .inr hout
    | _ =>
      rw [hb] at h
      have hspares : Spares e x := fun c hc => by simp [hb] at hc
      dsimp only at h
      split at h
      · rcases List.mem_append.1 h with h | h
        · exact (ih h).imp_left fun hr => .inr ⟨hr, hspares⟩
        · exact .inl (.inl (List.mem_singleton.1 h))
      · exact (ih h).imp_left fun hr => .inr ⟨hr, hspares⟩

theorem mem_rawEvents_of_remembered {branch : List Event} {x : Event} (h : Remembered branch x)
    (hx : x.isLLMConvertible = true) : x ∈ View.rawEvents branch := by
  induction branch using List.reverseRecOn with
  | nil => simpa using h.mem
  | append_singleton branch e ih =>
    rw [rawEvents_snoc]
    rw [remembered_snoc] at h
    unfold View.appendRaw
    cases hb : e.body with
    | condensation c =>
      rcases h with rfl | ⟨hr, hspares⟩
      · simp [Event.isLLMConvertible, hb] at hx
      · have hout : x ∈ (View.rawEvents branch).filter (·.id ∉ c.forgottenEventIds) :=
          List.mem_filter.2 ⟨ih hr, by simpa using hspares c hb⟩
        dsimp only
        unfold Condensation.apply
        split
        · rename_i offset _ _
          rw [← List.take_append_drop offset (List.filter _ _), List.mem_append] at hout
          rw [List.mem_append, List.mem_cons]
          exact hout.imp_right .inr
        · exact hout
    | _ =>
      dsimp only
      rcases h with rfl | ⟨hr, -⟩
      · rw [if_pos hx]
        simp
      · split
        · exact List.mem_append_left _ (ih hr)
        · exact ih hr

/-! ## Loops, one event more -/

open ToolLoopAtomicity in
/-- The loop that the events so far left open. -/
def openLoop : Option (List EventID) → List Event → Option (List EventID)
  | current, [] => current
  | current, e :: es =>
    match move e with
    | .start => openLoop (some [e.id]) es
    | .stay => openLoop (current.map (· ++ [e.id])) es
    | .exit => openLoop none es

namespace ToolLoopAtomicity

theorem openLoop_snoc (current : Option (List EventID)) (es : List Event) (e : Event) :
    openLoop current (es ++ [e]) = match move e with
      | .start => some [e.id]
      | .stay => (openLoop current es).map (· ++ [e.id])
      | .exit => none := by
  induction es generalizing current with
  | nil => rfl
  | cons x es ih =>
    rw [List.cons_append, openLoop, openLoop]
    cases move x <;> exact ih _

theorem mem_toolLoopsFrom_snoc {current : Option (List EventID)} {es : List Event} {e : Event} {l : List EventID}
    (h : l ∈ toolLoopsFrom current (es ++ [e])) : l ∈ toolLoopsFrom current es ∨
      openLoop current (es ++ [e]) = some l := by
  induction es generalizing current with
  | nil =>
    rw [List.nil_append, toolLoopsFrom] at h
    rw [List.nil_append, openLoop]
    cases hm : move e with
    | start =>
      rw [hm] at h
      rcases List.mem_append.1 h with h | h
      · exact .inl h
      · exact .inr (by simpa [toolLoopsFrom, openLoop, eq_comm] using h)
    | stay =>
      rw [hm] at h
      exact .inr (by simpa [toolLoopsFrom, openLoop] using h)
    | exit =>
      rw [hm] at h
      exact .inl (by simpa [toolLoopsFrom] using h)
  | cons x es ih =>
    rw [List.cons_append, toolLoopsFrom] at h
    rw [List.cons_append, toolLoopsFrom, openLoop]
    cases hm : move x with
    | start =>
      rw [hm] at h
      rcases List.mem_append.1 h with h | h
      · exact .inl (List.mem_append_left _ h)
      · exact (ih h).imp_left (List.mem_append_right _)
    | stay =>
      rw [hm] at h
      exact ih h
    | exit =>
      rw [hm] at h
      rcases List.mem_append.1 h with h | h
      · exact .inl (List.mem_append_left _ h)
      · exact (ih h).imp_left (List.mem_append_right _)

end ToolLoopAtomicity

/-! ## Branches whose view needs no enforcement -/

/-- Events that a view must keep or forget together. -/
def Together (branch : List Event) (e f : Event) : Prop :=
  BatchAtomicity.sameBatch e f = true ∨ (∃ id, e.requests id = true ∧ f.observes id = true) ∨
    ∃ l ∈ ToolLoopAtomicity.toolLoops branch, e.id ∈ l ∧ f.id ∈ l

/-- What an append must keep: it answers a remembered call that has no
remembered answer, it adds to no batch of which something was forgotten, and
it forgets what belongs together. No event has the id of a summary. -/
structure Appendable (branch : List Event) (e : Event) : Prop where
  notSummary : ∀ id, e.id ≠ summaryId id
  answers : ∀ id, e.observes id = true → (∃ c, Remembered branch c ∧ c.requests id = true) ∧
    ∀ o, Remembered branch o → o.observes id = false
  batch : ∀ c ∈ branch, BatchAtomicity.sameBatch c e = true → Remembered branch c
  condensation : ∀ x y, Remembered branch x → Remembered branch y → Together branch x y → (Spares e x ↔ Spares e y)

/-- The branches made of such appends. -/
structure Tidy (branch : List Event) : Prop where
  idsNodup : (branch.map Event.id).Nodup
  notSummary : ∀ e ∈ branch, ∀ id, e.id ≠ summaryId id
  unique : (ToolCallMatching.observationToolCallIds (View.rawEvents branch)).Nodup
  batches : ∀ e f, Remembered branch e → f ∈ branch → BatchAtomicity.sameBatch e f = true → Remembered branch f
  requested : ∀ o id, Remembered branch o → o.observes id = true →
    ∃ c, Remembered branch c ∧ c.requests id = true
  answered : ∀ pre c post id, branch = pre ++ c :: post → Remembered branch c → c.requests id = true →
    (∃ o ∈ post, o.observes id = true) → ∃ o, Remembered branch o ∧ o.observes id = true
  loops : ∀ e, Remembered branch e → ∀ l ∈ ToolLoopAtomicity.toolLoops branch, e.id ∈ l →
    ∀ x ∈ l, ∃ f, Remembered branch f ∧ f.isToolEvent = true ∧ f.id = x
  openLoop : ∀ l, openLoop none branch = some l →
    ∀ x ∈ l, ∃ f, Remembered branch f ∧ f.isToolEvent = true ∧ f.id = x

theorem Tidy.nil : Tidy [] := by
  have hno : ∀ e, ¬ Remembered [] e := fun e h => by simpa using h.mem
  refine ⟨by simp, by simp, by simp [View.rawEvents, ToolCallMatching.observationToolCallIds],
    fun e _ h => absurd h (hno e), fun o _ h => absurd h (hno o), fun pre _ _ _ h => by simp at h,
    fun e h => absurd h (hno e), fun l h => by simp [AgentSdk.openLoop] at h⟩

section Snoc
variable {branch : List Event} {e : Event}

theorem observationToolCallIds_snoc (ha : Appendable branch e)
    (hu : (ToolCallMatching.observationToolCallIds (View.rawEvents branch)).Nodup) :
    (ToolCallMatching.observationToolCallIds (View.rawEvents (branch ++ [e]))).Nodup := by
  have happ : (ToolCallMatching.observationToolCallIds (View.rawEvents branch ++ [e])).Nodup := by
    rw [ToolCallMatching.observationToolCallIds, List.filterMap_append, List.nodup_append]
    refine ⟨hu, ?_, ?_⟩
    · cases ho : e.observation? <;> simp [ho]
    · rintro id hid _ hid' rfl
      obtain ⟨o, ho, hobs⟩ := ToolCallMatching.mem_observationToolCallIds.1 hid
      obtain ⟨x, hx, hxobs⟩ := ToolCallMatching.mem_observationToolCallIds.1 hid'
      rw [List.mem_singleton.1 hx] at hxobs
      rcases remembered_of_mem_rawEvents ho with hr | ⟨_, _, rfl⟩
      · rw [(ha.answers id hxobs).2 o hr] at hobs
        cases hobs
      · cases hobs
  rw [rawEvents_snoc]
  unfold View.appendRaw
  split
  · exact hu.sublist (filterMap_apply _ (fun _ _ => rfl) _ _ _)
  · split
    · exact happ
    · exact hu

/-- The step lemma. -/
theorem Tidy.snoc (h : Tidy branch) (hid : e.id ∉ branch.map Event.id) (ha : Appendable branch e) :
    Tidy (branch ++ [e]) := by
  have hself : Remembered (branch ++ [e]) e := remembered_snoc.2 (.inl rfl)
  -- What stays together with an event that is spared is spared, too.
  have hkeep : ∀ {x y}, Remembered branch x → Spares e x → Remembered branch y → Together branch x y →
      Remembered (branch ++ [e]) y := fun hx hs hy ht =>
    remembered_snoc.2 (.inr ⟨hy, (ha.condensation _ _ hx hy ht).1 hs⟩)
  have htool : ∀ {y}, e.isToolEvent = true → Remembered branch y → Remembered (branch ++ [e]) y := fun ht hy =>
    remembered_snoc.2 (.inr ⟨hy, spares_of_isToolEvent ht _⟩)
  have hne : ∀ {x}, x ∈ branch → x ≠ e := fun hx heq => hid (heq ▸ List.mem_map_of_mem hx)
  have hbatch : ∀ {x y}, BatchAtomicity.sameBatch x y = true → BatchAtomicity.sameBatch y x = true ∧
      x.isToolEvent = true := by
    intro x y hs
    unfold BatchAtomicity.sameBatch at hs ⊢
    cases hx : x.action? <;> cases hy : y.action? <;> simp_all [Event.isToolEvent]
  -- The loop that is open at the end is remembered event by event.
  have hopen : ∀ l, AgentSdk.openLoop none (branch ++ [e]) = some l →
      ∀ x ∈ l, ∃ f, Remembered (branch ++ [e]) f ∧ f.isToolEvent = true ∧ f.id = x := by
    intro l hl x hx
    rw [ToolLoopAtomicity.openLoop_snoc] at hl
    have ht : ToolLoopAtomicity.move e ≠ .exit → e.isToolEvent = true := by
      intro hm
      unfold ToolLoopAtomicity.move at hm
      unfold Event.isToolEvent Event.action? Event.observation?
      split at hm <;> simp_all
    cases hm : ToolLoopAtomicity.move e with
    | start =>
      rw [hm] at hl ht
      cases hl
      exact ⟨e, hself, ht (by decide), (List.mem_singleton.1 hx).symm⟩
    | stay =>
      rw [hm] at hl ht
      obtain ⟨l₀, hl₀, rfl⟩ := Option.map_eq_some_iff.1 hl
      rcases List.mem_append.1 hx with hx | hx
      · obtain ⟨f, hf, hft, rfl⟩ := h.openLoop l₀ hl₀ x hx
        exact ⟨f, htool (ht (by decide)) hf, hft, rfl⟩
      · exact ⟨e, hself, ht (by decide), (List.mem_singleton.1 hx).symm⟩
    | exit =>
      rw [hm] at hl
      cases hl
  refine ⟨?_, ?_, observationToolCallIds_snoc ha h.unique, ?_, ?_, ?_, ?_, hopen⟩
  · rw [List.map_append, List.nodup_append]
    refine ⟨h.idsNodup, by simp, ?_⟩
    rintro x hx y hy rfl
    rw [List.map_singleton, List.mem_singleton] at hy
    exact hid (hy ▸ hx)
  · intro x hx
    rcases List.mem_append.1 hx with hx | hx
    · exact h.notSummary x hx
    · rw [List.mem_singleton.1 hx]
      exact ha.notSummary
  · intro x f hx hf hs
    rcases List.mem_append.1 hf with hfb | hfe
    · rcases remembered_snoc.1 hx with rfl | ⟨hx, hspares⟩
      · exact htool (hbatch hs).2 (ha.batch f hfb (hbatch hs).1)
      · exact hkeep hx hspares (h.batches x f hx hfb hs) (.inl hs)
    · rw [List.mem_singleton.1 hfe]
      exact hself
  · intro o id ho hobs
    rcases remembered_snoc.1 ho with rfl | ⟨ho, hspares⟩
    · obtain ⟨c, hc, hreq⟩ := (ha.answers id hobs).1
      exact ⟨c, htool (Event.isToolEvent_of_observes hobs) hc, hreq⟩
    · obtain ⟨c, hc, hreq⟩ := h.requested o id ho hobs
      exact ⟨c, remembered_snoc.2 (.inr ⟨hc, (ha.condensation c o hc ho (.inr (.inl ⟨id, hreq, hobs⟩))).2 hspares⟩),
        hreq⟩
  · rintro pre c post id heq hc hreq ⟨o, ho, hobs⟩
    rcases append_eq_append_cons heq with ⟨rfl, -, -⟩ | ⟨post', rfl, hbr⟩
    · cases ho
    · have hcb : c ∈ branch := by simp [hbr]
      obtain ⟨hc, hspares⟩ := (remembered_snoc.1 hc).resolve_left (hne hcb)
      rcases List.mem_append.1 ho with ho | ho
      · obtain ⟨o', ho', hobs'⟩ := h.answered pre c post' id hbr hc hreq ⟨o, ho, hobs⟩
        exact ⟨o', hkeep hc hspares ho' (.inr (.inl ⟨id, hreq, hobs'⟩)), hobs'⟩
      · rw [List.mem_singleton.1 ho] at hobs
        exact ⟨e, hself, hobs⟩
  · intro x hx l hl hxl y hy
    -- A loop is an old one, or the one that the event belongs to.
    rcases ToolLoopAtomicity.mem_toolLoopsFrom_snoc hl with hold | hnew
    · have hxe : x ≠ e := by
        rintro rfl
        exact hid (ToolLoopAtomicity.subset_of_mem_toolLoops hold hxl)
      obtain ⟨hx, hspares⟩ := (remembered_snoc.1 hx).resolve_left hxe
      obtain ⟨f, hf, hft, rfl⟩ := h.loops x hx l hold hxl y hy
      exact ⟨f, hkeep hx hspares hf (.inr (.inr ⟨l, hold, hxl, hy⟩)), hft, rfl⟩
    · exact hopen l hnew y hy

end Snoc

/-- The raw view of a tidy branch, all answered, is closed: a rebuild drops nothing. -/
theorem Tidy.closed {branch : List Event} (h : Tidy branch) (ha : Answered branch) :
    Closed branch (View.rawEvents branch) := by
  have hmem : ∀ {x}, x ∈ View.rawEvents branch → x.isToolEvent = true → Remembered branch x := by
    intro x hx ht
    rcases remembered_of_mem_rawEvents hx with hr | ⟨_, _, rfl⟩
    · exact hr
    · cases ht
  have hraw : ∀ {x}, Remembered branch x → x.isToolEvent = true → x ∈ View.rawEvents branch := by
    intro x hx ht
    refine mem_rawEvents_of_remembered hx ?_
    unfold Event.isToolEvent Event.action? Event.observation? at ht
    unfold Event.isLLMConvertible
    cases hb : x.body <;> simp [hb] at ht ⊢
  refine ⟨h.unique, fun e he a hea id => ?_, fun e he id hid => ?_, fun o ho id hid => ?_, fun e he l hl hel x hx => ?_⟩
  · rw [BatchAtomicity.mem_batch, BatchAtomicity.mem_batch]
    constructor
    · rintro ⟨f, hf, b, hb, hr⟩
      exact ⟨f, (hmem hf (Event.isToolEvent_of_action hb)).mem, b, hb, hr⟩
    · rintro ⟨f, hf, b, hb, hr, hid⟩
      have hsame : BatchAtomicity.sameBatch e f = true := by simp [BatchAtomicity.sameBatch, hea, hb, hr]
      exact ⟨f, hraw (h.batches e f (hmem he (Event.isToolEvent_of_action hea)) hf hsame) (Event.isToolEvent_of_action hb), b, hb, hr, hid⟩
  · have hr := hmem he (Event.isToolEvent_of_requests hid)
    obtain ⟨pre, post, heq⟩ := List.append_of_mem hr.mem
    obtain ⟨o, ho, hobs⟩ := h.answered pre e post id heq hr hid (ha pre e post id heq hid)
    exact ⟨o, hraw ho (Event.isToolEvent_of_observes hobs), hobs⟩
  · obtain ⟨c, hc, hreq⟩ := h.requested o id (hmem ho (Event.isToolEvent_of_observes hid)) hid
    exact ⟨c, hraw hc (Event.isToolEvent_of_requests hreq), hreq⟩
  · rcases remembered_of_mem_rawEvents he with hr | ⟨_, _, rfl⟩
    · obtain ⟨f, hf, hft, rfl⟩ := h.loops e hr l hl hel x hx
      exact List.mem_map_of_mem (hraw hf hft)
    · obtain ⟨f, hf, hfid⟩ := List.mem_map.1 (ToolLoopAtomicity.subset_of_mem_toolLoops hl hel)
      exact absurd hfid (h.notSummary f hf _)

end AgentSdk
