import AgentSdk.Messages
import AgentSdk.View.Enforcement
import AgentSdk.View.Manipulation
import Mathlib.Data.List.TakeWhile
/-!
# Views as LLM histories

Whether the messages of a view pair every assistant turn with its tool
results is a question about the events: the calls of a turn have to stand
together, with their answers right behind them.
-/

namespace AgentSdk
open Lib

def Event.isCall (e : Event) : Bool := e.action?.isSome

def Event.isAnswer (e : Event) : Bool := e.observation?.isSome

/-- What `_combine_action_events` asserts of all but the first action. -/
def Event.thoughtless (e : Event) : Bool := e.action?.all (·.thought = [])

/-- Behind each call come calls of its turn without a thought of their own,
and its answer is among the answers right behind these. -/
def CallsFollowed (events : List Event) : Prop :=
  ∀ pre e post a, events = pre ++ e :: post → e.action? = some a →
    (∀ x ∈ post.takeWhile Event.isCall, BatchAtomicity.sameBatch e x = true ∧ x.thoughtless = true) ∧
      ∃ o ∈ (post.dropWhile Event.isCall).takeWhile Event.isAnswer, o.observes a.toolCallId = true

theorem CallsFollowed.of_append (pre : List Event) {post : List Event} (h : CallsFollowed (pre ++ post)) : CallsFollowed post := by
  rintro pre' e post' a rfl ha
  exact h (pre ++ pre') e post' a (List.append_assoc ..).symm ha

theorem Event.isCall_of_isAnswer {e : Event} (h : e.isAnswer = true) : e.isCall = false := by
  obtain ⟨o, ho⟩ := Option.isSome_iff_exists.1 h
  simp [isCall, action?_of_observation ho]

/-! ## Messages of a turn -/

namespace BatchAtomicity

theorem sameBatch_congr {e x : Event} (h : sameBatch e x = true) (y : Event) : sameBatch x y = sameBatch e y := by
  unfold sameBatch at h ⊢
  cases he : e.action? <;> cases hx : x.action? <;> cases hy : y.action? <;> simp_all

theorem sameBatch_self {e : Event} (h : e.isCall = true) : sameBatch e e = true := by
  obtain ⟨a, ha⟩ := Option.isSome_iff_exists.1 h
  simp [sameBatch, ha]

theorem isCall_of_sameBatch {e x : Event} (h : sameBatch e x = true) : x.isCall = true := by
  unfold sameBatch at h
  cases he : e.action? <;> cases hx : x.action? <;> simp_all [Event.isCall]

theorem sameBatch_of_not_isCall {e : Event} (h : e.isCall = false) (x : Event) : sameBatch e x = false := by
  simp only [Event.isCall, Option.isSome_eq_false_iff, Option.isNone_iff_eq_none] at h
  simp [sameBatch, h]

end BatchAtomicity

section Messages
open BatchAtomicity

/-- One turn, or one other event, is one message. -/
theorem batchMessages_cons {e : Event} {run rest : List Event} (hrun : ∀ x ∈ run, sameBatch e x = true)
    (hrest : ∀ x ∈ rest.head?, sameBatch e x = false) :
    batchMessages (e :: run ++ rest) =
      (batchMessage (e :: run)).bind fun m => (batchMessages rest).map (m :: ·) := by
  have hpair : (e :: run).Pairwise fun x y => sameBatch x y = true := by
    refine List.pairwise_cons.2 ⟨hrun, List.pairwise_iff_forall_sublist.2 fun {x y} hxy => ?_⟩
    rw [sameBatch_congr (hrun x (hxy.subset (by simp)))]
    exact hrun y (hxy.subset (by simp))
  have hlast : ∀ x ∈ (e :: run).getLast?, ∀ y ∈ rest.head?, sameBatch x y = false := by
    intro x hx y hy
    rcases List.mem_cons.1 (List.mem_of_mem_getLast? hx) with rfl | hx
    · exact hrest y hy
    · rw [sameBatch_congr (hrun x hx)]
      exact hrest y hy
  unfold batchMessages
  rw [List.splitBy_append hlast, List.splitBy_of_isChain (by simp) hpair.isChain, List.singleton_append,
    List.mapM_cons]
  cases batchMessage (e :: run) <;> cases (rest.splitBy sameBatch).mapM batchMessage <;> rfl

theorem batchMessages_cons_of_not_isCall {e : Event} (h : e.isCall = false) (es : List Event) :
    batchMessages (e :: es) = e.toLLMMessage.bind fun m => (batchMessages es).map (m :: ·) :=
  batchMessages_cons (fun _ hx => absurd hx List.not_mem_nil) fun x _ => sameBatch_of_not_isCall h x

/-- The first turn, cut off. -/
theorem batchMessages_eq_some {e : Event} {es : List Event} {ms : List Message}
    (h : batchMessages (e :: es) = some ms) : ∃ m ms', batchMessage (e :: es.takeWhile (sameBatch e ·)) = some m ∧
      batchMessages (es.dropWhile (sameBatch e ·)) = some ms' ∧ ms = m :: ms' := by
  have hrun : ∀ x ∈ es.takeWhile (sameBatch e ·), sameBatch e x = true := fun x hx => List.mem_takeWhile_imp hx
  have hrest : ∀ x ∈ (es.dropWhile (sameBatch e ·)).head?, sameBatch e x = false := by
    intro x hx
    have := List.head?_dropWhile_not (sameBatch e ·) es
    rw [Option.mem_def.1 hx] at this
    simpa using this
  have heq := batchMessages_cons hrun hrest
  rw [List.cons_append, List.takeWhile_append_dropWhile, h] at heq
  obtain ⟨m, hm, heq⟩ := Option.bind_eq_some_iff.1 heq.symm
  obtain ⟨ms', hms', rfl⟩ := Option.map_eq_some_iff.1 heq
  exact ⟨m, ms', hm, hms', rfl⟩

theorem combineActionEvents_isSome (a : ActionEvent) {as : List ActionEvent} (h : ∀ b ∈ as, b.thought = []) :
    ∃ m, combineActionEvents (a :: as) = some m := by
  cases as with
  | nil => exact ⟨_, rfl⟩
  | cons b bs =>
    have hall : ((b :: bs).all fun b => decide (b.thought = [])) = true :=
      List.all_eq_true.2 fun x hx => decide_eq_true (h x hx)
    exact ⟨_, if_pos hall⟩

theorem combineActionEvents_spec {a : ActionEvent} {as : List ActionEvent} {m : Message}
    (h : combineActionEvents (a :: as) = some m) :
    m.role = .assistant ∧ m.calls = (a :: as).map ActionEvent.toolCall ∧ ∀ b ∈ as, b.thought = [] := by
  cases as with
  | nil =>
    cases h
    exact ⟨rfl, rfl, by simp⟩
  | cons b bs =>
    simp only [combineActionEvents] at h
    split at h
    · rename_i hall
      cases h
      exact ⟨rfl, rfl, fun x hx => of_decide_eq_true (List.all_eq_true.1 hall x hx)⟩
    · cases h

theorem batchMessage_eq {e : Event} {a : ActionEvent} (he : e.action? = some a) (run : List Event) :
    batchMessage (e :: run) = combineActionEvents (a :: run.filterMap Event.action?) := by
  cases run with
  | nil =>
    have hb := Event.action?_eq_some.1 he
    simp [batchMessage, Event.toLLMMessage, hb, combineActionEvents]
  | cons x xs => simp only [batchMessage, List.filterMap_cons, he]

theorem thoughtless_iff {run : List Event} :
    (∀ x ∈ run, x.thoughtless = true) ↔ ∀ b ∈ run.filterMap Event.action?, b.thought = [] := by
  simp only [List.mem_filterMap, Event.thoughtless, Option.all_eq_true, decide_eq_true_eq]
  constructor
  · rintro h b ⟨x, hx, hb⟩
    exact h x hx b hb
  · exact fun h x hx b hb => h b ⟨x, hx, hb⟩

/-- The message of a turn makes the calls of the turn. -/
theorem batchMessage_spec {e : Event} {run : List Event} (he : e.isCall = true) {m : Message}
    (h : batchMessage (e :: run) = some m) :
    m.role = .assistant ∧ m.calls.map (·.id) = ToolCallMatching.actionToolCallIds (e :: run) ∧
      ∀ x ∈ run, x.thoughtless = true := by
  obtain ⟨a, ha⟩ := Option.isSome_iff_exists.1 he
  rw [batchMessage_eq ha] at h
  obtain ⟨hrole, hcalls, hthought⟩ := combineActionEvents_spec h
  refine ⟨hrole, ?_, thoughtless_iff.2 hthought⟩
  have hids : ∀ as : List ActionEvent, (as.map ActionEvent.toolCall).map (·.id) = as.map ActionEvent.toolCallId := by
    intro as
    rw [List.map_map]
    exact List.map_congr_left fun b _ => b.callId.symm
  rw [hcalls, hids, ToolCallMatching.actionToolCallIds, ← List.map_filterMap, List.filterMap_cons, ha]

theorem batchMessage_isSome {e : Event} {run : List Event} (he : e.isCall = true)
    (hrun : ∀ x ∈ run, x.thoughtless = true) : ∃ m, batchMessage (e :: run) = some m := by
  obtain ⟨a, ha⟩ := Option.isSome_iff_exists.1 he
  rw [batchMessage_eq ha]
  exact combineActionEvents_isSome a (thoughtless_iff.1 hrun)

/-- The message of an event that is no call: a tool result, or nothing that
has to do with tools. -/
theorem toLLMMessage_of_not_isCall {e : Event} (hc : e.isLLMConvertible = true) (he : e.isCall = false) :
    ∃ m, e.toLLMMessage = some m ∧
      ((∃ id, e.observes id = true ∧ m.role = .tool ∧ m.toolCallId = some id) ∨
        e.isAnswer = false ∧ m.role ≠ .tool ∧ (m.role = .assistant → m.calls = [])) := by
  unfold Event.isLLMConvertible at hc
  unfold Event.isCall Event.action? at he
  unfold Event.toLLMMessage Event.observes Event.isAnswer Event.observation?
  cases hb : e.body with
  | message m => exact ⟨_, rfl, .inr ⟨rfl, m.notTool, m.noCalls⟩⟩
  | observation o => exact ⟨_, rfl, .inl ⟨o.toolCallId, by simp, rfl, rfl⟩⟩
  | _ => simp_all

end Messages

/-! ## Turns with their answers -/

open BatchAtomicity ToolCallMatching

/-- Events whose calls come turn by turn, each turn with its answers behind it. -/
inductive Grouped : List Event → Prop
  | nil : Grouped []
  | other {e : Event} {es : List Event} : e.isCall = false → e.isAnswer = false → Grouped es → Grouped (e :: es)
  | turn {e : Event} {run answers rest : List Event} : e.isCall = true →
      (∀ x ∈ run, sameBatch e x = true ∧ x.thoughtless = true) → (∀ o ∈ answers, o.isAnswer = true) →
      (observationToolCallIds answers).Perm (actionToolCallIds (e :: run)) → Grouped rest →
      Grouped (e :: run ++ (answers ++ rest))

section Grouped
variable {events : List Event}

theorem observationToolCallIds_cons {e : Event} {id : ToolCallID} (h : e.observes id = true) (es : List Event) :
    observationToolCallIds (e :: es) = id :: observationToolCallIds es := by
  obtain ⟨o, ho, rfl⟩ := Event.observes_iff.1 h
  simp [observationToolCallIds, ho]

theorem isAnswer_of_observes {e : Event} {id : ToolCallID} (h : e.observes id = true) : e.isAnswer = true := by
  obtain ⟨o, ho, -⟩ := Event.observes_iff.1 h
  simp [Event.isAnswer, ho]

/-- Answers discharge their calls. -/
theorem validFrom_answers {pending : List ToolCallID} {answers rest : List Event} {ms : List Message}
    (hc : ∀ o ∈ answers, o.isAnswer = true) (hperm : (observationToolCallIds answers).Perm pending)
    (hms : batchMessages rest = some ms) (hvalid : validFrom [] ms = true) :
    ∃ ms', batchMessages (answers ++ rest) = some ms' ∧ validFrom pending ms' = true := by
  induction answers generalizing pending with
  | nil =>
    obtain rfl := List.nil_perm.1 hperm
    exact ⟨ms, hms, hvalid⟩
  | cons e answers ih =>
    obtain ⟨he, hanswers⟩ := List.forall_mem_cons.1 hc
    obtain ⟨o, ho⟩ := Option.isSome_iff_exists.1 he
    have hobs : e.observes o.toolCallId = true := Event.observes_iff.2 ⟨o, ho, rfl⟩
    rw [observationToolCallIds_cons hobs] at hperm
    have hmem : o.toolCallId ∈ pending := hperm.subset List.mem_cons_self
    obtain ⟨ms', hms', hvalid'⟩ := ih hanswers (List.cons_perm_iff_perm_erase.1 hperm).2
    have hmsg : e.toLLMMessage = some o.toLLMMessage := by
      simp [Event.toLLMMessage, Event.observation?_eq_some.1 ho]
    refine ⟨o.toLLMMessage :: ms', ?_, ?_⟩
    · rw [List.cons_append, batchMessages_cons_of_not_isCall (Event.isCall_of_isAnswer he), hmsg, hms']
      rfl
    · simp only [validFrom, ObservationBaseEvent.toLLMMessage, hmem, hvalid', decide_true, Bool.and_true]

theorem Grouped.valid (h : Grouped events) (hc : ∀ e ∈ events, e.isLLMConvertible = true) :
    ∃ ms, batchMessages events = some ms ∧ validFrom [] ms = true := by
  induction h with
  | nil => exact ⟨[], rfl, rfl⟩
  | @other e es hcall hanswer _ ih =>
    obtain ⟨he, hes⟩ := List.forall_mem_cons.1 hc
    obtain ⟨ms, hms, hvalid⟩ := ih hes
    obtain ⟨m, hm, hkind⟩ := toLLMMessage_of_not_isCall he hcall
    refine ⟨m :: ms, by rw [batchMessages_cons_of_not_isCall hcall, hm, hms]; rfl, ?_⟩
    rcases hkind with ⟨id, hid, -⟩ | ⟨-, hrole, hcalls⟩
    · rw [isAnswer_of_observes hid] at hanswer
      cases hanswer
    · unfold validFrom
      cases hr : m.role with
      | tool => exact absurd hr hrole
      | assistant => simpa [hcalls hr] using hvalid
      | _ => simpa using hvalid
  | @turn e run answers rest hcall hrun hanswers hperm _ ih =>
    obtain ⟨ms, hms, hvalid⟩ := ih fun x hx => hc x (by simp [hx])
    obtain ⟨m, hm⟩ := batchMessage_isSome hcall fun x hx => (hrun x hx).2
    obtain ⟨hrole, hids, -⟩ := batchMessage_spec hcall hm
    obtain ⟨ms', hms', hvalid'⟩ := validFrom_answers hanswers hperm hms hvalid
    have hhead : ∀ x ∈ (answers ++ rest).head?, sameBatch e x = false := by
      intro x hx
      cases answers with
      | nil =>
        obtain ⟨a, ha⟩ := Option.isSome_iff_exists.1 hcall
        have hlen := hperm.length_eq
        simp [actionToolCallIds, observationToolCallIds, ha] at hlen
      | cons o answers =>
        rw [List.cons_append, List.head?_cons, Option.mem_some_iff] at hx
        subst hx
        rw [← Bool.not_eq_true]
        intro hsame
        have hnot := Event.isCall_of_isAnswer (hanswers o List.mem_cons_self)
        rw [isCall_of_sameBatch hsame] at hnot
        cases hnot
    refine ⟨m :: ms', by rw [batchMessages_cons (fun x hx => (hrun x hx).1) hhead, hm, hms']; rfl, ?_⟩
    simpa [validFrom, hrole, hids] using hvalid'

/-- What waits for its answers finds them first. -/
theorem answers_of_validFrom {pending : List ToolCallID} {ms : List Message}
    (hc : ∀ e ∈ events, e.isLLMConvertible = true) (hms : batchMessages events = some ms)
    (hvalid : validFrom pending ms = true) : ∃ answers rest ms', events = answers ++ rest ∧
      (∀ o ∈ answers, o.isAnswer = true) ∧ (observationToolCallIds answers).Perm pending ∧
      batchMessages rest = some ms' ∧ validFrom [] ms' = true := by
  induction events generalizing pending ms with
  | nil =>
    cases hms
    obtain rfl := List.isEmpty_iff.1 hvalid
    exact ⟨[], [], [], rfl, by simp, .refl _, rfl, rfl⟩
  | cons e es ih =>
    rcases List.eq_nil_or_concat' pending with rfl | ⟨_, _, hpending⟩
    · exact ⟨[], e :: es, ms, rfl, by simp, .refl _, hms, hvalid⟩
    have hne : pending.isEmpty = false := by simp [hpending]
    obtain ⟨he, hes⟩ := List.forall_mem_cons.1 hc
    cases hcall : e.isCall with
    | true =>
      obtain ⟨m, ms', hm, -, rfl⟩ := batchMessages_eq_some hms
      obtain ⟨hrole, -, -⟩ := batchMessage_spec hcall hm
      simp [validFrom, hrole, hne] at hvalid
    | false =>
      obtain ⟨m, hm, hkind⟩ := toLLMMessage_of_not_isCall he hcall
      rw [batchMessages_cons_of_not_isCall hcall, hm] at hms
      obtain ⟨ms', hms', rfl⟩ := Option.map_eq_some_iff.1 hms
      rcases hkind with ⟨id, hid, hrole, hmid⟩ | ⟨-, hrole, -⟩
      · simp only [validFrom, hrole, hmid, Bool.and_eq_true, decide_eq_true_eq] at hvalid
        obtain ⟨answers, rest, ms'', rfl, hanswers, hperm, hrest⟩ := ih hes hms' hvalid.2
        refine ⟨e :: answers, rest, ms'', rfl, ?_, ?_, hrest⟩
        · exact List.forall_mem_cons.2 ⟨isAnswer_of_observes hid, hanswers⟩
        · rw [observationToolCallIds_cons hid]
          exact List.cons_perm_iff_perm_erase.2 ⟨hvalid.1, hperm⟩
      · unfold validFrom at hvalid
        cases hr : m.role <;> simp_all

theorem grouped_of_valid {ms : List Message} (hc : ∀ e ∈ events, e.isLLMConvertible = true)
    (hms : batchMessages events = some ms) (hvalid : validFrom [] ms = true) : Grouped events := by
  induction hlen : events.length using Nat.strong_induction_on generalizing events ms with
  | _ n ih =>
    subst hlen
    cases events with
    | nil => exact .nil
    | cons e es =>
      obtain ⟨he, hes⟩ := List.forall_mem_cons.1 hc
      cases hcall : e.isCall with
      | true =>
        obtain ⟨m, ms', hm, hms', rfl⟩ := batchMessages_eq_some hms
        obtain ⟨hrole, hids, hthought⟩ := batchMessage_spec hcall hm
        have hrest : ∀ x ∈ es.dropWhile (sameBatch e ·), x.isLLMConvertible = true :=
          fun x hx => hes x ((List.dropWhile_suffix _).subset hx)
        simp only [validFrom, hrole, hids, List.isEmpty_nil, Bool.true_and] at hvalid
        obtain ⟨answers, rest, ms'', heq, hanswers, hperm, hms'', hvalid''⟩ := answers_of_validFrom hrest hms' hvalid
        have hgrouped : Grouped rest := by
          refine ih rest.length ?_ (fun x hx => hrest x (heq ▸ List.mem_append_right _ hx)) hms'' hvalid'' rfl
          have hle := (List.dropWhile_suffix (l := es) (sameBatch e ·)).length_le
          rw [heq, List.length_append] at hle
          rw [List.length_cons]
          omega
        have hsplit : e :: es = e :: es.takeWhile (sameBatch e ·) ++ (answers ++ rest) := by
          rw [← heq, List.cons_append, List.takeWhile_append_dropWhile]
        rw [hsplit]
        exact .turn hcall (fun x hx => ⟨List.mem_takeWhile_imp hx, hthought x hx⟩) hanswers hperm hgrouped
      | false =>
        obtain ⟨m, hm, hkind⟩ := toLLMMessage_of_not_isCall he hcall
        rw [batchMessages_cons_of_not_isCall hcall, hm] at hms
        obtain ⟨ms', hms', rfl⟩ := Option.map_eq_some_iff.1 hms
        rcases hkind with ⟨id, -, hrole, hmid⟩ | ⟨hanswer, hrole, hcalls⟩
        · simp [validFrom, hrole, hmid] at hvalid
        · have hvalid' : validFrom [] ms' = true := by
            unfold validFrom at hvalid
            cases hr : m.role <;> simp_all
          exact .other hcall hanswer (ih es.length (by simp) hes hms' hvalid' rfl)

end Grouped

/-! ## Calls with their answers behind them -/

theorem append_eq_append_cons_cases {α : Type _} {l₁ l₂ pre post : List α} {c : α}
    (h : l₁ ++ l₂ = pre ++ c :: post) : (∃ post', l₁ = pre ++ c :: post' ∧ post = post' ++ l₂) ∨
      ∃ pre', l₂ = pre' ++ c :: post ∧ pre = l₁ ++ pre' := by
  rcases List.append_eq_append_iff.1 h with ⟨pre', rfl, rfl⟩ | ⟨l, rfl, hl⟩
  · exact .inr ⟨pre', rfl, rfl⟩
  · cases l with
    | nil => exact .inr ⟨[], hl.symm, by simp⟩
    | cons x l =>
      obtain ⟨rfl, rfl⟩ := List.cons.inj hl
      exact .inl ⟨l, rfl, rfl⟩

section Followed
variable {run tail : List Event}

theorem takeWhile_isCall (hrun : ∀ x ∈ run, x.isCall = true) (htail : ∀ x ∈ tail.head?, x.isCall = false) :
    (run ++ tail).takeWhile Event.isCall = run := by
  rw [List.takeWhile_append_of_pos hrun]
  cases tail with
  | nil => simp
  | cons x tail => simp [htail x rfl]

theorem dropWhile_isCall (hrun : ∀ x ∈ run, x.isCall = true) (htail : ∀ x ∈ tail.head?, x.isCall = false) :
    (run ++ tail).dropWhile Event.isCall = tail := by
  rw [List.dropWhile_append_of_pos hrun]
  cases tail with
  | nil => simp
  | cons x tail => simp [htail x rfl]

end Followed

theorem Grouped.callsFollowed {events : List Event} (h : Grouped events) : CallsFollowed events := by
  induction h with
  | nil =>
    intro pre c post a heq
    simp at heq
  | @other e es hcall _ _ ih =>
    intro pre c post a heq ha
    cases pre with
    | nil =>
      obtain ⟨rfl, rfl⟩ := List.cons.inj heq
      simp [Event.isCall, ha] at hcall
    | cons x pre =>
      obtain ⟨rfl, rfl⟩ := List.cons.inj heq
      exact ih pre c post a rfl ha
  | @turn e run answers rest hcall hrun hanswers hperm _ ih =>
    intro pre c post a heq ha
    have hc : c.isCall = true := by simp [Event.isCall, ha]
    rcases append_eq_append_cons_cases heq with ⟨post', hturn, rfl⟩ | ⟨pre', htail, -⟩
    · have hbatch : ∀ x ∈ e :: run, sameBatch e x = true :=
        List.forall_mem_cons.2 ⟨sameBatch_self hcall, fun x hx => (hrun x hx).1⟩
      have hpost : ∀ x ∈ post', x ∈ run := by
        intro x hx
        cases pre with
        | nil => exact (List.cons.inj hturn).2 ▸ hx
        | cons y pre => exact (List.cons.inj hturn).2 ▸ by simp [hx]
      have hobserved : a.toolCallId ∈ observationToolCallIds answers := by
        refine hperm.symm.subset (mem_actionToolCallIds.2 ⟨c, by simp [hturn], Event.requests_iff.2 ⟨a, ha, rfl⟩⟩)
      obtain ⟨o, ho, hobs⟩ := mem_observationToolCallIds.1 hobserved
      have hhead : ∀ x ∈ (answers ++ rest).head?, x.isCall = false := by
        intro x hx
        cases answers with
        | nil => cases ho
        | cons y answers =>
          obtain rfl := Option.some.inj hx
          exact Event.isCall_of_isAnswer (hanswers _ List.mem_cons_self)
      have hcalls : ∀ x ∈ post', x.isCall = true := fun x hx => isCall_of_sameBatch (hrun x (hpost x hx)).1
      rw [takeWhile_isCall hcalls hhead, dropWhile_isCall hcalls hhead, List.takeWhile_append_of_pos hanswers]
      refine ⟨fun x hx => ⟨?_, (hrun x (hpost x hx)).2⟩, o, List.mem_append_left _ ho, hobs⟩
      rw [sameBatch_congr (hbatch c (by simp [hturn]))]
      exact (hrun x (hpost x hx)).1
    · rcases append_eq_append_cons_cases htail with ⟨post', rfl, rfl⟩ | ⟨pre'', rfl, rfl⟩
      · have := Event.isCall_of_isAnswer (hanswers c (by simp))
        rw [hc] at this
        cases this
      · exact ih pre'' c post a rfl ha

/-- What the properties ensure for a view, and the uniqueness of its calls. -/
structure Matched (events : List Event) : Prop where
  unique : (observationToolCallIds events).Nodup
  calls : (actionToolCallIds events).Nodup
  requested : ∀ o ∈ events, ∀ id, o.observes id = true → ∃ c ∈ events, c.requests id = true

section Matched
variable {events : List Event}

theorem CallsFollowed.observed (h : CallsFollowed events) (pre post : List Event) {c : Event} {id : ToolCallID}
    (heq : events = pre ++ c :: post) (hc : c.requests id = true) :
    ∃ o ∈ (post.dropWhile Event.isCall).takeWhile Event.isAnswer, o.observes id = true := by
  obtain ⟨a, ha, rfl⟩ := Event.requests_iff.1 hc
  exact (h pre c post a heq ha).2

theorem isCall_of_requests {c : Event} {id : ToolCallID} (h : c.requests id = true) : c.isCall = true := by
  obtain ⟨a, ha, -⟩ := Event.requests_iff.1 h
  simp [Event.isCall, ha]

/-- No answer stands at the front: its call would come later, with an answer
of its own. -/
theorem Matched.not_isAnswer {e : Event} {es : List Event} (hm : Matched (e :: es)) (h : CallsFollowed (e :: es)) :
    e.isAnswer = false := by
  by_contra hanswer
  rw [Bool.not_eq_false] at hanswer
  obtain ⟨o, ho⟩ := Option.isSome_iff_exists.1 hanswer
  have hobs : e.observes o.toolCallId = true := Event.observes_iff.2 ⟨o, ho, rfl⟩
  obtain ⟨c, hc, hreq⟩ := hm.requested e List.mem_cons_self _ hobs
  rcases List.mem_cons.1 hc with rfl | hc
  · have := Event.isCall_of_isAnswer hanswer
    rw [isCall_of_requests hreq] at this
    cases this
  · obtain ⟨pre, post, rfl⟩ := List.append_of_mem hc
    obtain ⟨o', ho', hobs'⟩ := h.observed (e :: pre) post rfl hreq
    have ho'' : o' ∈ post := (List.dropWhile_suffix _).subset ((List.takeWhile_prefix _).subset ho')
    have hunique := hm.unique
    rw [observationToolCallIds_cons hobs, List.nodup_cons] at hunique
    exact hunique.1 (mem_observationToolCallIds.2 ⟨o', by simp [ho''], hobs'⟩)

/-- The first turn takes exactly the answers right behind it. -/
theorem Matched.turn {e : Event} {run answers rest : List Event} (hm : Matched (e :: run ++ (answers ++ rest)))
    (h : CallsFollowed (e :: run ++ (answers ++ rest))) (hanswers : ∀ o ∈ answers, o.isAnswer = true)
    (hobserved : ∀ c ∈ e :: run, ∀ id, c.requests id = true → ∃ o ∈ answers, o.observes id = true) :
    (observationToolCallIds answers).Perm (actionToolCallIds (e :: run)) ∧ Matched rest := by
  have hdisjoint : ∀ {o o' id}, o ∈ answers → o.observes id = true → o' ∈ rest → o'.observes id = true → False := by
    intro o o' id ho hobs ho' hobs'
    have hunique := hm.unique
    simp only [observationToolCallIds, List.filterMap_append] at hunique
    have := (List.nodup_append.1 (List.nodup_append.1 hunique).2.1).2.2
    exact this id (mem_observationToolCallIds.2 ⟨o, ho, hobs⟩) id (mem_observationToolCallIds.2 ⟨o', ho', hobs'⟩) rfl
  have hnot : ∀ {c id}, c ∈ answers → c.requests id = true → False := by
    intro c id hc hreq
    have := Event.isCall_of_isAnswer (hanswers c hc)
    rw [isCall_of_requests hreq] at this
    cases this
  have hanswersSub : answers.Sublist (e :: run ++ (answers ++ rest)) :=
    (List.sublist_append_left _ _).trans (List.sublist_append_right _ _)
  have hrestSub : rest.Sublist (e :: run ++ (answers ++ rest)) :=
    (List.sublist_append_right _ _).trans (List.sublist_append_right _ _)
  refine ⟨?_, hm.unique.sublist (hrestSub.filterMap _), hm.calls.sublist (hrestSub.filterMap _), ?_⟩
  · refine (List.perm_ext_iff_of_nodup (hm.unique.sublist (hanswersSub.filterMap _))
      (hm.calls.sublist ((List.sublist_append_left _ _).filterMap _))).2 fun id => ?_
    refine mem_observationToolCallIds.trans (Iff.trans ?_ mem_actionToolCallIds.symm)
    constructor
    · rintro ⟨o, ho, hobs⟩
      obtain ⟨c, hc, hreq⟩ := hm.requested o (hanswersSub.subset ho) id hobs
      rcases List.mem_append.1 hc with hc | hc
      · exact ⟨c, hc, hreq⟩
      rcases List.mem_append.1 hc with hc | hc
      · exact (hnot hc hreq).elim
      · obtain ⟨pre, post, rfl⟩ := List.append_of_mem hc
        obtain ⟨o', ho', hobs'⟩ := h.observed (e :: run ++ (answers ++ pre)) post (by simp) hreq
        have ho'' : o' ∈ post := (List.dropWhile_suffix _).subset ((List.takeWhile_prefix _).subset ho')
        exact (hdisjoint ho hobs (by simp [ho'']) hobs').elim
    · rintro ⟨c, hc, hreq⟩
      exact hobserved c hc id hreq
  · intro o ho id hobs
    obtain ⟨c, hc, hreq⟩ := hm.requested o (hrestSub.subset ho) id hobs
    rcases List.mem_append.1 hc with hc | hc
    · obtain ⟨o', ho', hobs'⟩ := hobserved c hc id hreq
      exact (hdisjoint ho' hobs' ho hobs).elim
    rcases List.mem_append.1 hc with hc | hc
    · exact (hnot hc hreq).elim
    · exact ⟨c, hc, hreq⟩

end Matched

theorem grouped_of_callsFollowed {events : List Event} (hm : Matched events) (h : CallsFollowed events) :
    Grouped events := by
  induction hlen : events.length using Nat.strong_induction_on generalizing events with
  | _ n ih =>
    subst hlen
    cases events with
    | nil => exact .nil
    | cons e es =>
      cases hcall : e.isCall with
      | true =>
        obtain ⟨a, ha⟩ := Option.isSome_iff_exists.1 hcall
        obtain ⟨run, tail, rfl, hrun, htail⟩ : ∃ run tail, es = run ++ tail ∧
            (∀ x ∈ run, x.isCall = true) ∧ ∀ x ∈ tail.head?, x.isCall = false := by
          refine ⟨es.takeWhile Event.isCall, es.dropWhile Event.isCall, List.takeWhile_append_dropWhile.symm,
            fun x hx => List.mem_takeWhile_imp hx, fun x hx => ?_⟩
          have := List.head?_dropWhile_not Event.isCall es
          rw [Option.mem_def.1 hx] at this
          simpa using this
        have hbatch := (h [] e (run ++ tail) a rfl ha).1
        rw [takeWhile_isCall hrun htail] at hbatch
        obtain ⟨answers, rest, rfl, hanswers, htake⟩ : ∃ answers rest, tail = answers ++ rest ∧
            (∀ o ∈ answers, o.isAnswer = true) ∧ tail.takeWhile Event.isAnswer = answers :=
          ⟨_, _, List.takeWhile_append_dropWhile.symm, fun o ho => List.mem_takeWhile_imp ho, rfl⟩
        have hobserved : ∀ c ∈ e :: run, ∀ id, c.requests id = true → ∃ o ∈ answers, o.observes id = true := by
          intro c hc id hreq
          obtain ⟨pre, post, hturn⟩ := List.append_of_mem hc
          have hpost : ∀ x ∈ post, x.isCall = true := by
            intro x hx
            have hmem : x ∈ e :: run := hturn ▸ by simp [hx]
            rcases List.mem_cons.1 hmem with rfl | hmem
            · exact hcall
            · exact hrun x hmem
          have heq : e :: (run ++ (answers ++ rest)) = pre ++ c :: (post ++ (answers ++ rest)) := by
            rw [← List.cons_append, hturn, List.append_assoc, List.cons_append]
          have := h.observed _ _ heq hreq
          rwa [dropWhile_isCall hpost htail, htake] at this
        obtain ⟨hperm, hrest⟩ := hm.turn h hanswers hobserved
        refine .turn hcall hbatch hanswers hperm (ih rest.length ?_ hrest ?_ rfl)
        · simp only [List.length_cons, List.length_append]
          omega
        · exact CallsFollowed.of_append (e :: run ++ answers) (by simpa using h)
      | false =>
        have hanswer := hm.not_isAnswer h
        have hrest : Matched es := by
          refine ⟨hm.unique.sublist ((List.sublist_cons_self _ _).filterMap _),
            hm.calls.sublist ((List.sublist_cons_self _ _).filterMap _), fun o ho id hobs => ?_⟩
          obtain ⟨c, hc, hreq⟩ := hm.requested o (List.mem_cons_of_mem _ ho) id hobs
          rcases List.mem_cons.1 hc with rfl | hc
          · rw [isCall_of_requests hreq] at hcall
            cases hcall
          · exact ⟨c, hc, hreq⟩
        exact .other hcall hanswer (ih es.length (by simp) hrest (CallsFollowed.of_append [e] h) rfl)

/-! ## Views -/

/-- `s` is the summary a condensation of the branch inserts. -/
def IsSummary (events : List Event) (s : Event) : Prop :=
  ∃ e ∈ events, ∃ c summary, e.body = .condensation c ∧ c.summary = some summary ∧
    s = Condensation.summaryEvent e.id summary

/-- Convertible events of the branch in their order (`inl`), and summaries
that condensations insert (`inr`). -/
structure Drawn (events view : List Event) (sources : List (Event ⊕ Event)) : Prop where
  view : view = sources.map (Sum.elim id id)
  kept : (sources.filterMap Sum.getLeft?).Sublist (events.filter Event.isLLMConvertible)
  inserted : ∀ s, .inr s ∈ sources → IsSummary events s

/-- The view of a branch is a valid history for the LLM. -/
structure ValidView (events : List Event) : Prop where
  terminates : (settle Event.id (View.passes events) ((View.rawEvents events).length + 1)
    (View.rawEvents events)).isSome
  drawn : ∃ sources, Drawn events (View.fromEvents events).events sources
  fixpoint : ∀ p ∈ View.passes events, p (View.fromEvents events).events = []
  history : ∃ messages, eventsToMessages (View.fromEvents events).events = some messages ∧ ValidHistory messages

section Drawn
variable {events view : List Event} {sources : List (Event ⊕ Event)}

theorem Drawn.filter (h : Drawn events view sources) (keep : Event → Bool) :
    Drawn events (view.filter keep) (sources.filter fun s => keep (s.elim id id)) where
  view := by rw [h.view, List.filter_map]; rfl
  kept := (List.filter_sublist.filterMap _).trans h.kept
  inserted s hs := h.inserted s (List.mem_of_mem_filter hs)

theorem Drawn.snoc (h : Drawn events view sources) (e : Event) : Drawn (events ++ [e]) view sources where
  view := h.view
  kept := by
    rw [List.filter_append]
    exact h.kept.trans (List.sublist_append_left _ _)
  inserted s hs := by
    obtain ⟨x, hx, hsummary⟩ := h.inserted s hs
    exact ⟨x, List.mem_append_left _ hx, hsummary⟩

theorem Drawn.insert (h : Drawn events view sources) {s : Event} (hs : IsSummary events s) (offset : Nat) :
    Drawn events (view.take offset ++ s :: view.drop offset)
      (sources.take offset ++ .inr s :: sources.drop offset) where
  view := by simp [h.view, List.map_take, List.map_drop]
  kept := by
    have hsame : (sources.take offset ++ .inr s :: sources.drop offset).filterMap Sum.getLeft? =
        sources.filterMap Sum.getLeft? := by
      rw [List.filterMap_append, List.filterMap_cons, Sum.getLeft?_inr, ← List.filterMap_append,
        List.take_append_drop]
    rw [hsame]
    exact h.kept
  inserted x hx := by
    rcases List.mem_append.1 hx with hx | hx
    · exact h.inserted x (List.mem_of_mem_take hx)
    · rcases List.mem_cons.1 hx with hx | hx
      · obtain rfl := Sum.inr.inj hx
        exact hs
      · exact h.inserted x (List.mem_of_mem_drop hx)

end Drawn

theorem rawEvents_drawn (events : List Event) : ∃ sources, Drawn events (View.rawEvents events) sources := by
  induction events using List.reverseRecOn with
  | nil => exact ⟨[], rfl, List.nil_sublist _, by simp⟩
  | append_singleton events e ih =>
    obtain ⟨sources, hold⟩ := ih
    have h := hold.snoc e
    rw [rawEvents_snoc]
    unfold View.appendRaw
    split
    · rename_i c hb
      unfold Condensation.apply
      split
      · rename_i s offset hs _
        exact ⟨_, (h.filter _).insert ⟨e, by simp, c, s, hb, hs, rfl⟩ offset⟩
      · exact ⟨_, h.filter _⟩
    · split
      · rename_i hconv
        refine ⟨sources ++ [.inl e], by simp [h.view], ?_, ?_⟩
        · rw [List.filterMap_append, List.filter_append, List.filter_cons_of_pos hconv]
          exact hold.kept.append (.refl _)
        · simpa using h.inserted
      · exact ⟨sources, h⟩

theorem fromEvents_drawn (events : List Event) :
    ∃ sources, Drawn events (View.fromEvents events).events sources := by
  obtain ⟨sources, h⟩ := rawEvents_drawn events
  obtain ⟨keep, hkeep⟩ := fromEvents_eq_filter events
  rw [hkeep]
  exact ⟨_, h.filter _⟩

theorem eventsToMessages_eq (events : List Event) :
    eventsToMessages events = (batchMessages events).map (·.foldl addMessage []) := by
  unfold eventsToMessages
  cases batchMessages events <;> rfl

theorem history_iff {events : List Event} (hc : ∀ e ∈ events, e.isLLMConvertible = true) (hm : Matched events) :
    (∃ messages, eventsToMessages events = some messages ∧ ValidHistory messages) ↔ CallsFollowed events := by
  constructor
  · rintro ⟨messages, hmessages, hvalid⟩
    rw [eventsToMessages_eq] at hmessages
    obtain ⟨ms, hms, rfl⟩ := Option.map_eq_some_iff.1 hmessages
    rw [ValidHistory, validFrom_merge] at hvalid
    exact (grouped_of_valid hc hms hvalid).callsFollowed
  · intro h
    obtain ⟨ms, hms, hvalid⟩ := (grouped_of_callsFollowed hm h).valid hc
    refine ⟨ms.foldl addMessage [], ?_, ?_⟩
    · rw [eventsToMessages_eq, hms]
      rfl
    · rw [ValidHistory, validFrom_merge]
      exact hvalid

theorem fromEvents_matched {events : List Event} (hids : (events.map Event.id).Nodup)
    (hcalls : (actionToolCallIds events).Nodup) : Matched (View.fromEvents events).events := by
  have hclosed := fromEvents_closed hids
  refine ⟨hclosed.unique, ?_, hclosed.requested⟩
  refine hcalls.sublist (List.Sublist.trans ?_ (filterMap_rawEvents _ (fun _ _ => rfl) events))
  exact (fromEvents_sublist events).filterMap _

/-- A view is a valid history exactly if each call that is kept has its turn
and its answer right behind it. -/
theorem validView_iff {events : List Event} (hids : (events.map Event.id).Nodup)
    (hcalls : (actionToolCallIds events).Nodup) : ValidView events ↔ CallsFollowed (View.kept events) := by
  have hhistory := history_iff (View.fromEvents events).convertible (fromEvents_matched hids hcalls)
  rw [← fromEvents_eq_kept hids, ← hhistory]
  refine ⟨fun h => h.history, fun h => ⟨?_, fromEvents_drawn events, ?_, h⟩⟩
  · exact View.settle_passes_isSome events _
  · rw [View.fromEvents_events]
    exact View.enforceEvents_stable events _

namespace BatchExample

def message (id : EventID) (text : String) (h : id ≠ rootParentId := by exact ne_rootParentId trivial) : Event :=
  { id, notRoot := h, body := .message (.ofUser [text]) }

/-- The user writes while the tool runs. -/
def interrupted : List Event :=
  [action "action-1" "call-1" (some (.other "ls")), message "message-1" "wait",
    observation "observation-1" "action-1" "call-1"]

theorem grouped_valid : Grouped valid := by
  have h : Grouped (action "action-1" "call-1" (some (.other "ls")) ::
      [action "action-2" "call-2" (some (.other "ls"))] ++
        ([observation "observation-1" "action-1" "call-1", observation "observation-2" "action-2" "call-2"] ++ [])) :=
    .turn (by decide) (by decide) (by decide) (by decide) .nil
  exact h

end BatchExample

open BatchExample in
/-- Two calls of one response and their observations. -/
theorem validView_valid : ValidView valid := by
  refine (validView_iff (by decide) (by decide)).2 ?_
  have hev : (View.fromEvents valid).events = valid := by decide
  rw [← fromEvents_eq_kept (by decide), hev]
  exact grouped_valid.callsFollowed

open BatchExample in
/-- The user message stays between the call and its result. -/
theorem invalidView_interrupted : ¬ ∀ events : List Event, (events.map Event.id).Nodup →
    (actionToolCallIds events).Nodup → ValidView events := by
  intro h
  obtain ⟨messages, hmessages, hvalid⟩ := (h interrupted (by decide) (by decide)).history
  have hnone : (eventsToMessages (View.fromEvents interrupted).events).all (validFrom [] · = false) = true := by
    decide
  rw [hmessages, Option.all_some, decide_eq_true_eq] at hnone
  exact Bool.false_ne_true (hnone.symm.trans hvalid)

end AgentSdk
