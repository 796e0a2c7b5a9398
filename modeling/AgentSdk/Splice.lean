import AgentSdk.Condenser
/-!
# A condensation is a splice

What `get_condensation` and `hard_context_reset` return, and their twins that
await the LLM: the forgotten ids and the summary's offset describe one gap in the
view.
-/

namespace AgentSdk
open Lib

namespace LLMSummarizingCondenser

/-! ## The twins

The bodies are those of `get_condensation` and `hard_context_reset`, around
`agenerate`, whose answers `llm` holds. -/

section Twins
variable (c : LLMSummarizingCondenser)

def agetCondensation (agentLlm : Option AgentLLM) (llm : SummaryLLM) (v : View) : Except CondenseError Condensation :=
  c.getCondensation agentLlm llm v

def ahardContextReset (llm : SummaryLLM) (v : View) : Except CondenseError (Option Condensation) :=
  c.hardContextReset llm v

/-- How a condensation came about. -/
inductive Path where
  | ordinary
  | reset
deriving DecidableEq

def returned (agentLlm : Option AgentLLM) (llm : SummaryLLM) (v : View) : Path → Option Condensation
  | .ordinary => (c.getCondensation agentLlm llm v).toOption
  | .reset => (c.hardContextReset llm v).toOption.join

def areturned (agentLlm : Option AgentLLM) (llm : SummaryLLM) (v : View) : Path → Option Condensation
  | .ordinary => (c.agetCondensation agentLlm llm v).toOption
  | .reset => (c.ahardContextReset llm v).toOption.join

end Twins

/-- The events from `p` to `q` are forgotten, and the summary stands in their place. -/
structure SplicedAt (v : View) (k : Condensation) (p q : Nat) : Prop where
  le : p ≤ q
  le_length : q ≤ v.events.length
  forgotten : k.forgottenEventIds = (slice v p q).map Event.id
  offset : k.summaryOffset = some p
  apply : ∀ id, k.apply id v.events =
    v.events.take p ++ (k.summary.map (Condensation.summaryEvent id)).toList ++ v.events.drop q

section Splices
variable {c : LLMSummarizingCondenser} {agentLlm : Option AgentLLM} {llm llm' : SummaryLLM} {v : View} {k k' : Condensation}
  {path : Path}

theorem events_slice {p q : Nat} (h : p ≤ q) : v.events = v.events.take p ++ slice v p q ++ v.events.drop q := by
  have htake : v.events.take p = (v.events.take q).take p := by rw [List.take_take, Nat.min_eq_left h]
  rw [htake, slice, List.take_append_drop, List.take_append_drop]

theorem splicedAt (hv : (v.events.map Event.id).Nodup) {p q : Nat} (hpq : p ≤ q) (hq : q ≤ v.events.length)
    (summary : Option String) : SplicedAt v ⟨(slice v p q).map Event.id, summary, some p⟩ p q := by
  refine ⟨hpq, hq, rfl, rfl, fun id => ?_⟩
  have hsplit := events_slice (v := v) hpq
  have hlen : (v.events.take p).length = p := by
    rw [List.length_take]
    omega
  have hcut := Condensation.apply_cut (hsplit ▸ hv) id summary
  rw [← hsplit, hlen] at hcut
  exact hcut

/-- The gap of a condensation depends on the path and the view alone. -/
def Gap (c : LLMSummarizingCondenser) (agentLlm : Option AgentLLM) (v : View) (p q : Nat) : Path → Prop
  | .ordinary => c.Forgettable agentLlm v p q
  | .reset => p = preserve v ∧ q = v.events.length ∧ preserve v < v.events.length

theorem Gap.unique {p q p' q' : Nat} (h : Gap c agentLlm v p q path) (h' : Gap c agentLlm v p' q' path) :
    p = p' ∧ q = q' := by
  cases path with
  | ordinary =>
    obtain ⟨naiveEnd, hn, hstop⟩ := Forgettable.findStop h
    obtain ⟨naiveEnd', hn', hstop'⟩ := Forgettable.findStop h'
    rw [hn] at hn'
    cases hn'
    rw [hstop] at hstop'
    have hstart := Forgettable.findStart h
    rw [Forgettable.findStart h'] at hstart
    cases hstop'
    cases hstart
    exact ⟨rfl, rfl⟩
  | reset =>
    obtain ⟨rfl, rfl, -⟩ := h
    obtain ⟨rfl, rfl, -⟩ := h'
    exact ⟨rfl, rfl⟩

theorem Gap.le {p q : Nat} (h : Gap c agentLlm v p q path) : p ≤ q ∧ q ≤ v.events.length := by
  cases path with
  | ordinary => exact ⟨Nat.le_of_lt (Forgettable.lt h), Forgettable.stop_le h⟩
  | reset =>
    obtain ⟨rfl, rfl, hlt⟩ := h
    exact ⟨Nat.le_of_lt hlt, Nat.le_refl _⟩

theorem returned_eq (h : c.returned agentLlm llm v path = some k) :
    ∃ p q, Gap c agentLlm v p q path ∧ ∃ summary, k = ⟨(slice v p q).map Event.id, summary, some p⟩ := by
  cases path with
  | ordinary =>
    obtain ⟨p, q, summary, hf, -, rfl⟩ := getCondensation_ok (toOption_eq_some h)
    exact ⟨p, q, hf, summary, rfl⟩
  | reset =>
    obtain ⟨_, summary, -, hlt, rfl⟩ := hardContextReset_ok (toOption_eq_some (Option.join_eq_some_iff.1 h))
    refine ⟨preserve v, v.events.length, ⟨rfl, rfl, hlt⟩, summary, ?_⟩
    rw [slice, List.take_length]

theorem areturned_eq : c.areturned agentLlm llm v path = c.returned agentLlm llm v path := by
  cases path <;> rfl

/-- Nothing up to the first system prompt is forgotten. -/
theorem Gap.system_lt {p q i : Nat} (h : Gap c agentLlm v p q path) (hi : leadingSystemPromptIndex v.events = some i) :
    i < p := by
  cases path with
  | ordinary =>
    have hle := ManipulationIndices.le_of_findNext (Forgettable.findStart h)
    simp only [protectedPrefix, hi] at hle
    omega
  | reset =>
    obtain ⟨rfl, -, -⟩ := h
    simp [preserve, hi]

theorem Gap.keepFirst_le {p q : Nat} (h : Gap c agentLlm v p q .ordinary) : c.keepFirst ≤ p := by
  have hle := ManipulationIndices.le_of_findNext (Forgettable.findStart h)
  unfold protectedPrefix at hle
  split at hle <;> omega

theorem SplicedAt.getElem? {p q i : Nat} (h : SplicedAt v k p q) (hi : i < p) (id : EventID) :
    (k.apply id v.events)[i]? = v.events[i]? := by
  have hlen : i < (v.events.take p).length := by
    have hle := h.le
    have hle' := h.le_length
    rw [List.length_take]
    omega
  rw [h.apply, List.append_assoc, List.getElem?_append_left hlen, List.getElem?_take_of_lt hi]

/-- A condensation cuts one gap out of the view and puts its summary there. On
the ordinary path the gap begins behind the events that are always kept, the
system prompt stays where it is, and the twin finds the same gap. -/
theorem splice_of_returned (hv : (v.events.map Event.id).Nodup) (h : c.returned agentLlm llm v path = some k) :
    (∃ p q, SplicedAt v k p q ∧ (path = .ordinary → c.keepFirst ≤ p)) ∧
      (∀ i, leadingSystemPromptIndex v.events = some i → ∀ id, (k.apply id v.events)[i]? = v.events[i]?) ∧
        ∀ k', c.areturned agentLlm llm' v path = some k' →
          k'.forgottenEventIds = k.forgottenEventIds ∧ k'.summaryOffset = k.summaryOffset := by
  obtain ⟨p, q, hgap, summary, rfl⟩ := returned_eq h
  have hspliced := splicedAt hv hgap.le.1 hgap.le.2 summary
  refine ⟨⟨p, q, hspliced, ?_⟩, fun i hi id => hspliced.getElem? (hgap.system_lt hi) id, fun k' hk' => ?_⟩
  · rintro rfl
    exact hgap.keepFirst_le
  · rw [areturned_eq] at hk'
    obtain ⟨p', q', hgap', summary', rfl⟩ := returned_eq hk'
    obtain ⟨rfl, rfl⟩ := hgap.unique hgap'
    exact ⟨rfl, rfl⟩

end Splices

private def uttered (id : EventID) (h : id ≠ rootParentId := by exact ne_rootParentId trivial) : Event :=
  { id, notRoot := h, body := .message (.ofUser [id]) }

/-- A prompt and five messages. -/
private def talk : View where
  events := [{ id := "sys", body := .systemPrompt "You are an agent." none }, uttered "e1", uttered "e2", uttered "e3",
    uttered "e4", uttered "e5"]
  convertible := by decide

private def brief : LLMSummarizingCondenser := .small

private def teller : SummaryLLM := ⟨fun _ _ _ => .ok (some "so far"), fun _ => 1⟩

theorem splice_of_returned_talk : (talk.events.map Event.id).Nodup ∧
    ∃ k, brief.returned none teller talk .ordinary = some k ∧ k.forgottenEventIds = ["e1", "e2", "e3", "e4"] ∧
      ∃ p q, SplicedAt talk k p q ∧ brief.keepFirst ≤ p := by
  have hids : (talk.events.map Event.id).Nodup := by decide +kernel
  have hk : brief.returned none teller talk .ordinary = some ⟨["e1", "e2", "e3", "e4"], some "so far", some 1⟩ := by
    decide +kernel
  obtain ⟨⟨p, q, hsplice, hkeep⟩, -, -⟩ := @splice_of_returned brief none teller teller talk _ .ordinary hids hk
  exact ⟨hids, _, hk, rfl, p, q, hsplice, hkeep rfl⟩

end LLMSummarizingCondenser

end AgentSdk
