import AgentSdk.FunctionCalls
import AgentSdk.Lib.Dict
import AgentSdk.Lib.Result
/-!
# One tool call for each message

`convert_from_multiple_tool_calls_to_single_tool_call_messages`: an assistant
message with several tool calls becomes several messages, each in front of its
result. The calls wait in a dict by their ids until their results come.
-/

namespace AgentSdk.SplitCalls
open Lib

/-- A tool call as a dict; `none` is a missing key, and `rest` the other keys. -/
structure ToolCall (κ : Type) where
  id : Option String
  rest : List κ := []
deriving DecidableEq

structure MessageDict (κ : Type) where
  role : String
  content : Option Content := none
  toolCalls : Option (List (ToolCall κ)) := none
  toolCallId : Option String := none
  rest : List κ := []
deriving DecidableEq

inductive ConvertError where
  /-- `KeyError`. -/
  | missingKey (key : String)
  /-- `AssertionError`: calls are pending where none may be. -/
  | foundPending
  /-- `FunctionCallConversionError`. -/
  | noToolResult
deriving DecidableEq

def assistant : String := "assistant"

def tool : String := "tool"

section
variable {κ : Type}

def MessageDict.calls (m : MessageDict κ) : List (ToolCall κ) := m.toolCalls.getD []

abbrev PendingToolCalls (κ : Type) := List (String × MessageDict κ)

/-- The message of one call; the first one keeps the content. -/
def callMessage (content : Content) (i : Nat) (toolCall : ToolCall κ) : MessageDict κ where
  role := assistant
  content := some (if i = 0 then content else .text [])
  toolCalls := some [toolCall]

/-- The loop over the tool calls of a message, from the `i`-th on. -/
def addPending (content : Content) : Nat → List (ToolCall κ) → PendingToolCalls κ →
    Except ConvertError (PendingToolCalls κ)
  | _, [], pending => .ok pending
  | i, toolCall :: toolCalls, pending =>
    match toolCall.id with
    | none => .error (.missingKey "id")
    | some id => addPending content (i + 1) toolCalls (dictSet pending id (callMessage content i toolCall))

/-- One round of the loop: the converted messages and the pending calls. -/
def convertMessage (s : List (MessageDict κ) × PendingToolCalls κ) (m : MessageDict κ) :
    Except ConvertError (List (MessageDict κ) × PendingToolCalls κ) :=
  if m.role = assistant then
    if 1 < m.calls.length then (addPending (contentOr m.content) 0 m.calls s.2).map fun pending => (s.1, pending)
    else .ok (s.1 ++ [m], s.2)
  else if m.role = tool then
    match m.toolCallId with
    | none => .error (.missingKey "tool_call_id")
    | some id =>
      match s.2.lookup id with
      | some call => .ok (s.1 ++ [call, m], s.2.filter fun p => p.1 ≠ id)
      | none => if s.2.isEmpty then .ok (s.1 ++ [m], s.2) else .error .foundPending
  else if s.2.isEmpty then .ok (s.1 ++ [m], s.2)
  else .error .foundPending

def convertMessages (messages : List (MessageDict κ)) (ignoreFinalToolResult : Bool) :
    Except ConvertError (List (MessageDict κ)) := do
  let s ← messages.foldlM convertMessage ([], [])
  if !ignoreFinalToolResult && !s.2.isEmpty then .error .noToolResult else .ok s.1

/-! ## Histories -/

/-- A message that makes no tool calls, or one that does and the tool messages behind it. -/
inductive Segment (κ : Type) where
  | other (m : MessageDict κ)
  | turn (m : MessageDict κ) (results : List (MessageDict κ))

namespace Segment

def messages : Segment κ → List (MessageDict κ)
  | other m => [m]
  | turn m results => m :: results

/-- The calls of a turn are answered, each by one tool message, in any order. -/
def Answered : Segment κ → Prop
  | other m => m.calls = [] ∧ (m.role = tool → m.toolCallId.isSome)
  | turn m results => m.role = assistant ∧ m.calls ≠ [] ∧ (∀ toolCall ∈ m.calls, toolCall.id.isSome) ∧
      (∀ r ∈ results, r.role = tool) ∧ (results.map MessageDict.toolCallId).Perm (m.calls.map ToolCall.id)

/-- No two calls of the message have one id. -/
def DistinctIds : Segment κ → Prop
  | other _ => True
  | turn m _ => (m.calls.map ToolCall.id).Nodup

/-- A turn becomes pairs of a message with one call and its result, in the order
of the results. The calls are those of the message, and one of them has its content. -/
def Split : Segment κ → List (MessageDict κ) → Prop
  | other m, out => out = [m]
  | turn m results, out => ∃ pairs : List (MessageDict κ × MessageDict κ),
      out = pairs.flatMap (fun p => [p.1, p.2]) ∧ pairs.map Prod.snd = results ∧
        (∀ p ∈ pairs, p.1.role = assistant ∧ p.1.calls.map ToolCall.id = [p.2.toolCallId]) ∧
        (pairs.flatMap fun p => p.1.calls).Perm m.calls ∧
        (pairs.map fun p => contentOr p.1.content).Perm
          (contentOr m.content :: List.replicate (pairs.length - 1) (.text []))

end Segment

/-- The history is converted segment by segment. -/
def SplitAll (history : List (Segment κ)) : Prop :=
  ∃ outs, convertMessages (history.flatMap Segment.messages) false = .ok outs.flatten ∧
    List.Forall₂ Segment.Split history outs

/-! ## The pending calls -/

theorem addPending_eq (content : Content) (i : Nat) {toolCalls : List (ToolCall κ)} {pending : PendingToolCalls κ}
    (hids : ∀ toolCall ∈ toolCalls, toolCall.id.isSome)
    (hnew : (pending.map (some ∘ Prod.fst) ++ toolCalls.map ToolCall.id).Nodup) :
    addPending content i toolCalls pending =
      .ok (pending ++ (toolCalls.zipIdx i).map fun t => (t.1.id.getD "", callMessage content t.2 t.1)) := by
  induction toolCalls generalizing i pending with
  | nil => simp [addPending]
  | cons toolCall toolCalls ih =>
    obtain ⟨id, hid⟩ := Option.isSome_iff_exists.1 (hids toolCall List.mem_cons_self)
    have hfresh : id ∉ pending.map Prod.fst := by
      intro hmem
      obtain ⟨p, hp, rfl⟩ := List.mem_map.1 hmem
      exact (List.nodup_append.1 hnew).2.2 (some p.1) (List.mem_map.2 ⟨p, hp, rfl⟩) (some p.1) (by simp [hid]) rfl
    rw [addPending, hid]
    dsimp only
    rw [dictSet_new _ hfresh, ih (i + 1) (fun t ht => hids t (List.mem_cons_of_mem _ ht)) (by simpa [hid] using hnew)]
    simp [List.zipIdx_cons, hid]

/-- The results take the pending calls away. -/
theorem foldlM_results {results : List (MessageDict κ)} {pending : PendingToolCalls κ} (out : List (MessageDict κ))
    (hkeys : (pending.map Prod.fst).Nodup) (hrole : ∀ r ∈ results, r.role = tool)
    (hperm : (results.map MessageDict.toolCallId).Perm (pending.map (some ∘ Prod.fst))) :
    ∃ pairs : List (MessageDict κ × MessageDict κ),
      results.foldlM convertMessage (out, pending) = .ok (out ++ pairs.flatMap (fun p => [p.1, p.2]), []) ∧
        pairs.map Prod.snd = results ∧ (pairs.map Prod.fst).Perm (pending.map Prod.snd) ∧
          ∀ p ∈ pairs, ∃ id, p.2.toolCallId = some id ∧ (id, p.1) ∈ pending := by
  induction results generalizing pending out with
  | nil =>
    have hnil : pending = [] := by simpa using hperm.symm.eq_nil
    subst hnil
    exact ⟨[], by simp [List.foldlM, pure, Except.pure], rfl, .nil, List.forall_mem_nil _⟩
  | cons r results ih =>
    have hmem : r.toolCallId ∈ pending.map (some ∘ Prod.fst) := hperm.subset (by simp)
    obtain ⟨⟨id, call⟩, hp, hid⟩ := List.mem_map.1 hmem
    have hid : r.toolCallId = some id := hid.symm
    have hlookup : pending.lookup id = some call := lookup_of_mem hkeys hp
    have hsplit := perm_pop hkeys hp
    have hstep : convertMessage (out, pending) r = .ok (out ++ [call, r], pending.filter fun p => p.1 ≠ id) := by
      have hr := hrole r List.mem_cons_self
      have hne : tool ≠ assistant := by decide
      simp [convertMessage, hr, hne, hid, hlookup]
    have hrest : (results.map MessageDict.toolCallId).Perm
        ((pending.filter fun p => p.1 ≠ id).map (some ∘ Prod.fst)) := by
      have hall := hperm.trans (hsplit.map (some ∘ Prod.fst))
      rw [List.map_cons, List.map_cons, hid] at hall
      exact hall.cons_inv
    obtain ⟨pairs, hrun, hsnd, hfst, hmems⟩ := ih (out ++ [call, r]) (nodup_filter_keys _ hkeys)
      (fun x hx => hrole x (List.mem_cons_of_mem _ hx)) hrest
    refine ⟨(call, r) :: pairs, ?_, by simp [hsnd], ?_, fun p hp' => ?_⟩
    · rw [List.foldlM_cons, hstep]
      show results.foldlM convertMessage _ = _
      rw [hrun]
      simp
    · exact (hfst.cons call).trans (hsplit.map Prod.snd).symm
    · rcases List.mem_cons.1 hp' with rfl | hp'
      · exact ⟨id, hid, hp⟩
      · obtain ⟨i, hi, him⟩ := hmems p hp'
        exact ⟨i, hi, List.mem_of_mem_filter him⟩

/-! ## One segment -/

theorem contentOr_idem (content : Option Content) : contentOr (some (contentOr content)) = contentOr content := by
  match content with
  | none | some (.text _) | some (.parts []) | some (.parts (_ :: _)) => rfl

/-- The first call keeps the content, and the others have none. -/
theorem map_content_calls (content : Content) (toolCall : ToolCall κ) (toolCalls : List (ToolCall κ)) :
    ((toolCall :: toolCalls).zipIdx 0).map (fun t => if t.2 = 0 then content else .text []) =
      content :: List.replicate toolCalls.length (.text []) := by
  rw [List.zipIdx_cons, List.map_cons, if_pos rfl]
  congr 1
  have hlen : (toolCalls.zipIdx (0 + 1)).length = toolCalls.length := List.length_zipIdx
  rw [← hlen, ← List.map_const']
  refine List.map_congr_left fun t ht => if_neg ?_
  have hle := List.le_snd_of_mem_zipIdx ht
  omega

section Turns
variable {m : MessageDict κ} {results : List (MessageDict κ)}

/-- The calls of a turn, each in a message of its own, by their ids. -/
def pendingOf (m : MessageDict κ) : PendingToolCalls κ :=
  (m.calls.zipIdx 0).map fun t => (t.1.id.getD "", callMessage (contentOr m.content) t.2 t.1)

theorem keys_pendingOf (hids : ∀ toolCall ∈ m.calls, toolCall.id.isSome) :
    (pendingOf m).map (some ∘ Prod.fst) = m.calls.map ToolCall.id := by
  have hfst : m.calls.map ToolCall.id = ((m.calls.zipIdx 0).map Prod.fst).map ToolCall.id := by simp
  rw [hfst, pendingOf, List.map_map, List.map_map]
  refine List.map_congr_left fun t ht => ?_
  obtain ⟨id, hid⟩ := Option.isSome_iff_exists.1 (hids t.1 (List.fst_mem_of_mem_zipIdx ht))
  simp [hid]

theorem convert_turn (h : (Segment.turn m results).Answered) (hd : (Segment.turn m results).DistinctIds)
    (out : List (MessageDict κ)) :
    ∃ split, (m :: results).foldlM convertMessage (out, []) = .ok (out ++ split, []) ∧
      (Segment.turn m results).Split split := by
  obtain ⟨hrole, hne, hids, hresults, hperm⟩ := h
  rw [List.foldlM_cons]
  by_cases hmany : 1 < m.calls.length
  · have hkeys := keys_pendingOf hids
    have hpending : addPending (contentOr m.content) 0 m.calls [] = .ok (pendingOf m) := by
      rw [addPending_eq _ 0 hids (by rw [List.map_nil, List.nil_append]; exact hd)]
      rfl
    have hnodup : ((pendingOf m).map Prod.fst).Nodup := by
      have hall : ((pendingOf m).map (some ∘ Prod.fst)).Nodup := hkeys ▸ hd
      rw [← List.map_map] at hall
      exact hall.of_map
    obtain ⟨pairs, hrun, hsnd, hfst, hmem⟩ := foldlM_results out hnodup hresults (hkeys ▸ hperm)
    have hcall : ∀ p ∈ pairs, p.1.role = assistant ∧ p.1.calls.map ToolCall.id = [p.2.toolCallId] := by
      intro p hp
      obtain ⟨id, hid, hin⟩ := hmem p hp
      obtain ⟨t, ht, heq⟩ := List.mem_map.1 hin
      obtain ⟨i, hi⟩ := Option.isSome_iff_exists.1 (hids t.1 (List.fst_mem_of_mem_zipIdx ht))
      obtain ⟨rfl, hcall⟩ := Prod.mk.inj heq
      rw [← hcall, hid, hi]
      exact ⟨rfl, by simp [MessageDict.calls, callMessage, hi]⟩
    refine ⟨pairs.flatMap (fun p => [p.1, p.2]), ?_, pairs, rfl, hsnd, hcall, ?_, ?_⟩
    · have hstep : convertMessage (out, []) m = .ok (out, pendingOf m) := by
        rw [convertMessage, if_pos hrole, if_pos hmany, hpending]
        rfl
      rw [hstep]
      exact hrun
    · have hflat := hfst.flatMap_right MessageDict.calls
      rw [List.flatMap_map] at hflat
      refine hflat.trans (List.Perm.of_eq ?_)
      have hone : ∀ l : List (ToolCall κ × Nat), (l.map fun t => (t.1.id.getD "",
          callMessage (contentOr m.content) t.2 t.1)).flatMap (MessageDict.calls ∘ Prod.snd) = l.map Prod.fst := by
        intro l
        induction l with
        | nil => rfl
        | cons t l ih =>
          rw [List.map_cons, List.flatMap_cons, ih]
          rfl
      rw [List.flatMap_map]
      show (pendingOf m).flatMap (MessageDict.calls ∘ Prod.snd) = _
      rw [pendingOf, hone]
      simp
    · have hcontents := hfst.map fun call : MessageDict κ => contentOr call.content
      rw [List.map_map, List.map_map] at hcontents
      have hlen : pairs.length = m.calls.length := by
        have hsame := congrArg List.length hsnd
        have hsame' := hperm.length_eq
        simp only [List.length_map] at hsame hsame'
        omega
      refine hcontents.trans (List.Perm.of_eq ?_)
      obtain ⟨toolCall, toolCalls, hcalls⟩ := List.exists_cons_of_ne_nil hne
      rw [hlen, hcalls, List.length_cons, Nat.add_sub_cancel,
        ← map_content_calls (contentOr m.content) toolCall toolCalls, pendingOf, hcalls, List.map_map]
      refine List.map_congr_left fun t _ => ?_
      show contentOr (some (if t.2 = 0 then contentOr m.content else .text [])) = _
      split
      · exact contentOr_idem _
      · rfl
  · obtain ⟨toolCall, hcalls⟩ : ∃ toolCall, m.calls = [toolCall] := by
      -- One call: the message stays as it is.
      have hlen := List.length_pos_iff.2 hne
      exact List.length_eq_one_iff.1 (by omega)
    obtain ⟨id, hid⟩ := Option.isSome_iff_exists.1 (hids toolCall (by simp [hcalls]))
    rw [hcalls, List.map_singleton, hid] at hperm
    obtain ⟨r, rfl, hr⟩ := List.map_eq_singleton_iff.1 (List.perm_singleton.1 hperm)
    have htool := hresults r List.mem_cons_self
    have hna : tool ≠ assistant := by decide
    have hstep : convertMessage (out, []) m = .ok (out ++ [m], []) := by
      rw [convertMessage, if_pos hrole, if_neg hmany]
    have hstep' : convertMessage (out ++ [m], []) r = .ok (out ++ [m] ++ [r], []) := by
      simp [convertMessage, htool, hna, hr]
    refine ⟨[m, r], ?_, [(m, r)], rfl, rfl, ?_, ?_, ?_⟩
    · rw [hstep]
      show convertMessage (out ++ [m], []) r >>= _ = _
      rw [hstep', List.append_assoc]
      rfl
    · intro p hp
      rw [List.mem_singleton.1 hp]
      exact ⟨hrole, by simp [hcalls, hid, hr]⟩
    · simp
    · simp

theorem convert_other {m : MessageDict κ} (h : (Segment.other m).Answered) (out : List (MessageDict κ)) :
    convertMessage (out, []) m = .ok (out ++ [m], []) := by
  obtain ⟨hcalls, htool⟩ := h
  unfold convertMessage
  split
  · simp [hcalls]
  · split
    · obtain ⟨id, hid⟩ := Option.isSome_iff_exists.1 (htool ‹_›)
      simp [hid]
    · rfl

end Turns

/-! ## Whole histories -/

/-- Every call stands alone in front of its result, as long as no two calls of
one message have the same id. -/
theorem splitAll_of_distinctIds {history : List (Segment κ)} (h : ∀ s ∈ history, s.Answered)
    (hd : ∀ s ∈ history, s.DistinctIds) : SplitAll history := by
  have hgo : ∀ out : List (MessageDict κ), ∃ outs, (history.flatMap Segment.messages).foldlM convertMessage (out, []) =
      .ok (out ++ outs.flatten, []) ∧ List.Forall₂ Segment.Split history outs := by
    induction history with
    | nil => exact fun out => ⟨[], by simp [pure, Except.pure], .nil⟩
    | cons s history ih =>
      intro out
      have hsegment : ∃ split, s.messages.foldlM convertMessage (out, []) = .ok (out ++ split, []) ∧ s.Split split := by
        have hs := h s List.mem_cons_self
        cases s with
        | other m => exact ⟨[m], by simp [Segment.messages, convert_other hs], rfl⟩
        | turn m results => exact convert_turn hs (hd _ List.mem_cons_self) out
      obtain ⟨split, hrun, hsplit⟩ := hsegment
      obtain ⟨outs, hrest, hall⟩ := ih (fun t ht => h t (List.mem_cons_of_mem _ ht))
        (fun t ht => hd t (List.mem_cons_of_mem _ ht)) (out ++ split)
      refine ⟨split :: outs, ?_, .cons hsplit hall⟩
      rw [List.flatMap_cons, List.foldlM_append, hrun]
      show (history.flatMap Segment.messages).foldlM convertMessage (out ++ split, []) = _
      rw [hrest]
      simp
  obtain ⟨outs, hrun, hall⟩ := hgo []
  refine ⟨outs, ?_, hall⟩
  rw [convertMessages, hrun]
  rfl

end

/-! ## Two calls -/

private def question : MessageDict Unit := { role := "user", content := some (.text "go".toList) }

private def calling (first second : String) : MessageDict Unit :=
  { role := "assistant", content := some (.text "both".toList), toolCalls := some [{ id := some first }, { id := some second }] }

private def result (id : String) : MessageDict Unit := { role := "tool", toolCallId := some id }

/-- The second result comes first. -/
theorem splitAll_of_distinctIds_swapped :
    SplitAll [.other question, .turn (calling "a" "b") [result "b", result "a"]] := by
  refine splitAll_of_distinctIds (fun s hs => ?_) fun s hs => ?_
  · rcases List.mem_cons.1 hs with rfl | hs
    · exact ⟨rfl, fun h => by revert h; decide⟩
    · rw [List.mem_singleton.1 hs]
      exact ⟨rfl, by decide, by decide, by decide, by decide⟩
  · rcases List.mem_cons.1 hs with rfl | hs
    · trivial
    · rw [List.mem_singleton.1 hs]
      exact (by decide : ([some "a", some "b"] : List (Option String)).Nodup)

/-- With one id for both calls the first call is lost. -/
theorem call_lost : ¬ ∀ history : List (Segment Unit), (∀ s ∈ history, s.Answered) → SplitAll history := by
  intro h
  obtain ⟨outs, hrun, hall⟩ := h [.turn (calling "a" "a") [result "a", result "a"]] fun s hs => by
    rw [List.mem_singleton.1 hs]
    exact ⟨rfl, by decide, by decide, by decide, by decide⟩
  obtain ⟨out, rfl, pairs, rfl, hsnd, -⟩ : ∃ out, outs = [out] ∧
      Segment.Split (.turn (calling "a" "a") [result "a", result "a"]) out := by
    cases hall with
    | cons hsplit hrest =>
      cases hrest
      exact ⟨_, rfl, hsplit⟩
  have hthree : (convertMessages [calling "a" "a", result "a", result "a"] false).map List.length = .ok 3 := by decide
  have hlen : pairs.length = 2 := by
    have hsame := congrArg List.length hsnd
    rwa [List.length_map] at hsame
  have hfour : (convertMessages [calling "a" "a", result "a", result "a"] false).map List.length = .ok 4 := by
    rw [show [calling "a" "a", result "a", result "a"] = [Segment.turn (calling "a" "a") [result "a", result "a"]].flatMap
      Segment.messages from rfl, hrun]
    simp [Except.map, hlen]
  rw [hthree] at hfour
  cases hfour

end AgentSdk.SplitCalls
