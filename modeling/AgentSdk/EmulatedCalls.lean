import AgentSdk.FunctionCallFound
import AgentSdk.History
import AgentSdk.Lib.Result
/-!
# Emulated calls

For a model without native tool calls a request is written as plain text, and
behind it the response is parsed together with the whole request. The parser
numbers the calls that it finds on the way; the number of the response's call
is one above the number of calls of the view that was sent.
-/

namespace AgentSdk
open Lib

/-! ## The request as chat messages -/

/-- `MessageToolCall.to_chat_dict`. -/
def MessageToolCall.toChatDict (c : MessageToolCall) : ToolCallDict :=
  ⟨some c.id.toList, some "function".toList, some ⟨c.name.toList, c.arguments.toList⟩⟩

def ContentPart.isBlank : ContentPart → Bool
  | .text t => strip t = []
  | .other _ => false

/-- `_remove_content_if_empty`. -/
def removeContentIfEmpty : Content → Option Content
  | .text t => if strip t = [] then none else some (.text t)
  | .parts ps =>
    match ps.filter (!·.isBlank) with
    | [] => none
    | normalized => some (.parts normalized)

/-- `_normalize_empty_assistant_content`. -/
def normalizeEmptyAssistantContent : Content → Content
  | .parts [] => .text []
  | content => content

/-- `_list_serializer` and `_string_serializer`, of texts. -/
def Message.serialize (asList : Bool) (m : Message) : Content :=
  if asList then .parts (m.content.map fun t => .text t.toList)
  else .text (List.intercalate ['\n'] (m.content.map String.toList))

/-- `to_chat_dict` of an assistant message. -/
def Message.toChatDict (asList : Bool) (m : Message) : AssistantMessage :=
  if m.calls = [] then ⟨some (normalizeEmptyAssistantContent (m.serialize asList)), none⟩
  else ⟨removeContentIfEmpty (m.serialize asList), some (m.calls.map MessageToolCall.toChatDict)⟩

section
variable (F : Type) [PyFloat F]

/-- A message of `convert_fncall_messages_to_non_fncall_messages`: the content
of an assistant message. The others become system and user messages (`none`),
whose texts the parser's counter does not depend on. -/
def toNonFncall (asList : Bool) (m : Message) : Except FnCallError (Option Content) :=
  match m.role with
  | .assistant => (convertAssistantToNonFncall F (m.toChatDict asList)).map some
  | .system | .user | .tool => .ok none

/-- The messages that are sent for a view; `none` when they cannot be written. -/
def toPrompt (asList : Bool) (view : List Event) : Option (List (Option Content)) := do
  let messages ← eventsToMessages view
  (messages.mapM (toNonFncall F asList)).toOption

end

/-! ## The response -/

section
variable {F : Type} [PyFloat F]

/-- A round of `convert_non_fncall_messages_to_fncall_messages`, on the counter. -/
def countCall (tools : List (FunctionTool F)) (counter : Nat) : Option Content → Except FnCallError Nat
  | some content => (convertAssistantToFncall (some content) tools counter).map Prod.snd
  | none => .ok counter

/-- `post_response_prompt_mock`: what becomes of the response. -/
def postResponsePromptMock (tools : List (FunctionTool F)) (prompt : List (Option Content)) (response : Option Text) :
    Except FnCallError ParsedMessage := do
  let counter ← prompt.foldlM (countCall tools) 1
  let (last, _) ← convertAssistantToFncall (response.map .text) tools counter
  return last

end

/-! ## Ids -/

theorem leftpad_eq (n : Nat) (c : Char) (t : Text) : ∃ k, t.leftpad n c = List.replicate k c ++ t := ⟨_, rfl⟩

theorem ofDigitChars_replicate_zero (k : Nat) (t : Text) :
    Nat.ofDigitChars 10 (List.replicate k '0' ++ t) 0 = Nat.ofDigitChars 10 t 0 := by
  induction k with
  | zero => rfl
  | succ k ih =>
    rw [List.replicate_succ, List.cons_append, Nat.ofDigitChars_cons]
    exact ih

/-- The number of an emulated id. -/
def callNumber (id : ToolCallID) : Nat := Nat.ofDigitChars 10 (id.toList.drop "toolu_".toList.length) 0

theorem callNumber_emulatedId (counter : Nat) : callNumber (String.ofList (emulatedId counter)) = counter := by
  obtain ⟨k, hk⟩ := leftpad_eq 2 '0' (Nat.toDigits 10 counter)
  have htext : (String.ofList (emulatedId counter)).toList =
      "toolu_".toList ++ (Nat.toDigits 10 counter).leftpad 2 '0' := String.toList_ofList
  unfold callNumber
  rw [htext, List.drop_left, hk, ofDigitChars_replicate_zero]
  exact Nat.ofDigitChars_ten_toDigits

theorem emulatedId_inj {i j : Nat} (h : String.ofList (emulatedId i) = String.ofList (emulatedId j)) : i = j := by
  rw [← callNumber_emulatedId i, h, callNumber_emulatedId]

/-! ## What a parsed call is called -/

/-- A name that can stand in a call's first line. -/
def CallName (name : Text) : Prop := name ≠ [] ∧ '>' ∉ name

theorem tagged_name {opening closing optional t : Text} {n : Nat} {name body : Text}
    (h : tagged opening closing optional t = some (n, (name, body))) : CallName name := by
  unfold tagged at h
  obtain ⟨u, -, h⟩ := Option.bind_eq_some_iff.1 h
  dsimp only at h
  split at h
  · cases h
  · rename_i hne
    obtain ⟨v, -, h⟩ := Option.bind_eq_some_iff.1 h
    obtain ⟨⟨b, rest⟩, -, h⟩ := Option.bind_eq_some_iff.1 h
    cases h
    refine ⟨hne, fun hgt => ?_⟩
    simpa using List.mem_takeWhile_imp hgt

theorem search_some {α β : Type _} {m : Matcher α β} {t : List α} {b : β} (h : search m t = some b) :
    ∃ u n, m u = some (n, b) := by
  induction t with
  | nil => cases h
  | cons c t ih =>
    rw [search] at h
    cases hm : m (c :: t) with
    | none =>
      rw [hm] at h
      exact ih h
    | some r =>
      rw [hm] at h
      cases h
      exact ⟨_, _, hm⟩

theorem callName_of_search {t : Text} {found : Text × Text} (h : search fnMatch t = some found) : CallName found.1 := by
  obtain ⟨u, n, hm⟩ := search_some h
  exact tagged_name hm

theorem callName_of_fixLastPart {ps : List ContentPart} {found : Text × Text} (h : (fixLastPart ps).2 = some found) :
    CallName found.1 := by
  unfold fixLastPart at h
  split at h
  · exact callName_of_search h
  · cases h

theorem callName_of_found {content content' : Content} {found : Text × Text}
    (h : findFunctionMatch content = .ok (content', some found)) : CallName found.1 := by
  cases content with
  | text t =>
    obtain ⟨-, hfound⟩ := Prod.mk.inj (Except.ok.inj h)
    exact callName_of_search hfound
  | parts ps =>
    simp only [findFunctionMatch] at h
    split at h
    · cases h
    · obtain ⟨-, hfound⟩ := Prod.mk.inj (Except.ok.inj h)
      exact callName_of_fixLastPart hfound

theorem callName_of_resolve {F : Type} {tools : List (FunctionTool F)} {name name' : Text} {tool : FunctionTool F}
    (hname : CallName name) (h : resolveToolName tools name = .ok (name', tool)) : CallName name' := by
  have halias : ∀ p ∈ toolNameAliases, p.2 ≠ [] ∧ '>' ∉ p.2 := by decide
  unfold resolveToolName at h
  split at h
  · cases h
    exact hname
  · dsimp only at h
    split at h
    · cases h
      cases hl : toolNameAliases.lookup name with
      | none => exact hname
      | some target =>
        obtain ⟨l₁, l₂, hsplit, -⟩ := List.lookup_eq_some_iff.1 hl
        exact halias (name, target) (by rw [hsplit]; simp)
    · cases h

section Parsed
variable {F : Type} [PyFloat F] {tools : List (FunctionTool F)} {content : Option Content} {counter n : Nat}

/-- A message counts when a call is found in it, and only then. -/
theorem convertAssistantToFncall_ok {m : ParsedMessage} (h : convertAssistantToFncall content tools counter = .ok (m, n)) :
    (∃ content', findFunctionMatch (contentOr content) = .ok (content', none) ∧ m = .unchanged ∧ n = counter) ∨
      ∃ content' found content'' fn, findFunctionMatch (contentOr content) = .ok (content', some found) ∧
        m = .call content'' (emulatedId counter) fn ∧ n = counter + 1 ∧ CallName fn.name := by
  unfold convertAssistantToFncall at h
  obtain ⟨⟨content', found⟩, hfind, h⟩ := bind_ok h
  cases found with
  | none =>
    cases h
    exact .inl ⟨content', hfind, rfl, rfl⟩
  | some found =>
    obtain ⟨fnName, body⟩ := found
    obtain ⟨⟨name, tool⟩, hresolve, h⟩ := bind_ok h
    obtain ⟨params, -, h⟩ := bind_ok h
    cases h
    exact .inr ⟨content', _, _, _, hfind, rfl, rfl, callName_of_resolve (callName_of_found hfind) hresolve⟩

end Parsed

/-! ## The counter behind a request -/

/-- The calls that an assistant message makes. -/
def Message.assistantCalls (m : Message) : List MessageToolCall :=
  match m.role with
  | .assistant => m.calls
  | .system | .user | .tool => []

/-- The parser finds no call in it. -/
def Content.NoCall (content : Content) : Prop :=
  (findFunctionMatch (contentOr (some content))).toOption.map Prod.snd = some none

instance Content.NoCall.decidable (content : Content) : Decidable content.NoCall := by unfold NoCall; infer_instance

theorem Content.noCall_iff {content : Content} :
    content.NoCall ↔ ∃ c, findFunctionMatch (contentOr (some content)) = .ok (c, none) := by
  unfold NoCall
  cases findFunctionMatch (contentOr (some content)) with
  | error e => simp [Except.toOption]
  | ok r =>
    obtain ⟨c, found⟩ := r
    simp [Except.toOption]

/-- In an assistant message without calls none is found, however it is sent. -/
def Message.ShowsNoCall (m : Message) : Prop :=
  m.role = .assistant → m.calls = [] → ∀ asList, (normalizeEmptyAssistantContent (m.serialize asList)).NoCall

instance Message.ShowsNoCall.decidable (m : Message) : Decidable m.ShowsNoCall := by unfold ShowsNoCall; infer_instance

/-- The parser finds in a message the calls that it makes. -/
structure Message.Countable (m : Message) : Prop where
  names : ∀ c ∈ m.assistantCalls, CallName c.name.toList
  prose : m.ShowsNoCall

section Counting
variable {F : Type} [PyFloat F] {tools : List (FunctionTool F)} {asList : Bool}

theorem convertToolCallToString_ok {tc : MessageToolCall} {t : Text}
    (h : convertToolCallToString F tc.toChatDict = .ok t) :
    ∃ args : List (Text × Json F), t = renderCall tc.name.toList args := by
  unfold convertToolCallToString MessageToolCall.toChatDict at h
  dsimp only at h
  rw [if_neg (not_not.2 rfl)] at h
  split at h
  · cases h
  · cases h
    exact ⟨_, rfl⟩
  · cases h

theorem contentOr_contentOr (content : Option Content) : contentOr (some (contentOr content)) = contentOr content := by
  rcases content with _ | ⟨t⟩ | ⟨_ | ⟨p, ps⟩⟩ <;> rfl

/-- A message without calls leaves the counter alone. -/
theorem counter_of_prose {m : Message} (hm : m.ShowsNoCall) (hr : m.role = .assistant) (hcalls : m.calls = [])
    {c : Content} (hc : convertAssistantToNonFncall F (m.toChatDict asList) = .ok c) {counter n : Nat}
    {parsed : ParsedMessage} (h : convertAssistantToFncall (some c) tools counter = .ok (parsed, n)) : n = counter := by
  obtain ⟨content, hnone⟩ := Content.noCall_iff.1 (hm hr hcalls asList)
  rw [Message.toChatDict, if_pos hcalls] at hc
  obtain rfl : contentOr (some (normalizeEmptyAssistantContent (m.serialize asList))) = c := Except.ok.inj hc
  rcases convertAssistantToFncall_ok h with ⟨_, -, -, hn⟩ | ⟨_, _, _, _, hfound, -⟩
  · exact hn
  · rw [contentOr_contentOr, hnone] at hfound
    cases hfound

/-- A message that can be written has one call, and it counts. -/
theorem counter_of_call {m : Message} (hm : ∀ c ∈ m.calls, CallName c.name.toList) (hcalls : m.calls ≠ [])
    {c : Content} (hc : convertAssistantToNonFncall F (m.toChatDict asList) = .ok c) {counter n : Nat}
    {parsed : ParsedMessage} (h : convertAssistantToFncall (some c) tools counter = .ok (parsed, n)) :
    n = counter + m.calls.length := by
  rw [Message.toChatDict, if_neg hcalls] at hc
  cases hl : m.calls with
  | nil => exact absurd hl hcalls
  | cons tc rest =>
    rw [hl] at hc hm
    cases rest with
    | cons tc' rest => cases hc
    | nil =>
      obtain ⟨t, ht, rfl⟩ := map_ok hc
      obtain ⟨args, rfl⟩ := convertToolCallToString_ok ht
      obtain ⟨hne, hgt⟩ := hm tc List.mem_cons_self
      obtain ⟨content', found, hsome⟩ :=
        findFunctionMatch_withCall_some hne hgt (contentOr (removeContentIfEmpty (m.serialize asList))) args
      rcases convertAssistantToFncall_ok h with ⟨_, hnone, -⟩ | ⟨_, _, _, _, -, -, hn, -⟩
      · rw [hsome] at hnone
        cases hnone
      · exact hn

/-- A message moves the counter by the number of its calls. -/
theorem countCall_of_countable {m : Message} (hm : m.Countable) {content : Option Content} {counter n : Nat}
    (hwrite : toNonFncall F asList m = .ok content) (h : countCall tools counter content = .ok n) :
    n = counter + m.assistantCalls.length := by
  obtain ⟨hnames, hprose⟩ := hm
  unfold toNonFncall at hwrite
  unfold Message.assistantCalls at hnames ⊢
  cases hr : m.role with
  | assistant =>
    simp only [hr] at hwrite hnames ⊢
    obtain ⟨c, hc, rfl⟩ := map_ok hwrite
    obtain ⟨⟨parsed, k⟩, hparse, rfl⟩ := map_ok h
    by_cases hcalls : m.calls = []
    · rw [hcalls]
      exact counter_of_prose hprose hr hcalls hc hparse
    · exact counter_of_call hnames hcalls hc hparse
  | system | user | tool =>
    simp only [hr] at hwrite ⊢
    cases hwrite
    cases h
    rfl

/-- The counter behind a whole request. -/
theorem foldlM_countCall {ms : List Message} (hms : ∀ m ∈ ms, m.Countable) {prompt : List (Option Content)}
    (hwrite : ms.mapM (toNonFncall F asList) = .ok prompt) {counter n : Nat}
    (h : prompt.foldlM (countCall tools) counter = .ok n) : n = counter + (ms.flatMap Message.assistantCalls).length := by
  induction ms generalizing prompt counter with
  | nil =>
    cases hwrite
    cases h
    rfl
  | cons m ms ih =>
    obtain ⟨hm, hms⟩ := List.forall_mem_cons.1 hms
    rw [List.mapM_cons] at hwrite
    obtain ⟨content, hcontent, hwrite⟩ := bind_ok hwrite
    obtain ⟨rest, hrest, hwrite⟩ := bind_ok hwrite
    cases hwrite
    rw [List.foldlM_cons] at h
    obtain ⟨k, hk, h⟩ := bind_ok h
    have hstep := countCall_of_countable hm hcontent hk
    have htail := ih hms hrest h
    rw [List.flatMap_cons, List.length_append]
    omega

end Counting

/-! ## The messages of a view -/

/-- In an event that is no call, none is found. -/
def Event.ShowsNoCall (e : Event) : Prop := ∀ m ∈ e.toLLMMessage, m.ShowsNoCall

instance Event.ShowsNoCall.decidable (e : Event) : Decidable e.ShowsNoCall := by unfold ShowsNoCall; infer_instance

/-- An event whose message the parser counts right. -/
structure Event.Countable (e : Event) : Prop where
  names : ∀ a, e.action? = some a → CallName a.toolCall.name.toList
  prose : e.action? = none → e.ShowsNoCall

def toolCalls (events : List Event) : List MessageToolCall := events.filterMap fun e => e.action?.map ActionEvent.toolCall

section Messages
open BatchAtomicity

theorem toLLMMessage_countable {e : Event} (he : e.Countable) (hcall : e.isCall = false) {m : Message}
    (h : e.toLLMMessage = some m) : m.Countable ∧ m.assistantCalls = [] := by
  have hnone : e.action? = none := by simpa [Event.isCall] using hcall
  have hcalls : m.role = .assistant → m.calls = [] := by
    unfold Event.action? at hnone
    unfold Event.toLLMMessage at h
    cases hb : e.body with
    | message mv =>
      rw [hb] at h
      cases h
      exact mv.noCalls
    | action a => simp [hb] at hnone
    | _ =>
      rw [hb] at h
      cases h <;> exact fun hr => by cases hr
  have hempty : m.assistantCalls = [] := by
    unfold Message.assistantCalls
    cases hr : m.role with
    | assistant => exact hcalls hr
    | _ => rfl
  exact ⟨⟨by simp [hempty], he.prose hnone m h⟩, hempty⟩

theorem batchMessage_countable {e : Event} {run : List Event} (hcs : ∀ x ∈ e :: run, x.Countable)
    (hcall : e.isCall = true) {m : Message} (h : batchMessage (e :: run) = some m) :
    m.Countable ∧ m.assistantCalls = toolCalls (e :: run) := by
  obtain ⟨a, ha⟩ := Option.isSome_iff_exists.1 hcall
  rw [batchMessage_eq ha] at h
  obtain ⟨hrole, hcalls, -⟩ := combineActionEvents_spec h
  have hsame : m.assistantCalls = toolCalls (e :: run) := by
    rw [Message.assistantCalls, hrole, hcalls, toolCalls, ← List.map_filterMap, List.filterMap_cons, ha]
  refine ⟨⟨?_, fun _ hnil => ?_⟩, hsame⟩
  · rw [hsame]
    intro c hc
    obtain ⟨x, hx, hxc⟩ := List.mem_filterMap.1 hc
    obtain ⟨b, hb, rfl⟩ := Option.map_eq_some_iff.1 hxc
    exact (hcs x hx).names b hb
  · rw [hcalls] at hnil
    cases hnil

theorem toolCalls_append (es fs : List Event) : toolCalls (es ++ fs) = toolCalls es ++ toolCalls fs :=
  List.filterMap_append

/-- The messages make the calls of the events, in order. -/
theorem batchMessages_countable {events : List Event} (hcs : ∀ x ∈ events, x.Countable) {ms : List Message}
    (h : batchMessages events = some ms) :
    (∀ m ∈ ms, m.Countable) ∧ ms.flatMap Message.assistantCalls = toolCalls events := by
  induction hlen : events.length using Nat.strong_induction_on generalizing events ms with
  | _ n ih =>
    subst hlen
    cases events with
    | nil =>
      cases h
      exact ⟨by simp, rfl⟩
    | cons e es =>
      obtain ⟨m, ms', hm, hms', rfl⟩ := batchMessages_eq_some h
      have hsplit : e :: es = (e :: es.takeWhile (sameBatch e ·)) ++ es.dropWhile (sameBatch e ·) := by
        rw [List.cons_append, List.takeWhile_append_dropWhile]
      have hlt : (es.dropWhile (sameBatch e ·)).length < (e :: es).length :=
        Nat.lt_succ_of_le (List.length_dropWhile_le _ _)
      have hfirst : ∀ x ∈ e :: es.takeWhile (sameBatch e ·), x.Countable := fun x hx =>
        hcs x (by rw [hsplit]; exact List.mem_append_left _ hx)
      obtain ⟨hall, hflat⟩ := ih _ hlt (fun x hx => hcs x (by rw [hsplit]; exact List.mem_append_right _ hx)) hms' rfl
      have hhead : m.Countable ∧ m.assistantCalls = toolCalls (e :: es.takeWhile (sameBatch e ·)) := by
        cases hcall : e.isCall with
        | true => exact batchMessage_countable hfirst hcall hm
        | false =>
          have hrun : es.takeWhile (sameBatch e ·) = [] := by
            cases es with
            | nil => rfl
            | cons x es => simp [sameBatch_of_not_isCall hcall]
          rw [hrun] at hm ⊢
          obtain ⟨hc, hnil⟩ := toLLMMessage_countable (hcs e List.mem_cons_self) hcall hm
          have hnone : e.action? = none := by simpa [Event.isCall] using hcall
          exact ⟨hc, by rw [hnil, toolCalls]; simp [hnone]⟩
      refine ⟨List.forall_mem_cons.2 ⟨hhead.1, hall⟩, ?_⟩
      rw [List.flatMap_cons, hhead.2, hflat, ← toolCalls_append, ← hsplit]

/-- Merging user messages makes and takes no calls. -/
theorem addMessage_countable {messages : List Message} {msg : Message} (hms : ∀ m ∈ messages, m.Countable)
    (hmsg : msg.Countable) : (∀ m ∈ addMessage messages msg, m.Countable) ∧
      (addMessage messages msg).flatMap Message.assistantCalls =
        messages.flatMap Message.assistantCalls ++ msg.assistantCalls := by
  unfold addMessage
  cases hl : messages.getLast? with
  | none =>
    rw [List.getLast?_eq_none_iff.1 hl]
    exact ⟨by simpa using hmsg, by simp⟩
  | some last =>
    have hsplit : messages = messages.dropLast ++ [last] := (List.dropLast_append_getLast? _ hl).symm
    dsimp only
    split
    · rename_i hmerge
      have hroles : last.role = .user ∧ msg.role = .user := by
        simp only [canMergeUserMessages, isPlainUserMessage, Bool.and_eq_true, decide_eq_true_eq] at hmerge
        exact ⟨hmerge.1.1.1.1, hmerge.2.1.1.1⟩
      have hnone : ∀ m : Message, m.role = .user → m.assistantCalls = [] := by
        intro m hr
        rw [Message.assistantCalls, hr]
      have hnoCalls : ({ last with content := last.content ++ msg.content } : Message).assistantCalls = [] :=
        hnone _ hroles.1
      have hmerged : ({ last with content := last.content ++ msg.content } : Message).Countable := by
        refine ⟨fun c hc => ?_, fun hr => ?_⟩
        · rw [hnoCalls] at hc
          cases hc
        · rw [show last.role = .assistant from hr] at hroles
          cases hroles.1
      constructor
      · rw [hsplit, List.forall_mem_append] at hms
        exact List.forall_mem_append.2 ⟨hms.1, by simpa using hmerged⟩
      · conv_rhs => rw [hsplit]
        rw [List.flatMap_append, List.flatMap_append, List.flatMap_singleton, List.flatMap_singleton, hnoCalls,
          hnone _ hroles.1, hnone _ hroles.2]
        simp
    · exact ⟨List.forall_mem_append.2 ⟨hms, by simpa using hmsg⟩, by simp⟩

theorem eventsToMessages_countable {events : List Event} (hcs : ∀ x ∈ events, x.Countable) {ms : List Message}
    (h : eventsToMessages events = some ms) :
    (∀ m ∈ ms, m.Countable) ∧ ms.flatMap Message.assistantCalls = toolCalls events := by
  obtain ⟨parts, hparts, h⟩ := Option.bind_eq_some_iff.1 h
  cases h
  obtain ⟨hall, hflat⟩ := batchMessages_countable hcs hparts
  have hfold : ∀ (rest acc : List Message), (∀ m ∈ rest, m.Countable) → (∀ m ∈ acc, m.Countable) →
      (∀ m ∈ rest.foldl addMessage acc, m.Countable) ∧ (rest.foldl addMessage acc).flatMap Message.assistantCalls =
        acc.flatMap Message.assistantCalls ++ rest.flatMap Message.assistantCalls := by
    intro rest
    induction rest with
    | nil => exact fun acc _ hacc => ⟨hacc, by simp⟩
    | cons m rest ih =>
      intro acc hrest hacc
      obtain ⟨hm, hrest⟩ := List.forall_mem_cons.1 hrest
      obtain ⟨hadd, hcalls⟩ := addMessage_countable hacc hm
      obtain ⟨hend, hsum⟩ := ih (addMessage acc m) hrest hadd
      exact ⟨hend, by rw [List.foldl_cons, hsum, hcalls, List.flatMap_cons, List.append_assoc]⟩
  obtain ⟨hend, hsum⟩ := hfold parts [] hall (by simp)
  exact ⟨hend, by rw [hsum, hflat]; rfl⟩

end Messages

/-- The number of a new call is one above the number of the calls that were sent. -/
theorem postResponsePromptMock_id {F : Type} [PyFloat F] {tools : List (FunctionTool F)} {asList : Bool}
    {view : List Event} (hcs : ∀ x ∈ view, x.Countable) {prompt : List (Option Content)}
    (hprompt : toPrompt F asList view = some prompt) {response : Option Text} {m : ParsedMessage}
    (h : postResponsePromptMock tools prompt response = .ok m) :
    (m = .unchanged ∧ (contentOr (response.map .text)).NoCall) ∨
      ∃ content fn, m = .call content (emulatedId ((toolCalls view).length + 1)) fn ∧ CallName fn.name := by
  obtain ⟨ms, hms, hprompt⟩ := Option.bind_eq_some_iff.1 hprompt
  obtain ⟨hall, hflat⟩ := eventsToMessages_countable hcs hms
  obtain ⟨counter, hcount, h⟩ := bind_ok h
  obtain ⟨⟨last, n⟩, hlast, h⟩ := bind_ok h
  cases h
  have hcounter := foldlM_countCall hall (toOption_eq_some hprompt) hcount
  rw [hflat, Nat.add_comm] at hcounter
  rcases convertAssistantToFncall_ok hlast with ⟨content, hnone, rfl, -⟩ | ⟨_, _, content, fn, -, rfl, -, hname⟩
  · exact .inl ⟨rfl, Content.noCall_iff.2 ⟨content, by rw [contentOr_contentOr]; exact hnone⟩⟩
  · exact .inr ⟨content, fn, by rw [hcounter], hname⟩

end AgentSdk
