import AgentSdk.Event
import AgentSdk.FunctionCalls
import AgentSdk.Lib.Dict
/-!
# Resume transcripts

`render_resume_transcript`: the events of a lost session as the opening message
of a new one, within a budget of characters. Texts are lists of characters, as
the budgets count them.
-/

namespace AgentSdk.ResumeTranscript
open Lib

/-! ## Truncation -/

def headEllipsis : Text := "...\n".toList

def tailEllipsis : Text := "...".toList

/-- `_truncate_keep_head`. -/
def truncateKeepHead (text : Text) (maxChars : Nat) : Text :=
  if maxChars = 0 then []
  else if text.length ≤ maxChars then text
  else if maxChars < tailEllipsis.length + 1 then text.take maxChars
  else text.take (maxChars - tailEllipsis.length) ++ tailEllipsis

/-- `_truncate_keep_tail`. -/
def truncateKeepTail (text : Text) (maxChars : Nat) : Text :=
  if maxChars = 0 then []
  else if text.length ≤ maxChars then text
  else if maxChars < headEllipsis.length + 1 then text.drop (text.length - maxChars)
  else headEllipsis ++ text.drop (text.length - (maxChars - headEllipsis.length))

/-- What is kept is a tail of the text, perhaps behind the ellipsis. -/
theorem truncateKeepTail_spec (text : Text) (maxChars : Nat) :
    (truncateKeepTail text maxChars).length ≤ maxChars ∧
      ∃ cut kept, truncateKeepTail text maxChars = cut ++ kept ∧ (cut = [] ∨ cut = headEllipsis) ∧ kept <:+ text := by
  unfold truncateKeepTail
  split
  · exact ⟨Nat.zero_le _, [], [], rfl, .inl rfl, List.nil_suffix⟩
  · split
    · rename_i hle
      exact ⟨hle, [], text, rfl, .inl rfl, List.suffix_refl _⟩
    · split
      · refine ⟨?_, [], _, rfl, .inl rfl, List.drop_suffix _ _⟩
        rw [List.length_drop]
        omega
      · refine ⟨?_, headEllipsis, _, rfl, .inr rfl, List.drop_suffix _ _⟩
        rw [List.length_append, List.length_drop]
        omega

/-! ## Values and events -/

/-- A value inside an ACP content block: `None`, a string, a dict or model
with its fields, or anything else with its `str()`. -/
inductive PyValue where
  | none
  | str (s : Text)
  | block (fields : List (String × PyValue)) (repr : Text)
  | other (truthy : Bool) (repr : Text)

namespace PyValue

def truthy : PyValue → Bool
  | none => false
  | str s => ! s.isEmpty
  | block fields _ => ! fields.isEmpty
  | other truthy _ => truthy

/-- `str(value)`. -/
def toText : PyValue → Text
  | none => "None".toList
  | str s => s
  | block _ repr => repr
  | other _ repr => repr

end PyValue

/-- `_block_field`: the first of the names that is present. -/
def blockField (block : PyValue) (names : List String) : PyValue :=
  match block with
  | .block fields _ => (names.findSome? fun name => fields.lookup name).getD .none
  | _ => .none

/-- The fields of an `ACPToolCallEvent`. `rawInput` and `rawOutput` are the
`str()` of the payloads, `none` for `None`. -/
structure ACPToolCallEvent where
  toolCallId : ToolCallID
  title : Text
  status : Option Text := none
  toolKind : Option Text := none
  rawInput : Option Text := none
  rawOutput : Option Text := none
  content : Option (List PyValue) := none
  isError : Bool := false

/-- The action of an `ActionEvent` as its `message` property reads it. -/
inductive ActionMessage where
  | invalid
  | finish (message : Text)
  /-- An action that declares `message`; its value is `none` unless it is a string. -/
  | declared (message : Option Text)
  | undeclared

/-- The content of a message holds one text for each block: `content_to_str`. -/
inductive TranscriptEvent where
  | message (role : Role) (content : List Text) (extendedContent : List Text)
  | acpToolCall (e : ACPToolCallEvent)
  | action (a : ActionMessage)
  | other

/-! ## Rendering one event -/

/-- `sep.join(parts)`. -/
def join (sep : Text) (parts : List Text) : Text := List.intercalate sep parts

/-- `_render_message_event`. -/
def renderMessageEvent (role : Role) (content extendedContent : List Text) (maxChars : Nat) : Option Text :=
  let roleLabel := if role = .user then "[USER]".toList else "[ASSISTANT]".toList
  let parts := (content ++ extendedContent).filter (· ≠ [])
  let text := strip (join "\n".toList parts)
  if text = [] then none else some (roleLabel ++ ": ".toList ++ truncateKeepHead text maxChars)

/-- `ActionEvent.message`. -/
def ActionMessage.message : ActionMessage → Option Text
  | .invalid => none
  | .finish message => some message
  | .declared message => message.filter fun m => strip m ≠ []
  | .undeclared => none

/-- `_render_action_event`. -/
def renderActionEvent (a : ActionMessage) (maxChars : Nat) : Option Text :=
  match a.message with
  | some message =>
    if strip message = [] then none else some ("[AGENT]: ".toList ++ truncateKeepHead (strip message) maxChars)
  | none => none

theorem sizeOf_lookup_lt {fields : List (String × PyValue)} {name : String} {v : PyValue}
    (h : fields.lookup name = some v) : sizeOf v < sizeOf fields := by
  have hlt := List.sizeOf_lt_of_mem (mem_of_lookup h)
  have hpair : sizeOf v < sizeOf (name, v) := by
    rw [Prod.mk.sizeOf_spec]
    omega
  omega

/-- The `diff` variant. -/
def renderDiff (block : PyValue) : Text :=
  let path := blockField block ["path"]
  let path := if path.truthy then path.toText else []
  let kind := match blockField block ["old_text", "oldText"] with
    | .none => "write".toList
    | _ => "patch".toList
  let header := rstrip ("[diff ".toList ++ kind ++ "] ".toList ++ path)
  match blockField block ["new_text", "newText"] with
  | .str (c :: newText) => header ++ '\n' :: c :: newText
  | _ => header

/-- `_render_content_block`. -/
def renderContentBlock (block : PyValue) : Option Text :=
  match block with
  | .block fields repr =>
    let type := blockField (.block fields repr) ["type"]
    let named (word : String) : Bool :=
      match type with
      | .str t => t = word.toList
      | _ => false
    if named "diff" then some (renderDiff (.block fields repr))
    else if named "content" then
      match _hinner : fields.lookup "content" with
      | none => none
      | some .none => none
      | some inner => renderContentBlock inner
    else if named "terminal" then
      let tid := blockField (.block fields repr) ["terminal_id", "terminalId"]
      some (if tid.truthy then "[terminal ".toList ++ tid.toText ++ "]".toList else "[terminal]".toList)
    else if named "text" then
      match blockField (.block fields repr) ["text"] with
      | .str (c :: text) => some (c :: text)
      | _ => none
    else if named "image" then some "[Image]".toList
    else if named "audio" then some "[Audio]".toList
    else if type.truthy then some ("[".toList ++ type.toText ++ "]".toList)
    else none
  | _ => none
termination_by sizeOf block
decreasing_by
  have hlt := sizeOf_lookup_lt _hinner
  rw [PyValue.block.sizeOf_spec]
  omega

/-- `_render_content_list`. -/
def renderContentList (content : Option (List PyValue)) : List Text :=
  ((content.getD []).filterMap renderContentBlock).filter (· ≠ [])

/-- The indented lines of `text.splitlines() or [""]`. -/
def indented (text : Text) : List Text :=
  (match splitLines text with
    | [] => [[]]
    | lines => lines).map fun line => "    ".toList ++ line

/-- `a or b`. -/
def orElse (a : Option Text) (b : Text) : Text :=
  match a with
  | some (c :: t) => c :: t
  | _ => b

/-- `_render_tool_event`. A placeholder without any data is not rendered. -/
def renderToolEvent (e : ACPToolCallEvent) (maxChars : Nat) : Option Text :=
  if e.rawInput.isNone && e.rawOutput.isNone && ! e.isError && (e.content.getD []).isEmpty then none
  else
    let status := if e.isError then "failed".toList else orElse e.status "completed".toList
    let name := orElse (some e.title) (orElse e.toolKind "tool".toList)
    let first := "[TOOL USE: ".toList ++ name ++ "] (".toList ++ status ++ ")".toList
    let input := match e.rawInput with
      | some raw => "  input:".toList :: indented raw
      | none => []
    let contentLines := renderContentList e.content
    let content := if contentLines = [] then [] else "  content:".toList :: contentLines.flatMap indented
    let output := match e.rawOutput with
      | some raw => "  output:".toList :: indented raw
      | none => []
    some (truncateKeepHead (join "\n".toList (first :: (input ++ content ++ output))) maxChars)

/-! ## De-duplication -/

/-- The positions of each tool call id, in the order of the events. -/
def addPosition (d : List (String × List Nat)) (p : TranscriptEvent × Nat) : List (String × List Nat) :=
  match p.1 with
  | .acpToolCall e =>
    if e.toolCallId ≠ "" then dictSet d e.toolCallId ((d.lookup e.toolCallId).getD [] ++ [p.2]) else d
  | _ => d

def toolPositions (events : List TranscriptEvent) : List (String × List Nat) :=
  events.zipIdx.foldl addPosition []

def isMessage : TranscriptEvent → Bool
  | .message _ _ _ => true
  | _ => false

def msgIndices (events : List TranscriptEvent) : List Nat :=
  events.zipIdx.filterMap fun p => if isMessage p.1 then some p.2 else none

/-- The last position of each group of positions without a message between
neighbours; `prev` is the last of the group so far. -/
def groupEnds (msgs : List Nat) (prev : Nat) : List Nat → List Nat
  | [] => [prev]
  | idx :: rest =>
    if msgs.any fun m => prev < m && m < idx then prev :: groupEnds msgs idx rest else groupEnds msgs idx rest

/-- `_terminal_tool_indices`. -/
def terminalToolIndices (events : List TranscriptEvent) : List Nat :=
  (toolPositions events).flatMap fun p =>
    match p.2 with
    | [] => []
    | first :: rest => groupEnds (msgIndices events) first rest

/-! ## The transcript -/

/-- The keyword arguments with their defaults. -/
structure Options where
  maxChars : Nat := 60000
  maxMessageChars : Nat := 8000
  maxToolChars : Nat := 2000
  marker : Text := "<<RESUMED CONVERSATION>>".toList
  headerBody : Text :=
    ("The conversation history below is from a prior session whose live " ++
      "context was lost. Treat it as background and continue from where " ++
      "the previous session left off.").toList
  footer : Text := "--- End of prior session ---".toList

def sep : Text := "\n\n".toList

namespace Options

/-- What an event is rendered as, apart from de-duplication. -/
def renderEvent (o : Options) : TranscriptEvent → Option Text
  | .message role content extendedContent => renderMessageEvent role content extendedContent o.maxMessageChars
  | .acpToolCall e => renderToolEvent e o.maxToolChars
  | .action a => renderActionEvent a o.maxMessageChars
  | .other => none

/-- The loop over the events. -/
def blocks (o : Options) (events : List TranscriptEvent) : List Text :=
  let keepToolIndices := terminalToolIndices events
  (events.zipIdx.filterMap fun p =>
    match p.1 with
    | .acpToolCall e => if e.toolCallId ≠ "" && p.2 ∉ keepToolIndices then none else o.renderEvent p.1
    | e => o.renderEvent e).filter (· ≠ [])

def headerText (o : Options) : Text :=
  join sep (o.marker :: if o.headerBody = [] then [] else [o.headerBody])

/-- `render_resume_transcript`. -/
def renderResumeTranscript (o : Options) (events : List TranscriptEvent) : Option Text :=
  let blocks := o.blocks events
  if blocks = [] then none
  else
    let bodyText := join sep blocks
    let full := join sep [o.headerText, bodyText, o.footer]
    if full.length ≤ o.maxChars then some full
    else
      let overhead := o.headerText.length + sep.length + sep.length + o.footer.length
      if overhead + (headEllipsis.length + 1) ≤ o.maxChars then
        some (o.headerText ++ sep ++ truncateKeepTail bodyText (o.maxChars - overhead) ++ sep ++ o.footer)
      else if o.maxChars < o.marker.length then none
      else
        let markerPrefix := o.marker ++ ['\n']
        if o.maxChars < markerPrefix.length then some o.marker
        else
          some (markerPrefix ++ truncateKeepTail (full.drop markerPrefix.length) (o.maxChars - markerPrefix.length))

end Options

/-! ## The last event of each tool call -/

/-- The id of a tool call, if the event has one. -/
def callId? : TranscriptEvent → Option String
  | .acpToolCall e => if e.toolCallId ≠ "" then some e.toolCallId else none
  | _ => none

/-- A later event of the same tool call comes before the next message. -/
def Superseded (events : List TranscriptEvent) (i : Nat) : Prop :=
  ∃ id j, (events[i]?.bind callId? = some id ∧ events[j]?.bind callId? = some id) ∧ i < j ∧
    ∀ m, i < m → m < j → events[m]?.any isMessage = false

section Dedup
variable {events : List TranscriptEvent}

/-- The positions of a tool call id. -/
def positionsOf (l : List (TranscriptEvent × Nat)) (id : String) : List Nat :=
  l.filterMap fun p => if callId? p.1 = some id then some p.2 else none

theorem addPosition_eq (d : List (String × List Nat)) (p : TranscriptEvent × Nat) (id : String) :
    ((addPosition d p).lookup id).getD [] = (d.lookup id).getD [] ++ positionsOf [p] id := by
  obtain ⟨e, i⟩ := p
  unfold addPosition positionsOf
  cases e with
  | acpToolCall e =>
    by_cases hid : e.toolCallId = ""
    · simp [callId?, hid]
    · by_cases hsame : e.toolCallId = id
      · subst hsame
        simp [callId?, hid, lookup_dictSet]
      · have hne : ¬ id = e.toolCallId := fun h => hsame h.symm
        simp [callId?, hid, lookup_dictSet, hsame, hne]
  | _ => simp [callId?]

theorem nodup_addPosition {d : List (String × List Nat)} (p : TranscriptEvent × Nat)
    (h : (d.map Prod.fst).Nodup) : ((addPosition d p).map Prod.fst).Nodup := by
  unfold addPosition
  split
  · split
    · exact nodup_dictSet _ _ h
    · exact h
  · exact h

theorem foldl_addPosition (l : List (TranscriptEvent × Nat)) (d : List (String × List Nat))
    (h : (d.map Prod.fst).Nodup) :
    ((l.foldl addPosition d).map Prod.fst).Nodup ∧
      ∀ id, ((l.foldl addPosition d).lookup id).getD [] = (d.lookup id).getD [] ++ positionsOf l id := by
  induction l generalizing d with
  | nil => exact ⟨h, fun id => (List.append_nil _).symm⟩
  | cons p l ih =>
    obtain ⟨hnodup, hlookup⟩ := ih (addPosition d p) (nodup_addPosition p h)
    refine ⟨hnodup, fun id => ?_⟩
    rw [List.foldl_cons, hlookup, addPosition_eq, List.append_assoc]
    congr 1
    unfold positionsOf
    rw [← List.filterMap_append]
    rfl

theorem toolPositions_spec (events : List TranscriptEvent) {id : String} {positions : List Nat}
    (h : (id, positions) ∈ toolPositions events) : positions = positionsOf events.zipIdx id := by
  obtain ⟨hnodup, hlookup⟩ := foldl_addPosition events.zipIdx [] List.nodup_nil
  have hid := hlookup id
  rw [lookup_of_mem hnodup h] at hid
  exact hid

theorem mem_toolPositions (events : List TranscriptEvent) {id : String} (h : positionsOf events.zipIdx id ≠ []) :
    (id, positionsOf events.zipIdx id) ∈ toolPositions events := by
  obtain ⟨-, hlookup⟩ := foldl_addPosition events.zipIdx [] List.nodup_nil
  have hid := hlookup id
  rw [List.lookup_nil, Option.getD_none, List.nil_append] at hid
  cases hl : (events.zipIdx.foldl addPosition []).lookup id with
  | none =>
    rw [hl] at hid
    exact absurd hid.symm h
  | some positions =>
    rw [hl, Option.getD_some] at hid
    rw [← hid]
    exact mem_of_lookup hl

theorem mem_positionsOf {id : String} {i : Nat} :
    i ∈ positionsOf events.zipIdx id ↔ events[i]?.bind callId? = some id := by
  unfold positionsOf
  simp only [List.mem_filterMap, List.mem_zipIdx_iff_getElem?, Option.ite_none_right_eq_some, Option.some.injEq,
    Option.bind_eq_some_iff, Prod.exists]
  constructor
  · rintro ⟨e, j, he, hid, rfl⟩
    exact ⟨e, he, hid⟩
  · rintro ⟨e, he, hid⟩
    exact ⟨e, i, he, hid, rfl⟩

theorem sorted_positionsOf (id : String) : (positionsOf events.zipIdx id).Pairwise (· < ·) := by
  have hsorted : (events.zipIdx.map Prod.snd).Pairwise (· < ·) := by
    rw [List.zipIdx_map_snd]
    exact List.pairwise_lt_range'
  unfold positionsOf
  refine List.pairwise_filterMap.2 ((List.pairwise_map.1 hsorted).imp ?_)
  intro p q hlt i hi j hj
  simp only [Option.ite_none_right_eq_some, Option.some.injEq] at hi hj
  omega

theorem mem_msgIndices {m : Nat} : m ∈ msgIndices events ↔ events[m]?.any isMessage = true := by
  unfold msgIndices
  simp only [List.mem_filterMap, List.mem_zipIdx_iff_getElem?, Option.ite_none_right_eq_some, Option.some.injEq,
    Prod.exists, Option.any_eq_true]
  constructor
  · rintro ⟨e, j, he, hm, rfl⟩
    exact ⟨e, he, hm⟩
  · rintro ⟨e, he, hm⟩
    exact ⟨e, m, he, hm, rfl⟩

/-- Among ascending positions the ends are those with a message before every later one. -/
theorem mem_groupEnds {msgs : List Nat} {prev : Nat} {rest : List Nat} (h : (prev :: rest).Pairwise (· < ·)) (i : Nat) :
    i ∈ groupEnds msgs prev rest ↔
      i ∈ prev :: rest ∧ ∀ j ∈ prev :: rest, i < j → ∃ m ∈ msgs, i < m ∧ m < j := by
  induction rest generalizing prev with
  | nil =>
    unfold groupEnds
    constructor
    · intro hi
      refine ⟨hi, fun j hj hlt => ?_⟩
      rw [List.mem_singleton] at hi hj
      omega
    · exact fun hi => hi.1
  | cons idx rest ih =>
    obtain ⟨hprev, hrest⟩ := List.pairwise_cons.1 h
    have hlater : ∀ k ∈ idx :: rest, idx ≤ k := by
      intro k hk
      rcases List.mem_cons.1 hk with rfl | hk
      · exact Nat.le_refl _
      · exact Nat.le_of_lt ((List.pairwise_cons.1 hrest).1 k hk)
    have hidx : prev < idx := hprev idx List.mem_cons_self
    unfold groupEnds
    split
    · rename_i hany
      obtain ⟨m, hm, hbetween⟩ := List.any_eq_true.1 hany
      simp only [Bool.and_eq_true, decide_eq_true_eq] at hbetween
      rw [List.mem_cons, ih hrest]
      constructor
      · rintro (rfl | ⟨hi, hends⟩)
        · refine ⟨List.mem_cons_self, fun j hj hlt => ⟨m, hm, hbetween.1, ?_⟩⟩
          rcases List.mem_cons.1 hj with rfl | hj
          · omega
          · exact Nat.lt_of_lt_of_le hbetween.2 (hlater j hj)
        · refine ⟨List.mem_cons_of_mem _ hi, fun j hj hlt => ?_⟩
          rcases List.mem_cons.1 hj with rfl | hj
          · have := hlater i hi
            omega
          · exact hends j hj hlt
      · rintro ⟨hi, hends⟩
        rcases List.mem_cons.1 hi with rfl | hi
        · exact .inl rfl
        · exact .inr ⟨hi, fun j hj hlt => hends j (List.mem_cons_of_mem _ hj) hlt⟩
    · rename_i hnone
      rw [ih hrest]
      constructor
      · rintro ⟨hi, hends⟩
        refine ⟨List.mem_cons_of_mem _ hi, fun j hj hlt => ?_⟩
        rcases List.mem_cons.1 hj with rfl | hj
        · have := hlater i hi
          omega
        · exact hends j hj hlt
      · rintro ⟨hi, hends⟩
        rcases List.mem_cons.1 hi with rfl | hi
        · obtain ⟨m, hm, hlo, hhi⟩ := hends idx (List.mem_cons_of_mem _ List.mem_cons_self) hidx
          refine absurd (List.any_eq_true.2 ⟨m, hm, ?_⟩) hnone
          simp [hlo, hhi]
        · exact ⟨hi, fun j hj hlt => hends j (List.mem_cons_of_mem _ hj) hlt⟩

/-- The indices that are kept are those of calls that are not superseded. -/
theorem mem_terminalToolIndices {i : Nat} :
    i ∈ terminalToolIndices events ↔ (∃ id, events[i]?.bind callId? = some id) ∧ ¬ Superseded events i := by
  unfold terminalToolIndices
  rw [List.mem_flatMap]
  constructor
  · rintro ⟨⟨id, positions⟩, hp, hi⟩
    have hpositions := toolPositions_spec events hp
    have hsorted : positions.Pairwise (· < ·) := hpositions ▸ sorted_positionsOf id
    cases positions with
    | nil => cases hi
    | cons first rest =>
      obtain ⟨hmem, hends⟩ := (mem_groupEnds hsorted i).1 hi
      have hid : events[i]?.bind callId? = some id := by
        rw [hpositions] at hmem
        exact mem_positionsOf.1 hmem
      refine ⟨⟨id, hid⟩, ?_⟩
      rintro ⟨id', j, ⟨hid', hj⟩, hlt, hnone⟩
      rw [hid, Option.some.injEq] at hid'
      subst hid'
      have hjmem : j ∈ first :: rest := by
        rw [hpositions]
        exact mem_positionsOf.2 hj
      obtain ⟨m, hm, hlo, hhi⟩ := hends j hjmem hlt
      exact absurd (mem_msgIndices.1 hm) (by rw [hnone m hlo hhi]; decide)
  · rintro ⟨⟨id, hid⟩, hlast⟩
    have hmem : i ∈ positionsOf events.zipIdx id := mem_positionsOf.2 hid
    refine ⟨_, mem_toolPositions events (List.ne_nil_of_mem hmem), ?_⟩
    have hsorted : (positionsOf events.zipIdx id).Pairwise (· < ·) := sorted_positionsOf id
    dsimp only
    cases hpositions : positionsOf events.zipIdx id with
    | nil =>
      rw [hpositions] at hmem
      cases hmem
    | cons first rest =>
      rw [hpositions] at hmem hsorted
      refine (mem_groupEnds hsorted i).2 ⟨hmem, fun j hj hlt => ?_⟩
      refine Classical.byContradiction fun hnone => hlast ⟨id, j, ⟨hid, ?_⟩, hlt, fun m hlo hhi => ?_⟩
      · rw [← hpositions] at hj
        exact mem_positionsOf.1 hj
      · rw [← Bool.not_eq_true]
        exact fun hm => hnone ⟨m, mem_msgIndices.2 hm, hlo, hhi⟩

theorem superseded_iff {i : Nat} :
    Superseded events i ↔ (events[i]?.bind callId?).isSome = true ∧ i ∉ terminalToolIndices events := by
  rw [mem_terminalToolIndices, Option.isSome_iff_exists]
  constructor
  · intro hlater
    have hcall : ∃ id, events[i]?.bind callId? = some id := by
      obtain ⟨id, -, ⟨hid, -⟩, -⟩ := hlater
      exact ⟨id, hid⟩
    exact ⟨hcall, fun h => h.2 hlater⟩
  · rintro ⟨hid, hout⟩
    exact Classical.byContradiction fun hlast => hout ⟨hid, hlast⟩

instance decidableSuperseded (events : List TranscriptEvent) (i : Nat) : Decidable (Superseded events i) :=
  decidable_of_iff _ superseded_iff.symm

end Dedup

/-- The entries of a transcript: what the events are rendered as, in their
order, without calls that a later event of the same call supersedes. -/
def Options.entries (o : Options) (events : List TranscriptEvent) : List Text :=
  (events.zipIdx.filterMap fun p => if Superseded events p.2 then none else o.renderEvent p.1).filter (· ≠ [])

theorem blocks_eq (o : Options) (events : List TranscriptEvent) : o.blocks events = o.entries events := by
  unfold Options.blocks Options.entries
  refine congrArg (List.filter _) (List.filterMap_congr ?_)
  rintro ⟨e, i⟩ hp
  have he : events[i]? = some e := List.mem_zipIdx_iff_getElem?.1 hp
  have hsuperseded : Superseded events i ↔ (callId? e).isSome = true ∧ i ∉ terminalToolIndices events := by
    rw [superseded_iff, he, Option.bind_some]
  simp only [hsuperseded]
  cases e with
  | acpToolCall e => by_cases hid : e.toolCallId = "" <;> simp [callId?, hid]
  | _ => simp [callId?]

/-! ## Tails of joined texts -/

/-- The text shows the newest of the parts: some of the last ones whole, and
before them at most the tail of one more. -/
def ShowsNewestOf (sep : Text) (parts : List Text) (t : Text) : Prop :=
  ∃ older newer cut, parts = older ++ newer ∧ t = cut ++ join sep newer ∧
    (cut = [] ∨ ∃ before part, older = before ++ [part] ∧ cut <:+ part ++ if newer = [] then [] else sep)

section Join
variable {sep : Text}

theorem join_cons {part : Text} {parts : List Text} (h : parts ≠ []) :
    join sep (part :: parts) = part ++ sep ++ join sep parts := by
  cases parts with
  | nil => exact absurd rfl h
  | cons b parts => simp [join, List.intercalate]

/-- A suffix of a concatenation is one of the second part, or has all of it. -/
theorem suffix_append_cases {α : Type _} {t l m : List α} (h : t <:+ l ++ m) :
    t <:+ m ∨ ∃ c, c <:+ l ∧ t = c ++ m := by
  obtain ⟨s, hs⟩ := h
  rcases List.append_eq_append_iff.1 hs with ⟨c, rfl, rfl⟩ | ⟨c, rfl, rfl⟩
  · exact .inr ⟨c, List.suffix_append _ _, rfl⟩
  · exact .inl (List.suffix_append _ _)

theorem showsNewestOf_nil (parts : List Text) : ShowsNewestOf sep parts [] :=
  ⟨parts, [], [], (List.append_nil _).symm, rfl, .inl rfl⟩

theorem showsNewestOf_all (parts : List Text) : ShowsNewestOf sep parts (join sep parts) :=
  ⟨[], parts, [], rfl, rfl, .inl rfl⟩

theorem showsNewestOf_of_suffix {parts : List Text} {t : Text} (h : t <:+ join sep parts) :
    ShowsNewestOf sep parts t := by
  induction parts generalizing t with
  | nil =>
    have ht : t = [] := List.suffix_nil.1 h
    exact ht ▸ showsNewestOf_nil []
  | cons part parts ih =>
    by_cases hparts : parts = []
    · subst hparts
      have hpart : join sep [part] = part := by simp [join, List.intercalate]
      rw [hpart] at h
      refine ⟨[part], [], t, rfl, (List.append_nil _).symm, .inr ⟨[], part, rfl, ?_⟩⟩
      rw [if_pos rfl, List.append_nil]
      exact h
    · rw [join_cons hparts] at h
      rcases suffix_append_cases h with h | ⟨c, hc, rfl⟩
      · obtain ⟨older, newer, cut, rfl, ht, hcut⟩ := ih h
        refine ⟨part :: older, newer, cut, rfl, ht, hcut.imp_right ?_⟩
        rintro ⟨before, b, rfl, hb⟩
        exact ⟨part :: before, b, rfl, hb⟩
      · refine ⟨[part], parts, c, rfl, rfl, .inr ⟨[], part, rfl, ?_⟩⟩
        rw [if_neg hparts]
        exact hc

end Join

/-! ## The transcript within its budget -/

/-- What stands before the entries: the marker with all or the rest of the
header, and where something was cut the ellipsis. -/
def Leads (o : Options) (lead : Text) : Prop :=
  lead = o.marker ∨ (∃ cut, (cut = [] ∨ cut = headEllipsis) ∧ lead = o.headerText ++ sep ++ cut) ∨
    ∃ cut rest, (cut = [] ∨ cut = headEllipsis) ∧ rest <:+ o.headerText ++ sep ∧ lead = o.marker ++ ['\n'] ++ cut ++ rest

/-- The transcript is made of its lead, the newest entries and the footer;
only when it shows no entry the footer can be cut. -/
def ShowsNewest (o : Options) (entries : List Text) (out : Text) : Prop :=
  ∃ lead t foot, out = lead ++ t ++ foot ∧ Leads o lead ∧ ShowsNewestOf sep entries t ∧ foot <:+ sep ++ o.footer ∧
    (foot = sep ++ o.footer ∨ t = [])

section Budget
variable (o : Options)

theorem marker_starts_header : o.marker <+: o.headerText := by
  unfold Options.headerText
  by_cases h : o.headerBody = []
  · simp [h, join, List.intercalate]
  · rw [if_neg h, join_cons (by simp), List.append_assoc]
    exact List.prefix_append _ _

/-- The header and the separator go on behind the marker and a newline. -/
theorem headerText_sep : ∃ rest, o.headerText ++ sep = o.marker ++ ['\n'] ++ rest := by
  unfold Options.headerText
  by_cases h : o.headerBody = []
  · exact ⟨['\n'], by simp [h, join, List.intercalate, sep]⟩
  · refine ⟨['\n'] ++ join sep [o.headerBody] ++ sep, ?_⟩
    rw [if_neg h, join_cons (by simp)]
    simp [sep]

theorem full_eq (bodyText : Text) :
    join sep [o.headerText, bodyText, o.footer] = o.headerText ++ sep ++ bodyText ++ (sep ++ o.footer) := by
  simp [join, List.intercalate]

theorem Leads.marker_starts {lead : Text} (h : Leads o lead) : o.marker <+: lead := by
  rcases h with rfl | ⟨cut, -, rfl⟩ | ⟨cut, rest, -, -, rfl⟩
  · exact List.prefix_refl _
  · rw [List.append_assoc]
    exact (marker_starts_header o).trans (List.prefix_append _ _)
  · rw [List.append_assoc, List.append_assoc]
    exact List.prefix_append _ _

theorem ShowsNewest.marker_starts {entries : List Text} {out : Text} (h : ShowsNewest o entries out) :
    o.marker <+: out := by
  obtain ⟨lead, t, foot, rfl, hlead, -⟩ := h
  rw [List.append_assoc]
  exact hlead.marker_starts.trans (List.prefix_append _ _)

end Budget

section Shapes
variable {o : Options} {entries : List Text}

theorem showsNewest_full :
    ShowsNewest o entries (join sep [o.headerText, join sep entries, o.footer]) :=
  ⟨o.headerText ++ sep, _, _, full_eq o _, .inr (.inl ⟨[], .inl rfl, (List.append_nil _).symm⟩),
    showsNewestOf_all _, List.suffix_refl _, .inl rfl⟩

theorem showsNewest_body (budget : Nat) :
    ShowsNewest o entries
      (o.headerText ++ sep ++ truncateKeepTail (join sep entries) budget ++ sep ++ o.footer) := by
  obtain ⟨-, cut, kept, hkept, hcut, hsuffix⟩ := truncateKeepTail_spec (join sep entries) budget
  refine ⟨o.headerText ++ sep ++ cut, kept, sep ++ o.footer, ?_, .inr (.inl ⟨cut, hcut, rfl⟩),
    showsNewestOf_of_suffix hsuffix, List.suffix_refl _, .inl rfl⟩
  rw [hkept]
  simp only [List.append_assoc]

theorem showsNewest_marker : ShowsNewest o entries o.marker :=
  ⟨o.marker, [], [], by simp, .inl rfl, showsNewestOf_nil _, List.nil_suffix, .inr rfl⟩

/-- The tail of everything behind the marker. -/
theorem showsNewest_tail (budget : Nat) :
    let markerPrefix := o.marker ++ ['\n']
    let full := join sep [o.headerText, join sep entries, o.footer]
    ShowsNewest o entries (markerPrefix ++ truncateKeepTail (full.drop markerPrefix.length) budget) := by
  intro markerPrefix full
  obtain ⟨rest, hrest⟩ := headerText_sep o
  have hfull : full.drop markerPrefix.length = rest ++ join sep entries ++ (sep ++ o.footer) := by
    show (join sep [o.headerText, join sep entries, o.footer]).drop _ = _
    rw [full_eq, hrest, List.append_assoc, List.append_assoc, List.drop_left' rfl, List.append_assoc]
  have hheader : rest <:+ o.headerText ++ sep := ⟨_, hrest.symm⟩
  obtain ⟨-, cut, kept, hkept, hcut, hsuffix⟩ := truncateKeepTail_spec (full.drop markerPrefix.length) budget
  rw [hkept]
  rw [hfull] at hsuffix
  -- the tail starts in the footer, among the entries or in the header
  rcases suffix_append_cases hsuffix with hfoot | ⟨shown, hshown, rfl⟩
  · refine ⟨markerPrefix ++ cut, [], kept, ?_, .inr (.inr ⟨cut, [], hcut, List.nil_suffix, ?_⟩), showsNewestOf_nil _,
      hfoot, .inr rfl⟩
    · simp only [List.append_nil, List.append_assoc, markerPrefix]
    · rw [List.append_nil]
  · rcases suffix_append_cases hshown with hentries | ⟨head, hhead, rfl⟩
    · refine ⟨markerPrefix ++ cut, shown, sep ++ o.footer, ?_, .inr (.inr ⟨cut, [], hcut, List.nil_suffix, ?_⟩),
        showsNewestOf_of_suffix hentries, List.suffix_refl _, .inl rfl⟩
      · simp only [List.append_assoc]
      · rw [List.append_nil]
    · refine ⟨markerPrefix ++ cut ++ head, join sep entries, sep ++ o.footer, ?_,
        .inr (.inr ⟨cut, head, hcut, hhead.trans hheader, rfl⟩), showsNewestOf_all _, List.suffix_refl _, .inl rfl⟩
      simp only [List.append_assoc]

end Shapes

/-- What `render_resume_transcript` promises of its result. -/
def Within (o : Options) (entries : List Text) : Option Text → Prop
  | none => entries = [] ∨ o.maxChars < o.marker.length
  | some out => out.length ≤ o.maxChars ∧ o.marker <+: out ∧ ShowsNewest o entries out

theorem within_transcript (o : Options) (events : List TranscriptEvent) :
    Within o (o.entries events) (o.renderResumeTranscript events) := by
  unfold Options.renderResumeTranscript
  rw [blocks_eq]
  dsimp only
  by_cases hnone : o.entries events = []
  · rw [if_pos hnone]
    exact .inl hnone
  rw [if_neg hnone]
  by_cases hfits : (join sep [o.headerText, join sep (o.entries events), o.footer]).length ≤ o.maxChars
  · rw [if_pos hfits]
    exact ⟨hfits, showsNewest_full.marker_starts, showsNewest_full⟩
  rw [if_neg hfits]
  by_cases hbody : o.headerText.length + sep.length + sep.length + o.footer.length + (headEllipsis.length + 1) ≤
      o.maxChars
  · rw [if_pos hbody]
    refine ⟨?_, (showsNewest_body _).marker_starts, showsNewest_body _⟩
    have hle := (truncateKeepTail_spec (join sep (o.entries events))
      (o.maxChars - (o.headerText.length + sep.length + sep.length + o.footer.length))).1
    simp only [List.length_append]
    omega
  rw [if_neg hbody]
  by_cases hmarker : o.maxChars < o.marker.length
  · rw [if_pos hmarker]
    exact .inr hmarker
  rw [if_neg hmarker]
  by_cases hnewline : o.maxChars < (o.marker ++ ['\n']).length
  · rw [if_pos hnewline]
    exact ⟨Nat.le_of_not_lt hmarker, List.prefix_refl _, showsNewest_marker⟩
  · rw [if_neg hnewline]
    refine ⟨?_, (showsNewest_tail _).marker_starts, showsNewest_tail _⟩
    have hle := (truncateKeepTail_spec
      ((join sep [o.headerText, join sep (o.entries events), o.footer]).drop (o.marker ++ ['\n']).length)
      (o.maxChars - (o.marker ++ ['\n']).length)).1
    rw [List.length_append]
    omega

/-- The transcript is no longer than `maxChars`, starts with the marker and
shows the newest entries in their order. Of the events of one tool call the
last before the next message is kept, and no other. -/
theorem transcript_within_budget (o : Options) (events : List TranscriptEvent) :
    Within o (o.entries events) (o.renderResumeTranscript events) ∧
      ∀ i, i ∈ terminalToolIndices events ↔
        (∃ id, events[i]?.bind callId? = some id) ∧ ¬ Superseded events i :=
  ⟨within_transcript o events, fun _ => mem_terminalToolIndices⟩

/-- The second event of a call replaces the first one, but not across a message. -/
example :
    let started : TranscriptEvent := .acpToolCall { toolCallId := "exec_1", title := "ls".toList }
    let user : TranscriptEvent := .message .user ["Go on.".toList] []
    terminalToolIndices [started, started, user, started] = [1, 3] := by decide

end AgentSdk.ResumeTranscript
