import AgentSdk.EventLog
import AgentSdk.FunctionCalls
import Mathlib.Data.List.DropRight
/-!
# Stuck detection

`StuckDetector.is_stuck` looks at a window of recent events of the active
branch. `isStuckOnAll` evaluates the same rules on all events since the last
user message; the two agree exactly when what a rule counts lies in its window.
-/

namespace AgentSdk
open Lib

/-- `path_to_root` with a limit. -/
def EventLog.pathToRootLimit (log : EventLog) (leaf : Option EventID) (limit : Nat) :
    Except ValueError (List Event) :=
  match walkAtMost log.next limit [] leaf with
  | some chain => .ok chain.reverse
  | none => .error .cycle

theorem EventLog.Branch.pathToRootLimit {log : EventLog} {leaf : Option EventID} {l : List Event}
    (h : log.Branch leaf l) (limit : Nat) : log.pathToRootLimit leaf limit = .ok (l.rtake limit) := by
  rw [EventLog.pathToRootLimit, walkAtMost_of_trail EventLog.next_key h limit [] (by simp),
    List.rtake_eq_reverse_take_reverse]

namespace StuckDetector

/-! ## Events and configuration -/

inductive LocItem where
  | key (name : String)
  | index (i : Int)
deriving DecidableEq

structure ToolValidationError where
  type : String
  loc : List LocItem
deriving DecidableEq

/-- An event with what the detector reads besides its body. -/
structure BranchEvent extends Event where
  source : SourceType
  /-- Of an `AgentErrorEvent`; the detector takes `None` and `[]` alike. -/
  validationErrors : List ToolValidationError := []
  messageSource : ∀ m, body = .message m → m.source = source := by simp
deriving DecidableEq

namespace BranchEvent

def isAction (e : BranchEvent) : Bool := e.action?.isSome

def isObservationBase (e : BranchEvent) : Bool := e.observation?.isSome

def isAgentError (e : BranchEvent) : Bool :=
  match e.body with
  | .observation o =>
    match o.kind with
    | .agentError _ => true
    | _ => false
  | _ => false

/-- `isinstance(e, (ObservationEvent, AgentErrorEvent))`. -/
def isObservationOrError (e : BranchEvent) : Bool :=
  match e.body with
  | .observation o =>
    match o.kind with
    | .userReject _ _ _ => false
    | _ => true
  | _ => false

def isAgentMessage (e : BranchEvent) : Bool :=
  match e.body with
  | .message m => m.source = .agent
  | _ => false

end BranchEvent

/-- `StuckDetectionThresholds`: every field is at least 1. -/
structure StuckDetectionThresholds where
  actionObservation : Nat := 4
  actionError : Nat := 3
  monologue : Nat := 3
  alternatingPattern : Nat := 6
  positive : 1 ≤ actionObservation ∧ 1 ≤ actionError ∧ 1 ≤ monologue ∧ 1 ≤ alternatingPattern := by decide

/-- A branch of a log, with its events. -/
structure Branch where
  log : EventLog
  leaf : Option EventID
  events : List BranchEvent
  isBranch : log.Branch leaf (events.map BranchEvent.toEvent)

/-- `MAX_EVENTS_TO_SCAN_FOR_STUCK_DETECTION`. -/
def maxEventsToScan : Nat := 20

/-- The detector. `hasSummaryParam` tells whether the agent's tool of a name
declares `summary` itself. -/
structure Detector (F : Type) [PyFloat F] where
  thresholds : StuckDetectionThresholds := {}
  hasSummaryParam : String → Bool

/-! ## The window -/

/-- `state.active_branch(limit)`. -/
def Branch.activeBranch (b : Branch) (limit : Nat) : List BranchEvent := b.events.rtake limit

/-- What comes after the last user message, or everything. -/
def sinceLastUserMessage (events : List BranchEvent) : List BranchEvent :=
  events.rtakeWhile fun e => ! e.isUserMessage

/-- `_events_since_last_user_message`. -/
def Branch.eventsSinceLastUserMessage (b : Branch) (limit : Nat) : List BranchEvent :=
  sinceLastUserMessage (b.activeBranch limit)

theorem Branch.activeBranch_eq (b : Branch) (limit : Nat) :
    b.log.pathToRootLimit b.leaf limit = .ok ((b.activeBranch limit).map BranchEvent.toEvent) := by
  rw [b.isBranch.pathToRootLimit]
  unfold Branch.activeBranch List.rtake
  rw [List.map_drop, List.length_map]

/-! ## Comparing events -/

section Compare
variable {F : Type} [PyFloat F]

/-- `_validated_arguments`: the JSON value, or the raw text. -/
def Detector.validatedArguments (d : Detector F) (a : ActionEvent) : Json F :=
  match (loads a.toolCall.arguments.toList : Option (Json F)) with
  | none => .str a.toolCall.arguments.toList
  | some (.obj kvs) =>
    let kvs := kvs.filter fun kv => kv.1 ≠ "security_risk".toList
    .obj (if d.hasSummaryParam a.toolName then kvs else kvs.filter fun kv => kv.1 ≠ "summary".toList)
  | some v => v

/-- `_event_eq`. -/
def Detector.eventEq (d : Detector F) (e f : BranchEvent) : Bool :=
  match e.body, f.body with
  | .action a, .action b =>
    if a.action.isNone && b.action.isNone then
      e.source = f.source && a.toolName = b.toolName && pyEq (d.validatedArguments a) (d.validatedArguments b)
    else e.source = f.source && a.thought = b.thought && a.action = b.action && a.toolName = b.toolName
  | .observation o, .observation p =>
    match o.kind, p.kind with
    | .observation content _ _, .observation content' _ _ =>
      e.source = f.source && content = content' && o.toolName = p.toolName
    | .agentError error, .agentError error' => e.source = f.source && error = error'
    | _, _ => e = f
  | .message m, .message n => e.source = f.source && m.llmMessage = n.llmMessage
  | _, _ => e = f

/-- `0 if isinstance(p, int) else p`. -/
def LocItem.withoutIndex : LocItem → LocItem
  | .index _ => .index 0
  | .key name => .key name

/-- `_same_error_action`. -/
def Detector.sameErrorAction (d : Detector F) (reference action referenceError error : BranchEvent) : Bool :=
  match reference.action?, action.action? with
  | some r, some a =>
    if r.toolName ≠ a.toolName then false
    else
      let left := referenceError.validationErrors
      let right := error.validationErrors
      let locations (errors : List ToolValidationError) :=
        errors.map fun e => (e.type, e.loc.map LocItem.withoutIndex)
      if r.action.isNone && a.action.isNone && ! left.isEmpty && ! right.isEmpty &&
          ! (left ++ right).any fun e => e.type = "value_error" || e.type = "assertion_error" then
        (locations left).isPerm (locations right)
      else d.eventEq reference action
  | _, _ => false

end Compare

/-- `_invalid_calls_share_response`. -/
def invalidCallsShareResponse (actions : List BranchEvent) : Bool :=
  let responseIds := (actions.filterMap (·.action?)).filterMap fun a =>
    if a.action.isNone then some a.llmResponseId else none
  ! decide responseIds.Nodup

/-! ## The rules -/

/-- The loop that collects actions and observations, the most recent first. -/
def collect (isObservation : BranchEvent → Bool) (maxNeeded : Nat) :
    List BranchEvent → List BranchEvent → List BranchEvent → List BranchEvent × List BranchEvent
  | [], actions, observations => (actions, observations)
  | e :: rest, actions, observations =>
    let (actions, observations) :=
      if e.isAction && actions.length < maxNeeded then (actions ++ [e], observations)
      else if isObservation e && observations.length < maxNeeded then (actions, observations ++ [e])
      else (actions, observations)
    if maxNeeded ≤ actions.length && maxNeeded ≤ observations.length then (actions, observations)
    else collect isObservation maxNeeded rest actions observations

/-- `_collect_actions_and_observations`. -/
def collectActionsAndObservations (events : List BranchEvent) (maxNeeded : Nat) :
    List BranchEvent × List BranchEvent :=
  collect BranchEvent.isObservationBase maxNeeded events.reverse [] []

/-- The first element that satisfies `p`, and the others. -/
def popFirst {α : Type _} (p : α → Bool) : List α → Option (α × List α)
  | [] => none
  | x :: xs => if p x then some (x, xs) else (popFirst p xs).map fun r => (r.1, x :: r.2)

/-- `max(Counter(...).values(), default=1)` over the response ids of the actions. -/
def widestResponse (actions : List BranchEvent) : Nat :=
  let ids := (actions.filterMap (·.action?)).map ActionEvent.llmResponseId
  ((ids.map fun id => ids.count id).max?).getD 1

section Rules
variable {F : Type} [PyFloat F] (d : Detector F)

namespace Detector

/-- `all(event_eq(events[0], event) for event in events)`. -/
def allEqual : List BranchEvent → Bool
  | [] => true
  | e :: es => (e :: es).all (d.eventEq e)

/-- Scenario 1. -/
def isStuckRepeatingActionObservation (lastActions lastObservations : List BranchEvent) : Bool :=
  let threshold := d.thresholds.actionObservation
  if invalidCallsShareResponse (lastActions.take threshold) then false
  else if threshold ≤ lastActions.length && threshold ≤ lastObservations.length then
    d.allEqual (lastActions.take threshold) && d.allEqual (lastObservations.take threshold)
  else false

/-- The loop of `_action_error_streak`. -/
def streakLoop (reference : BranchEvent) : List BranchEvent → List BranchEvent → Option BranchEvent →
    Option EventID → Nat
  | [], _, _, _ => 0
  | action :: actions, remaining, referenceError, countedResponse =>
    match action.action? with
    | none => 0
    | some a =>
      match popFirst (fun o : BranchEvent => o.observes a.toolCallId) remaining with
      | none => 0
      | some (observation, remaining) =>
        if ! observation.isAgentError then 0
        else
          let error := referenceError.getD observation
          if ! d.sameErrorAction reference action error observation then 0
          else
            (if some a.llmResponseId = countedResponse then 0 else 1) +
              streakLoop reference actions remaining (some error) (some a.llmResponseId)

/-- `_action_error_streak`. -/
def actionErrorStreak (lastActions lastObservations : List BranchEvent) : Nat :=
  match lastActions with
  | [] => 0
  | reference :: _ =>
    if lastObservations.isEmpty then 0 else d.streakLoop reference lastActions lastObservations none none

/-- Scenario 2. -/
def isStuckRepeatingActionError (lastActions lastObservations : List BranchEvent) : Bool :=
  d.thresholds.actionError < d.actionErrorStreak lastActions lastObservations

/-- Agent messages up to the first event that ends a monologue, newest first. -/
def agentMessageCount : List BranchEvent → Nat
  | [] => 0
  | e :: rest =>
    match e.body with
    | .message m => if m.source = .agent then agentMessageCount rest + 1 else
        if m.source = .user then 0 else agentMessageCount rest
    | .condensationSummary _ => agentMessageCount rest
    | _ => 0

/-- Scenario 3. -/
def isStuckMonologue (events : List BranchEvent) : Bool :=
  let threshold := d.thresholds.monologue
  if events.length < threshold then false else threshold ≤ agentMessageCount events.reverse

/-- `event_eq(events[i], events[i + 2]) for i in range(threshold - 2)`. -/
def alternates (threshold : Nat) (events : List BranchEvent) : Bool :=
  (List.range (threshold - 2)).all fun i =>
    match events[i]?, events[i + 2]? with
    | some e, some f => d.eventEq e f
    | _, _ => false

/-- Scenario 4. -/
def isStuckAlternatingActionObservation (events : List BranchEvent) : Bool :=
  let threshold := d.thresholds.alternatingPattern
  let (lastActions, lastObservations) :=
    collect BranchEvent.isObservationOrError threshold events.reverse [] []
  if invalidCallsShareResponse lastActions then false
  else if lastActions.length = threshold && lastObservations.length = threshold then
    d.alternates threshold lastActions && d.alternates threshold lastObservations
  else false

/-- Scenario 5, which the source leaves open. -/
def isStuckContextWindowError (_events : List BranchEvent) : Bool := false

/-- The limit a window needs so that it covers a full streak. -/
def needed (events : List BranchEvent) : Nat :=
  let (lastActions, _) := collectActionsAndObservations events events.length
  maxEventsToScan + 2 * (widestResponse lastActions - 1) * (d.thresholds.actionError + 1)

end Detector
end Rules

/-! ## What the loops collect -/

/-- One list of the loop after an event. -/
def add (p : BranchEvent → Bool) (n : Nat) (xs : List BranchEvent) (e : BranchEvent) : List BranchEvent :=
  if p e && xs.length < n then xs ++ [e] else xs

section Collect
variable {p : BranchEvent → Bool} {n : Nat} {xs : List BranchEvent}

theorem length_add_le (e : BranchEvent) (h : xs.length ≤ n) : (add p n xs e).length ≤ n := by
  unfold add
  split
  · rename_i hadd
    rw [Bool.and_eq_true, decide_eq_true_eq] at hadd
    rw [List.length_append, List.length_singleton]
    exact hadd.2
  · exact h

theorem add_take (e : BranchEvent) (rest : List BranchEvent) :
    xs ++ ((e :: rest).filter p).take (n - xs.length) =
      add p n xs e ++ (rest.filter p).take (n - (add p n xs e).length) := by
  unfold add
  by_cases hp : p e = true
  · by_cases hlt : xs.length < n
    · have hone : n - xs.length = (n - (xs ++ [e]).length) + 1 := by
        rw [List.length_append, List.length_singleton]
        omega
      rw [if_pos (by simp [hp, hlt]), List.filter_cons_of_pos hp, hone, List.take_succ_cons, List.append_assoc]
      rfl
    · have hzero : n - xs.length = 0 := Nat.sub_eq_zero_of_le (Nat.le_of_not_lt hlt)
      rw [if_neg (by simp [hlt]), hzero, List.take_zero, List.take_zero]
  · rw [if_neg (by simp [hp]), List.filter_cons_of_neg hp]

/-- The loop takes up to `n` of the newest events of each kind. -/
theorem collect_eq {isObservation : BranchEvent → Bool}
    (hdisjoint : ∀ e, e.isAction = true → isObservation e = false) (n : Nat)
    (events actions observations : List BranchEvent) (ha : actions.length ≤ n) (ho : observations.length ≤ n) :
    collect isObservation n events actions observations =
      (actions ++ (events.filter BranchEvent.isAction).take (n - actions.length),
        observations ++ (events.filter isObservation).take (n - observations.length)) := by
  induction events generalizing actions observations with
  | nil => simp [collect]
  | cons e rest ih =>
    have hpair : (if e.isAction && actions.length < n then (actions ++ [e], observations)
        else if isObservation e && observations.length < n then (actions, observations ++ [e])
        else (actions, observations)) =
        (add BranchEvent.isAction n actions e, add isObservation n observations e) := by
      unfold add
      by_cases hact : e.isAction = true
      · simp only [hact, hdisjoint e hact, Bool.true_and, Bool.false_and, Bool.false_eq_true, if_false,
          decide_eq_true_eq]
        split <;> rfl
      · simp only [hact, Bool.false_and, Bool.false_eq_true, if_false]
        split <;> rfl
    rw [add_take e rest, add_take e rest]
    unfold collect
    rw [hpair]
    dsimp only
    split
    · rename_i hfull
      simp only [Bool.and_eq_true, decide_eq_true_eq] at hfull
      rw [Nat.sub_eq_zero_of_le hfull.1, Nat.sub_eq_zero_of_le hfull.2, List.take_zero, List.take_zero,
        List.append_nil, List.append_nil]
    · exact ih _ _ (length_add_le e ha) (length_add_le e ho)

theorem isObservationBase_of_isAction (e : BranchEvent) (h : e.isAction = true) : e.isObservationBase = false := by
  unfold BranchEvent.isAction Event.action? at h
  unfold BranchEvent.isObservationBase Event.observation?
  cases hb : e.body <;> simp_all

theorem isObservationOrError_of_isAction (e : BranchEvent) (h : e.isAction = true) :
    e.isObservationOrError = false := by
  unfold BranchEvent.isAction Event.action? at h
  unfold BranchEvent.isObservationOrError
  cases hb : e.body <;> simp_all

theorem collectActionsAndObservations_eq (events : List BranchEvent) (n : Nat) :
    collectActionsAndObservations events n =
      ((events.reverse.filter BranchEvent.isAction).take n, (events.reverse.filter BranchEvent.isObservationBase).take n) := by
  unfold collectActionsAndObservations
  rw [collect_eq isObservationBase_of_isAction n _ _ _ (Nat.zero_le _) (Nat.zero_le _)]
  simp

end Collect

/-! ## The window of the action-error rule -/

theorem max_count_le (ids : List EventID) : ((ids.map fun id => ids.count id).max?).getD 1 ≤ ids.length + 1 := by
  cases hmax : (ids.map fun id => ids.count id).max? with
  | none => exact Nat.succ_le_succ (Nat.zero_le _)
  | some m =>
    obtain ⟨id, -, rfl⟩ := List.mem_map.1 (List.max?_mem hmax)
    exact Nat.le_succ_of_le List.count_le_length

theorem widestResponse_le (actions : List BranchEvent) : widestResponse actions ≤ actions.length + 1 := by
  have hmax := max_count_le ((actions.filterMap (·.action?)).map ActionEvent.llmResponseId)
  rw [List.length_map] at hmax
  have hle : (actions.filterMap (·.action?)).length ≤ actions.length := List.length_filterMap_le _ _
  exact Nat.le_trans hmax (Nat.succ_le_succ hle)

section Window
variable {F : Type} [PyFloat F] (d : Detector F)

namespace Detector

theorem needed_le (events : List BranchEvent) :
    d.needed events ≤ maxEventsToScan + 2 * events.length * (d.thresholds.actionError + 1) := by
  unfold needed
  rw [collectActionsAndObservations_eq]
  have hwide := widestResponse_le ((events.reverse.filter BranchEvent.isAction).take events.length)
  have hlen : ((events.reverse.filter BranchEvent.isAction).take events.length).length ≤ events.length :=
    List.length_take_le _ _
  have hle : widestResponse ((events.reverse.filter BranchEvent.isAction).take events.length) - 1 ≤ events.length := by
    omega
  exact Nat.add_le_add_left (Nat.mul_le_mul_right _ (Nat.mul_le_mul_left _ hle)) _

theorem length_eventsSinceLastUserMessage_le (b : Branch) (limit : Nat) :
    (b.eventsSinceLastUserMessage limit).length ≤ b.events.length := by
  have hsuffix : b.eventsSinceLastUserMessage limit <:+ b.events :=
    (List.rtakeWhile_suffix _ _).trans (List.drop_suffix _ _)
  exact hsuffix.length_le

/-- The loop of `_action_error_pairs`: the window grows until it covers what
its widest response needs. -/
def actionErrorEvents (b : Branch) (limit : Nat) : List BranchEvent :=
  if d.needed (b.eventsSinceLastUserMessage limit) ≤ limit then b.eventsSinceLastUserMessage limit
  else actionErrorEvents b (d.needed (b.eventsSinceLastUserMessage limit))
termination_by maxEventsToScan + 2 * b.events.length * (d.thresholds.actionError + 1) - limit
decreasing_by
  have hle := length_eventsSinceLastUserMessage_le b limit
  have hneeded := d.needed_le (b.eventsSinceLastUserMessage limit)
  have hbound : 2 * (b.eventsSinceLastUserMessage limit).length * (d.thresholds.actionError + 1) ≤
      2 * b.events.length * (d.thresholds.actionError + 1) :=
    Nat.mul_le_mul_right _ (Nat.mul_le_mul_left _ hle)
  omega

/-- `_action_error_pairs`. -/
def actionErrorPairs (b : Branch) : List BranchEvent × List BranchEvent :=
  let events := d.actionErrorEvents b maxEventsToScan
  collectActionsAndObservations events events.length

/-! ## The verdict -/

/-- `min_threshold`. -/
def minThreshold : Nat :=
  min d.thresholds.actionObservation (min d.thresholds.actionError d.thresholds.monologue)

/-- The checks of `is_stuck` on events, with the pairs for the action-error rule. -/
def stuckPatterns (events : List BranchEvent) (pairs : List BranchEvent × List BranchEvent) : Bool :=
  if events.length < d.minThreshold then false
  else
    let (lastActions, lastObservations) := collectActionsAndObservations events d.thresholds.actionObservation
    if d.isStuckRepeatingActionObservation lastActions lastObservations then true
    else if d.isStuckRepeatingActionError pairs.1 pairs.2 then true
    else if d.isStuckMonologue events then true
    else if d.thresholds.alternatingPattern ≤ events.length && d.isStuckAlternatingActionObservation events then true
    else if 10 ≤ events.length && isStuckContextWindowError events then true
    else false

/-- `is_stuck`. -/
def isStuck (b : Branch) : Bool :=
  d.stuckPatterns (b.eventsSinceLastUserMessage maxEventsToScan) (d.actionErrorPairs b)

/-- The same rules on all events since the last user message. -/
def isStuckOnAll (b : Branch) : Bool :=
  let events := sinceLastUserMessage b.events
  d.stuckPatterns events (collectActionsAndObservations events events.length)

end Detector
end Window

/-! ## Windows as the newest events -/

theorem Branch.eventsSinceLastUserMessage_eq (b : Branch) (limit : Nat) :
    b.eventsSinceLastUserMessage limit = (sinceLastUserMessage b.events).rtake limit := by
  unfold Branch.eventsSinceLastUserMessage Branch.activeBranch sinceLastUserMessage
  rw [List.rtake_eq_reverse_take_reverse, List.rtake_eq_reverse_take_reverse, List.rtakeWhile_reverse,
    List.rtakeWhile, List.reverse_reverse, List.take_takeWhile]

theorem reverse_rtake {α : Type _} (l : List α) (n : Nat) : (l.rtake n).reverse = l.reverse.take n := by
  rw [List.rtake_eq_reverse_take_reverse, List.reverse_reverse]

section ErrorWindow
variable {F : Type} [PyFloat F] (d : Detector F)

/-- The widened window is one of the newest events, too. -/
theorem Detector.actionErrorEvents_eq (b : Branch) (limit : Nat) :
    ∃ n, d.actionErrorEvents b limit = (sinceLastUserMessage b.events).rtake n := by
  induction limit using Detector.actionErrorEvents.induct d b with
  | case1 limit hle =>
    refine ⟨limit, ?_⟩
    rw [Detector.actionErrorEvents, if_pos hle, b.eventsSinceLastUserMessage_eq]
  | case2 limit hlt ih =>
    rw [Detector.actionErrorEvents, if_neg hlt]
    exact ih

end ErrorWindow

theorem Branch.nodup (b : Branch) : (sinceLastUserMessage b.events).Nodup := by
  have hids := Trail.nodup EventLog.next_key b.isBranch
  rw [List.map_map] at hids
  exact hids.of_map.sublist (List.rtakeWhile_suffix _ _).sublist

section Filters
variable {α : Type _} {p : α → Bool} {l : List α} {n k : Nat}

theorem length_filter_reverse (l : List α) : (l.reverse.filter p).length = l.countP p := by
  rw [← List.countP_eq_length_filter, List.countP_reverse]

/-- Where the window holds `n` of a kind, they are the newest `n` of all. -/
theorem take_filter_rtake (h : n ≤ (l.rtake k).countP p) :
    ((l.rtake k).reverse.filter p).take n = (l.reverse.filter p).take n := by
  rw [← length_filter_reverse] at h
  rw [reverse_rtake] at h ⊢
  have hprefix : (l.reverse.take k).filter p <+: l.reverse.filter p := (List.take_prefix _ _).filter _
  obtain ⟨rest, hrest⟩ := hprefix
  rw [← hrest, List.take_append_of_le_length h]

theorem countP_rtake_le (l : List α) (k : Nat) : (l.rtake k).countP p ≤ l.countP p :=
  (List.drop_sublist _ _).countP_le

end Filters

/-! ## Each rule in a window -/

section Repeating
variable {F : Type} [PyFloat F] (d : Detector F)

namespace Detector

/-- What the first rule asks of the events it collects. -/
def Repeats (actions observations : List BranchEvent) : Prop :=
  invalidCallsShareResponse actions = false ∧ d.allEqual actions = true ∧ d.allEqual observations = true

/-- Scenario 1 on the newest events. -/
def repeating (events : List BranchEvent) : Bool :=
  let c := collectActionsAndObservations events d.thresholds.actionObservation
  d.isStuckRepeatingActionObservation c.1 c.2

theorem repeating_iff (events : List BranchEvent) :
    d.repeating events = true ↔
      d.thresholds.actionObservation ≤ events.countP BranchEvent.isAction ∧
      d.thresholds.actionObservation ≤ events.countP BranchEvent.isObservationBase ∧
      d.Repeats ((events.reverse.filter BranchEvent.isAction).take d.thresholds.actionObservation)
        ((events.reverse.filter BranchEvent.isObservationBase).take d.thresholds.actionObservation) := by
  unfold repeating Repeats isStuckRepeatingActionObservation
  rw [← length_filter_reverse, ← length_filter_reverse, collectActionsAndObservations_eq]
  simp only [List.take_take, Nat.min_self, List.length_take]
  generalize events.reverse.filter BranchEvent.isAction = actions
  generalize events.reverse.filter BranchEvent.isObservationBase = observations
  split
  · rename_i hshare
    simp [hshare]
  · rename_i hshare
    split
    · rename_i hcounts
      simp only [Bool.and_eq_true, decide_eq_true_eq, Nat.le_min, Nat.le_refl, true_and] at hcounts
      simp [hshare, hcounts]
    · rename_i hcounts
      simp only [Bool.and_eq_true, decide_eq_true_eq, Nat.le_min, Nat.le_refl, true_and] at hcounts
      simp only [Bool.false_eq_true, false_iff]
      rintro ⟨ha, ho, -⟩
      exact hcounts ⟨ha, ho⟩

/-- A window shows the repetition when it holds enough actions and observations. -/
theorem repeating_window (events : List BranchEvent) (k : Nat) :
    d.repeating (events.rtake k) = true ↔ d.repeating events = true ∧
      d.thresholds.actionObservation ≤ (events.rtake k).countP BranchEvent.isAction ∧
      d.thresholds.actionObservation ≤ (events.rtake k).countP BranchEvent.isObservationBase := by
  rw [repeating_iff, repeating_iff]
  constructor
  · rintro ⟨ha, ho, hrep⟩
    rw [take_filter_rtake ha, take_filter_rtake ho] at hrep
    exact ⟨⟨Nat.le_trans ha (countP_rtake_le _ _), Nat.le_trans ho (countP_rtake_le _ _), hrep⟩, ha, ho⟩
  · rintro ⟨⟨-, -, hrep⟩, ha, ho⟩
    rw [← take_filter_rtake ha, ← take_filter_rtake ho] at hrep
    exact ⟨ha, ho, hrep⟩

/-- What the fourth rule asks of the events it collects. -/
def Alternates (actions observations : List BranchEvent) : Prop :=
  invalidCallsShareResponse actions = false ∧ d.alternates d.thresholds.alternatingPattern actions = true ∧
    d.alternates d.thresholds.alternatingPattern observations = true

/-- Scenario 4, with the check of the length before it. -/
def alternating (events : List BranchEvent) : Bool :=
  d.thresholds.alternatingPattern ≤ events.length && d.isStuckAlternatingActionObservation events

theorem alternating_iff (events : List BranchEvent) :
    d.alternating events = true ↔
      d.thresholds.alternatingPattern ≤ events.countP BranchEvent.isAction ∧
      d.thresholds.alternatingPattern ≤ events.countP BranchEvent.isObservationOrError ∧
      d.Alternates ((events.reverse.filter BranchEvent.isAction).take d.thresholds.alternatingPattern)
        ((events.reverse.filter BranchEvent.isObservationOrError).take d.thresholds.alternatingPattern) := by
  have hlen : (events.reverse.filter BranchEvent.isAction).length ≤ events.length := by
    rw [length_filter_reverse]
    exact List.countP_le_length
  unfold alternating Alternates isStuckAlternatingActionObservation
  dsimp only
  rw [← length_filter_reverse, ← length_filter_reverse,
    collect_eq isObservationOrError_of_isAction _ _ _ _ (Nat.zero_le _) (Nat.zero_le _)]
  simp only [List.nil_append, List.length_nil, Nat.sub_zero, List.length_take, Bool.and_eq_true, decide_eq_true_eq]
  generalize events.reverse.filter BranchEvent.isAction = actions at hlen ⊢
  generalize events.reverse.filter BranchEvent.isObservationOrError = observations
  split
  · rename_i hshare
    simp [hshare]
  · rename_i hshare
    split
    · rename_i hcounts
      have ha : d.thresholds.alternatingPattern ≤ actions.length := by omega
      have ho : d.thresholds.alternatingPattern ≤ observations.length := by omega
      simp [hshare, ha, ho, Nat.le_trans ha hlen]
    · rename_i hcounts
      simp only [Bool.false_eq_true, and_false, false_iff]
      rintro ⟨ha, ho, -⟩
      exact hcounts ⟨Nat.min_eq_left ha, Nat.min_eq_left ho⟩

theorem alternating_window (events : List BranchEvent) (k : Nat) :
    d.alternating (events.rtake k) = true ↔ d.alternating events = true ∧
      d.thresholds.alternatingPattern ≤ (events.rtake k).countP BranchEvent.isAction ∧
      d.thresholds.alternatingPattern ≤ (events.rtake k).countP BranchEvent.isObservationOrError := by
  rw [alternating_iff, alternating_iff]
  constructor
  · rintro ⟨ha, ho, halt⟩
    rw [take_filter_rtake ha, take_filter_rtake ho] at halt
    exact ⟨⟨Nat.le_trans ha (countP_rtake_le _ _), Nat.le_trans ho (countP_rtake_le _ _), halt⟩, ha, ho⟩
  · rintro ⟨⟨-, -, halt⟩, ha, ho⟩
    rw [← take_filter_rtake ha, ← take_filter_rtake ho] at halt
    exact ⟨ha, ho, halt⟩

/-! ### Monologue -/

theorem agentMessageCount_le (l : List BranchEvent) : agentMessageCount l ≤ l.countP BranchEvent.isAgentMessage := by
  induction l with
  | nil => exact Nat.le_refl _
  | cons e rest ih =>
    unfold agentMessageCount
    rw [List.countP_cons]
    unfold BranchEvent.isAgentMessage at ih ⊢
    split
    · rename_i m hm
      by_cases hagent : m.source = .agent
      · simp [hm, hagent, ih]
      · by_cases huser : m.source = .user
        · simp [huser]
        · simp only [hagent, huser, if_false]
          exact Nat.le_add_right_of_le ih
    · exact Nat.le_add_right_of_le ih
    · exact Nat.zero_le _

/-- In the newest `k` events a monologue is counted to its end, or every
event of the window belongs to it. -/
theorem agentMessageCount_take (l : List BranchEvent) (k : Nat) :
    agentMessageCount (l.take k) = agentMessageCount l ∨
      (agentMessageCount (l.take k) = (l.take k).countP BranchEvent.isAgentMessage ∧
        agentMessageCount (l.take k) ≤ agentMessageCount l) := by
  induction l generalizing k with
  | nil => simp
  | cons e rest ih =>
    cases k with
    | zero => exact .inr ⟨rfl, Nat.zero_le _⟩
    | succ k =>
      rw [List.take_succ_cons, List.countP_cons]
      unfold agentMessageCount
      have hrest := ih k
      cases hb : e.body with
      | message m =>
        by_cases hagent : m.source = .agent
        · simp only [hagent, if_true, BranchEvent.isAgentMessage, hb, decide_true]
          omega
        · by_cases huser : m.source = .user
          · simp [huser]
          · simp only [hagent, huser, if_false, BranchEvent.isAgentMessage, hb, decide_false, Bool.false_eq_true]
            exact hrest
      | condensationSummary _ =>
        simp only [BranchEvent.isAgentMessage, hb, Bool.false_eq_true, if_false]
        exact hrest
      | _ => exact .inl rfl

theorem isStuckMonologue_iff (events : List BranchEvent) :
    d.isStuckMonologue events = true ↔ d.thresholds.monologue ≤ agentMessageCount events.reverse := by
  have hle : agentMessageCount events.reverse ≤ events.length := by
    have hcount := Nat.le_trans (agentMessageCount_le events.reverse) List.countP_le_length
    rwa [List.length_reverse] at hcount
  unfold isStuckMonologue
  dsimp only
  split
  · rename_i hshort
    simp only [Bool.false_eq_true, false_iff]
    omega
  · exact decide_eq_true_iff

theorem isStuckMonologue_window (events : List BranchEvent) (k : Nat) :
    d.isStuckMonologue (events.rtake k) = true ↔ d.isStuckMonologue events = true ∧
      d.thresholds.monologue ≤ (events.rtake k).countP BranchEvent.isAgentMessage := by
  have hcount : (events.rtake k).countP BranchEvent.isAgentMessage =
      (events.reverse.take k).countP BranchEvent.isAgentMessage := by
    rw [← reverse_rtake, List.countP_reverse]
  rw [isStuckMonologue_iff, isStuckMonologue_iff, reverse_rtake, hcount]
  have hle := agentMessageCount_le (events.reverse.take k)
  rcases agentMessageCount_take events.reverse k with h | ⟨h, hlt⟩ <;> omega

/-! ### Action-error streak -/

/-- The failing calls of the streak with their errors, the newest first. -/
def streakPairs (reference : BranchEvent) : List BranchEvent → List BranchEvent → Option BranchEvent →
    List (BranchEvent × BranchEvent)
  | [], _, _ => []
  | action :: actions, remaining, referenceError =>
    match action.action? with
    | none => []
    | some a =>
      match popFirst (fun o : BranchEvent => o.observes a.toolCallId) remaining with
      | none => []
      | some (observation, remaining) =>
        if ! observation.isAgentError then []
        else
          let error := referenceError.getD observation
          if ! d.sameErrorAction reference action error observation then []
          else (action, observation) :: streakPairs reference actions remaining (some error)

/-- The streak of the collected actions and observations. -/
def streak (lastActions lastObservations : List BranchEvent) : List (BranchEvent × BranchEvent) :=
  match lastActions with
  | [] => []
  | reference :: _ => d.streakPairs reference lastActions lastObservations none

/-- The number of responses that made the calls; parallel calls are one. -/
def responses (counted : Option EventID) : List (BranchEvent × BranchEvent) → Nat
  | [] => 0
  | (action, _) :: pairs =>
    let id := action.action?.map ActionEvent.llmResponseId
    (if id = counted then 0 else 1) + responses id pairs

theorem streakLoop_eq (reference : BranchEvent) (actions remaining : List BranchEvent) (error : Option BranchEvent)
    (counted : Option EventID) :
    d.streakLoop reference actions remaining error counted =
      responses counted (d.streakPairs reference actions remaining error) := by
  induction actions generalizing remaining error counted with
  | nil => rfl
  | cons action actions ih =>
    unfold streakLoop streakPairs
    cases ha : action.action? with
    | none => rfl
    | some a =>
      dsimp only
      cases popFirst (fun o : BranchEvent => o.observes a.toolCallId) remaining with
      | none => rfl
      | some popped =>
        obtain ⟨observation, rest⟩ := popped
        dsimp only
        split
        · rfl
        · split
          · rfl
          · rw [ih]
            simp only [responses, ha, Option.map_some]

theorem actionErrorStreak_eq (actions observations : List BranchEvent) :
    d.actionErrorStreak actions observations = responses none (d.streak actions observations) := by
  unfold actionErrorStreak streak
  cases actions with
  | nil => rfl
  | cons reference actions =>
    dsimp only
    split
    · rename_i hnone
      rw [List.isEmpty_iff.1 hnone]
      unfold streakPairs
      cases reference.action? <;> rfl
    · exact d.streakLoop_eq _ _ _ _ _

/-- Dropping calls from the end of a streak never adds a response. -/
theorem responses_takeWhile_le (p : BranchEvent × BranchEvent → Bool) (counted : Option EventID)
    (pairs : List (BranchEvent × BranchEvent)) : responses counted (pairs.takeWhile p) ≤ responses counted pairs := by
  induction pairs generalizing counted with
  | nil => exact Nat.le_refl _
  | cons pair pairs ih =>
    rw [List.takeWhile_cons]
    split
    · exact Nat.add_le_add_left (ih _) _
    · exact Nat.zero_le _

theorem popFirst_append {α : Type _} (p : α → Bool) (xs ys : List α) :
    popFirst p (xs ++ ys) =
      match popFirst p xs with
      | some (x, rest) => some (x, rest ++ ys)
      | none => (popFirst p ys).map fun r => (r.1, xs ++ r.2) := by
  induction xs with
  | nil =>
    show popFirst p ys = (popFirst p ys).map fun r => (r.1, r.2)
    rw [Option.map_id']
  | cons x xs ih =>
    rw [List.cons_append, popFirst, popFirst]
    split
    · rfl
    · rw [ih]
      cases popFirst p xs with
      | some popped => rfl
      | none => cases popFirst p ys <;> rfl

theorem mem_of_popFirst {α : Type _} {p : α → Bool} {xs rest : List α} {x : α} (h : popFirst p xs = some (x, rest)) :
    x ∈ xs ∧ rest ⊆ xs := by
  induction xs generalizing rest with
  | nil => cases h
  | cons y xs ih =>
    unfold popFirst at h
    split at h
    · cases h
      exact ⟨List.mem_cons_self, List.subset_cons_self _ _⟩
    · obtain ⟨popped, hpop, hr⟩ := Option.map_eq_some_iff.1 h
      cases hr
      obtain ⟨hmem, hsub⟩ := ih hpop
      exact ⟨List.mem_cons_of_mem _ hmem, List.cons_subset_cons _ hsub⟩

section Within
variable (win : List BranchEvent)

/-- The call and its error lie in the window. -/
def Within (pair : BranchEvent × BranchEvent) : Bool := pair.1 ∈ win && pair.2 ∈ win

/-- In the window the streak goes as far as its calls and errors do. -/
theorem streakPairs_within (reference : BranchEvent) {actions older observations olderObs : List BranchEvent}
    (error : Option BranchEvent) (hactions : actions ⊆ win) (hobs : observations ⊆ win)
    (holder : ∀ e ∈ older, e ∉ win) (holderObs : ∀ e ∈ olderObs, e ∉ win) :
    (d.streakPairs reference (actions ++ older) (observations ++ olderObs) error).takeWhile (Within win) =
      d.streakPairs reference actions observations error := by
  induction actions generalizing observations error with
  | nil =>
    cases older with
    | nil => rfl
    | cons e older =>
      have hout : e ∉ win := holder e List.mem_cons_self
      rw [List.nil_append]
      unfold streakPairs
      cases e.action? with
      | none => rfl
      | some a =>
        dsimp only
        split
        · rfl
        · split
          · rfl
          · split
            · rfl
            · rw [List.takeWhile_cons_of_neg]
              simp [Within, hout]
  | cons action actions ih =>
    obtain ⟨haction, hactions⟩ := List.cons_subset.1 hactions
    rw [List.cons_append]
    unfold streakPairs
    cases action.action? with
    | none => rfl
    | some a =>
      dsimp only
      rw [popFirst_append]
      cases hpop : popFirst (fun o : BranchEvent => o.observes a.toolCallId) observations with
      | some popped =>
        obtain ⟨observation, rest⟩ := popped
        obtain ⟨hmem, hrest⟩ := mem_of_popFirst hpop
        dsimp only
        split
        · rfl
        · split
          · rfl
          · rw [List.takeWhile_cons_of_pos (by simp [Within, haction, hobs hmem])]
            exact congrArg _ (ih _ hactions fun _ hx => hobs (hrest hx))
      | none =>
        dsimp only
        cases hpop' : popFirst (fun o : BranchEvent => o.observes a.toolCallId) olderObs with
        | none => rfl
        | some popped =>
          obtain ⟨observation, rest⟩ := popped
          have hout : observation ∉ win := holderObs _ (mem_of_popFirst hpop').1
          dsimp only [Option.map_some]
          split
          · rfl
          · split
            · rfl
            · rw [List.takeWhile_cons_of_neg]
              simp [Within, hout]

end Within

/-- The streak of some events. -/
def streakOf (events : List BranchEvent) : List (BranchEvent × BranchEvent) :=
  d.streak (events.reverse.filter BranchEvent.isAction) (events.reverse.filter BranchEvent.isObservationBase)

theorem streakOf_rtake {events : List BranchEvent} (hnodup : events.Nodup) (k : Nat) :
    d.streakOf (events.rtake k) = (d.streakOf events).takeWhile (Within (events.rtake k)) := by
  have hsplit : events.reverse = (events.rtake k).reverse ++ events.reverse.drop k := by
    rw [reverse_rtake, List.take_append_drop]
  have holder : ∀ e ∈ events.reverse.drop k, e ∉ events.rtake k := by
    have hnodup' : events.reverse.Nodup := List.nodup_reverse.2 hnodup
    rw [hsplit] at hnodup'
    intro e he hwin
    exact (List.nodup_append.1 hnodup').2.2 e (List.mem_reverse.2 hwin) e he rfl
  have hnewer : ∀ p : BranchEvent → Bool, (events.rtake k).reverse.filter p ⊆ events.rtake k := by
    intro p e he
    exact List.mem_reverse.1 (List.mem_filter.1 he).1
  have holder' : ∀ p : BranchEvent → Bool, ∀ e ∈ (events.reverse.drop k).filter p, e ∉ events.rtake k := by
    intro p e he
    exact holder e (List.mem_filter.1 he).1
  unfold streakOf
  rw [hsplit, List.filter_append, List.filter_append]
  have hactions := hnewer BranchEvent.isAction
  unfold streak
  cases hnew : (events.rtake k).reverse.filter BranchEvent.isAction with
  | nil =>
    rw [List.nil_append]
    cases hold : (events.reverse.drop k).filter BranchEvent.isAction with
    | nil => rfl
    | cons reference older =>
      -- no call of the streak lies in the window
      have hnone := d.streakPairs_within (events.rtake k) reference none (List.nil_subset _)
        (hnewer BranchEvent.isObservationBase) (holder' BranchEvent.isAction) (holder' BranchEvent.isObservationBase)
      rw [hold, List.nil_append] at hnone
      exact hnone.symm
  | cons reference newer =>
    rw [hnew] at hactions
    exact (d.streakPairs_within (events.rtake k) reference none hactions
      (hnewer BranchEvent.isObservationBase) (holder' BranchEvent.isAction)
      (holder' BranchEvent.isObservationBase)).symm

/-- Scenario 2 on the collected events. -/
theorem isStuckRepeatingActionError_iff (events : List BranchEvent) :
    d.isStuckRepeatingActionError (collectActionsAndObservations events events.length).1
        (collectActionsAndObservations events events.length).2 = true ↔
      d.thresholds.actionError < responses none (d.streakOf events) := by
  have hall : ∀ p : BranchEvent → Bool, (events.reverse.filter p).take events.length = events.reverse.filter p := by
    intro p
    refine List.take_of_length_le ?_
    rw [length_filter_reverse]
    exact List.countP_le_length
  rw [collectActionsAndObservations_eq, hall, hall]
  unfold isStuckRepeatingActionError streakOf
  rw [actionErrorStreak_eq]
  exact decide_eq_true_iff

end Detector
end Repeating

/-! ## Window against all events -/

section Windows
variable {F : Type} [PyFloat F] (d : Detector F)

namespace Detector

/-- On all events since the last user message some rule fires with all that it
counts in its window, and the window is not below the minimal length. The
window of the action-error rule is the widened one. -/
def RepetitionInWindow (b : Branch) : Prop :=
  let all := sinceLastUserMessage b.events
  let window := b.eventsSinceLastUserMessage maxEventsToScan
  let t := d.thresholds
  d.minThreshold ≤ window.length ∧
    (d.repeating all = true ∧ t.actionObservation ≤ window.countP BranchEvent.isAction ∧
        t.actionObservation ≤ window.countP BranchEvent.isObservationBase ∨
      t.actionError <
        responses none ((d.streakOf all).takeWhile (Within (d.actionErrorEvents b maxEventsToScan))) ∨
      d.isStuckMonologue all = true ∧ t.monologue ≤ window.countP BranchEvent.isAgentMessage ∨
      d.alternating all = true ∧ t.alternatingPattern ≤ window.countP BranchEvent.isAction ∧
        t.alternatingPattern ≤ window.countP BranchEvent.isObservationOrError)

theorem stuckPatterns_iff (events pairEvents : List BranchEvent) :
    d.stuckPatterns events (collectActionsAndObservations pairEvents pairEvents.length) = true ↔
      d.minThreshold ≤ events.length ∧
        (d.repeating events = true ∨ d.thresholds.actionError < responses none (d.streakOf pairEvents) ∨
          d.isStuckMonologue events = true ∨ d.alternating events = true) := by
  rw [← isStuckRepeatingActionError_iff]
  unfold stuckPatterns
  split
  · rename_i hshort
    simp only [Bool.false_eq_true, false_iff, not_and]
    omega
  · rename_i hlong
    have hnone : isStuckContextWindowError events = false := rfl
    have hrepeating : d.isStuckRepeatingActionObservation
        (collectActionsAndObservations events d.thresholds.actionObservation).1
        (collectActionsAndObservations events d.thresholds.actionObservation).2 = d.repeating events := rfl
    have halternating : (d.thresholds.alternatingPattern ≤ events.length &&
        d.isStuckAlternatingActionObservation events) = d.alternating events := rfl
    dsimp only
    rw [hrepeating, halternating, hnone, Bool.and_false]
    have hlong' : d.minThreshold ≤ events.length := Nat.le_of_not_lt hlong
    cases d.repeating events <;> cases d.isStuckMonologue events <;> cases d.alternating events <;> simp [hlong']

theorem isStuck_iff (b : Branch) : d.isStuck b = true ↔ d.RepetitionInWindow b := by
  obtain ⟨n, hn⟩ := d.actionErrorEvents_eq b maxEventsToScan
  unfold isStuck actionErrorPairs RepetitionInWindow
  dsimp only
  rw [stuckPatterns_iff, hn, streakOf_rtake d b.nodup, b.eventsSinceLastUserMessage_eq, repeating_window,
    isStuckMonologue_window, alternating_window]

/-- The window loses nothing exactly when a repetition that the rules see in
all events is seen within their windows. -/
theorem isStuck_eq_iff (b : Branch) :
    d.isStuck b = d.isStuckOnAll b ↔ (d.isStuckOnAll b = true → d.RepetitionInWindow b) := by
  rw [← isStuck_iff]
  have hall : d.isStuck b = true → d.isStuckOnAll b = true := by
    rw [isStuck_iff]
    rintro ⟨hmin, hrule⟩
    refine (d.stuckPatterns_iff _ _).2 ⟨?_, ?_⟩
    · rw [b.eventsSinceLastUserMessage_eq] at hmin
      exact Nat.le_trans hmin (List.drop_sublist _ _).length_le
    · rcases hrule with h | h | h | h
      · exact .inl h.1
      · exact .inr (.inl (Nat.lt_of_lt_of_le h (responses_takeWhile_le _ _ _)))
      · exact .inr (.inr (.inl h.1))
      · exact .inr (.inr (.inr h.1))
  cases hwindow : d.isStuck b with
  | true => simp [hall hwindow]
  | false => cases d.isStuckOnAll b <;> simp

end Detector
end Windows

/-! ## A monologue longer than the window -/

/-- Events without links are one branch, in the order of the log. -/
theorem branch_of_unlinked {log : EventLog} (h : ∀ e ∈ log.events, e.parentId = none) (i : Nat) (id : EventID)
    (hid : log.getId i = some id) : log.Branch (some id) (log.events.take (i + 1)) := by
  induction i generalizing id with
  | zero =>
    obtain ⟨e, he, rfl⟩ := EventLog.exists_of_getId hid
    have hparent : log.effectiveParentId 0 e = none := by
      unfold EventLog.effectiveParentId
      rw [h e (List.mem_of_getElem? he)]
      rfl
    have htake : log.events.take 1 = [] ++ [e] := by
      rw [List.take_add_one, he]
      rfl
    rw [htake]
    exact .node (EventLog.next_eq_some.2 ⟨0, he, rfl, hparent.symm⟩) .root
  | succ i ih =>
    obtain ⟨e, he, rfl⟩ := EventLog.exists_of_getId hid
    obtain ⟨hlt, -⟩ := List.getElem?_eq_some_iff.1 he
    obtain ⟨prev, hprev⟩ : ∃ prev, log.getId i = some prev := by
      refine ⟨(log.events.get ⟨i, by omega⟩).id, ?_⟩
      rw [EventLog.getId, EventLog.ids, List.getElem?_map, List.getElem?_eq_getElem (by omega)]
      rfl
    have hparent : log.effectiveParentId (i + 1) e = some prev := by
      unfold EventLog.effectiveParentId
      rw [h e (List.mem_of_getElem? he)]
      exact hprev
    rw [List.take_add_one, he]
    exact .node (EventLog.next_eq_some.2 ⟨i + 1, he, rfl, hparent.symm⟩) (ih prev hprev)

section Example

/-- A type of floats with a single value. -/
inductive NanFloat where
  | nan

instance NanFloat.pyFloat : PyFloat NanFloat where
  token _ := "NaN".toList
  ofToken _ := .nan
  isToken _ := .inr (by decide)
  ofToken_token _ := rfl
  eq _ _ := false
  eqInt _ _ := false

/-- The ids of a run of agent messages. -/
def remarkId (i : Nat) : EventID := String.ofList (List.replicate (i + 1) 'm')

def remark (i : Fin 21) : BranchEvent where
  id := remarkId i
  body := .message { source := .agent, llmMessage := { role := .assistant, content := ["Let me think."] } }
  notRoot := by decide +revert
  source := .agent

def remarks : List BranchEvent := (List.finRange 21).map remark

def monologue : Branch where
  log := { events := remarks.map BranchEvent.toEvent, idsNodup := by decide +kernel }
  leaf := some (remarkId 20)
  events := remarks
  isBranch := branch_of_unlinked (by decide +kernel) 20 _ (by decide +kernel)

/-- A detector that waits for 21 agent messages in a row. -/
def patient : Detector NanFloat where
  thresholds := { monologue := 21 }
  hasSummaryParam _ := false

/-- The window of 20 events holds 20 messages, so that the configured 21 are
never seen. -/
theorem monologue_lost : ¬ ∀ (d : Detector NanFloat) (b : Branch), d.isStuck b = d.isStuckOnAll b := by
  intro hall
  have hon : patient.isStuckOnAll monologue = true := by decide +kernel
  have hnostreak : patient.streakOf (sinceLastUserMessage monologue.events) = [] := by decide +kernel
  rw [← hall patient monologue, Detector.isStuck_iff] at hon
  obtain ⟨-, ⟨h, -⟩ | h | ⟨-, h⟩ | ⟨h, -⟩⟩ := hon
  · exact absurd h (by decide +kernel)
  · rw [hnostreak] at h
    exact absurd h (Nat.not_lt_zero _)
  · exact absurd h (by decide +kernel)
  · exact absurd h (by decide +kernel)

end Example

end StuckDetector
end AgentSdk
