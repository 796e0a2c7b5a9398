import AgentSdk.EventStore
import AgentSdk.Lib.Runs
import Mathlib.Data.List.Infix
/-!
# Pages of an event search

`_search_events_sync` and a client that follows `next_page_id`, while events
are appended to the log between its requests. An event file that is missing
or does not validate is skipped.
-/

namespace AgentSdk.SearchPages
open EventStore Lib

/-! ## The log that is searched -/

/-- An event with what the filters read of it besides its body. -/
structure SearchedEvent extends Event where
  /-- `type(event).__name__` and `type(event).__module__`. -/
  className : String
  moduleName : String
  source : String
  timestamp : String
deriving DecidableEq

/-- An event file of the log. `event` is `none` where it cannot be read or validated. -/
structure Entry where
  file : EventFile
  event : Option SearchedEvent
deriving DecidableEq

/-- The index over the event files, the same in memory and after a reload. -/
def log (es : List Entry) : Log := Log.ofFiles (es.map Entry.file)

def getIndex (es : List Entry) (id : EventID) : Option Nat := (log es).idToIdx id

/-- `_path`: the file of an index. -/
def path (s : Log) (i : Nat) : Option EventFile :=
  if i < s.length then (s.idxToId i).map fun id => ⟨(s.diskIdx i).getD i, id⟩ else none

/-- `_get_searchable_event`. -/
def getSearchableEvent (es : List Entry) (i : Nat) : Option SearchedEvent := es[i]?.bind Entry.event

/-- `EventLog.append`: the file goes behind all others. -/
def append (es : List Entry) (e : SearchedEvent) : Option (List Entry) :=
  match (log es).check e.toEvent with
  | .ok () => some (es ++ [⟨(log es).nextFile e.id, some e⟩])
  | .error _ => none

/-- The entry at an index is the file its path names. -/
theorem path_log (es : List Entry) (i : Nat) : path (log es) i = es[i]?.map Entry.file := by
  unfold path log
  rw [Log.length_ofFiles, Log.idxToId_ofFiles, Log.diskIdx_ofFiles, List.length_map, List.getElem?_map]
  split
  · rename_i hlt
    rw [List.getElem?_eq_getElem hlt]
    rfl
  · rename_i hge
    rw [List.getElem?_eq_none (Nat.le_of_not_lt hge)]
    rfl

theorem log_append {es es' : List Entry} {e : SearchedEvent} (h : append es e = some es') :
    log es' = (log es).record ((log es).nextFile e.id) := by
  unfold append at h
  split at h
  · rename_i hcheck
    cases h
    have hnew : ∀ g ∈ es.map Entry.file, g.eventId ≠ e.id := by
      intro g hg hid
      have hknown : (log es).contains e.id = true := (Log.contains_ofFiles _ _).2 ⟨g, hg, hid⟩
      exact absurd (hknown.symm.trans (Log.not_contains_of_check hcheck)) (by decide)
    unfold log
    rw [List.map_append]
    exact (Log.record_ofFiles hnew).symm
  · cases h

section Append
variable {es es' : List Entry} {e : SearchedEvent}

theorem append_eq (h : append es e = some es') :
    getIndex es e.id = none ∧ es' = es ++ [⟨(log es).nextFile e.id, some e⟩] := by
  unfold append at h
  split at h
  · rename_i hcheck
    cases h
    refine ⟨?_, rfl⟩
    have hnew : (log es).contains e.id = false := Log.not_contains_of_check hcheck
    exact Option.isNone_iff_eq_none.1 (Option.isSome_eq_false_iff.1 hnew)
  · cases h

theorem getIndex_append_self (h : append es e = some es') : getIndex es' e.id = some es.length := by
  unfold getIndex
  rw [log_append h]
  simp [Log.record, Log.nextFile, log]

theorem getIndex_append {id : EventID} {i : Nat} (h : append es e = some es') (hi : getIndex es id = some i) :
    getIndex es' id = some i := by
  have hne : id ≠ e.id := by
    rintro rfl
    rw [(append_eq h).1] at hi
    cases hi
  unfold getIndex at hi ⊢
  rw [log_append h]
  simp only [Log.record, Log.nextFile]
  rw [Function.update_of_ne hne, hi]

end Append

/-! ## Filters -/

/-- The optional filters; the datetimes are given in ISO format. -/
structure Filters where
  kind : Option String := none
  source : Option String := none
  body : Option String := none
  timestampGte : Option String := none
  timestampLt : Option String := none

section Filters
variable (lower : String → String)

/-- `_event_matches_body`; `lower` is `str.lower`. -/
def eventMatchesBody (e : SearchedEvent) (body : String) : Bool :=
  match e.body with
  | .message m =>
    let reasoning := (m.llmMessage.reasoningContent.filter (· ≠ "")).toList
    let fullText := lower (String.intercalate " " (m.llmMessage.content ++ m.extendedContent ++ reasoning))
    decide ((lower body).toList <:+: fullText.toList)
  | _ => false

/-- `_event_matches_filters`. -/
def eventMatchesFilters (f : Filters) (e : SearchedEvent) : Bool :=
  if f.kind.any fun kind => kind ≠ e.className ∧ kind ≠ e.moduleName ++ "." ++ e.className then false
  else if f.source.any fun source => e.source ≠ source then false
  else if f.timestampGte.any fun gte => e.timestamp < gte then false
  else if f.timestampLt.any fun lt => e.timestamp ≥ lt then false
  else if f.body.any fun body => ! eventMatchesBody lower e body then false
  else true

end Filters

/-! ## One page -/

inductive EventSortOrder where
  | timestamp
  | timestampDesc
deriving DecidableEq

/-- The arguments a client keeps from page to page. -/
structure Search where
  /-- `str.lower`. -/
  lower : String → String
  filters : Filters := {}
  sortOrder : EventSortOrder := .timestamp
  limit : Nat := 100

structure EventPage where
  items : List SearchedEvent
  nextPageId : Option EventID

/-- `start_index`, unless it is the natural start of the order. -/
def startIndex (es : List Entry) (pageId : Option EventID) : Option Nat :=
  pageId.bind fun id => if id = "" then none else getIndex es id

/-- `range(start_index, total)` or `range(start_index, -1, -1)`. -/
def indices (es : List Entry) (start : Option Nat) : EventSortOrder → List Nat
  | .timestamp => List.range' (start.getD 0) (es.length - start.getD 0)
  | .timestampDesc => (List.range (start.elim es.length (· + 1))).reverse

namespace Search

def accepts (q : Search) (e : SearchedEvent) : Bool := eventMatchesFilters q.lower q.filters e

/-- The loop over the indices. -/
def collect (q : Search) (es : List Entry) : List Nat → List SearchedEvent → EventPage
  | [], items => ⟨items, none⟩
  | i :: rest, items =>
    match getSearchableEvent es i with
    | none => q.collect es rest items
    | some e =>
      if ! q.accepts e then q.collect es rest items
      else if q.limit ≤ items.length then ⟨items, some e.id⟩
      else q.collect es rest (items ++ [e])

/-- `_search_events_sync`. -/
def searchEvents (q : Search) (es : List Entry) (pageId : Option EventID) : EventPage :=
  q.collect es (indices es (startIndex es pageId) q.sortOrder) []

/-- The readable event of an entry, if it passes the filter. -/
def hit (q : Search) (x : Entry) : Option SearchedEvent := x.event.filter q.accepts

/-- The matching readable events, in the order of the log. -/
def matching (q : Search) (es : List Entry) : List SearchedEvent := es.filterMap q.hit

/-! ## What a page holds -/

/-- The matches along a list of indices. -/
def hitsAt (q : Search) (es : List Entry) (is : List Nat) : List SearchedEvent :=
  is.filterMap fun i => es[i]?.bind q.hit

theorem bind_hit (q : Search) (es : List Entry) (i : Nat) :
    es[i]?.bind q.hit = (getSearchableEvent es i).filter q.accepts := by
  unfold getSearchableEvent hit
  cases es[i]? <;> rfl

/-- A page takes matches up to the limit, and the match after them is where
the next page starts. -/
theorem collect_eq (q : Search) (es : List Entry) (is : List Nat) (items : List SearchedEvent)
    (h : items.length ≤ q.limit) :
    q.collect es is items =
      ⟨items ++ (q.hitsAt es is).take (q.limit - items.length),
        ((q.hitsAt es is).drop (q.limit - items.length)).head?.map fun e => e.id⟩ := by
  induction is generalizing items with
  | nil => simp [collect, hitsAt]
  | cons i is ih =>
    unfold collect
    have hcons : q.hitsAt es (i :: is) =
        ((getSearchableEvent es i).filter q.accepts).toList ++ q.hitsAt es is := by
      unfold hitsAt
      rw [List.filterMap_cons, bind_hit]
      cases (getSearchableEvent es i).filter q.accepts <;> rfl
    rw [hcons]
    cases hget : getSearchableEvent es i with
    | none => exact ih items h
    | some e =>
      by_cases haccepts : q.accepts e = true
      · by_cases hfull : q.limit ≤ items.length
        · have hzero : q.limit - items.length = 0 := Nat.sub_eq_zero_of_le hfull
          simp [haccepts, hfull, hzero]
        · have hone : q.limit - items.length = (q.limit - (items ++ [e]).length) + 1 := by
            rw [List.length_append, List.length_singleton]
            omega
          have hle : (items ++ [e]).length ≤ q.limit := by
            rw [List.length_append, List.length_singleton]
            omega
          simp only [haccepts, hfull, Bool.not_true, Bool.false_eq_true, if_false, Option.filter_some, if_true]
          rw [ih _ hle, hone]
          simp
      · simp only [haccepts, Bool.not_false, if_true, Option.filter_some, if_false, Bool.false_eq_true]
        exact ih items h

end Search

/-! ## A client and a growing log -/

inductive Cursor where
  | first
  | next (pageId : EventID)
  | done
deriving DecidableEq

def Cursor.ofPage : Option EventID → Cursor
  | some id => if id = "" then .done else .next id
  | none => .done

/-- `atFirst` and `atLast` are kept for the statements: the log at the first
and at the last request. -/
structure World where
  entries : List Entry
  cursor : Cursor := .first
  pages : List (List SearchedEvent) := []
  atFirst : List Entry := []
  atLast : List Entry := []

inductive Step where
  | append (e : SearchedEvent)
  | request

namespace World

/-- What the client has got so far. -/
def received (w : World) : List SearchedEvent := w.pages.flatten

/-- The request of `page_iterator` for one page. -/
def take (w : World) (page : EventPage) : World :=
  { w with
    cursor := .ofPage page.nextPageId
    pages := w.pages ++ [page.items]
    atFirst := if w.cursor = .first then w.entries else w.atFirst
    atLast := w.entries }

/-- The client stops asking once a page names no next one. -/
def step (q : Search) (w : World) : Step → Option World
  | .append e => (append w.entries e).map fun es => { w with entries := es }
  | .request =>
    match w.cursor with
    | .first => some (w.take (q.searchEvents w.entries none))
    | .next pageId => some (w.take (q.searchEvents w.entries (some pageId)))
    | .done => none

end World

/-- A page can begin with the match at this index: full pages come before it
in the order of the search. -/
def Boundary (q : Search) (es : List Entry) (i : Nat) : Prop :=
  let before := match q.sortOrder with
    | .timestamp => q.matching (es.take i)
    | .timestampDesc => q.matching (es.drop (i + 1))
  before ≠ [] ∧ q.limit ∣ before.length

/-- Where a page can begin, the event has a nonempty id that leads to its own
index in the log. -/
def Indexed (q : Search) (first es : List Entry) : Prop :=
  ∀ i e, first[i]?.bind q.hit = some e → Boundary q first i → e.id ≠ "" ∧ getIndex es e.id = some i

/-- What the pages hold in the end: for the ascending order the matches of the
log at the last request, for the descending one those at the first. -/
def expected (q : Search) (w : World) : List SearchedEvent :=
  match q.sortOrder with
  | .timestamp => q.matching w.atLast
  | .timestampDesc => (q.matching w.atFirst).reverse

/-- What was received is complete when the client stops, and once it has
started it stops without further appends. -/
structure Lossless (q : Search) (w : World) : Prop where
  complete : w.cursor = .done → w.received = expected q w
  ends : w.cursor ≠ .first →
    ∃ n w', exec (World.step q) w (List.replicate n .request) = some w' ∧ w'.cursor = .done

/-- The search starts on a log that is indexed where pages can begin. While it
goes on in ascending order, an event with which a page can begin is not
appended under the empty id. -/
def Step.Allowed (q : Search) (w : World) : Step → Prop
  | .request => w.cursor = .first → Indexed q w.entries w.entries
  | .append e =>
    (∃ id, w.cursor = .next id) → q.sortOrder = .timestamp → q.accepts e = true →
      Boundary q w.entries w.entries.length → e.id ≠ ""

/-! ## A page of each order -/

/-- The element behind the first `k` images, and what stands before it. -/
theorem exists_of_drop_filterMap {α β : Type _} {f : α → Option β} {l : List α} {k : Nat} {b : β} {bs : List β}
    (h : (l.filterMap f).drop k = b :: bs) :
    ∃ l₁ a l₂, l = l₁ ++ a :: l₂ ∧ f a = some b ∧ l₁.filterMap f = (l.filterMap f).take k := by
  have hsplit : l.filterMap f = (l.filterMap f).take k ++ b :: bs := by
    rw [← h, List.take_append_drop]
  obtain ⟨l₁, l₂, rfl, htake, hdrop⟩ := List.filterMap_eq_append_iff.1 hsplit
  obtain ⟨skipped, a, l₃, rfl, hnone, ha, -⟩ := List.filterMap_eq_cons_iff.1 hdrop
  refine ⟨l₁ ++ skipped, a, l₃, (List.append_assoc _ _ _).symm, ha, ?_⟩
  rw [List.filterMap_append, List.filterMap_eq_nil_iff.2 hnone, List.append_nil]
  exact htake

/-- The page that the loop returns over a list of entries. -/
def pageOf (q : Search) (ms : List SearchedEvent) : EventPage :=
  ⟨ms.take q.limit, (ms.drop q.limit).head?.map fun e => e.id⟩

section PageOf
variable {q : Search} {es : List Entry}

theorem matching_append (q : Search) (l₁ l₂ : List Entry) :
    q.matching (l₁ ++ l₂) = q.matching l₁ ++ q.matching l₂ := List.filterMap_append

theorem matching_reverse (q : Search) (l : List Entry) : q.matching l.reverse = (q.matching l).reverse :=
  List.filterMap_reverse

theorem searchEvents_eq (q : Search) (es : List Entry) (pageId : Option EventID) :
    q.searchEvents es pageId = pageOf q (q.hitsAt es (indices es (startIndex es pageId) q.sortOrder)) := by
  unfold Search.searchEvents
  rw [q.collect_eq _ _ _ (Nat.zero_le _)]
  rfl

theorem hitsAt_drop (q : Search) (pre post : List Entry) :
    q.hitsAt (pre ++ post) (List.range' pre.length post.length) = q.matching post := by
  unfold Search.hitsAt Search.matching
  induction post generalizing pre with
  | nil => rfl
  | cons x post ih =>
    have hrest := ih (pre ++ [x])
    rw [List.append_assoc, List.singleton_append, List.length_append, List.length_singleton] at hrest
    rw [List.length_cons, List.range'_succ, List.filterMap_cons, List.filterMap_cons, hrest,
      List.getElem?_append_right (Nat.le_refl _), Nat.sub_self]
    rfl

theorem hitsAt_range (q : Search) (pre post : List Entry) :
    q.hitsAt (pre ++ post) (List.range pre.length) = q.matching pre := by
  have hsame : ∀ i ∈ List.range pre.length, (pre ++ post)[i]?.bind q.hit = (pre ++ [])[i]?.bind q.hit := by
    intro i hi
    rw [List.getElem?_append_left (List.mem_range.1 hi), List.append_nil]
  have hwhole := hitsAt_drop q [] pre
  unfold Search.hitsAt at hwhole ⊢
  rw [List.filterMap_congr hsame, List.append_nil, List.range_eq_range']
  exact hwhole

/-- The matches from the start index on. -/
theorem searchEvents_asc (hasc : q.sortOrder = .timestamp) {pre post : List Entry} {pageId : Option EventID}
    (hes : es = pre ++ post) (hstart : (startIndex es pageId).getD 0 = pre.length) :
    q.searchEvents es pageId = pageOf q (q.matching post) := by
  have hlen : es.length - pre.length = post.length := by
    rw [hes, List.length_append, Nat.add_sub_cancel_left]
  rw [searchEvents_eq, hasc]
  unfold indices
  rw [hstart, hlen, hes, hitsAt_drop]

/-- The matches up to the start index, the newest first. -/
theorem searchEvents_desc (hdesc : q.sortOrder = .timestampDesc) {pre post : List Entry} {pageId : Option EventID}
    (hes : es = pre ++ post) (hstart : (startIndex es pageId).elim es.length (· + 1) = pre.length) :
    q.searchEvents es pageId = pageOf q (q.matching pre.reverse) := by
  rw [searchEvents_eq, hdesc, matching_reverse]
  unfold indices
  rw [hstart, hes, ← hitsAt_range q pre post]
  unfold Search.hitsAt
  rw [List.filterMap_reverse]

/-- A page that names a next one is full, and takes all matches before it. -/
theorem pageOf_next {id : EventID} {l : List Entry}
    (h : (pageOf q (q.matching l)).nextPageId = some id) :
    ∃ l₁ x l₂ e, l = l₁ ++ x :: l₂ ∧ q.hit x = some e ∧ e.id = id ∧
      (pageOf q (q.matching l)).items = q.matching l₁ ∧ (q.matching l₁).length = q.limit := by
  obtain ⟨e, he, hid⟩ := Option.map_eq_some_iff.1 h
  obtain ⟨rest, hdrop⟩ := List.head?_eq_some_iff.1 he
  obtain ⟨l₁, x, l₂, hl, hx, htake⟩ := exists_of_drop_filterMap hdrop
  refine ⟨l₁, x, l₂, e, hl, hx, hid, htake.symm, ?_⟩
  have hmore : q.limit < (l.filterMap q.hit).length := by
    have hlen := congrArg List.length hdrop
    rw [List.length_drop, List.length_cons] at hlen
    change (l.filterMap q.hit).length - _ = _ at hlen
    omega
  unfold Search.matching
  rw [htake, List.length_take]
  exact Nat.min_eq_left (Nat.le_of_lt hmore)

theorem pageOf_last {ms : List SearchedEvent} (h : (pageOf q ms).nextPageId = none) : (pageOf q ms).items = ms := by
  have hnil : ms.drop q.limit = [] := by
    rw [← List.head?_eq_none_iff]
    exact Option.map_eq_none_iff.1 h
  exact List.take_of_length_le (List.drop_eq_nil_iff.1 hnil)

end PageOf

/-! ## Invariants -/

/-- The cursor is the id of a match of the log, and what was received is all
that comes before it in the order of the search, in full pages. -/
structure Got (q : Search) (w : World) (id : EventID) (pre : List Entry) (x : Entry) (post : List Entry) : Prop where
  ne_empty : id ≠ ""
  index : getIndex w.entries id = some pre.length
  full : q.limit ∣ w.received.length
  received : match q.sortOrder with
    | .timestamp => Indexed q w.entries w.entries ∧ w.entries = pre ++ x :: post ∧ w.received = q.matching pre
    | .timestampDesc => Indexed q w.atFirst w.entries ∧ w.atFirst = pre ++ x :: post ∧ w.atFirst <+: w.entries ∧
        w.received = (q.matching post).reverse

structure Consistent (q : Search) (w : World) : Prop where
  first : w.cursor = .first → w.pages = []
  next : ∀ id, w.cursor = .next id → ∃ pre x post, Got q w id pre x post
  complete : w.cursor = .done → w.received = expected q w

/-- A bound on the requests that are left. -/
def remaining (q : Search) (w : World) : Nat :=
  match w.cursor, q.sortOrder with
  | .done, _ => 0
  | .first, _ => w.entries.length + 1
  | .next id, .timestamp => w.entries.length - (getIndex w.entries id).getD 0
  | .next id, .timestampDesc => (getIndex w.entries id).getD 0 + 1

section Request
variable {q : Search} {w : World}

theorem getElem?_middle {α : Type _} (pre : List α) (x : α) (post : List α) :
    (pre ++ x :: post)[pre.length]? = some x := by
  rw [List.getElem?_append_right (Nat.le_refl _), Nat.sub_self]
  rfl

theorem received_take (w : World) (page : EventPage) : (w.take page).received = w.received ++ page.items := by
  unfold World.received World.take
  rw [List.flatten_append, List.flatten_singleton]

/-- A request of the ascending search that starts behind `pre`. -/
theorem take_asc (hlimit : 1 ≤ q.limit) (hasc : q.sortOrder = .timestamp) (hindexed : Indexed q w.entries w.entries)
    {pre post : List Entry} (hes : w.entries = pre ++ post) (hreceived : w.received = q.matching pre)
    (hfull : q.limit ∣ w.received.length) :
    let w' := w.take (pageOf q (q.matching post))
    Consistent q w' ∧ (w'.cursor = .done ∨ ∃ id i, w'.cursor = .next id ∧
      getIndex w.entries id = some i ∧ pre.length < i ∧ i < w.entries.length) := by
  intro w'
  cases hnext : (pageOf q (q.matching post)).nextPageId with
  | none =>
    have hdone : w'.cursor = .done := by
      show Cursor.ofPage _ = _
      rw [hnext]
      rfl
    have hcomplete : w'.received = expected q w' := by
      rw [received_take, pageOf_last hnext, hreceived, ← matching_append, ← hes]
      unfold expected
      rw [hasc]
      rfl
    refine ⟨⟨?_, ?_, fun _ => hcomplete⟩, .inl hdone⟩ <;> simp [hdone]
  | some id =>
    obtain ⟨l₁, x, l₂, e, rfl, hx, rfl, hitems, hlen⟩ := pageOf_next hnext
    have hes' : w.entries = (pre ++ l₁) ++ x :: l₂ := by rw [hes, List.append_assoc]
    have hreceived' : w'.received = q.matching (pre ++ l₁) := by
      rw [received_take, hitems, hreceived, matching_append]
    have hfull' : q.limit ∣ (q.matching (pre ++ l₁)).length := by
      rw [matching_append, ← hreceived, List.length_append, hlen]
      exact Nat.dvd_add hfull (Nat.dvd_refl _)
    have hne : 1 ≤ (q.matching l₁).length := hlen ▸ hlimit
    have hboundary : Boundary q w.entries (pre ++ l₁).length := by
      unfold Boundary
      rw [hasc, hes', List.take_left]
      refine ⟨?_, hfull'⟩
      rw [← List.length_pos_iff, matching_append, List.length_append]
      omega
    have hhit : w.entries[(pre ++ l₁).length]?.bind q.hit = some e := by
      rw [hes', getElem?_middle]
      exact hx
    obtain ⟨hid, hindex⟩ := hindexed _ e hhit hboundary
    have hcursor : w'.cursor = .next e.id := by
      show Cursor.ofPage _ = _
      rw [hnext]
      exact if_neg hid
    have hgot : Got q w' e.id (pre ++ l₁) x l₂ := by
      refine ⟨hid, hindex, hreceived' ▸ hfull', ?_⟩
      rw [hasc]
      exact ⟨hindexed, hes', hreceived'⟩
    refine ⟨⟨by simp [hcursor], ?_, by simp [hcursor]⟩, .inr ⟨e.id, _, hcursor, hindex, ?_, ?_⟩⟩
    · intro id hid'
      rw [hcursor, Cursor.next.injEq] at hid'
      exact hid' ▸ ⟨_, _, _, hgot⟩
    · have hle : (q.matching l₁).length ≤ l₁.length := List.length_filterMap_le _ _
      rw [List.length_append]
      omega
    · rw [hes']
      simp only [List.length_append, List.length_cons]
      omega

/-- A request of the descending search that starts at the end of `pre`, where
the log was `init` at the first request. -/
theorem take_desc (hlimit : 1 ≤ q.limit) (hdesc : q.sortOrder = .timestampDesc) {pre post init : List Entry}
    (hinit : (if w.cursor = .first then w.entries else w.atFirst) = init) (hindexed : Indexed q init w.entries)
    (hpre : init <+: w.entries) (hes : init = pre ++ post) (hreceived : w.received = (q.matching post).reverse)
    (hfull : q.limit ∣ w.received.length) :
    let w' := w.take (pageOf q (q.matching pre.reverse))
    Consistent q w' ∧ (w'.cursor = .done ∨ ∃ id i, w'.cursor = .next id ∧
      getIndex w.entries id = some i ∧ i + 1 < pre.length) := by
  intro w'
  have hatFirst : w'.atFirst = init := hinit
  cases hnext : (pageOf q (q.matching pre.reverse)).nextPageId with
  | none =>
    have hdone : w'.cursor = .done := by
      show Cursor.ofPage _ = _
      rw [hnext]
      rfl
    -- The last page: everything from the start on was received.
    have hcomplete : w'.received = expected q w' := by
      rw [received_take, pageOf_last hnext, hreceived, matching_reverse, ← List.reverse_append, ← matching_append,
        ← hes]
      unfold expected
      rw [hdesc, hatFirst]
    refine ⟨⟨?_, ?_, fun _ => hcomplete⟩, .inl hdone⟩ <;> simp [hdone]
  | some id =>
    -- The page has `l₁`, and `x` is where the next one starts.
    obtain ⟨l₁, x, l₂, e, hrev, hx, rfl, hitems, hlen⟩ := pageOf_next hnext
    have hpre' : pre = l₂.reverse ++ x :: l₁.reverse := by
      rw [← List.reverse_reverse pre, hrev]
      simp
    have hes' : init = l₂.reverse ++ x :: (l₁.reverse ++ post) := by
      rw [hes, hpre', List.append_assoc, List.cons_append]
    have hreceived' : w'.received = (q.matching (l₁.reverse ++ post)).reverse := by
      rw [received_take, hitems, hreceived, matching_append, matching_reverse, List.reverse_append,
        List.reverse_reverse]
    have hlen' : (q.matching (l₁.reverse ++ post)).length = w.received.length + q.limit := by
      rw [matching_append, List.length_append, matching_reverse, List.length_reverse, hlen, hreceived,
        List.length_reverse, Nat.add_comm]
    -- Full pages only, so the number of what was received is a multiple of the limit.
    have hfull' : q.limit ∣ (q.matching (l₁.reverse ++ post)).length := by
      rw [hlen']
      exact Nat.dvd_add hfull (Nat.dvd_refl _)
    have hdrop : init.drop (l₂.reverse.length + 1) = l₁.reverse ++ post := by
      rw [hes', ← List.singleton_append, ← List.append_assoc]
      exact List.drop_left' (by rw [List.length_append, List.length_singleton])
    have hboundary : Boundary q init l₂.reverse.length := by
      unfold Boundary
      rw [hdesc, hdrop]
      have hpos : 0 < (q.matching (l₁.reverse ++ post)).length := by omega
      exact ⟨List.length_pos_iff.1 hpos, hfull'⟩
    have hhit : init[l₂.reverse.length]?.bind q.hit = some e := by
      rw [hes', getElem?_middle]
      exact hx
    obtain ⟨hid, hindex⟩ := hindexed _ e hhit hboundary
    have hcursor : w'.cursor = .next e.id := by
      show Cursor.ofPage _ = _
      rw [hnext]
      exact if_neg hid
    have hgot : Got q w' e.id l₂.reverse x (l₁.reverse ++ post) := by
      refine ⟨hid, hindex, ?_, ?_⟩
      · rw [hreceived', List.length_reverse]
        exact hfull'
      · rw [hdesc, hatFirst]
        exact ⟨hindexed, hes', hpre, hreceived'⟩
    refine ⟨⟨by simp [hcursor], ?_, by simp [hcursor]⟩, .inr ⟨e.id, _, hcursor, hindex, ?_⟩⟩
    · intro id hid'
      rw [hcursor, Cursor.next.injEq] at hid'
      exact hid' ▸ ⟨_, _, _, hgot⟩
    · have hle : (q.matching l₁).length ≤ l₁.length := List.length_filterMap_le _ _
      rw [hpre']
      simp only [List.length_append, List.length_cons, List.length_reverse]
      omega

/-- Every request of a client that has not stopped brings it closer to the end. -/
theorem Consistent.request (hlimit : 1 ≤ q.limit) (hc : Consistent q w) (hgo : w.cursor ≠ .done)
    (hindexed : w.cursor = .first → Indexed q w.entries w.entries) :
    ∃ w', World.step q w .request = some w' ∧ Consistent q w' ∧ w'.cursor ≠ .first ∧
      remaining q w' < remaining q w := by
  cases hcursor : w.cursor with
  | done => exact absurd hcursor hgo
  | first =>
    have hreceived : w.received = [] := by
      unfold World.received
      rw [hc.first hcursor, List.flatten_nil]
    have hfull : q.limit ∣ w.received.length := by
      rw [hreceived]
      exact Nat.dvd_zero _
    -- A first page starts at one end of the log, with nothing received.
    refine ⟨_, by unfold World.step; rw [hcursor], ?_⟩
    cases horder : q.sortOrder with
    | timestamp =>
      have hes : w.entries = [] ++ w.entries := rfl
      rw [searchEvents_asc horder hes rfl]
      obtain ⟨hc', hend⟩ := take_asc hlimit horder (hindexed hcursor) hes hreceived hfull
      refine ⟨hc', ?_⟩
      unfold remaining
      rcases hend with hdone | ⟨id, i, hnext, hi, -, hlt⟩
      · rw [hdone, hcursor]
        exact ⟨by simp, Nat.succ_pos _⟩
      · rw [hnext, hcursor, horder]
        exact ⟨by simp, Nat.lt_succ_of_le (Nat.sub_le _ _)⟩
    | timestampDesc =>
      have hes : w.entries = w.entries ++ [] := (List.append_nil _).symm
      rw [searchEvents_desc horder hes rfl]
      obtain ⟨hc', hend⟩ := take_desc hlimit horder (if_pos hcursor) (hindexed hcursor) (List.prefix_refl _) hes
        hreceived hfull
      refine ⟨hc', ?_⟩
      unfold remaining
      rcases hend with hdone | ⟨id, i, hnext, hi, hlt⟩
      · rw [hdone, hcursor]
        exact ⟨by simp, Nat.succ_pos _⟩
      · have hi' : getIndex (w.take (pageOf q (q.matching w.entries.reverse))).entries id = some i := hi
        rw [hnext, hcursor, horder]
        refine ⟨by simp, ?_⟩
        simp only [hi', Option.getD_some]
        omega
  | next id =>
    -- A later page starts at the event of the cursor, whose index is known.
    obtain ⟨pre, x, post, hid, hindex, hfull, hgot⟩ := hc.next id hcursor
    have hstart : startIndex w.entries (some id) = some pre.length := by
      unfold startIndex
      rw [Option.bind_some, if_neg hid, hindex]
    refine ⟨_, by unfold World.step; rw [hcursor], ?_⟩
    cases horder : q.sortOrder with
    | timestamp =>
      rw [horder] at hgot
      obtain ⟨hix, hes, hreceived⟩ := hgot
      rw [searchEvents_asc horder hes (by rw [hstart]; rfl)]
      obtain ⟨hc', hend⟩ := take_asc hlimit horder hix hes hreceived hfull
      refine ⟨hc', ?_⟩
      have hlt' : pre.length < w.entries.length := by
        rw [hes, List.length_append, List.length_cons]
        omega
      unfold remaining
      rw [hcursor, horder]
      rcases hend with hdone | ⟨id', i, hnext, hi, hlt, hle⟩
      · rw [hdone]
        refine ⟨by simp, ?_⟩
        simp only [hindex, Option.getD_some]
        omega
      · have hi' : getIndex (w.take (pageOf q (q.matching (x :: post)))).entries id' = some i := hi
        have hlen : (w.take (pageOf q (q.matching (x :: post)))).entries.length = w.entries.length := rfl
        rw [hnext]
        refine ⟨by simp, ?_⟩
        simp only [hi', hindex, hlen, Option.getD_some]
        omega
    | timestampDesc =>
      rw [horder] at hgot
      obtain ⟨hix, hfirst, ⟨grown, hgrown⟩, hreceived⟩ := hgot
      have hfirst' : w.atFirst = (pre ++ [x]) ++ post := by
        rw [hfirst, List.append_assoc]
        rfl
      have hes : w.entries = (pre ++ [x]) ++ (post ++ grown) := by
        rw [← hgrown, hfirst', List.append_assoc]
      have hcursor' : ¬ w.cursor = .first := by simp [hcursor]
      rw [searchEvents_desc horder hes (by rw [hstart]; simp)]
      obtain ⟨hc', hend⟩ :=
        take_desc hlimit horder (if_neg hcursor') hix ⟨grown, hgrown⟩ hfirst' hreceived hfull
      refine ⟨hc', ?_⟩
      unfold remaining
      rw [hcursor, horder]
      rcases hend with hdone | ⟨id', i, hnext, hi, hlt⟩
      · rw [hdone]
        exact ⟨by simp, Nat.succ_pos _⟩
      · have hi' : getIndex (w.take (pageOf q (q.matching (pre ++ [x]).reverse))).entries id' = some i := hi
        rw [List.length_append, List.length_singleton] at hlt
        rw [hnext]
        refine ⟨by simp, ?_⟩
        simp only [hi', hindex, Option.getD_some]
        omega

end Request

/-! ## Appending -/

section Append
variable {q : Search} {w : World} {es : List Entry} {e : SearchedEvent}

theorem Indexed.grow {first : List Entry} (h : Indexed q first w.entries) (happend : append w.entries e = some es) :
    Indexed q first es := by
  intro i f hf hboundary
  obtain ⟨hne, hindex⟩ := h i f hf hboundary
  exact ⟨hne, getIndex_append happend hindex⟩

theorem Indexed.append (hasc : q.sortOrder = .timestamp) (h : Indexed q w.entries w.entries)
    (hid : q.accepts e = true → Boundary q w.entries w.entries.length → e.id ≠ "")
    (happend : append w.entries e = some es) : Indexed q es es := by
  have hes := (append_eq happend).2
  have hbefore : ∀ i, i ≤ w.entries.length → Boundary q es i → Boundary q w.entries i := by
    unfold Boundary
    rw [hasc, hes]
    intro i hi hb
    rwa [List.take_append_of_le_length hi] at hb
  intro i f hf hb
  by_cases hlt : i < w.entries.length
  · rw [hes, List.getElem?_append_left hlt] at hf
    obtain ⟨hne, hindex⟩ := h i f hf (hbefore i (Nat.le_of_lt hlt) hb)
    exact ⟨hne, getIndex_append happend hindex⟩
  · rw [hes, List.getElem?_append_right (Nat.le_of_not_lt hlt)] at hf
    obtain ⟨x, hx, hhit⟩ := Option.bind_eq_some_iff.1 hf
    have hi : i = w.entries.length := by
      have hone := (List.getElem?_eq_some_iff.1 hx).1
      rw [List.length_singleton] at hone
      omega
    subst hi
    rw [Nat.sub_self] at hx
    cases hx
    obtain ⟨hsome, haccepts⟩ := Option.filter_eq_some_iff.1 hhit
    cases hsome
    exact ⟨hid haccepts (hbefore _ (Nat.le_refl _) hb), getIndex_append_self happend⟩

theorem Consistent.append (h : Consistent q w) (hallowed : (Step.append e).Allowed q w)
    (happend : append w.entries e = some es) : Consistent q { w with entries := es } := by
  refine ⟨h.first, ?_, h.complete⟩
  intro id hcursor
  obtain ⟨pre, x, post, hne, hindex, hfull, hgot⟩ := h.next id hcursor
  have hes := (append_eq happend).2
  have hindex' := getIndex_append happend hindex
  cases horder : q.sortOrder with
  | timestamp =>
    rw [horder] at hgot
    obtain ⟨hix, hsplit, hreceived⟩ := hgot
    refine ⟨pre, x, post ++ [⟨(log w.entries).nextFile e.id, some e⟩], hne, hindex', hfull, ?_⟩
    rw [horder]
    refine ⟨hix.append horder (hallowed ⟨id, hcursor⟩ horder) happend, ?_, hreceived⟩
    show es = _
    rw [hes, hsplit, List.append_assoc, List.cons_append]
  | timestampDesc =>
    rw [horder] at hgot
    obtain ⟨hix, hsplit, hpre, hreceived⟩ := hgot
    refine ⟨pre, x, post, hne, hindex', hfull, ?_⟩
    rw [horder]
    refine ⟨hix.grow happend, hsplit, ?_, hreceived⟩
    show w.atFirst <+: es
    rw [hes]
    exact hpre.trans (List.prefix_append _ _)

end Append

/-! ## Whole runs -/

section Runs
variable {q : Search} {w : World}

theorem Consistent.init (q : Search) (es : List Entry) : Consistent q { entries := es } where
  first _ := rfl
  next _ hcursor := by cases hcursor
  complete hcursor := by cases hcursor

theorem Consistent.step (hlimit : 1 ≤ q.limit) {s : Step} {w' : World} (h : Consistent q w)
    (hallowed : s.Allowed q w) (hstep : World.step q w s = some w') : Consistent q w' := by
  cases s with
  | append e =>
    obtain ⟨es, hes, rfl⟩ := Option.map_eq_some_iff.1 hstep
    exact h.append hallowed hes
  | request =>
    have hgo : w.cursor ≠ .done := by
      intro hdone
      unfold World.step at hstep
      rw [hdone] at hstep
      cases hstep
    obtain ⟨v, hv, hc, -⟩ := h.request hlimit hgo hallowed
    rw [hv] at hstep
    cases hstep
    exact hc

/-- Requests alone come to an end. -/
theorem Consistent.ends (hlimit : 1 ≤ q.limit) (h : Consistent q w) (hstarted : w.cursor ≠ .first) :
    ∃ n w', exec (World.step q) w (List.replicate n .request) = some w' ∧ w'.cursor = .done := by
  -- by strong induction on the bound that every request lowers
  induction hm : remaining q w using Nat.strongRecOn generalizing w with
  | ind m ih =>
    by_cases hdone : w.cursor = .done
    · exact ⟨0, w, rfl, hdone⟩
    · obtain ⟨v, hv, hc, hgoes, hlt⟩ := h.request hlimit hdone fun hfirst => absurd hfirst hstarted
      obtain ⟨n, w', hexec, hw'⟩ := ih _ (hm ▸ hlt) hc hgoes rfl
      refine ⟨n + 1, w', ?_, hw'⟩
      rw [List.replicate_succ]
      exact Option.bind_eq_some_iff.2 ⟨v, hv, hexec⟩

/-- Following `next_page_id` loses and repeats nothing. -/
theorem pages_lossless {es : List Entry} (hlimit : 1 ≤ q.limit)
    (h : Reaches (World.step q) (fun w s => s.Allowed q w) { entries := es } w) : Lossless q w := by
  have hc : Consistent q w :=
    h.invariant (Consistent.init q es) fun _ _ _ hc hallowed hstep => hc.step hlimit hallowed hstep
  exact ⟨hc.complete, hc.ends hlimit⟩

end Runs

section Examples

/-- An event file of its own event. -/
def note (diskIdx : Nat) (id : EventID) (h : id ≠ rootParentId := by exact ne_rootParentId trivial) : Entry where
  file := ⟨diskIdx, id⟩
  event := some
    { id, body := .other "PauseEvent", notRoot := h, className := "PauseEvent", moduleName := "openhands.sdk.event",
      source := "user", timestamp := "2025-01-01T00:00:00" }

def late : SearchedEvent where
  id := "dddddddd"
  body := .other "PauseEvent"
  className := "PauseEvent"
  moduleName := "openhands.sdk.event"
  source := "user"
  timestamp := "2025-01-01T00:00:01"

/-- Pages of one event each. -/
def oneByOne : Search := { lower := id, limit := 1 }

/-- A log with an entry that cannot be read. -/
def holed : List Entry := [note 0 "aaaaaaaa", ⟨⟨1, "bbbbbbbb"⟩, none⟩, note 2 "cccccccc"]

theorem indexed_holed : Indexed oneByOne holed holed := by
  intro i e he _
  match i with
  | 0 =>
    cases he
    decide
  | 1 => cases he
  | 2 =>
    cases he
    decide
  | _ + 3 => cases he

/-- An event is appended between the first two requests. -/
theorem pages_lossless_holed :
    ∃ w, w.received.map (fun e => e.id) = ["aaaaaaaa", "cccccccc", "dddddddd"] ∧ w.cursor = .done ∧
      Lossless oneByOne w := by
  have h0 : Reaches (World.step oneByOne) (fun w s => s.Allowed oneByOne w) { entries := holed }
      { entries := holed } := .init
  have h1 := h0.step (a := Step.request) (fun _ => indexed_holed) rfl
  have h2 := h1.step (a := Step.append late) (fun _ _ _ _ => by decide) rfl
  have h3 := h2.step (a := Step.request) (fun hfirst => by cases hfirst) rfl
  have h4 := h3.step (a := Step.request) (fun hfirst => by cases hfirst) rfl
  exact ⟨_, by decide, by decide, pages_lossless (by decide) h4⟩

/-- A second file with a known id keeps its index in the log. -/
def twice : List Entry := [note 0 "aaaaaaaa", note 1 "bbbbbbbb", note 2 "aaaaaaaa"]

theorem request_twice {w w' : World} (hes : w.entries = twice)
    (hcursor : w.cursor = .next "aaaaaaaa" ∨ w.cursor = .next "bbbbbbbb")
    (h : World.step oneByOne w .request = some w') :
    w'.entries = twice ∧ (w'.cursor = .next "aaaaaaaa" ∨ w'.cursor = .next "bbbbbbbb") := by
  unfold World.step at h
  rcases hcursor with hcursor | hcursor <;> rw [hcursor, hes] at h <;> cases h
  · have hpage : (oneByOne.searchEvents twice (some "aaaaaaaa")).nextPageId = some "bbbbbbbb" := by decide +kernel
    exact ⟨hes, .inr (congrArg Cursor.ofPage hpage)⟩
  · have hpage : (oneByOne.searchEvents twice (some "bbbbbbbb")).nextPageId = some "aaaaaaaa" := by decide +kernel
    exact ⟨hes, .inl (congrArg Cursor.ofPage hpage)⟩

/-- The id of the third entry leads back to the first one, so that the client
goes round for ever. -/
theorem pages_repeat :
    ¬ ∀ (q : Search) (es : List Entry) (w : World), 1 ≤ q.limit →
      Reaches (World.step q) (fun _ _ => True) { entries := es } w → Lossless q w := by
  intro hall
  have hfirst : World.step oneByOne { entries := twice } .request =
      some (({ entries := twice } : World).take (oneByOne.searchEvents twice none)) := rfl
  have h0 : Reaches (World.step oneByOne) (fun _ _ => True) { entries := twice } { entries := twice } := .init
  have hreaches := h0.step trivial hfirst
  obtain ⟨-, hends⟩ := hall oneByOne twice _ (by decide) hreaches
  obtain ⟨n, w', hexec, hdone⟩ := hends (by decide +kernel)
  have hgoes : ∀ n (w w' : World), w.entries = twice →
      (w.cursor = .next "aaaaaaaa" ∨ w.cursor = .next "bbbbbbbb") →
      exec (World.step oneByOne) w (List.replicate n .request) = some w' → w'.cursor ≠ .done := by
    intro n
    induction n with
    | zero =>
      intro w w' _ hcursor hexec hdone
      cases hexec
      rw [hdone] at hcursor
      simp at hcursor
    | succ n ih =>
      intro w w' hes hcursor hexec
      obtain ⟨v, hv, hexec⟩ := Option.bind_eq_some_iff.1 hexec
      obtain ⟨hes', hcursor'⟩ := request_twice hes hcursor hv
      exact ih v w' hes' hcursor' hexec
  exact hgoes n _ w' rfl (.inr (by decide +kernel)) hexec hdone

end Examples

end AgentSdk.SearchPages
