import AgentSdk.Lib.Pages
import AgentSdk.Lib.Runs
import AgentSdk.Lib.Text
import Mathlib.Data.Char
import Mathlib.Data.List.Lex
import Mathlib.Data.List.Sort
/-!
# Pages of bash events

`BashEventService._search_bash_events_sync` and a client that follows `next_page_id`,
while event files are added and retention deletes old ones between its requests. A
file's name begins with its timestamp.
-/

namespace AgentSdk.BashEvents
open Lib Lib.Pages

/-- `<timestamp>_<kind>[_<command_id>]_<event_id>`. -/
abbrev FileName := List Char

/-- What the search reads of an event; only a `BashOutput` has an order. -/
structure BashEvent where
  order : Option Int
deriving DecidableEq

/-- The event files; nothing where a file cannot be read. -/
abbrev Files := List (FileName × Option BashEvent)

inductive BashEventSortOrder where
  | timestamp
  | timestampDesc
deriving DecidableEq

/-- The filters, with datetimes as their strings and ids as hex digits. -/
structure Search where
  kindEq : Option (List Char) := none
  commandIdEq : Option (List Char) := none
  timestampGte : Option (List Char) := none
  timestampLt : Option (List Char) := none
  orderGt : Option Int := none
  sortOrder : BashEventSortOrder := .timestamp
  limit : Nat := 100

structure BashEventPage where
  /-- Each event with the name of its file. -/
  items : List (FileName × BashEvent)
  nextPageId : Option FileName

namespace Search

/-- The filters on the name of a file. -/
def nameMatches (q : Search) (name : FileName) : Bool :=
  let parts := name.splitOn '_'
  if q.timestampGte.any fun gte => name < gte then false
  else if q.timestampLt.any fun lt => lt ≤ name then false
  else if q.kindEq.any fun kind => parts.length < 2 ∨ parts[1]? ≠ some kind then false
  else if q.commandIdEq.any fun id => parts.length < 4 ∨ parts[2]? ≠ some id then false
  else true

/-- The filter on the event. -/
def passes (q : Search) (e : BashEvent) : Bool :=
  match q.orderGt, e.order with
  | some gt, some order => gt < order
  | _, _ => true

def matched (q : Search) (files : Files) : List FileName :=
  let names := (files.map Prod.fst).filter q.nameMatches
  match q.sortOrder with
  | .timestamp => names.insertionSort (· ≤ ·)
  | .timestampDesc => names.insertionSort (· ≥ ·)

end Search

/-- `_load_event_from_file`. -/
def loadEvent (files : Files) (name : FileName) : Option BashEvent := (files.lookup name).join

/-- A cursor that is not found starts from the beginning. -/
def startIndex (matched : List FileName) : Option FileName → Nat
  | none => 0
  | some pageId => if pageId ∈ matched then matched.idxOf pageId else 0

/-- The loop over the names. -/
def collect (q : Search) (files : Files) : List FileName → List (FileName × BashEvent) → BashEventPage
  | [], items => ⟨items, none⟩
  | name :: names, items =>
    match loadEvent files name with
    | none => collect q files names items
    | some event =>
      if ¬ q.passes event then collect q files names items
      else if q.limit ≤ items.length then ⟨items, some name⟩
      else collect q files names (items ++ [(name, event)])

def searchBashEvents (q : Search) (files : Files) (pageId : Option FileName) : BashEventPage :=
  let matched := q.matched files
  collect q files (matched.drop (startIndex matched pageId)) []

/-- `delete_events_older_than`; some files cannot be deleted. -/
def deleteEventsOlderThan (files : Files) (cutoff : List Char) (failed : List FileName) : Files :=
  let old := ((files.map Prod.fst).insertionSort (· ≤ ·)).takeWhile (· < cutoff)
  files.filter fun f => f.1 ∉ old ∨ f.1 ∈ failed

/-! ## A client and the files -/

/-- The event of this name matches and can be read. -/
def hit (q : Search) (files : Files) (name : FileName) : Bool := (loadEvent files name).any q.passes

def hits (q : Search) (files : Files) : List FileName := (q.matched files).filter (hit q files)

/-- The names in the requested order. -/
def Before (q : Search) (x y : FileName) : Prop :=
  match q.sortOrder with
  | .timestamp => x < y
  | .timestampDesc => y < x

instance decidableBefore (q : Search) (x y : FileName) : Decidable (Before q x y) := by
  unfold Before
  split <;> infer_instance

/-- Kept for the statement only: `ever` are the files that there were, `steady` those
that match and can be read since the first request. -/
structure World where
  files : Files
  client : Client FileName := {}
  ever : List FileName
  steady : List FileName

def World.init (q : Search) (files : Files) : World := { files, ever := files.map Prod.fst, steady := hits q files }

inductive Step where
  /-- Under the name of a new event. -/
  | add (name : FileName) (event : Option BashEvent)
  | purge (cutoff : List Char) (failed : List FileName)
  | request

namespace World

/-- The files change. -/
def change (q : Search) (w : World) (files : Files) : World :=
  { w with
    files
    steady := if w.client.cursor = .first then hits q files else w.steady.filter (· ∈ hits q files) }

def request (q : Search) (w : World) : World :=
  let page := searchBashEvents q w.files w.client.cursor.pageId
  { w with client := w.client.take ⟨page.items.map Prod.fst, page.nextPageId⟩ }

def step (q : Search) (w : World) : Step → Option World
  | .add name event =>
    if name ∈ w.ever then none
    else some { w.change q ((name, event) :: w.files) with ever := name :: w.ever }
  | .purge cutoff failed => some (w.change q (deleteEventsOlderThan w.files cutoff failed))
  | .request => if w.client.cursor = .done then none else some (w.request q)

end World

/-- At a request the file of the cursor is still among those that match, or all events
come after it. -/
def Step.Allowed (q : Search) (w : World) : Step → Prop
  | .request => ∀ pageId ∈ w.client.cursor.pageId,
      pageId ∈ q.matched w.files ∨ ∀ x ∈ hits q w.files, Before q pageId x
  | _ => True

instance Step.decidableAllowed (q : Search) (w : World) (s : Step) : Decidable (s.Allowed q w) := by
  cases s <;> unfold Step.Allowed <;> infer_instance

/-! ## One page -/

section
variable {q : Search} {files : Files}

theorem ordered_before (q : Search) : Ordered (Before q) where
  irrefl x := by
    unfold Before
    split <;> exact lt_irrefl x
  trans := by
    intro x y z
    unfold Before
    split
    · exact lt_trans
    · exact fun hxy hyz => lt_trans hyz hxy

theorem mem_matched {name : FileName} : name ∈ q.matched files ↔ name ∈ files.map Prod.fst ∧ q.nameMatches name = true := by
  unfold Search.matched
  split <;> rw [List.mem_insertionSort, List.mem_filter]

theorem sorted_matched (hfiles : (files.map Prod.fst).Nodup) : (q.matched files).Pairwise (Before q) := by
  have hnodup := hfiles.filter q.nameMatches
  unfold Search.matched Before
  cases q.sortOrder with
  | timestamp =>
    have hsorted := List.pairwise_insertionSort (· ≤ ·) ((files.map Prod.fst).filter q.nameMatches)
    have hdistinct := (List.perm_insertionSort (· ≤ ·) _).nodup_iff.2 hnodup
    exact (hsorted.and hdistinct).imp fun h => lt_of_le_of_ne h.1 h.2
  | timestampDesc =>
    have hsorted := List.pairwise_insertionSort (· ≥ ·) ((files.map Prod.fst).filter q.nameMatches)
    have hdistinct := (List.perm_insertionSort (· ≥ ·) _).nodup_iff.2 hnodup
    exact (hsorted.and hdistinct).imp fun h => lt_of_le_of_ne h.1 h.2.symm

theorem collect_spec (q : Search) (files : Files) (names : List FileName) (items : List (FileName × BashEvent)) :
    ∃ mid post, names = mid ++ post ∧
      (collect q files names items).items.map Prod.fst = items.map Prod.fst ++ mid.filter (hit q files) ∧
      (collect q files names items).nextPageId = post.head? ∧
      (post ≠ [] → q.limit ≤ (collect q files names items).items.length) := by
  induction names generalizing items with
  | nil => exact ⟨[], [], rfl, by simp [collect], rfl, fun h => absurd rfl h⟩
  | cons name names ih =>
    unfold collect
    split
    · rename_i hload
      obtain ⟨mid, post, rfl, hitems, hnext, hfull⟩ := ih items
      refine ⟨name :: mid, post, rfl, ?_, hnext, hfull⟩
      rw [hitems, List.filter_cons_of_neg (by simp [hit, hload])]
    · rename_i event hload
      split
      · rename_i hpass
        obtain ⟨mid, post, rfl, hitems, hnext, hfull⟩ := ih items
        refine ⟨name :: mid, post, rfl, ?_, hnext, hfull⟩
        rw [hitems, List.filter_cons_of_neg (by simpa [hit, hload] using hpass)]
      split
      · rename_i hlimit
        exact ⟨[], name :: names, rfl, by simp, rfl, fun _ => hlimit⟩
      · rename_i hpass _
        obtain ⟨mid, post, rfl, hitems, hnext, hfull⟩ := ih (items ++ [(name, event)])
        refine ⟨name :: mid, post, rfl, ?_, hnext, hfull⟩
        rw [hitems, List.filter_cons_of_pos (by simpa [hit, hload] using hpass)]
        simp

/-- What is skipped comes before the cursor, if the cursor is found. -/
theorem drop_startIndex (names : List FileName) (pageId : Option FileName) :
    (∀ id ∈ pageId, id ∉ names) ∧ names.drop (startIndex names pageId) = names ∨
      ∃ id pre post, pageId = some id ∧ names = pre ++ id :: post ∧ names.drop (startIndex names pageId) = id :: post := by
  cases pageId with
  | none => exact .inl ⟨nofun, rfl⟩
  | some id =>
    by_cases hid : id ∈ names
    · obtain ⟨pre, post, rfl, hpre⟩ := List.eq_append_cons_of_mem hid
      refine .inr ⟨id, pre, post, rfl, rfl, ?_⟩
      rw [startIndex, if_pos hid, List.idxOf_append_of_notMem hpre, List.idxOf_cons_self]
      simp
    · refine .inl ⟨?_, ?_⟩
      · rintro _ ⟨⟩
        exact hid
      · rw [startIndex, if_neg hid, List.drop_zero]

theorem mem_hits {name : FileName} : name ∈ hits q files ↔ name ∈ q.matched files ∧ hit q files name = true :=
  List.mem_filter

end

/-! ## Runs -/

section
variable {q : Search} {w w' : World}

structure Consistent (q : Search) (w : World) : Prop where
  distinct : (w.files.map Prod.fst).Nodup
  known : ∀ f ∈ w.files, f.1 ∈ w.ever
  steady : ∀ x ∈ w.steady, x ∈ hits q w.files
  got : Got (Before q) w.ever w.steady w.client

theorem consistent_init (q : Search) {files : Files} (hfiles : (files.map Prod.fst).Nodup) :
    Consistent q (World.init q files) where
  distinct := hfiles
  known _ hf := List.mem_map_of_mem hf
  steady _ hx := hx
  got := got_init _ _

theorem Consistent.change (h : Consistent q w) {files : Files} {ever : List FileName}
    (hdistinct : (files.map Prod.fst).Nodup) (hknown : ∀ f ∈ files, f.1 ∈ ever) (hever : ∀ x ∈ w.ever, x ∈ ever) :
    Consistent q { w.change q files with ever } where
  distinct := hdistinct
  known := hknown
  steady x hx := by
    unfold World.change at hx
    dsimp only at hx
    split at hx
    · exact hx
    · exact of_decide_eq_true (List.mem_filter.1 hx).2
  got := by
    refine h.got.change hever ?_
    by_cases hfirst : w.client.cursor = .first
    · exact .inl hfirst
    · refine .inr fun x hx => ?_
      simp only [World.change, if_neg hfirst] at hx
      exact List.mem_of_mem_filter hx

theorem Consistent.request (hlimit : 1 ≤ q.limit) (h : Consistent q w) (hok : Step.request.Allowed q w)
    (hgo : w.client.cursor ≠ .done) : Consistent q (w.request q) where
  distinct := h.distinct
  known := h.known
  steady := h.steady
  got := by
    obtain ⟨mid, post, hrest, hitems, hnext, hfull⟩ := collect_spec q w.files
      ((q.matched w.files).drop (startIndex (q.matched w.files) w.client.cursor.pageId)) []
    have hpage : IsPage (hit q w.files) ((q.matched w.files).drop (startIndex (q.matched w.files) w.client.cursor.pageId))
        ⟨(searchBashEvents q w.files w.client.cursor.pageId).items.map Prod.fst,
          (searchBashEvents q w.files w.client.cursor.pageId).nextPageId⟩ := by
      refine ⟨mid, post, hrest, hitems, hnext, fun hpost hnil => ?_⟩
      have hlen := hfull hpost
      have hzero := congrArg List.length hnil
      rw [List.length_map] at hzero
      exact absurd (hlimit.trans hlen) (by rw [show (collect q w.files _ []).items.length = 0 from hzero]; decide)
    have hsorted := sorted_matched (q := q) h.distinct
    have hever : ∀ x ∈ q.matched w.files, x ∈ w.ever := by
      intro x hx
      obtain ⟨f, hf, rfl⟩ := List.mem_map.1 (mem_matched.1 hx).1
      exact h.known f hf
    have hsteady : ∀ x ∈ w.steady, x ∈ q.matched w.files ∧ hit q w.files x = true := fun x hx => mem_hits.1 (h.steady x hx)
    rcases drop_startIndex (q.matched w.files) w.client.cursor.pageId with ⟨hmissing, hdrop⟩ |
      ⟨id, pre, post', hid, hsplit, hdrop⟩
    · rw [hdrop] at hpage
      refine h.got.take (ordered_before q) hgo (List.nil_append _).symm hsorted hever hsteady
        (fun x hx => absurd hx List.not_mem_nil) (fun id hid x hx hxhit => ?_) hpage
      have hid' := Cursor.pageId_eq_some.2 hid
      rcases hok id hid' with hmem | hno
      · exact absurd hmem (hmissing id hid')
      · exact .inr (hno x (mem_hits.2 ⟨hx, hxhit⟩))
    · rw [hdrop] at hpage
      rw [hsplit] at hsorted
      obtain ⟨-, hpost', hcross⟩ := List.pairwise_append.1 hsorted
      have hcursor := Cursor.pageId_eq_some.1 hid
      refine h.got.take (ordered_before q) hgo hsplit (hsplit ▸ hsorted) hever hsteady
        (fun x hx _ => ⟨id, hcursor, hcross x hx id (List.mem_cons_self ..)⟩) (fun id' hid' x hx _ => ?_) hpage
      obtain rfl : id = id' := by simpa [hcursor] using hid'
      rcases List.mem_cons.1 hx with rfl | hx
      · exact .inl rfl
      · exact .inr (List.rel_of_pairwise_cons hpost' hx)

theorem Consistent.step (hlimit : 1 ≤ q.limit) (h : Consistent q w) {s : Step} (hok : s.Allowed q w)
    (hstep : w.step q s = some w') : Consistent q w' := by
  cases s with
  | add name event =>
    unfold World.step at hstep
    dsimp only at hstep
    split at hstep
    · cases hstep
    · rename_i hnew
      cases hstep
      refine h.change ?_ ?_ fun x hx => List.mem_cons_of_mem name hx
      · refine List.nodup_cons.2 ⟨fun hmem => ?_, h.distinct⟩
        obtain ⟨f, hf, rfl⟩ := List.mem_map.1 hmem
        exact hnew (h.known f hf)
      · intro f hf
        rcases List.mem_cons.1 hf with rfl | hf
        · exact List.mem_cons_self ..
        · exact List.mem_cons_of_mem name (h.known f hf)
  | purge cutoff failed =>
    cases hstep
    refine h.change ?_ (fun f hf => h.known f (List.mem_of_mem_filter hf)) fun x hx => hx
    exact h.distinct.sublist (List.filter_sublist.map Prod.fst)
  | request =>
    unfold World.step at hstep
    dsimp only at hstep
    split at hstep
    · cases hstep
    · rename_i hgo
      cases hstep
      exact h.request hlimit hok hgo

/-- Following `next_page_id` loses and repeats no event. -/
theorem event_pages_lossless (hlimit : 1 ≤ q.limit) {files : Files} (hfiles : (files.map Prod.fst).Nodup)
    (h : Reaches (World.step q) (fun w s => s.Allowed q w) (World.init q files) w) :
    Lossless (Before q) w.ever w.steady w.client := by
  have hc : Consistent q w :=
    h.invariant (consistent_init q hfiles) fun _ _ _ hc hok hstep => hc.step hlimit hok hstep
  exact hc.got.lossless (ordered_before q)

end

section Examples

/-- The file of a command, by its time and its id. -/
def command (time id : Char) : FileName := [time, '_', 'B', 'a', 's', 'h', 'C', 'o', 'm', 'm', 'a', 'n', 'd', '_', id]

def fileOf (name : FileName) : FileName × Option BashEvent := (name, some ⟨none⟩)

/-- Pages of one event each. -/
def oneByOne : Search := { limit := 1 }

def firstThree : Files := [fileOf (command '2' 'b'), fileOf (command '1' 'a'), fileOf (command '3' 'c')]

/-- Retention deletes the file of the cursor and all before it, and a file is added. -/
def purged : List Step := [.request, .purge ['3'] [], .add (command '4' 'd') (some ⟨none⟩), .request, .request]

theorem event_pages_purged : ∃ w, execAllowed (World.step oneByOne) (fun w s => s.Allowed oneByOne w)
      (World.init oneByOne firstThree) purged = some w ∧
    w.client.received = [command '1' 'a', command '3' 'c', command '4' 'd'] ∧ w.client.cursor = .done ∧
      Lossless (Before oneByOne) w.ever w.steady w.client := by
  have hrun : (execAllowed (World.step oneByOne) (fun w s => s.Allowed oneByOne w) (World.init oneByOne firstThree)
      purged).map (fun w => (w.client.received, w.client.cursor)) =
      some ([command '1' 'a', command '3' 'c', command '4' 'd'], .done) := by decide +kernel
  obtain ⟨w, hw, hw'⟩ := Option.map_eq_some_iff.1 hrun
  obtain ⟨hreceived, hcursor⟩ := Prod.mk.inj hw'
  exact ⟨w, hw, hreceived, hcursor, event_pages_lossless (by decide) (by decide) (reaches_of_execAllowed .init hw)⟩

/-- In descending order the purge leaves the events that came before the cursor: they
come again. -/
theorem event_pages_repeat : ∃ w, exec (World.step { sortOrder := .timestampDesc, limit := 1 })
      (World.init { sortOrder := .timestampDesc, limit := 1 } firstThree) [.request, .purge ['3'] [], .request] = some w ∧
    ¬ w.client.received.Nodup := by
  have hrun : (exec (World.step { sortOrder := .timestampDesc, limit := 1 })
      (World.init { sortOrder := .timestampDesc, limit := 1 } firstThree) [.request, .purge ['3'] [], .request]).map
      (fun w => w.client.received) = some [command '3' 'c', command '3' 'c'] := by decide +kernel
  obtain ⟨w, hw, hw'⟩ := Option.map_eq_some_iff.1 hrun
  refine ⟨w, hw, ?_⟩
  rw [hw']
  decide

end Examples

end AgentSdk.BashEvents
