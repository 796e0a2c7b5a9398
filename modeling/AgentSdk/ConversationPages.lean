import AgentSdk.Lib.Pages
import AgentSdk.Lib.Runs
/-!
# Pages of conversations

`ConversationService._search_conversations` and a client that follows `next_page_id`,
while conversations are created, deleted, change their status or become unreadable
between its requests.
-/

namespace AgentSdk.ConversationPages
open Lib Lib.Pages

abbrev ConversationID := Nat

/-- What does not change about a conversation; `place` is its place in the order in
which conversations were created, kept for the statement only. -/
structure Key where
  id : ConversationID
  createdAt : Int
  place : Nat
deriving DecidableEq

variable {σ : Type} [DecidableEq σ]

/-- A catalog record: `executionStatus` is the cached status, `current` the one the
conversation has; `readable` is whether its state can be read. -/
structure ConversationRecord (σ : Type) extends Key where
  executionStatus : σ
  current : σ
  readable : Bool

/-- The orders by creation. -/
inductive ConversationSortOrder where
  | createdAt
  | createdAtDesc
deriving DecidableEq

structure Search (σ : Type) where
  executionStatus : Option σ := none
  sortOrder : ConversationSortOrder := .createdAtDesc
  limit : Nat := 100

/-- `_refresh_execution_statuses`: what cannot be read keeps its status. -/
def refreshExecutionStatuses (records : List (ConversationRecord σ)) : List (ConversationRecord σ) :=
  records.map fun r => if r.readable then { r with executionStatus := r.current } else r

/-- The records the search sees. -/
def Search.refreshed (q : Search σ) (records : List (ConversationRecord σ)) : List (ConversationRecord σ) :=
  if q.executionStatus.isSome then refreshExecutionStatuses records else records

/-- Filtered by status and sorted; both orders keep the records of one time as they are. -/
def Search.matched (q : Search σ) (records : List (ConversationRecord σ)) : List (ConversationRecord σ) :=
  let found := records.filter fun r => q.executionStatus.all fun status => r.executionStatus = status
  match q.sortOrder with
  | .createdAt => found.insertionSort fun r s => r.createdAt ≤ s.createdAt
  | .createdAtDesc => found.insertionSort fun r s => r.createdAt ≥ s.createdAt

/-- A cursor that is not found starts from the beginning. -/
def startIndex (records : List (ConversationRecord σ)) : Option ConversationID → Nat
  | none => 0
  | some pageId => (records.findIdx? fun r => r.id = pageId).getD 0

/-- The loop over the records: the items, and the record whose id is `next_page_id`. -/
def collect (limit : Nat) : List (ConversationRecord σ) → List (ConversationRecord σ) →
    List (ConversationRecord σ) × Option (ConversationRecord σ)
  | [], items => (items, none)
  | r :: rs, items =>
    if limit ≤ items.length then (items, some r)
    else collect limit rs (if r.readable then items ++ [r] else items)

def searchConversations (q : Search σ) (records : List (ConversationRecord σ)) (pageId : Option ConversationID) :
    List (ConversationRecord σ) × Option (ConversationRecord σ) :=
  let matched := q.matched records
  collect q.limit (matched.drop (startIndex matched pageId)) []

/-! ## A client and the catalog -/

/-- The conversations that match and can be read, in the requested order. -/
def hits (q : Search σ) (records : List (ConversationRecord σ)) : List Key :=
  ((q.matched (q.refreshed records)).filter fun r => r.readable).map ConversationRecord.toKey

def Before (q : Search σ) (x y : Key) : Prop :=
  match q.sortOrder with
  | .createdAt => x.createdAt < y.createdAt ∨ x.createdAt = y.createdAt ∧ x.place < y.place
  | .createdAtDesc => y.createdAt < x.createdAt ∨ x.createdAt = y.createdAt ∧ x.place < y.place

instance decidableBefore (q : Search σ) (x y : Key) : Decidable (Before q x y) := by
  unfold Before
  split <;> infer_instance

/-- Kept for the statement only: `ever` are the conversations that there were, `steady`
those that match and can be read since the first request. -/
structure World (σ : Type) where
  records : List (ConversationRecord σ)
  client : Client Key := {}
  ever : List Key
  steady : List Key

inductive Step (σ : Type) where
  | create (id : ConversationID) (createdAt : Int) (status : σ) (readable : Bool)
  | delete (id : ConversationID)
  | setStatus (id : ConversationID) (status : σ)
  | setReadable (id : ConversationID) (readable : Bool)
  | request

namespace World

def init : World σ := { records := [], ever := [], steady := [] }

/-- The catalog changes. -/
def change (q : Search σ) (w : World σ) (records : List (ConversationRecord σ)) : World σ :=
  { w with
    records
    steady := if w.client.cursor = .first then hits q records else w.steady.filter (· ∈ hits q records) }

/-- What is read for a page refreshes the cached statuses as well. -/
def request (q : Search σ) (w : World σ) : World σ :=
  let records := q.refreshed w.records
  let page := searchConversations q records (w.client.cursor.pageId.map Key.id)
  { w with
    records := records.map fun r =>
      if r.toKey ∈ page.1.map ConversationRecord.toKey then { r with executionStatus := r.current } else r
    client := w.client.take ⟨page.1.map ConversationRecord.toKey, page.2.map ConversationRecord.toKey⟩ }

def step (q : Search σ) (w : World σ) : Step σ → Option (World σ)
  | .create id createdAt status readable =>
    if id ∈ w.records.map (fun r => r.id) then none
    else
      let record : ConversationRecord σ := ⟨⟨id, createdAt, w.ever.length⟩, status, status, readable⟩
      some { w.change q (w.records ++ [record]) with ever := w.ever ++ [record.toKey] }
  | .delete id => some (w.change q (w.records.filter fun r => r.id ≠ id))
  | .setStatus id status => some (w.change q (w.records.map fun r => if r.id = id then { r with current := status } else r))
  | .setReadable id readable =>
    some (w.change q (w.records.map fun r => if r.id = id then { r with readable } else r))
  | .request => if w.client.cursor = .done then none else some (w.request q)

end World

/-- At a request the conversation of the cursor is still among the records that match,
or none of them has its id and all that can be read come after it. -/
def Step.Allowed (q : Search σ) (w : World σ) : Step σ → Prop
  | .request => ∀ key ∈ w.client.cursor.pageId,
      key ∈ (q.matched (q.refreshed w.records)).map ConversationRecord.toKey ∨
        (∀ r ∈ q.matched (q.refreshed w.records), r.id ≠ key.id) ∧ ∀ x ∈ hits q w.records, Before q key x
  | _ => True

instance Step.decidableAllowed (q : Search σ) (w : World σ) (s : Step σ) : Decidable (s.Allowed q w) := by
  cases s <;> unfold Step.Allowed <;> infer_instance

/-! ## The listing -/

section
variable {q : Search σ} {records : List (ConversationRecord σ)} {r : ConversationRecord σ}

omit [DecidableEq σ] in
theorem ordered_before (q : Search σ) : Ordered (Before q) where
  irrefl x := by
    unfold Before
    split <;> omega
  trans := by
    intro x y z
    unfold Before
    split <;> omega

/-- Nothing but the cached status changes. -/
def KeepsAll (f : ConversationRecord σ → ConversationRecord σ) : Prop :=
  ∀ r, ∃ status, f r = { r with executionStatus := status }

omit [DecidableEq σ] in
theorem KeepsAll.toKey {f : ConversationRecord σ → ConversationRecord σ} (hf : KeepsAll f) (r : ConversationRecord σ) :
    (f r).toKey = r.toKey := by
  obtain ⟨status, hr⟩ := hf r
  rw [hr]

omit [DecidableEq σ] in
theorem keepsAll_if (p : ConversationRecord σ → Prop) [DecidablePred p] :
    KeepsAll fun r => if p r then { r with executionStatus := r.current } else r := by
  intro r
  dsimp only
  split
  · exact ⟨r.current, rfl⟩
  · exact ⟨r.executionStatus, rfl⟩

omit [DecidableEq σ] in
theorem refreshed_eq_map (q : Search σ) (records : List (ConversationRecord σ)) :
    ∃ f, KeepsAll f ∧ q.refreshed records = records.map f := by
  unfold Search.refreshed refreshExecutionStatuses
  split
  · exact ⟨_, keepsAll_if fun r => r.readable = true, rfl⟩
  · exact ⟨id, fun r => ⟨r.executionStatus, rfl⟩, List.map_id _ |>.symm⟩

theorem mem_matched : r ∈ q.matched records ↔ r ∈ records ∧ ∀ status ∈ q.executionStatus, r.executionStatus = status := by
  have hall : (q.executionStatus.all fun status => r.executionStatus = status) = true ↔
      ∀ status ∈ q.executionStatus, r.executionStatus = status := by
    cases q.executionStatus <;> simp
  unfold Search.matched
  split <;> rw [List.mem_insertionSort, List.mem_filter, hall]

omit [DecidableEq σ] in
theorem mem_refreshed : r ∈ q.refreshed records → ∃ r₀ ∈ records, r.toKey = r₀.toKey ∧ r.current = r₀.current ∧
    r.readable = r₀.readable ∧ (r.readable = true → q.executionStatus.isSome = true → r.executionStatus = r₀.current) := by
  unfold Search.refreshed refreshExecutionStatuses
  intro h
  split at h
  · obtain ⟨r₀, hr₀, rfl⟩ := List.mem_map.1 h
    refine ⟨r₀, hr₀, ?_⟩
    split
    · exact ⟨rfl, rfl, rfl, fun _ _ => rfl⟩
    · rename_i hnot
      exact ⟨rfl, rfl, rfl, fun hr => absurd hr hnot⟩
  · rename_i hnone
    exact ⟨r, h, rfl, rfl, rfl, fun _ hsome => absurd hsome hnone⟩

/-- What is a hit depends on the status a conversation has, not on the cached one. -/
theorem mem_hits {key : Key} : key ∈ hits q records ↔
    ∃ r ∈ records, r.toKey = key ∧ r.readable = true ∧ ∀ status ∈ q.executionStatus, r.current = status := by
  unfold hits
  simp only [List.mem_map, List.mem_filter, mem_matched]
  constructor
  · rintro ⟨r, ⟨⟨hr, hstatus⟩, hreadable⟩, rfl⟩
    obtain ⟨r₀, hr₀, hkey, -, hreadable₀, hcurrent⟩ := mem_refreshed hr
    refine ⟨r₀, hr₀, hkey.symm, hreadable₀ ▸ hreadable, fun status hs => ?_⟩
    rw [← hcurrent hreadable (by rw [Option.mem_def.1 hs]; rfl)]
    exact hstatus status hs
  · rintro ⟨r, hr, rfl, hreadable, hstatus⟩
    unfold Search.refreshed refreshExecutionStatuses
    split
    · refine ⟨{ r with executionStatus := r.current }, ⟨⟨List.mem_map.2 ⟨r, hr, if_pos hreadable⟩, hstatus⟩, hreadable⟩, rfl⟩
    · rename_i hnone
      exact ⟨r, ⟨⟨hr, fun status hs => absurd (by rw [Option.mem_def.1 hs]; rfl) hnone⟩, hreadable⟩, rfl⟩

theorem mem_hits_map {f : ConversationRecord σ → ConversationRecord σ} (hf : KeepsAll f) {key : Key} :
    key ∈ hits q (records.map f) ↔ key ∈ hits q records := by
  rw [mem_hits, mem_hits]
  constructor
  · rintro ⟨r', hr', hkey, hreadable, hstatus⟩
    obtain ⟨r, hr, rfl⟩ := List.mem_map.1 hr'
    obtain ⟨status, hfr⟩ := hf r
    rw [hfr] at hkey hreadable hstatus
    exact ⟨r, hr, hkey, hreadable, hstatus⟩
  · rintro ⟨r, hr, hkey, hreadable, hstatus⟩
    obtain ⟨status, hfr⟩ := hf r
    refine ⟨f r, List.mem_map_of_mem hr, ?_⟩
    rw [hfr]
    exact ⟨hkey, hreadable, hstatus⟩

theorem nodup_matched (hdistinct : (records.map fun r => r.id).Nodup) : ((q.matched records).map fun r => r.id).Nodup := by
  have hfound := hdistinct.sublist (List.filter_sublist.map _ :
    ((records.filter fun r => q.executionStatus.all fun status => r.executionStatus = status).map fun r => r.id).Sublist _)
  unfold Search.matched
  split <;> exact ((List.perm_insertionSort _ _).map _).nodup_iff.2 hfound

/-- The listing is in the requested order where the catalog is in the order of creation. -/
theorem sorted_matched (hplaces : (records.map fun r => r.place).Pairwise (· < ·)) :
    ((q.matched records).map ConversationRecord.toKey).Pairwise (Before q) := by
  have hfound := (List.pairwise_map.1 hplaces).filter fun r =>
    q.executionStatus.all fun status => r.executionStatus = status
  rw [List.pairwise_map]
  unfold Search.matched Before
  cases q.sortOrder with
  | createdAt =>
    have hsorted := @pairwise_insertionSort_stable _ (fun r s : ConversationRecord σ => r.createdAt ≤ s.createdAt) _ _
      (fun a b => Int.le_total _ _) Int.le_trans _ hfound
    refine hsorted.imp ?_
    intro a b hab
    rcases Int.lt_or_eq_of_le hab.1 with hlt | heq
    · exact .inl hlt
    · exact .inr ⟨heq, hab.2 (Int.le_of_eq heq.symm)⟩
  | createdAtDesc =>
    have hsorted := @pairwise_insertionSort_stable _ (fun r s : ConversationRecord σ => r.createdAt ≥ s.createdAt) _ _
      (fun a b => Int.le_total _ _) (fun hab hbc => Int.le_trans hbc hab) _ hfound
    refine hsorted.imp ?_
    intro a b hab
    rcases Int.lt_or_eq_of_le hab.1 with hlt | heq
    · exact .inl hlt
    · exact .inr ⟨heq.symm, hab.2 (Int.le_of_eq heq.symm)⟩

omit [DecidableEq σ] in
theorem collect_spec (limit : Nat) (rs items : List (ConversationRecord σ)) : ∃ mid post, rs = mid ++ post ∧
    (collect limit rs items).1 = items ++ mid.filter (fun r => r.readable) ∧ (collect limit rs items).2 = post.head? ∧
    (post ≠ [] → limit ≤ (collect limit rs items).1.length) := by
  induction rs generalizing items with
  | nil => exact ⟨[], [], rfl, by simp [collect], rfl, fun h => absurd rfl h⟩
  | cons r rs ih =>
    unfold collect
    split
    · rename_i hlimit
      exact ⟨[], r :: rs, rfl, by simp, rfl, fun _ => hlimit⟩
    · obtain ⟨mid, post, rfl, hitems, hnext, hfull⟩ := ih (if r.readable then items ++ [r] else items)
      refine ⟨r :: mid, post, rfl, ?_, hnext, hfull⟩
      rw [hitems]
      cases hr : r.readable <;> simp [hr]

omit [DecidableEq σ] in
/-- What is skipped stands before the record of the cursor, if there is one. -/
theorem drop_startIndex (rs : List (ConversationRecord σ)) (pageId : Option ConversationID) :
    (∀ id ∈ pageId, ∀ r ∈ rs, r.id ≠ id) ∧ rs.drop (startIndex rs pageId) = rs ∨
      ∃ id pre r post, pageId = some id ∧ rs = pre ++ r :: post ∧ r.id = id ∧
        rs.drop (startIndex rs pageId) = r :: post := by
  cases pageId with
  | none => exact .inl ⟨nofun, rfl⟩
  | some id =>
    cases hfind : rs.findIdx? fun r => r.id = id with
    | none =>
      refine .inl ⟨?_, by rw [startIndex, hfind]; rfl⟩
      rintro _ ⟨⟩ r hr heq
      simpa [heq] using List.findIdx?_eq_none_iff.1 hfind r hr
    | some i =>
      obtain ⟨hlt, hid, -⟩ := List.findIdx?_eq_some_iff_getElem.1 hfind
      have hsplit := List.drop_eq_getElem_cons hlt
      refine .inr ⟨id, rs.take i, rs[i], rs.drop (i + 1), rfl, ?_, by simpa using hid, ?_⟩
      · rw [← hsplit, List.take_append_drop]
      · rw [startIndex, hfind]
        exact hsplit

end

/-! ## Runs -/

section
variable {q : Search σ} {w w' : World σ}

structure Consistent (q : Search σ) (w : World σ) : Prop where
  distinct : (w.records.map fun r => r.id).Nodup
  places : (w.records.map fun r => r.place).Pairwise (· < ·)
  known : ∀ r ∈ w.records, r.toKey ∈ w.ever
  bounded : ∀ key ∈ w.ever, key.place < w.ever.length
  steady : ∀ x ∈ w.steady, x ∈ hits q w.records
  got : Got (Before q) w.ever w.steady w.client

theorem consistent_init (q : Search σ) : Consistent q (World.init : World σ) where
  distinct := List.nodup_nil
  places := .nil
  known _ h := absurd h List.not_mem_nil
  bounded _ h := absurd h List.not_mem_nil
  steady _ h := absurd h List.not_mem_nil
  got := got_init _ _

theorem Consistent.change (h : Consistent q w) {records : List (ConversationRecord σ)} {ever : List Key}
    (hdistinct : (records.map fun r => r.id).Nodup) (hplaces : (records.map fun r => r.place).Pairwise (· < ·))
    (hknown : ∀ r ∈ records, r.toKey ∈ ever) (hbounded : ∀ key ∈ ever, key.place < ever.length)
    (hever : ∀ x ∈ w.ever, x ∈ ever) : Consistent q { w.change q records with ever } where
  distinct := hdistinct
  places := hplaces
  known := hknown
  bounded := hbounded
  steady x hx := by
    unfold World.change at hx
    dsimp only at hx
    split at hx
    · exact hx
    · exact of_decide_eq_true (List.mem_filter.1 hx).2
  got := by
    refine h.got.change hever ?_
    by_cases hfirst : w.client.cursor = .first
    · exact .inl hfirst
    · refine .inr fun x hx => ?_
      simp only [World.change, if_neg hfirst] at hx
      exact List.mem_of_mem_filter hx

/-- Records change other than by their keys. -/
theorem Consistent.maps (h : Consistent q w) {f : ConversationRecord σ → ConversationRecord σ}
    (hf : ∀ r, (f r).toKey = r.toKey) : ((w.records.map f).map fun r => r.id).Nodup ∧
      ((w.records.map f).map fun r => r.place).Pairwise (· < ·) ∧ ∀ r ∈ w.records.map f, r.toKey ∈ w.ever := by
  have hid : (fun r : ConversationRecord σ => r.id) ∘ f = fun r => r.id := funext fun r => congrArg Key.id (hf r)
  have hplace : (fun r : ConversationRecord σ => r.place) ∘ f = fun r => r.place :=
    funext fun r => congrArg Key.place (hf r)
  rw [List.map_map, List.map_map, hid, hplace]
  refine ⟨h.distinct, h.places, ?_⟩
  intro r hr
  obtain ⟨r₀, hr₀, rfl⟩ := List.mem_map.1 hr
  rw [hf]
  exact h.known r₀ hr₀

theorem Consistent.update (h : Consistent q w) {f : ConversationRecord σ → ConversationRecord σ}
    (hf : ∀ r, (f r).toKey = r.toKey) : Consistent q (w.change q (w.records.map f)) :=
  have ⟨hdistinct, hplaces, hknown⟩ := h.maps hf
  Consistent.change h hdistinct hplaces hknown h.bounded fun _ hx => hx

omit [DecidableEq σ] in
/-- A page of records is the page of their keys. -/
theorem isPage_keys {limit : Nat} {rest : List (ConversationRecord σ)} {hit : Key → Bool} (hlimit : 1 ≤ limit)
    (hhit : ∀ r ∈ rest, hit r.toKey = r.readable) : IsPage hit (rest.map ConversationRecord.toKey)
      ⟨(collect limit rest []).1.map ConversationRecord.toKey, (collect limit rest []).2.map ConversationRecord.toKey⟩ := by
  obtain ⟨mid, post, rfl, hitems, hnext, hfull⟩ := collect_spec limit rest []
  refine ⟨mid.map ConversationRecord.toKey, post.map ConversationRecord.toKey, List.map_append, ?_, ?_, ?_⟩
  · rw [hitems, List.nil_append, List.filter_map]
    refine congrArg _ (List.filter_congr fun r hr => ?_)
    exact (hhit r (List.mem_append_left post hr)).symm
  · rw [hnext, List.head?_map]
  · intro hpost hnil
    have hlen := hfull fun h => hpost (congrArg _ h)
    have hzero := List.map_eq_nil_iff.1 hnil
    rw [hzero] at hlen
    exact absurd (hlimit.trans hlen) (by simp)

/-- Cached statuses change. -/
theorem Consistent.keep (h : Consistent q w) {f : ConversationRecord σ → ConversationRecord σ} (hf : KeepsAll f) :
    Consistent q { w with records := w.records.map f } :=
  have ⟨hdistinct, hplaces, hknown⟩ := h.maps hf.toKey
  ⟨hdistinct, hplaces, hknown, h.bounded, fun x hx => (mem_hits_map hf).2 (h.steady x hx), h.got⟩

theorem Got.request (hlimit : 1 ≤ q.limit) (h : Consistent q w) (hok : Step.request.Allowed q w)
    (hgo : w.client.cursor ≠ .done) : Got (Before q) w.ever w.steady (w.request q).client := by
  obtain ⟨f, hf, hrefreshed⟩ := refreshed_eq_map q w.records
  obtain ⟨hids, hplaces, hknown⟩ := h.maps hf.toKey
  rw [← hrefreshed] at hids hplaces hknown
  have hdistinct := nodup_matched (q := q) hids
  have hsorted := sorted_matched (q := q) hplaces
  -- what can be read among the records that match are the hits
  have hhit : ∀ r ∈ q.matched (q.refreshed w.records), decide (r.toKey ∈ hits q w.records) = r.readable := by
    intro r hr
    refine Bool.eq_iff_iff.2 (decide_eq_true_iff.trans ⟨fun hmem => ?_, fun hreadable => ?_⟩)
    · obtain ⟨r', hr', hkey⟩ := List.mem_map.1 hmem
      obtain ⟨hr', hreadable⟩ := List.mem_filter.1 hr'
      rwa [← List.inj_on_of_nodup_map hdistinct hr' hr (congrArg Key.id hkey)]
    · exact List.mem_map_of_mem (List.mem_filter.2 ⟨hr, hreadable⟩)
  have hever : ∀ x ∈ (q.matched (q.refreshed w.records)).map ConversationRecord.toKey, x ∈ w.ever := by
    intro x hx
    obtain ⟨r, hr, rfl⟩ := List.mem_map.1 hx
    exact hknown r (mem_matched.1 hr).1
  have hsteady : ∀ x ∈ w.steady, x ∈ (q.matched (q.refreshed w.records)).map ConversationRecord.toKey ∧
      decide (x ∈ hits q w.records) = true := by
    intro x hx
    have hmem := h.steady x hx
    obtain ⟨r, hr, rfl⟩ := List.mem_map.1 hmem
    exact ⟨List.mem_map_of_mem (List.mem_of_mem_filter hr), decide_eq_true hmem⟩
  have hpage : IsPage (fun key => decide (key ∈ hits q w.records))
      (((q.matched (q.refreshed w.records)).drop
        (startIndex (q.matched (q.refreshed w.records)) (w.client.cursor.pageId.map Key.id))).map ConversationRecord.toKey)
      ⟨(searchConversations q (q.refreshed w.records) (w.client.cursor.pageId.map Key.id)).1.map ConversationRecord.toKey,
        (searchConversations q (q.refreshed w.records) (w.client.cursor.pageId.map Key.id)).2.map ConversationRecord.toKey⟩ :=
    isPage_keys hlimit fun r hr => hhit r (List.mem_of_mem_drop hr)
  rcases drop_startIndex (q.matched (q.refreshed w.records)) (w.client.cursor.pageId.map Key.id) with
    ⟨hmissing, hdrop⟩ | ⟨id, pre, r, post, hid, hsplit, hr, hdrop⟩
  · refine h.got.take (ordered_before q) hgo (List.nil_append _).symm hsorted hever hsteady
      (fun x hx => absurd hx List.not_mem_nil) (fun key hkey x _ hx => ?_) (by rwa [hdrop] at hpage)
    have hkey' := Cursor.pageId_eq_some.2 hkey
    rcases hok key hkey' with hmem | ⟨-, hbefore⟩
    · obtain ⟨r, hr, rfl⟩ := List.mem_map.1 hmem
      exact absurd rfl (hmissing r.id (by rw [hkey']; rfl) r hr)
    · exact .inr (hbefore x (of_decide_eq_true hx))
  · obtain ⟨key, hkey', rfl⟩ := Option.map_eq_some_iff.1 hid
    have hkey := Cursor.pageId_eq_some.1 hkey'
    have hmem : r ∈ q.matched (q.refreshed w.records) := hsplit ▸ List.mem_append_right pre (List.mem_cons_self ..)
    obtain rfl : r.toKey = key := by
      rcases hok key hkey' with hmem' | ⟨hno, -⟩
      · obtain ⟨r', hr', rfl⟩ := List.mem_map.1 hmem'
        rw [List.inj_on_of_nodup_map hdistinct hmem hr' hr]
      · exact absurd hr (hno r hmem)
    have hlisting : (q.matched (q.refreshed w.records)).map ConversationRecord.toKey =
        pre.map ConversationRecord.toKey ++ r.toKey :: post.map ConversationRecord.toKey := by
      rw [hsplit, List.map_append, List.map_cons]
    rw [hdrop, List.map_cons] at hpage
    obtain ⟨-, hafter, hcross⟩ := List.pairwise_append.1 (hlisting ▸ hsorted)
    refine h.got.take (ordered_before q) hgo hlisting hsorted hever hsteady
      (fun x hx _ => ⟨r.toKey, hkey, hcross x hx _ (List.mem_cons_self ..)⟩) (fun key' hkey'' x hx _ => ?_) ?_
    · obtain rfl : r.toKey = key' := by simpa [hkey] using hkey''
      rcases List.mem_cons.1 hx with rfl | hx
      · exact .inl rfl
      · exact .inr (List.rel_of_pairwise_cons hafter hx)
    · exact hpage

theorem Consistent.request (hlimit : 1 ≤ q.limit) (h : Consistent q w) (hok : Step.request.Allowed q w)
    (hgo : w.client.cursor ≠ .done) : Consistent q (w.request q) := by
  obtain ⟨f, hf, hrefreshed⟩ := refreshed_eq_map q w.records
  have hkeep := keepsAll_if fun r : ConversationRecord σ => r.toKey ∈
    (searchConversations q (q.refreshed w.records) (w.client.cursor.pageId.map Key.id)).1.map ConversationRecord.toKey
  have hrecords := (h.keep hf).keep hkeep
  rw [← hrefreshed] at hrecords
  have hgot := Got.request hlimit h hok hgo
  unfold World.request at hgot ⊢
  exact ⟨hrecords.distinct, hrecords.places, hrecords.known, hrecords.bounded, hrecords.steady, hgot⟩

theorem Consistent.step (hlimit : 1 ≤ q.limit) (h : Consistent q w) {s : Step σ} (hok : s.Allowed q w)
    (hstep : w.step q s = some w') : Consistent q w' := by
  cases s with
  | create id createdAt status readable =>
    unfold World.step at hstep
    dsimp only at hstep
    split at hstep
    · cases hstep
    · rename_i hnew
      cases hstep
      refine h.change ?_ ?_ ?_ ?_ fun x hx => List.mem_append_left _ hx
      · rw [List.map_append]
        refine h.distinct.append (List.nodup_singleton id) ?_
        rintro _ hx hid
        obtain rfl := List.mem_singleton.1 hid
        exact hnew hx
      · rw [List.map_append]
        refine List.pairwise_append.2 ⟨h.places, List.pairwise_singleton .., ?_⟩
        intro place hplace _ hlast
        obtain rfl := List.mem_singleton.1 hlast
        obtain ⟨r, hr, rfl⟩ := List.mem_map.1 hplace
        exact h.bounded r.toKey (h.known r hr)
      · intro r hr
        rcases List.mem_append.1 hr with hr | hr
        · exact List.mem_append_left _ (h.known r hr)
        · obtain rfl := List.mem_singleton.1 hr
          exact List.mem_append_right _ (List.mem_singleton_self _)
      · intro key hkey
        rw [List.length_append, List.length_singleton]
        rcases List.mem_append.1 hkey with hkey | hkey
        · exact Nat.lt_succ_of_lt (h.bounded key hkey)
        · obtain rfl := List.mem_singleton.1 hkey
          exact Nat.lt_succ_self _
  | delete id =>
    cases hstep
    refine h.change ?_ ?_ (fun r hr => h.known r (List.mem_of_mem_filter hr)) h.bounded fun x hx => hx
    · exact h.distinct.sublist (List.filter_sublist.map _)
    · exact h.places.sublist (List.filter_sublist.map _)
  | setStatus id status =>
    cases hstep
    refine h.update fun r => ?_
    split <;> rfl
  | setReadable id readable =>
    cases hstep
    refine h.update fun r => ?_
    split <;> rfl
  | request =>
    unfold World.step at hstep
    dsimp only at hstep
    split at hstep
    · cases hstep
    · rename_i hgo
      cases hstep
      exact h.request hlimit hok hgo

/-- Following `next_page_id` loses and repeats no conversation. -/
theorem conversation_pages_lossless (hlimit : 1 ≤ q.limit)
    (h : Reaches (World.step q) (fun w s => s.Allowed q w) World.init w) :
    Lossless (Before q) w.ever w.steady w.client := by
  have hc : Consistent q w :=
    h.invariant (consistent_init q) fun _ _ _ hc hok hstep => hc.step hlimit hok hstep
  exact hc.got.lossless (ordered_before q)

end

section Examples

/-- Three conversations, the last one created last. -/
def threeCreated : List (Step Bool) := [.create 1 10 true true, .create 2 20 true true, .create 3 30 true true]

/-- What the client has got changes its status, and a conversation is deleted behind the
cursor. -/
theorem conversation_pages_changed : ∃ w,
    Reaches (World.step { executionStatus := some true, limit := 1 })
      (fun w s => Step.Allowed { executionStatus := some true, limit := 1 } w s) World.init w ∧
    w.client.received.map Key.id = [3, 2] ∧
    Lossless (Before { executionStatus := some true, limit := 1 }) w.ever w.steady w.client := by
  have hrun : (execAllowed (World.step { executionStatus := some true, limit := 1 })
      (fun w s => Step.Allowed { executionStatus := some true, limit := 1 } w s) World.init
      (threeCreated ++ [.request, .setStatus 3 false, .delete 1, .request])).map
      (fun w => w.client.received.map Key.id) = some [3, 2] := by decide +kernel
  obtain ⟨w, hw, hreceived⟩ := Option.map_eq_some_iff.1 hrun
  have hreaches := reaches_of_execAllowed .init hw
  exact ⟨w, hreaches, hreceived, conversation_pages_lossless (by decide) hreaches⟩

/-- The conversation of the cursor is deleted: the search starts again and returns the
first conversation a second time. -/
theorem conversation_pages_repeat : ∃ w, exec (World.step ({ limit := 1 } : Search Bool)) World.init
      (threeCreated ++ [.request, .delete 2, .request]) = some w ∧ ¬ w.client.received.Nodup := by
  have hrun : (exec (World.step ({ limit := 1 } : Search Bool)) World.init
      (threeCreated ++ [.request, .delete 2, .request])).map
      (fun w => w.client.received) = some [⟨3, 30, 2⟩, ⟨3, 30, 2⟩] := by decide +kernel
  obtain ⟨w, hw, hreceived⟩ := Option.map_eq_some_iff.1 hrun
  refine ⟨w, hw, ?_⟩
  rw [hreceived]
  decide

end Examples

end AgentSdk.ConversationPages
