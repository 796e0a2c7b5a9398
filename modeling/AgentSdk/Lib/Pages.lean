import Mathlib.Data.List.Basic
import Mathlib.Data.List.Nodup
import Mathlib.Data.List.Perm.Subperm
import Mathlib.Data.List.Sort
import Mathlib.Data.List.TakeWhile
/-!
# Pages of a listing that changes

A client asks for page after page of a sorted listing. Each page names the entry with
which the next one begins; between two requests the listing changes.
-/

namespace AgentSdk.Lib.Pages

/-- A strict order. -/
structure Ordered {ι : Type _} (before : ι → ι → Prop) : Prop where
  irrefl : ∀ i, ¬ before i i
  trans : ∀ {i j k}, before i j → before j k → before i k

structure Page (ι : Type _) where
  items : List ι
  next : Option ι

inductive Cursor (ι : Type _) where
  | first
  | next (i : ι)
  | done
deriving DecidableEq

/-- The entry with which the next page is to begin. -/
def Cursor.pageId {ι : Type _} : Cursor ι → Option ι
  | .next i => some i
  | _ => none

@[simp] theorem Cursor.pageId_eq_some {ι : Type _} {c : Cursor ι} {i : ι} : c.pageId = some i ↔ c = .next i := by
  cases c <;> simp [pageId]

structure Client (ι : Type _) where
  received : List ι := []
  cursor : Cursor ι := .first
  requests : Nat := 0

variable {ι : Type _} {before : ι → ι → Prop}

def Client.take (c : Client ι) (page : Page ι) : Client ι where
  received := c.received ++ page.items
  cursor := match page.next with
    | some i => .next i
    | none => .done
  requests := c.requests + 1

/-- The page has the hits before the entry that it names, and some if it names one. -/
def IsPage (hit : ι → Bool) (rest : List ι) (page : Page ι) : Prop :=
  ∃ mid post, rest = mid ++ post ∧ page.items = mid.filter hit ∧ page.next = post.head? ∧ (post ≠ [] → page.items ≠ [])

/-- What the client got is in order and without repetition; when it is done, it has all
of `steady`; and it is done after one request more than there are entries. -/
structure Lossless (before : ι → ι → Prop) (ever steady : List ι) (c : Client ι) : Prop where
  sorted : c.received.Pairwise before
  nodup : c.received.Nodup
  complete : c.cursor = .done → ∀ i ∈ steady, i ∈ c.received
  ends : c.requests ≤ ever.length + 1

/-- `Got`: up to the cursor the client has got all of `steady`. -/
structure Got (before : ι → ι → Prop) (ever steady : List ι) (c : Client ι) : Prop where
  sorted : c.received.Pairwise before
  known : ∀ i ∈ c.received, i ∈ ever
  first : c.cursor = .first → c.received = []
  passed : ∀ i, c.cursor = .next i → (∀ x ∈ c.received, before x i) ∧ ∀ x ∈ steady, before x i → x ∈ c.received
  complete : c.cursor = .done → ∀ x ∈ steady, x ∈ c.received
  full : c.cursor ≠ .done → c.requests ≤ c.received.length
  requests : c.requests ≤ c.received.length + 1

theorem got_init (ever steady : List ι) : Got before ever steady {} where
  sorted := .nil
  known _ h := absurd h List.not_mem_nil
  first _ := rfl
  passed _ h := nomatch h
  complete h := nomatch h
  full _ := Nat.le_refl _
  requests := Nat.zero_le _

variable {ever steady : List ι} {c : Client ι}

theorem Got.lossless (h : Got before ever steady c) (ho : Ordered before) : Lossless before ever steady c := by
  have hnodup : c.received.Nodup := by
    refine h.sorted.imp ?_
    rintro i _ hij rfl
    exact ho.irrefl i hij
  refine ⟨h.sorted, hnodup, h.complete, ?_⟩
  have hle : c.received.length ≤ ever.length := (hnodup.subperm h.known).length_le
  have hrequests := h.requests
  omega

/-- The listing changes: entries come, and no longer all of `steady` are there. -/
theorem Got.change (h : Got before ever steady c) {ever' steady' : List ι} (hever : ∀ i ∈ ever, i ∈ ever')
    (hsteady : c.cursor = .first ∨ ∀ i ∈ steady', i ∈ steady) : Got before ever' steady' c where
  sorted := h.sorted
  known i hi := hever i (h.known i hi)
  first := h.first
  passed i hi :=
    have hsub := hsteady.resolve_left fun hf => nomatch hf.symm.trans hi
    ⟨(h.passed i hi).1, fun x hx => (h.passed i hi).2 x (hsub x hx)⟩
  complete hd x hx :=
    have hsub := hsteady.resolve_left fun hf => nomatch hf.symm.trans hd
    h.complete hd x (hsub x hx)
  full := h.full
  requests := h.requests

/-- A request that goes on where the one before stopped: what it skips comes before the
cursor, and its other hits do not. -/
theorem Got.take (h : Got before ever steady c) (ho : Ordered before) {listing pre rest : List ι} {hit : ι → Bool}
    {page : Page ι} (hgo : c.cursor ≠ .done) (hlisting : listing = pre ++ rest) (hsorted : listing.Pairwise before)
    (hever : ∀ i ∈ listing, i ∈ ever) (hsteady : ∀ i ∈ steady, i ∈ listing ∧ hit i = true)
    (hskip : ∀ x ∈ pre, hit x = true → ∃ i, c.cursor = .next i ∧ before x i)
    (hnew : ∀ i, c.cursor = .next i → ∀ x ∈ rest, hit x = true → i = x ∨ before i x) (hpage : IsPage hit rest page) :
    Got before ever steady (c.take page) := by
  obtain ⟨mid, post, rfl, hitems, hnext, hfull⟩ := hpage
  subst hlisting
  obtain ⟨-, hrest, hpre⟩ := List.pairwise_append.1 hsorted
  obtain ⟨hmid, hpost, hcross⟩ := List.pairwise_append.1 hrest
  -- what was received comes before the new items
  have hreceived : ∀ x ∈ c.received, ∀ y ∈ page.items, before x y := by
    intro x hx y hy
    rw [hitems, List.mem_filter] at hy
    cases hcursor : c.cursor with
    | first => exact absurd (h.first hcursor ▸ hx) List.not_mem_nil
    | done => exact absurd hcursor hgo
    | next i =>
      have hxi := (h.passed i hcursor).1 x hx
      rcases hnew i hcursor y (List.mem_append_left post hy.1) hy.2 with rfl | hiy
      · exact hxi
      · exact ho.trans hxi hiy
  -- What is steady and lies in front of the page was received, what lies on it is now.
  have hgot : ∀ x ∈ steady, x ∈ pre → x ∈ c.received := by
    intro x hx hpre
    obtain ⟨i, hi, hbefore⟩ := hskip x hpre (hsteady x hx).2
    exact (h.passed i hi).2 x hx hbefore
  have hnow : ∀ x ∈ steady, x ∈ mid → x ∈ page.items := by
    intro x hx hmid
    rw [hitems, List.mem_filter]
    exact ⟨hmid, (hsteady x hx).2⟩
  refine ⟨?_, ?_, ?_, ?_, ?_, ?_, ?_⟩
  · refine List.pairwise_append.2 ⟨h.sorted, ?_, hreceived⟩
    rw [hitems]
    exact hmid.filter _
  · intro i hi
    rcases List.mem_append.1 hi with hi | hi
    · exact h.known i hi
    · rw [hitems] at hi
      exact hever i (List.mem_append_right _ (List.mem_append_left _ (List.mem_of_mem_filter hi)))
  · intro hfirst
    unfold Client.take at hfirst
    cases hn : page.next <;> simp [hn] at hfirst
  · intro i hi
    -- The cursor is the first item behind the page.
    cases post with
    | nil => simp [Client.take, hnext] at hi
    | cons j post =>
      obtain rfl : j = i := by simpa [Client.take, hnext] using hi
      have hitem : ∀ y ∈ page.items, before y j := by
        intro y hy
        rw [hitems] at hy
        exact hcross y (List.mem_of_mem_filter hy) j (List.mem_cons_self ..)
      constructor
      · intro x hx
        rcases List.mem_append.1 hx with hx | hx
        · obtain ⟨y, hy⟩ := List.exists_mem_of_ne_nil _ (hfull (List.cons_ne_nil j post))
          exact ho.trans (hreceived x hx y hy) (hitem y hy)
        · exact hitem x hx
      · intro x hx hxj
        have hmem := (hsteady x hx).1
        simp only [List.mem_append] at hmem
        rcases hmem with hmem | hmem | hmem
        · exact List.mem_append_left _ (hgot x hx hmem)
        · exact List.mem_append_right _ (hnow x hx hmem)
        · rcases List.mem_cons.1 hmem with rfl | hmem
          · exact absurd hxj (ho.irrefl x)
          · exact absurd (ho.trans hxj (List.rel_of_pairwise_cons hpost hmem)) (ho.irrefl x)
  · intro hdone x hx
    have hnil : post = [] := by
      cases post with
      | nil => rfl
      | cons j post => simp [Client.take, hnext] at hdone
    subst hnil
    have hmem := (hsteady x hx).1
    simp only [List.mem_append, List.not_mem_nil, or_false] at hmem
    rcases hmem with hmem | hmem
    · exact List.mem_append_left _ (hgot x hx hmem)
    · exact List.mem_append_right _ (hnow x hx hmem)
  · intro hnot
    have hreq := h.full hgo
    cases post with
    | nil => exact absurd (by simp [Client.take, hnext]) hnot
    | cons j post =>
      have hpos := List.length_pos_iff.2 (hfull (List.cons_ne_nil j post))
      simp only [Client.take, List.length_append]
      omega
  · have hreq := h.full hgo
    simp only [Client.take, List.length_append]
    omega

/-! ## Listings sorted by a key -/

/-- Insertion keeps the order of what the key does not tell apart. -/
theorem pairwise_insertionSort_stable {α : Type _} {r earlier : α → α → Prop} [DecidableRel r]
    (htotal : ∀ a b, r a b ∨ r b a) (htrans : ∀ {a b c}, r a b → r b c → r a c) {l : List α} (hl : l.Pairwise earlier) :
    (l.insertionSort r).Pairwise fun a b => r a b ∧ (r b a → earlier a b) := by
  induction l with
  | nil => exact .nil
  | cons a l ih =>
    obtain ⟨ha, hl⟩ := List.pairwise_cons.1 hl
    have hsorted := ih hl
    rw [List.insertionSort_cons_eq_take_drop]
    rw [← List.takeWhile_append_dropWhile (p := fun b => decide ¬ r a b) (l := l.insertionSort r)] at hsorted
    obtain ⟨htake, hdrop, hcross⟩ := List.pairwise_append.1 hsorted
    have hbefore : ∀ b ∈ (l.insertionSort r).takeWhile fun b => decide ¬ r a b, r b a ∧ ¬ r a b := by
      intro b hb
      have hnot : ¬ r a b := by simpa using List.mem_takeWhile_imp hb
      exact ⟨(htotal a b).resolve_left hnot, hnot⟩
    have hafter : ∀ b ∈ (l.insertionSort r).dropWhile fun b => decide ¬ r a b, r a b := by
      intro b hb
      cases hrest : (l.insertionSort r).dropWhile fun b => decide ¬ r a b with
      | nil =>
        rw [hrest] at hb
        cases hb
      | cons c rest =>
        have hhead := List.head?_dropWhile_not (fun b => decide ¬ r a b) (l.insertionSort r)
        rw [hrest] at hhead hb hdrop
        have hc : r a c := by simpa using hhead
        rcases List.mem_cons.1 hb with rfl | hb
        · exact hc
        · exact htrans hc (List.rel_of_pairwise_cons hdrop hb).1
    refine List.pairwise_append.2 ⟨htake, List.pairwise_cons.2 ⟨fun b hb => ⟨hafter b hb, fun _ => ?_⟩, hdrop⟩, ?_⟩
    · exact ha b ((List.mem_insertionSort r).1 ((List.dropWhile_sublist _).subset hb))
    · intro b hb c hc
      rcases List.mem_cons.1 hc with rfl | hc
      · exact ⟨(hbefore b hb).1, fun h => absurd h (hbefore b hb).2⟩
      · exact hcross b hb c hc

end AgentSdk.Lib.Pages
