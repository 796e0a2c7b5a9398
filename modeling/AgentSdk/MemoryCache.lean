import Mathlib.Data.List.Basic
/-!
# The memory cache

`MemoryLRUCache`: a dict with a limit on its entries and one on the characters
of their values. `Recency` stands for `cachetools.LRUCache`, the order in which
entries are evicted. What every operation guarantees, under any limits and in
any order of eviction, is where the entries come from.
-/

namespace AgentSdk

/-- An order of eviction: how looking up or storing a key changes it. -/
structure Recency (κ : Type) where
  touch : κ → List (κ × List Char) → List (κ × List Char)
  perm : ∀ k es, (touch k es).Perm es

/-- `LRUCache`: the entry becomes the most recently used one. -/
def Recency.lru {κ : Type} [DecidableEq κ] : Recency κ where
  touch k es := es.filter (·.1 ≠ k) ++ es.filter (·.1 = k)
  perm k es := by
    have hsplit := List.filter_append_perm (fun e : κ × List Char => decide (e.1 ≠ k)) es
    simpa using hsplit

/-- The next entry to be evicted comes first. -/
structure MemoryLRUCache (κ : Type) where
  entries : List (κ × List Char) := []
  currentMemory : Int := 0
  maxMemory : Int
  maxSize : Int

namespace MemoryLRUCache
variable {κ : Type} [DecidableEq κ]

/-- `key in self`. -/
def contains (c : MemoryLRUCache κ) (k : κ) : Bool := c.entries.any (·.1 = k)

/-- `__delitem__`. -/
def delItem (c : MemoryLRUCache κ) (k : κ) : MemoryLRUCache κ :=
  match c.entries.lookup k with
  | some v => { c with entries := c.entries.filter (·.1 ≠ k), currentMemory := c.currentMemory - v.length }
  | none => c

/-- `popitem`. -/
def popitem (c : MemoryLRUCache κ) : MemoryLRUCache κ :=
  match c.entries with
  | (k, _) :: _ => c.delItem k
  | [] => c

/-- A loop of `popitem` while `again` holds, at most `n` times: the loops here
end when the cache is empty. -/
def evictWhile (again : MemoryLRUCache κ → Bool) : Nat → MemoryLRUCache κ → MemoryLRUCache κ
  | 0, c => c
  | n + 1, c => if again c then evictWhile again n c.popitem else c

/-- `clear`: every entry is popped. -/
def clear (c : MemoryLRUCache κ) : MemoryLRUCache κ := evictWhile (fun c => !c.entries.isEmpty) c.entries.length c

variable (r : Recency κ)

/-- `self[key]`: the value, and the cache with the key used. -/
def getItem (c : MemoryLRUCache κ) (k : κ) : Option (List Char × MemoryLRUCache κ) :=
  (c.entries.lookup k).map fun v => (v, { c with entries := r.touch k c.entries })

/-- The memory of a key that is stored again is not counted twice. -/
def discount (c : MemoryLRUCache κ) (k : κ) : MemoryLRUCache κ :=
  match c.getItem r k with
  | some (v, c) => { c with currentMemory := c.currentMemory - v.length }
  | none => c

/-- `LRUCache.__setitem__`: at least one entry fits. -/
def store (c : MemoryLRUCache κ) (k : κ) (v : List Char) : MemoryLRUCache κ :=
  if c.contains k then { c with entries := r.touch k (c.entries.map fun e => if e.1 = k then (k, v) else e) }
  else
    let c := evictWhile (fun c => c.entries.length + 1 > max 1 c.maxSize) c.entries.length c
    { c with entries := r.touch k (c.entries ++ [(k, v)]) }

/-- `__setitem__`. -/
def setItem (c : MemoryLRUCache κ) (k : κ) (v : List Char) : MemoryLRUCache κ :=
  if (v.length : Int) > c.maxMemory then c
  else
    let c := c.discount r k
    let c := { c with currentMemory := c.currentMemory + v.length }
    let c := evictWhile (fun c => c.currentMemory > c.maxMemory && !c.entries.isEmpty) c.entries.length c
    c.store r k v

/-! ## Where the entries come from -/

variable {r}

theorem mem_of_lookup {es : List (κ × List Char)} {k : κ} {v : List Char} (h : es.lookup k = some v) : (k, v) ∈ es := by
  induction es with
  | nil => cases h
  | cons e es ih =>
    obtain ⟨k', v'⟩ := e
    rw [List.lookup_cons] at h
    split at h
    · rename_i hk
      cases h
      rw [eq_of_beq hk]
      exact List.mem_cons_self
    · exact List.mem_cons_of_mem _ (ih h)

theorem mem_delItem {c : MemoryLRUCache κ} {k : κ} {e : κ × List Char} (h : e ∈ (c.delItem k).entries) :
    e ∈ c.entries ∧ e.1 ≠ k := by
  unfold delItem at h
  split at h
  · rw [List.mem_filter] at h
    exact ⟨h.1, by simpa using h.2⟩
  · rename_i hnone
    refine ⟨h, ?_⟩
    rintro rfl
    have hall := List.lookup_eq_none_iff.1 hnone e h
    simp at hall

theorem mem_popitem {c : MemoryLRUCache κ} {e : κ × List Char} (h : e ∈ c.popitem.entries) : e ∈ c.entries := by
  unfold popitem at h
  split at h
  · exact (mem_delItem h).1
  · exact h

theorem mem_evictWhile {again : MemoryLRUCache κ → Bool} {n : Nat} {c : MemoryLRUCache κ} {e : κ × List Char}
    (h : e ∈ (evictWhile again n c).entries) : e ∈ c.entries := by
  induction n generalizing c with
  | zero => exact h
  | succ n ih =>
    unfold evictWhile at h
    split at h
    · exact mem_popitem (ih h)
    · exact h

theorem length_popitem {c : MemoryLRUCache κ} (h : c.entries ≠ []) : c.popitem.entries.length < c.entries.length := by
  unfold popitem
  split
  · rename_i k v es hes
    have hlook : c.entries.lookup k = some v := by rw [hes]; simp
    rw [delItem, hlook, hes]
    simp only [ne_eq, not_true_eq_false, decide_false, Bool.false_eq_true, not_false_eq_true, List.filter_cons_of_neg,
      List.length_cons]
    exact Nat.lt_succ_of_le (List.length_filter_le _ _)
  · exact absurd ‹_› h

theorem clear_entries (c : MemoryLRUCache κ) : c.clear.entries = [] := by
  have hgo : ∀ n (c : MemoryLRUCache κ), c.entries.length ≤ n →
      (evictWhile (fun c => !c.entries.isEmpty) n c).entries = [] := by
    intro n
    induction n with
    | zero => exact fun c hc => List.length_eq_zero_iff.1 (Nat.le_zero.1 hc)
    | succ n ih =>
      intro c hc
      unfold evictWhile
      split
      · rename_i hne
        have hne' : c.entries ≠ [] := by simpa using hne
        exact ih _ (by have := length_popitem hne'; omega)
      · rename_i hempty
        simpa using hempty
  exact hgo _ c (Nat.le_refl _)

theorem mem_discount {c : MemoryLRUCache κ} {k : κ} {e : κ × List Char} (h : e ∈ (c.discount r k).entries) :
    e ∈ c.entries := by
  unfold discount at h
  split at h
  · rename_i v c' hget
    obtain ⟨v', -, heq⟩ := Option.map_eq_some_iff.1 hget
    cases heq
    exact (r.perm k c.entries).mem_iff.1 h
  · exact h

theorem mem_store {c : MemoryLRUCache κ} {k : κ} {v : List Char} {e : κ × List Char}
    (h : e ∈ (c.store r k v).entries) : e = (k, v) ∨ (e ∈ c.entries ∧ e.1 ≠ k) := by
  unfold store at h
  split at h
  · obtain ⟨e', he', heq⟩ := List.mem_map.1 ((r.perm _ _).mem_iff.1 h)
    split at heq
    · exact .inl heq.symm
    · rw [← heq]
      exact .inr ⟨he', ‹_›⟩
  · rename_i hnew
    rcases List.mem_append.1 ((r.perm _ _).mem_iff.1 h) with he | he
    · have hold := mem_evictWhile he
      refine .inr ⟨hold, fun hk => ?_⟩
      refine hnew (List.any_eq_true.2 ⟨e, hold, ?_⟩)
      simp [hk]
    · exact .inl (List.mem_singleton.1 he)

/-- What is in the cache was there before, or is the value just stored; a value
that is too large leaves the cache as it was. -/
theorem mem_setItem {c : MemoryLRUCache κ} {k : κ} {v : List Char} {e : κ × List Char}
    (h : e ∈ (c.setItem r k v).entries) :
    ((v.length : Int) ≤ c.maxMemory ∧ (e = (k, v) ∨ (e ∈ c.entries ∧ e.1 ≠ k))) ∨
      (¬ (v.length : Int) ≤ c.maxMemory ∧ e ∈ c.entries) := by
  unfold setItem at h
  split at h
  · exact .inr ⟨by omega, h⟩
  · refine .inl ⟨by omega, ?_⟩
    rcases mem_store h with he | ⟨he, hne⟩
    · exact .inl he
    · have hold : e ∈ (c.discount r k).entries := by simpa using mem_evictWhile he
      exact .inr ⟨mem_discount hold, hne⟩

end MemoryLRUCache

end AgentSdk
