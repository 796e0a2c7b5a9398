import AgentSdk.Lib.Dict
import AgentSdk.MemoryCache
import Mathlib.Algebra.BigOperators.Group.List.Basic
import Mathlib.Algebra.Ring.Int.Defs
/-!
# The accounts of the memory cache

Whatever is set, read, deleted and popped, `MemoryLRUCache` counts the characters and
bytes of the values that it holds, and stays within both of its limits.
-/

namespace AgentSdk.MemoryLRUCache

variable {κ : Type} [DecidableEq κ]

/-- A cached value; the bytes are taken as characters. -/
inductive Value where
  | str (text : List Char)
  | bytes (data : List UInt8)

def Value.content : Value → List Char
  | .str text => text
  | .bytes data => data.map fun b => Char.ofNat b.toNat

/-- `pop`; a key that is not there is an error or gives the default. -/
def pop (r : Recency κ) (c : MemoryLRUCache κ) (k : κ) : MemoryLRUCache κ :=
  match c.getItem r k with
  | some (_, c) => c.delItem k
  | none => c

inductive Op (κ : Type) where
  | set (k : κ) (v : Value)
  | get (k : κ)
  | del (k : κ)
  | pop (k : κ)
  | popitem

/-- One operation; one that raises leaves the cache as it is. -/
def apply (r : Recency κ) (c : MemoryLRUCache κ) : Op κ → MemoryLRUCache κ
  | .set k v => c.setItem r k v.content
  | .get k => ((c.getItem r k).map Prod.snd).getD c
  | .del k => c.delItem k
  | .pop k => c.pop r k
  | .popitem => c.popitem

/-- The sizes of the values. -/
def size (es : List (κ × List Char)) : Int := (es.map fun e => (e.2.length : Int)).sum

/-- What the cache counts is what it holds, within its limits. -/
structure Accounted (c : MemoryLRUCache κ) : Prop where
  keys : (c.entries.map Prod.fst).Nodup
  memory : c.currentMemory = size c.entries
  nonneg : 0 ≤ c.currentMemory
  limit : c.currentMemory ≤ c.maxMemory
  count : (c.entries.length : Int) ≤ max 1 c.maxSize

/-! ## Sizes -/

section
variable {es : List (κ × List Char)} {c : MemoryLRUCache κ} {k : κ} {v : List Char}

omit [DecidableEq κ]

@[simp] theorem size_nil : size ([] : List (κ × List Char)) = 0 := rfl

@[simp] theorem size_cons (e : κ × List Char) : size (e :: es) = e.2.length + size es := by
  rw [size, List.map_cons, List.sum_cons]
  rfl

@[simp] theorem size_append (es' : List (κ × List Char)) : size (es ++ es') = size es + size es' := by
  rw [size, List.map_append, List.sum_append]
  rfl

theorem size_perm {es' : List (κ × List Char)} (h : es.Perm es') : size es = size es' := (h.map _).sum_eq

theorem size_nonneg (es : List (κ × List Char)) : 0 ≤ size es := by
  induction es with
  | nil => exact Int.le_refl 0
  | cons e es ih =>
    rw [size_cons]
    omega

theorem size_suffix {es' : List (κ × List Char)} (h : es' <:+ es) : size es' ≤ size es := by
  obtain ⟨pre, rfl⟩ := h
  rw [size_append]
  have hpre := size_nonneg pre
  omega

end

/-! ## Evictions -/

section
variable {c : MemoryLRUCache κ} {k : κ} {v : List Char} {es tail : List (κ × List Char)} {n : Int}

/-- The first entries may be evicted: they are counted, and `n` besides. -/
structure Counts (tail : List (κ × List Char)) (n maxMemory maxSize : Int) (c : MemoryLRUCache κ)
    (es : List (κ × List Char)) : Prop where
  entries : c.entries = es ++ tail
  keys : (c.entries.map Prod.fst).Nodup
  memory : c.currentMemory = size es + n
  maxMemory : c.maxMemory = maxMemory
  maxSize : c.maxSize = maxSize

theorem filter_key_ne (h : k ∉ es.map Prod.fst) : es.filter (·.1 ≠ k) = es := by
  refine List.filter_eq_self.2 fun e he => decide_eq_true ?_
  rintro rfl
  exact h (List.mem_map_of_mem he)

theorem popitem_cons {e : κ × List Char} (hes : c.entries = e :: es) (hkeys : (c.entries.map Prod.fst).Nodup) :
    c.popitem = { c with entries := es, currentMemory := c.currentMemory - e.2.length } := by
  have hlook : c.entries.lookup e.1 = some e.2 := Lib.lookup_of_mem hkeys (by rw [hes]; exact List.mem_cons_self)
  rw [hes, List.map_cons] at hkeys
  rw [popitem, hes]
  dsimp only
  rw [delItem, hlook, hes, List.filter_cons_of_neg (by simp), filter_key_ne (List.nodup_cons.1 hkeys).1]

theorem Counts.popitem {maxMemory maxSize : Int} {e : κ × List Char} (h : Counts tail n maxMemory maxSize c (e :: es)) :
    Counts tail n maxMemory maxSize c.popitem es := by
  have hentries := h.entries
  rw [popitem_cons hentries h.keys]
  refine ⟨rfl, ?_, ?_, h.maxMemory, h.maxSize⟩
  · have hkeys := h.keys
    rw [hentries] at hkeys
    exact (List.nodup_cons.1 hkeys).2
  · have hmemory := h.memory
    rw [size_cons] at hmemory
    dsimp only
    omega

/-- A loop that stops before `tail` evicts some of the first entries. -/
theorem Counts.evictWhile {again : MemoryLRUCache κ → Bool} {maxMemory maxSize : Int}
    (hstop : ∀ c, Counts tail n maxMemory maxSize c [] → again c = false) (fuel : Nat) (hfuel : es.length ≤ fuel)
    (h : Counts tail n maxMemory maxSize c es) : ∃ es', Counts tail n maxMemory maxSize (evictWhile again fuel c) es' ∧
      es' <:+ es ∧ again (evictWhile again fuel c) = false := by
  induction fuel generalizing c es with
  | zero =>
    obtain rfl := List.length_eq_zero_iff.1 (Nat.le_zero.1 hfuel)
    exact ⟨[], h, List.suffix_refl _, hstop c h⟩
  | succ fuel ih =>
    unfold MemoryLRUCache.evictWhile
    split
    · rename_i hagain
      cases es with
      | nil => rw [hstop c h] at hagain; cases hagain
      | cons e es =>
        obtain ⟨es', hcounts, hsuffix, hdone⟩ := ih (Nat.le_of_succ_le_succ hfuel) h.popitem
        exact ⟨es', hcounts, hsuffix.trans (List.suffix_cons e es), hdone⟩
    · rename_i hagain
      exact ⟨es, h, List.suffix_refl _, by simpa using hagain⟩

end

/-! ## The operations -/

section
variable {c : MemoryLRUCache κ} {k : κ} {v : List Char}

theorem Accounted.delItem (h : Accounted c) (k : κ) : Accounted (c.delItem k) := by
  unfold MemoryLRUCache.delItem
  split
  · rename_i v hlook
    have hperm := size_perm (Lib.perm_pop h.keys (mem_of_lookup hlook))
    rw [size_cons, ← h.memory] at hperm
    dsimp only at hperm
    have hrest := size_nonneg (c.entries.filter fun e => e.1 ≠ k)
    have hlimit := h.limit
    have hlen := List.length_filter_le (fun e => decide (e.1 ≠ k)) c.entries
    have hcount := h.count
    refine ⟨Lib.nodup_filter_keys _ h.keys, ?_, ?_, ?_, ?_⟩ <;> dsimp only <;> omega
  · exact h

theorem Accounted.popitem (h : Accounted c) : Accounted c.popitem := by
  unfold MemoryLRUCache.popitem
  split
  · exact h.delItem _
  · exact h

omit [DecidableEq κ] in
/-- Only the order of the entries changes. -/
theorem Accounted.perm (h : Accounted c) {es : List (κ × List Char)} (hes : es.Perm c.entries) :
    Accounted { c with entries := es } where
  keys := (hes.map _).nodup_iff.2 h.keys
  memory := h.memory.trans (size_perm hes).symm
  nonneg := h.nonneg
  limit := h.limit
  count := by
    rw [hes.length_eq]
    exact h.count

theorem Accounted.getItem (h : Accounted c) {r : Recency κ} {v : List Char} {c' : MemoryLRUCache κ}
    (hget : c.getItem r k = some (v, c')) : Accounted c' := by
  obtain ⟨v', -, heq⟩ := Option.map_eq_some_iff.1 hget
  obtain ⟨-, rfl⟩ := Prod.mk.inj heq
  exact h.perm (r.perm k c.entries)

/-- The loop over the memory: what is stored fits. -/
def tooMuch (c : MemoryLRUCache κ) : Bool := c.currentMemory > c.maxMemory && !c.entries.isEmpty

theorem Counts.evictMemory {es tail : List (κ × List Char)} {n maxMemory maxSize : Int} (hn : n ≤ maxMemory)
    (h : Counts tail n maxMemory maxSize c es) : ∃ es',
      Counts tail n maxMemory maxSize (MemoryLRUCache.evictWhile tooMuch c.entries.length c) es' ∧ es' <:+ es ∧
        size es' + n ≤ maxMemory := by
  have hstop : ∀ c : MemoryLRUCache κ, Counts tail n maxMemory maxSize c [] → tooMuch c = false := by
    intro c hc
    have hle : ¬ c.currentMemory > c.maxMemory := by
      rw [hc.memory, hc.maxMemory, size_nil]
      omega
    simp [tooMuch, hle]
  have hfuel : es.length ≤ c.entries.length := by
    rw [h.entries, List.length_append]
    omega
  obtain ⟨es', hcounts, hsuffix, hdone⟩ := h.evictWhile hstop _ hfuel
  refine ⟨es', hcounts, hsuffix, ?_⟩
  rcases Bool.and_eq_false_iff.1 hdone with hle | hnil
  · have hle := of_decide_eq_false hle
    rw [hcounts.memory, hcounts.maxMemory] at hle
    omega
  · rw [hcounts.entries] at hnil
    obtain ⟨rfl, -⟩ : es' = [] ∧ tail = [] := by simpa using hnil
    rw [size_nil]
    omega

/-- A new key: entries are evicted until it fits. -/
theorem Accounted.set_new (h : Accounted c) (hk : k ∉ c.entries.map Prod.fst) (hv : (v.length : Int) ≤ c.maxMemory) :
    Accounted (c.setItem .lru k v) := by
  have hlook : c.entries.lookup k = none := by
    refine List.lookup_eq_none_iff.2 fun e he => ?_
    simp only [bne_iff_ne, ne_eq]
    rintro rfl
    exact hk (List.mem_map_of_mem he)
  have hstart : Counts [] v.length c.maxMemory c.maxSize { c with currentMemory := c.currentMemory + v.length } c.entries :=
    ⟨(List.append_nil _).symm, h.keys, by rw [h.memory], rfl, rfl⟩
  obtain ⟨es, hes, hsuffix, hfits⟩ := hstart.evictMemory hv
  have hset : c.setItem .lru k v = (MemoryLRUCache.evictWhile tooMuch c.entries.length
      { c with currentMemory := c.currentMemory + v.length }).store .lru k v := by
    rw [setItem, if_neg (Int.not_lt.2 hv), discount, MemoryLRUCache.getItem, hlook]
    rfl
  rw [hset]
  generalize MemoryLRUCache.evictWhile tooMuch c.entries.length
    { c with currentMemory := c.currentMemory + v.length } = c₁ at hes ⊢
  have hmem : ∀ e ∈ es, e.1 ≠ k := by
    rintro e he rfl
    exact hk (List.mem_map_of_mem (hsuffix.subset he))
  have hentries := hes.entries
  rw [List.append_nil] at hentries
  have hnot : c₁.contains k = false := by
    rw [contains, hentries, List.any_eq_false]
    intro e he
    simpa using hmem e he
  -- the entries that are counted make room for one more
  have hstop : ∀ c' : MemoryLRUCache κ, Counts [] v.length c.maxMemory c.maxSize c' [] →
      decide ((c'.entries.length : Int) + 1 > max 1 c'.maxSize) = false := by
    intro c' hc'
    refine decide_eq_false ?_
    rw [hc'.entries, List.append_nil, List.length_nil]
    omega
  obtain ⟨es', hes', hsuffix', hroom⟩ := hes.evictWhile hstop _ (Nat.le_of_eq (congrArg List.length hentries.symm))
  rw [store, hnot, if_neg Bool.false_ne_true]
  dsimp only
  generalize MemoryLRUCache.evictWhile (fun c => decide ((c.entries.length : Int) + 1 > max 1 c.maxSize))
    c₁.entries.length c₁ = c₂ at hes' hroom ⊢
  have hentries' := hes'.entries
  have hkeys' := hes'.keys
  rw [List.append_nil] at hentries'
  have hsize := size_suffix hsuffix'
  have hnonneg := size_nonneg es'
  have hmemory := hes'.memory
  have hmax := hes'.maxMemory
  refine Accounted.perm (c := { c₂ with entries := c₂.entries ++ [(k, v)] }) ⟨?_, ?_, ?_, ?_, ?_⟩ (Recency.lru.perm k _)
  · rw [List.map_append]
    refine hkeys'.append (List.nodup_singleton k) ?_
    rintro _ hx hkx
    obtain rfl := List.mem_singleton.1 hkx
    obtain ⟨e, he, heq⟩ := List.mem_map.1 hx
    exact hmem e (hsuffix'.subset (hentries' ▸ he)) heq
  · dsimp only
    rw [hentries', size_append, size_cons, size_nil]
    dsimp only
    omega
  · dsimp only
    omega
  · dsimp only
    omega
  · dsimp only
    rw [List.length_append, List.length_singleton]
    have hroom := of_decide_eq_false hroom
    omega

theorem lru_touch {es : List (κ × List Char)} (hkeys : (es.map Prod.fst).Nodup) (h : (k, v) ∈ es) :
    Recency.lru.touch k es = es.filter (·.1 ≠ k) ++ [(k, v)] := by
  have hperm := (Lib.perm_pop hkeys h).filter fun e => decide (e.1 = k)
  rw [List.filter_cons_of_pos (by simp), List.filter_filter] at hperm
  have hnone : es.filter (fun e => decide (e.1 = k) && decide (e.1 ≠ k)) = [] := by simp
  rw [hnone] at hperm
  exact congrArg (es.filter (·.1 ≠ k) ++ ·) (List.perm_singleton.1 hperm)

/-- A key that is stored again is the last one to be evicted, and it fits alone. -/
theorem Accounted.set_again (h : Accounted c) (hk : k ∈ c.entries.map Prod.fst) (hv : (v.length : Int) ≤ c.maxMemory) :
    Accounted (c.setItem .lru k v) := by
  obtain ⟨⟨k', old⟩, hold, hk'⟩ := List.mem_map.1 hk
  obtain rfl : k' = k := hk'
  have htouch := lru_touch h.keys hold
  have hperm := Recency.lru.perm k' c.entries
  rw [htouch] at hperm
  have hset : c.setItem .lru k' v = (MemoryLRUCache.evictWhile tooMuch
      (c.entries.filter (·.1 ≠ k') ++ [(k', old)]).length
      { c with
        entries := c.entries.filter (·.1 ≠ k') ++ [(k', old)]
        currentMemory := c.currentMemory - old.length + v.length }).store .lru k' v := by
    rw [setItem, if_neg (Int.not_lt.2 hv), discount, MemoryLRUCache.getItem, Lib.lookup_of_mem h.keys hold, ← htouch]
    rfl
  have hsize := size_perm hperm
  rw [← h.memory, size_append, size_cons, size_nil] at hsize
  dsimp only at hsize
  have hstart : Counts [(k', old)] v.length c.maxMemory c.maxSize
      { c with
        entries := c.entries.filter (·.1 ≠ k') ++ [(k', old)]
        currentMemory := c.currentMemory - old.length + v.length } (c.entries.filter (·.1 ≠ k')) :=
    ⟨rfl, (hperm.map _).nodup_iff.2 h.keys, by dsimp only; omega, rfl, rfl⟩
  obtain ⟨es, hes, hsuffix, hfits⟩ := hstart.evictMemory hv
  rw [hset]
  generalize MemoryLRUCache.evictWhile tooMuch (c.entries.filter (·.1 ≠ k') ++ [(k', old)]).length
    { c with
      entries := c.entries.filter (·.1 ≠ k') ++ [(k', old)]
      currentMemory := c.currentMemory - old.length + v.length } = c₁ at hes ⊢
  have hentries := hes.entries
  have hkeys := hes.keys
  have hmemory := hes.memory
  have hmax := hes.maxMemory
  have hsizes := hes.maxSize
  have hnonneg := size_nonneg es
  have hcount := h.count
  have hlen := hsuffix.length_le
  have hlen' := hperm.length_eq
  rw [List.length_append, List.length_singleton] at hlen'
  have hthere : c₁.contains k' = true := by
    rw [contains, hentries]
    simp
  have hreplace : c₁.entries.map (fun e => if e.1 = k' then (k', v) else e) = es ++ [(k', v)] := by
    rw [hentries, List.map_append, List.map_singleton, if_pos rfl]
    refine congrArg (· ++ [(k', v)]) ((List.map_congr_left fun e he => if_neg ?_).trans (List.map_id es))
    exact of_decide_eq_true (List.mem_filter.1 (hsuffix.subset he)).2
  rw [store, hthere, if_pos rfl, hreplace]
  refine Accounted.perm (c := { c₁ with entries := es ++ [(k', v)] }) ⟨?_, ?_, ?_, ?_, ?_⟩ (Recency.lru.perm k' _)
  · rw [hentries, List.map_append] at hkeys
    rw [List.map_append]
    exact hkeys
  · dsimp only
    rw [size_append, size_cons, size_nil]
    dsimp only
    omega
  · dsimp only
    omega
  · dsimp only
    omega
  · dsimp only
    rw [List.length_append, List.length_singleton]
    omega

theorem Accounted.setItem (h : Accounted c) (k : κ) (v : List Char) : Accounted (c.setItem .lru k v) := by
  by_cases hv : (v.length : Int) ≤ c.maxMemory
  · by_cases hk : k ∈ c.entries.map Prod.fst
    · exact h.set_again hk hv
    · exact h.set_new hk hv
  · rw [MemoryLRUCache.setItem, if_pos (Int.not_le.1 hv)]
    exact h

theorem Accounted.apply (h : Accounted c) (op : Op κ) : Accounted (c.apply .lru op) := by
  cases op with
  | set k v => exact h.setItem k v.content
  | get k =>
    show Accounted (((c.getItem .lru k).map Prod.snd).getD c)
    cases hget : c.getItem .lru k with
    | none => exact h
    | some p => exact h.getItem hget
  | del k => exact h.delItem k
  | pop k =>
    unfold MemoryLRUCache.apply MemoryLRUCache.pop
    dsimp only
    split
    · rename_i hget
      exact (h.getItem hget).delItem k
    · exact h
  | popitem => exact h.popitem

/-- After any operations on a new cache. -/
theorem accounted_of_ops {maxMemory : Int} (hmax : 0 ≤ maxMemory) (maxSize : Int) (ops : List (Op κ)) :
    Accounted (ops.foldl (MemoryLRUCache.apply .lru) { maxMemory, maxSize }) := by
  have hstart : Accounted ({ maxMemory, maxSize } : MemoryLRUCache κ) :=
    ⟨List.nodup_nil, rfl, Int.le_refl 0, hmax, by dsimp only [List.length_nil]; omega⟩
  generalize ({ maxMemory, maxSize } : MemoryLRUCache κ) = c at hstart
  induction ops generalizing c with
  | nil => exact hstart
  | cons op ops ih => exact ih (c.apply .lru op) (hstart.apply op)

/-- Two values that do not fit together, the first one stored again and read. -/
theorem accounted_again : Accounted (([.set 1 (.str ['a', 'b', 'c']), .set 2 (.bytes [1, 2]), .get 1,
    .set 1 (.str ['a', 'b', 'c', 'd']), .pop 2, .set 3 (.str [])] : List (Op Nat)).foldl (MemoryLRUCache.apply .lru)
      { maxMemory := 5, maxSize := 0 }) :=
  accounted_of_ops (by decide) 0 _

end

end AgentSdk.MemoryLRUCache
