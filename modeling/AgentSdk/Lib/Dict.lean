import Mathlib.Data.List.Basic
import Mathlib.Data.List.Nodup
/-!
# Insertion-ordered dicts

A dict as the list of its entries, in the order of their first insertion.
-/

namespace AgentSdk.Lib

variable {κ β : Type _} [DecidableEq κ]

/-- `d[k] = v`: a known key keeps its place. -/
def dictSet (d : List (κ × β)) (k : κ) (v : β) : List (κ × β) :=
  if k ∈ d.map Prod.fst then d.map fun p => if p.1 = k then (k, v) else p else d ++ [(k, v)]

/-- `dict(pairs)`. -/
def dictOf (pairs : List (κ × β)) : List (κ × β) := pairs.foldl (fun d p => dictSet d p.1 p.2) []

theorem dictSet_new {d : List (κ × β)} {k : κ} (v : β) (h : k ∉ d.map Prod.fst) : dictSet d k v = d ++ [(k, v)] := by
  rw [dictSet, if_neg h]

theorem keys_dictSet (d : List (κ × β)) (k : κ) (v : β) :
    (dictSet d k v).map Prod.fst = if k ∈ d.map Prod.fst then d.map Prod.fst else d.map Prod.fst ++ [k] := by
  unfold dictSet
  split
  · rw [List.map_map]
    refine List.map_congr_left fun p _ => ?_
    by_cases hp : p.1 = k <;> simp [hp]
  · simp

theorem mem_dictSet {d : List (κ × β)} {k : κ} {v : β} {p : κ × β} (h : p ∈ dictSet d k v) : p = (k, v) ∨ p ∈ d := by
  unfold dictSet at h
  split at h
  · obtain ⟨q, hq, hqp⟩ := List.mem_map.1 h
    split at hqp
    · exact .inl hqp.symm
    · exact .inr (hqp ▸ hq)
  · rcases List.mem_append.1 h with h | h
    · exact .inr h
    · exact .inl (List.mem_singleton.1 h)

theorem nodup_dictSet {d : List (κ × β)} (k : κ) (v : β) (h : (d.map Prod.fst).Nodup) :
    ((dictSet d k v).map Prod.fst).Nodup := by
  rw [keys_dictSet]
  split
  · exact h
  · rw [List.nodup_append]
    refine ⟨h, List.nodup_singleton k, ?_⟩
    rintro a ha b hb rfl
    rw [List.mem_singleton] at hb
    exact absurd (hb ▸ ha) ‹_›

theorem foldl_dictSet {pairs d : List (κ × β)} (h : ((d ++ pairs).map Prod.fst).Nodup) :
    pairs.foldl (fun d p => dictSet d p.1 p.2) d = d ++ pairs := by
  induction pairs generalizing d with
  | nil => simp
  | cons p pairs ih =>
    have hnew : p.1 ∉ d.map Prod.fst := by
      rw [List.map_append, List.nodup_append] at h
      exact fun hp => h.2.2 p.1 hp p.1 (by simp) rfl
    rw [List.foldl_cons, dictSet_new p.2 hnew, ih (by simpa using h)]
    simp

/-- Distinct keys make a dict as they stand. -/
theorem dictOf_eq {pairs : List (κ × β)} (h : (pairs.map Prod.fst).Nodup) : dictOf pairs = pairs := by
  rw [dictOf, foldl_dictSet (by simpa using h)]
  rfl

theorem nodup_dictOf (pairs : List (κ × β)) : ((dictOf pairs).map Prod.fst).Nodup := by
  have hgo : ∀ d : List (κ × β), (d.map Prod.fst).Nodup →
      ((pairs.foldl (fun d p => dictSet d p.1 p.2) d).map Prod.fst).Nodup := by
    induction pairs with
    | nil => exact fun d hd => hd
    | cons p pairs ih => exact fun d hd => ih _ (nodup_dictSet p.1 p.2 hd)
  exact hgo [] List.nodup_nil

theorem mem_dictOf {pairs : List (κ × β)} {p : κ × β} (h : p ∈ dictOf pairs) : p ∈ pairs := by
  have hgo : ∀ d : List (κ × β), p ∈ pairs.foldl (fun d q => dictSet d q.1 q.2) d → p ∈ d ∨ p ∈ pairs := by
    clear h
    induction pairs with
    | nil => exact fun d hd => .inl hd
    | cons q pairs ih =>
      intro d hd
      rcases ih _ hd with hd | hp
      · rcases mem_dictSet hd with rfl | hd
        · exact .inr List.mem_cons_self
        · exact .inl hd
      · exact .inr (List.mem_cons_of_mem _ hp)
  exact (hgo [] h).resolve_left (List.not_mem_nil)

/-! ## Lookups -/

theorem mem_of_lookup {d : List (κ × β)} {k : κ} {v : β} (h : d.lookup k = some v) : (k, v) ∈ d := by
  induction d with
  | nil => cases h
  | cons e d ih =>
    rw [List.lookup_cons] at h
    split at h
    · rename_i heq
      cases h
      rw [beq_iff_eq.1 heq]
      exact List.mem_cons_self ..
    · exact List.mem_cons_of_mem _ (ih h)

omit [DecidableEq κ] in
/-- A key has one value. -/
theorem value_unique {d : List (κ × β)} (hd : (d.map Prod.fst).Nodup) {k : κ} {v w : β} (hv : (k, v) ∈ d)
    (hw : (k, w) ∈ d) : v = w := by
  have hsame := List.inj_on_of_nodup_map hd hv hw rfl
  exact congrArg Prod.snd hsame

theorem lookup_of_mem {d : List (κ × β)} (hd : (d.map Prod.fst).Nodup) {k : κ} {v : β} (h : (k, v) ∈ d) :
    d.lookup k = some v := by
  cases hl : d.lookup k with
  | none => simpa using List.lookup_eq_none_iff.1 hl (k, v) h
  | some w => rw [value_unique hd h (mem_of_lookup hl)]

theorem mem_dictSet_iff {d : List (κ × β)} {k j : κ} {v w : β} :
    (j, w) ∈ dictSet d k v ↔ (j = k ∧ w = v) ∨ (j ≠ k ∧ (j, w) ∈ d) := by
  by_cases hk : k ∈ d.map Prod.fst
  · rw [dictSet, if_pos hk, List.mem_map]
    constructor
    · rintro ⟨⟨i, u⟩, hmem, heq⟩
      by_cases hi : i = k
      · rw [if_pos hi, Prod.mk.injEq] at heq
        exact .inl ⟨heq.1.symm, heq.2.symm⟩
      · rw [if_neg hi, Prod.mk.injEq] at heq
        obtain ⟨rfl, rfl⟩ := heq
        exact .inr ⟨hi, hmem⟩
    · rintro (⟨rfl, rfl⟩ | ⟨hj, hmem⟩)
      · obtain ⟨p, hp, hpk⟩ := List.mem_map.1 hk
        exact ⟨p, hp, by rw [if_pos hpk]⟩
      · exact ⟨(j, w), hmem, by rw [if_neg hj]⟩
  · rw [dictSet_new v hk, List.mem_append, List.mem_singleton, Prod.mk.injEq]
    constructor
    · rintro (hmem | hnew)
      · refine .inr ⟨?_, hmem⟩
        rintro rfl
        exact hk (List.mem_map_of_mem (f := Prod.fst) hmem)
      · exact .inl hnew
    · rintro (hnew | ⟨-, hmem⟩)
      · exact .inr hnew
      · exact .inl hmem

theorem lookup_append_new {d : List (κ × β)} {k : κ} (v : β) (h : k ∉ d.map Prod.fst) (j : κ) :
    (d ++ [(k, v)]).lookup j = if j = k then some v else d.lookup j := by
  rw [List.lookup_append]
  by_cases hj : j = k
  · have hnone : d.lookup j = none := by
      refine List.lookup_eq_none_iff.2 fun p hp => bne_iff_ne.2 ?_
      rintro rfl
      exact h (hj ▸ List.mem_map_of_mem hp)
    rw [if_pos hj, hnone, Option.none_or, hj, List.lookup_cons_self]
  · rw [if_neg hj, List.lookup_cons, beq_false_of_ne hj]
    exact Option.or_none

theorem lookup_mapValues (d : List (κ × β)) {γ : Type _} (f : κ → β → γ) (k : κ) :
    (d.map fun p => (p.1, f p.1 p.2)).lookup k = (d.lookup k).map (f k) := by
  induction d with
  | nil => rfl
  | cons p d ih =>
    rw [List.map_cons, List.lookup_cons, List.lookup_cons]
    by_cases hk : k = p.1
    · subst hk
      simp
    · simp only [beq_false_of_ne hk]
      exact ih

theorem lookup_dictSet (d : List (κ × β)) (k : κ) (v : β) (j : κ) :
    (dictSet d k v).lookup j = if j = k then some v else d.lookup j := by
  by_cases hk : k ∈ d.map Prod.fst
  · have hmap : dictSet d k v = d.map fun p => (p.1, if p.1 = k then v else p.2) := by
      rw [dictSet, if_pos hk]
      refine List.map_congr_left fun p _ => ?_
      split
      · rename_i hp
        rw [← hp]
      · rfl
    rw [hmap, lookup_mapValues d (fun i w => if i = k then v else w)]
    split
    · rename_i hj
      subst hj
      obtain ⟨p, hp, rfl⟩ := List.mem_map.1 hk
      cases hl : d.lookup p.1 with
      | none => simpa using List.lookup_eq_none_iff.1 hl p hp
      | some w => simp
    · exact Option.map_id' ..
  · rw [dictSet_new v hk]
    exact lookup_append_new v hk j

theorem lookup_filter_ne (d : List (κ × β)) (k j : κ) :
    (d.filter fun p => p.1 ≠ k).lookup j = if j = k then none else d.lookup j := by
  induction d with
  | nil => simp
  | cons p d ih =>
    rw [List.filter_cons, List.lookup_cons]
    by_cases hp : p.1 = k
    · rw [if_neg (by simpa using hp), ih]
      by_cases hj : j = k
      · rw [if_pos hj, if_pos hj]
      · rw [if_neg hj, if_neg hj, hp, beq_false_of_ne hj]
    · rw [if_pos (by simpa using hp), List.lookup_cons, ih]
      by_cases hj : j = p.1
      · subst hj
        simp only [beq_self_eq_true, if_neg hp]
      · simp only [beq_false_of_ne hj]

omit [DecidableEq κ] in
theorem nodup_filter_keys {d : List (κ × β)} (p : κ × β → Bool) (hd : (d.map Prod.fst).Nodup) :
    ((d.filter p).map Prod.fst).Nodup := hd.sublist (List.filter_sublist.map _)

/-- `d.pop(k)`: the entry, and the others. -/
theorem perm_pop {d : List (κ × β)} {k : κ} {v : β} (hd : (d.map Prod.fst).Nodup) (h : (k, v) ∈ d) :
    d.Perm ((k, v) :: d.filter fun p => p.1 ≠ k) := by
  obtain ⟨pre, post, rfl⟩ := List.append_of_mem h
  rw [List.map_append, List.map_cons, List.nodup_append, List.nodup_cons] at hd
  obtain ⟨-, ⟨hpost, -⟩, hpre⟩ := hd
  have hleft : pre.filter (fun p => p.1 ≠ k) = pre := List.filter_eq_self.2 fun p hp =>
    decide_eq_true (hpre p.1 (List.mem_map_of_mem hp) k List.mem_cons_self)
  have hright : post.filter (fun p => p.1 ≠ k) = post := List.filter_eq_self.2 fun p hp =>
    decide_eq_true fun heq => hpost (List.mem_map.2 ⟨p, hp, heq⟩)
  have hcons : ((k, v) :: post).filter (fun p => p.1 ≠ k) = post := by
    rw [List.filter_cons_of_neg (by simp), hright]
  rw [List.filter_append, hleft, hcons]
  exact List.perm_middle

/-! ## Keys that carry more than they are compared by -/

section Labels
variable {κ ι β : Type _} [DecidableEq ι] (key : κ → ι)

/-- `d[k] = v` where keys are compared by `key`. -/
def labelSet (d : List (κ × β)) (k : κ) (v : β) : List (κ × β) :=
  if key k ∈ d.map (fun p => key p.1) then d.map fun p => if key p.1 = key k then (k, v) else p else d ++ [(k, v)]

/-- `{**d, **pairs}`. -/
def labelUpdate (d pairs : List (κ × β)) : List (κ × β) := pairs.foldl (fun d p => labelSet key d p.1 p.2) d

variable {key} {d pairs : List (κ × β)} {p : κ × β}

theorem mem_labelSet {k : κ} {v : β} (h : p ∈ labelSet key d k v) : p = (k, v) ∨ p ∈ d ∧ key p.1 ≠ key k := by
  unfold labelSet at h
  split at h
  · obtain ⟨q, hq, hqp⟩ := List.mem_map.1 h
    split at hqp
    · exact .inl hqp.symm
    · exact .inr (hqp ▸ ⟨hq, ‹_›⟩)
  · rename_i hnew
    rcases List.mem_append.1 h with h | h
    · refine .inr ⟨h, fun heq => hnew ?_⟩
      rw [← heq]
      exact List.mem_map_of_mem h
    · exact .inl (List.mem_singleton.1 h)

theorem mem_labelUpdate (h : p ∈ labelUpdate key d pairs) : p ∈ pairs ∨ p ∈ d ∧ ∀ q ∈ pairs, key p.1 ≠ key q.1 := by
  induction pairs generalizing d with
  | nil => exact .inr ⟨h, nofun⟩
  | cons q pairs ih =>
    rcases ih h with h | ⟨h, hne⟩
    · exact .inl (List.mem_cons_of_mem _ h)
    · rcases mem_labelSet h with rfl | ⟨h, hq⟩
      · exact .inl List.mem_cons_self
      · refine .inr ⟨h, fun r hr => ?_⟩
        rcases List.mem_cons.1 hr with rfl | hr
        · exact hq
        · exact hne r hr

theorem keys_labelSet {k : κ} {v : β} {i : ι} (h : i = key k ∨ i ∈ d.map (fun p => key p.1)) :
    i ∈ (labelSet key d k v).map (fun p => key p.1) := by
  have hkeys : ∀ p : κ × β, key (if key p.1 = key k then (k, v) else p).1 = key p.1 := by
    intro p
    split
    · exact Eq.symm ‹_›
    · rfl
  unfold labelSet
  split
  · rename_i hk
    rw [List.map_map]
    simp only [Function.comp_def, hkeys]
    rcases h with rfl | h
    · exact hk
    · exact h
  · rw [List.map_append, List.mem_append]
    rcases h with rfl | h
    · exact .inr (List.mem_singleton_self _)
    · exact .inl h

/-- Every key that was set is a key. -/
theorem keys_labelUpdate {i : ι} (h : i ∈ pairs.map (fun p => key p.1) ∨ i ∈ d.map (fun p => key p.1)) :
    i ∈ (labelUpdate key d pairs).map (fun p => key p.1) := by
  induction pairs generalizing d with
  | nil => exact h.resolve_left List.not_mem_nil
  | cons q pairs ih =>
    apply ih
    rcases h with h | h
    · rcases List.mem_cons.1 h with h | h
      · exact .inr (keys_labelSet (.inl h))
      · exact .inl h
    · exact .inr (keys_labelSet (.inr h))

theorem labelUpdate_eq (h : ((d ++ pairs).map (fun p => key p.1)).Nodup) : labelUpdate key d pairs = d ++ pairs := by
  induction pairs generalizing d with
  | nil => exact (List.append_nil d).symm
  | cons q pairs ih =>
    have hnew : key q.1 ∉ d.map (fun p => key p.1) := by
      rw [List.map_append, List.nodup_append] at h
      exact fun hq => h.2.2 _ hq _ List.mem_cons_self rfl
    have hset : labelSet key d q.1 q.2 = d ++ [q] := if_neg hnew
    rw [labelUpdate, List.foldl_cons, hset]
    refine (ih (by simpa using h)).trans ?_
    simp

end Labels

end AgentSdk.Lib
