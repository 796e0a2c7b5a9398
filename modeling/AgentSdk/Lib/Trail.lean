import Mathlib.Data.List.Basic
import Mathlib.Data.List.Nodup
/-!
# Following parent pointers

`next v` looks a node up and gives its value and its parent, or `none` for an
unknown node. `Trail next o l`: from `o` the parents lead to a root, and `l`
holds the values on the way, root first. `walk` and `walkTo` are the loops
that programs write for it; the lemmas say what they compute on a trail.
-/

namespace AgentSdk.Lib

variable {ι β : Type*}

inductive Trail (next : ι → Option (β × Option ι)) : Option ι → List β → Prop
  | root : Trail next none []
  | node {v b p l} : next v = some (b, p) → Trail next p l → Trail next (some v) (l ++ [b])

namespace Trail
variable {next next' : ι → Option (β × Option ι)}

theorem none_iff {l : List β} : Trail next none l ↔ l = [] :=
  ⟨fun h => by cases h; rfl, by rintro rfl; exact .root⟩

theorem some_iff {v : ι} {l : List β} :
    Trail next (some v) l ↔ ∃ b p l', next v = some (b, p) ∧ Trail next p l' ∧ l = l' ++ [b] := by
  constructor
  · rintro (_ | ⟨hn, ht⟩)
    exact ⟨_, _, _, hn, ht, rfl⟩
  · rintro ⟨b, p, l', hn, ht, rfl⟩
    exact .node hn ht

/-- A start has at most one trail. -/
theorem unique {o : Option ι} {l l' : List β} (h : Trail next o l) (h' : Trail next o l') : l = l' := by
  induction h generalizing l' with
  | root => exact (none_iff.1 h').symm
  | node hn _ ih =>
    obtain ⟨b', p', l'', hn', ht', rfl⟩ := some_iff.1 h'
    rw [hn] at hn'
    cases hn'
    rw [ih ht']

/-- A trail survives any change that keeps the nodes on it. -/
theorem mono (hsub : ∀ v b p, next v = some (b, p) → next' v = some (b, p)) {o : Option ι} {l : List β}
    (h : Trail next o l) : Trail next' o l := by
  induction h with
  | root => exact .root
  | node hn _ ih => exact .node (hsub _ _ _ hn) ih

/-- The same way, with other values. -/
theorem map {γ : Type*} {next₂ : ι → Option (γ × Option ι)} {f : β → γ} {o : Option ι} {l : List β}
    (h : Trail next o l) (hsub : ∀ v b p, b ∈ l → next v = some (b, p) → next₂ v = some (f b, p)) :
    Trail next₂ o (l.map f) := by
  induction h with
  | root => exact .root
  | node hn _ ih =>
    rw [List.map_append]
    exact .node (hsub _ _ _ (by simp) hn) (ih fun v b p hb => hsub v b p (List.mem_append_left _ hb))

/-- A node on a trail leads to the part before it. -/
theorem split {o : Option ι} {pre post : List β} {b : β} (h : Trail next o (pre ++ b :: post)) :
    ∃ v p, next v = some (b, p) ∧ Trail next p pre := by
  generalize hl : pre ++ b :: post = l at h
  induction h generalizing post with
  | root => simp at hl
  | @node v c p l hn ht ih =>
    rcases List.eq_nil_or_concat post with rfl | ⟨post, d, rfl⟩
    · obtain ⟨rfl, hb⟩ := List.append_inj' hl rfl
      cases hb
      exact ⟨v, p, hn, ht⟩
    · rw [List.concat_eq_append, ← List.cons_append, ← List.append_assoc] at hl
      obtain ⟨hl, -⟩ := List.append_inj' hl rfl
      exact ih hl

/-- Where every known node's parent is known and smaller, every known node
has a trail. -/
theorem exists_of_rank (rank : ι → Nat)
    (hr : ∀ v b p, next v = some (b, some p) → rank p < rank v ∧ (next p).isSome) (v : ι)
    (hv : (next v).isSome) : ∃ l, Trail next (some v) l := by
  induction hk : rank v using Nat.strongRecOn generalizing v with
  | _ k ih =>
    obtain ⟨⟨b, p⟩, hn⟩ := Option.isSome_iff_exists.1 hv
    cases p with
    | none => exact ⟨_, .node hn .root⟩
    | some p =>
      obtain ⟨hlt, hp⟩ := hr v b p hn
      obtain ⟨l, hl⟩ := ih (rank p) (hk ▸ hlt) p hp rfl
      exact ⟨_, .node hn hl⟩

section Keyed
variable {key : β → ι} (hkey : ∀ v b p, next v = some (b, p) → key b = v)
include hkey

/-- Every node on a trail heads a prefix of it. -/
theorem prefix_of_mem {o : Option ι} {l : List β} (h : Trail next o l) {b : β} (hb : b ∈ l) :
    ∃ l', Trail next (some (key b)) l' ∧ l' <+: l := by
  induction h with
  | root => cases hb
  | @node v c p l hn ht ih =>
    rcases List.mem_append.1 hb with hb | hb
    · obtain ⟨l', h1, h2⟩ := ih hb
      exact ⟨l', h1, h2.trans (List.prefix_append l [c])⟩
    · rw [List.mem_singleton] at hb
      subst hb
      exact ⟨l ++ [b], hkey _ _ _ hn ▸ .node hn ht, List.prefix_rfl⟩

/-- No node occurs twice on a trail. -/
theorem nodup {o : Option ι} {l : List β} (h : Trail next o l) : (l.map key).Nodup := by
  induction h with
  | root => simp
  | @node v b p l hn ht ih =>
    rw [List.map_append, List.nodup_append]
    refine ⟨ih, by simp, ?_⟩
    rintro x hx y hy rfl
    simp only [List.map_cons, List.map_nil, List.mem_singleton] at hy
    obtain ⟨c, hc, hcx⟩ := List.mem_map.1 hx
    obtain ⟨l', h1, h2⟩ := prefix_of_mem hkey ht hc
    -- The trail from `v` would be a prefix of its own proper prefix.
    rw [hcx, hy, hkey _ _ _ hn] at h1
    have hlen := h2.length_le
    rw [unique h1 (.node hn ht), List.length_append, List.length_singleton] at hlen
    omega

/-- A trail starts at its last node. -/
theorem start_eq {o : Option ι} {l : List β} (h : Trail next o l) : o = l.getLast?.map key := by
  cases h with
  | root => rfl
  | node hn _ => simp [hkey _ _ _ hn]

/-- The values tell where a trail starts. -/
theorem start_unique {o o' : Option ι} {l : List β} (h : Trail next o l) (h' : Trail next o' l) : o = o' := by
  cases h with
  | root =>
    cases o' with
    | none => rfl
    | some v =>
      obtain ⟨b, p, l', -, -, hl⟩ := some_iff.1 h'
      simp at hl
  | node hn _ =>
    cases o' with
    | none => simp [none_iff] at h'
    | some v =>
      obtain ⟨b, p, l', hn', -, hl⟩ := some_iff.1 h'
      obtain ⟨-, hb⟩ := List.append_inj' hl rfl
      cases hb
      rw [← hkey _ _ _ hn, hkey _ _ _ hn']

theorem start_eq_iff {o o' : Option ι} {l l' : List β} (h : Trail next o l) (h' : Trail next o' l') :
    o = o' ↔ l = l' := by
  constructor
  · rintro rfl
    exact unique h h'
  · rintro rfl
    exact start_unique hkey h h'

end Keyed

end Trail

/-! ## The loops -/

variable [DecidableEq ι]

/-- Climb to the root collecting values, leaf first; `none` on a cycle. An
unknown node ends the walk. `fuel` bounds the number of nodes. -/
def walk (next : ι → Option (β × Option ι)) : Nat → List ι → Option ι → Option (List β)
  | 0, _, _ => none
  | _ + 1, _, none => some []
  | n + 1, seen, some v =>
    if v ∈ seen then none
    else match next v with
      | none => some []
      | some (b, p) => (walk next n (v :: seen) p).map (b :: ·)

theorem walk_of_trail {next : ι → Option (β × Option ι)} {key : β → ι}
    (hkey : ∀ v b p, next v = some (b, p) → key b = v) {o : Option ι} {l : List β} (h : Trail next o l) :
    ∀ (n : Nat) (seen : List ι), l.length < n → (∀ b ∈ l, key b ∉ seen) →
      walk next n seen o = some l.reverse := by
  induction h with
  | root =>
    intro n seen hn _
    cases n with
    | zero => simp at hn
    | succ n => rfl
  | @node v b p l hn ht ih =>
    intro n seen hlt hseen
    have hkb := hkey _ _ _ hn
    have hnd := Trail.nodup hkey (Trail.node hn ht)
    cases n with
    | zero => simp at hlt
    | succ n =>
      have hv : v ∉ seen := hkb ▸ hseen b (by simp)
      have hrest : ∀ c ∈ l, key c ∉ v :: seen := by
        intro c hc
        simp only [List.mem_cons, not_or]
        refine ⟨fun he => ?_, hseen c (by simp [hc])⟩
        rw [List.map_append, List.nodup_append] at hnd
        exact hnd.2.2 (key c) (List.mem_map_of_mem hc) v (by simp [hkb]) he
      simp only [walk, hv, if_false, hn]
      rw [ih n (v :: seen) (by simpa using hlt) hrest]
      simp

/-- The climb that collects at most `limit` values. -/
def walkAtMost (next : ι → Option (β × Option ι)) : Nat → List ι → Option ι → Option (List β)
  | 0, _, _ => some []
  | _ + 1, _, none => some []
  | limit + 1, seen, some v =>
    if v ∈ seen then none
    else match next v with
      | none => some []
      | some (b, p) => (walkAtMost next limit (v :: seen) p).map (b :: ·)

theorem walkAtMost_of_trail {next : ι → Option (β × Option ι)} {key : β → ι}
    (hkey : ∀ v b p, next v = some (b, p) → key b = v) {o : Option ι} {l : List β} (h : Trail next o l) :
    ∀ (limit : Nat) (seen : List ι), (∀ b ∈ l, key b ∉ seen) →
      walkAtMost next limit seen o = some (l.reverse.take limit) := by
  induction h with
  | root =>
    intro limit seen _
    cases limit <;> rfl
  | @node v b p l hn ht ih =>
    intro limit seen hseen
    cases limit with
    | zero => rfl
    | succ limit =>
      have hkb := hkey _ _ _ hn
      have hnd := Trail.nodup hkey (Trail.node hn ht)
      have hv : v ∉ seen := hkb ▸ hseen b (by simp)
      have hrest : ∀ c ∈ l, key c ∉ v :: seen := by
        intro c hc
        simp only [List.mem_cons, not_or]
        refine ⟨fun he => ?_, hseen c (by simp [hc])⟩
        rw [List.map_append, List.nodup_append] at hnd
        exact hnd.2.2 (key c) (List.mem_map_of_mem hc) v (by simp [hkb]) he
      simp only [walkAtMost, hv, if_false, hn]
      rw [ih limit (v :: seen) hrest]
      simp

/-- Climb until `stop` or the root, collecting values leaf first, and give
where the climb ended; `none` on an unknown node. -/
def walkTo (next : ι → Option (β × Option ι)) (stop : Option ι) : Nat → Option ι → Option (List β × Option ι)
  | 0, _ => none
  | _ + 1, none => some ([], none)
  | n + 1, some v =>
    if some v = stop then some ([], some v)
    else match next v with
      | none => none
      | some (b, p) => (walkTo next stop n p).map (fun r => (b :: r.1, r.2))

/-- On a trail the climb always ends: at `stop`, with what lies behind it, or
at the root, with the whole trail, when `stop` is not on the way. -/
theorem walkTo_of_trail {next : ι → Option (β × Option ι)} {key : β → ι}
    (hkey : ∀ v b p, next v = some (b, p) → key b = v) (stop : Option ι) {o : Option ι} {l : List β}
    (h : Trail next o l) : ∀ n, l.length < n →
      ∃ t c, walkTo next stop n o = some (t.reverse, c) ∧
        ((c = stop ∧ ∃ l', Trail next c l' ∧ l = l' ++ t) ∨
          (c = none ∧ c ≠ stop ∧ ∀ b ∈ l, some (key b) ≠ stop)) := by
  induction h with
  | root =>
    intro n hn
    cases n with
    | zero => simp at hn
    | succ n =>
      refine ⟨[], none, rfl, ?_⟩
      by_cases hs : (none : Option ι) = stop
      · exact .inl ⟨hs, [], .root, rfl⟩
      · exact .inr ⟨rfl, hs, by simp⟩
  | @node v b p l hn ht ih =>
    intro n hlt
    cases n with
    | zero => simp at hlt
    | succ n =>
      by_cases hs : some v = stop
      · exact ⟨[], some v, by simp [walkTo, hs], .inl ⟨hs, _, .node hn ht, by simp⟩⟩
      · obtain ⟨t, c, hw, hc⟩ := ih n (by simpa using hlt)
        refine ⟨t ++ [b], c, by simp [walkTo, hs, hn, hw], ?_⟩
        rcases hc with ⟨h1, l', h2, h3⟩ | ⟨h1, h2, h3⟩
        · exact .inl ⟨h1, l', h2, by simp [h3]⟩
        · refine .inr ⟨h1, h2, fun c hc => ?_⟩
          rcases List.mem_append.1 hc with hc | hc
          · exact h3 c hc
          · rw [List.mem_singleton.1 hc, hkey _ _ _ hn]
            exact hs

end AgentSdk.Lib
