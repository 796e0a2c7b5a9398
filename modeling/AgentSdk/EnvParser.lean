import AgentSdk.Lib.Dict
import Mathlib.Data.List.GetD
/-!
# Merging configurations

`merge` of `env_parser`: what one source of the configuration says over what another
one says. Values may be missing, also inside dicts and lists.
-/

namespace AgentSdk.EnvParser
open Lib

/-- `str | int | float | bool | dict | list | None | MissingType`; `σ` are the first four,
`null` is `None`. -/
inductive JsonType (σ : Type _) where
  | missing
  | null
  | scalar (s : σ)
  | dict (entries : List (String × JsonType σ))
  | list (items : List (JsonType σ))

variable {σ : Type _}

mutual

/-- Nothing where it raises `IndexError`. -/
def merge (noneOverrides : Bool) : JsonType σ → JsonType σ → Option (JsonType σ)
  | .missing, b => some b
  | a, .missing => some a
  | .dict xs, .dict ys => (mergeEntries noneOverrides xs ys).map .dict
  | .list xs, .list ys => (mergeItems noneOverrides xs ys).map .list
  | a, .null => some (if noneOverrides then .null else a)
  | _, b => some b

/-- The loop over the entries of `b`; `result.get` gives `None` for a key it does not have. -/
def mergeEntries (noneOverrides : Bool) : List (String × JsonType σ) → List (String × JsonType σ) →
    Option (List (String × JsonType σ))
  | result, [] => some result
  | result, (key, value) :: ys => do
    let merged ← merge noneOverrides ((result.lookup key).getD .null) value
    mergeEntries noneOverrides (dictSet result key merged) ys

/-- The loop over the items of `b`: `result[index] = value` raises behind the end of `a`. -/
def mergeItems (noneOverrides : Bool) : List (JsonType σ) → List (JsonType σ) → Option (List (JsonType σ))
  | xs, [] => some xs
  | [], _ :: _ => none
  | x :: xs, y :: ys => do
    let z ← merge noneOverrides x y
    return z :: (← mergeItems noneOverrides xs ys)

end

namespace JsonType

/-- The dicts have distinct keys. -/
inductive Distinct : JsonType σ → Prop
  | missing : Distinct .missing
  | null : Distinct .null
  | scalar (s : σ) : Distinct (.scalar s)
  | dict {entries : List (String × JsonType σ)} : (entries.map Prod.fst).Nodup → (∀ e ∈ entries, Distinct e.2) →
      Distinct (.dict entries)
  | list {items : List (JsonType σ)} : (∀ x ∈ items, Distinct x) → Distinct (.list items)

/-! ## Paths -/

inductive Step where
  | key (k : String)
  | index (i : Nat)
deriving DecidableEq

def child : JsonType σ → Step → JsonType σ
  | .dict xs, .key k => (xs.lookup k).getD .missing
  | .list xs, .index i => xs.getD i .missing
  | _, _ => .missing

/-- The value at a path; missing where there is none. -/
def get : JsonType σ → List Step → JsonType σ
  | v, [] => v
  | v, s :: path => (v.child s).get path

def SameKind : JsonType σ → JsonType σ → Prop
  | .dict _, .dict _ | .list _, .list _ => True
  | _, _ => False

/-- Before the end of the path both values are dicts or both are lists, everywhere. -/
def Joint : JsonType σ → JsonType σ → List Step → Prop
  | _, _, [] => True
  | a, b, s :: path => SameKind a b ∧ Joint (a.child s) (b.child s) path

/-- At one place `z` is what `y` says over `x`. -/
def Overrides (noneOverrides : Bool) (x y z : JsonType σ) : Prop :=
  match x, y with
  | .missing, y => z = y
  | x, .missing => z = x
  | .dict xs, .dict ys => ∃ zs, z = .dict zs ∧ ∀ k, k ∈ zs.map Prod.fst ↔ k ∈ xs.map Prod.fst ∨ k ∈ ys.map Prod.fst
  | .list xs, .list ys => ∃ zs, z = .list zs ∧ zs.length = max xs.length ys.length
  | x, .null => z = if noneOverrides then .null else x
  | _, y => z = y

/-- At every path up to which both have containers, what `b` says over `a`. -/
def DeepOverride (noneOverrides : Bool) (a b r : JsonType σ) : Prop :=
  ∀ path, Joint a b path → Overrides noneOverrides (a.get path) (b.get path) (r.get path)

/-- Lists of `b` are not longer than those of `a`, and keys of `b` with a missing value
are keys of `a`. -/
def Fits : JsonType σ → JsonType σ → Prop
  | .dict xs, .dict ys => ∀ k, ys.lookup k = some .missing → k ∈ xs.map Prod.fst
  | .list xs, .list ys => ys.length ≤ xs.length
  | _, _ => True

def Mergeable (a b : JsonType σ) : Prop := ∀ path, Joint a b path → Fits (a.get path) (b.get path)

end JsonType

/-! ## Step by step -/

section
open JsonType
variable {noneOverrides : Bool} {a b r : JsonType σ} {xs ys zs : List (String × JsonType σ)}

theorem deepOverride_iff : DeepOverride noneOverrides a b r ↔ Overrides noneOverrides a b r ∧
    (SameKind a b → ∀ s, DeepOverride noneOverrides (a.child s) (b.child s) (r.child s)) := by
  constructor
  · exact fun h => ⟨h [] trivial, fun hk s path hp => h (s :: path) ⟨hk, hp⟩⟩
  · rintro ⟨h, hs⟩ path hp
    cases path with
    | nil => exact h
    | cons s path => exact hs hp.1 s path hp.2

theorem mergeable_iff : Mergeable a b ↔ Fits a b ∧ (SameKind a b → ∀ s, Mergeable (a.child s) (b.child s)) := by
  constructor
  · exact fun h => ⟨h [] trivial, fun hk s path hp => h (s :: path) ⟨hk, hp⟩⟩
  · rintro ⟨h, hs⟩ path hp
    cases path with
    | nil => exact h
    | cons s path => exact hs hp.1 s path hp.2

theorem mergeable_of_not (h : ¬ SameKind a b) : Mergeable a b := by
  refine mergeable_iff.2 ⟨?_, fun hk => absurd hk h⟩
  cases a <;> cases b <;> first | trivial | exact absurd trivial h

theorem deepOverride_missing (noneOverrides : Bool) (b : JsonType σ) : DeepOverride noneOverrides .missing b b :=
  deepOverride_iff.2 ⟨rfl, fun hk => hk.elim⟩

theorem deepOverride_missing_right (noneOverrides : Bool) (a : JsonType σ) : DeepOverride noneOverrides a .missing a := by
  refine deepOverride_iff.2 ⟨?_, fun hk => ?_⟩
  · cases a <;> rfl
  · cases a <;> exact hk.elim

theorem merge_missing_right (a : JsonType σ) : merge noneOverrides a .missing = some a := by
  cases a <;> rfl

/-- The merge of an absent value does not raise. -/
theorem merge_null (v : JsonType σ) : merge noneOverrides .null v = some (if v matches .missing then .null else v) := by
  cases v <;> simp [merge]

theorem merge_dict (xs ys : List (String × JsonType σ)) :
    merge noneOverrides (.dict xs) (.dict ys) = (mergeEntries noneOverrides xs ys).map .dict := rfl

theorem merge_list (xs ys : List (JsonType σ)) :
    merge noneOverrides (.list xs) (.list ys) = (mergeItems noneOverrides xs ys).map .list := rfl

theorem mergeEntries_nil (xs : List (String × JsonType σ)) : mergeEntries noneOverrides xs [] = some xs := rfl

theorem mergeItems_nil (xs : List (JsonType σ)) : mergeItems noneOverrides xs [] = some xs := rfl

theorem mergeItems_cons (x y : JsonType σ) (xs ys : List (JsonType σ)) :
    mergeItems noneOverrides (x :: xs) (y :: ys) = do
      let z ← merge noneOverrides x y
      return z :: (← mergeItems noneOverrides xs ys) := rfl

theorem mergeEntries_cons {k : String} {v : JsonType σ} (h : mergeEntries noneOverrides xs ((k, v) :: ys) = some zs) :
    ∃ z, merge noneOverrides ((xs.lookup k).getD .null) v = some z ∧
      mergeEntries noneOverrides (dictSet xs k z) ys = some zs :=
  Option.bind_eq_some_iff.1 h

theorem lookup_none_of_not_mem {k : String} (h : k ∉ xs.map Prod.fst) : xs.lookup k = none := by
  refine List.lookup_eq_none_iff.2 fun e he => bne_iff_ne.2 ?_
  rintro rfl
  exact h (List.mem_map_of_mem he)

/-- Each value of the one dict is merged over the value the other one has. -/
theorem lookup_mergeEntries (hys : (ys.map Prod.fst).Nodup) (h : mergeEntries noneOverrides xs ys = some zs) (k : String) :
    zs.lookup k = match ys.lookup k with
      | none => xs.lookup k
      | some v => merge noneOverrides ((xs.lookup k).getD .null) v := by
  induction ys generalizing xs with
  | nil =>
    rw [mergeEntries_nil] at h
    cases h
    rfl
  | cons e ys ih =>
    obtain ⟨j, v⟩ := e
    obtain ⟨hj, hys⟩ := List.nodup_cons.1 hys
    obtain ⟨z, hz, hrest⟩ := mergeEntries_cons h
    rw [ih hys hrest, lookup_dictSet, List.lookup_cons]
    by_cases hk : k = j
    · subst hk
      rw [lookup_none_of_not_mem hj]
      simp [hz]
    · rw [if_neg hk, beq_false_of_ne hk]

theorem keys_mergeEntries (h : mergeEntries noneOverrides xs ys = some zs) (k : String) :
    k ∈ zs.map Prod.fst ↔ k ∈ xs.map Prod.fst ∨ k ∈ ys.map Prod.fst := by
  induction ys generalizing xs with
  | nil =>
    rw [mergeEntries_nil] at h
    cases h
    simp
  | cons e ys ih =>
    obtain ⟨j, v⟩ := e
    obtain ⟨z, -, hrest⟩ := mergeEntries_cons h
    have hkeys : k ∈ (dictSet xs j z).map Prod.fst ↔ k ∈ xs.map Prod.fst ∨ k = j := by
      rw [keys_dictSet]
      split
      · exact ⟨.inl, fun hk => hk.elim id fun hk => hk ▸ ‹_›⟩
      · simp
    rw [ih hrest, hkeys, List.map_cons, List.mem_cons, or_assoc]

theorem mergeEntries_ok (hys : (ys.map Prod.fst).Nodup)
    (hok : ∀ k v, ys.lookup k = some v → ∃ z, merge noneOverrides ((xs.lookup k).getD .null) v = some z) :
    ∃ zs, mergeEntries noneOverrides xs ys = some zs := by
  induction ys generalizing xs with
  | nil => exact ⟨xs, mergeEntries_nil xs⟩
  | cons e ys ih =>
    obtain ⟨j, v⟩ := e
    obtain ⟨hj, hys⟩ := List.nodup_cons.1 hys
    obtain ⟨z, hz⟩ := hok j v List.lookup_cons_self
    have hrest : ∀ k w, ys.lookup k = some w →
        ∃ z', merge noneOverrides (((dictSet xs j z).lookup k).getD .null) w = some z' := by
      intro k w hw
      have hk : k ≠ j := by
        rintro rfl
        rw [lookup_none_of_not_mem hj] at hw
        cases hw
      rw [lookup_dictSet, if_neg hk]
      exact hok k w (by rw [List.lookup_cons, beq_false_of_ne hk]; exact hw)
    obtain ⟨zs, hzs⟩ := ih hys hrest
    exact ⟨zs, Option.bind_eq_some_iff.2 ⟨z, hz, hzs⟩⟩

theorem mergeItems_some {xs ys zs : List (JsonType σ)} (h : mergeItems noneOverrides xs ys = some zs) :
    ys.length ≤ xs.length ∧ zs.length = xs.length ∧
      ∀ i, merge noneOverrides (xs.getD i .missing) (ys.getD i .missing) = some (zs.getD i .missing) := by
  induction ys generalizing xs zs with
  | nil =>
    rw [mergeItems_nil] at h
    cases h
    refine ⟨Nat.zero_le _, rfl, fun i => ?_⟩
    rw [List.getD_nil]
    exact merge_missing_right _
  | cons y ys ih =>
    cases xs with
    | nil => cases h
    | cons x xs =>
      obtain ⟨z, hz, h⟩ := Option.bind_eq_some_iff.1 h
      obtain ⟨zs, hzs, h⟩ := Option.bind_eq_some_iff.1 h
      cases h
      obtain ⟨hlen, hlen', hmerge⟩ := ih hzs
      refine ⟨Nat.succ_le_succ hlen, congrArg (· + 1) hlen', fun i => ?_⟩
      cases i with
      | zero => exact hz
      | succ i => exact hmerge i

theorem mergeItems_ok {xs ys : List (JsonType σ)} (hlen : ys.length ≤ xs.length)
    (hok : ∀ i (hi : i < ys.length), ∃ z, merge noneOverrides (xs.getD i .missing) ys[i] = some z) :
    ∃ zs, mergeItems noneOverrides xs ys = some zs := by
  induction ys generalizing xs with
  | nil => exact ⟨xs, mergeItems_nil xs⟩
  | cons y ys ih =>
    cases xs with
    | nil => simp at hlen
    | cons x xs =>
      obtain ⟨z, hz⟩ := hok 0 (Nat.zero_lt_succ _)
      obtain ⟨zs, hzs⟩ := ih (Nat.le_of_succ_le_succ hlen) fun i hi => hok (i + 1) (Nat.succ_lt_succ hi)
      refine ⟨z :: zs, ?_⟩
      rw [mergeItems_cons, show merge noneOverrides x y = some z from hz, hzs]
      rfl

/-! ## Deep override -/

/-- Where the values do not both have parts, the merge is what it is at one place. -/
theorem merge_of_not_sameKind (h : ¬ SameKind a b) :
    ∃ r, merge noneOverrides a b = some r ∧ DeepOverride noneOverrides a b r := by
  suffices hr : ∃ r, merge noneOverrides a b = some r ∧ Overrides noneOverrides a b r by
    obtain ⟨r, hr, hover⟩ := hr
    exact ⟨r, hr, deepOverride_iff.2 ⟨hover, fun hk => absurd hk h⟩⟩
  cases a <;> cases b <;> first
    | exact absurd trivial h
    | exact ⟨_, rfl, rfl⟩

theorem exists_lookup {k : String} (h : k ∈ xs.map Prod.fst) : ∃ v, xs.lookup k = some v := by
  cases hv : xs.lookup k with
  | some v => exact ⟨v, rfl⟩
  | none =>
    obtain ⟨e, he, rfl⟩ := List.mem_map.1 h
    simpa using List.lookup_eq_none_iff.1 hv e he

theorem not_sameKind_missing : ¬ SameKind a (.missing : JsonType σ) := by
  cases a <;> exact id

/-- A dict over a dict. -/
theorem merge_dict_iff (hys : (ys.map Prod.fst).Nodup)
    (ih : ∀ e ∈ ys, ∀ a : JsonType σ, (∃ r, merge noneOverrides a e.2 = some r ∧ DeepOverride noneOverrides a e.2 r) ↔
      Mergeable a e.2) :
    (∃ r, merge noneOverrides (.dict xs) (.dict ys) = some r ∧ DeepOverride noneOverrides (.dict xs) (.dict ys) r) ↔
      Mergeable (.dict xs) (.dict ys) := by
  have ih' : ∀ {k v}, ys.lookup k = some v → ∀ a : JsonType σ,
      (∃ r, merge noneOverrides a v = some r ∧ DeepOverride noneOverrides a v r) ↔ Mergeable a v :=
    fun hv => ih _ (mem_of_lookup hv)
  rw [mergeable_iff]
  constructor
  · rintro ⟨r, hr, hover⟩
    rw [merge_dict] at hr
    obtain ⟨zs, hzs, rfl⟩ := Option.map_eq_some_iff.1 hr
    have hlookup := lookup_mergeEntries hys hzs
    have hchild := (deepOverride_iff.1 hover).2 trivial
    refine ⟨fun k hk => ?_, fun _ s => ?_⟩
    · by_contra hno
      have hz := hlookup k
      rw [hk, lookup_none_of_not_mem hno] at hz
      -- A missing value can override only a value that is there.
      have hmissing := (deepOverride_iff.1 (hchild (.key k))).1
      simp [child, hk, lookup_none_of_not_mem hno, hz, merge, Overrides] at hmissing
    · cases s with
      | index i => exact mergeable_of_not not_sameKind_missing
      | key k =>
        have hk := hchild (.key k)
        -- Only a key of both dictionaries asks for more: its two values have to merge.
        cases hv : ys.lookup k with
        | none => exact mergeable_of_not (by simpa [child, hv] using not_sameKind_missing)
        | some v =>
          cases hw : xs.lookup k with
          | none => exact mergeable_of_not (by simp [child, hw, SameKind])
          | some w =>
            obtain ⟨z, hz⟩ := exists_lookup ((keys_mergeEntries hzs k).2 (.inr (List.mem_map_of_mem (mem_of_lookup hv))))
            have hmerge := hlookup k
            simp only [hv, hw, hz, child, Option.getD_some] at hmerge hk ⊢
            exact (ih' hv w).1 ⟨z, hmerge.symm, hk⟩
  · rintro ⟨hfits, hchild⟩
    -- Each value of the override merges with what it meets.
    have hok : ∀ k v, ys.lookup k = some v → ∃ z, merge noneOverrides ((xs.lookup k).getD .null) v = some z := by
      intro k v hv
      cases hw : xs.lookup k with
      | none => exact ⟨_, merge_null v⟩
      | some w =>
        have hk := hchild trivial (.key k)
        simp only [child, hv, hw, Option.getD_some] at hk
        obtain ⟨z, hz, -⟩ := (ih' hv w).2 hk
        exact ⟨z, hz⟩
    obtain ⟨zs, hzs⟩ := mergeEntries_ok hys hok
    have hlookup := lookup_mergeEntries hys hzs
    refine ⟨.dict zs, by rw [merge_dict, hzs]; rfl, deepOverride_iff.2 ⟨⟨zs, rfl, keys_mergeEntries hzs⟩, fun _ s => ?_⟩⟩
    cases s with
    | index i => exact deepOverride_missing noneOverrides _
    | key k =>
      have hz := hlookup k
      have hk := hchild trivial (.key k)
      cases hv : ys.lookup k with
      | none =>
        simp only [hv] at hz
        simp only [child, hv, hz, Option.getD_none]
        exact deepOverride_missing_right noneOverrides _
      | some v =>
        cases hw : xs.lookup k with
        | none =>
          have hne : v ≠ .missing := by
            rintro rfl
            obtain ⟨w, hw'⟩ := exists_lookup (hfits k hv)
            rw [hw] at hw'
            cases hw'
          simp only [hv, hw, Option.getD_none, merge_null] at hz
          simp only [child, hv, hw, hz, Option.getD_none, Option.getD_some]
          cases v with
          | missing => exact absurd rfl hne
          | null | scalar | dict | list => exact deepOverride_missing noneOverrides _
        | some w =>
          simp only [child, hv, hw, Option.getD_some] at hk hz
          obtain ⟨z, hz', hover⟩ := (ih' hv w).2 hk
          rw [hz'] at hz
          simpa [child, hv, hw, hz] using hover

/-- A list over a list. -/
theorem merge_list_iff {xs ys : List (JsonType σ)}
    (ih : ∀ y ∈ ys, ∀ a : JsonType σ, (∃ r, merge noneOverrides a y = some r ∧ DeepOverride noneOverrides a y r) ↔
      Mergeable a y) :
    (∃ r, merge noneOverrides (.list xs) (.list ys) = some r ∧ DeepOverride noneOverrides (.list xs) (.list ys) r) ↔
      Mergeable (.list xs) (.list ys) := by
  rw [mergeable_iff]
  constructor
  · rintro ⟨r, hr, hover⟩
    rw [merge_list] at hr
    obtain ⟨zs, hzs, rfl⟩ := Option.map_eq_some_iff.1 hr
    obtain ⟨hlen, -, hmerge⟩ := mergeItems_some hzs
    have hchild := (deepOverride_iff.1 hover).2 trivial
    refine ⟨hlen, fun _ s => ?_⟩
    cases s with
    | key k => exact mergeable_of_not not_sameKind_missing
    | index i =>
      by_cases hi : i < ys.length
      · have hy : ys.getD i .missing ∈ ys := by simp [hi]
        exact (ih _ hy _).1 ⟨_, hmerge i, hchild (.index i)⟩
      · refine mergeable_of_not ?_
        simp only [child, List.getD_eq_default ys _ (Nat.le_of_not_lt hi)]
        exact not_sameKind_missing
  · rintro ⟨hlen, hchild⟩
    have hok : ∀ i (hi : i < ys.length), ∃ z, merge noneOverrides (xs.getD i .missing) ys[i] = some z ∧
        DeepOverride noneOverrides (xs.getD i .missing) ys[i] z := by
      intro i hi
      have hk := hchild trivial (.index i)
      simp only [child, List.getD_eq_getElem _ _ hi] at hk
      exact (ih _ (List.getElem_mem hi) _).2 hk
    obtain ⟨zs, hzs⟩ := mergeItems_ok hlen fun i hi => (hok i hi).imp fun _ h => h.1
    obtain ⟨-, hlen', hmerge⟩ := mergeItems_some hzs
    refine ⟨.list zs, by rw [merge_list, hzs]; rfl, deepOverride_iff.2 ⟨⟨zs, rfl, hlen'.trans (Nat.max_eq_left hlen).symm⟩, fun _ s => ?_⟩⟩
    cases s with
    | key k => exact deepOverride_missing noneOverrides _
    | index i =>
      by_cases hi : i < ys.length
      · obtain ⟨z, hz, hover⟩ := hok i hi
        have hzi := hmerge i
        simp only [List.getD_eq_getElem _ _ hi, hz, Option.some.injEq] at hzi
        simpa only [child, List.getD_eq_getElem _ _ hi, ← hzi] using hover
      · have hzi := hmerge i
        rw [List.getD_eq_default ys _ (Nat.le_of_not_lt hi), merge_missing_right, Option.some.injEq] at hzi
        rw [child, child, child, ← hzi, List.getD_eq_default ys _ (Nat.le_of_not_lt hi)]
        exact deepOverride_missing_right noneOverrides _

/-- The merge of two values is a deep override if and only if they fit at every path. -/
theorem merge_iff (hb : b.Distinct) : (∃ r, merge noneOverrides a b = some r ∧ DeepOverride noneOverrides a b r) ↔
    Mergeable a b := by
  induction hb generalizing a with
  | missing | null | scalar =>
    have hk : ∀ v : JsonType σ, (∀ zs, v ≠ .dict zs) → (∀ zs, v ≠ .list zs) → ¬ SameKind a v := by
      intro v hd hl
      cases a <;> cases v <;> simp_all [SameKind]
    exact iff_of_true (merge_of_not_sameKind (hk _ nofun nofun)) (mergeable_of_not (hk _ nofun nofun))
  | @dict ys hys _ ih =>
    by_cases hk : ∃ xs, a = .dict xs
    · obtain ⟨xs, rfl⟩ := hk
      exact merge_dict_iff hys fun e he a => ih e he
    · have hno : ¬ SameKind a (.dict ys) := by cases a <;> simp_all [SameKind]
      exact iff_of_true (merge_of_not_sameKind hno) (mergeable_of_not hno)
  | @list ys _ ih =>
    by_cases hk : ∃ xs, a = .list xs
    · obtain ⟨xs, rfl⟩ := hk
      exact merge_list_iff fun y hy a => ih y hy
    · have hno : ¬ SameKind a (.list ys) := by cases a <;> simp_all [SameKind]
      exact iff_of_true (merge_of_not_sameKind hno) (mergeable_of_not hno)

/-! ## The keys stay distinct -/

theorem mergeEntries_distinct (hx : (JsonType.dict xs).Distinct)
    (ih : ∀ e ∈ ys, ∀ {a r : JsonType σ}, a.Distinct → merge noneOverrides a e.2 = some r → r.Distinct)
    (h : mergeEntries noneOverrides xs ys = some zs) : (JsonType.dict zs).Distinct := by
  induction ys generalizing xs with
  | nil =>
    rw [mergeEntries_nil] at h
    cases h
    exact hx
  | cons e ys ihys =>
    obtain ⟨k, v⟩ := e
    obtain ⟨z, hz, hrest⟩ := mergeEntries_cons h
    cases hx with
    | dict hkeys hvalues =>
      have hold : ((xs.lookup k).getD .null).Distinct := by
        cases hw : xs.lookup k with
        | none => exact .null
        | some w => exact hvalues _ (mem_of_lookup hw)
      refine ihys (.dict (nodup_dictSet k z hkeys) fun e he => ?_) (fun e he => ih e (List.mem_cons_of_mem _ he)) hrest
      rcases mem_dictSet he with rfl | he
      · exact ih (k, v) (List.mem_cons_self ..) hold hz
      · exact hvalues e he

theorem mergeItems_distinct {xs ys zs : List (JsonType σ)} (hx : (JsonType.list xs).Distinct)
    (ih : ∀ y ∈ ys, ∀ {a r : JsonType σ}, a.Distinct → merge noneOverrides a y = some r → r.Distinct)
    (h : mergeItems noneOverrides xs ys = some zs) : (JsonType.list zs).Distinct := by
  obtain ⟨-, -, hmerge⟩ := mergeItems_some h
  cases hx with
  | list hx =>
    refine .list fun z hz => ?_
    obtain ⟨i, hi, rfl⟩ := List.getElem_of_mem hz
    have hold : (xs.getD i .missing).Distinct := by
      by_cases hi : i < xs.length
      · rw [List.getD_eq_getElem _ _ hi]
        exact hx _ (List.getElem_mem hi)
      · rw [List.getD_eq_default _ _ (Nat.le_of_not_lt hi)]
        exact .missing
    have hi' := hmerge i
    rw [List.getD_eq_getElem zs _ hi] at hi'
    by_cases hy : i < ys.length
    · rw [List.getD_eq_getElem ys _ hy] at hi'
      exact ih _ (List.getElem_mem hy) hold hi'
    · rw [List.getD_eq_default ys _ (Nat.le_of_not_lt hy), merge_missing_right] at hi'
      exact Option.some.inj hi' ▸ hold

theorem merge_distinct (ha : a.Distinct) (hb : b.Distinct) (h : merge noneOverrides a b = some r) : r.Distinct := by
  induction hb generalizing a r with
  | missing =>
    rw [merge_missing_right] at h
    exact Option.some.inj h ▸ ha
  | null =>
    have : r = a ∨ r = .null := by
      cases a <;> cases noneOverrides <;> simp_all [merge]
    rcases this with rfl | rfl
    · exact ha
    · exact .null
  | scalar s =>
    have : r = .scalar s := by
      cases a <;> simp_all [merge]
    exact this ▸ .scalar s
  | @dict ys hys hvalues ih =>
    cases a with
    | dict xs =>
      rw [merge_dict] at h
      obtain ⟨zs, hzs, rfl⟩ := Option.map_eq_some_iff.1 h
      exact mergeEntries_distinct ha (fun e he _ _ ha hr => ih e he ha hr) hzs
    | missing | null | scalar | list =>
      obtain rfl : JsonType.dict ys = r := by simpa [merge] using h
      exact .dict hys hvalues
  | @list ys hitems ih =>
    cases a with
    | list xs =>
      rw [merge_list] at h
      obtain ⟨zs, hzs, rfl⟩ := Option.map_eq_some_iff.1 h
      exact mergeItems_distinct ha (fun y hy _ _ ha hr => ih y hy ha hr) hzs
    | missing | null | scalar | dict =>
      obtain rfl : JsonType.list ys = r := by simpa [merge] using h
      exact .list hitems

end

/-- A JSON-like value. -/
structure JsonValue (σ : Type _) where
  value : JsonType σ
  distinct : value.Distinct

/-- The merge is total and a deep override if and only if at every path where both
values have lists the second one is not longer, and where both have dicts no value of
the second one is missing under a new key. -/
theorem merge_total_iff (a b : JsonValue σ) :
    (∃ r : JsonValue σ, merge false a.value b.value = some r.value ∧ a.value.DeepOverride false b.value r.value) ↔
      a.value.Mergeable b.value := by
  rw [← merge_iff b.distinct]
  constructor
  · rintro ⟨r, hr⟩
    exact ⟨r.value, hr⟩
  · rintro ⟨r, hr, hover⟩
    exact ⟨⟨r, merge_distinct a.distinct b.distinct hr⟩, hr, hover⟩

/-- An item behind the end raises, and a missing value under a new key becomes `None`. -/
theorem merge_not_total :
    (¬ ∃ r : JsonType Nat, merge false (.list []) (.list [.scalar 1]) = some r ∧
      (JsonType.list []).DeepOverride false (.list [.scalar 1]) r) ∧
    ¬ ∃ r : JsonType Nat, merge false (.dict []) (.dict [("key", .missing)]) = some r ∧
      (JsonType.dict []).DeepOverride false (.dict [("key", .missing)]) r := by
  constructor
  · rintro ⟨r, hr, -⟩
    simp [merge, mergeItems] at hr
  · rintro ⟨r, hr, hover⟩
    have hvalue := hover [.key "key"] ⟨trivial, trivial⟩
    obtain rfl : JsonType.dict [("key", .null)] = r := by
      simpa [merge, mergeEntries, dictSet] using hr
    simp [JsonType.get, JsonType.child, JsonType.Overrides] at hvalue

end AgentSdk.EnvParser
