import Mathlib.Data.List.Basic
/-!
# Run slots

`RunSlot` with the limiter behind it: a permit is shared by any number of
handles, and its token goes back with the last of them. Permits and handles
are numbered as they are made.
-/

namespace AgentSdk.RunPermits

/-- `_RunPermit`. Kept for the statements only: how often its token went back. -/
structure RunPermit where
  refs : Nat
  semaphore : Bool
  returned : Nat := 0
deriving DecidableEq, Repr

/-- The limiter of the server, if there is one, with all permits and handles
ever made. A released handle has no permit. -/
structure Limiter where
  maxConcurrentRuns : Option Nat
  taken : Nat := 0
  permits : List RunPermit := []
  slots : List (Option Nat) := []
deriving DecidableEq, Repr

namespace Limiter

def locked (l : Limiter) : Bool := l.maxConcurrentRuns.any (· ≤ l.taken)

/-- `RunSlot.acquire`; without capacity it is refused, or has to wait. -/
def acquire (l : Limiter) : Option (Limiter × Nat) :=
  if l.locked then none
  else
    some
      ({ l with
          taken := if l.maxConcurrentRuns.isSome then l.taken + 1 else l.taken
          permits := l.permits ++ [{ refs := 1, semaphore := l.maxConcurrentRuns.isSome }]
          slots := l.slots ++ [some l.permits.length] }, l.slots.length)

/-- The permit of a handle, until it is released. -/
def permit (l : Limiter) (slot : Nat) : Option Nat := (l.slots[slot]?).join

/-- `RunSlot.share`, an error for a released handle. -/
def share (l : Limiter) (slot : Nat) : Option (Limiter × Nat) :=
  (l.permit slot).map fun p =>
    ({ l with
        permits := l.permits.modify p fun permit => { permit with refs := permit.refs + 1 }
        slots := l.slots ++ [some p] }, l.slots.length)

/-- One handle less; the last one takes the token with it. -/
def RunPermit.release (permit : RunPermit) : RunPermit :=
  let refs := permit.refs - 1
  if refs = 0 ∧ permit.semaphore then { refs, semaphore := false, returned := permit.returned + 1 }
  else { permit with refs }

/-- `RunSlot.release`. -/
def release (l : Limiter) (slot : Nat) : Limiter :=
  match l.permit slot with
  | none => l
  | some p =>
    { l with
      taken := if l.permits[p]?.any fun permit => permit.refs - 1 = 0 ∧ permit.semaphore then l.taken - 1 else l.taken
      permits := l.permits.modify p RunPermit.release
      slots := l.slots.set slot none }

/-- The number of permits that are still held by somebody. -/
def livePermits (l : Limiter) : Nat := l.permits.countP (·.refs ≠ 0)

end Limiter

/-- Each permit counts its handles and holds a token as long as there are any;
afterwards the token has gone back once. -/
structure Limiter.Conserved (l : Limiter) : Prop where
  refs : ∀ p permit, l.permits[p]? = some permit → permit.refs = l.slots.count (some p)
  known : ∀ p, some p ∈ l.slots → p < l.permits.length
  semaphore : ∀ permit ∈ l.permits, permit.semaphore = (l.maxConcurrentRuns.isSome && permit.refs ≠ 0)
  returned : ∀ permit ∈ l.permits, permit.returned = if l.maxConcurrentRuns.isSome ∧ permit.refs = 0 then 1 else 0
  taken : l.taken = l.permits.countP (·.semaphore)

namespace Limiter
variable {l l' : Limiter} {slot : Nat}

/-! ## Handles -/

theorem permit_eq_some {p : Nat} : l.permit slot = some p ↔ l.slots[slot]? = some (some p) := by
  unfold permit
  cases l.slots[slot]? with
  | none => simp
  | some o => simp

theorem acquire_ok (h : l.acquire = some (l', slot)) :
    slot = l.slots.length ∧ ∃ p, l'.slots = l.slots ++ [some p] ∧ l'.maxConcurrentRuns = l.maxConcurrentRuns := by
  unfold acquire at h
  split at h
  · cases h
  · cases h
    exact ⟨rfl, _, rfl, rfl⟩

theorem share_ok {new : Nat} (h : l.share slot = some (l', new)) :
    new = l.slots.length ∧ ∃ p, l'.slots = l.slots ++ [some p] ∧ l'.maxConcurrentRuns = l.maxConcurrentRuns := by
  obtain ⟨p, -, h⟩ := Option.map_eq_some_iff.1 h
  cases h
  exact ⟨rfl, p, rfl, rfl⟩

/-- A handle is released, the others stay as they are. -/
theorem permit_release (l : Limiter) (slot other : Nat) :
    (l.release slot).permit other = if other = slot then none else l.permit other := by
  unfold release
  split
  · rename_i hnone
    split
    · rename_i heq
      rw [heq, hnone]
    · rfl
  · unfold permit
    dsimp only
    rw [List.getElem?_set]
    by_cases heq : slot = other
    · rw [if_pos heq, if_pos heq.symm]
      split <;> rfl
    · rw [if_neg heq, if_neg (Ne.symm heq)]

theorem permit_append {p slot : Nat} (hslots : l'.slots = l.slots ++ [some p]) :
    l'.permit slot = if slot = l.slots.length then some p else l.permit slot := by
  unfold permit
  rw [hslots]
  split
  · rename_i heq
    rw [heq]
    simp
  · rename_i hne
    rcases Nat.lt_or_gt_of_ne hne with hlt | hgt
    · rw [List.getElem?_append_left hlt]
    · have hout : (l.slots ++ [some p]).length ≤ slot := by
        rw [List.length_append, List.length_singleton]
        omega
      rw [List.getElem?_eq_none hout, List.getElem?_eq_none (by omega)]

/-! ## Tokens -/

theorem Conserved.acquire (h : l.Conserved) (hl : l.acquire = some (l', slot)) : l'.Conserved := by
  unfold Limiter.acquire at hl
  split at hl
  · cases hl
  · cases hl
    refine ⟨fun p permit hp => ?_, fun p hp => ?_, fun permit hp => ?_, fun permit hp => ?_, ?_⟩
    · dsimp only at hp ⊢
      rw [List.count_append]
      rcases Nat.lt_trichotomy p l.permits.length with hlt | rfl | hgt
      · rw [List.getElem?_append_left hlt] at hp
        have hne : some l.permits.length ≠ some p := by
          rw [Ne, Option.some.injEq]
          omega
        rw [h.refs p permit hp, List.count_singleton, if_neg (by simpa using hne), Nat.add_zero]
      · have hnone : l.slots.count (some l.permits.length) = 0 :=
          List.count_eq_zero.2 fun hin => Nat.lt_irrefl _ (h.known _ hin)
        rw [List.getElem?_concat_length, Option.some.injEq] at hp
        rw [← hp, hnone, List.count_singleton, if_pos (by simp)]
      · rw [List.getElem?_eq_none (by simp; omega)] at hp
        cases hp
    · dsimp only at hp ⊢
      rw [List.length_append, List.length_singleton]
      rcases List.mem_append.1 hp with hp | hp
      · exact Nat.lt_succ_of_lt (h.known p hp)
      · rw [Option.some.inj (List.mem_singleton.1 hp)]
        exact Nat.lt_succ_self _
    · rcases List.mem_append.1 hp with hp | hp
      · exact h.semaphore permit hp
      · rw [List.mem_singleton.1 hp]
        simp
    · rcases List.mem_append.1 hp with hp | hp
      · exact h.returned permit hp
      · rw [List.mem_singleton.1 hp]
        simp
    · dsimp only
      rw [List.countP_append, List.countP_singleton, ← h.taken]
      cases l.maxConcurrentRuns.isSome <;> rfl

/-- One element of a list is changed. -/
theorem countP_modify {α : Type _} (q : α → Bool) (f : α → α) {as : List α} {i : Nat} {a : α} (h : as[i]? = some a) :
    (as.modify i f).countP q + (if q a then 1 else 0) = as.countP q + if q (f a) then 1 else 0 := by
  induction as generalizing i with
  | nil => cases h
  | cons b as ih =>
    cases i with
    | zero =>
      cases Option.some.inj h
      rw [List.modify_zero_cons, List.countP_cons, List.countP_cons]
      omega
    | succ i =>
      have hi := ih h
      rw [List.modify_succ_cons, List.countP_cons, List.countP_cons]
      omega

theorem forall_modify {α : Type _} {P : α → Prop} {f : α → α} {as : List α} {i : Nat} (h : ∀ a ∈ as, P a)
    (hf : ∀ a, as[i]? = some a → P (f a)) : ∀ a ∈ as.modify i f, P a := by
  intro a ha
  obtain ⟨j, hj⟩ := List.mem_iff_getElem?.1 ha
  rw [List.getElem?_modify] at hj
  cases hb : as[j]? with
  | none =>
    rw [hb] at hj
    cases hj
  | some b =>
    rw [hb] at hj
    by_cases hij : i = j
    · subst hij
      rw [Option.map_eq_map, Option.map_some, Option.some.injEq, if_pos rfl] at hj
      exact hj ▸ hf b hb
    · rw [Option.map_eq_map, Option.map_some, Option.some.injEq, if_neg hij] at hj
      exact hj ▸ h b (List.mem_of_getElem? hb)

theorem Conserved.exists_permit (h : l.Conserved) {p : Nat} (hp : l.permit slot = some p) :
    ∃ permit, l.permits[p]? = some permit ∧ 0 < permit.refs := by
  have hin : some p ∈ l.slots := List.mem_of_getElem? (permit_eq_some.1 hp)
  obtain ⟨permit, hpermit⟩ : ∃ permit, l.permits[p]? = some permit := ⟨_, List.getElem?_eq_getElem (h.known p hin)⟩
  refine ⟨permit, hpermit, ?_⟩
  rw [h.refs p permit hpermit]
  exact List.count_pos_iff.2 hin

theorem Conserved.share (h : l.Conserved) {new : Nat} (hl : l.share slot = some (l', new)) : l'.Conserved := by
  obtain ⟨p, hp, hl⟩ := Option.map_eq_some_iff.1 hl
  cases hl
  obtain ⟨permit, hpermit, hpos⟩ := h.exists_permit hp
  refine ⟨fun q other hq => ?_, fun q hq => ?_, ?_, ?_, ?_⟩
  · dsimp only at hq ⊢
    rw [List.count_append]
    rw [List.getElem?_modify] at hq
    cases hother : l.permits[q]? with
    | none =>
      rw [hother] at hq
      cases hq
    | some old =>
      rw [hother] at hq
      have hold := h.refs q old hother
      by_cases heq : p = q
      · subst heq
        rw [Option.map_eq_map, Option.map_some, Option.some.injEq, if_pos rfl] at hq
        rw [← hq, ← hold, List.count_singleton, if_pos (by simp)]
      · have hne : some p ≠ some q := by rwa [Ne, Option.some.injEq]
        rw [Option.map_eq_map, Option.map_some, Option.some.injEq, if_neg heq] at hq
        rw [← hq, ← hold, List.count_singleton, if_neg (by simpa using hne), Nat.add_zero]
  · dsimp only at hq ⊢
    rw [List.length_modify]
    rcases List.mem_append.1 hq with hq | hq
    · exact h.known q hq
    · rw [Option.some.inj (List.mem_singleton.1 hq)]
      exact (List.getElem?_eq_some_iff.1 hpermit).1
  · refine forall_modify h.semaphore fun a ha => ?_
    cases Option.some.inj (hpermit.symm.trans ha)
    have hold := h.semaphore permit (List.mem_of_getElem? hpermit)
    dsimp only
    rw [hold, decide_eq_true (by omega), decide_eq_true (by omega)]
  · refine forall_modify h.returned fun a ha => ?_
    cases Option.some.inj (hpermit.symm.trans ha)
    have hold := h.returned permit (List.mem_of_getElem? hpermit)
    dsimp only
    rw [hold, if_neg (by omega), if_neg (by omega)]
  · have hcount := countP_modify (·.semaphore) (fun permit => { permit with refs := permit.refs + 1 }) hpermit
    dsimp only at hcount ⊢
    rw [h.taken]
    omega

theorem Conserved.release (h : l.Conserved) (slot : Nat) : (l.release slot).Conserved := by
  unfold Limiter.release
  cases hp : l.permit slot with
  | none => exact h
  | some p =>
    obtain ⟨permit, hpermit, hpos⟩ := h.exists_permit hp
    have hslot := permit_eq_some.1 hp
    obtain ⟨hlt, hget⟩ := List.getElem?_eq_some_iff.1 hslot
    have hsem := h.semaphore permit (List.mem_of_getElem? hpermit)
    have hret := h.returned permit (List.mem_of_getElem? hpermit)
    -- The slot is emptied, and its permit has one reference less.
    have hcount : ∀ q, (l.slots.set slot none).count (some q) = l.slots.count (some q) - if p = q then 1 else 0 := by
      intro q
      rw [List.count_set hlt, hget]
      by_cases heq : p = q
      · simp [heq]
      · simp [heq]
    refine ⟨fun q other hq => ?_, fun q hq => ?_, ?_, ?_, ?_⟩
    · dsimp only at hq ⊢
      rw [hcount]
      rw [List.getElem?_modify] at hq
      cases hother : l.permits[q]? with
      | none =>
        rw [hother] at hq
        cases hq
      | some old =>
        rw [hother] at hq
        have hold := h.refs q old hother
        by_cases heq : p = q
        · subst heq
          rw [Option.map_eq_map, Option.map_some, Option.some.injEq, if_pos rfl] at hq
          have hrefs : (RunPermit.release old).refs = old.refs - 1 := by
            unfold RunPermit.release
            dsimp only
            split <;> rfl
          rw [← hq, hrefs, hold, if_pos rfl]
        · rw [Option.map_eq_map, Option.map_some, Option.some.injEq, if_neg heq] at hq
          rw [← hq, hold, if_neg heq, Nat.sub_zero]
    · dsimp only at hq ⊢
      rw [List.length_modify]
      rcases List.mem_or_eq_of_mem_set hq with hq | hq
      · exact h.known q hq
      · cases hq
    · refine forall_modify h.semaphore fun a ha => ?_
      cases Option.some.inj (hpermit.symm.trans ha)
      unfold RunPermit.release
      dsimp only
      split
      · rename_i hlast
        simp [hlast.1]
      · rename_i hmore
        rw [hsem] at hmore ⊢
        cases hlim : l.maxConcurrentRuns.isSome with
        | false => rfl
        | true =>
          rw [hlim] at hmore
          have : permit.refs - 1 ≠ 0 := fun hz => hmore ⟨hz, by simpa using Nat.ne_of_gt hpos⟩
          simp [this, Nat.ne_of_gt hpos]
    · refine forall_modify h.returned fun a ha => ?_
      cases Option.some.inj (hpermit.symm.trans ha)
      rw [if_neg (by omega)] at hret
      unfold RunPermit.release
      dsimp only
      split
      · rename_i hlast
        have hlim : l.maxConcurrentRuns.isSome = true := by
          rw [hsem, Bool.and_eq_true] at hlast
          exact hlast.2.1
        rw [hret, if_pos ⟨hlim, hlast.1⟩]
      · rename_i hmore
        rw [hret, if_neg]
        rintro ⟨hlim, hz⟩
        exact hmore ⟨hz, by simp [hsem, hlim, Nat.ne_of_gt hpos]⟩
    · have hcountP := countP_modify (·.semaphore) RunPermit.release hpermit
      dsimp only at hcountP ⊢
      rw [hpermit, h.taken]
      have hnew : (RunPermit.release permit).semaphore =
          (permit.semaphore && ! decide (permit.refs - 1 = 0 ∧ permit.semaphore = true)) := by
        unfold RunPermit.release
        dsimp only
        split
        · rename_i hlast
          simp [hlast.1]
        · rename_i hmore
          simp [hmore]
      rw [hnew] at hcountP
      by_cases hlast : permit.refs - 1 = 0 ∧ permit.semaphore = true
      · rw [Option.any_some, if_pos (by simpa using hlast)]
        simp only [hlast.2, hlast] at hcountP
        simp at hcountP
        omega
      · rw [Option.any_some, if_neg (by simpa using hlast)]
        simp only [decide_eq_false hlast, Bool.not_false, Bool.and_true] at hcountP
        omega

/-- The tokens that are taken belong to the permits that are held. -/
theorem Conserved.taken_eq (h : l.Conserved) (hlimit : l.maxConcurrentRuns.isSome = true) : l.taken = l.livePermits := by
  rw [h.taken, livePermits]
  refine List.countP_congr fun permit hpermit => ?_
  rw [h.semaphore permit hpermit, hlimit, Bool.true_and]

/-- Without handles all tokens are back. -/
theorem Conserved.taken_eq_zero (h : l.Conserved) (hnone : ∀ slot, l.permit slot = none) : l.taken = 0 := by
  rw [h.taken, List.countP_eq_zero]
  intro permit hpermit
  obtain ⟨p, hp⟩ := List.mem_iff_getElem?.1 hpermit
  have hzero : permit.refs = 0 := by
    rw [h.refs p permit hp, List.count_eq_zero]
    intro hin
    obtain ⟨slot, hslot⟩ := List.mem_iff_getElem?.1 hin
    have := hnone slot
    rw [permit_eq_some.2 hslot] at this
    cases this
  rw [h.semaphore permit hpermit, hzero]
  simp

end Limiter

end AgentSdk.RunPermits
