import Mathlib.Data.List.Forall2
/-!
# Results of fallible code

What a successful `Except` computation was made of.
-/

namespace AgentSdk.Lib

variable {ε ε' α β : Type _}

theorem bind_ok {x : Except ε α} {f : α → Except ε β} {b : β} (h : (x >>= f) = .ok b) :
    ∃ a, x = .ok a ∧ f a = .ok b := by
  cases x with
  | error e => cases h
  | ok a => exact ⟨a, rfl, h⟩

theorem map_ok {x : Except ε α} {f : α → β} {b : β} (h : x.map f = .ok b) : ∃ a, x = .ok a ∧ f a = b := by
  cases x with
  | error e => cases h
  | ok a => exact ⟨a, rfl, Except.ok.inj h⟩

theorem mapError_ok {x : Except ε α} {f : ε → ε'} {a : α} (h : x.mapError f = .ok a) : x = .ok a := by
  cases x with
  | error e => cases h
  | ok b => cases h; rfl

theorem toOption_eq_some {x : Except ε α} {a : α} (h : x.toOption = some a) : x = .ok a := by
  cases x with
  | error e => cases h
  | ok b => cases h; rfl

/-! ## How fallible code ends -/

/-- The computation raises with `R`, or returns with `Q`. -/
def Yields (x : Except ε α) (R : ε → Prop) (Q : α → Prop) : Prop :=
  match x with
  | .ok a => Q a
  | .error e => R e

section Yields
variable {x : Except ε α} {f : α → Except ε β} {R : ε → Prop} {Q Q' : α → Prop} {P : β → Prop}

theorem Yields.pure {a : α} (h : Q a) : Yields (ε := ε) (.ok a) R Q := h

theorem Yields.throw {e : ε} (h : R e) : Yields (.error e) R Q := h

theorem Yields.bind (hx : Yields x R Q) (hf : ∀ a, Q a → Yields (f a) R P) : Yields (x >>= f) R P := by
  cases x with
  | ok a => exact hf a hx
  | error e => exact hx

theorem Yields.mono (h : Yields x R Q) (hQ : ∀ a, Q a → Q' a) : Yields x R Q' := by
  cases x with
  | ok a => exact hQ a h
  | error e => exact h

theorem Yields.of_ok (h : Yields x R Q) {a : α} (hx : x = .ok a) : Q a := by
  subst hx
  exact h

end Yields

/-- A list that was mapped by fallible code, member by member. -/
theorem forall_of_mapM {f : α → Option β} {P : α → β → Prop} {l : List α} {l' : List β}
    (hf : ∀ a b, f a = some b → P a b) (h : l.mapM f = some l') : List.Forall₂ P l l' := by
  induction l generalizing l' with
  | nil =>
    cases h
    exact .nil
  | cons a l ih =>
    rw [List.mapM_cons] at h
    obtain ⟨b, hb, h⟩ := Option.bind_eq_some_iff.1 h
    obtain ⟨bs, hbs, h⟩ := Option.bind_eq_some_iff.1 h
    cases h
    exact .cons (hf a b hb) (ih hbs)

theorem exists_of_forall₂ {P : α → β → Prop} {l : List α} {l' : List β} (h : List.Forall₂ P l l') {b : β} (hb : b ∈ l') :
    ∃ a ∈ l, P a b := by
  induction h with
  | nil => cases hb
  | cons hab _ ih =>
    rcases List.mem_cons.1 hb with rfl | hb
    · exact ⟨_, List.mem_cons_self, hab⟩
    · obtain ⟨a, ha, hP⟩ := ih hb
      exact ⟨a, List.mem_cons_of_mem _ ha, hP⟩

theorem mem_of_mapM {f : α → Option β} {l : List α} {l' : List β} (h : l.mapM f = some l') {b : β} (hb : b ∈ l') :
    ∃ a ∈ l, f a = some b :=
  exists_of_forall₂ (forall_of_mapM (fun _ _ => id) h) hb

theorem mapM_eq_some_map {f : α → Option β} {g : α → β} {l : List α} (h : ∀ a ∈ l, f a = some (g a)) :
    l.mapM f = some (l.map g) := by
  induction l with
  | nil => rfl
  | cons a l ih =>
    rw [List.mapM_cons, h a List.mem_cons_self, ih fun b hb => h b (List.mem_cons_of_mem _ hb)]
    rfl

end AgentSdk.Lib
