/-!
# Programs that raise

`EStateM` is the monad of code that changes a state and may raise: what was
changed before stays changed. `Ends` says how a run from a state ends, with one
rule for each way to write a program.
-/

namespace AgentSdk.Lib

variable {ε σ α β : Type _} {s : σ}

/-- The run from `s` returns with `Q`, or raises with `R`. -/
def Ends (x : EStateM ε σ α) (s : σ) (Q : α → σ → Prop) (R : ε → σ → Prop) : Prop :=
  match x s with
  | .ok a s' => Q a s'
  | .error e s' => R e s'

variable {x : EStateM ε σ α} {f : α → EStateM ε σ β} {k : ε → EStateM ε σ α} {Q Q' : α → σ → Prop}
  {P : β → σ → Prop} {R R' : ε → σ → Prop}

theorem Ends.of_error (h : Ends x s Q R) {e : ε} {s' : σ} (hx : x s = .error e s') : R e s' := by
  unfold Ends at h
  rwa [hx] at h

theorem Ends.of_ok (h : Ends x s Q R) {a : α} {s' : σ} (hx : x s = .ok a s') : Q a s' := by
  unfold Ends at h
  rwa [hx] at h

theorem Ends.ok {a : α} {s' : σ} (hx : x s = .ok a s') (h : Q a s') : Ends x s Q R := by
  unfold Ends
  rwa [hx]

theorem Ends.error {e : ε} {s' : σ} (hx : x s = .error e s') (h : R e s') : Ends x s Q R := by
  unfold Ends
  rwa [hx]

theorem Ends.mono (h : Ends x s Q R) (hQ : ∀ a s', Q a s' → Q' a s') (hR : ∀ e s', R e s' → R' e s') :
    Ends x s Q' R' := by
  unfold Ends at *
  cases hx : x s with
  | ok a s' =>
    rw [hx] at h
    exact hQ a s' h
  | error e s' =>
    rw [hx] at h
    exact hR e s' h

theorem Ends.and (h : Ends x s Q R) (h' : Ends x s Q' R') :
    Ends x s (fun a s' => Q a s' ∧ Q' a s') fun e s' => R e s' ∧ R' e s' := by
  unfold Ends at *
  cases hx : x s with
  | ok a s' =>
    rw [hx] at h h'
    exact ⟨h, h'⟩
  | error e s' =>
    rw [hx] at h h'
    exact ⟨h, h'⟩

theorem Ends.trivial : Ends x s (fun _ _ => True) fun _ _ => True := by
  unfold Ends
  cases x s <;> exact True.intro

theorem Ends.pure {a : α} (h : Q a s) : Ends (ε := ε) (Pure.pure a) s Q R := h

theorem Ends.throw {e : ε} (h : R e s) : Ends (throw e : EStateM ε σ α) s Q R := h

theorem Ends.modify {g : σ → σ} {T : PUnit → σ → Prop} (h : T ⟨⟩ (g s)) : Ends (ε := ε) (modify g) s T R := h

theorem Ends.get_then {g : σ → EStateM ε σ β} (h : Ends (g s) s P R) : Ends (get >>= g) s P R := h

theorem Ends.modify_then {g : σ → σ} {c : PUnit → EStateM ε σ β} (h : Ends (c ⟨⟩) (g s) P R) :
    Ends (MonadStateOf.modifyGet (fun s => (⟨⟩, g s)) >>= c) s P R := h

/-- What the first part leaves behind is what the second starts from. -/
theorem Ends.bind (hx : Ends x s Q R) (hf : ∀ a s', Q a s' → Ends (f a) s' P R) : Ends (x >>= f) s P R := by
  have hgo : Ends (x >>= f) s P R ↔ (match (match x s with
    | .ok a s' => f a s'
    | .error e s' => EStateM.Result.error e s') with
    | .ok b s' => P b s'
    | .error e s' => R e s') := Iff.rfl
  rw [hgo]
  unfold Ends at hx
  cases h : x s with
  | ok a s' =>
    rw [h] at hx
    exact hf a s' hx
  | error e s' =>
    rw [h] at hx
    exact hx

theorem get_apply : (get : EStateM ε σ σ) s = .ok s s := rfl

theorem throw_apply {e : ε} : (throw e : EStateM ε σ α) s = .error e s := rfl

theorem tryCatch_of_ok {a : α} {s' : σ} (h : x s = .ok a s') : tryCatch x k s = .ok a s' := by
  show EStateM.tryCatch x k s = _
  delta EStateM.tryCatch
  rw [h]

theorem tryCatch_of_error {e : ε} {s' : σ} (h : x s = .error e s') : tryCatch x k s = k e s' := by
  show EStateM.tryCatch x k s = _
  delta EStateM.tryCatch
  dsimp only
  rw [h]
  rfl

/-- A handler starts from what was there when the program raised. -/
theorem Ends.tryCatch (hx : Ends x s Q R') (hk : ∀ e s', R' e s' → Ends (k e) s' Q R) :
    Ends (tryCatch x k) s Q R := by
  unfold Ends at hx ⊢
  cases h : x s with
  | ok a s' =>
    rw [h] at hx
    rw [tryCatch_of_ok h]
    exact hx
  | error e s' =>
    rw [h] at hx
    rw [tryCatch_of_error h]
    exact hk e s' hx

/-! ## Loops -/

section Loops
variable {g : α → EStateM ε σ PUnit} {as bs : List α} {a : α} {s' s'' : σ} {e : ε}

theorem forM_cons_of_ok (ha : g a s = .ok ⟨⟩ s') : (a :: as).forM g s = as.forM g s' := by
  show (g a >>= fun _ => as.forM g) s = _
  simp only [bind, EStateM.bind, ha]

theorem forM_cons_of_error (ha : g a s = .error e s') : (a :: as).forM g s = .error e s' := by
  show (g a >>= fun _ => as.forM g) s = _
  simp only [bind, EStateM.bind, ha]

theorem forM_cons_ok (h : (a :: as).forM g s = .ok ⟨⟩ s'') : ∃ s', g a s = .ok ⟨⟩ s' ∧ as.forM g s' = .ok ⟨⟩ s'' := by
  cases ha : g a s with
  | ok u s' => exact ⟨s', rfl, (forM_cons_of_ok ha).symm.trans h⟩
  | error e s' =>
    rw [forM_cons_of_error ha] at h
    cases h

theorem forM_append_of_ok (h : as.forM g s = .ok ⟨⟩ s') : (as ++ bs).forM g s = bs.forM g s' := by
  induction as generalizing s with
  | nil =>
    cases h
    rfl
  | cons a as ih =>
    obtain ⟨s₁, ha, h⟩ := forM_cons_ok h
    rw [List.cons_append, forM_cons_of_ok ha, ih h]

/-- A loop that raises does so in a round that starts where the rounds before it led. -/
theorem forM_error (h : as.forM g s = .error e s'') :
    ∃ pre a post s', as = pre ++ a :: post ∧ pre.forM g s = .ok ⟨⟩ s' ∧ g a s' = .error e s'' := by
  induction as generalizing s with
  | nil => cases h
  | cons a as ih =>
    cases ha : g a s with
    | error e' s₁ =>
      rw [forM_cons_of_error ha] at h
      cases h
      exact ⟨[], a, as, s, rfl, rfl, ha⟩
    | ok u s₁ =>
      rw [forM_cons_of_ok ha] at h
      obtain ⟨pre, b, post, s', rfl, hpre, hb⟩ := ih h
      exact ⟨a :: pre, b, post, s', rfl, (forM_cons_of_ok ha).trans hpre, hb⟩

end Loops

end AgentSdk.Lib
