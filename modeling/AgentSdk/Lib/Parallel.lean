import Mathlib.Order.WellFounded
/-!
# Independent parts

Parts of which one takes a step at a time: they come to an end together if each
of them does.
-/

namespace AgentSdk.Lib

variable {α : Type _} {r : α → α → Prop}

/-- One of the parts takes a step (`r` goes from the later to the earlier). -/
inductive OneOf (r : α → α → Prop) : List α → List α → Prop
  | intro {pre post : List α} {a b : α} : r b a → OneOf r (pre ++ b :: post) (pre ++ a :: post)

theorem oneOf_cons {a : α} {as l : List α} (h : OneOf r l (a :: as)) :
    (∃ b, l = b :: as ∧ r b a) ∨ ∃ bs, l = a :: bs ∧ OneOf r bs as := by
  generalize hl : a :: as = l' at h
  cases h with
  | @intro pre post c b hb =>
    cases pre with
    | nil =>
      cases hl
      exact .inl ⟨b, rfl, hb⟩
    | cons d pre =>
      cases hl
      exact .inr ⟨pre ++ b :: post, rfl, .intro hb⟩

theorem acc_oneOf : ∀ {as : List α}, (∀ a ∈ as, Acc r a) → Acc (OneOf r) as
  | [], _ => ⟨_, fun l h => by
      generalize hl : ([] : List α) = l' at h
      cases h
      simp at hl⟩
  | a :: as, h => by
    have ha := h a List.mem_cons_self
    have has : Acc (OneOf r) as := acc_oneOf fun b hb => h b (List.mem_cons_of_mem _ hb)
    clear h
    induction ha generalizing as with
    | intro a _ iha =>
      induction has with
      | intro as hacc ihas =>
        refine ⟨_, fun l hl => ?_⟩
        rcases oneOf_cons hl with ⟨b, rfl, hb⟩ | ⟨bs, rfl, hbs⟩
        · exact iha b hb as (Acc.intro as hacc)
        · exact ihas bs hbs

end AgentSdk.Lib
