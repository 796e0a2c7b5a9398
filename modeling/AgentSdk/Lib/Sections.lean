import Mathlib.Data.List.Forall2
/-!
# Headed sections of a list

A list is cut at its headers: each section is a header with what stands under
it, up to the next mark. An element may be a mark and no header.
-/

namespace AgentSdk.Lib

variable {α β : Type _} (isMark : α → Bool) (header : α → Option β)

/-- The headers of a list, each with what stands under it. -/
def sectionsOf : List α → List (β × List α)
  | [] => []
  | a :: rest =>
    match header a with
    | some b => (b, rest.takeWhile fun x => !isMark x) :: sectionsOf rest
    | none => sectionsOf rest

variable {isMark header} {pre rest : List α}

/-- Every header has its section, and there are no others. -/
theorem map_fst_sectionsOf (l : List α) : (sectionsOf isMark header l).map Prod.fst = l.filterMap header := by
  induction l with
  | nil => rfl
  | cons a rest ih =>
    rw [sectionsOf, List.filterMap_cons]
    cases header a with
    | none => exact ih
    | some b => exact congrArg (b :: ·) ih

theorem sectionsOf_append_of_none (h : ∀ a ∈ pre, header a = none) :
    sectionsOf isMark header (pre ++ rest) = sectionsOf isMark header rest := by
  induction pre with
  | nil => rfl
  | cons a pre ih =>
    rw [List.cons_append, sectionsOf, h a List.mem_cons_self]
    exact ih fun b hb => h b (List.mem_cons_of_mem _ hb)

theorem takeWhile_append_of_marked {p : α → Bool} (hpre : ∀ a ∈ pre, p a = true) (hrest : ∀ a ∈ rest.head?, p a = false) :
    (pre ++ rest).takeWhile p = pre := by
  rw [List.takeWhile_append_of_pos hpre]
  cases rest with
  | nil => exact List.append_nil _
  | cons a rest =>
    have ha : p a = false := hrest a rfl
    rw [List.takeWhile_cons_of_neg (by simp [ha]), List.append_nil]

/-- A section of the list: its header, what is under it, and then a mark or
nothing. -/
theorem sectionsOf_cons_append {a : α} {b : β} (ha : header a = some b) (hmarks : ∀ x, isMark x = false → header x = none)
    (hpre : ∀ x ∈ pre, isMark x = false) (hrest : ∀ x ∈ rest.head?, isMark x = true) :
    sectionsOf isMark header (a :: (pre ++ rest)) = (b, pre) :: sectionsOf isMark header rest := by
  have hunder : (pre ++ rest).takeWhile (fun x => !isMark x) = pre :=
    takeWhile_append_of_marked (fun x hx => by rw [hpre x hx]; rfl) fun x hx => by rw [hrest x hx]; rfl
  rw [sectionsOf, ha]
  dsimp only
  rw [hunder, sectionsOf_append_of_none fun x hx => hmarks x (hpre x hx)]

end AgentSdk.Lib
