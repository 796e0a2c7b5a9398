import Mathlib.Data.List.Forall2
/-!
# Edit scripts and hunks

A script keeps, deletes and inserts lines. Its hunks are the runs of changed
lines, each with its place in the file. `Patched` is what it means that hunks
were applied to a file, for any relation between a line of the file and the line
that stands for it in a script.
-/

namespace AgentSdk.Lib

variable {α : Type _}

inductive EditOp (α : Type _) where
  | keep (line : α)
  | delete (line : α)
  | insert (line : α)
deriving DecidableEq

/-- The lines that the file has to have. -/
def oldSide : List (EditOp α) → List α
  | [] => []
  | .keep a :: ops | .delete a :: ops => a :: oldSide ops
  | .insert _ :: ops => oldSide ops

theorem oldSide_append (ops more : List (EditOp α)) : oldSide (ops ++ more) = oldSide ops ++ oldSide more := by
  induction ops with
  | nil => rfl
  | cons op ops ih => cases op <;> simp [oldSide, ih]

/-- At `pos`, `del` is replaced by `ins`. -/
structure Hunk (α : Type _) where
  pos : Nat
  del : List α
  ins : List α
deriving DecidableEq

/-- A run that ended, if it changes anything. -/
def closeHunk (pos : Nat) (del ins : List α) : List (Hunk α) :=
  if ins.isEmpty && del.isEmpty then [] else [⟨pos, del, ins⟩]

/-- The hunks of a script that is applied at `pos`, of which a run with `del` and
`ins` is open. -/
def hunksFrom (pos : Nat) (del ins : List α) : List (EditOp α) → List (Hunk α)
  | [] => closeHunk pos del ins
  | .keep _ :: ops => closeHunk pos del ins ++ hunksFrom (pos + del.length + 1) [] [] ops
  | .delete a :: ops => hunksFrom pos (del ++ [a]) ins ops
  | .insert a :: ops => hunksFrom pos del (ins ++ [a]) ops

/-- The hunks of a script, as changes to a file in which it is applied at `pos`. -/
def hunksAt (pos : Nat) (ops : List (EditOp α)) : List (Hunk α) := hunksFrom pos [] [] ops

/-- From line `k` on, the file is `lines`; every hunk replaces its deleted lines,
at or after the end of the hunk before, and the rest stays. -/
inductive Patched (R : α → α → Prop) : Nat → List (Hunk α) → List α → List α → Prop
  | done {k : Nat} {rest : List α} : Patched R k [] rest rest
  | hunk {k : Nat} {h : Hunk α} {hs : List (Hunk α)} {kept gone rest result : List α} :
    k + kept.length = h.pos → List.Forall₂ R gone h.del → Patched R (h.pos + h.del.length) hs rest result →
      Patched R k (h :: hs) (kept ++ (gone ++ rest)) (kept ++ (h.ins ++ result))

/-- The lines of a file at `pos` are the given ones. -/
def MatchesAt (R : α → α → Prop) (file : List α) (pos : Nat) (lines : List α) : Prop :=
  ∃ before found after, file = before ++ (found ++ after) ∧ before.length = pos ∧ List.Forall₂ R found lines

section
variable {R S : α → α → Prop} {file lines more : List α} {pos : Nat}

theorem MatchesAt.mono (h : MatchesAt R file pos lines) (himp : ∀ a b, R a b → S a b) : MatchesAt S file pos lines := by
  obtain ⟨before, found, after, hfile, hlen, hR⟩ := h
  exact ⟨before, found, after, hfile, hlen, hR.imp himp⟩

theorem MatchesAt.left (h : MatchesAt R file pos (lines ++ more)) : MatchesAt R file pos lines := by
  obtain ⟨before, found, after, hfile, hlen, hR⟩ := h
  refine ⟨before, found.take lines.length, found.drop lines.length ++ after, ?_, hlen, List.forall₂_take_append _ _ _ hR⟩
  rw [hfile, ← List.append_assoc (List.take ..), List.take_append_drop]

theorem MatchesAt.right (h : MatchesAt R file pos (lines ++ more)) : MatchesAt R file (pos + lines.length) more := by
  obtain ⟨before, found, after, hfile, hlen, hR⟩ := h
  have htake := List.forall₂_take_append _ _ _ hR
  refine ⟨before ++ found.take lines.length, found.drop lines.length, after, ?_, ?_, List.forall₂_drop_append _ _ _ hR⟩
  · rw [hfile, List.append_assoc, ← List.append_assoc (List.take ..), List.take_append_drop]
  · rw [List.length_append, hlen, htake.length_eq]

theorem matchesAt_of_mem_closeHunk {del ins : List α} (h : MatchesAt R file pos (del ++ more)) {k : Hunk α}
    (hk : k ∈ closeHunk pos del ins) : MatchesAt R file k.pos k.del := by
  unfold closeHunk at hk
  split at hk
  · exact absurd hk List.not_mem_nil
  · rw [List.mem_singleton.1 hk]
    exact h.left

theorem MatchesAt.le (h : MatchesAt R file pos lines) : pos + lines.length ≤ file.length := by
  obtain ⟨before, found, after, rfl, hlen, hR⟩ := h
  rw [List.length_append, List.length_append, hlen, hR.length_eq]
  omega

theorem hunksFrom_shift (k : Nat) (ops : List (EditOp α)) (pos : Nat) (del ins : List α) :
    hunksFrom (pos + k) del ins ops = (hunksFrom pos del ins ops).map fun h => { h with pos := h.pos + k } := by
  have hclose : ∀ (pos : Nat) (del ins : List α),
      closeHunk (pos + k) del ins = (closeHunk pos del ins).map fun h => { h with pos := h.pos + k } := by
    intro pos del ins
    unfold closeHunk
    split <;> rfl
  induction ops generalizing pos del ins with
  | nil => exact hclose pos del ins
  | cons op ops ih =>
    cases op with
    | keep a =>
      have hpos : pos + k + del.length + 1 = pos + del.length + 1 + k := by omega
      rw [hunksFrom, hunksFrom, List.map_append, hclose, hpos, ih]
    | delete a => exact ih pos _ _
    | insert a => exact ih pos _ _

/-- Where a script fits, each of its hunks does. -/
theorem matchesAt_of_mem_hunksFrom {ops : List (EditOp α)} {del ins : List α}
    (h : MatchesAt R file pos (del ++ oldSide ops)) {k : Hunk α} (hk : k ∈ hunksFrom pos del ins ops) :
    MatchesAt R file k.pos k.del := by
  induction ops generalizing pos del ins with
  | nil => exact matchesAt_of_mem_closeHunk h hk
  | cons op ops ih =>
    cases op with
    | keep a =>
      rcases List.mem_append.1 hk with hk | hk
      · exact matchesAt_of_mem_closeHunk h hk
      · have hsplit : del ++ oldSide (.keep a :: ops) = (del ++ [a]) ++ oldSide ops := by simp [oldSide]
        rw [hsplit] at h
        have hrest := h.right
        rw [List.length_append] at hrest
        exact ih (show MatchesAt R file _ ([] ++ oldSide ops) from hrest) hk
    | delete a => exact ih (by simpa [oldSide] using h) hk
    | insert a => exact ih h hk

theorem matchesAt_of_mem_hunksAt {ops : List (EditOp α)} (h : MatchesAt R file pos (oldSide ops)) {k : Hunk α}
    (hk : k ∈ hunksAt pos ops) : MatchesAt R file k.pos k.del :=
  matchesAt_of_mem_hunksFrom (show MatchesAt R file pos ([] ++ oldSide ops) from h) hk

end

end AgentSdk.Lib
