import Mathlib.Data.List.Infix
/-!
# A bounded undo stack

A value that is edited, with the values before its edits in a stack that keeps
the last entries only. The value that it was created with is an entry too.
-/

namespace AgentSdk.Lib

variable {α : Type _}

structure UndoStack (α : Type _) where
  value : α
  /-- The entries that are kept, the last one first; those of edits by their number. -/
  entries : List (Option Nat × α) := []
  /-- The edits that are not undone, the last one first, with the values before them. -/
  pending : List (Nat × α) := []
  /-- The number of the next edit. -/
  count : Nat := 0

namespace UndoStack

def edit (max : Nat) (u : UndoStack α) (new : α) : UndoStack α where
  value := new
  entries := ((some u.count, u.value) :: u.entries).take max
  pending := (u.count, u.value) :: u.pending
  count := u.count + 1

def create (max : Nat) (u : UndoStack α) (new : α) : UndoStack α :=
  { u with value := new, entries := ((none, new) :: u.entries).take max }

def undo (u : UndoStack α) : Option (UndoStack α) :=
  match u.entries with
  | [] => none
  | e :: es => some { u with value := e.2, entries := es, pending := u.pending.tail }

/-- The entry of the edit is kept. -/
def Keeps (u : UndoStack α) (n : Nat) : Prop := some n ∈ u.entries.map Prod.fst

def label (e : Nat × α) : Option Nat × α := (some e.1, e.2)

/-- The entries are those of the last pending edits; all of them, and in front of
them the value after the creation, as long as nothing was pushed out. -/
def Sound (u : UndoStack α) : Prop :=
  u.entries <+: u.pending.map label ∨
    ∃ c, u.entries = u.pending.map label ++ [(none, c)] ∧ (u.value :: u.pending.map Prod.snd).getLast? = some c

variable {u v : UndoStack α} {max : Nat}

theorem sound_new (value : α) : Sound { value } := .inl (List.prefix_refl _)

theorem Sound.edit (h : u.Sound) (max : Nat) (new : α) : (u.edit max new).Sound := by
  rcases h with h | ⟨c, hc, hlast⟩
  · refine .inl ((List.take_prefix _ _).trans ?_)
    exact (List.cons_prefix_cons.2 ⟨rfl, h⟩ : (some u.count, u.value) :: u.entries <+: label (u.count, u.value) :: _)
  · by_cases hlen : u.pending.length + 2 ≤ max
    · refine .inr ⟨c, ?_, ?_⟩
      · show List.take max (_ :: u.entries) = _
        rw [List.take_of_length_le (by rw [hc]; simp; omega), hc]
        rfl
      · show (new :: u.value :: u.pending.map Prod.snd).getLast? = some c
        rw [List.getLast?_cons_cons, hlast]
    · refine .inl ?_
      show List.take max (_ :: u.entries) <+: _
      rw [hc, ← List.cons_append, List.take_append_of_le_length (by simp; omega)]
      exact List.take_prefix _ _

theorem Sound.create (hentries : u.entries = []) (hpending : u.pending = []) (max : Nat) (new : α) :
    (u.create max new).Sound := by
  by_cases hlen : 1 ≤ max
  · refine .inr ⟨new, ?_, ?_⟩
    · show List.take max ((none, new) :: u.entries) = u.pending.map label ++ [(none, new)]
      rw [hentries, hpending, List.take_of_length_le (by simpa using hlen)]
      rfl
    · show (new :: u.pending.map Prod.snd).getLast? = some new
      rw [hpending]
      rfl
  · refine .inl ?_
    show List.take max ((none, new) :: u.entries) <+: _
    rw [show max = 0 by omega]
    exact List.nil_prefix

theorem undo_some (h : u.undo = some v) :
    ∃ e es, u.entries = e :: es ∧ v = { u with value := e.2, entries := es, pending := u.pending.tail } := by
  unfold undo at h
  split at h
  · cases h
  · rename_i e es hes
    exact ⟨e, es, hes, (Option.some.inj h).symm⟩

/-- An undo takes back the last pending edit, or comes to the entry of the creation. -/
theorem Sound.top (h : u.Sound) {e : Option Nat × α} {es : List (Option Nat × α)} (hes : u.entries = e :: es) :
    (∃ n rest, u.pending = (n, e.2) :: rest ∧ e.1 = some n) ∨ u.pending = [] ∧ e = (none, u.value) := by
  rcases h with h | ⟨c, hc, hlast⟩
  · rw [hes] at h
    cases hp : u.pending with
    | nil =>
      rw [hp] at h
      exact absurd (List.prefix_nil.1 h) (List.cons_ne_nil _ _)
    | cons p rest =>
      rw [hp, List.map_cons, List.cons_prefix_cons] at h
      rw [h.1]
      exact .inl ⟨p.1, rest, rfl, rfl⟩
  · rw [hes] at hc
    cases hp : u.pending with
    | nil =>
      rw [hp] at hc hlast
      obtain ⟨rfl, -⟩ := List.cons.inj hc
      cases hlast
      exact .inr ⟨rfl, rfl⟩
    | cons p rest =>
      rw [hp] at hc
      obtain ⟨rfl, -⟩ := List.cons.inj hc
      exact .inl ⟨p.1, rest, rfl, rfl⟩

theorem Sound.undo (h : u.Sound) (hv : u.undo = some v) : v.Sound := by
  obtain ⟨e, es, hes, rfl⟩ := undo_some hv
  rcases h with h | ⟨c, hc, hlast⟩
  · refine .inl ?_
    rw [hes] at h
    cases hp : u.pending with
    | nil =>
      rw [hp] at h
      exact absurd (List.prefix_nil.1 h) (List.cons_ne_nil _ _)
    | cons p rest =>
      rw [hp, List.map_cons, List.cons_prefix_cons] at h
      exact h.2
  · rw [hes] at hc
    cases hp : u.pending with
    | nil =>
      rw [hp] at hc
      obtain ⟨-, rfl⟩ := List.cons.inj hc
      exact .inl List.nil_prefix
    | cons p rest =>
      rw [hp] at hc hlast
      obtain ⟨rfl, rfl⟩ := List.cons.inj hc
      rw [List.map_cons, List.getLast?_cons_cons] at hlast
      exact .inr ⟨c, rfl, hlast⟩

/-- The last pending edit is undone as long as its entry is kept. -/
theorem Sound.restores (h : u.Sound) (hv : u.undo = some v) {n : Nat} {before : α} {rest : List (Nat × α)}
    (hp : u.pending = (n, before) :: rest) : v.value = before ∧ v.pending = rest := by
  obtain ⟨e, es, hes, rfl⟩ := undo_some hv
  rcases h.top hes with ⟨n', rest', hp', -⟩ | ⟨hnil, -⟩
  · rw [hp] at hp'
    obtain ⟨heq, rfl⟩ := List.cons.inj hp'
    refine ⟨(Prod.mk.inj heq).2.symm, ?_⟩
    show u.pending.tail = _
    rw [hp]
    rfl
  · rw [hp] at hnil
    cases hnil

/-- Without a pending edit whose entry is kept, an undo changes nothing. -/
theorem Sound.keeps_value (h : u.Sound) (hv : u.undo = some v) (hno : ∀ e ∈ u.pending, ¬ u.Keeps e.1) :
    v.value = u.value := by
  obtain ⟨e, es, hes, rfl⟩ := undo_some hv
  rcases h.top hes with ⟨n, rest, hp, he⟩ | ⟨-, rfl⟩
  · refine absurd ?_ (hno (n, e.2) (by rw [hp]; exact List.mem_cons_self))
    show some n ∈ u.entries.map Prod.fst
    rw [hes, List.map_cons, he]
    exact List.mem_cons_self
  · rfl

end UndoStack

end AgentSdk.Lib
