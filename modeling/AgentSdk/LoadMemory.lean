import AgentSdk.Lib.Rows
import AgentSdk.LocalFileStore
/-!
# The memory in the prompt

`load_memory`: the memory indexes of the user and of the project as one text
within a budget of characters. A tier that is too long for its share loses
lines from the top.
-/

namespace AgentSdk.LoadMemory
open Lib

def memoryIndexRelpath : Text := ".openhands/memory/MEMORY.md".toList

def truncationNotice : Text := "[earlier memory truncated]".toList

/-- A file that is missing or cannot be read is `none`. -/
def readIndex (file : Option ByteArray) : Option Text :=
  match file.map readText with
  | some (.ok text) => if strip text = [] then none else some (strip text)
  | _ => none

/-- The loop of `_truncate_top`. -/
def dropLines (budget : Int) : List Text → Text
  | [] => truncationNotice
  | _ :: lines =>
    let candidate := List.intercalate ['\n'] (truncationNotice :: lines)
    if (candidate.length : Int) ≤ budget then candidate else dropLines budget lines

def truncateTop (body : Text) (budget : Int) : Text :=
  if (body.length : Int) ≤ budget then body else dropLines budget (splitLines body)

/-- The tiers that have content, with their headers. -/
def tiers (userHeaderPath : Text) (user project : Option ByteArray) : List (Text × Text) :=
  ((readIndex user).map fun body => ("# User memory (".toList ++ userHeaderPath ++ [')'], body)).toList ++
    ((readIndex project).map fun body => ("# Project memory (".toList ++ memoryIndexRelpath ++ [')'], body)).toList

/-- The headers, each with a body below it. -/
def render (ts : List (Text × Text)) (bodies : List Text) : Text :=
  List.intercalate ['\n', '\n'] (List.zipWith (fun t body => t.1 ++ '\n' :: body) ts bodies)

/-- What is left over goes to one tier after the other: (length, share). -/
def rollOver (leftover : Int) : List (Int × Int) → List Int
  | [] => []
  | (len, budget) :: rest =>
    let extra := min leftover (len - budget)
    (budget + extra) :: rollOver (leftover - extra) rest

def overhead (ts : List (Text × Text)) : Int :=
  (ts.map fun t => (t.1.length : Int) + 1).sum + 2 * ((ts.length : Int) - 1)

/-- The shares of the bodies: the fair share at most, and what others leave. -/
def shares (bodyBudget : Int) (ts : List (Text × Text)) : List Int :=
  let fairShare := bodyBudget / ts.length
  let budgets := ts.map fun t => ((t.2.length : Int), min (t.2.length : Int) fairShare)
  rollOver (bodyBudget - (budgets.map Prod.snd).sum) budgets

def loadMemory (userHeaderPath : Text) (user project : Option ByteArray) (charBudget : Int) : Option Text :=
  let ts := tiers userHeaderPath user project
  if ts = [] then none
  else
    let combined := render ts (ts.map Prod.snd)
    if (combined.length : Int) ≤ charBudget then some combined
    else some (render ts (List.zipWith (fun t share => truncateTop t.2 share) ts (shares (charBudget - overhead ts) ts)))

/-! ## What is shown of a body -/

theorem length_intercalate_cons (sep : Text) (part : Text) (parts : List Text) :
    (List.intercalate sep (part :: parts)).length = part.length + (parts.map fun q => sep.length + q.length).sum := by
  induction parts generalizing part with
  | nil => simp
  | cons q parts ih =>
    rw [List.intercalate_cons_cons, List.length_append, List.length_append, ih, List.map_cons, List.sum_cons]
    omega

/-- What is shown of a body within its share: all of it, or the notice and the
last lines, of which one more would not fit. -/
def Shown (share : Int) (body shown : Text) : Prop :=
  shown = body ∨ share < body.length ∧ ∃ dropped line kept, splitLines body = dropped ++ line :: kept ∧
    shown = List.intercalate ['\n'] (truncationNotice :: kept) ∧
      share < (List.intercalate ['\n'] (truncationNotice :: line :: kept)).length

/-- The loop ends with a candidate that fits, behind one that does not. -/
theorem dropLines_spec {budget : Int} {line : Text} {lines : List Text} (hnotice : (truncationNotice.length : Int) ≤ budget)
    (hbig : budget < (List.intercalate ['\n'] (truncationNotice :: line :: lines)).length) :
    ((dropLines budget (line :: lines)).length : Int) ≤ budget ∧
      ∃ dropped last kept, line :: lines = dropped ++ last :: kept ∧
        dropLines budget (line :: lines) = List.intercalate ['\n'] (truncationNotice :: kept) ∧
          budget < (List.intercalate ['\n'] (truncationNotice :: last :: kept)).length := by
  induction lines generalizing line with
  | nil =>
    have hres : dropLines budget [line] = truncationNotice := by
      simp only [dropLines, List.intercalate_singleton, ite_self]
    rw [hres]
    exact ⟨hnotice, [], line, [], rfl, by simp, hbig⟩
  | cons next lines ih =>
    by_cases hfits : ((List.intercalate ['\n'] (truncationNotice :: next :: lines)).length : Int) ≤ budget
    · rw [dropLines, if_pos hfits]
      exact ⟨hfits, [], line, next :: lines, rfl, rfl, hbig⟩
    · rw [dropLines, if_neg hfits]
      obtain ⟨hlen, dropped, last, kept, hlines, hres, hmore⟩ := ih (not_le.1 hfits)
      exact ⟨hlen, line :: dropped, last, kept, by rw [hlines, List.cons_append], hres, hmore⟩

theorem truncateTop_spec {body : Text} {share : Int} (hbody : '\r' ∉ body)
    (hshare : (body.length : Int) ≤ share ∨ (truncationNotice.length : Int) ≤ share) :
    ((truncateTop body share).length : Int) ≤ share ∧ Shown share body (truncateTop body share) := by
  unfold truncateTop
  split
  · rename_i hfits
    exact ⟨hfits, .inl rfl⟩
  · rename_i hlong
    have hnotice := hshare.resolve_left hlong
    cases hlines : splitLines body with
    | nil =>
      rw [splitLines_eq_nil hlines, List.length_nil] at hlong
      omega
    | cons line lines =>
      have hsplit := length_le_splitLines hbody
      rw [hlines] at hsplit
      have hbig : share < (List.intercalate ['\n'] (truncationNotice :: line :: lines)).length := by
        rw [List.intercalate_cons_cons, List.length_append, List.length_append, List.length_singleton]
        omega
      obtain ⟨hlen, dropped, last, kept, heq, hres, hmore⟩ := dropLines_spec hnotice hbig
      exact ⟨hlen, .inr ⟨not_le.1 hlong, dropped, last, kept, by rw [hlines, heq], hres, hmore⟩⟩

/-! ## Shares -/

theorem sum_le_sum_of_forall₂ {budgets : List (Int × Int)} {shares : List Int}
    (h : List.Forall₂ (fun b share => b.2 ≤ share ∧ share ≤ b.1) budgets shares) :
    (budgets.map Prod.snd).sum ≤ shares.sum := by
  induction h with
  | nil => exact le_refl _
  | cons hb _ ih =>
    rw [List.map_cons, List.sum_cons, List.sum_cons]
    exact add_le_add hb.1 ih

/-- Nothing is taken from a share, none exceeds its body, and something is left
over only where every body has what it needs. -/
theorem rollOver_spec {leftover : Int} {budgets : List (Int × Int)} (hleft : 0 ≤ leftover) (hle : ∀ b ∈ budgets, b.2 ≤ b.1) :
    List.Forall₂ (fun b share => b.2 ≤ share ∧ share ≤ b.1) budgets (rollOver leftover budgets) ∧
      (rollOver leftover budgets).sum ≤ (budgets.map Prod.snd).sum + leftover ∧
        (List.Forall₂ (fun b share => share = b.1) budgets (rollOver leftover budgets) ∨
          (rollOver leftover budgets).sum = (budgets.map Prod.snd).sum + leftover) := by
  induction budgets generalizing leftover with
  | nil =>
    refine ⟨.nil, ?_, .inl .nil⟩
    simpa [rollOver] using hleft
  | cons b budgets ih =>
    obtain ⟨len, budget⟩ := b
    have hb : budget ≤ len := hle (len, budget) List.mem_cons_self
    have hroom : 0 ≤ leftover - min leftover (len - budget) := by omega
    obtain ⟨hbetween, hsum, hrest⟩ := ih hroom fun b hb => hle b (List.mem_cons_of_mem _ hb)
    simp only [rollOver, List.map_cons, List.sum_cons]
    refine ⟨.cons ⟨by omega, by omega⟩ hbetween, by omega, ?_⟩
    by_cases hall : budget + min leftover (len - budget) = len
    · rcases hrest with hrest | hrest
      · exact .inl (.cons hall hrest)
      · exact .inr (by omega)
    · -- Here the rest is used up, and nothing is left for the others.
      have hsum' := sum_le_sum_of_forall₂ hbetween
      exact .inr (by omega)

theorem sum_map_le (ts : List (Text × Text)) (fairShare : Int) :
    (ts.map fun t => min (t.2.length : Int) fairShare).sum ≤ ts.length * fairShare := by
  induction ts with
  | nil => simp
  | cons t ts ih =>
    have hmin := min_le_right (t.2.length : Int) fairShare
    rw [List.map_cons, List.sum_cons, List.length_cons, Nat.cast_succ, add_mul, one_mul]
    linarith

/-- A share is the body, or at least the fair share; together they are within
the budget, and use it up if a body has less than it needs. -/
theorem shares_spec {ts : List (Text × Text)} (bodyBudget : Int) (hne : ts ≠ []) :
    List.Forall₂ (fun t share => min (t.2.length : Int) (bodyBudget / ts.length) ≤ share ∧ share ≤ t.2.length)
        ts (shares bodyBudget ts) ∧
      (shares bodyBudget ts).sum ≤ bodyBudget ∧
        (List.Forall₂ (fun t share => share = (t.2.length : Int)) ts (shares bodyBudget ts) ∨
          (shares bodyBudget ts).sum = bodyBudget) := by
  have hpos : (0 : Int) < ts.length := by exact_mod_cast List.length_pos_iff.2 hne
  have hfair : ts.length * (bodyBudget / ts.length) ≤ bodyBudget := Int.mul_ediv_self_le (ne_of_gt hpos)
  have hsum := sum_map_le ts (bodyBudget / ts.length)
  have hbudgets : ((ts.map fun t => ((t.2.length : Int), min (t.2.length : Int) (bodyBudget / ts.length))).map Prod.snd).sum =
      (ts.map fun t => min (t.2.length : Int) (bodyBudget / ts.length)).sum := by rw [List.map_map]; rfl
  have hleft : 0 ≤ bodyBudget - ((ts.map fun t =>
      ((t.2.length : Int), min (t.2.length : Int) (bodyBudget / ts.length))).map Prod.snd).sum := by
    rw [hbudgets]
    linarith
  have hle : ∀ b ∈ ts.map fun t => ((t.2.length : Int), min (t.2.length : Int) (bodyBudget / ts.length)), b.2 ≤ b.1 := by
    intro b hb
    obtain ⟨t, -, rfl⟩ := List.mem_map.1 hb
    exact min_le_left _ _
  have hspec := rollOver_spec hleft hle
  rw [List.forall₂_map_left_iff, List.forall₂_map_left_iff, add_sub_cancel] at hspec
  exact hspec

/-! ## The text -/

theorem length_render {ts : List (Text × Text)} {bodies : List Text} (hne : ts ≠ []) (hlen : ts.length = bodies.length) :
    ((render ts bodies).length : Int) = overhead ts + (bodies.map fun b => (b.length : Int)).sum := by
  have htail : ∀ {ts : List (Text × Text)} {bodies : List Text}, ts.length = bodies.length →
      ((((List.zipWith (fun t body => t.1 ++ '\n' :: body) ts bodies).map fun q => 2 + q.length).sum : Nat) : Int) =
        (ts.map fun t => (t.1.length : Int) + 1).sum + 2 * ts.length + (bodies.map fun b => (b.length : Int)).sum := by
    intro ts
    induction ts with
    | nil =>
      intro bodies hlen
      cases bodies with
      | nil => rfl
      | cons b bodies => cases hlen
    | cons t ts ih =>
      intro bodies hlen
      cases bodies with
      | nil => cases hlen
      | cons b bodies =>
        have ih := ih (Nat.succ.inj hlen)
        simp only [List.zipWith_cons_cons, List.map_cons, List.sum_cons, List.length_append, List.length_cons, Nat.cast_add,
          Nat.cast_one, Nat.cast_ofNat, ih]
        ring
  cases ts with
  | nil => exact absurd rfl hne
  | cons t ts =>
    cases bodies with
    | nil => cases hlen
    | cons b bodies =>
      have htail := htail (Nat.succ.inj hlen)
      unfold render overhead
      rw [List.zipWith_cons_cons, length_intercalate_cons]
      simp only [List.map_cons, List.sum_cons, List.length_append, List.length_cons, List.length_nil, Nat.cast_add,
        Nat.cast_one, zero_add, Nat.reduceAdd, htail]
      ring

theorem not_mem_readIndex {file : Option ByteArray} {body : Text} (h : readIndex file = some body) : '\r' ∉ body := by
  unfold readIndex at h
  split at h
  · rename_i text hread
    split at h
    · cases h
    · obtain ⟨bytes, -, hread⟩ := Option.map_eq_some_iff.1 hread
      unfold readText at hread
      split at hread
      · cases hread
        cases h
        exact fun hr => not_mem_newlines _ ((strip_within _).subset hr)
      · cases hread
  · cases h

theorem not_mem_tiers {userHeaderPath : Text} {user project : Option ByteArray} :
    ∀ t ∈ tiers userHeaderPath user project, '\r' ∉ t.2 := by
  intro t ht
  rcases List.mem_append.1 ht with ht | ht <;>
    obtain ⟨body, hbody, rfl⟩ := Option.map_eq_some_iff.1 (Option.mem_toList.1 ht) <;>
      exact not_mem_readIndex hbody

/-- A text of these tiers within the budget, which their shares divide. A tier
has the fair share or all it needs, and where it is cut, the shares of the
others leave less than its body. -/
structure WithinBudget (ts : List (Text × Text)) (charBudget : Int) (text : Text) : Prop where
  length_le : (text.length : Int) ≤ charBudget
  parts : ∃ es : List (Text × Int), text = render ts (es.map Prod.fst) ∧
    (es.map Prod.snd).sum ≤ charBudget - overhead ts ∧ List.Forall₂ (fun t e => Shown e.2 t.2 e.1 ∧ e.2 ≤ t.2.length ∧
      min (t.2.length : Int) ((charBudget - overhead ts) / ts.length) ≤ e.2 ∧
        (e.1 ≠ t.2 → charBudget - overhead ts - ((es.map Prod.snd).sum - e.2) < t.2.length)) ts es

theorem withinBudget_of_fits {ts : List (Text × Text)} {charBudget : Int} (hne : ts ≠ [])
    (hfits : ((render ts (ts.map Prod.snd)).length : Int) ≤ charBudget) :
    WithinBudget ts charBudget (render ts (ts.map Prod.snd)) := by
  refine ⟨hfits, ts.map fun t => (t.2, (t.2.length : Int)), by rw [List.map_map]; rfl, ?_, ?_⟩
  · rw [length_render hne (List.length_map _).symm, List.map_map] at hfits
    rw [List.map_map]
    exact le_sub_iff_add_le'.2 hfits
  rw [List.forall₂_map_right_iff, List.forall₂_same]
  exact fun t _ => ⟨.inl rfl, le_refl _, min_le_left _ _, fun h => absurd rfl h⟩

/-- Each body with its share. -/
theorem forall₂_zipWith {α β γ : Type} {Q : α → β → Prop} {P : α → γ × β → Prop} {f : α → β → γ} {as : List α} {bs : List β}
    (h : List.Forall₂ Q as bs) (himp : ∀ a ∈ as, ∀ b, Q a b → P a (f a b, b)) :
    List.Forall₂ P as (List.zipWith (fun a b => (f a b, b)) as bs) ∧
      (List.zipWith (fun a b => (f a b, b)) as bs).map Prod.fst = List.zipWith f as bs ∧
        (List.zipWith (fun a b => (f a b, b)) as bs).map Prod.snd = bs := by
  induction h with
  | nil => exact ⟨.nil, rfl, rfl⟩
  | cons hab _ ih =>
    obtain ⟨hP, hfst, hsnd⟩ := ih fun a ha => himp a (List.mem_cons_of_mem _ ha)
    refine ⟨.cons (himp _ List.mem_cons_self _ hab) hP, ?_, ?_⟩
    · rw [List.zipWith_cons_cons, List.map_cons, hfst, List.zipWith_cons_cons]
    · rw [List.zipWith_cons_cons, List.map_cons, hsnd]

theorem sum_length_le {ts : List (Text × Text)} {es : List (Text × Int)}
    (h : List.Forall₂ (fun _ e => (e.1.length : Int) ≤ e.2) ts es) :
    ((es.map Prod.fst).map fun b => (b.length : Int)).sum ≤ (es.map Prod.snd).sum := by
  induction h with
  | nil => exact le_refl _
  | cons he _ ih =>
    simp only [List.map_cons, List.sum_cons]
    exact add_le_add he ih

theorem withinBudget_of_shares {ts : List (Text × Text)} {charBudget : Int} (hne : ts ≠ [])
    (hcover : overhead ts + truncationNotice.length * ts.length ≤ charBudget) (hbodies : ∀ t ∈ ts, '\r' ∉ t.2) :
    WithinBudget ts charBudget
      (render ts (List.zipWith (fun t share => truncateTop t.2 share) ts (shares (charBudget - overhead ts) ts))) := by
  obtain ⟨hbetween, hsum, hused⟩ := shares_spec (charBudget - overhead ts) hne
  have hpos : (0 : Int) < ts.length := by exact_mod_cast List.length_pos_iff.2 hne
  have hfair : (truncationNotice.length : Int) ≤ (charBudget - overhead ts) / ts.length :=
    (Int.le_ediv_iff_mul_le hpos).2 (by linarith)
  have htop : ∀ t ∈ ts, ∀ share : Int, min (t.2.length : Int) ((charBudget - overhead ts) / ts.length) ≤ share →
      ((truncateTop t.2 share).length : Int) ≤ share ∧ Shown share t.2 (truncateTop t.2 share) := by
    intro t ht share hmin
    refine truncateTop_spec (hbodies t ht) ?_
    omega
  obtain ⟨hlength, hfst, hsnd⟩ := forall₂_zipWith (f := fun t share => truncateTop t.2 share)
    (P := fun _ e => (e.1.length : Int) ≤ e.2) hbetween fun t ht share hshare => (htop t ht share hshare.1).1
  have hle := sum_length_le hlength
  rw [hfst, hsnd] at hle
  constructor
  · rw [length_render hne (by rw [List.length_zipWith, ← hbetween.length_eq, Nat.min_self])]
    linarith
  · refine ⟨_, congrArg (render ts) hfst.symm, by rwa [hsnd], ?_⟩
    rw [hsnd]
    rcases hused with hall | hused
    · refine (forall₂_zipWith (f := fun t share => truncateTop t.2 share) hall fun t ht share hshare => ?_).1
      have hshown : truncateTop t.2 share = t.2 := if_pos (le_of_eq hshare.symm)
      rw [hshown]
      exact ⟨.inl rfl, le_of_eq hshare, by rw [hshare]; exact min_le_left _ _, fun h => absurd rfl h⟩
    · refine (forall₂_zipWith (f := fun t share => truncateTop t.2 share) hbetween fun t ht share hshare => ?_).1
      refine ⟨(htop t ht share hshare.1).2, hshare.2, hshare.1, fun hcut => ?_⟩
      have hlong : share < t.2.length := by
        by_contra hfits
        exact hcut (if_pos (not_lt.1 hfits))
      linarith

/-- The text is within every budget that covers the headers, the separators and
a notice for each tier. -/
theorem load_memory_within_budget (userHeaderPath : Text) (user project : Option ByteArray) {charBudget : Int}
    (hcover : overhead (tiers userHeaderPath user project) +
      truncationNotice.length * (tiers userHeaderPath user project).length ≤ charBudget) :
    tiers userHeaderPath user project = [] ∧ loadMemory userHeaderPath user project charBudget = none ∨
      ∃ text, loadMemory userHeaderPath user project charBudget = some text ∧
        WithinBudget (tiers userHeaderPath user project) charBudget text := by
  unfold loadMemory
  dsimp only
  split
  · exact .inl ⟨‹_›, rfl⟩
  · rename_i hne
    split
    · exact .inr ⟨_, rfl, withinBudget_of_fits hne ‹_›⟩
    · exact .inr ⟨_, rfl, withinBudget_of_shares hne hcover not_mem_tiers⟩

private def userPath : Text := "~/.openhands/memory/MEMORY.md".toList

/-- A file of one line. -/
private def oneLine (n : Nat) (c : Char) : Option ByteArray := some (String.ofList (List.replicate n c ++ ['\n'])).toUTF8

/-- Two lines and a budget of sixty characters for them: both tiers are cut. -/
theorem load_memory_within_sixty : ∃ text, loadMemory userPath (oneLine 40 'u') (oneLine 34 'p') 155 = some text ∧
    WithinBudget (tiers userPath (oneLine 40 'u') (oneLine 34 'p')) 155 text :=
  (load_memory_within_budget userPath (oneLine 40 'u') (oneLine 34 'p') (by decide +kernel)).resolve_left fun h =>
    absurd h.1 (by decide +kernel)

/-- The line of the project would fit beside the notice of the user's tier. -/
theorem fitting_tier_cut :
    overhead (tiers userPath (oneLine 40 'u') (oneLine 34 'p')) + truncationNotice.length * 2 ≤ 155 ∧
    loadMemory userPath (oneLine 40 'u') (oneLine 34 'p') 155 =
      some (render (tiers userPath (oneLine 40 'u') (oneLine 34 'p')) [truncationNotice, truncationNotice]) ∧
    (tiers userPath (oneLine 40 'u') (oneLine 34 'p')).map Prod.snd = [List.replicate 40 'u', List.replicate 34 'p'] ∧
    (render (tiers userPath (oneLine 40 'u') (oneLine 34 'p')) [truncationNotice, List.replicate 34 'p']).length ≤ 155 := by
  decide +kernel

end AgentSdk.LoadMemory
