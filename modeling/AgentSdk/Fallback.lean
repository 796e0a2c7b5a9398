import AgentSdk.Lib.Runs
import AgentSdk.Metrics
/-!
# Fallback models

`FallbackStrategy.try_fallback`: profiles are loaded when they are needed, and
the models loaded are kept for the calls that follow. How many there are is
taken for a place in the list of names.
-/

namespace AgentSdk
open Lib

/-- Loading a profile gives a model with its metrics, or an error: one that is
logged (`FileNotFoundError`, `ValueError`), or another. -/
inductive Loading where
  | llm (metrics : Metrics)
  | failed
  | raised
deriving DecidableEq

def Loading.isLlm : Loading → Bool
  | .llm _ => true
  | _ => false

/-- How `call_fn` ends. A budget error is raised again. -/
inductive CallOutcome where
  | response (text : String)
  | failed
  | budgetExceeded
deriving DecidableEq, Repr

/-- A call to a model: what it adds to the metrics, and how it ends. -/
structure FallbackCall where
  metrics : List Metrics.Op := []
  outcome : CallOutcome

/-- A loaded profile, with its place in the list of names. -/
structure Fallback where
  place : Nat
  metrics : Metrics
deriving DecidableEq

structure FallbackStrategy where
  fallbackLlms : List String
  resolved : List Fallback := []
deriving DecidableEq

/-- What a call of `try_fallback` meets: the profiles by place, and how the
calls to the models end, one trial after the other. -/
structure TryCall where
  primaryMetrics : Metrics := {}
  load : Nat → Loading
  calls : Nat → FallbackCall

inductive Ending where
  | returned (text : String)
  | raised
  | exhausted
deriving DecidableEq, Repr

/-- A call of `try_fallback` on its way: the places tried so far. -/
structure Trying where
  resolved : List Fallback := []
  primaryMetrics : Metrics
  tried : List Nat := []

namespace Fallback

/-- One trial. Without an ending the next model is tried. -/
def attempt (fb : Fallback) (primary : Metrics) (call : FallbackCall) : Fallback × Metrics × Option Ending :=
  let metrics := fb.metrics.after call.metrics
  match call.outcome with
  | .response text =>
    match metrics.diff fb.metrics.deepCopy with
    | .ok metricsDiff => ({ fb with metrics }, primary.merge metricsDiff, some (.returned text))
    | .error _ => ({ fb with metrics }, primary, none)
  | .failed => ({ fb with metrics }, primary, none)
  | .budgetExceeded => ({ fb with metrics }, primary, some .raised)

end Fallback

namespace Trying

def attempt (t : Trying) (fb : Fallback) (calls : Nat → FallbackCall) : Trying × Option Ending :=
  let r := fb.attempt t.primaryMetrics (calls t.tried.length)
  (⟨t.resolved ++ [r.1], r.2.1, t.tried ++ [fb.place]⟩, r.2.2)

/-- The models that are there already. -/
def tryCached (calls : Nat → FallbackCall) (t : Trying) : List Fallback → Trying × Option Ending
  | [] => (t, none)
  | fb :: cached =>
    match t.attempt fb calls with
    | (t, some e) => ({ t with resolved := t.resolved ++ cached }, some e)
    | (t, none) => tryCached calls t cached

/-- The names at these places. -/
def tryRemaining (load : Nat → Loading) (calls : Nat → FallbackCall) (t : Trying) : List Nat → Trying × Ending
  | [] => (t, .exhausted)
  | place :: places =>
    match load place with
    | .failed => tryRemaining load calls t places
    | .raised => (t, .raised)
    | .llm metrics =>
      match t.attempt ⟨place, metrics⟩ calls with
      | (t, some e) => (t, e)
      | (t, none) => tryRemaining load calls t places

end Trying

namespace FallbackStrategy

/-- `fallback_llms[len(_resolved):]`, by places. -/
def remaining (s : FallbackStrategy) : List Nat :=
  List.range' s.resolved.length (s.fallbackLlms.length - s.resolved.length)

def tryFallback (s : FallbackStrategy) (c : TryCall) : Trying × Ending :=
  match Trying.tryCached c.calls { primaryMetrics := c.primaryMetrics } s.resolved with
  | (t, some e) => (t, e)
  | (t, none) => Trying.tryRemaining c.load c.calls t s.remaining

def step (s : FallbackStrategy) (c : TryCall) : Option FallbackStrategy :=
  some { s with resolved := (s.tryFallback c).1.resolved }

/-- A profile is loaded already, or it can be. -/
def Loadable (s : FallbackStrategy) (c : TryCall) (place : Nat) : Prop :=
  (∃ fb ∈ s.resolved, fb.place = place) ∨ place < s.fallbackLlms.length ∧ (c.load place).isLlm = true

/-- The loadable profiles are tried once each, in order and without a gap,
until the first success, and all of them before a failure is reported. -/
structure OrderedOnce (s : FallbackStrategy) (c : TryCall) : Prop where
  order : (s.tryFallback c).1.tried.Pairwise (· < ·)
  noGap : ∀ p ∈ (s.tryFallback c).1.tried, ∀ q < p, s.Loadable c q → q ∈ (s.tryFallback c).1.tried
  firstSuccess : ∀ i text, i < (s.tryFallback c).1.tried.length → (c.calls i).outcome = .response text →
    i + 1 = (s.tryFallback c).1.tried.length ∧ (s.tryFallback c).2 = .returned text
  allTried : (s.tryFallback c).2 = .exhausted → ∀ q, s.Loadable c q → q ∈ (s.tryFallback c).1.tried

/-- The call reaches this place, and its profile is the first that fails to
load: all models before it are loaded and tried in vain. -/
def FirstMissing (s : FallbackStrategy) (c : TryCall) (f : Nat) : Prop :=
  s.resolved.length ≤ f ∧ c.load f = .failed ∧ (∀ j < f, s.resolved.length ≤ j → (c.load j).isLlm = true) ∧
    ∀ i < f, (c.calls i).outcome = .failed

/-- The next place after this one that does not fail to load gives a model. -/
def LoadsAfter (s : FallbackStrategy) (c : TryCall) (f : Nat) : Prop :=
  ∃ q < s.fallbackLlms.length, f < q ∧ (c.load q).isLlm = true ∧ ∀ j < q, f < j → c.load j = .failed

/-- No profile is loaded after one that fails to load. -/
def Allowed (s : FallbackStrategy) (c : TryCall) : Prop :=
  ∀ f < s.fallbackLlms.length, s.FirstMissing c f → ¬ s.LoadsAfter c f

instance firstMissingDecidable (s : FallbackStrategy) (c : TryCall) (f : Nat) : Decidable (s.FirstMissing c f) := by
  unfold FirstMissing
  infer_instance

instance loadsAfterDecidable (s : FallbackStrategy) (c : TryCall) (f : Nat) : Decidable (s.LoadsAfter c f) := by
  unfold LoadsAfter
  infer_instance

instance allowedDecidable (s : FallbackStrategy) (c : TryCall) : Decidable (s.Allowed c) := by
  unfold Allowed
  infer_instance

/-- The models loaded are those of the first places. -/
def Aligned (s : FallbackStrategy) : Prop := s.resolved.map Fallback.place = List.range s.resolved.length

end FallbackStrategy

/-! ## One trial -/

/-- No trial before the `n`-th succeeded. -/
def TryCall.InVain (c : TryCall) (n : Nat) : Prop := ∀ i < n, (c.calls i).outcome = .failed

theorem TryCall.InVain.succ {c : TryCall} {n : Nat} (h : c.InVain n) (hn : (c.calls n).outcome = .failed) :
    c.InVain (n + 1) := by
  intro i hi
  rcases Nat.lt_succ_iff_lt_or_eq.1 hi with hlt | rfl
  · exact h i hlt
  · exact hn

theorem TryCall.inVain_nil (c : TryCall) (primaryMetrics : Metrics) :
    c.InVain ({ primaryMetrics } : Trying).tried.length := fun i hi => absurd hi (Nat.not_lt_zero i)

/-- The difference to the metrics before the call always exists. -/
theorem Fallback.attempt_spec (fb : Fallback) (primary : Metrics) (call : FallbackCall) :
    (fb.attempt primary call).1.place = fb.place ∧
      ((fb.attempt primary call).2.2 = none ↔ call.outcome = .failed) ∧
      (∀ text, call.outcome = .response text → (fb.attempt primary call).2.2 = some (.returned text)) ∧
      (fb.attempt primary call).2.2 ≠ some .exhausted := by
  have h := Metrics.after_appends fb.metrics call.metrics
  obtain ⟨d, hd, -⟩ := Metrics.diff_ok h.tokens h.counted
  have hdiff : (fb.metrics.after call.metrics).diff fb.metrics.deepCopy = .ok d := hd
  unfold Fallback.attempt
  cases hout : call.outcome with
  | response text => simp [hdiff]
  | failed => simp
  | budgetExceeded => simp

namespace Trying
variable {c : TryCall} {t t' : Trying} {fb : Fallback} {e : Ending}

def places (t : Trying) : List Nat := t.resolved.map Fallback.place

theorem attempt_tried (t : Trying) (fb : Fallback) (calls : Nat → FallbackCall) :
    (t.attempt fb calls).1.tried = t.tried ++ [fb.place] := rfl

theorem attempt_places (t : Trying) (fb : Fallback) (calls : Nat → FallbackCall) :
    (t.attempt fb calls).1.places = t.places ++ [fb.place] := by
  have hplace := (fb.attempt_spec t.primaryMetrics (calls t.tried.length)).1
  unfold places attempt
  simp [hplace]

/-- How the trials of a call end: only the last one succeeds. -/
def Stops (c : TryCall) (t : Trying) (e : Option Ending) : Prop :=
  ∀ i text, i < t.tried.length → (c.calls i).outcome = .response text →
    i + 1 = t.tried.length ∧ e = some (.returned text)

theorem stops_of_inVain (h : c.InVain t.tried.length) (e : Option Ending) : Stops c t e := by
  intro i text hi hout
  rw [h i hi] at hout
  cases hout

theorem attempt_stops (h : c.InVain t.tried.length) (fb : Fallback) :
    Stops c (t.attempt fb c.calls).1 (t.attempt fb c.calls).2 := by
  intro i text hi hout
  obtain ⟨-, -, hreturned, -⟩ := fb.attempt_spec t.primaryMetrics (c.calls t.tried.length)
  rw [attempt_tried, List.length_append] at hi ⊢
  rcases Nat.lt_succ_iff_lt_or_eq.1 hi with hlt | rfl
  · rw [h i hlt] at hout
    cases hout
  · exact ⟨rfl, hreturned text hout⟩

theorem attempt_inVain {f : Fallback} (h : c.InVain t.tried.length) (hnone : (t.attempt f c.calls).2 = none) :
    c.InVain (t.attempt f c.calls).1.tried.length := by
  obtain ⟨-, hfailed, -⟩ := f.attempt_spec t.primaryMetrics (c.calls t.tried.length)
  rw [attempt_tried, List.length_append]
  exact h.succ (hfailed.1 hnone)

theorem attempt_ne_exhausted (t : Trying) (fb : Fallback) : (t.attempt fb c.calls).2 ≠ some .exhausted :=
  (fb.attempt_spec t.primaryMetrics (c.calls t.tried.length)).2.2.2

/-! ## The models that are there -/

/-- They stay, and they are tried in their order until one ends the call. -/
theorem tryCached_spec {cached : List Fallback} {o : Option Ending} (h : c.InVain t.tried.length)
    (hr : tryCached c.calls t cached = (t', o)) :
    t'.places = t.places ++ cached.map Fallback.place ∧ Stops c t' o ∧ o ≠ some .exhausted ∧
      (∃ k, t'.tried = t.tried ++ (cached.map Fallback.place).take k) ∧
      (o = none → c.InVain t'.tried.length ∧ t'.tried = t.tried ++ cached.map Fallback.place) := by
  induction cached generalizing t with
  | nil =>
    cases hr
    exact ⟨by simp, stops_of_inVain h _, nofun, ⟨0, by simp⟩, fun _ => ⟨h, by simp⟩⟩
  | cons fb cached ih =>
    have hstops := attempt_stops h fb
    have hvain := attempt_inVain h (f := fb)
    have hexhausted := attempt_ne_exhausted (c := c) t fb
    have hplaces := attempt_places t fb c.calls
    have htried := attempt_tried t fb c.calls
    unfold tryCached at hr
    rcases ht : t.attempt fb c.calls with ⟨t₁, o₁⟩
    rw [ht] at hr hstops hvain hexhausted hplaces htried
    dsimp only at hr hstops hvain hexhausted hplaces htried
    cases o₁ with
    | some e =>
      cases hr
      refine ⟨?_, hstops, hexhausted, ⟨1, by simp [htried]⟩, nofun⟩
      unfold places at hplaces ⊢
      simp [hplaces]
    | none =>
      obtain ⟨hplaces', hstops', hexhausted', ⟨k, hk⟩, hnone⟩ := ih (hvain rfl) hr
      refine ⟨by simp [hplaces', hplaces], hstops', hexhausted', ⟨k + 1, by simp [hk, htried]⟩, fun ho => ?_⟩
      obtain ⟨hvain', htried'⟩ := hnone ho
      exact ⟨hvain', by simp [htried', htried]⟩

/-! ## The names after them -/

/-- What is tried is kept, and no name that can be loaded is passed over. -/
theorem tryRemaining_spec {rest : List Nat} (hrest : rest.Pairwise (· < ·)) (h : c.InVain t.tried.length)
    (hr : tryRemaining c.load c.calls t rest = (t', e)) :
    Stops c t' (some e) ∧ ∃ added, List.Sublist added rest ∧ t'.tried = t.tried ++ added ∧
      t'.places = t.places ++ added ∧ (e = .exhausted → ∀ q ∈ rest, (c.load q).isLlm = true → q ∈ added) ∧
        ∀ p ∈ added, ∀ q ∈ rest, q < p → (c.load q).isLlm = true → q ∈ added := by
  induction rest generalizing t with
  | nil =>
    cases hr
    exact ⟨stops_of_inVain h _, [], .slnil, by simp, by simp, by simp, by simp⟩
  | cons place rest ih =>
    obtain ⟨hplace, hrest⟩ := List.pairwise_cons.1 hrest
    unfold tryRemaining at hr
    cases hload : c.load place with
    | failed =>
      rw [hload] at hr
      have hnot : (c.load place).isLlm ≠ true := by simp [hload, Loading.isLlm]
      obtain ⟨hstops, added, hsub, htried, hplaces, hall, hgap⟩ := ih hrest h hr
      refine ⟨hstops, added, hsub.cons _, htried, hplaces, fun he q hq hllm => ?_, fun p hp q hq hlt hllm => ?_⟩
      · rcases List.mem_cons.1 hq with rfl | hq
        · exact absurd hllm hnot
        · exact hall he q hq hllm
      · rcases List.mem_cons.1 hq with rfl | hq
        · exact absurd hllm hnot
        · exact hgap p hp q hq hlt hllm
    | raised =>
      rw [hload] at hr
      cases hr
      exact ⟨stops_of_inVain h _, [], List.nil_sublist _, by simp, by simp, nofun, by simp⟩
    | llm metrics =>
      rw [hload] at hr
      have hstops := attempt_stops h ⟨place, metrics⟩
      have hvain := attempt_inVain h (f := ⟨place, metrics⟩)
      have hexhausted := attempt_ne_exhausted (c := c) t ⟨place, metrics⟩
      have hplaces := attempt_places t ⟨place, metrics⟩ c.calls
      have htried := attempt_tried t ⟨place, metrics⟩ c.calls
      rcases ht : t.attempt ⟨place, metrics⟩ c.calls with ⟨t₁, o₁⟩
      rw [ht] at hstops hvain hexhausted hplaces htried
      simp only [ht] at hr
      dsimp only at hstops hvain hexhausted hplaces htried
      cases o₁ with
      | some e₁ =>
        cases hr
        refine ⟨hstops, [place], List.cons_sublist_cons.2 (List.nil_sublist _), htried, hplaces, fun he => ?_,
          fun p hp q hq hlt hllm => ?_⟩
        · exact absurd (congrArg some he) hexhausted
        · rw [List.mem_singleton.1 hp] at hlt
          rcases List.mem_cons.1 hq with rfl | hq
          · exact List.mem_singleton_self _
          · exact absurd (hplace q hq) (Nat.not_lt.2 hlt.le)
      | none =>
        obtain ⟨hstops', added, hsub, htried', hplaces', hall, hgap⟩ := ih hrest (hvain rfl) hr
        refine ⟨hstops', place :: added, List.cons_sublist_cons.2 hsub, by simp [htried', htried],
          by simp [hplaces', hplaces], fun he q hq hllm => ?_, fun p hp q hq hlt hllm => ?_⟩
        · rcases List.mem_cons.1 hq with rfl | hq
          · exact List.mem_cons_self
          · exact List.mem_cons_of_mem _ (hall he q hq hllm)
        · rcases List.mem_cons.1 hq with rfl | hmem
          · exact List.mem_cons_self
          · rcases List.mem_cons.1 hp with rfl | hp
            · exact absurd (hplace q hmem) (Nat.not_lt.2 hlt.le)
            · exact List.mem_cons_of_mem _ (hgap p hp q hmem hlt hllm)

/-- Where all names fail to load, up to one that raises, nothing is added. -/
theorem tryRemaining_places {rest : List Nat} (hrest : rest.Pairwise (· < ·))
    (hnone : ∀ q ∈ rest, (c.load q).isLlm = true → ∃ j ∈ rest, j < q ∧ c.load j ≠ .failed)
    (hr : tryRemaining c.load c.calls t rest = (t', e)) : t'.places = t.places := by
  induction rest with
  | nil =>
    cases hr
    rfl
  | cons place rest ih =>
    obtain ⟨hplace, hrest⟩ := List.pairwise_cons.1 hrest
    unfold tryRemaining at hr
    cases hload : c.load place with
    | failed =>
      rw [hload] at hr
      refine ih hrest (fun q hq hllm => ?_) hr
      obtain ⟨j, hj, hlt, hne⟩ := hnone q (List.mem_cons_of_mem _ hq) hllm
      rcases List.mem_cons.1 hj with rfl | hj
      · exact absurd hload hne
      · exact ⟨j, hj, hlt, hne⟩
    | raised =>
      rw [hload] at hr
      cases hr
      rfl
    | llm metrics =>
      obtain ⟨j, hj, hlt, -⟩ := hnone place List.mem_cons_self (by simp [hload, Loading.isLlm])
      rcases List.mem_cons.1 hj with rfl | hj
      · exact absurd hlt (Nat.lt_irrefl _)
      · exact absurd (hplace j hj) (Nat.not_lt.2 hlt.le)

/-- From the place where the loaded models end, the names that are loaded
follow one another, unless one is loaded behind a missing one. -/
theorem tryRemaining_aligned {k d : Nat} (hplaces : t.places = List.range k) (hlen : t.tried.length = k)
    (hvain : c.InVain k)
    (hallowed : ∀ f < k + d, k ≤ f → c.load f = .failed → (∀ j < f, k ≤ j → (c.load j).isLlm = true) → c.InVain f →
      ¬ ∃ q < k + d, f < q ∧ (c.load q).isLlm = true ∧ ∀ j < q, f < j → c.load j = .failed)
    (hr : tryRemaining c.load c.calls t (List.range' k d) = (t', e)) : ∃ m, t'.places = List.range m := by
  induction d generalizing k t with
  | zero =>
    cases hr
    exact ⟨k, hplaces⟩
  | succ d ih =>
    rw [List.range'_succ] at hr
    unfold tryRemaining at hr
    cases hload : c.load k with
    | failed =>
      rw [hload] at hr
      refine ⟨k, (tryRemaining_places List.pairwise_lt_range' (fun q hq hllm => ?_) hr).trans hplaces⟩
      rw [List.mem_range'_1] at hq
      by_contra hno
      refine hallowed k (by omega) (Nat.le_refl k) hload (fun j hj hkj => by omega) hvain
        ⟨q, by omega, by omega, hllm, fun j hj hkj => ?_⟩
      by_contra hne
      exact hno ⟨j, List.mem_range'_1.2 ⟨by omega, by omega⟩, hj, hne⟩
    | raised =>
      rw [hload] at hr
      cases hr
      exact ⟨k, hplaces⟩
    | llm metrics =>
      rw [hload] at hr
      have hvain' := attempt_inVain (hlen.symm ▸ hvain) (f := ⟨k, metrics⟩)
      have hplaces' := attempt_places t ⟨k, metrics⟩ c.calls
      have htried := attempt_tried t ⟨k, metrics⟩ c.calls
      rcases ht : t.attempt ⟨k, metrics⟩ c.calls with ⟨t₁, o₁⟩
      rw [ht] at hvain' hplaces' htried
      simp only [ht] at hr
      dsimp only at hvain' hplaces' htried
      have hsnoc : t₁.places = List.range (k + 1) := by rw [hplaces', hplaces, List.range_succ]
      have hlen' : t₁.tried.length = k + 1 := by rw [htried, List.length_append, hlen, List.length_singleton]
      cases o₁ with
      | some e₁ =>
        cases hr
        exact ⟨k + 1, hsnoc⟩
      | none =>
        refine ih hsnoc hlen' (hlen' ▸ hvain' rfl) (fun f hf hkf hfailed hbefore hvainf hafter => ?_) hr
        obtain ⟨q, hq, hrest⟩ := hafter
        refine hallowed f (by omega) (by omega) hfailed (fun j hj hkj => ?_) hvainf ⟨q, by omega, hrest⟩
        rcases Nat.eq_or_lt_of_le hkj with rfl | hlt
        · simp [hload, Loading.isLlm]
        · exact hbefore j hj hlt

end Trying

/-! ## One call, and all of them -/

namespace FallbackStrategy
variable {s t : FallbackStrategy} {c : TryCall}

theorem loadable_iff (h : s.Aligned) {q : Nat} :
    s.Loadable c q ↔ q < s.resolved.length ∨ q < s.fallbackLlms.length ∧ (c.load q).isLlm = true := by
  refine or_congr_left ?_
  rw [← List.mem_range, ← h, List.mem_map]

/-- As long as the models loaded are those of the first places, a call tries
every loadable profile in order, once. -/
theorem orderedOnce_of_aligned (h : s.Aligned) (c : TryCall) : s.OrderedOnce c := by
  have hsorted : s.remaining.Pairwise (· < ·) := List.pairwise_lt_range'
  rcases hcached : Trying.tryCached c.calls { primaryMetrics := c.primaryMetrics } s.resolved with ⟨t, o⟩
  obtain ⟨-, hstops, hexhausted, ⟨k, hk⟩, hnone⟩ := Trying.tryCached_spec (c.inVain_nil _) hcached
  unfold Aligned at h
  rw [h, List.nil_append] at hk hnone
  cases o with
  | some e =>
    have hrun : s.tryFallback c = (t, e) := by rw [tryFallback, hcached]
    refine ⟨?_, fun p hp q hlt _ => ?_, fun i text hi hout => ?_, fun he => ?_⟩
    · rw [hrun, hk]
      exact List.pairwise_lt_range.sublist (List.take_sublist _ _)
    · rw [hrun, hk] at hp ⊢
      rw [List.take_range, List.mem_range] at hp ⊢
      exact hlt.trans hp
    · rw [hrun] at hi ⊢
      obtain ⟨hlast, he⟩ := hstops i text hi hout
      exact ⟨hlast, Option.some.inj he⟩
    · rw [hrun] at he
      exact absurd (congrArg some he) hexhausted
  | none =>
    obtain ⟨hvain, htried⟩ := hnone rfl
    rcases hrest : Trying.tryRemaining c.load c.calls t s.remaining with ⟨t', e⟩
    have hrun : s.tryFallback c = (t', e) := by rw [tryFallback, hcached]; exact hrest
    obtain ⟨hstops', added, hsub, htried', -, hall, hgap⟩ := Trying.tryRemaining_spec hsorted hvain hrest
    rw [htried] at htried'
    have hmem : ∀ {q}, q ∈ s.remaining ↔ s.resolved.length ≤ q ∧ q < s.fallbackLlms.length := by
      intro q
      rw [remaining, List.mem_range'_1]
      omega
    refine ⟨?_, fun p hp q hlt hq => ?_, fun i text hi hout => ?_, fun he q hq => ?_⟩
    · rw [hrun, htried']
      refine List.pairwise_append.2 ⟨List.pairwise_lt_range, hsorted.sublist hsub, fun a ha b hb => ?_⟩
      exact (List.mem_range.1 ha).trans_le (hmem.1 (hsub.subset hb)).1
    · rw [hrun, htried'] at hp ⊢
      rcases (loadable_iff h).1 hq with hbelow | ⟨hqn, hllm⟩
      · exact List.mem_append_left _ (List.mem_range.2 hbelow)
      · by_cases hbelow : q < s.resolved.length
        · exact List.mem_append_left _ (List.mem_range.2 hbelow)
        · rcases List.mem_append.1 hp with hp | hp
          · exact absurd (hlt.trans (List.mem_range.1 hp)) hbelow
          · exact List.mem_append_right _ (hgap p hp q (hmem.2 ⟨Nat.le_of_not_lt hbelow, hqn⟩) hlt hllm)
    · rw [hrun] at hi ⊢
      obtain ⟨hlast, he⟩ := hstops' i text hi hout
      exact ⟨hlast, Option.some.inj he⟩
    · rw [hrun] at he ⊢
      rw [htried']
      rcases (loadable_iff h).1 hq with hbelow | ⟨hqn, hllm⟩
      · exact List.mem_append_left _ (List.mem_range.2 hbelow)
      · by_cases hbelow : q < s.resolved.length
        · exact List.mem_append_left _ (List.mem_range.2 hbelow)
        · exact List.mem_append_right _ (hall he q (hmem.2 ⟨Nat.le_of_not_lt hbelow, hqn⟩) hllm)

theorem Aligned.step (h : s.Aligned) (hok : s.Allowed c) (ht : s.step c = some t) : t.Aligned := by
  cases ht
  rcases hcached : Trying.tryCached c.calls { primaryMetrics := c.primaryMetrics } s.resolved with ⟨t, o⟩
  obtain ⟨hplaces, -, -, -, hnone⟩ := Trying.tryCached_spec (c.inVain_nil _) hcached
  have hplaces : t.places = List.range s.resolved.length := hplaces.trans ((List.nil_append _).trans h)
  have hrange : ∃ m, (s.tryFallback c).1.places = List.range m := by
    cases o with
    | some e =>
      rw [tryFallback, hcached]
      exact ⟨_, hplaces⟩
    | none =>
      obtain ⟨hvain, htried⟩ := hnone rfl
      have htried : t.tried = List.range s.resolved.length := htried.trans ((List.nil_append _).trans h)
      have hlen : t.tried.length = s.resolved.length := by rw [htried, List.length_range]
      rw [hlen] at hvain
      rw [tryFallback, hcached]
      refine Trying.tryRemaining_aligned hplaces hlen hvain (fun f hf hle hfailed hbefore hvainf => ?_) rfl
      rintro ⟨q, hq, hlt, hllm, hbetween⟩
      exact hok f (by omega) ⟨hle, hfailed, hbefore, hvainf⟩ ⟨q, by omega, hlt, hllm, hbetween⟩
  obtain ⟨m, hm⟩ := hrange
  have hlength := congrArg List.length hm
  rw [Trying.places, List.length_map, List.length_range] at hlength
  show (s.tryFallback c).1.places = List.range (s.tryFallback c).1.resolved.length
  rw [hlength, hm]

/-- In every run in which no profile is loaded after one that failed to load,
each call tries the loadable profiles in order, each once. -/
theorem ordered_once_of_calls {names : List String}
    (h : Reaches step Allowed { fallbackLlms := names } s) (c : TryCall) : s.OrderedOnce c := by
  have haligned : s.Aligned := by
    refine h.invariant ?_ fun s c t hs hok ht => hs.step hok ht
    rfl
  exact orderedOnce_of_aligned haligned c

/-- All profiles load, and no model answers. -/
private def unanswered : TryCall := { load _ := .llm {}, calls _ := { outcome := .failed } }

/-- The second model answers. -/
private def recovering : TryCall :=
  { load _ := .llm {}, calls i := { outcome := if i = 0 then .failed else .response "Done." } }

theorem ordered_once_again : ∃ s, execAllowed step Allowed { fallbackLlms := ["small", "large"] } [unanswered] = some s ∧
    (s.tryFallback recovering).1.tried = [0, 1] ∧ s.OrderedOnce recovering := by
  have hrun : (execAllowed step Allowed { fallbackLlms := ["small", "large"] } [unanswered]).map
      (fun s => (s.tryFallback recovering).1.tried) = some [0, 1] := by decide +kernel
  obtain ⟨s, hs, htried⟩ := Option.map_eq_some_iff.1 hrun
  exact ⟨s, hs, htried, ordered_once_of_calls (reaches_of_execAllowed .init hs) recovering⟩

/-- The first profile is missing, and the second model does not answer. -/
private def halfMissing : TryCall :=
  { load place := if place = 0 then .failed else .llm {}, calls _ := { outcome := .failed } }

/-- The second call tries the second model twice. -/
theorem tried_twice : ∃ s, exec step { fallbackLlms := ["missing", "large"] } [halfMissing] = some s ∧
    (s.tryFallback halfMissing).1.tried = [1, 1] ∧ ¬ s.OrderedOnce halfMissing := by
  refine ⟨_, rfl, by decide +kernel, fun h => ?_⟩
  have horder := h.order
  revert horder
  decide +kernel

end FallbackStrategy

end AgentSdk
