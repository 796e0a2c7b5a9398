import AgentSdk.Lib.Leftmost
import AgentSdk.Lib.Text
import Mathlib.Data.List.Dedup
import Mathlib.Data.List.Sort
/-!
# Masking secrets

`SecretRegistry` replaces the secret values it has resolved, in a finished text
one value after another, and in a text that arrives in pieces with one pattern
over all of them. A text is a list of characters.
-/

namespace AgentSdk
open Lib

def secretHidden : Text := "<secret-hidden>".toList

/-! ## Text in pieces -/

/-- No pattern when there is nothing to mask. -/
structure StreamOutputMask where
  pattern : Option (Pattern Char)
  maxLen : Nat
  held : Text := []

namespace StreamOutputMask

/-- The loop of `_release` over the matches: what goes out, and what stays. -/
def releaseLoop (held : Text) (cut : Nat) (out : Text) (pos stop : Nat) : List (Nat × Nat) → Text × Text
  | [] => (out ++ (held.take stop).drop pos, held.drop stop)
  | (matchStart, matchEnd) :: matches' =>
    if cut ≤ matchStart then (out ++ (held.take stop).drop pos, held.drop stop)
    else releaseLoop held cut (out ++ (held.take matchStart).drop pos ++ secretHidden) matchEnd (max stop matchEnd) matches'

def release (m : StreamOutputMask) (pattern : Pattern Char) (cut : Nat) : Text × StreamOutputMask :=
  let r := releaseLoop m.held cut [] 0 cut (pattern.finditer 0 m.held)
  (r.1, { m with held := r.2 })

/-- The cut leaves the longest value minus one character behind it. -/
def feed (m : StreamOutputMask) (text : Text) : Text × StreamOutputMask :=
  match m.pattern with
  | none => (text, m)
  | some pattern =>
    let m := { m with held := m.held ++ text }
    m.release pattern (m.held.length + 1 - m.maxLen)

def flush (m : StreamOutputMask) : Text × StreamOutputMask :=
  match m.pattern with
  | none => ([], m)
  | some pattern => m.release pattern m.held.length

/-- One call of `feed` for each chunk. -/
def feedAll (m : StreamOutputMask) : List Text → Text × StreamOutputMask
  | [] => ([], m)
  | text :: chunks =>
    let r := m.feed text
    let rs := r.2.feedAll chunks
    (r.1 ++ rs.1, rs.2)

theorem releaseLoop_done {held : Text} {cut : Nat} {out : Text} {pos stop : Nat} {spans : List (Nat × Nat)}
    (h : ∀ span ∈ spans, cut ≤ span.1) :
    releaseLoop held cut out pos stop spans = (out ++ (held.take stop).drop pos, held.drop stop) := by
  cases spans with
  | nil => rfl
  | cons span spans => exact if_pos (h span List.mem_cons_self)

/-- The matches before the cut are replaced, and the text stays from there or
from the end of the last of them. -/
theorem releaseLoop_eq {p : Pattern Char} {held : Text} {cut : Nat} (hcut : cut ≤ held.length) {q pos : Nat} (out : Text)
    (hpos : pos ≤ q) (hq : cut ≤ q → q = max cut pos) :
    releaseLoop held cut out pos (max cut pos) (p.finditer q (held.drop q)) =
      (out ++ (held.take q).drop pos ++ (p.replaceUpTo secretHidden (cut - q) (held.drop q)).1,
        (p.replaceUpTo secretHidden (cut - q) (held.drop q)).2) := by
  induction hn : (held.drop q).length using Nat.strong_induction_on generalizing q pos out with
  | _ n ih =>
    rcases Nat.lt_or_ge q cut with hlt | hge
    · obtain ⟨m, hm⟩ : ∃ m, cut - q = m + 1 := ⟨cut - q - 1, by omega⟩
      have hqlen : q < held.length := by omega
      have hdrop := List.drop_eq_getElem_cons hqlen
      rw [hm]
      cases hmatch : p.matchAt (held.drop q) with
      | some v =>
        have hvpos := Pattern.length_pos_of_matchAt hmatch
        have hmax : max (max cut pos) (q + v.length) = max cut (q + v.length) := by omega
        have hsub : cut - (q + v.length) = m + 1 - v.length := by omega
        have hshort : (held.drop (q + v.length)).length < n := by
          rw [← hn, List.length_drop, List.length_drop]
          omega
        rw [Pattern.finditer_hit hmatch, Pattern.replaceUpTo_hit hmatch, releaseLoop, if_neg (by omega), List.drop_drop,
          hmax, ih _ hshort _ (Nat.le_refl _) (by omega) rfl, hsub, List.drop_eq_nil_of_le (List.length_take_le _ _)]
        simp
      | none =>
        have hshort : (held.drop (q + 1)).length < n := by
          rw [← hn, List.length_drop, List.length_drop]
          omega
        have hone : (held.take (q + 1)).drop pos = (held.take q).drop pos ++ [held[q]] := by
          rw [List.take_succ_eq_append_getElem hqlen, List.drop_append_of_le_length]
          rw [List.length_take]
          omega
        rw [hdrop] at hmatch ⊢
        rw [Pattern.finditer_lit hmatch, Pattern.replaceUpTo_lit hmatch,
          ih _ hshort _ (by omega) (by omega) rfl, hone, show cut - (q + 1) = m by omega]
        simp
    · have hstop := hq hge
      rw [releaseLoop_done fun span hs => Nat.le_trans hge (Pattern.le_of_mem_finditer hs), ← hstop,
        Nat.sub_eq_zero_of_le hge, Pattern.replaceUpTo_zero, List.append_nil]

theorem release_eq (m : StreamOutputMask) {p : Pattern Char} {cut : Nat} (hcut : cut ≤ m.held.length) :
    m.release p cut = ((p.replaceUpTo secretHidden cut m.held).1,
      { m with held := (p.replaceUpTo secretHidden cut m.held).2 }) := by
  have h : releaseLoop m.held cut [] 0 (max cut 0) (p.finditer 0 (m.held.drop 0)) = _ :=
    releaseLoop_eq hcut [] (Nat.le_refl 0) (by omega)
  rw [List.drop_zero, Nat.max_zero] at h
  unfold release
  rw [h]
  simp

/-- A pattern with its longest alternative's length. -/
structure Compiled (m : StreamOutputMask) (p : Pattern Char) : Prop where
  pattern : m.pattern = some p
  maxLen_pos : 0 < m.maxLen
  le_maxLen : ∀ v ∈ p.alternatives, v.length ≤ m.maxLen

section Streaming
variable {m : StreamOutputMask} {p : Pattern Char}

/-- What `feed` releases is final, and the rest is held. -/
theorem feed_spec (hm : m.Compiled p) (text rest : Text) :
    p.replaceAll secretHidden (m.held ++ text ++ rest) =
        (m.feed text).1 ++ p.replaceAll secretHidden ((m.feed text).2.held ++ rest) ∧ (m.feed text).2.Compiled p := by
  have hlen := hm.maxLen_pos
  unfold feed
  rw [hm.pattern]
  dsimp only
  rw [release_eq _ (by dsimp only; omega)]
  refine ⟨Pattern.replaceAll_append (fun hpos v hv => ?_) rest, ⟨rfl, hlen, hm.le_maxLen⟩⟩
  have hle := hm.le_maxLen v hv
  omega

theorem flush_spec (hm : m.Compiled p) : m.flush.1 = p.replaceAll secretHidden m.held := by
  unfold flush
  rw [hm.pattern]
  dsimp only
  rw [release_eq m (Nat.le_refl _), Pattern.replaceUpTo_all (Nat.le_refl _)]

theorem feedAll_spec (hm : m.Compiled p) (chunks : List Text) (rest : Text) :
    p.replaceAll secretHidden (m.held ++ chunks.flatten ++ rest) =
        (m.feedAll chunks).1 ++ p.replaceAll secretHidden ((m.feedAll chunks).2.held ++ rest) ∧
      (m.feedAll chunks).2.Compiled p := by
  induction chunks generalizing m with
  | nil => exact ⟨by simp [feedAll], hm⟩
  | cons text chunks ih =>
    obtain ⟨hfirst, hm'⟩ := feed_spec hm text (chunks.flatten ++ rest)
    obtain ⟨hrest, hm''⟩ := ih hm'
    refine ⟨?_, hm''⟩
    rw [List.append_assoc] at hrest
    rw [List.flatten_cons, ← List.append_assoc, List.append_assoc, hfirst, hrest, feedAll, List.append_assoc]

theorem feedAll_concat (m : StreamOutputMask) (chunks : List Text) (text : Text) :
    m.feedAll (chunks ++ [text]) =
      ((m.feedAll chunks).1 ++ ((m.feedAll chunks).2.feed text).1, ((m.feedAll chunks).2.feed text).2) := by
  induction chunks generalizing m with
  | nil => simp [feedAll]
  | cons first chunks ih => simp [feedAll, ih]

theorem feedAll_none (h : m.pattern = none) (chunks : List Text) : m.feedAll chunks = (chunks.flatten, m) := by
  induction chunks with
  | nil => rfl
  | cons text chunks ih =>
    have hfeed : m.feed text = (text, m) := by rw [feed, h]
    rw [feedAll, hfeed, ih]
    rfl

end Streaming

end StreamOutputMask

/-! ## The registry -/

/-- What `get_value()` of each source gives at the moment (`none` when it fails
or has no value), the last resolved values, and when a source failed last. -/
structure SecretRegistry where
  secretSources : List (String × Option Text) := []
  exportedValues : List (String × Text) := []
  failedLookups : List (String × Int) := []

/-- `d[key] = value`: a key that is there keeps its place. -/
def assign {β : Type} (d : List (String × β)) (key : String) (value : β) : List (String × β) :=
  if key ∈ d.map Prod.fst then d.map fun kv => if kv.1 = key then (key, value) else kv else d ++ [(key, value)]

def failedLookupRetrySeconds : Int := 60

namespace SecretRegistry

def trackExportedValues (r : SecretRegistry) (values : List (String × Text)) : SecretRegistry :=
  { r with exportedValues := (values.filter (·.2 ≠ [])).foldl (fun d kv => assign d kv.1 kv.2) r.exportedValues }

def getSecretValue (r : SecretRegistry) (name : String) : Option Text × SecretRegistry :=
  match r.secretSources.lookup name with
  | some (some value) => (some value, if value ≠ [] then r.trackExportedValues [(name, value)] else r)
  | _ => (none, r)

/-- One key of the loop that resolves uncached sources. -/
def resolveKey (now : Int) (r : SecretRegistry) (key : String) : SecretRegistry :=
  if key ∈ r.exportedValues.map Prod.fst then r
  else if (r.failedLookups.lookup key).any fun failedAt => now - failedAt < failedLookupRetrySeconds then r
  else
    let (value, r) := r.getSecretValue key
    if value.getD [] = [] then { r with failedLookups := assign r.failedLookups key now } else r

/-- `masked_text.replace(value, "<secret-hidden>")`, for a value that is not empty. -/
def replaceValue (text value : Text) : Text :=
  if h : value ≠ [] then (Pattern.word value h).replaceAll secretHidden text else text

def maskSecretsInOutput (now : Int) (r : SecretRegistry) (text : Text) : Text × SecretRegistry :=
  if text = [] then (text, r)
  else
    let r := (r.secretSources.map Prod.fst).foldl (resolveKey now) r
    ((r.exportedValues.map Prod.snd).foldl replaceValue text, r)

/-- The exported values that are not empty, in the order of the dict. -/
def values (r : SecretRegistry) : List Text := (r.exportedValues.map Prod.snd).filter (· ≠ [])

/-- The set of them, in some order. -/
def secrets (r : SecretRegistry) : List Text := r.values.dedup

/-- `sorted(values, key=len, reverse=True)`. -/
def longestFirst (values : List Text) : List Text := values.insertionSort fun v w => w.length ≤ v.length

theorem ne_nil_of_mem_values {r : SecretRegistry} {v : Text} (h : v ∈ r.values) : v ≠ [] := by
  simpa using (List.mem_filter.1 h).2

theorem mem_secrets {r : SecretRegistry} {v : Text} : v ∈ r.secrets ↔ v ∈ r.values := List.mem_dedup

theorem ne_nil_of_mem_secrets {r : SecretRegistry} {v : Text} (h : v ∈ r.secrets) : v ≠ [] :=
  ne_nil_of_mem_values (mem_secrets.1 h)

theorem mem_longestFirst {values : List Text} {v : Text} : v ∈ longestFirst values ↔ v ∈ values :=
  List.mem_insertionSort _

def pattern (r : SecretRegistry) : Pattern Char where
  alternatives := longestFirst r.secrets
  nonempty := fun _ hv => ne_nil_of_mem_secrets (mem_longestFirst.1 hv)

def compileStreamMask (r : SecretRegistry) : StreamOutputMask :=
  if r.secrets = [] then { pattern := none, maxLen := 0 }
  else { pattern := some r.pattern, maxLen := (r.secrets.map List.length).max?.getD 0 }

section
variable {r : SecretRegistry}

theorem pattern_sorted : r.pattern.alternatives.Pairwise fun v w => w.length ≤ v.length := by
  have : Std.Total fun v w : Text => w.length ≤ v.length := ⟨fun v w => Nat.le_total _ _⟩
  have : IsTrans Text fun v w => w.length ≤ v.length := ⟨fun u v w huv hvw => Nat.le_trans hvw huv⟩
  exact List.pairwise_insertionSort _ _

theorem compiled (h : r.secrets ≠ []) : r.compileStreamMask.Compiled r.pattern := by
  unfold compileStreamMask
  rw [if_neg h]
  have hle : ∀ v ∈ r.secrets, v.length ≤ (r.secrets.map List.length).max?.getD 0 := fun v hv =>
    List.le_max?_getD_of_mem (List.mem_map_of_mem hv)
  obtain ⟨v, hv⟩ := List.exists_mem_of_ne_nil _ h
  refine ⟨rfl, ?_, fun w hw => hle w (mem_longestFirst.1 hw)⟩
  have hpos := List.length_pos_iff.2 (ne_nil_of_mem_secrets hv)
  exact Nat.lt_of_lt_of_le hpos (hle v hv)

theorem replaced_pattern (text : Text) :
    Replaced r.secrets secretHidden text (r.pattern.replaceAll secretHidden text) :=
  (Pattern.replaced_replaceAll pattern_sorted text).of_mem_iff fun _ => mem_longestFirst

theorem replaceAll_of_no_secrets (h : r.secrets = []) (text : Text) : r.pattern.replaceAll secretHidden text = text := by
  have hrep := replaced_pattern (r := r) text
  rw [h] at hrep
  exact hrep.unique (by simp) (replaced_no_words _ _)

/-- What was released so far is final, and flushing masks what is held. -/
theorem streamMask_spec (r : SecretRegistry) (chunks : List Text) (rest : Text) :
    ∃ held, r.pattern.replaceAll secretHidden (chunks.flatten ++ rest) =
        (r.compileStreamMask.feedAll chunks).1 ++ r.pattern.replaceAll secretHidden (held ++ rest) ∧
      (r.compileStreamMask.feedAll chunks).2.flush.1 = r.pattern.replaceAll secretHidden held := by
  by_cases h : r.secrets = []
  · have hnone : r.compileStreamMask.pattern = none := by rw [compileStreamMask, if_pos h]
    rw [StreamOutputMask.feedAll_none hnone]
    refine ⟨[], ?_, ?_⟩
    · rw [replaceAll_of_no_secrets h, replaceAll_of_no_secrets h, List.nil_append]
    · rw [StreamOutputMask.flush, hnone, Pattern.replaceAll_nil]
  · have hheld : r.compileStreamMask.held = [] := by rw [compileStreamMask, if_neg h]
    obtain ⟨heq, hm⟩ := StreamOutputMask.feedAll_spec (compiled h) chunks rest
    rw [hheld, List.nil_append] at heq
    exact ⟨_, heq, StreamOutputMask.flush_spec hm⟩

/-- However the text is cut into chunks, feeding and flushing replaces the
longest secrets from left to right, and what is released before the end begins
the masked text of every continuation. -/
theorem streamMask_replaced (r : SecretRegistry) (chunks : List Text) :
    Replaced r.secrets secretHidden chunks.flatten
        ((r.compileStreamMask.feedAll chunks).1 ++ (r.compileStreamMask.feedAll chunks).2.flush.1) ∧
      ∀ rest out, Replaced r.secrets secretHidden (chunks.flatten ++ rest) out →
        (r.compileStreamMask.feedAll chunks).1 <+: out := by
  constructor
  · obtain ⟨held, heq, hflush⟩ := streamMask_spec r chunks []
    rw [List.append_nil, List.append_nil, ← hflush] at heq
    rw [← heq]
    exact replaced_pattern _
  · intro rest out hout
    obtain ⟨held, heq, -⟩ := streamMask_spec r chunks rest
    rw [hout.unique (fun v hv => ne_nil_of_mem_secrets hv) (replaced_pattern _), heq]
    exact List.prefix_append _ _

/-! ## The two masks -/

/-- Every source is resolved, or waits to be tried again. -/
def Resolved (now : Int) (r : SecretRegistry) : Prop :=
  ∀ key ∈ r.secretSources.map Prod.fst, key ∈ r.exportedValues.map Prod.fst ∨
    (r.failedLookups.lookup key).any (fun failedAt => now - failedAt < failedLookupRetrySeconds) = true

/-- `feed(text)` followed by `flush`. -/
def streamed (r : SecretRegistry) (text : Text) : Text :=
  let (out, m) := r.compileStreamMask.feed text
  out ++ m.flush.1

/-- In the order of export: with the places of the values before it masked, a
value begins only in its own places among the leftmost-longest occurrences. -/
def ValuesApart (segments : List (Segment Char)) (done : List Text) : List Text → Prop
  | [] => True
  | v :: values =>
    (v = secretHidden ∨ BeginsApart v done secretHidden segments) ∧ ValuesApart segments (v :: done) values

theorem resolve_eq {now : Int} (h : r.Resolved now) :
    (r.secretSources.map Prod.fst).foldl (resolveKey now) r = r := by
  have hkeep : ∀ keys : List String, keys ⊆ r.secretSources.map Prod.fst → keys.foldl (resolveKey now) r = r := by
    intro keys
    induction keys with
    | nil => exact fun _ => rfl
    | cons key keys ih =>
      intro hsub
      have hkey : resolveKey now r key = r := by
        unfold resolveKey
        rcases h key (hsub List.mem_cons_self) with hmem | hback
        · rw [if_pos hmem]
        · by_cases hmem : key ∈ r.exportedValues.map Prod.fst
          · rw [if_pos hmem]
          · rw [if_neg hmem, if_pos hback]
      rw [List.foldl_cons, hkey]
      exact ih fun k hk => hsub (List.mem_cons_of_mem _ hk)
  exact hkeep _ fun _ hk => hk

theorem foldl_replaceValue_values (text : Text) :
    (r.exportedValues.map Prod.snd).foldl replaceValue text = r.values.foldl replaceValue text := by
  unfold values
  generalize r.exportedValues.map Prod.snd = vs
  induction vs generalizing text with
  | nil => rfl
  | cons v vs ih =>
    by_cases hv : v ≠ []
    · rw [List.filter_cons_of_pos (by simpa using hv), List.foldl_cons, List.foldl_cons]
      exact ih _
    · have hskip : replaceValue text v = text := dif_neg hv
      rw [List.filter_cons_of_neg (by simpa using hv), List.foldl_cons, hskip]
      exact ih _

/-- One value after the other comes to masking the places of all of them. -/
theorem foldl_replaceValue {segments : List (Segment Char)} {done values : List Text} (hne : ∀ v ∈ values, v ≠ [])
    (h : ValuesApart segments done values) :
    values.foldl replaceValue (segments.flatMap (Segment.partly done secretHidden)) =
      segments.flatMap (Segment.partly (values.reverse ++ done) secretHidden) := by
  induction values generalizing done with
  | nil => rfl
  | cons v values ih =>
    have hv := hne v List.mem_cons_self
    have hstep : replaceValue (segments.flatMap (Segment.partly done secretHidden)) v =
        segments.flatMap (Segment.partly (v :: done) secretHidden) := by
      rw [replaceValue, dif_pos hv]
      rcases h.1 with rfl | hb
      · rw [Pattern.replaceAll_word_self hv, flatMap_partly_self]
      · exact replaceAll_partly hv hb
    rw [List.foldl_cons, hstep, ih (fun w hw => hne w (List.mem_cons_of_mem _ hw)) h.2, List.reverse_cons,
      List.append_assoc]
    rfl

theorem streamed_eq (r : SecretRegistry) (text : Text) : r.streamed text = r.pattern.replaceAll secretHidden text := by
  obtain ⟨held, heq, hflush⟩ := streamMask_spec r [text] []
  rw [List.append_nil, List.append_nil, ← hflush] at heq
  simp only [List.flatten_cons, List.flatten_nil, List.append_nil, StreamOutputMask.feedAll] at heq
  exact heq.symm

/-- The durable mask agrees with the streaming one. -/
theorem maskSecretsInOutput_eq_streamed (now : Int) (r : SecretRegistry) (text : Text) (hr : r.Resolved now)
    (h : ValuesApart (r.pattern.segments text) [] r.values) :
    (r.maskSecretsInOutput now text).1 = r.streamed text ∧
      Replaced r.secrets secretHidden text (r.maskSecretsInOutput now text).1 := by
  have heq : (r.maskSecretsInOutput now text).1 = r.pattern.replaceAll secretHidden text := by
    unfold maskSecretsInOutput
    by_cases ht : text = []
    · rw [if_pos ht, ht, Pattern.replaceAll_nil]
    · rw [if_neg ht]
      dsimp only
      have hall : ∀ u ∈ r.pattern.alternatives, u ∈ r.values.reverse ++ [] := by
        intro u hu
        rw [List.append_nil, List.mem_reverse]
        exact mem_secrets.1 (mem_longestFirst.1 hu)
      have hfold := foldl_replaceValue (fun v hv => ne_nil_of_mem_values hv) h
      rw [Pattern.flatMap_partly_nil, Pattern.flatMap_partly_all hall] at hfold
      rw [resolve_eq hr, foldl_replaceValue_values, hfold]
  rw [streamed_eq, heq]
  exact ⟨rfl, replaced_pattern text⟩

end

/-! ## Two registries -/

private def token : SecretRegistry := { exportedValues := [("TOKEN", "hunter2".toList), ("KEY", "sesame".toList)] }

/-- A value cut in two by the chunks. -/
theorem streamMask_replaced_cut :
    (token.compileStreamMask.feedAll ["leak: hunt".toList]).1 = "leak".toList ∧
      (token.compileStreamMask.feedAll ["leak: hunt".toList]).1 <+:
        token.pattern.replaceAll secretHidden "leak: hunter2 done".toList :=
  ⟨by decide +kernel,
    (streamMask_replaced token ["leak: hunt".toList]).2 "er2 done".toList _ (replaced_pattern _)⟩

/-- Two values that have nothing in common. -/
theorem maskSecretsInOutput_eq_streamed_token :
    (token.maskSecretsInOutput 0 "hunter2 sesame".toList).1 = token.streamed "hunter2 sesame".toList ∧
      Replaced token.secrets secretHidden "hunter2 sesame".toList
        (token.maskSecretsInOutput 0 "hunter2 sesame".toList).1 :=
  maskSecretsInOutput_eq_streamed 0 token _ (by simp [Resolved, token]) (by
    refine ⟨.inr ?_, .inr ?_, trivial⟩ <;> decide +kernel)

private def shortFirst : SecretRegistry := { exportedValues := [("SHORT", "abc".toList), ("LONG", "abc123".toList)] }

private def longFirst : SecretRegistry := { exportedValues := [("LONG", "abc123".toList), ("SHORT", "abc".toList)] }

/-- The shorter value was exported first: half of the longer one is left in
the durable text, but not in the streamed one, and the other order masks it. -/
theorem maskSecretsInOutput_fragment : shortFirst.Resolved 0 ∧
    (shortFirst.maskSecretsInOutput 0 "abc123".toList).1 = "<secret-hidden>123".toList ∧
    shortFirst.streamed "abc123".toList = secretHidden ∧
    (longFirst.maskSecretsInOutput 0 "abc123".toList).1 = secretHidden :=
  ⟨by simp [Resolved, shortFirst], by decide +kernel, by decide +kernel, by decide +kernel⟩

end SecretRegistry

end AgentSdk
