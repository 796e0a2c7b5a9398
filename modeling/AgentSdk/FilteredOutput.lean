import AgentSdk.EscapeFilter
/-!
# Output filtered in chunks

Where taking all queries out of the output at once brings no query together, the
filter takes out exactly these, however the output is cut into chunks.
-/

namespace AgentSdk.EscapeFilter
open Lib (Regex)
open Lib.Regex Lib.Words Lib.SurrogateEscape

/-- What the calls give out, and what is held back after them. -/
def given : Bytes → List Bytes → List Bytes × Bytes
  | pending, [] => ([], pending)
  | pending, chunk :: chunks =>
    let (ready, pending) := cut incompleteEscPattern (pending ++ chunk)
    (ready :: (given pending chunks).1, (given pending chunks).2)

/-- The filtered text has no query, and only bytes of queries were deleted. -/
def Filtered (input out : Text) : Prop :=
  ∃ bytes outBytes, encode input = some bytes ∧ encode out = some outBytes ∧ Free Query outBytes ∧
    Trimmed Query bytes outBytes

/-- Surrogates of two calls spell one character. -/
def Torn (chunks : List Bytes) : Prop :=
  ∃ l r, (given [] chunks).1.map withoutQueries = l ++ r ∧ Straddles l.flatten r.flatten

/-! ## Queries taken out -/

theorem apart_query : Apart Query := apart_framed.mono fun _ h => h.framed

theorem removed_withoutQueries (s : Bytes) : Removed Query s (withoutQueries s) :=
  removed_remove (fun _ => apart_query.ne_nil)
    (fun _ _ _ => ⟨fun h => query_iff.2 (h.of_plain plain_anyQuery), fun h => (query_iff.1 h).of_plain plain_anyQuery⟩) s

theorem removed_pattern {r : Regex UInt8} (hr : r ∈ queryPatterns) (s : Bytes) :
    Removed (fun w => r.Matches w []) s (remove r s) :=
  removed_remove (fun _ h => apart_query.ne_nil ⟨r, hr, h⟩)
    (fun _ _ _ => ⟨fun h => h.of_plain (plain_of_mem hr), fun h => h.of_plain (plain_of_mem hr)⟩) s

theorem removedEach_filter (s : Bytes) :
    RemovedEach (queryPatterns.map fun r w => r.Matches w []) s (filterCompleteQueries s) :=
  .cons (removed_pattern (by simp [queryPatterns]) _) <| .cons (removed_pattern (by simp [queryPatterns]) _) <|
    .cons (removed_pattern (by simp [queryPatterns]) _) <| .cons (removed_pattern (by simp [queryPatterns]) _) <|
      .cons (removed_pattern (by simp [queryPatterns]) _) .nil

theorem filterCompleteQueries_spec (s : Bytes) : (filterCompleteQueries s).Sublist (withoutQueries s) ∧
    (Free Query (withoutQueries s) → filterCompleteQueries s = withoutQueries s) := by
  refine (removedEach_filter s).spec apart_query (fun w => ?_) (removed_withoutQueries s)
  simp [Query]

/-! ## Cuts go through no query -/

theorem not_query_across {s x u v y t : Bytes} (hs : (cut incompleteEscPattern s).1 = x ++ u)
    (ht : (cut incompleteEscPattern s).2 ++ t = v ++ y) (hu : u ≠ []) (hv : v ≠ []) : ¬ Query (u ++ v) := by
  intro hq
  have hno := not_starts_cut hs hu
  generalize hpending : (cut incompleteEscPattern s).2 = pending at ht hno
  have hwithin : ∀ a, pending ≠ v ++ a := by
    rintro a rfl
    have hheld : Held (v ++ a) := by
      have hstarts := starts_cut incompleteEscPattern s
      rw [hpending] at hstarts
      refine starts_incomplete_iff.1 (hstarts.resolve_left fun h => ?_)
      exact hv (List.append_eq_nil_iff.1 h).1
    obtain ⟨tail, htail, hne⟩ := hheld.head
    obtain ⟨c, v, rfl⟩ := List.exists_cons_of_ne_nil hv
    obtain ⟨rfl, rfl⟩ := List.cons.inj htail
    obtain rfl := hq.framed.esc_inside hu
    exact hne rfl
  rcases List.append_eq_append_iff.1 ht with ⟨a, rfl, -⟩ | ⟨a, ha, -⟩
  · by_cases ha : a = []
    · exact hwithin [] (by simp [ha])
    · rw [← List.append_assoc] at hq
      have hheld := hq.framed.held (by simp [hu]) ha
      rw [starts_incomplete_iff.2 hheld] at hno
      cases hno
  · exact hwithin a ha

theorem withoutQueries_cut (s t : Bytes) : withoutQueries (s ++ t) =
    withoutQueries (cut incompleteEscPattern s).1 ++ withoutQueries ((cut incompleteEscPattern s).2 ++ t) := by
  have h := removed_withoutQueries (s ++ t)
  generalize withoutQueries (s ++ t) = out at h
  rw [← cut_append incompleteEscPattern s, List.append_assoc] at h
  obtain ⟨out₁, out₂, rfl, h₁, h₂⟩ := h.append_inv fun _ _ _ _ hs ht hu hv => not_query_across hs ht hu hv
  rw [apart_query.removed_unique h₁ (removed_withoutQueries _), apart_query.removed_unique h₂ (removed_withoutQueries _)]

theorem withoutQueries_given (pending : Bytes) (chunks : List Bytes) : withoutQueries (pending ++ chunks.flatten) =
    ((given pending chunks).1.map withoutQueries).flatten ++ withoutQueries (given pending chunks).2 := by
  induction chunks generalizing pending with
  | nil => simp [given]
  | cons chunk chunks ih =>
    rw [List.flatten_cons, ← List.append_assoc, withoutQueries_cut, ih]
    simp [given]

/-! ## What is given out -/

theorem cut_pending (s : Bytes) : cut incompleteEscPattern (cut incompleteEscPattern s).2 =
    ([], (cut incompleteEscPattern s).2) := by
  generalize hp : (cut incompleteEscPattern s).2 = pending
  cases pending with
  | nil => rfl
  | cons b pending =>
    have hstarts := starts_cut incompleteEscPattern s
    rw [hp] at hstarts
    exact if_pos (hstarts.resolve_left (List.cons_ne_nil b pending))

/-- Together the calls cut the text where one call for all of it does. -/
theorem cut_given {pending : Bytes} (hpending : cut incompleteEscPattern pending = ([], pending)) (chunks : List Bytes) :
    cut incompleteEscPattern (pending ++ chunks.flatten) = ((given pending chunks).1.flatten, (given pending chunks).2) := by
  induction chunks generalizing pending with
  | nil => simp [given, hpending]
  | cons chunk chunks ih =>
    have hbegin : ∀ {u v : Bytes}, u ≠ [] → starts incompleteEscPattern (u ++ v) = true →
        starts incompleteEscPattern u = true :=
      fun hu h => starts_incomplete_iff.2 ((starts_incomplete_iff.1 h).of_append hu)
    rw [List.flatten_cons, ← List.append_assoc, cut_of_append hbegin, ih (cut_pending _)]
    simp [given]

theorem flush_eq (pending : Bytes) :
    (TerminalQueryFilter.flush ⟨pending⟩).1 = decode (filterCompleteQueries pending) := by
  unfold TerminalQueryFilter.flush
  split
  · rename_i h
    obtain rfl : pending = [] := h
    rfl
  · rfl

theorem filterChunks_eq (pending : Bytes) (chunks : List Text) : TerminalQueryFilter.filterChunks ⟨pending⟩ chunks =
    (chunks.mapM encode).map fun es => ((given pending es).1.map fun s => decode (filterCompleteQueries s)).flatten ++
      decode (filterCompleteQueries (given pending es).2) := by
  induction chunks generalizing pending with
  | nil => simp [TerminalQueryFilter.filterChunks, given, flush_eq]
  | cons chunk chunks ih =>
    rw [TerminalQueryFilter.filterChunks, TerminalQueryFilter.filter, List.mapM_cons]
    cases hbytes : encode chunk with
    | none => rfl
    | some bytes =>
      simp only [Option.bind_eq_bind, Option.bind_some, ih, Option.pure_def]
      cases hes : chunks.mapM encode with
      | none => rfl
      | some es => simp [given]

theorem encode_append_eq (x y : Text) : encode (x ++ y) = (encode x).bind fun s => (encode y).map (s ++ ·) := by
  induction x with
  | nil => simp [encode]
  | cons p x ih =>
    simp only [List.cons_append, encode, ih]
    cases encodePoint p with
    | none => rfl
    | some b => cases encode x <;> cases encode y <;> simp

theorem encode_flatten (chunks : List Text) : encode chunks.flatten = (chunks.mapM encode).map List.flatten := by
  induction chunks with
  | nil => rfl
  | cons chunk chunks ih =>
    rw [List.flatten_cons, encode_append_eq, ih, List.mapM_cons]
    cases encode chunk with
    | none => rfl
    | some bytes => cases chunks.mapM encode <;> simp

theorem encode_decode_flatten (parts : List Bytes) : encode (parts.map decode).flatten = some parts.flatten := by
  induction parts with
  | nil => rfl
  | cons part parts ih => exact encode_append (encode_decode part) ih

theorem filterTerminalQueries_eq (output : Text) : filterTerminalQueries output = (encode output).map fun bytes =>
    decode (filterCompleteQueries (cut incompleteEscPattern bytes).1) ++
      decode (filterCompleteQueries (cut incompleteEscPattern bytes).2) := by
  unfold filterTerminalQueries TerminalQueryFilter.filter
  cases encode output with
  | none => rfl
  | some bytes => simp [flush_eq]

/-! ## All of the output -/

/-- Part by part the filter leaves at most what is left when all queries are taken out,
and exactly that where the text is filtered. -/
theorem filtered_iff (parts : List Bytes) {bytes : Bytes}
    (hparts : withoutQueries bytes = (parts.map withoutQueries).flatten) :
    Free Query (parts.map filterCompleteQueries).flatten ∧ Trimmed Query bytes (parts.map filterCompleteQueries).flatten ↔
      Free Query (withoutQueries bytes) := by
  have hsub : (parts.map filterCompleteQueries).flatten.Sublist (withoutQueries bytes) := by
    rw [hparts]
    clear hparts
    induction parts with
    | nil => exact .slnil
    | cons part parts ih => exact (filterCompleteQueries_spec part).1.append ih
  constructor
  · rintro ⟨hfree, htrimmed⟩
    have hle := htrimmed.length_le apart_query (removed_withoutQueries bytes)
    rwa [← hsub.eq_of_length_le hle]
  · intro hfree
    have heach : parts.map filterCompleteQueries = parts.map withoutQueries := by
      refine List.map_congr_left fun part hpart => (filterCompleteQueries_spec part).2 (hfree.of_infix ?_)
      rw [hparts]
      exact List.infix_of_mem_flatten (List.mem_map_of_mem hpart)
    rw [heach, ← hparts]
    exact ⟨hfree, (removed_withoutQueries bytes).trimmed⟩

section
variable (es : List Bytes)

theorem cut_chunks : cut incompleteEscPattern es.flatten = ((given [] es).1.flatten, (given [] es).2) := by
  have h := @cut_given [] rfl es
  rwa [List.nil_append] at h

theorem withoutQueries_chunks : withoutQueries es.flatten =
    ((given [] es).1.map withoutQueries).flatten ++ withoutQueries (given [] es).2 := by
  have h := withoutQueries_given [] es
  rwa [List.nil_append] at h

theorem withoutQueries_flatten :
    withoutQueries (given [] es).1.flatten = ((given [] es).1.map withoutQueries).flatten := by
  have h := withoutQueries_cut es.flatten []
  rw [List.append_nil, cut_chunks, withoutQueries_chunks, List.append_nil] at h
  exact (List.append_cancel_right h).symm

/-- Where no query is brought together the calls together and one call differ in torn
characters only. -/
theorem decode_given_iff (hfree : Free Query (withoutQueries es.flatten)) :
    ((given [] es).1.map fun s => decode (filterCompleteQueries s)).flatten =
      decode (filterCompleteQueries (given [] es).1.flatten) ↔ ¬ Torn es := by
  have hready : Free Query (withoutQueries (given [] es).1.flatten) := by
    refine hfree.of_infix ?_
    rw [withoutQueries_chunks es, withoutQueries_flatten]
    exact (List.prefix_append _ _).isInfix
  have heach : ((given [] es).1.map fun s => decode (filterCompleteQueries s)) =
      ((given [] es).1.map withoutQueries).map decode := by
    rw [List.map_map]
    refine List.map_congr_left fun part hpart => congrArg decode ((filterCompleteQueries_spec part).2 (hready.of_infix ?_))
    rw [withoutQueries_flatten]
    exact List.infix_of_mem_flatten (List.mem_map_of_mem hpart)
  rw [heach, (filterCompleteQueries_spec _).2 hready, withoutQueries_flatten, decode_flatten_iff]
  unfold Torn
  simp only [not_exists, not_and]

theorem parts_chunks : withoutQueries es.flatten = (((given [] es).1 ++ [(given [] es).2]).map withoutQueries).flatten := by
  rw [withoutQueries_chunks]
  simp

end

/-- The filter gives the same for all chunks and the whole output, without queries and
with all else, if and only if the output can be encoded, no query is brought together
where all are taken out at once, and no character is torn. -/
theorem filtered_alike_iff (chunks : List Text) :
    (∃ out, TerminalQueryFilter.filterChunks {} chunks = some out ∧ filterTerminalQueries chunks.flatten = some out ∧
        Filtered chunks.flatten out) ↔
      ∃ es, chunks.mapM encode = some es ∧ Free Query (withoutQueries es.flatten) ∧ ¬ Torn es := by
  rw [filterChunks_eq, filterTerminalQueries_eq]
  unfold Filtered
  rw [encode_flatten]
  cases hes : chunks.mapM encode with
  | none => simp
  | some es =>
    have hencode : encode (((given [] es).1.map fun s => decode (filterCompleteQueries s)).flatten ++
        decode (filterCompleteQueries (given [] es).2)) =
        some (((given [] es).1 ++ [(given [] es).2]).map filterCompleteQueries).flatten := by
      rw [← encode_decode_flatten]
      simp [List.map_map, Function.comp_def]
    have hfiltered := filtered_iff _ (parts_chunks es)
    simp only [Option.map_some, Option.some.injEq, cut_chunks]
    constructor
    · rintro ⟨out, rfl, hwhole, bytes, outBytes, rfl, hout, hfree, htrimmed⟩
      rw [hencode, Option.some.injEq] at hout
      subst hout
      have hnone := hfiltered.1 ⟨hfree, htrimmed⟩
      exact ⟨es, rfl, hnone, (decode_given_iff es hnone).1 (List.append_cancel_right hwhole.symm)⟩
    · rintro ⟨_, rfl, hfree, htorn⟩
      obtain ⟨hfree', htrimmed⟩ := hfiltered.2 hfree
      exact ⟨_, rfl, by rw [(decode_given_iff _ hfree).2 htorn], _, _, rfl, hencode, hfree', htrimmed⟩

/-- A query inside a query: the first chunk gives out what the second one continues. -/
theorem chunks_differ : ¬ ∀ chunks : List Text, ∃ out, TerminalQueryFilter.filterChunks {} chunks = some out ∧
    filterTerminalQueries chunks.flatten = some out ∧ Filtered chunks.flatten out := by
  intro h
  obtain ⟨out, hchunks, hwhole, -⟩ := h
    [[.char '\x1b', .char '[', .char '\x1b', .char '[', .char '6', .char 'n'], [.char '0', .char 'c']]
  have houtput : TerminalQueryFilter.filterChunks {} [[.char '\x1b', .char '[', .char '\x1b', .char '[', .char '6', .char 'n'],
      [.char '0', .char 'c']] = some [.char '\x1b', .char '[', .char '0', .char 'c'] := by decide +kernel
  have hempty : filterTerminalQueries [.char '\x1b', .char '[', .char '\x1b', .char '[', .char '6', .char 'n', .char '0',
      .char 'c'] = some [] := by decide +kernel
  rw [houtput] at hchunks
  cases hchunks
  cases hempty.symm.trans hwhole

end AgentSdk.EscapeFilter
