import AgentSdk.Lib.Dict
import AgentSdk.Lib.Result
import AgentSdk.SecretStores
/-!
# Versioned credentials

`FileSecretsStore`: secrets and the versions of some of them in one file, which
several processes read and write under a file lock, each with its own cipher. The
operations are atomic; a write that fails leaves the old file.
-/

namespace AgentSdk.FileSecretsStore
open Lib

structure CustomSecret where
  secret : Option Text
  description : Option Text := none
deriving DecidableEq, Repr

/-- A dict; the names are those that the name pattern accepts. -/
abbrev Secrets := List (String × CustomSecret)

/-- A version token: one of the first file, or made by an operation for a name. -/
inductive Version where
  | saved (token : String)
  | minted (operation : Nat) (name : String)
deriving DecidableEq, Repr

abbrev Versions := List (String × Version)

/-- A file; its secrets are as they stand there. -/
inductive SecretsFile where
  | missing
  /-- No JSON, or no secrets. -/
  | corrupt
  | data (customSecrets : Secrets) (credentialVersions : Versions)
deriving DecidableEq, Repr

inductive Failure where
  /-- The file cannot be loaded. -/
  | runtimeError
  | keyError
  | versionConflict
  /-- A write that fails. -/
  | osError
deriving DecidableEq, Repr

inductive Reply where
  | done
  | deleted (existed : Bool)
  | versioned (value : Text) (version : Version)
  | successor (version : Version)
  | reencrypted (rewritten : Bool)
deriving DecidableEq, Repr

inductive Op where
  | save (secrets : Secrets)
  | setSecret (name : String) (value : Text) (description : Option Text)
  | deleteSecret (name : String)
  | loadVersionedSecret (name : String)
  | replaceVersionedSecret (name : String) (expectedVersion : Version) (value : Text)
  | reencrypt
deriving DecidableEq, Repr

def Secrets.value (secrets : Secrets) (name : String) : Option Text := (secrets.lookup name).bind CustomSecret.secret

section Files
variable {κ ν : Type} (F : Fernet κ ν) (cipher : Option (Cipher κ))

/-- `load(strict=True)`, `none` for a file that is missing. -/
def loadStrict : SecretsFile → Except Failure (Option Secrets)
  | .missing => .ok none
  | .corrupt => .error .runtimeError
  | .data secrets _ =>
    match secrets.mapM fun p => (validateSecret F cipher true p.2.secret).map fun v => (p.1, { p.2 with secret := v }) with
    | none => .error .runtimeError
    | some secrets => .ok (some secrets)

def loadVersions : SecretsFile → Versions
  | .missing | .corrupt => []
  | .data _ versions => versions

/-- `_save_with_versions`. -/
def saveWithVersions (nonces : String → ν) (secrets : Secrets) (versions : Versions) : SecretsFile :=
  .data (secrets.map fun p => (p.1, { p.2 with secret := serializeSecret F cipher (nonces p.1) p.2.secret })) versions

/-- `_file_has_stale_token`. -/
def fileHasStaleToken : SecretsFile → Bool
  | .missing | .corrupt => false
  | .data secrets _ =>
    cipher.any fun c => decide (c.previousKeys ≠ []) && secrets.any fun p =>
      [p.2.secret, p.2.description].any fun v => v.any fun t => looksLikeToken t && !c.isCurrent F t

end Files

/-! ## The operations -/

/-- What is returned and what is saved. -/
abbrev Effect := Except Failure (Reply × Option (Secrets × Versions))

/-- The versions after a `save`; `operation` makes the tokens. -/
def savedVersions (operation : Nat) (current replacement : Secrets) (versions : Versions) : Versions :=
  versions.filterMap fun p =>
    match replacement.value p.1 with
    | none => none
    | some v => some (p.1, if current.value p.1 = some v then p.2 else .minted operation p.1)

def renewed (operation : Nat) (versions : Versions) (name : String) : Versions :=
  dictSet versions name (.minted operation name)

/-- The value as the validator of `CustomSecret` leaves it. -/
def customSecret (value : Text) (description : Option Text) : CustomSecret :=
  { secret := if blank value ∨ value = redactedSecretValue then none else some value, description }

/-- An operation on what it loads. -/
def effect (operation : Nat) (loaded : Option Secrets) (versions : Versions) (stale : Bool) : Op → Effect
  | .save secrets => .ok (.done, some (secrets, savedVersions operation (loaded.getD []) secrets versions))
  | .setSecret name value description =>
    .ok (.done, some (dictSet (loaded.getD []) name (customSecret value description),
      if name ∈ versions.map Prod.fst then renewed operation versions name else versions))
  | .deleteSecret name =>
    match loaded with
    | none => .ok (.deleted false, none)
    | some secrets =>
      if name ∈ secrets.map Prod.fst then
        .ok (.deleted true, some (secrets.filter fun p => p.1 ≠ name, versions.filter fun p => p.1 ≠ name))
      else .ok (.deleted false, none)
  | .loadVersionedSecret name =>
    match loaded with
    | none => .error .keyError
    | some secrets =>
      match secrets.value name, versions.lookup name with
      | none, _ => .error .keyError
      | some value, some version => .ok (.versioned value version, none)
      | some value, none =>
        .ok (.versioned value (.minted operation name), some (secrets, renewed operation versions name))
  | .replaceVersionedSecret name expectedVersion value =>
    match loaded with
    | none => .error .keyError
    | some secrets =>
      match secrets.lookup name with
      | none | some ⟨none, _⟩ => .error .keyError
      | some ⟨some _, description⟩ =>
        if versions.lookup name = some expectedVersion then
          .ok (.successor (.minted operation name),
            some (dictSet secrets name ⟨some value, description⟩, renewed operation versions name))
        else .error .versionConflict
  | .reencrypt =>
    match stale, loaded with
    | true, some secrets => .ok (.reencrypted true, some (secrets, versions))
    | _, _ => .ok (.reencrypted false, none)

/-- One process calls one operation. -/
structure Action (κ ν : Type) where
  op : Op
  cipher : Option (Cipher κ)
  nonces : String → ν
  writeFails : Bool := false

section Calls
variable {κ ν : Type} (F : Fernet κ ν)

def call (a : Action κ ν) (operation : Nat) (file : SecretsFile) : Except Failure (Reply × SecretsFile) :=
  match loadStrict F a.cipher file with
  | .error e => if a.op = .reencrypt then .ok (.reencrypted false, file) else .error e
  | .ok loaded =>
    match effect operation loaded (loadVersions file) (fileHasStaleToken F a.cipher file) a.op with
    | .error e => .error e
    | .ok (reply, none) => .ok (reply, file)
    | .ok (reply, some (secrets, versions)) =>
      if a.writeFails then .error .osError else .ok (reply, saveWithVersions F a.cipher a.nonces secrets versions)

/-- The value that a process finds under a name, if there is such a secret. -/
def heldIn (cipher : Option (Cipher κ)) (file : SecretsFile) (name : String) : Option (Option Text) :=
  match loadStrict F cipher file with
  | .ok (some secrets) => (secrets.lookup name).map CustomSecret.secret
  | _ => none

end Calls

/-! ## Runs -/

/-- The file, how many operations were called, and for the statement which versions
were returned, and which of them since when the value of their name was changed,
deleted or written again. -/
structure World where
  file : SecretsFile := .missing
  operations : Nat := 0
  returned : List (String × Version) := []
  outdated : List (String × Version) := []

def Op.Writes : Op → String → Prop
  | .setSecret name _ _, n | .replaceVersionedSecret name _ _, n => n = name
  | _, _ => False

instance Op.Writes.decidable (op : Op) (n : String) : Decidable (op.Writes n) := by
  cases op <;> unfold Op.Writes <;> infer_instance

/-- An operation is about the name `n`, which has this value now; a `save` is about the
names that it changes and those that have no value in what it saves. -/
def Op.Concerns (value : Option Text) : Op → String → Prop
  | .save secrets, n => secrets.value n = none ∨ secrets.value n ≠ value
  | .setSecret name _ _, n | .deleteSecret name, n | .loadVersionedSecret name, n | .replaceVersionedSecret name _ _, n =>
    n = name
  | .reencrypt, _ => False

def returnedBy (op : Op) (reply : Reply) : List (String × Version) :=
  match op, reply with
  | .loadVersionedSecret name, .versioned _ version => [(name, version)]
  | .replaceVersionedSecret name _ _, .successor version => [(name, version)]
  | _, _ => []

section Runs
variable {κ ν : Type} (F : Fernet κ ν)

namespace World

/-- The operation writes the value of `n`, or the process finds another one after it. -/
def Touches (s : World) (a : Action κ ν) (file : SecretsFile) (n : String) : Prop :=
  a.op.Writes n ∨ heldIn F a.cipher file n ≠ heldIn F a.cipher s.file n

instance Touches.decidable (s : World) (a : Action κ ν) (file : SecretsFile) (n : String) :
    Decidable (s.Touches F a file n) := inferInstanceAs (Decidable (_ ∨ _))

def step (s : World) (a : Action κ ν) : Option World :=
  some <| match call F a s.operations s.file with
    | .error _ => { s with operations := s.operations + 1 }
    | .ok (reply, file) =>
      { file, operations := s.operations + 1, returned := s.returned ++ returnedBy a.op reply
        outdated := s.outdated ++ s.returned.filter fun p => s.Touches F a file p.1 }

/-! ## Only what is asked for changes -/

def Concerns (s : World) (a : Action κ ν) (n : String) : Prop := a.op.Concerns (heldIn F a.cipher s.file n).join n

/-- A token that the process can read, which it saves as it is. -/
def readable (cipher : Option (Cipher κ)) (v : Text) : Bool :=
  cipher.any fun c => looksLikeToken v && (c.decrypt F v).any (· ≠ [])

/-- No value that the process loads is itself a token that it can read. -/
def Allowed (s : World) (a : Action κ ν) : Prop :=
  match loadStrict F a.cipher s.file with
  | .ok (some secrets) => ∀ p ∈ secrets, ∀ v ∈ p.2.secret, readable F a.cipher v = false
  | _ => True

instance Allowed.decidable (s : World) (a : Action κ ν) : Decidable (s.Allowed F a) := by
  unfold Allowed
  split <;> infer_instance

/-- A call leaves the values and the versions of other names alone. -/
def Frame (s : World) (a : Action κ ν) : Prop := ∀ reply file, call F a s.operations s.file = .ok (reply, file) →
  ∀ n, ¬ s.Concerns F a n → heldIn F a.cipher file n = heldIn F a.cipher s.file n ∧
    (loadVersions file).lookup n = (loadVersions s.file).lookup n

structure Sound (s : World) : Prop where
  guarded : ∀ (a : Action κ ν) name version value r, a.op = .replaceVersionedSecret name version value →
    call F a s.operations s.file = .ok r → (name, version) ∉ s.outdated
  frame : ∀ a : Action κ ν, s.Allowed F a → s.Frame F a
  raises : ∀ (a : Action κ ν) e s', call F a s.operations s.file = .error e → s.step F a = some s' → s'.file = s.file

end World

end Runs

/-! ## What an operation saves -/

section Effects
variable {operation : Nat} {loaded : Option Secrets} {versions versions' : Versions} {stale : Bool} {op : Op} {reply : Reply}
  {secrets : Secrets}

def Secrets.held (secrets : Secrets) (n : String) : Option (Option Text) := (secrets.lookup n).map CustomSecret.secret

theorem Secrets.value_eq (secrets : Secrets) (n : String) : secrets.value n = (secrets.held n).join := by
  unfold Secrets.value Secrets.held
  cases secrets.lookup n <;> rfl

theorem Secrets.held_of_value {secrets : Secrets} {n : String} {v : Text} (h : secrets.value n = some v) :
    secrets.held n = some (some v) := by
  rw [Secrets.value_eq] at h
  exact Option.join_eq_some_iff.1 h

theorem lookup_savedVersions (current replacement : Secrets) (n : String) :
    (savedVersions operation current replacement versions).lookup n = (versions.lookup n).bind fun version =>
      (replacement.value n).map fun v => if current.value n = some v then version else .minted operation n := by
  unfold savedVersions
  induction versions with
  | nil => rfl
  | cons p versions ih =>
    rw [List.filterMap_cons, List.lookup_cons]
    by_cases hn : n = p.1
    · subst hn
      simp only [beq_self_eq_true]
      cases hv : replacement.value p.1 with
      | none =>
        dsimp only
        rw [ih, hv]
        cases versions.lookup p.1 <;> rfl
      | some v => simp
    · simp only [beq_false_of_ne hn]
      cases hv : replacement.value p.1 with
      | none => exact ih
      | some v =>
        dsimp only
        rw [List.lookup_cons]
        simp only [beq_false_of_ne hn]
        exact ih

theorem lookup_renewed (name n : String) :
    (renewed operation versions name).lookup n = if n = name then some (.minted operation name) else versions.lookup n :=
  lookup_dictSet _ _ _ _

theorem lookup_of_not_mem {name : String} (h : name ∉ versions.map Prod.fst) : versions.lookup name = none := by
  refine List.lookup_eq_none_iff.2 fun p hp => bne_iff_ne.2 fun heq => h ?_
  rw [heq]
  exact List.mem_map_of_mem hp

/-- What an operation saves under a name. -/
structure Saves (operation : Nat) (loaded : Secrets) (versions : Versions) (op : Op) (secrets : Secrets)
    (versions' : Versions) (n : String) : Prop where
  /-- Versions are kept or made. -/
  version : ∀ v, versions'.lookup n = some v → v = .minted operation n ∨ versions.lookup n = some v
  /-- Where the value is written or is another one, no old version is kept. -/
  renews : op.Writes n ∨ secrets.held n ≠ loaded.held n → ∀ v, versions'.lookup n = some v → v = .minted operation n
  keeps : ¬ op.Concerns (loaded.value n) n → secrets.held n = loaded.held n ∧ versions'.lookup n = versions.lookup n

/-- The secrets and the versions stay. -/
theorem saves_refl {loaded : Secrets} {n : String} (hwrites : ¬ op.Writes n) : Saves operation loaded versions op loaded versions n :=
  ⟨fun _ hv => .inr hv, fun h => absurd rfl (h.resolve_left hwrites), fun _ => ⟨rfl, rfl⟩⟩

theorem saves_save (current replacement : Secrets) (n : String) :
    Saves operation current versions (.save replacement) replacement
      (savedVersions operation current replacement versions) n := by
  refine ⟨fun v hv => ?_, fun htouch v hv => ?_, fun hother => ?_⟩
  · rw [lookup_savedVersions] at hv
    obtain ⟨w, hw, hv⟩ := Option.bind_eq_some_iff.1 hv
    obtain ⟨x, -, rfl⟩ := Option.map_eq_some_iff.1 hv
    split
    · exact .inr hw
    · exact .inl rfl
  · rw [lookup_savedVersions] at hv
    obtain ⟨w, -, hv⟩ := Option.bind_eq_some_iff.1 hv
    obtain ⟨x, hx, rfl⟩ := Option.map_eq_some_iff.1 hv
    refine if_neg fun hsame => htouch.resolve_left (fun h => h) ?_
    rw [Secrets.held_of_value hx, Secrets.held_of_value hsame]
  · have hsome : replacement.value n ≠ none := fun hnone => hother (.inl hnone)
    have hsame : replacement.value n = current.value n := Classical.byContradiction fun hne => hother (.inr hne)
    obtain ⟨x, hx⟩ := Option.ne_none_iff_exists'.1 hsome
    have hcurrent : current.value n = some x := hsame ▸ hx
    refine ⟨by rw [Secrets.held_of_value hx, Secrets.held_of_value hcurrent], ?_⟩
    rw [lookup_savedVersions, hx, hcurrent]
    simp

/-- A secret is written under a name, and its version renewed if it has one. -/
theorem saves_dictSet {loaded : Secrets} {name n : String} {secret : CustomSecret} (hop : ∀ m, op.Writes m ↔ m = name)
    (hconcerns : ¬ op.Concerns (loaded.value n) n → n ≠ name) (hv : versions' = renewed operation versions name ∨
      versions' = versions ∧ versions.lookup name = none) :
    Saves operation loaded versions op (dictSet loaded name secret) versions' n := by
  have hheld : n ≠ name → Secrets.held (dictSet loaded name secret) n = loaded.held n := by
    intro hn
    rw [Secrets.held, lookup_dictSet, if_neg hn, Secrets.held]
  have hlookup : n ≠ name → versions'.lookup n = versions.lookup n := by
    intro hn
    rcases hv with rfl | ⟨rfl, -⟩
    · rw [lookup_renewed, if_neg hn]
    · rfl
  have hself : ∀ v, versions'.lookup name = some v → v = .minted operation name := by
    intro v hsome
    rcases hv with rfl | ⟨rfl, hnone⟩
    · rw [lookup_renewed, if_pos rfl] at hsome
      exact (Option.some.inj hsome).symm
    · rw [hnone] at hsome
      cases hsome
  by_cases hn : n = name
  · subst hn
    exact ⟨fun v h => .inl (hself v h), fun _ => hself, fun hother => absurd rfl (hconcerns hother)⟩
  · refine ⟨fun v h => .inr (hlookup hn ▸ h), fun htouch => ?_, fun _ => ⟨hheld hn, hlookup hn⟩⟩
    rcases htouch with hwrites | hne
    · exact absurd ((hop n).1 hwrites) hn
    · exact absurd (hheld hn) hne

theorem saves_of_effect (h : effect operation loaded versions stale op = .ok (reply, some (secrets, versions'))) (n : String) :
    Saves operation (loaded.getD []) versions op secrets versions' n := by
  cases op with
  | save replacement =>
    cases h
    exact saves_save _ _ n
  | setSecret name value description =>
    cases h
    refine saves_dictSet (fun m => Iff.rfl) (fun hother => hother) ?_
    split
    · exact .inl rfl
    · exact .inr ⟨rfl, lookup_of_not_mem ‹_›⟩
  | deleteSecret name =>
    cases loaded with
    | none => cases h
    | some current =>
      simp only [effect] at h
      split at h
      · cases h
        have hlookup : ∀ {β : Type} (d : List (String × β)), n ≠ name → (d.filter fun p => p.1 ≠ name).lookup n = d.lookup n :=
          fun d hn => (lookup_filter_ne d name n).trans (if_neg hn)
        by_cases hn : n = name
        · subst hn
          -- The name is deleted with its version.
          have hnone : ∀ v, ¬ (versions.filter fun p => p.1 ≠ n).lookup n = some v := by
            intro v hv
            rw [lookup_filter_ne, if_pos rfl] at hv
            cases hv
          exact ⟨fun v hv => absurd hv (hnone v), fun _ v hv => absurd hv (hnone v), fun hother => absurd rfl hother⟩
        · have hheld : Secrets.held (current.filter fun p => p.1 ≠ name) n = Secrets.held current n := by
            rw [Secrets.held, Secrets.held, hlookup current hn]
          refine ⟨fun v hv => .inr ?_, fun htouch => absurd hheld (htouch.resolve_left (fun h => h)),
            fun _ => ⟨hheld, hlookup versions hn⟩⟩
          rw [hlookup versions hn] at hv
          exact hv
      · cases h
  | loadVersionedSecret name =>
    cases loaded with
    | none => cases h
    | some current =>
      simp only [effect] at h
      split at h
      · cases h
      · cases h
      · rename_i hnone
        cases h
        have hlookup : n ≠ name → (renewed operation versions name).lookup n = versions.lookup n :=
          fun hn => (lookup_renewed name n).trans (if_neg hn)
        refine ⟨fun v hv => ?_, fun htouch => absurd rfl (htouch.resolve_left (fun h => h)), fun hother => ⟨rfl, hlookup hother⟩⟩
        rw [lookup_renewed] at hv
        split at hv
        · rename_i hn
          subst hn
          exact .inl (Option.some.inj hv).symm
        · exact .inr hv
  | replaceVersionedSecret name expectedVersion value =>
    cases loaded with
    | none => cases h
    | some current =>
      simp only [effect] at h
      split at h
      · cases h
      · cases h
      · split at h
        · cases h
          exact saves_dictSet (fun m => Iff.rfl) (fun hother => hother) (.inl rfl)
        · cases h
  | reencrypt =>
    cases stale with
    | false => cases h
    | true =>
      cases loaded with
      | none => cases h
      | some current =>
        cases h
        exact saves_refl fun hwrites => hwrites

end Effects

/-! ## What is in the file then -/

section Calls
variable {κ ν : Type} {F : Fernet κ ν} {cipher : Option (Cipher κ)}

/-- What is saved can be loaded again by the same process. -/
theorem exists_reload (F : Fernet κ ν) (cipher : Option (Cipher κ)) (n : ν) (v : Option Text) :
    ∃ w, validateSecret F cipher true (serializeSecret F cipher n v) = some w := by
  cases hs : serializeSecret F cipher n v with
  | none => exact ⟨none, rfl⟩
  | some t =>
    cases cipher with
    | none =>
      dsimp only [validateSecret]
      split
      · exact ⟨_, rfl⟩
      · exact ⟨_, rfl⟩
    | some c =>
      obtain ⟨d, hd⟩ : ∃ d, c.decrypt F t = some d := by
        obtain ⟨d, hd⟩ := Option.isSome_iff_exists.1 (isCurrent_serializeSecret hs)
        refine ⟨d, ?_⟩
        rw [Cipher.decrypt, Cipher.keys, List.findSome?_cons, hd]
      dsimp only [validateSecret]
      split
      · exact ⟨_, rfl⟩
      · split
        · rw [hd]
          exact ⟨_, rfl⟩
        · exact ⟨_, rfl⟩

/-- A loaded value that is no readable token is loaded again as it was. -/
theorem reload_eq {n : ν} {raw v : Option Text} (hload : validateSecret F cipher true raw = some v)
    (hplain : ∀ t ∈ v, World.readable F cipher t = false) :
    validateSecret F cipher true (serializeSecret F cipher n v) = some v := by
  cases v with
  | none => rfl
  | some t =>
    have ht := hplain t rfl
    cases cipher with
    | none =>
      cases raw with
      | none => cases hload
      | some r =>
        have hr : validateSecret F none true (some t) = some (some t) := by
          dsimp only [validateSecret] at hload ⊢
          split at hload
          · cases hload
          · cases hload
            rw [if_neg ‹_›]
        exact hr
    | some c =>
      have hencrypt : serializeSecret F (some c) n (some t) = some (F.encrypt c.secretKey n t) := by
        dsimp only [serializeSecret]
        refine if_neg fun ⟨htoken, hreads⟩ => ?_
        rw [World.readable, Option.any_some, htoken, Bool.true_and] at ht
        rw [ht] at hreads
        cases hreads
      rw [hencrypt]
      exact validateSecret_token (List.mem_cons_self ..) n t

/-- What a process finds in the file that it wrote. -/
theorem loadStrict_saveWithVersions (nonces : String → ν) (secrets : Secrets) (versions : Versions) :
    loadStrict F cipher (saveWithVersions F cipher nonces secrets versions) = .ok (some (secrets.map fun p => (p.1, { p.2 with
      secret := (validateSecret F cipher true (serializeSecret F cipher (nonces p.1) p.2.secret)).join }))) := by
  have hall : (secrets.map fun p => (p.1, { p.2 with secret := serializeSecret F cipher (nonces p.1) p.2.secret })).mapM
      (fun p => (validateSecret F cipher true p.2.secret).map fun v => (p.1, ({ p.2 with secret := v } : CustomSecret))) =
      some (secrets.map fun p => (p.1, { p.2 with
        secret := (validateSecret F cipher true (serializeSecret F cipher (nonces p.1) p.2.secret)).join })) := by
    rw [List.mapM_map]
    refine mapM_eq_some_map fun p _ => ?_
    obtain ⟨w, hw⟩ := exists_reload F cipher (nonces p.1) p.2.secret
    simp [hw]
  unfold saveWithVersions loadStrict
  dsimp only
  rw [hall]

theorem heldIn_saveWithVersions (nonces : String → ν) (secrets : Secrets) (versions : Versions) (n : String) :
    heldIn F cipher (saveWithVersions F cipher nonces secrets versions) n =
      (secrets.held n).map fun v => (validateSecret F cipher true (serializeSecret F cipher (nonces n) v)).join := by
  unfold heldIn
  rw [loadStrict_saveWithVersions]
  dsimp only
  rw [lookup_mapValues secrets fun n s => ({ s with
    secret := (validateSecret F cipher true (serializeSecret F cipher (nonces n) s.secret)).join } : CustomSecret)]
  rw [Secrets.held, Option.map_map, Option.map_map]
  rfl

/-- What is loaded under a name. -/
theorem heldIn_of_load {file : SecretsFile} {loaded : Option Secrets} (h : loadStrict F cipher file = .ok loaded) (n : String) :
    heldIn F cipher file n = (loaded.getD []).held n := by
  unfold heldIn
  rw [h]
  cases loaded <;> rfl

theorem raw_of_load {file : SecretsFile} {secrets : Secrets} (h : loadStrict F cipher file = .ok (some secrets))
    {p : String × CustomSecret} (hp : p ∈ secrets) : ∃ raw, validateSecret F cipher true raw = some p.2.secret := by
  cases file with
  | missing => cases h
  | corrupt => cases h
  | data entries versions =>
    unfold loadStrict at h
    dsimp only at h
    split at h
    · cases h
    · rename_i hload
      cases h
      obtain ⟨q, -, hq⟩ := mem_of_mapM hload hp
      obtain ⟨v, hv, rfl⟩ := Option.map_eq_some_iff.1 hq
      exact ⟨_, hv⟩

/-- A loaded secret that is kept is found again as it was. -/
theorem held_kept {s : World} {a : Action κ ν} (hok : s.Allowed F a) {loaded : Option Secrets}
    (hload : loadStrict F a.cipher s.file = .ok loaded) {secrets : Secrets} {versions : Versions} {n : String}
    (hsame : secrets.held n = (loaded.getD []).held n) :
    heldIn F a.cipher (saveWithVersions F a.cipher a.nonces secrets versions) n = heldIn F a.cipher s.file n := by
  rw [heldIn_saveWithVersions, heldIn_of_load hload, hsame]
  cases loaded with
  | none => rfl
  | some current =>
    rw [World.Allowed, hload] at hok
    dsimp only at hok
    cases hl : current.lookup n with
    | none => simp [Secrets.held, hl]
    | some secret =>
      have hmem : (n, secret) ∈ current := Lib.mem_of_lookup hl
      have hplain := hok _ hmem
      obtain ⟨raw, hraw⟩ := raw_of_load hload hmem
      simp [Secrets.held, hl, reload_eq hraw hplain]

/-- A call that succeeds changes nothing or saves what its operation says. -/
theorem call_ok {operation : Nat} {file file' : SecretsFile} {reply : Reply} {a : Action κ ν}
    (h : call F a operation file = .ok (reply, file')) :
    (file' = file ∧ a.op = .reencrypt) ∨
    ∃ loaded saved, loadStrict F a.cipher file = .ok loaded ∧
      effect operation loaded (loadVersions file) (fileHasStaleToken F a.cipher file) a.op = .ok (reply, saved) ∧
      file' = match saved with
        | none => file
        | some (secrets, versions) => saveWithVersions F a.cipher a.nonces secrets versions := by
  unfold call at h
  split at h
  · split at h
    · cases h
      exact .inl ⟨rfl, ‹_›⟩
    · cases h
  · rename_i loaded hload
    split at h
    · cases h
    · rename_i r heffect
      cases h
      exact .inr ⟨loaded, none, hload, heffect, rfl⟩
    · rename_i r secrets versions heffect
      split at h
      · cases h
      · cases h
        exact .inr ⟨loaded, some (secrets, versions), hload, heffect, rfl⟩

theorem not_writes_of_effect {operation : Nat} {loaded : Option Secrets} {versions : Versions} {stale : Bool} {op : Op}
    {reply : Reply} (h : effect operation loaded versions stale op = .ok (reply, none)) (n : String) : ¬ op.Writes n := by
  cases op with
  | save | deleteSecret | loadVersionedSecret | reencrypt => exact fun hwrites => hwrites
  | setSecret => cases h
  | replaceVersionedSecret name expectedVersion value =>
    cases loaded with
    | none => cases h
    | some current =>
      simp only [effect] at h
      split at h
      · cases h
      · cases h
      · split at h <;> cases h

end Calls

/-! ## Runs keep the versions -/

/-- Made before the operation. -/
def Version.Before (operations : Nat) : Version → Prop
  | .saved _ => True
  | .minted i _ => i < operations

theorem Version.Before.mono {v : Version} {i j : Nat} (h : v.Before i) (hij : i ≤ j) : v.Before j := by
  cases v with
  | saved token => trivial
  | minted k name => exact Nat.lt_of_lt_of_le h hij

namespace World
variable {κ ν : Type} {F : Fernet κ ν} {s s' : World} {a : Action κ ν}

structure Consistent (s : World) : Prop where
  stored : ∀ n v, (loadVersions s.file).lookup n = some v → v.Before s.operations
  returned : ∀ p ∈ s.returned, p.2.Before s.operations
  outdated : ∀ p ∈ s.outdated, p ∈ s.returned
  dead : ∀ n v, (n, v) ∈ s.outdated → (loadVersions s.file).lookup n ≠ some v

/-- What a call that succeeds does to a name. -/
structure Leaves (F : Fernet κ ν) (s : World) (a : Action κ ν) (file : SecretsFile) (n : String) : Prop where
  version : ∀ v, (loadVersions file).lookup n = some v →
    v = .minted s.operations n ∨ (loadVersions s.file).lookup n = some v
  renews : s.Allowed F a → s.Touches F a file n → ∀ v, (loadVersions file).lookup n = some v → v = .minted s.operations n
  keeps : s.Allowed F a → ¬ s.Concerns F a n →
    heldIn F a.cipher file n = heldIn F a.cipher s.file n ∧ (loadVersions file).lookup n = (loadVersions s.file).lookup n

theorem leaves_refl (n : String) (hwrites : ¬ a.op.Writes n) : Leaves F s a s.file n :=
  ⟨fun _ hv => .inr hv, fun _ htouch => absurd rfl (htouch.resolve_left hwrites), fun _ _ => ⟨rfl, rfl⟩⟩

theorem leaves_of_call {reply : Reply} {file : SecretsFile} (h : call F a s.operations s.file = .ok (reply, file)) (n : String) :
    Leaves F s a file n := by
  rcases call_ok h with ⟨rfl, hop⟩ | ⟨loaded, saved, hload, heffect, rfl⟩
  · refine leaves_refl n ?_
    rw [hop]
    exact fun hwrites => hwrites
  · cases saved with
    | none => exact leaves_refl n (not_writes_of_effect heffect n)
    | some saved =>
      obtain ⟨secrets, versions⟩ := saved
      have hsaves := saves_of_effect heffect n
      refine ⟨hsaves.version, fun hok htouch => hsaves.renews ?_, fun hok hother => ?_⟩
      · refine htouch.imp_right fun hne hsame => hne ?_
        exact held_kept hok hload hsame
      · rw [Concerns, heldIn_of_load hload, ← Secrets.value_eq] at hother
        obtain ⟨hheld, hlookup⟩ := hsaves.keeps hother
        exact ⟨held_kept hok hload hheld, hlookup⟩

/-- What is returned was made now or was in the file. -/
theorem version_of_returned {operation : Nat} {loaded : Option Secrets} {versions : Versions} {stale : Bool} {op : Op}
    {reply : Reply} {saved : Option (Secrets × Versions)}
    (h : effect operation loaded versions stale op = .ok (reply, saved)) {n : String} {v : Version}
    (hv : (n, v) ∈ returnedBy op reply) : v = .minted operation n ∨ versions.lookup n = some v := by
  cases op with
  | save | setSecret | deleteSecret | reencrypt => cases hv
  | loadVersionedSecret name =>
    cases loaded with
    | none => cases h
    | some current =>
      simp only [effect] at h
      split at h
      · cases h
      · rename_i hlookup
        cases h
        cases List.mem_singleton.1 hv
        exact .inr hlookup
      · cases h
        cases List.mem_singleton.1 hv
        exact .inl rfl
  | replaceVersionedSecret name expectedVersion value =>
    cases loaded with
    | none => cases h
    | some current =>
      simp only [effect] at h
      split at h
      · cases h
      · cases h
      · split at h
        · cases h
          cases List.mem_singleton.1 hv
          exact .inl rfl
        · cases h

theorem Consistent.step (hs : s.Consistent) (hok : s.Allowed F a) (h : s.step F a = some s') : s'.Consistent := by
  cases hcall : call F a s.operations s.file with
  | error e =>
    rw [World.step, hcall] at h
    cases h
    exact ⟨fun n v hv => (hs.stored n v hv).mono (Nat.le_succ _), fun p hp => (hs.returned p hp).mono (Nat.le_succ _),
      hs.outdated, hs.dead⟩
  | ok r =>
    obtain ⟨reply, file⟩ := r
    rw [World.step, hcall] at h
    cases h
    have hleaves := leaves_of_call hcall
    refine ⟨fun n v hv => ?_, fun p hp => ?_, fun p hp => ?_, fun n v hp hv => ?_⟩
    · rcases (hleaves n).version v hv with rfl | hold
      · exact Nat.lt_succ_self _
      · exact (hs.stored n v hold).mono (Nat.le_succ _)
    · rcases List.mem_append.1 hp with hp | hp
      · exact (hs.returned p hp).mono (Nat.le_succ _)
      · rcases call_ok hcall with ⟨-, hop⟩ | ⟨loaded, saved, -, heffect, -⟩
        · rw [hop] at hp
          cases hp
        · rcases version_of_returned heffect hp with hnew | hold
          · rw [hnew]
            exact Nat.lt_succ_self _
          · exact (hs.stored _ _ hold).mono (Nat.le_succ _)
    · rcases List.mem_append.1 hp with hp | hp
      · exact List.mem_append_left _ (hs.outdated p hp)
      · exact List.mem_append_left _ (List.mem_of_mem_filter hp)
    · -- A version that was returned before is not made again.
      have hbefore : v.Before s.operations := by
        rcases List.mem_append.1 hp with hp | hp
        · exact hs.returned _ (hs.outdated _ hp)
        · exact hs.returned _ (List.mem_of_mem_filter hp)
      have hnew : v ≠ .minted s.operations n := by
        rintro rfl
        exact Nat.lt_irrefl _ hbefore
      rcases List.mem_append.1 hp with hp | hp
      · rcases (hleaves n).version v hv with heq | hold
        · exact hnew heq
        · exact hs.dead n v hp hold
      · have htouch : s.Touches F a file n := of_decide_eq_true (List.mem_filter.1 hp).2
        exact hnew ((hleaves n).renews hok htouch v hv)

/-- A replacement that succeeds finds the expected version. -/
theorem lookup_of_replaced {name : String} {version : Version} {value : Text} {r : Reply × SecretsFile}
    (hop : a.op = .replaceVersionedSecret name version value) (h : call F a s.operations s.file = .ok r) :
    (loadVersions s.file).lookup name = some version := by
  obtain ⟨reply, file⟩ := r
  rcases call_ok h with ⟨-, hre⟩ | ⟨loaded, saved, -, heffect, -⟩
  · rw [hop] at hre
    cases hre
  · rw [hop] at heffect
    cases loaded with
    | none => cases heffect
    | some current =>
      simp only [effect] at heffect
      split at heffect
      · cases heffect
      · cases heffect
      · split at heffect
        · assumption
        · cases heffect

theorem Consistent.sound (hs : s.Consistent) : s.Sound F := by
  refine ⟨fun a name version value r hop hcall hdead => ?_, fun a hok reply file hcall n hother => ?_,
    fun a e s' hcall hstep => ?_⟩
  · exact hs.dead name version hdead (lookup_of_replaced hop hcall)
  · exact (leaves_of_call hcall n).keeps hok hother
  · rw [World.step, hcall] at hstep
    cases hstep
    rfl

/-- No file, or one that was there before, whose versions are none of those to come. -/
def start : Option (Secrets × List (String × String)) → World
  | none => {}
  | some (secrets, versions) => { file := .data secrets (versions.map fun p => (p.1, .saved p.2)) }

theorem consistent_start (init : Option (Secrets × List (String × String))) : (start init).Consistent := by
  refine ⟨fun n v hv => ?_, ?_, ?_, ?_⟩
  · cases init with
    | none => cases hv
    | some init =>
      obtain ⟨p, -, hp⟩ := List.mem_map.1 (Lib.mem_of_lookup hv)
      cases hp
      trivial
  all_goals cases init <;> exact nofun

/-- A version is good for a replacement only while the value that it came with stands. -/
theorem losesNoUpdate_of_reaches (F : Fernet κ ν) (init : Option (Secrets × List (String × String))) {s : World}
    (h : Reaches (step F) (Allowed F) (start init) s) : s.Sound F := by
  have hinv : s.Consistent := by
    refine h.invariant (I := Consistent) (consistent_start init) ?_
    intro s a t hs hok ht
    exact hs.step hok ht
  exact hinv.sound

def exampleAction (op : Op) : Action Bool Unit := { op, cipher := some { secretKey := false }, nonces := fun _ => () }

/-- A version that was replaced by its successor while another secret came in. -/
theorem losesNoUpdate_of_reaches_replaced : ∃ s : World, s.Sound StoresWorld.exampleFernet ∧
    s.outdated = [("OAUTH", .minted 1 "OAUTH")] ∧ loadVersions s.file = [("OAUTH", .minted 3 "OAUTH")] := by
  have hrun : (execAllowed (step StoresWorld.exampleFernet) (Allowed StoresWorld.exampleFernet) (start none)
      [exampleAction (.setSecret "OAUTH" "t1".toList none), exampleAction (.loadVersionedSecret "OAUTH"),
        exampleAction (.setSecret "OTHER" "x".toList none),
        exampleAction (.replaceVersionedSecret "OAUTH" (.minted 1 "OAUTH") "t2".toList),
        exampleAction (.replaceVersionedSecret "OAUTH" (.minted 1 "OAUTH") "t3".toList)]).map
      (fun s => (s.outdated, loadVersions s.file)) =
        some ([("OAUTH", .minted 1 "OAUTH")], [("OAUTH", .minted 3 "OAUTH")]) := by
    decide +kernel
  obtain ⟨s, hs, heq⟩ := Option.map_eq_some_iff.1 hrun
  exact ⟨s, losesNoUpdate_of_reaches _ none (reaches_of_execAllowed .init hs), congrArg Prod.fst heq, congrArg Prod.snd heq⟩

/-- A token of the store's own key that holds another one. -/
def nestedToken : Text := StoresWorld.exampleFernet.encrypt false () (StoresWorld.exampleFernet.encrypt false () "x".toList)

/-- A call about another name opens a token that was stored as a value. -/
theorem setSecret_opens_token : ¬ ∀ s, Reaches (step StoresWorld.exampleFernet) (fun _ _ => True) (start none) s →
    ∀ a : Action Bool Unit, s.Frame StoresWorld.exampleFernet a := by
  intro h
  have hrun : ((exec (step StoresWorld.exampleFernet) (start none) [exampleAction (.setSecret "A" nestedToken none)]).bind
      fun s => (call StoresWorld.exampleFernet (exampleAction (.setSecret "B" "y".toList none)) s.operations s.file).toOption.map
        fun r => decide (heldIn StoresWorld.exampleFernet (some { secretKey := false }) r.2 "A" =
          heldIn StoresWorld.exampleFernet (some { secretKey := false }) s.file "A")) = some false := by
    decide +kernel
  obtain ⟨s, hs, hrun⟩ := Option.bind_eq_some_iff.1 hrun
  obtain ⟨⟨reply, file⟩, hcall, heq⟩ := Option.map_eq_some_iff.1 hrun
  have hframe := h s (reaches_of_exec .init hs) _ reply file (toOption_eq_some hcall) "A" (by
    show ¬ "A" = "B"
    decide)
  exact of_decide_eq_false heq hframe.1

end World

end AgentSdk.FileSecretsStore
