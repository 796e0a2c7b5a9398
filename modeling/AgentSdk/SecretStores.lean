import AgentSdk.FunctionCalls
import AgentSdk.Lib.Runs
import Mathlib.Logic.Function.Basic
/-!
# Stored secrets

The settings and the secrets store: files whose secret values are encrypted
under the current key of a cipher, which can carry previous keys. A file is the
list of its leaves; the server may be started with another cipher at any time.
-/

namespace AgentSdk
open Lib

def fernetTokenPrefix : Text := "gAAAAA".toList

def redactedSecretValue : Text := "**********".toList

def looksLikeToken (t : Text) : Bool := fernetTokenPrefix.isPrefixOf t

/-! ## Ciphers -/

/-- Encryption with a key and a nonce: a token has the prefix, is not its own
text, and decrypts under its own key only, to the text. -/
structure Fernet (κ ν : Type) where
  encrypt : κ → ν → Text → Text
  decrypt : κ → Text → Option Text
  token : ∀ k n t, looksLikeToken (encrypt k n t) = true
  encrypt_ne : ∀ k n t, encrypt k n t ≠ t
  decrypt_encrypt : ∀ k n t, decrypt k (encrypt k n t) = some t
  decrypt_other : ∀ k k' n t, k' ≠ k → decrypt k' (encrypt k n t) = none

/-- A cipher as its constructor leaves it. -/
structure Cipher (κ : Type) where
  secretKey : κ
  previousKeys : List κ := []
deriving DecidableEq, Repr

namespace Cipher
variable {κ ν : Type} (F : Fernet κ ν)

def keys (c : Cipher κ) : List κ := c.secretKey :: c.previousKeys

/-- The first key that decrypts. -/
def decrypt (c : Cipher κ) (t : Text) : Option Text := c.keys.findSome? fun k => F.decrypt k t

def isCurrent (c : Cipher κ) (t : Text) : Bool := (F.decrypt c.secretKey t).isSome

def rotate (c : Cipher κ) (n : ν) (t : Text) : Option Text :=
  if c.isCurrent F t then some t else (c.decrypt F t).map (F.encrypt c.secretKey n)

end Cipher

/-! ## Fields -/

/-- How a leaf is read and written: a `SecretStr` (of a field or of a map), a
secret header of a `LookupSecret`, a raw text of a map of secrets, or none of
these. -/
inductive LeafKind where
  | secret
  | header
  | text
  | plain
deriving DecidableEq, Repr

/-- The leaves of a file or of a loaded model; `none` is null. An entry that a
map drops is kept here as null. -/
abbrev Fields (π : Type) := List (π × Option Text)

def blank (t : Text) : Bool := strip t = []

section
variable {κ ν π : Type} (F : Fernet κ ν)

def serializeSecret (cipher : Option (Cipher κ)) (n : ν) : Option Text → Option Text
  | none => none
  | some raw =>
    match cipher with
    | none => some raw
    | some c =>
      if looksLikeToken raw ∧ (c.decrypt F raw).any (· ≠ []) then some ((c.rotate F n raw).getD raw)
      else some (F.encrypt c.secretKey n raw)

/-- `none` for a `SecretDecryptionError`. -/
def validateSecret (cipher : Option (Cipher κ)) (strict : Bool) : Option Text → Option (Option Text)
  | none => some none
  | some t =>
    if blank t ∨ t = redactedSecretValue then some none
    else
      match cipher with
      | some c =>
        if looksLikeToken t then
          match c.decrypt F t with
          | some d => some (some d)
          | none => if strict then none else some none
        else some (some t)
      | none => some (some t)

/-- An entry of `validate_secret_dict`, which keeps what it cannot decrypt. -/
def validateSecretText (cipher : Option (Cipher κ)) (strict : Bool) (t : Text) : Option Text :=
  match cipher with
  | some c =>
    if looksLikeToken t then
      match c.decrypt F t with
      | some d => some d
      | none => if strict then none else some t
    else some t
  | none => some t

def validateHeader (cipher : Option (Cipher κ)) (strict : Bool) (t : Text) : Option (Option Text) :=
  if blank t ∨ t = redactedSecretValue then some none
  else (validateSecret F cipher strict (some t)).map fun v => some (v.getD t)

def loadLeaf (cipher : Option (Cipher κ)) (strict : Bool) : LeafKind → Option Text → Option (Option Text)
  | .plain, v => some v
  | .secret, v => validateSecret F cipher strict v
  | .header, some t => validateHeader F cipher strict t
  | .text, some t => (validateSecretText F cipher strict t).map some
  | .header, none | .text, none => some none

def saveLeaf (cipher : Option (Cipher κ)) (n : ν) : LeafKind → Option Text → Option Text
  | .plain, v => v
  | _, v => serializeSecret F cipher n v

/-- The kinds of the leaves, and where a custom secret has its leaves. -/
structure StoreSchema (π : Type) where
  kindOf : π → LeafKind
  secretAt : String → π
  descriptionAt : String → π

variable (sch : StoreSchema π)

def loadFields (cipher : Option (Cipher κ)) (strict : Bool) (fields : Fields π) : Option (Fields π) :=
  fields.mapM fun e => (loadLeaf F cipher strict (sch.kindOf e.1) e.2).map fun v => (e.1, v)

def saveFields (cipher : Option (Cipher κ)) (nonces : π → ν) (fields : Fields π) : Fields π :=
  fields.map fun e => (e.1, saveLeaf F cipher (nonces e.1) (sch.kindOf e.1) e.2)

def hasStaleToken (c : Cipher κ) (fields : Fields π) : Bool :=
  fields.any fun e => e.2.any fun t => looksLikeToken t && !c.isCurrent F t

end

section
variable {π : Type} [DecidableEq π]

def Fields.value (fields : Fields π) (p : π) : Option Text := (fields.lookup p).join

def Fields.set (fields : Fields π) (p : π) (v : Option Text) : Fields π :=
  if p ∈ fields.map (·.1) then fields.map fun e => if e.1 = p then (p, v) else e else fields ++ [(p, v)]

end

/-! ## The stores -/

inductive StoreName where
  | settings
  | secrets
deriving DecidableEq, Repr

inductive StoreOp (κ ν π : Type) where
  | start (cipher : Option (Cipher κ))
  | load (store : StoreName)
  | update (store : StoreName) (updateFn : Fields π → Option (Fields π)) (nonces : π → ν)
  | setSecret (name : String) (value : Text) (description : Option Text) (nonces : π → ν)
  | deleteSecret (name : String) (nonces : π → ν)
  | saveLoaded (store : StoreName) (nonces : π → ν)
  | reencrypt (store : StoreName) (nonces : π → ν)

def StoreOp.store? {κ ν π : Type} : StoreOp κ ν π → Option StoreName
  | .start _ => none
  | .load store | .update store _ _ | .saveLoaded store _ | .reencrypt store _ => some store
  | .setSecret _ _ _ _ | .deleteSecret _ _ => some .secrets

/-- The cipher the server was started with and the files. Kept for the statement
only: every key of a cipher so far, and the value that an operation last gave to
each leaf. -/
structure StoresWorld (κ π : Type) where
  cipher : Option (Cipher κ) := none
  files : StoreName → Option (Fields π) := fun _ => none
  keys : List κ := []
  stored : StoreName → π → Option Text := fun _ _ => none

namespace StoresWorld
variable {κ ν π : Type} [DecidableEq κ] [DecidableEq π] (F : Fernet κ ν) (sch : StoreSchema π)

/-- A lenient load, `none` if there is no file. -/
def load (s : StoresWorld κ π) (store : StoreName) : Option (Fields π) :=
  s.files store >>= loadFields F sch s.cipher false

/-- The load of a read-modify-write path, with the defaults if there is no file. -/
def loadStrict (s : StoresWorld κ π) (store : StoreName) : Option (Fields π) :=
  match s.files store with
  | none => some []
  | some fields => loadFields F sch s.cipher true fields

/-- A leaf that has not its loaded value has been given another one. -/
def write (s : StoresWorld κ π) (store : StoreName) (loaded new : Fields π) (nonces : π → ν) : StoresWorld κ π :=
  { s with
    files := Function.update s.files store (some (saveFields F sch s.cipher nonces new))
    stored := Function.update s.stored store fun p =>
      if new.value p = loaded.value p then s.stored store p else new.value p }

/-- Under the file's lock; a load that fails raises a `RuntimeError`. -/
def modify (s : StoresWorld κ π) (store : StoreName) (updateFn : Fields π → Option (Fields π)) (nonces : π → ν) :
    StoresWorld κ π :=
  match s.loadStrict F sch store with
  | none => s
  | some loaded =>
    match updateFn loaded with
    | none => s
    | some new => s.write F sch store loaded new nonces

/-- The value goes through the validator of `CustomSecret`, without a cipher. -/
def withSecret (name : String) (value : Text) (description : Option Text) (fields : Fields π) : Option (Fields π) :=
  (validateSecret F none false (some value)).map fun v =>
    (fields.set (sch.secretAt name) v).set (sch.descriptionAt name) description

def withoutSecret (name : String) (fields : Fields π) : Option (Fields π) :=
  if sch.secretAt name ∈ fields.map (·.1) then
    some (fields.filter fun e => e.1 ≠ sch.secretAt name ∧ e.1 ≠ sch.descriptionAt name)
  else none

/-- `save` of what `load` has just returned. -/
def saveLoaded (s : StoresWorld κ π) (store : StoreName) (nonces : π → ν) : StoresWorld κ π :=
  match s.load F sch store with
  | none => s
  | some loaded =>
    match store with
    | .settings => s.write F sch store loaded loaded nonces
    | .secrets =>
      -- refuses to overwrite what it cannot load
      match s.loadStrict F sch store with
      | none => s
      | some _ => s.write F sch store loaded loaded nonces

/-- With what `reencrypt` returns. -/
def reencrypt (s : StoresWorld κ π) (store : StoreName) (nonces : π → ν) : Bool × StoresWorld κ π :=
  match s.cipher, s.files store with
  | some c, some fields =>
    if c.previousKeys ≠ [] ∧ hasStaleToken F c fields then
      match s.loadStrict F sch store with
      | none => (false, s)
      | some loaded => (true, s.write F sch store loaded loaded nonces)
    else (false, s)
  | _, _ => (false, s)

def step (s : StoresWorld κ π) : StoreOp κ ν π → Option (StoresWorld κ π)
  | .start cipher => some { s with cipher, keys := s.keys ++ (cipher.map (·.keys)).getD [] }
  | .load _ => some s
  | .update store updateFn nonces => some (s.modify F sch store updateFn nonces)
  | .setSecret name value description nonces =>
    some (s.modify F sch .secrets (withSecret F sch name value description) nonces)
  | .deleteSecret name nonces => some (s.modify F sch .secrets (withoutSecret sch name) nonces)
  | .saveLoaded store nonces => some (s.saveLoaded F sch store nonces)
  | .reencrypt store nonces => some (s.reencrypt F sch store nonces).2

/-! ## The condition -/

/-- Without a cipher, no leaf is given a value that looks like a token. -/
def NewPlain (s : StoresWorld κ π) (loaded new : Fields π) : Prop :=
  s.cipher = none → ∀ e ∈ new, sch.kindOf e.1 ≠ .plain → e.2 ≠ loaded.value e.1 → e.2.any looksLikeToken = false

def PlainOk (s : StoresWorld κ π) (store : StoreName) (updateFn : Fields π → Option (Fields π)) : Prop :=
  match s.loadStrict F sch store with
  | none => True
  | some loaded =>
    match updateFn loaded with
    | none => True
    | some new => s.NewPlain sch loaded new

/-- Freshly loaded settings are saved only if all of them could be decrypted;
where a file is re-encrypted, what is no secret looks like no old token. -/
def Allowed (s : StoresWorld κ π) : StoreOp κ ν π → Prop
  | .update store updateFn _ => s.PlainOk F sch store updateFn
  | .setSecret name value description _ => s.PlainOk F sch .secrets (withSecret F sch name value description)
  | .deleteSecret name _ => s.PlainOk F sch .secrets (withoutSecret sch name)
  | .saveLoaded .settings _ => (s.loadStrict F sch .settings).isSome
  | .reencrypt store _ =>
    match s.cipher, s.files store with
    | some c, some fields =>
      ∀ e ∈ fields, sch.kindOf e.1 = .plain → (e.2.any fun t => looksLikeToken t && !c.isCurrent F t) = false
    | _, _ => True
  | _ => True

instance newPlainDecidable (s : StoresWorld κ π) (loaded new : Fields π) : Decidable (s.NewPlain sch loaded new) :=
  inferInstanceAs (Decidable (_ → ∀ e ∈ new, _))

instance plainOkDecidable (s : StoresWorld κ π) (store : StoreName) (updateFn : Fields π → Option (Fields π)) :
    Decidable (s.PlainOk F sch store updateFn) := by
  unfold PlainOk
  split
  · infer_instance
  · split <;> infer_instance

instance allowedDecidable (s : StoresWorld κ π) (op : StoreOp κ ν π) : Decidable (s.Allowed F sch op) := by
  unfold Allowed
  split
  case h_5 => split <;> infer_instance
  all_goals infer_instance

/-! ## What has to hold -/

/-- Not blank, not the mask and not a token of a key that was configured. -/
structure IsSecret (s : StoresWorld κ π) (v : Text) : Prop where
  notBlank : blank v = false
  notMask : v ≠ redactedSecretValue
  notToken : looksLikeToken v = true → ∀ k ∈ s.keys, F.decrypt k v = none

/-- The value in the file, in plain text or as a token. -/
def Encodes (raw v : Text) : Prop := raw = v ∨ ∃ k n, raw = F.encrypt k n v

/-- The configuration has the key of the value in the file. -/
def HasKey (s : StoresWorld κ π) (raw v : Text) : Prop :=
  raw = v ∨ ∃ c, s.cipher = some c ∧ ∃ k ∈ c.keys, ∃ n, raw = F.encrypt k n v

/-- A secret of the store that no configured key decrypts. -/
def Undecryptable (s : StoresWorld κ π) (store : StoreName) : Prop :=
  ∃ c fields, s.cipher = some c ∧ s.files store = some fields ∧
    ∃ e ∈ fields, sch.kindOf e.1 ≠ .plain ∧ ∃ t, e.2 = some t ∧ looksLikeToken t = true ∧ c.decrypt F t = none

structure Survives (s : StoresWorld κ π) : Prop where
  returned : ∀ store p v, s.stored store p = some v → s.IsSecret F v → sch.kindOf p ≠ .plain →
    ∃ fields raw, s.files store = some fields ∧ fields.value p = some raw ∧ Encodes F raw v ∧
      (s.HasKey F raw v → ∃ loaded, s.load F sch store = some loaded ∧ loaded.value p = some v)
  refused : ∀ op t store, s.Allowed F sch op → s.step F sch op = some t → op.store? = some store →
    s.Undecryptable F sch store → t.files = s.files
  rotated : ∀ store nonces, s.Allowed F sch (.reencrypt store nonces) → (s.reencrypt F sch store nonces).1 = true →
    ∃ c fields, s.cipher = some c ∧ (s.reencrypt F sch store nonces).2.files store = some fields ∧
      ∀ e ∈ fields, ∀ t, e.2 = some t → looksLikeToken t = true → c.isCurrent F t = true

end StoresWorld

/-! ## Tokens -/

section
variable {κ ν π : Type} {F : Fernet κ ν}

theorem looksLikeToken_cons {t : Text} (h : looksLikeToken t = true) : ∃ r, t = 'g' :: r := by
  obtain ⟨r, hr⟩ := List.isPrefixOf_iff_prefix.1 h
  exact ⟨_, hr.symm⟩

theorem not_blank_of_token {t : Text} (h : looksLikeToken t = true) : blank t = false := by
  obtain ⟨r, rfl⟩ := looksLikeToken_cons h
  refine decide_eq_false fun hstrip => ?_
  have hlead : lstrip ('g' :: r) = 'g' :: r := List.dropWhile_cons_of_neg (by decide)
  rw [strip, hlead, rstrip, List.rdropWhile_eq_nil_iff] at hstrip
  exact absurd (hstrip 'g' (List.mem_cons_self ..)) (by decide)

theorem ne_mask_of_token {t : Text} (h : looksLikeToken t = true) : t ≠ redactedSecretValue := by
  rintro rfl
  exact absurd h (by decide)

theorem decrypt_encrypt_of_mem {c : Cipher κ} {k : κ} (hk : k ∈ c.keys) (n : ν) (v : Text) :
    c.decrypt F (F.encrypt k n v) = some v := by
  rw [Cipher.decrypt]
  generalize c.keys = keys at hk
  induction keys with
  | nil => cases hk
  | cons k' keys ih =>
    rw [List.findSome?_cons]
    by_cases heq : k' = k
    · rw [heq, F.decrypt_encrypt]
    · rw [F.decrypt_other k k' n v heq]
      exact ih ((List.mem_cons.1 hk).resolve_left (Ne.symm heq))

theorem decrypt_encrypt_of_not_mem {c : Cipher κ} {k : κ} (hk : k ∉ c.keys) (n : ν) (v : Text) :
    c.decrypt F (F.encrypt k n v) = none := by
  rw [Cipher.decrypt, List.findSome?_eq_none_iff]
  intro k' hk'
  refine F.decrypt_other k k' n v ?_
  rintro rfl
  exact hk hk'

theorem isCurrent_encrypt {c : Cipher κ} (n : ν) (v : Text) : c.isCurrent F (F.encrypt c.secretKey n v) = true := by
  rw [Cipher.isCurrent, F.decrypt_encrypt]
  rfl

/-- What is written is under the current key. -/
theorem isCurrent_serializeSecret {c : Cipher κ} {n : ν} {v : Option Text} {t : Text}
    (h : serializeSecret F (some c) n v = some t) : c.isCurrent F t = true := by
  cases v with
  | none => cases h
  | some raw =>
    dsimp only [serializeSecret] at h
    split at h
    · rename_i htoken
      cases h
      rw [Cipher.rotate]
      split
      · rename_i hcurrent
        exact hcurrent
      · obtain ⟨d, hd⟩ : ∃ d, c.decrypt F raw = some d := by
          cases hraw : c.decrypt F raw with
          | none =>
            rw [hraw] at htoken
            cases htoken.2
          | some d => exact ⟨d, rfl⟩
        rw [hd, Option.map_some, Option.getD_some]
        exact isCurrent_encrypt n d
    · cases h
      exact isCurrent_encrypt n raw

theorem serializeSecret_of_not_token {c : Cipher κ} {n : ν} {v : Text}
    (h : looksLikeToken v = true → ∀ k ∈ c.keys, F.decrypt k v = none) :
    serializeSecret F (some c) n (some v) = some (F.encrypt c.secretKey n v) := by
  dsimp only [serializeSecret]
  refine if_neg fun ⟨htoken, hdecrypts⟩ => ?_
  have hnone : c.decrypt F v = none := List.findSome?_eq_none_iff.2 (h htoken)
  rw [hnone] at hdecrypts
  cases hdecrypts

/-! ### A leaf -/

theorem saveLeaf_none (cipher : Option (Cipher κ)) (n : ν) (kind : LeafKind) : saveLeaf F cipher n kind none = none := by
  cases kind <;> rfl

theorem saveLeaf_of_ne_plain {cipher : Option (Cipher κ)} {n : ν} {kind : LeafKind} (h : kind ≠ .plain)
    (v : Option Text) : saveLeaf F cipher n kind v = serializeSecret F cipher n v := by
  cases kind with
  | plain => exact absurd rfl h
  | _ => rfl

/-- What is neither blank nor the mask goes through the reader of its kind. -/
theorem loadLeaf_some {cipher : Option (Cipher κ)} {strict : Bool} {kind : LeafKind} {t : Text}
    (hblank : blank t = false) (hmask : t ≠ redactedSecretValue) (hkind : kind ≠ .plain) {d : Text}
    (h : validateSecret F cipher strict (some t) = some (some d)) :
    loadLeaf F cipher strict kind (some t) = some (some d) := by
  have hnot : ¬ (blank t = true ∨ t = redactedSecretValue) :=
    fun hor => hor.elim (Bool.eq_false_iff.1 hblank) hmask
  cases kind with
  | plain => exact absurd rfl hkind
  | secret => exact h
  | header =>
    show validateHeader F cipher strict t = _
    rw [validateHeader, if_neg hnot, h]
    rfl
  | text =>
    show (validateSecretText F cipher strict t).map some = _
    dsimp only [validateSecret] at h
    rw [if_neg hnot] at h
    cases cipher with
    | none => exact h
    | some c =>
      dsimp only [validateSecretText] at h ⊢
      split
      · rename_i htoken
        rw [if_pos htoken] at h
        cases hd : c.decrypt F t with
        | some d' =>
          rw [hd] at h
          exact h
        | none =>
          rw [hd] at h
          cases strict <;> cases h
      · rename_i htoken
        rw [if_neg htoken] at h
        exact h

theorem validateSecret_some {cipher : Option (Cipher κ)} {strict : Bool} {t : Text} (hblank : blank t = false)
    (hmask : t ≠ redactedSecretValue) (hplain : cipher = none ∨ looksLikeToken t = false) :
    validateSecret F cipher strict (some t) = some (some t) := by
  dsimp only [validateSecret]
  rw [if_neg fun hor => hor.elim (Bool.eq_false_iff.1 hblank) hmask]
  cases cipher with
  | none => rfl
  | some c =>
    dsimp only
    rw [hplain.resolve_left nofun]
    rfl

theorem validateSecret_token {c : Cipher κ} {strict : Bool} {k : κ} (hk : k ∈ c.keys) (n : ν) (v : Text) :
    validateSecret F (some c) strict (some (F.encrypt k n v)) = some (some v) := by
  have htoken := F.token k n v
  dsimp only [validateSecret]
  rw [if_neg fun hor => hor.elim (Bool.eq_false_iff.1 (not_blank_of_token htoken)) (ne_mask_of_token htoken),
    if_pos htoken, decrypt_encrypt_of_mem hk]

/-- A strict load meets a token that it cannot decrypt. -/
theorem loadLeaf_strict_none {c : Cipher κ} {kind : LeafKind} {t : Text} (hkind : kind ≠ .plain)
    (htoken : looksLikeToken t = true) (hnone : c.decrypt F t = none) : loadLeaf F (some c) true kind (some t) = none := by
  have hnot : ¬ (blank t = true ∨ t = redactedSecretValue) :=
    fun hor => hor.elim (Bool.eq_false_iff.1 (not_blank_of_token htoken)) (ne_mask_of_token htoken)
  have hvalidate : validateSecret F (some c) true (some t) = none := by
    dsimp only [validateSecret]
    rw [if_neg hnot, if_pos htoken, hnone]
    rfl
  cases kind with
  | plain => exact absurd rfl hkind
  | secret => exact hvalidate
  | header =>
    show validateHeader F (some c) true t = none
    rw [validateHeader, if_neg hnot, hvalidate]
    rfl
  | text =>
    show (validateSecretText F (some c) true t).map some = none
    dsimp only [validateSecretText]
    rw [if_pos htoken, hnone]
    rfl

theorem validateSecret_lenient (cipher : Option (Cipher κ)) (v : Option Text) :
    ∃ d, validateSecret F cipher false v = some d := by
  cases v with
  | none => exact ⟨_, rfl⟩
  | some t =>
    dsimp only [validateSecret]
    split
    · exact ⟨_, rfl⟩
    · cases cipher with
      | none => exact ⟨_, rfl⟩
      | some c =>
        dsimp only
        split
        · cases hd : c.decrypt F t <;> exact ⟨_, rfl⟩
        · exact ⟨_, rfl⟩

/-- A lenient load gives what a strict one does, if that does not fail. -/
theorem validateSecret_of_strict {cipher : Option (Cipher κ)} {v d : Option Text}
    (h : validateSecret F cipher true v = some d) : validateSecret F cipher false v = some d := by
  cases v with
  | none => exact h
  | some t =>
    dsimp only [validateSecret] at h ⊢
    split
    · rename_i hor
      rw [if_pos hor] at h
      exact h
    · rename_i hnot
      rw [if_neg hnot] at h
      cases cipher with
      | none => exact h
      | some c =>
        dsimp only at h ⊢
        split
        · rename_i htoken
          rw [if_pos htoken] at h
          cases hd : c.decrypt F t with
          | some d' =>
            rw [hd] at h
            exact h
          | none =>
            rw [hd] at h
            cases h
        · rename_i htoken
          rw [if_neg htoken] at h
          exact h

theorem loadLeaf_lenient (cipher : Option (Cipher κ)) (kind : LeafKind) (v : Option Text) :
    ∃ d, loadLeaf F cipher false kind v = some d := by
  cases kind with
  | plain => exact ⟨v, rfl⟩
  | secret => exact validateSecret_lenient cipher v
  | header =>
    cases v with
    | none => exact ⟨none, rfl⟩
    | some t =>
      show ∃ d, validateHeader F cipher false t = some d
      rw [validateHeader]
      split
      · exact ⟨_, rfl⟩
      · obtain ⟨d, hd⟩ := validateSecret_lenient (F := F) cipher (some t)
        rw [hd]
        exact ⟨_, rfl⟩
  | text =>
    cases v with
    | none => exact ⟨none, rfl⟩
    | some t =>
      show ∃ d, (validateSecretText F cipher false t).map some = some d
      cases cipher with
      | none => exact ⟨_, rfl⟩
      | some c =>
        dsimp only [validateSecretText]
        split
        · cases hd : c.decrypt F t <;> exact ⟨_, rfl⟩
        · exact ⟨_, rfl⟩

theorem loadLeaf_of_strict {cipher : Option (Cipher κ)} {kind : LeafKind} {v d : Option Text}
    (h : loadLeaf F cipher true kind v = some d) : loadLeaf F cipher false kind v = some d := by
  cases kind with
  | plain => exact h
  | secret => exact validateSecret_of_strict h
  | header =>
    cases v with
    | none => exact h
    | some t =>
      have hheader : validateHeader F cipher true t = some d := h
      show validateHeader F cipher false t = some d
      rw [validateHeader] at hheader ⊢
      split
      · rename_i hor
        rw [if_pos hor] at hheader
        exact hheader
      · rename_i hnot
        rw [if_neg hnot] at hheader
        obtain ⟨d', hd', hmap⟩ := Option.map_eq_some_iff.1 hheader
        rw [validateSecret_of_strict hd', Option.map_some, hmap]
  | text =>
    cases v with
    | none => exact h
    | some t =>
      have htext : (validateSecretText F cipher true t).map some = some d := h
      show (validateSecretText F cipher false t).map some = some d
      cases cipher with
      | none => exact htext
      | some c =>
        dsimp only [validateSecretText] at htext ⊢
        split
        · rename_i htoken
          rw [if_pos htoken] at htext
          cases hd : c.decrypt F t with
          | some d' =>
            rw [hd] at htext
            exact htext
          | none =>
            rw [hd] at htext
            cases htext
        · rename_i htoken
          rw [if_neg htoken] at htext
          exact htext

end

/-! ### Fields -/

section
variable {κ ν π : Type} [DecidableEq π] {F : Fernet κ ν} {sch : StoreSchema π}

theorem value_of_lookup {fields : Fields π} {p : π} {v : Option Text} (h : fields.lookup p = some v) :
    fields.value p = v := by
  rw [Fields.value, h, Option.join_some]

theorem lookup_of_value {fields : Fields π} {p : π} {t : Text} (h : fields.value p = some t) :
    fields.lookup p = some (some t) := by
  rw [Fields.value, Option.join_eq_some_iff] at h
  exact h

theorem mem_of_lookup {fields : Fields π} {p : π} {v : Option Text} (h : fields.lookup p = some v) : (p, v) ∈ fields := by
  induction fields with
  | nil => cases h
  | cons e fields ih =>
    rw [List.lookup_cons] at h
    split at h
    · rename_i heq
      cases h
      rw [beq_iff_eq.1 heq]
      exact List.mem_cons_self ..
    · exact List.mem_cons_of_mem _ (ih h)

theorem lookup_map_value (fields : Fields π) (g : π → Option Text → Option Text) (p : π) :
    (fields.map fun e => (e.1, g e.1 e.2)).lookup p = (fields.lookup p).map (g p) := by
  induction fields with
  | nil => rfl
  | cons e fields ih =>
    rw [List.map_cons, List.lookup_cons, List.lookup_cons]
    split
    · rename_i heq
      rw [beq_iff_eq.1 heq]
      rfl
    · exact ih

theorem value_saveFields {cipher : Option (Cipher κ)} {nonces : π → ν} (fields : Fields π) (p : π) :
    (saveFields F sch cipher nonces fields).value p =
      saveLeaf F cipher (nonces p) (sch.kindOf p) (fields.value p) := by
  rw [Fields.value, saveFields,
    lookup_map_value fields (fun q v => saveLeaf F cipher (nonces q) (sch.kindOf q) v)]
  cases hlookup : fields.lookup p with
  | none =>
    rw [Fields.value, hlookup, Option.join_none, saveLeaf_none]
    rfl
  | some v =>
    rw [value_of_lookup hlookup]
    rfl

/-- Each leaf is loaded by itself. -/
theorem lookup_loadFields {cipher : Option (Cipher κ)} {strict : Bool} {fields loaded : Fields π}
    (h : loadFields F sch cipher strict fields = some loaded) {p : π} {v : Option Text} (hv : fields.lookup p = some v) :
    ∃ d, loadLeaf F cipher strict (sch.kindOf p) v = some d ∧ loaded.lookup p = some d := by
  induction fields generalizing loaded with
  | nil => cases hv
  | cons e fields ih =>
    rw [loadFields, List.mapM_cons] at h
    obtain ⟨e', he', h⟩ := Option.bind_eq_some_iff.1 h
    obtain ⟨rest, hrest, h⟩ := Option.bind_eq_some_iff.1 h
    cases h
    obtain ⟨d, hd, rfl⟩ := Option.map_eq_some_iff.1 he'
    rw [List.lookup_cons] at hv ⊢
    split at hv
    · rename_i heq
      cases hv
      exact ⟨d, beq_iff_eq.1 heq ▸ hd, rfl⟩
    · exact ih hrest hv

omit [DecidableEq π] in
theorem mem_loadFields {cipher : Option (Cipher κ)} {strict : Bool} {fields loaded : Fields π}
    (h : loadFields F sch cipher strict fields = some loaded) {e : π × Option Text} (he : e ∈ loaded) :
    ∃ v, (e.1, v) ∈ fields ∧ loadLeaf F cipher strict (sch.kindOf e.1) v = some e.2 := by
  induction fields generalizing loaded with
  | nil =>
    cases h
    cases he
  | cons e' fields ih =>
    rw [loadFields, List.mapM_cons] at h
    obtain ⟨first, hfirst, h⟩ := Option.bind_eq_some_iff.1 h
    obtain ⟨rest, hrest, h⟩ := Option.bind_eq_some_iff.1 h
    cases h
    obtain ⟨d, hd, rfl⟩ := Option.map_eq_some_iff.1 hfirst
    rcases List.mem_cons.1 he with rfl | he
    · exact ⟨e'.2, List.mem_cons_self .., hd⟩
    · obtain ⟨v, hv, hleaf⟩ := ih hrest he
      exact ⟨v, List.mem_cons_of_mem _ hv, hleaf⟩

omit [DecidableEq π] in
theorem loadFields_lenient (F : Fernet κ ν) (sch : StoreSchema π) (cipher : Option (Cipher κ)) (fields : Fields π) :
    ∃ loaded, loadFields F sch cipher false fields = some loaded := by
  induction fields with
  | nil => exact ⟨[], rfl⟩
  | cons e fields ih =>
    obtain ⟨rest, hrest⟩ := ih
    obtain ⟨d, hd⟩ := loadLeaf_lenient (F := F) cipher (sch.kindOf e.1) e.2
    rw [loadFields] at hrest
    rw [loadFields, List.mapM_cons, hd, hrest]
    exact ⟨_, rfl⟩

omit [DecidableEq π] in
theorem loadFields_of_strict {cipher : Option (Cipher κ)} {fields loaded : Fields π}
    (h : loadFields F sch cipher true fields = some loaded) : loadFields F sch cipher false fields = some loaded := by
  induction fields generalizing loaded with
  | nil => exact h
  | cons e fields ih =>
    rw [loadFields, List.mapM_cons] at h
    obtain ⟨e', he', h⟩ := Option.bind_eq_some_iff.1 h
    obtain ⟨rest, hrest, h⟩ := Option.bind_eq_some_iff.1 h
    cases h
    obtain ⟨d, hd, rfl⟩ := Option.map_eq_some_iff.1 he'
    have htail := ih hrest
    rw [loadFields] at htail
    rw [loadFields, List.mapM_cons, loadLeaf_of_strict hd, htail]
    rfl

omit [DecidableEq π] in
theorem loadFields_strict_none {c : Cipher κ} {fields : Fields π} {e : π × Option Text} {t : Text} (he : e ∈ fields)
    (hkind : sch.kindOf e.1 ≠ .plain) (ht : e.2 = some t) (htoken : looksLikeToken t = true)
    (hnone : c.decrypt F t = none) : loadFields F sch (some c) true fields = none := by
  induction fields with
  | nil => cases he
  | cons e' fields ih =>
    rw [loadFields, List.mapM_cons]
    rcases List.mem_cons.1 he with rfl | he
    · rw [ht, loadLeaf_strict_none hkind htoken hnone]
      rfl
    · have htail := ih he
      rw [loadFields] at htail
      rw [htail]
      cases (loadLeaf F (some c) true (sch.kindOf e'.1) e'.2).map fun v => (e'.1, v) <;> rfl

end

/-! ## Runs -/

namespace StoresWorld

section
variable {κ ν π : Type} [DecidableEq π] {F : Fernet κ ν} {sch : StoreSchema π}

/-- The value in the file, in plain text only where this cannot be taken for a
token. -/
def Holds (F : Fernet κ ν) (raw v : Text) : Prop := (raw = v ∧ looksLikeToken v = false) ∨ ∃ k n, raw = F.encrypt k n v

structure Consistent (F : Fernet κ ν) (sch : StoreSchema π) (s : StoresWorld κ π) : Prop where
  keys : ∀ c, s.cipher = some c → ∀ k ∈ c.keys, k ∈ s.keys
  held : ∀ store p v, s.stored store p = some v → s.IsSecret F v → sch.kindOf p ≠ .plain →
    ∃ fields raw, s.files store = some fields ∧ fields.value p = some raw ∧ Holds F raw v

theorem Consistent.initial : Consistent F sch ({} : StoresWorld κ π) where
  keys _ hc := by cases hc
  held _ _ _ hv := by cases hv

theorem Holds.encodes {raw v : Text} (h : Holds F raw v) : Encodes F raw v := h.imp_left And.left

omit [DecidableEq π] in
/-- What a value is not, the text in the file is not either. -/
theorem Holds.neither {s : StoresWorld κ π} {raw v : Text} (h : Holds F raw v) (hv : s.IsSecret F v) :
    blank raw = false ∧ raw ≠ redactedSecretValue := by
  rcases h with ⟨rfl, -⟩ | ⟨k, n, rfl⟩
  · exact ⟨hv.notBlank, hv.notMask⟩
  · exact ⟨not_blank_of_token (F.token k n v), ne_mask_of_token (F.token k n v)⟩

omit [DecidableEq π] in
/-- Under a cipher with its key the value is loaded. -/
theorem Holds.loadLeaf {s : StoresWorld κ π} {c : Cipher κ} {strict : Bool} {kind : LeafKind} {raw v : Text}
    (h : Holds F raw v) (hv : s.IsSecret F v) (hkind : kind ≠ .plain)
    (hkey : looksLikeToken v = false ∧ raw = v ∨ ∃ k ∈ c.keys, ∃ n, raw = F.encrypt k n v) :
    loadLeaf F (some c) strict kind (some raw) = some (some v) := by
  obtain ⟨hblank, hmask⟩ := h.neither hv
  refine loadLeaf_some hblank hmask hkind ?_
  rcases hkey with ⟨hplain, rfl⟩ | ⟨k, hk, n, rfl⟩
  · exact validateSecret_some hblank hmask (.inr hplain)
  · exact validateSecret_token hk n v

omit [DecidableEq π] in
/-- A strict load that does not fail gives the value, or what is in the file if
there is no cipher. -/
theorem Holds.loadLeaf_strict {s : StoresWorld κ π} {cipher : Option (Cipher κ)} {kind : LeafKind} {raw v : Text}
    {d : Option Text} (h : Holds F raw v) (hv : s.IsSecret F v) (hkind : kind ≠ .plain)
    (hd : AgentSdk.loadLeaf F cipher true kind (some raw) = some d) :
    (cipher = none ∧ d = some raw) ∨ ∃ c, cipher = some c ∧ d = some v := by
  obtain ⟨hblank, hmask⟩ := h.neither hv
  cases cipher with
  | none =>
    rw [loadLeaf_some hblank hmask hkind (validateSecret_some hblank hmask (.inl rfl))] at hd
    cases hd
    exact .inl ⟨rfl, rfl⟩
  | some c =>
    refine .inr ⟨c, rfl, ?_⟩
    have hkey : looksLikeToken v = false ∧ raw = v ∨ ∃ k ∈ c.keys, ∃ n, raw = F.encrypt k n v := by
      rcases h with ⟨hraw, hplain⟩ | ⟨k, n, rfl⟩
      · exact .inl ⟨hplain, hraw⟩
      · by_cases hk : k ∈ c.keys
        · exact .inr ⟨k, hk, n, rfl⟩
        · rw [loadLeaf_strict_none hkind (F.token k n v) (decrypt_encrypt_of_not_mem hk n v)] at hd
          cases hd
    rw [h.loadLeaf hv hkind hkey] at hd
    cases hd
    rfl

omit [DecidableEq π] in
theorem Holds.loadLeaf_of_hasKey {s : StoresWorld κ π} {strict : Bool} {kind : LeafKind} {raw v : Text}
    (h : Holds F raw v) (hv : s.IsSecret F v) (hkind : kind ≠ .plain) (hkey : s.HasKey F raw v) :
    AgentSdk.loadLeaf F s.cipher strict kind (some raw) = some (some v) := by
  rcases hkey with rfl | ⟨c, hc, k, hk, n, hraw⟩
  · have hplain : looksLikeToken raw = false := by
      rcases h with ⟨-, hplain⟩ | ⟨k, n, hself⟩
      · exact hplain
      · exact absurd hself.symm (F.encrypt_ne k n raw)
    cases s.cipher with
    | none =>
      exact loadLeaf_some hv.notBlank hv.notMask hkind (validateSecret_some hv.notBlank hv.notMask (.inl rfl))
    | some c => exact h.loadLeaf hv hkind (.inl ⟨hplain, rfl⟩)
  · rw [hc]
    exact h.loadLeaf hv hkind (.inr ⟨k, hk, n, hraw⟩)

omit [DecidableEq π] in
/-- What is saved of a secret value holds it. -/
theorem holds_saved {s : StoresWorld κ π} {cipher : Option (Cipher κ)} {n : ν} {kind : LeafKind} {v : Text}
    (hv : s.IsSecret F v) (hkind : kind ≠ .plain) (hkeys : ∀ c, cipher = some c → ∀ k ∈ c.keys, k ∈ s.keys)
    (hplain : cipher = none → looksLikeToken v = false) :
    ∃ raw, saveLeaf F cipher n kind (some v) = some raw ∧ Holds F raw v := by
  rw [saveLeaf_of_ne_plain hkind]
  cases cipher with
  | none => exact ⟨v, rfl, .inl ⟨rfl, hplain rfl⟩⟩
  | some c =>
    refine ⟨_, serializeSecret_of_not_token fun htoken k hk => ?_, .inr ⟨c.secretKey, n, rfl⟩⟩
    exact hv.notToken htoken k (hkeys c rfl k hk)

theorem files_write (s : StoresWorld κ π) (store : StoreName) (loaded new : Fields π) (nonces : π → ν) :
    (s.write F sch store loaded new nonces).files store = some (saveFields F sch s.cipher nonces new) := by
  simp [write]

theorem stored_write (s : StoresWorld κ π) (store : StoreName) (loaded new : Fields π) (nonces : π → ν) (p : π) :
    (s.write F sch store loaded new nonces).stored store p =
      if new.value p = loaded.value p then s.stored store p else new.value p := by
  simp [write]

theorem write_of_ne (F : Fernet κ ν) (sch : StoreSchema π) (s : StoresWorld κ π) {store store' : StoreName}
    (hne : store' ≠ store) (loaded new : Fields π) (nonces : π → ν) : (s.write F sch store loaded new nonces).files store' = s.files store' ∧
      (s.write F sch store loaded new nonces).stored store' = s.stored store' := by
  simp [write, hne]

theorem Consistent.write {s : StoresWorld κ π} {store : StoreName} {loaded new : Fields π} {nonces : π → ν}
    (h : Consistent F sch s) (hload : s.loadStrict F sch store = some loaded)
    (hplain : s.cipher = none → ∀ p v, sch.kindOf p ≠ .plain → new.value p = some v → new.value p ≠ loaded.value p →
      looksLikeToken v = false) : Consistent F sch (s.write F sch store loaded new nonces) := by
  refine ⟨h.keys, fun store' p v hstored hv hkind => ?_⟩
  have hsecret : s.IsSecret F v := ⟨hv.notBlank, hv.notMask, hv.notToken⟩
  by_cases heq : store' = store
  · subst heq
    refine ⟨saveFields F sch s.cipher nonces new, ?_⟩
    rw [files_write]
    rw [stored_write] at hstored
    suffices hsaved : ∃ raw, saveLeaf F s.cipher (nonces p) (sch.kindOf p) (new.value p) = some raw ∧ Holds F raw v by
      obtain ⟨raw, hraw, hholds⟩ := hsaved
      exact ⟨raw, rfl, (value_saveFields new p).trans hraw, hholds⟩
    split at hstored
    · rename_i hsame
      -- the leaf was left alone
      obtain ⟨fields, raw, hfile, hvalue, hholds⟩ := h.held store' p v hstored hsecret hkind
      rw [loadStrict, hfile] at hload
      obtain ⟨d, hd, hlookup⟩ := lookup_loadFields hload (lookup_of_value hvalue)
      rw [hsame, value_of_lookup hlookup]
      rcases hholds.loadLeaf_strict hsecret hkind hd with ⟨hnone, rfl⟩ | ⟨c, hc, rfl⟩
      · rw [hnone, saveLeaf_of_ne_plain hkind]
        exact ⟨raw, rfl, hholds⟩
      · exact holds_saved hsecret hkind h.keys fun hnone => absurd (hc.symm.trans hnone) nofun
    · rename_i hchanged
      rw [hstored]
      exact holds_saved hsecret hkind h.keys fun hnone => hplain hnone p v hkind hstored hchanged
  · obtain ⟨hfiles, hsame⟩ := write_of_ne F sch s heq loaded new nonces
    rw [hsame] at hstored
    rw [hfiles]
    exact h.held store' p v hstored hsecret hkind

/-- The loaded fields are saved as they are. -/
theorem Consistent.writeBack {s : StoresWorld κ π} {store : StoreName} {loaded : Fields π} {nonces : π → ν}
    (h : Consistent F sch s) (hload : s.loadStrict F sch store = some loaded) :
    Consistent F sch (s.write F sch store loaded loaded nonces) :=
  h.write hload fun _ _ _ _ _ hne => absurd rfl hne

theorem Consistent.modify {s : StoresWorld κ π} {store : StoreName} {updateFn : Fields π → Option (Fields π)}
    {nonces : π → ν} (h : Consistent F sch s) (hok : s.PlainOk F sch store updateFn) :
    Consistent F sch (s.modify F sch store updateFn nonces) := by
  rw [StoresWorld.modify]
  rw [PlainOk] at hok
  split
  · exact h
  · rename_i loaded hload
    rw [hload] at hok
    dsimp only at hok
    split
    · exact h
    · rename_i new hnew
      rw [hnew] at hok
      refine h.write hload fun hnone p v hkind hv hne => ?_
      exact hok hnone (p, some v) (mem_of_lookup (lookup_of_value hv)) hkind fun hsame => hne (hv.trans hsame)

omit [DecidableEq π] in
/-- If the strict load does not fail, the lenient one gives the same. -/
theorem load_of_loadStrict {s : StoresWorld κ π} {store : StoreName} {loaded strict : Fields π}
    (hload : s.load F sch store = some loaded) (hstrict : s.loadStrict F sch store = some strict) : strict = loaded := by
  rw [StoresWorld.load] at hload
  obtain ⟨fields, hfile, hload⟩ := Option.bind_eq_some_iff.1 hload
  rw [loadStrict, hfile] at hstrict
  exact Option.some.inj ((loadFields_of_strict hstrict).symm.trans hload)

theorem Consistent.saveLoaded {s : StoresWorld κ π} {store : StoreName} {nonces : π → ν} (h : Consistent F sch s)
    (hok : s.Allowed F sch (.saveLoaded store nonces)) : Consistent F sch (s.saveLoaded F sch store nonces) := by
  rw [StoresWorld.saveLoaded]
  split
  · exact h
  · rename_i loaded hload
    cases store with
    | settings =>
      obtain ⟨strict, hstrict⟩ := Option.isSome_iff_exists.1 hok
      rw [← load_of_loadStrict hload hstrict]
      exact h.writeBack hstrict
    | secrets =>
      dsimp only
      split
      · exact h
      · rename_i strict hstrict
        rw [← load_of_loadStrict hload hstrict]
        exact h.writeBack hstrict

theorem Consistent.reencrypt {s : StoresWorld κ π} {store : StoreName} {nonces : π → ν} (h : Consistent F sch s) :
    Consistent F sch (s.reencrypt F sch store nonces).2 := by
  rw [StoresWorld.reencrypt]
  split
  · split
    · split
      · exact h
      · rename_i loaded hload
        exact h.writeBack hload
    · exact h
  · exact h

theorem Consistent.start {s : StoresWorld κ π} (h : Consistent F sch s) (cipher : Option (Cipher κ)) :
    Consistent F sch { s with cipher, keys := s.keys ++ (cipher.map (·.keys)).getD [] } where
  keys c hc k hk := by
    have hcipher : cipher = some c := hc
    rw [hcipher]
    exact List.mem_append_right _ hk
  held store p v hstored hv hkind := by
    refine h.held store p v hstored ⟨hv.notBlank, hv.notMask, fun htoken k hk => ?_⟩ hkind
    exact hv.notToken htoken k (List.mem_append_left _ hk)

theorem Consistent.step {s t : StoresWorld κ π} {op : StoreOp κ ν π} (h : Consistent F sch s)
    (hok : s.Allowed F sch op) (ht : s.step F sch op = some t) : Consistent F sch t := by
  cases op with
  | start cipher =>
    cases ht
    exact h.start cipher
  | load store =>
    cases ht
    exact h
  | update store updateFn nonces =>
    cases ht
    exact h.modify hok
  | setSecret name value description nonces =>
    cases ht
    exact h.modify hok
  | deleteSecret name nonces =>
    cases ht
    exact h.modify hok
  | saveLoaded store nonces =>
    cases ht
    exact h.saveLoaded hok
  | reencrypt store nonces =>
    cases ht
    exact h.reencrypt

/-! ### What follows in a state -/

theorem Consistent.returned {s : StoresWorld κ π} (h : Consistent F sch s) {store : StoreName} {p : π} {v : Text}
    (hstored : s.stored store p = some v) (hv : s.IsSecret F v) (hkind : sch.kindOf p ≠ .plain) :
    ∃ fields raw, s.files store = some fields ∧ fields.value p = some raw ∧ Encodes F raw v ∧
      (s.HasKey F raw v → ∃ loaded, s.load F sch store = some loaded ∧ loaded.value p = some v) := by
  obtain ⟨fields, raw, hfile, hvalue, hholds⟩ := h.held store p v hstored hv hkind
  refine ⟨fields, raw, hfile, hvalue, hholds.encodes, fun hkey => ?_⟩
  obtain ⟨loaded, hload⟩ := loadFields_lenient F sch s.cipher fields
  obtain ⟨d, hd, hlookup⟩ := lookup_loadFields hload (lookup_of_value hvalue)
  refine ⟨loaded, ?_, ?_⟩
  · rw [StoresWorld.load, hfile]
    exact hload
  · rw [value_of_lookup hlookup]
    exact Option.some.inj (hd.symm.trans (hholds.loadLeaf_of_hasKey hv hkind hkey))

omit [DecidableEq π] in
theorem loadStrict_of_undecryptable {s : StoresWorld κ π} {store : StoreName} (h : s.Undecryptable F sch store) :
    s.loadStrict F sch store = none := by
  obtain ⟨c, fields, hcipher, hfile, e, he, hkind, t, ht, htoken, hnone⟩ := h
  rw [loadStrict, hfile, hcipher]
  exact loadFields_strict_none he hkind ht htoken hnone

theorem files_of_undecryptable {s t : StoresWorld κ π} {op : StoreOp κ ν π} {store : StoreName}
    (hok : s.Allowed F sch op) (ht : s.step F sch op = some t) (hop : op.store? = some store)
    (h : s.Undecryptable F sch store) : t.files = s.files := by
  have hstrict := loadStrict_of_undecryptable h
  have hmodify : ∀ updateFn nonces, s.modify F sch store updateFn nonces = s := by
    intro updateFn nonces
    rw [StoresWorld.modify, hstrict]
  cases op with
  | start cipher => cases hop
  | load _ =>
    cases ht
    rfl
  | update _ updateFn nonces =>
    cases hop
    cases ht
    rw [hmodify]
  | setSecret name value description nonces =>
    cases hop
    cases ht
    rw [hmodify]
  | deleteSecret name nonces =>
    cases hop
    cases ht
    rw [hmodify]
  | saveLoaded _ nonces =>
    cases hop
    cases ht
    rw [StoresWorld.saveLoaded]
    cases store with
    | settings =>
      have hsome : (s.loadStrict F sch .settings).isSome := hok
      rw [hstrict] at hsome
      cases hsome
    | secrets =>
      split
      · rfl
      · dsimp only
        rw [hstrict]
  | reencrypt _ nonces =>
    cases hop
    cases ht
    rw [StoresWorld.reencrypt, hstrict]
    split
    · split <;> rfl
    · rfl

/-- After a re-encryption every token is under the current key. -/
theorem isCurrent_of_reencrypt {s : StoresWorld κ π} {store : StoreName} {nonces : π → ν}
    (hok : s.Allowed F sch (.reencrypt store nonces)) (h : (s.reencrypt F sch store nonces).1 = true) :
    ∃ c fields, s.cipher = some c ∧ (s.reencrypt F sch store nonces).2.files store = some fields ∧
      ∀ e ∈ fields, ∀ t, e.2 = some t → looksLikeToken t = true → c.isCurrent F t = true := by
  dsimp only [Allowed] at hok
  rw [StoresWorld.reencrypt] at h ⊢
  split
  · rename_i c fields hcipher hfile
    rw [hcipher, hfile] at h hok
    dsimp only at h hok
    split at h
    · rename_i hstale
      rw [if_pos hstale]
      cases hload : s.loadStrict F sch store with
      | none =>
        rw [hload] at h
        cases h
      | some loaded =>
        refine ⟨c, _, hcipher, files_write s store loaded loaded nonces, fun e he t ht htoken => ?_⟩
        rw [loadStrict, hfile] at hload
        obtain ⟨e', he', rfl⟩ := List.mem_map.1 he
        dsimp only at ht
        by_cases hkind : sch.kindOf e'.1 = .plain
        · obtain ⟨v, hv, hleaf⟩ := mem_loadFields hload he'
          rw [hkind] at hleaf ht
          cases hleaf
          have hnot := hok (e'.1, e'.2) hv hkind
          dsimp only at hnot
          rw [show e'.2 = some t from ht, Option.any_some, htoken, Bool.true_and, Bool.not_eq_false'] at hnot
          exact hnot
        · rw [saveLeaf_of_ne_plain hkind, hcipher] at ht
          exact isCurrent_serializeSecret ht
    · cases h
  · rename_i hneither
    cases hcipher : s.cipher with
    | none =>
      rw [hcipher] at h
      cases h
    | some c =>
      cases hfile : s.files store with
      | none =>
        rw [hcipher, hfile] at h
        cases h
      | some fields => exact absurd hfile (hneither c fields hcipher)

/-- Every run of starts and operations. -/
theorem survives_of_reaches (F : Fernet κ ν) (sch : StoreSchema π) {s : StoresWorld κ π}
    (h : Reaches (step F sch) (Allowed F sch) {} s) : s.Survives F sch := by
  have hcons : Consistent F sch s := h.invariant .initial fun _ _ _ hs hok ht => hs.step hok ht
  refine ⟨fun store p v hstored hv hkind => hcons.returned hstored hv hkind, fun op t store hok ht hop hundec => ?_,
    fun store nonces hok htrue => isCurrent_of_reencrypt hok htrue⟩
  exact files_of_undecryptable hok ht hop hundec

end

/-! ## A rotation, and a loss -/

inductive ExampleLeaf where
  | apiKey
  | header (name : String)
  | contextSecret (name : String)
  | misc (name : String)
  | customSecret (name : String)
  | description (name : String)
deriving DecidableEq, Repr

def exampleSchema : StoreSchema ExampleLeaf where
  kindOf
    | .apiKey | .customSecret _ => .secret
    | .header _ => .header
    | .contextSecret _ => .text
    | .misc _ | .description _ => .plain
  secretAt := .customSecret
  descriptionAt := .description

def keyTag (k : Bool) : Char := if k then '1' else '0'

/-- Tokens that name their key. -/
def exampleFernet : Fernet Bool Unit where
  encrypt k _ t := fernetTokenPrefix ++ keyTag k :: t
  decrypt k t := if (fernetTokenPrefix ++ [keyTag k]).isPrefixOf t then some (t.drop 7) else none
  token k _ t := List.isPrefixOf_iff_prefix.2 (List.prefix_append _ _)
  encrypt_ne k _ t h := by
    have hlength := congrArg List.length h
    rw [List.length_append, List.length_cons] at hlength
    omega
  decrypt_encrypt k _ t := by
    cases k <;> rfl
  decrypt_other k k' _ t h := by
    cases k <;> cases k' <;> first | exact absurd rfl h | rfl

def exampleNonces : ExampleLeaf → Unit := fun _ => ()

/-- Plain text of a server without a key, encrypted by the next one, rotated to
another key at a later start. -/
def rotationOps : List (StoreOp Bool Unit ExampleLeaf) :=
  [.start none,
    .update .settings (fun _ => some [(.apiKey, some "sk-1".toList), (.contextSecret "DB", some "pw".toList),
      (.misc "theme", some "dark".toList)]) exampleNonces,
    .start (some { secretKey := false }), .load .settings, .saveLoaded .settings exampleNonces,
    .setSecret "TOKEN" "s3cret".toList none exampleNonces,
    .start (some { secretKey := true }), .setSecret "OTHER" "x".toList none exampleNonces, .load .secrets,
    .start (some { secretKey := true, previousKeys := [false] }), .reencrypt .settings exampleNonces,
    .reencrypt .secrets exampleNonces, .start (some { secretKey := true }), .saveLoaded .secrets exampleNonces]

theorem survives_of_reaches_rotation :
    ∃ s, execAllowed (step exampleFernet exampleSchema) (Allowed exampleFernet exampleSchema) {} rotationOps = some s ∧
      s.Survives exampleFernet exampleSchema ∧
      s.load exampleFernet exampleSchema .secrets =
        some [(.customSecret "TOKEN", some "s3cret".toList), (.description "TOKEN", none)] := by
  have hrun : (execAllowed (step exampleFernet exampleSchema) (Allowed exampleFernet exampleSchema) {} rotationOps).map
      (fun s => s.load exampleFernet exampleSchema .secrets) =
        some (some [(.customSecret "TOKEN", some "s3cret".toList), (.description "TOKEN", none)]) := by
    decide +kernel
  obtain ⟨s, hs, hval⟩ := Option.map_eq_some_iff.1 hrun
  exact ⟨s, hs, survives_of_reaches _ _ (reaches_of_execAllowed .init hs), hval⟩

/-- Settings that were loaded without their key are saved. -/
theorem survives_settings_saved :
    ¬ ∀ s, Reaches (step exampleFernet exampleSchema) (fun _ _ => True) {} s → s.Survives exampleFernet exampleSchema := by
  intro hall
  have hrun : (exec (step exampleFernet exampleSchema) {}
      [.start (some { secretKey := false }),
        .update .settings (fun _ => some [(.apiKey, some "sk-1".toList)]) exampleNonces,
        .start (some { secretKey := true }), .saveLoaded .settings exampleNonces,
        .start (some { secretKey := false })]).map
        (fun s => decide (s.files .settings = some [(.apiKey, none)] ∧
          s.stored .settings .apiKey = some "sk-1".toList)) = some true := by
    decide +kernel
  obtain ⟨s, hs, hval⟩ := Option.map_eq_some_iff.1 hrun
  obtain ⟨hfile, hstored⟩ := of_decide_eq_true hval
  have hsecret : s.IsSecret exampleFernet "sk-1".toList :=
    ⟨by decide, by decide, fun htoken => absurd htoken (by decide)⟩
  obtain ⟨fields, raw, hfields, hvalue, -⟩ :=
    (hall s (reaches_of_exec .init hs)).returned .settings .apiKey _ hstored hsecret (by decide)
  cases hfile.symm.trans hfields
  cases hvalue

end StoresWorld

end AgentSdk
