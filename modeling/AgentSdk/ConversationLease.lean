import AgentSdk.Lib.Fencing
import AgentSdk.Lib.Result
import AgentSdk.Lib.Runs
import Mathlib.Data.Int.Order.Basic
/-!
# Conversation leases

`ConversationLease`: the lease file of a conversation directory names the
owner, its generation and when the lease expires. Every operation holds the
file lock, so that it is one step; `guarded_write` holds it over the write.
Times are in any unit.
-/

namespace AgentSdk.ConversationLease
open Lib

/-! ## The lease file -/

/-- The fields of the lease file as JSON gives them: `none` where one is
missing or of another type. -/
structure RawPayload where
  ownerInstanceId : Option String
  generation : Option Int
  expiresAt : Option Int
  ownerHost : Option String
  ownerPid : Option Int
deriving DecidableEq, Repr

inductive LeaseFile where
  | notAnObject
  | object (raw : RawPayload)
deriving DecidableEq, Repr

structure LeasePayload where
  ownerInstanceId : String
  generation : Int
  expiresAt : Int
  ownerHost : Option String := none
  ownerPid : Option Int := none
deriving DecidableEq, Repr

def LeasePayload.pair (p : LeasePayload) : String × Int := (p.ownerInstanceId, p.generation)

/-- `_read_payload`: what it does not understand counts as no lease. -/
def readPayload : Option LeaseFile → Option LeasePayload
  | none | some .notAnObject => none
  | some (.object raw) =>
    match raw.ownerInstanceId, raw.generation, raw.expiresAt with
    | some ownerInstanceId, some generation, some expiresAt =>
      some
        { ownerInstanceId, generation, expiresAt
          ownerHost := raw.ownerHost.filter (· ≠ "")
          ownerPid := raw.ownerPid }
    | _, _, _ => none

/-! ## Operations -/

/-- A `ConversationLease` in its process. -/
structure Owner where
  ownerInstanceId : String
  ttl : Int
  host : String
  pid : Int
deriving DecidableEq, Repr

structure LeaseClaim where
  generation : Int
  takeover : Bool
deriving DecidableEq, Repr

inductive LeaseError where
  | held (ownerInstanceId : String) (expiresAt : Int)
  | ownershipLost (ownerInstanceId : String) (generation : Int)
deriving DecidableEq, Repr

/-- `_write_payload`. -/
def Owner.writePayload (o : Owner) (generation expiresAt : Int) : LeaseFile :=
  .object
    { ownerInstanceId := some o.ownerInstanceId, generation := some generation, expiresAt := some expiresAt
      ownerHost := some o.host, ownerPid := some o.pid }

/-- `_is_pid_alive`, where `processes` are those of the host. -/
def isPidAlive (processes : List Int) (pid : Int) : Bool := 0 < pid ∧ pid ∈ processes

/-- `_owner_is_dead`. -/
def Owner.ownerIsDead (o : Owner) (processes : List Int) (payload : LeasePayload) : Bool :=
  match payload.ownerHost, payload.ownerPid with
  | some host, some pid => host = o.host ∧ pid ≠ o.pid ∧ ¬ isPidAlive processes pid
  | _, _ => false

/-- `claim`. -/
def Owner.claim (o : Owner) (processes : List Int) (now : Int) (file : Option LeaseFile) :
    Except LeaseError (LeaseClaim × LeaseFile) :=
  match readPayload file with
  | none => .ok ({ generation := 1, takeover := false }, o.writePayload 1 (now + o.ttl))
  | some payload =>
    if payload.ownerInstanceId = o.ownerInstanceId then
      .ok ({ generation := payload.generation, takeover := false }, o.writePayload payload.generation (now + o.ttl))
    else if now < payload.expiresAt ∧ ¬ o.ownerIsDead processes payload then
      .error (.held payload.ownerInstanceId payload.expiresAt)
    else
      .ok ({ generation := payload.generation + 1, takeover := true },
        o.writePayload (payload.generation + 1) (now + o.ttl))

/-- `_assert_owner_locked`. -/
def assertOwner (file : Option LeaseFile) (ownerInstanceId : String) (generation : Int) : Except LeaseError Unit :=
  match readPayload file with
  | none => .error (.ownershipLost ownerInstanceId generation)
  | some payload =>
    if payload.ownerInstanceId = ownerInstanceId ∧ payload.generation = generation then .ok ()
    else .error (.ownershipLost ownerInstanceId generation)

/-- `renew`. -/
def Owner.renew (o : Owner) (generation now : Int) (file : Option LeaseFile) : Except LeaseError LeaseFile := do
  assertOwner file o.ownerInstanceId generation
  return o.writePayload generation (now + o.ttl)

/-- `release`: the file that stores the generation is deleted. -/
def Owner.release (o : Owner) (generation : Int) (file : Option LeaseFile) : Option LeaseFile :=
  match readPayload file with
  | none => file
  | some payload =>
    if payload.ownerInstanceId ≠ o.ownerInstanceId ∨ payload.generation ≠ generation then file else none

/-! ## Instances over one directory -/

structure Grant where
  ownerInstanceId : String
  generation : Int
  takeover : Bool
deriving DecidableEq, Repr

def Grant.pair (g : Grant) : String × Int := (g.ownerInstanceId, g.generation)

/-- The lease file, the clock and the processes of each host. Kept for the
statements only: the claims that succeeded, in order. -/
structure World where
  file : Option LeaseFile := none
  now : Int := 0
  processes : List (String × Int) := []
  granted : List Grant := []

inductive LeaseOp where
  | tick (now : Int)
  | spawn (host : String) (pid : Int)
  | exit (host : String) (pid : Int)
  | claim (o : Owner)
  | renew (o : Owner) (generation : Int)
  | guardedWrite (o : Owner) (generation : Int)
  | release (o : Owner) (generation : Int)

namespace World

def isRunning (w : World) (o : Owner) : Bool := (o.host, o.pid) ∈ w.processes

/-- The processes of a host. -/
def pids (w : World) (host : String) : List Int := (w.processes.filter (·.1 = host)).map (·.2)

def claim (w : World) (o : Owner) : Option World :=
  (o.claim (w.pids o.host) w.now w.file).toOption.map fun (claim, file) =>
    { w with
      file := some file
      granted := w.granted ++ [⟨o.ownerInstanceId, claim.generation, claim.takeover⟩] }

/-- What raises is not a step, and neither is what a dead process does. -/
def step (w : World) : LeaseOp → Option World
  | .tick now => if now < w.now then none else some { w with now }
  | .spawn host pid => some { w with processes := (host, pid) :: w.processes }
  | .exit host pid => some { w with processes := w.processes.filter (· ≠ (host, pid)) }
  | .claim o => if w.isRunning o then w.claim o else none
  | .renew o generation =>
    if w.isRunning o then
      (o.renew generation w.now w.file).toOption.map fun file => { w with file := some file }
    else none
  | .guardedWrite o generation =>
    if w.isRunning o then (assertOwner w.file o.ownerInstanceId generation).toOption.map fun _ => w else none
  | .release o generation => if w.isRunning o then some { w with file := o.release generation w.file } else none

/-- A directory as the first of the instances finds it. A lease in it was
granted before. -/
def init (file : Option LeaseFile) : World :=
  { file
    granted := (readPayload file).toList.map fun payload => ⟨payload.ownerInstanceId, payload.generation, false⟩ }

/-- `guarded_write` gets past its check. -/
def passes (w : World) (pair : String × Int) : Prop := assertOwner w.file pair.1 pair.2 = .ok ()

/-- The pairs granted so far. -/
def pairs (w : World) : List (String × Int) := w.granted.map Grant.pair

/-- An instance may start over with generation 1: no larger generation was
granted, and its pair was not granted before another instance's. -/
def mayStartOver (w : World) (o : Owner) : Prop :=
  (∀ g ∈ w.pairs, g.2 ≤ 1) ∧ superseded (o.ownerInstanceId, 1) w.pairs = false

instance decidableMayStartOver (w : World) (o : Owner) : Decidable (w.mayStartOver o) :=
  inferInstanceAs (Decidable (_ ∧ _))

end World

/-- A claim that finds no lease may start over. -/
def LeaseOp.Allowed (w : World) : LeaseOp → Prop
  | .claim o => readPayload w.file = none → w.mayStartOver o
  | _ => True

instance LeaseOp.decidableAllowed (w : World) (op : LeaseOp) : Decidable (op.Allowed w) :=
  match op with
  | .claim o => inferInstanceAs (Decidable (readPayload w.file = none → w.mayStartOver o))
  | .tick _ | .spawn _ _ | .exit _ _ | .renew _ _ | .guardedWrite _ _ | .release _ _ => isTrue trivial

/-- A superseded pair does not pass the guard, a takeover gets a larger
generation than every grant before it, and one pair passes at a time. -/
structure Fenced (w : World) : Prop where
  stale : ∀ p, superseded p w.pairs = true → ¬ w.passes p
  takeover : w.granted.Pairwise fun g g' => g'.takeover = true → g.generation < g'.generation
  single : ∀ p q, w.passes p → w.passes q → p = q

/-! ## One operation -/

/-- The lease that `writePayload` writes. -/
def Owner.payload (o : Owner) (generation expiresAt : Int) : LeasePayload :=
  { ownerInstanceId := o.ownerInstanceId, generation, expiresAt
    ownerHost := (some o.host).filter (· ≠ ""), ownerPid := some o.pid }

theorem Owner.readPayload_writePayload (o : Owner) (generation expiresAt : Int) :
    readPayload (some (o.writePayload generation expiresAt)) = some (o.payload generation expiresAt) := rfl

theorem World.passes_iff {w : World} {p : String × Int} :
    w.passes p ↔ ∃ payload, readPayload w.file = some payload ∧ payload.pair = p := by
  unfold World.passes assertOwner
  cases readPayload w.file with
  | none => simp
  | some payload =>
    simp only [LeasePayload.pair, Option.some.injEq, exists_eq_left', Prod.ext_iff]
    split <;> simp_all

/-- The three ways in which a claim succeeds. -/
theorem Owner.claim_cases {o : Owner} {processes : List Int} {now : Int} {file : Option LeaseFile} {c : LeaseClaim}
    {file' : LeaseFile} (h : o.claim processes now file = .ok (c, file')) :
    file' = o.writePayload c.generation (now + o.ttl) ∧
      ((readPayload file = none ∧ c = ⟨1, false⟩) ∨
        ∃ payload, readPayload file = some payload ∧
          ((payload.ownerInstanceId = o.ownerInstanceId ∧ c = ⟨payload.generation, false⟩) ∨
            c = ⟨payload.generation + 1, true⟩)) := by
  unfold Owner.claim at h
  cases hread : readPayload file with
  | none =>
    rw [hread] at h
    cases h
    exact ⟨rfl, .inl ⟨rfl, rfl⟩⟩
  | some payload =>
    rw [hread] at h
    dsimp only at h
    split at h
    · cases h
      exact ⟨rfl, .inr ⟨payload, rfl, .inl ⟨‹_›, rfl⟩⟩⟩
    · split at h
      · cases h
      · cases h
        exact ⟨rfl, .inr ⟨payload, rfl, .inr rfl⟩⟩

theorem Owner.release_cases (o : Owner) (generation : Int) (file : Option LeaseFile) :
    o.release generation file = none ∨ o.release generation file = file := by
  unfold Owner.release
  split
  · exact .inr rfl
  · split
    · exact .inr rfl
    · exact .inl rfl

theorem Owner.renew_ok {o : Owner} {generation now : Int} {file : Option LeaseFile} {file' : LeaseFile}
    (h : o.renew generation now file = .ok file') :
    assertOwner file o.ownerInstanceId generation = .ok () ∧ file' = o.writePayload generation (now + o.ttl) := by
  obtain ⟨_, hassert, h⟩ := bind_ok h
  cases h
  exact ⟨hassert, rfl⟩

/-! ## The invariant -/

/-- The lease file holds the current grant. -/
structure Inv (w : World) : Prop where
  current : ∀ payload, readPayload w.file = some payload → Current payload.pair w.pairs
  takeover : w.granted.Pairwise fun g g' => g'.takeover = true → g.generation < g'.generation

section
variable {w w' : World} {o : Owner}

/-- The world after a successful claim. -/
def World.grant (w : World) (o : Owner) (c : LeaseClaim) : World :=
  { w with
    file := some (o.writePayload c.generation (w.now + o.ttl))
    granted := w.granted ++ [⟨o.ownerInstanceId, c.generation, c.takeover⟩] }

theorem World.pairs_grant (c : LeaseClaim) : (w.grant o c).pairs = w.pairs ++ [(o.ownerInstanceId, c.generation)] := by
  simp [World.pairs, World.grant, Grant.pair]

theorem Inv.fenced (h : Inv w) : Fenced w := by
  refine ⟨fun p hs hp => ?_, h.takeover, fun p q hp hq => ?_⟩
  · obtain ⟨payload, hread, rfl⟩ := World.passes_iff.1 hp
    rw [(h.current payload hread).stands] at hs
    cases hs
  · obtain ⟨payload, hread, rfl⟩ := World.passes_iff.1 hp
    obtain ⟨payload', hread', rfl⟩ := World.passes_iff.1 hq
    rw [hread] at hread'
    cases hread'
    rfl

/-- A grant that writes the file, and takes over from smaller generations only. -/
theorem Inv.grant {c : LeaseClaim} (h : Inv w) (hcurrent : Current (o.ownerInstanceId, c.generation)
    (w.pairs ++ [(o.ownerInstanceId, c.generation)]))
    (htakeover : c.takeover = true → ∀ p ∈ w.pairs, p.2 < c.generation) :
    Inv (w.grant o c) := by
  refine ⟨fun payload hread => ?_, ?_⟩
  · cases hread
    rw [World.pairs_grant]
    exact hcurrent
  · refine List.pairwise_append.2 ⟨h.takeover, List.pairwise_singleton _ _, fun g₁ hg₁ g₂ hg₂ ht => ?_⟩
    rw [List.mem_singleton] at hg₂
    subst hg₂
    exact htakeover ht _ (List.mem_map_of_mem hg₁)

theorem Inv.claim (h : Inv w) (hok : readPayload w.file = none → w.mayStartOver o) (hw : w.claim o = some w') :
    Inv w' := by
  obtain ⟨⟨c, file⟩, hc, rfl⟩ := Option.map_eq_some_iff.1 hw
  obtain ⟨rfl, hcases⟩ := Owner.claim_cases (toOption_eq_some hc)
  refine h.grant ?_ ?_
  · rcases hcases with ⟨hnone, rfl⟩ | ⟨payload, hread, ⟨howner, rfl⟩ | rfl⟩
    · exact .grant (hok hnone).1 (hok hnone).2
    · have hpair : payload.pair = (o.ownerInstanceId, payload.generation) := by
        rw [← howner]
        rfl
      have hcurrent := (h.current payload hread).again
      rw [hpair] at hcurrent
      exact hcurrent
    · exact ((h.current payload hread).takeover (Int.lt_add_one_iff.2 (Int.le_refl _))).2
  · rcases hcases with ⟨hnone, rfl⟩ | ⟨payload, hread, ⟨howner, rfl⟩ | rfl⟩
    · nofun
    · nofun
    · exact fun _ => ((h.current payload hread).takeover (q := (o.ownerInstanceId, payload.generation + 1))
        (Int.lt_add_one_iff.2 (Int.le_refl _))).1

theorem Inv.step {op : LeaseOp} (h : Inv w) (hok : op.Allowed w) (hw : w.step op = some w') : Inv w' := by
  cases op with
  | tick now =>
    dsimp only [World.step] at hw
    split at hw
    · cases hw
    · cases hw
      exact ⟨h.current, h.takeover⟩
  | spawn host pid | exit host pid =>
    cases hw
    exact ⟨h.current, h.takeover⟩
  | claim o =>
    dsimp only [World.step] at hw
    split at hw
    · exact h.claim hok hw
    · cases hw
  | renew o generation =>
    dsimp only [World.step] at hw
    split at hw
    · obtain ⟨file, hfile, rfl⟩ := Option.map_eq_some_iff.1 hw
      obtain ⟨hassert, rfl⟩ := Owner.renew_ok (toOption_eq_some hfile)
      have hpasses : w.passes (o.ownerInstanceId, generation) := hassert
      obtain ⟨payload, hread, hpair⟩ := World.passes_iff.1 hpasses
      refine ⟨fun payload' hread' => ?_, h.takeover⟩
      cases hread'
      have hcurrent := h.current payload hread
      rw [hpair] at hcurrent
      exact hcurrent
    · cases hw
  | guardedWrite o generation =>
    dsimp only [World.step] at hw
    split at hw
    · obtain ⟨_, -, rfl⟩ := Option.map_eq_some_iff.1 hw
      exact h
    · cases hw
  | release o generation =>
    dsimp only [World.step] at hw
    split at hw
    · cases hw
      refine ⟨fun payload hread => ?_, h.takeover⟩
      dsimp only at hread
      rcases o.release_cases generation w.file with hnone | hsame
      · rw [hnone] at hread
        cases hread
      · rw [hsame] at hread
        exact h.current payload hread
    · cases hw

theorem inv_init (file : Option LeaseFile) : Inv (.init file) := by
  refine ⟨fun payload hread => ?_, ?_⟩
  · have hpairs : (World.init file).pairs = [] ++ [payload.pair] := by
      simp only [World.pairs, World.init] at hread ⊢
      rw [hread]
      rfl
    rw [hpairs]
    exact .grant (by simp) rfl
  · unfold World.init
    cases readPayload file <;> simp

end

/-- Stale owners are fenced off in every run in which no claim that finds no
lease starts over below an earlier grant. -/
theorem fenced_of_reaches {file : Option LeaseFile} {w : World}
    (h : Reaches World.step (fun w op => op.Allowed w) (.init file) w) : Fenced w :=
  (h.invariant (inv_init file) fun _ _ _ hi hok hw => hi.step hok hw).fenced

/-! ## Starting over below an earlier grant -/

section
variable {w : World} {o : Owner}

theorem World.step_claim {c : LeaseClaim} (hrun : w.isRunning o = true)
    (hc : o.claim (w.pids o.host) w.now w.file = .ok (c, o.writePayload c.generation (w.now + o.ttl))) :
    w.step (.claim o) = some (w.grant o c) := by
  simp only [World.step, if_pos hrun, World.claim, hc]
  rfl

/-- A lease that has run out is taken over. -/
theorem Owner.claim_expired {processes : List Int} {now : Int} {file : Option LeaseFile} {payload : LeasePayload}
    (hread : readPayload file = some payload) (hne : payload.ownerInstanceId ≠ o.ownerInstanceId)
    (hexpired : payload.expiresAt ≤ now) :
    o.claim processes now file = .ok (⟨payload.generation + 1, true⟩, o.writePayload (payload.generation + 1) (now + o.ttl)) := by
  unfold Owner.claim
  rw [hread]
  dsimp only
  rw [if_neg hne, if_neg fun h => absurd h.1 (by omega)]

/-- An instance of another name in the same process. -/
def Owner.other (o : Owner) : Owner := { o with ownerInstanceId := o.ownerInstanceId ++ "'" }

theorem Owner.other_ne (o : Owner) : o.ownerInstanceId ≠ o.other.ownerInstanceId := by
  intro h
  have hlen := congrArg String.length h
  simp [Owner.other] at hlen

/-- `o` starts over, and its lease runs out. -/
def World.lapsed (w : World) (o : Owner) : World :=
  { w.grant o ⟨1, false⟩ with now := max w.now (w.now + o.ttl) }

/-- What the condition rules out leads to a run that is not fenced. -/
theorem unfenced_of_startOver (hrun : w.isRunning o = true) (hread : readPayload w.file = none)
    (hnot : ¬ w.mayStartOver o) : ∃ ops w', exec World.step w (.claim o :: ops) = some w' ∧ ¬ Fenced w' := by
  have hclaim : w.step (.claim o) = some (w.grant o ⟨1, false⟩) := by
    refine World.step_claim hrun ?_
    simp only [Owner.claim, hread]
  by_cases htop : ∀ g ∈ w.pairs, g.2 ≤ 1
  · -- Its own pair is superseded and passes again.
    have hs : superseded (o.ownerInstanceId, 1) w.pairs = true := by
      rw [← Bool.not_eq_false]
      exact fun hs => hnot ⟨htop, hs⟩
    refine ⟨[], w.grant o ⟨1, false⟩, by simp [exec, hclaim], fun hf => hf.stale (o.ownerInstanceId, 1) ?_ ?_⟩
    · rw [World.pairs_grant]
      exact superseded_append.2 (.inl hs)
    · exact World.passes_iff.2 ⟨_, o.readPayload_writePayload _ _, rfl⟩
  · -- The next takeover gets generation 2, which is not larger.
    push Not at htop
    obtain ⟨p, hp, hlt⟩ := htop
    obtain ⟨g, hg, rfl⟩ := List.mem_map.1 hp
    have htick : (w.grant o ⟨1, false⟩).step (.tick (max w.now (w.now + o.ttl))) = some (w.lapsed o) :=
      if_neg (Int.not_lt.2 (Int.le_max_left _ _))
    have htake : (w.lapsed o).step (.claim o.other) = some ((w.lapsed o).grant o.other ⟨2, true⟩) :=
      World.step_claim hrun
        (Owner.claim_expired (o.readPayload_writePayload _ _) o.other_ne (Int.le_max_right _ _))
    refine ⟨[.tick (max w.now (w.now + o.ttl)), .claim o.other], (w.lapsed o).grant o.other ⟨2, true⟩, ?_, fun hf => ?_⟩
    · simp only [exec, hclaim, htick, htake, bind, Option.bind]
    · have htakeover := (List.pairwise_append.1 hf.takeover).2.2 g (List.mem_append_left _ hg) _ List.mem_cons_self rfl
      change g.generation < 2 at htakeover
      change 1 < g.generation at hlt
      omega

end

/-! ## A release in between -/

namespace ReleaseExample

def first : Owner := { ownerInstanceId := "first", ttl := 45, host := "host", pid := 10 }

def second : Owner := { ownerInstanceId := "second", ttl := 45, host := "host", pid := 20 }

def spawned : List LeaseOp := [.spawn "host" 10, .spawn "host" 20]

/-- Each instance claims and releases, then the first claims again. -/
def inTurns : List LeaseOp :=
  spawned ++ [.claim first, .release first 1, .claim second, .release second 1, .claim first]

/-- The second instance takes over when the first has died. -/
def takeover : Option World :=
  execAllowed World.step (fun w op => op.Allowed w) (.init none)
    (spawned ++ [.claim first, .renew first 1, .exit "host" 10, .claim second, .guardedWrite second 2, .release second 2])

end ReleaseExample

open ReleaseExample in
theorem fenced_takeover :
    ∃ w, takeover = some w ∧ w.granted = [⟨"first", 1, false⟩, ⟨"second", 2, true⟩] ∧ Fenced w := by
  have hrun : takeover.map (·.granted) = some [⟨"first", 1, false⟩, ⟨"second", 2, true⟩] := by decide
  obtain ⟨w, hw, hgranted⟩ := Option.map_eq_some_iff.1 hrun
  exact ⟨w, hw, hgranted, fenced_of_reaches (reaches_of_execAllowed .init hw)⟩

open ReleaseExample in
/-- The pair of the first instance passes again after the second's claim. -/
theorem stale_pair_passes_after_release :
    ¬ ∀ file w, Reaches World.step (fun _ _ => True) (.init file) w → Fenced w := by
  intro h
  have hrun : (exec World.step (.init none) inTurns).map (fun w => (w.file, w.pairs)) =
      some (some (first.writePayload 1 45), [("first", 1), ("second", 1), ("first", 1)]) := by decide
  obtain ⟨w, hw, hend⟩ := Option.map_eq_some_iff.1 hrun
  obtain ⟨hfile, hpairs⟩ := Prod.mk.inj hend
  refine (h none w (reaches_of_exec .init hw)).stale ("first", 1) ?_ ?_
  · rw [hpairs]
    decide
  · rw [World.passes, hfile]
    rfl

end AgentSdk.ConversationLease
