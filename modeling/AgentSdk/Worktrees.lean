import AgentSdk.ConversationLifecycle
/-!
# Worktrees of conversations

`ConversationService` lets a conversation run in a git worktree of its own below
`conversation_worktree_root`. Forks and shared children take over the workspace
of their source, and the last conversation that is deleted removes the directory.
A step is what a task does between two awaits. Sections of one conversation
exclude each other; exclusive sections change neither catalog nor worktrees.
-/

namespace AgentSdk.ConversationService.Worktrees
open Lib

/-- A resolved path, as its parts. -/
abbrev Path := List String

/-- `conversation_worktree_dir`. -/
def conversationWorktreeDir (root workingDir : Path) : Option Path :=
  if root <+: workingDir then (workingDir.drop root.length).head?.map fun part => root ++ [part] else none

/-- `_WorktreePlan`: both directories lie below the root of all worktrees. -/
structure WorktreePlan (root : Path) where
  worktreeRoot : Path
  workspaceDir : Path
  below : ∃ part, root ++ [part] <+: worktreeRoot
  holds : worktreeRoot <+: workspaceDir

/-- `_plan_conversation_worktree`, with the root of the repository where git finds
one that has the start point. -/
def planConversationWorktree (root : Path) (id : ConversationId) (sourceWorkspace : Path) (repo : Option Path) :
    Option (WorktreePlan root) :=
  repo.map fun repoRoot =>
    { worktreeRoot := root ++ [toString id] ++ repoRoot.getLast?.toList
      workspaceDir := root ++ [toString id] ++ repoRoot.getLast?.toList ++ sourceWorkspace.drop repoRoot.length
      below := ⟨_, List.prefix_append _ _⟩
      holds := List.prefix_append _ _ }

inductive Isolation where
  | shared
  | worktree
deriving DecidableEq

inductive Request where
  | start (id : ConversationId) (workspace : Path) (worktree : Bool)
  | fork (source id : ConversationId)
  | child (parent id : ConversationId) (isolation : Isolation)
  | delete (id : ConversationId)

/-- Where an operation waits. -/
inductive Job (root : Path) where
  /-- A fork or a child start at the section of its source. -/
  | loadingFork (source id : ConversationId)
  | loadingChild (parent id : ConversationId) (isolation : Isolation)
  /-- Before the plan, with the workspace of the request or of the parent. -/
  | preparing (id : ConversationId) (workspace : Path) (worktree : Bool)
  /-- Between the plan and `_create_conversation_worktree`. -/
  | finalizing (id : ConversationId) (workspace : Path) (plan : Option (WorktreePlan root))
  /-- At the section of the new id, with the worktree that was made for it. -/
  | launching (id : ConversationId) (workspace : Path) (made : Option Path)
  /-- In the section of the new id, up to its entry in the catalog. -/
  | starting (id : ConversationId) (workspace : Path) (made : Option Path)
  /-- A deletion at its section. -/
  | deleting (id : ConversationId)
  /-- A deletion that loads, notifies and closes; it keeps what the service has stored. -/
  | closing (id : ConversationId) (workspace : Path)
  /-- `remove_conversation_worktree` in its thread. -/
  | removing (id : ConversationId) (dir : Path)

namespace Job

variable {root : Path}

def id : Job root → ConversationId
  | loadingFork _ id | loadingChild _ id _ | preparing id _ _ | finalizing id _ _ | launching id _ _
  | starting id _ _ | deleting id | closing id _ | removing id _ => id

/-- The workspace of a creation. -/
def workspace : Job root → Option Path
  | preparing _ ws _ | finalizing _ ws _ | launching _ ws _ | starting _ ws _ => some ws
  | loadingFork .. | loadingChild .. | deleting _ | closing .. | removing .. => none

def plan : Job root → Option (WorktreePlan root)
  | finalizing _ _ plan => plan
  | loadingFork .. | loadingChild .. | preparing .. | launching .. | starting .. | deleting _ | closing ..
  | removing .. => none

/-- The worktree that was made for the conversation. -/
def made : Job root → Option Path
  | launching _ _ made | starting _ _ made => made
  | loadingFork .. | loadingChild .. | preparing .. | finalizing .. | deleting _ | closing .. | removing .. => none

/-- The directory that a deletion is about to remove. -/
def doomed : Job root → Option Path
  | removing _ dir => some dir
  | loadingFork .. | loadingChild .. | preparing .. | finalizing .. | launching .. | starting .. | deleting _
  | closing .. => none

/-- The conversation whose section the job is in. -/
def inside : Job root → Option ConversationId
  | starting id _ _ | closing id _ | removing id _ => some id
  | loadingFork .. | loadingChild .. | preparing .. | finalizing .. | launching .. | deleting _ => none

end Job

/-- A removed directory, with who had a workspace in it. -/
structure Removal where
  dir : Path
  inUse : List ConversationId
  creating : List TaskId

structure World (root : Path) where
  /-- `_conversation_records`, with the working directories. -/
  records : List (ConversationId × Path)
  /-- The worktrees that the service has made and that are there. -/
  worktrees : List Path := []
  job : TaskId → Option (Job root) := fun _ => none
  nextTask : TaskId := 0
  removals : List Removal := []
  /-- The creations that have come into the catalog, with their workspaces. -/
  succeeded : List (TaskId × Path) := []

/-- How far `_create_conversation_worktree` gets before it raises. -/
inductive Progress where
  | mkdir
  | removed
  | added
  | done
deriving DecidableEq

inductive Action where
  | call (request : Request)
  | load (t : TaskId)
  /-- An operation raises. -/
  | fail (t : TaskId)
  | plan (t : TaskId) (repo : Option Path)
  | create (t : TaskId) (progress : Progress)
  | enter (t : TaskId)
  | commit (t : TaskId)
  | closed (t : TaskId)
  /-- `safe_rmtree` tells whether it succeeded. -/
  | removed (t : TaskId) (ok : Bool)

namespace World

variable {root : Path}

/-- A service behind `__aenter__`, with what its catalog was loaded with. -/
def initial (root : Path) (records : List (ConversationId × Path)) : World root := { records := dictOf records }

def setJob (s : World root) (t : TaskId) (j : Option (Job root)) : World root :=
  { s with job := Function.update s.job t j }

def spawn (s : World root) (j : Job root) : World root :=
  { s with job := Function.update s.job s.nextTask (some j), nextTask := s.nextTask + 1 }

def Known (s : World root) (id : ConversationId) : Prop := id ∈ s.records.map Prod.fst

instance Known.decidable (s : World root) (id : ConversationId) : Decidable (s.Known id) :=
  inferInstanceAs (Decidable (_ ∈ _))

def heldBy (s : World root) (t : TaskId) : Option Path := (s.job t).bind Job.workspace
def madeBy (s : World root) (t : TaskId) : Option Path := (s.job t).bind Job.made
def doomedBy (s : World root) (t : TaskId) : Option Path := (s.job t).bind Job.doomed
def insideOf (s : World root) (t : TaskId) : Option ConversationId := (s.job t).bind Job.inside

/-- The lock of the conversation is free. -/
def Free (s : World root) (id : ConversationId) : Prop := ∀ t < s.nextTask, s.insideOf t ≠ some id

instance Free.decidable (s : World root) (id : ConversationId) : Decidable (s.Free id) :=
  inferInstanceAs (Decidable (∀ _ < _, _))

/-- The conversations with a workspace in the directory. -/
def inUse (s : World root) (dir : Path) : List ConversationId :=
  (s.records.filter fun r => dir <+: r.2).map Prod.fst

/-- The creations in flight with a workspace in the directory. -/
def creating (s : World root) (dir : Path) : List TaskId :=
  (List.range s.nextTask).filter fun t => (s.heldBy t).any fun ws => dir <+: ws

/-- The directory goes, or what of it can be removed. -/
def remove (s : World root) (dir : Path) (ok : Bool) : World root :=
  { s with
    worktrees := if ok then s.worktrees.filter (fun w => ¬ dir <+: w) else s.worktrees
    removals := s.removals ++ [⟨dir, s.inUse dir, s.creating dir⟩] }

/-- `_create_conversation_worktree`: what stands at the place is removed first. -/
def createConversationWorktree (s : World root) (plan : WorktreePlan root) (progress : Progress) : World root :=
  let cleared := if plan.worktreeRoot ∈ s.worktrees then s.remove plan.worktreeRoot true else s
  match progress with
  | .mkdir => s
  | .removed => cleared
  | .added | .done => { cleared with worktrees := cleared.worktrees ++ [plan.worktreeRoot] }

/-- `_conversation_records.pop`. -/
def pop (s : World root) (id : ConversationId) : World root :=
  { s with records := s.records.filter fun r => r.1 ≠ id }

/-- The directory that a deletion removes: forks share their source's worktree, the
last one deleted removes it. -/
def removalDir (s : World root) (workspace : Path) : Option Path :=
  (conversationWorktreeDir root workspace).filter fun dir =>
    !s.records.any fun r => conversationWorktreeDir root r.2 = some dir

/-- An operation up to its first await. -/
def call (s : World root) : Request → World root
  -- A known id is reused.
  | .start id workspace worktree => if s.Known id then s else s.spawn (.preparing id workspace worktree)
  | .fork source id => if s.Known id ∨ ¬ s.Known source then s else s.spawn (.loadingFork source id)
  | .child parent id isolation => if s.Known parent then s.spawn (.loadingChild parent id isolation) else s
  | .delete id => if s.Known id then s.spawn (.deleting id) else s

def step (s : World root) : Action → Option (World root)
  | .call request => some (s.call request)
  | .load t =>
    match s.job t with
    | some (.loadingFork source id) =>
      if s.Free source then
        some (s.setJob t ((s.records.lookup source).map fun workspace => .launching id workspace none))
      else none
    | some (.loadingChild parent id isolation) =>
      if s.Free parent then
        some (s.setJob t ((s.records.lookup parent).map fun workspace =>
          .preparing id workspace (isolation = .worktree)))
      else none
    | _ => none
  | .fail t =>
    match s.job t with
    | none | some (.removing _ _) => none
    | some _ => some (s.setJob t none)
  | .plan t repo =>
    match s.job t with
    | some (.preparing id workspace worktree) =>
      some (s.setJob t (some (.finalizing id workspace
        (if worktree then planConversationWorktree root id workspace repo else none))))
    | _ => none
  | .create t progress =>
    match s.job t with
    | some (.finalizing id workspace none) => some (s.setJob t (some (.launching id workspace none)))
    | some (.finalizing id _ (some plan)) =>
      some ((s.createConversationWorktree plan progress).setJob t
        (if progress = .done then some (.launching id plan.workspaceDir (some plan.worktreeRoot)) else none))
    | _ => none
  | .enter t =>
    match s.job t with
    | some (.launching id workspace made) =>
      -- The id may have been taken since the first check.
      if s.Free id then some (s.setJob t (if s.Known id then none else some (.starting id workspace made))) else none
    | some (.deleting id) =>
      if s.Free id then some (s.setJob t ((s.records.lookup id).map (.closing id))) else none
    | _ => none
  | .commit t =>
    match s.job t with
    | some (.starting id workspace _) =>
      some { s.setJob t none with
        records := dictSet s.records id workspace
        succeeded := s.succeeded ++ [(t, workspace)] }
    | _ => none
  | .closed t =>
    match s.job t with
    | some (.closing id workspace) =>
      some ((s.pop id).setJob t (((s.pop id).removalDir workspace).map (.removing id)))
    | _ => none
  | .removed t ok =>
    match s.job t with
    | some (.removing _ dir) => some ((s.remove dir ok).setJob t none)
    | _ => none

/-! ## Worktrees belong to conversations -/

/-- No operation is in flight. -/
def Idle (s : World root) : Prop := ∀ t, s.job t = none

structure Sound (s : World root) : Prop where
  /-- A directory was removed only where no conversation had its workspace in it, and
  no creation that was in flight then and has succeeded. -/
  removals : ∀ r ∈ s.removals, r.inUse = [] ∧ ∀ t ∈ r.creating, ∀ ws, (t, ws) ∈ s.succeeded → ¬ r.dir <+: ws
  /-- Between the operations, every worktree is the workspace of a conversation. -/
  worktrees : s.Idle → ∀ w ∈ s.worktrees, ∃ r ∈ s.records, w <+: r.2

/-- A deletion is about to remove the directory that the path is in. -/
def Vanishing (s : World root) (p : Path) : Prop := ∃ t < s.nextTask, ∃ dir ∈ s.doomedBy t, dir <+: p

instance Vanishing.decidable (s : World root) (p : Path) : Decidable (s.Vanishing p) :=
  inferInstanceAs (Decidable (∃ _ < _, _))

/-- The deletion of the conversation finds no creation in the directory that it
removes, or leaves no worktree unused that it keeps. -/
def Deletable (s : World root) (id : ConversationId) (workspace : Path) : Prop :=
  match (s.pop id).removalDir workspace with
  | some dir => s.creating dir = []
  | none => ∀ w ∈ s.worktrees, w <+: workspace → ∃ r ∈ (s.pop id).records, w <+: r.2

instance Deletable.decidable (s : World root) (id : ConversationId) (workspace : Path) :
    Decidable (s.Deletable id workspace) := by
  unfold Deletable
  cases (s.pop id).removalDir workspace <;> infer_instance

/-- The steps under which worktrees are safe. -/
def Allowed (s : World root) : Action → Prop
  | .call (.start _ workspace _) => ¬ s.Vanishing workspace
  | .create t progress =>
    ∀ plan ∈ (s.job t).bind Job.plan, progress = .mkdir ∨
      (plan.worktreeRoot ∉ s.worktrees ∧ progress ≠ .added ∧ ¬ s.Vanishing plan.workspaceDir)
  | .fail t => s.madeBy t = none
  | .enter t => ∀ j ∈ s.job t, s.Known j.id → j.made = none
  | .closed t =>
    match s.job t with
    | some (.closing id workspace) => s.Deletable id workspace
    | _ => True
  | .removed _ ok => ok = true
  | .call _ | .load _ | .plan _ _ | .commit _ => True

instance Allowed.decidable (s : World root) (a : Action) : Decidable (s.Allowed a) := by
  cases a with
  | call request => cases request <;> unfold Allowed <;> infer_instance
  | closed t =>
    unfold Allowed
    dsimp only
    split <;> infer_instance
  | _ => unfold Allowed; infer_instance

/-! ## Directories -/

/-- What lies below a directory of the root has it as its worktree directory. -/
theorem conversationWorktreeDir_eq {part : String} {workingDir : Path} (h : root ++ [part] <+: workingDir) :
    conversationWorktreeDir root workingDir = some (root ++ [part]) := by
  obtain ⟨rest, rfl⟩ := h
  unfold conversationWorktreeDir
  rw [if_pos ⟨[part] ++ rest, by simp⟩]
  simp

theorem conversationWorktreeDir_form {workingDir dir : Path} (h : conversationWorktreeDir root workingDir = some dir) :
    ∃ part, dir = root ++ [part] := by
  unfold conversationWorktreeDir at h
  split at h
  · obtain ⟨part, -, rfl⟩ := Option.map_eq_some_iff.1 h
    exact ⟨part, rfl⟩
  · cases h

theorem removalDir_eq_some {s : World root} {workspace dir : Path} (h : s.removalDir workspace = some dir) :
    conversationWorktreeDir root workspace = some dir ∧ ∀ r ∈ s.records, ¬ dir <+: r.2 := by
  obtain ⟨hdir, hnone⟩ := Option.filter_eq_some_iff.1 h
  refine ⟨hdir, fun r hr hin => ?_⟩
  obtain ⟨part, rfl⟩ := conversationWorktreeDir_form hdir
  have hsame := conversationWorktreeDir_eq hin
  simp only [Bool.not_eq_true', List.any_eq_false, decide_eq_true_eq] at hnone
  exact hnone r hr hsame

/-! ## The invariant -/

/-- What holds where a job is. -/
def Stands (s : World root) : Job root → Prop
  | .starting id _ _ => ¬ s.Known id
  | .closing id workspace => (id, workspace) ∈ s.records
  | .loadingFork .. | .loadingChild .. | .preparing .. | .finalizing .. | .launching .. | .deleting _
  | .removing .. => True

structure Consistent (s : World root) : Prop where
  keys : (s.records.map Prod.fst).Nodup
  fresh : ∀ t, s.nextTask ≤ t → s.job t = none
  below : ∀ w ∈ s.worktrees, ∃ part, root ++ [part] <+: w
  /-- One job at a time is in the section of a conversation. -/
  sections : ∀ t u id, s.insideOf t = some id → s.insideOf u = some id → t = u
  stands : ∀ t j, s.job t = some j → s.Stands j
  made : ∀ t w, s.madeBy t = some w → ∃ ws, s.heldBy t = some ws ∧ w <+: ws
  /-- Nobody is in a directory that is about to go. -/
  doomed : ∀ t dir, s.doomedBy t = some dir →
    (∀ r ∈ s.records, ¬ dir <+: r.2) ∧ ∀ u ws, s.heldBy u = some ws → ¬ dir <+: ws
  /-- Every worktree has somebody who will use it or remove it. -/
  covered : ∀ w ∈ s.worktrees, (∃ r ∈ s.records, w <+: r.2) ∨ (∃ t, s.madeBy t = some w) ∨
    ∃ t dir, s.doomedBy t = some dir ∧ dir <+: w
  removals : ∀ r ∈ s.removals, r.inUse = [] ∧ r.creating = []

section
variable {s : World root} {t : TaskId}

theorem Consistent.sound (h : s.Consistent) : s.Sound where
  removals r hr := by
    obtain ⟨hin, hcreating⟩ := h.removals r hr
    refine ⟨hin, fun t ht => ?_⟩
    rw [hcreating] at ht
    cases ht
  worktrees hidle w hw := by
    rcases h.covered w hw with hr | ⟨t, ht⟩ | ⟨t, dir, ht, -⟩
    · exact hr
    · rw [madeBy, hidle t] at ht
      cases ht
    · rw [doomedBy, hidle t] at ht
      cases ht

theorem Consistent.lt_nextTask (h : s.Consistent) {j : Job root} (hj : s.job t = some j) : t < s.nextTask := by
  refine Nat.lt_of_not_le fun hle => ?_
  rw [h.fresh t hle] at hj
  cases hj

theorem Consistent.lt_of_inside (h : s.Consistent) {id : ConversationId} (hin : s.insideOf t = some id) :
    t < s.nextTask := by
  obtain ⟨j, hj, -⟩ := Option.bind_eq_some_iff.1 hin
  exact h.lt_nextTask hj

/-- A workspace that a creation or a conversation has is not about to go. -/
theorem Consistent.not_vanishing_held (h : s.Consistent) {ws : Path} (hws : s.heldBy t = some ws) : ¬ s.Vanishing ws := by
  rintro ⟨u, -, dir, hdir, hin⟩
  exact (h.doomed u dir hdir).2 t ws hws hin

theorem Consistent.not_vanishing_record (h : s.Consistent) {r : ConversationId × Path} (hr : r ∈ s.records) :
    ¬ s.Vanishing r.2 := by
  rintro ⟨u, -, dir, hdir, hin⟩
  exact (h.doomed u dir hdir).1 r hr hin

theorem Consistent.not_in_doomed (h : s.Consistent) {u : TaskId} {dir p : Path} (hdir : s.doomedBy u = some dir)
    (hp : ¬ s.Vanishing p) : ¬ dir <+: p := by
  obtain ⟨j, hj, -⟩ := Option.bind_eq_some_iff.1 hdir
  exact fun hin => hp ⟨u, h.lt_nextTask hj, dir, hdir, hin⟩

theorem Consistent.free_of_ne (h : s.Consistent) {id : ConversationId} (hfree : s.Free id) (u : TaskId) :
    s.insideOf u ≠ some id := fun hu => hfree u (h.lt_of_inside hu) hu

theorem workspace_of_doomed {j : Job root} {dir : Path} (h : j.doomed = some dir) : j.workspace = none := by
  cases j with
  | removing id d => rfl
  | _ => cases h

theorem bind_update (job : TaskId → Option (Job root)) (t u : TaskId) (j : Option (Job root)) {β : Type}
    (f : Job root → Option β) :
    (Function.update job t j u).bind f = if u = t then j.bind f else (job u).bind f := by
  by_cases hu : u = t
  · rw [if_pos hu, hu, Function.update_self]
  · rw [if_neg hu, Function.update_of_ne hu]

/-- What another task has is as before. -/
theorem bind_of_update {job' : TaskId → Option (Job root)} {j : Option (Job root)}
    (hjob : job' = Function.update s.job t j) {β : Type} {f : Job root → Option β} (hnone : (s.job t).bind f = none)
    {u : TaskId} {b : β} (hu : (s.job u).bind f = some b) : (job' u).bind f = some b := by
  rw [hjob, bind_update, if_neg]
  · exact hu
  · rintro rfl
    rw [hnone] at hu
    cases hu

/-- Task `t` goes on to another place, or ends; the rest of the state keeps up. -/
structure Evolves (s s' : World root) (t : TaskId) (j : Option (Job root)) : Prop where
  job : s'.job = Function.update s.job t j
  next : s.nextTask ≤ s'.nextTask
  lt : t < s'.nextTask
  held : ∀ ws, j.bind Job.workspace = some ws → ¬ s.Vanishing ws
  made : ∀ w, j.bind Job.made = some w → ∃ ws, j.bind Job.workspace = some ws ∧ w <+: ws
  inside : ∀ id, j.bind Job.inside = some id → ∀ u, u ≠ t → s.insideOf u ≠ some id
  doomed : ∀ dir, j.bind Job.doomed = some dir →
    (∀ r ∈ s'.records, ¬ dir <+: r.2) ∧ ∀ u, u ≠ t → ∀ ws, s.heldBy u = some ws → ¬ dir <+: ws
  records : ∀ r ∈ s'.records, ¬ s.Vanishing r.2
  keys : (s'.records.map Prod.fst).Nodup
  below : ∀ w ∈ s'.worktrees, ∃ part, root ++ [part] <+: w
  stands : ∀ u k, s'.job u = some k → s'.Stands k
  covered : ∀ w ∈ s'.worktrees, (∃ r ∈ s'.records, w <+: r.2) ∨ (∃ u, s'.madeBy u = some w) ∨
    ∃ u dir, s'.doomedBy u = some dir ∧ dir <+: w
  removals : ∀ r ∈ s'.removals, r.inUse = [] ∧ r.creating = []

theorem Evolves.bind_job {s' : World root} {j : Option (Job root)} (he : Evolves s s' t j) {β : Type}
    (f : Job root → Option β) (u : TaskId) :
    (s'.job u).bind f = if u = t then j.bind f else (s.job u).bind f := by
  rw [he.job]
  exact bind_update s.job t u j f

theorem Consistent.evolve (h : s.Consistent) {s' : World root} {j : Option (Job root)} (he : Evolves s s' t j) :
    s'.Consistent where
  keys := he.keys
  below := he.below
  stands := he.stands
  covered := he.covered
  removals := he.removals
  fresh u hu := by
    rw [he.job, Function.update_of_ne (Nat.ne_of_gt (Nat.lt_of_lt_of_le he.lt hu))]
    exact h.fresh u (Nat.le_trans he.next hu)
  sections u v id hu hv := by
    rw [insideOf, he.bind_job] at hu hv
    split at hu <;> split at hv
    · exact (‹u = t›).trans (‹v = t›).symm
    · exact absurd hv (he.inside id hu v ‹_›)
    · exact absurd hu (he.inside id hv u ‹_›)
    · exact h.sections u v id hu hv
  made u w hw := by
    rw [madeBy, he.bind_job] at hw
    rw [heldBy, he.bind_job]
    split at hw
    · rw [if_pos ‹_›]
      exact he.made w hw
    · rw [if_neg ‹_›]
      exact h.made u w hw
  doomed u dir hdir := by
    rw [doomedBy, he.bind_job] at hdir
    split at hdir
    · refine ⟨(he.doomed dir hdir).1, fun v ws hv => ?_⟩
      rw [heldBy, he.bind_job] at hv
      split at hv
      · -- The deletion itself has no workspace.
        obtain ⟨k, rfl, hk⟩ := Option.bind_eq_some_iff.1 hdir
        rw [Option.bind_some, workspace_of_doomed hk] at hv
        cases hv
      · exact (he.doomed dir hdir).2 v ‹_› ws hv
    · refine ⟨fun r hr => h.not_in_doomed hdir (he.records r hr), fun v ws hv => ?_⟩
      rw [heldBy, he.bind_job] at hv
      split at hv
      · exact h.not_in_doomed hdir (he.held ws hv)
      · exact (h.doomed u dir hdir).2 v ws hv

/-- A task goes on to another place, or ends, and catalog and worktrees stay as they are. -/
structure Goes (s : World root) (t : TaskId) (j : Option (Job root)) : Prop where
  held : ∀ ws, j.bind Job.workspace = some ws → ¬ s.Vanishing ws
  made : ∀ w, j.bind Job.made = some w → ∃ ws, j.bind Job.workspace = some ws ∧ w <+: ws
  keeps : ∀ w, s.madeBy t = some w → j.bind Job.made = some w
  doomed : j.bind Job.doomed = none
  undoomed : s.doomedBy t = none
  free : ∀ id, j.bind Job.inside = some id → s.Free id
  stands : ∀ k, j = some k → s.Stands k

theorem Consistent.goes (h : s.Consistent) {j : Option (Job root)} (hgo : s.Goes t j) {n : TaskId}
    (hn : s.nextTask ≤ n) (ht : t < n) :
    { s with job := Function.update s.job t j, nextTask := n }.Consistent := by
  refine h.evolve (t := t) (j := j) ⟨rfl, hn, ht, hgo.held, hgo.made,
    fun id hid u _ => h.free_of_ne (hgo.free id hid) u, fun dir hdir => ?_, fun r => h.not_vanishing_record, h.keys,
    h.below, fun u k hk => ?_, fun w hw => ?_, h.removals⟩
  · rw [hgo.doomed] at hdir
    cases hdir
  · have hk' : Function.update s.job t j u = some k := hk
    by_cases hu : u = t
    · rw [hu, Function.update_self] at hk'
      exact hgo.stands k hk'
    · rw [Function.update_of_ne hu] at hk'
      exact h.stands u k hk'
  · rcases h.covered w hw with hr | ⟨u, hu⟩ | ⟨u, dir, hu, hin⟩
    · exact .inl hr
    · refine .inr (.inl ⟨u, ?_⟩)
      show (Function.update s.job t j u).bind Job.made = some w
      rw [bind_update]
      split
      · exact hgo.keeps w (‹u = t› ▸ hu)
      · exact hu
    · exact .inr (.inr ⟨u, dir, bind_of_update rfl hgo.undoomed hu, hin⟩)

theorem Consistent.setJob (h : s.Consistent) {j : Option (Job root)} (hgo : s.Goes t j) (ht : t < s.nextTask) :
    (s.setJob t j).Consistent := h.goes hgo (Nat.le_refl _) ht

theorem Consistent.spawn (h : s.Consistent) {j : Job root} (hgo : s.Goes s.nextTask (some j)) : (s.spawn j).Consistent :=
  h.goes hgo (Nat.le_succ _) (Nat.lt_succ_self _)

theorem Consistent.nextTask_idle (h : s.Consistent) {β : Type} (f : Job root → Option β) :
    (s.job s.nextTask).bind f = none := by
  rw [h.fresh _ (Nat.le_refl _)]
  rfl

/-- A job in no section with no worktree of its own. -/
theorem Consistent.spawn_plain (h : s.Consistent) {j : Job root} (hheld : ∀ ws, j.workspace = some ws → ¬ s.Vanishing ws)
    (hmade : j.made = none) (hdoomed : j.doomed = none) (hin : j.inside = none) (hstands : s.Stands j) :
    (s.spawn j).Consistent := by
  refine h.spawn ⟨hheld, fun w hw => ?_, fun w hw => ?_, hdoomed, h.nextTask_idle _, fun id hid => ?_, ?_⟩
  · rw [Option.bind_some, hmade] at hw
    cases hw
  · rw [madeBy, h.nextTask_idle] at hw
    cases hw
  · rw [Option.bind_some, hin] at hid
    cases hid
  · rintro k ⟨⟩
    exact hstands

theorem Consistent.ends (h : s.Consistent) {j : Job root} (hj : s.job t = some j) (hmade : j.made = none)
    (hdoomed : j.doomed = none) : (s.setJob t none).Consistent := by
  refine h.setJob ⟨nofun, nofun, fun w hw => ?_, rfl, ?_, nofun, nofun⟩ (h.lt_nextTask hj)
  · rw [madeBy, hj, Option.bind_some, hmade] at hw
    cases hw
  · rw [doomedBy, hj]
    exact hdoomed

/-- A creation that stays outside of every section and has made no worktree yet. -/
theorem Consistent.moves (h : s.Consistent) {j k : Job root} (hj : s.job t = some j) (hmade : j.made = none)
    (hdoomed : j.doomed = none) (hheld : ∀ ws, k.workspace = some ws → ¬ s.Vanishing ws) (hkmade : k.made = none)
    (hkdoomed : k.doomed = none) (hkin : k.inside = none) (hstands : s.Stands k) :
    (s.setJob t (some k)).Consistent := by
  refine h.setJob ⟨hheld, fun w hw => ?_, fun w hw => ?_, hkdoomed, ?_, fun id hid => ?_, ?_⟩ (h.lt_nextTask hj)
  · rw [Option.bind_some, hkmade] at hw
    cases hw
  · rw [madeBy, hj, Option.bind_some, hmade] at hw
    cases hw
  · rw [doomedBy, hj]
    exact hdoomed
  · rw [Option.bind_some, hkin] at hid
    cases hid
  · rintro l ⟨⟩
    exact hstands

theorem held_of_job {j : Job root} (hj : s.job t = some j) {ws : Path} (hws : j.workspace = some ws) :
    s.heldBy t = some ws := by
  rw [heldBy, hj]
  exact hws

/-! ## One lemma for each action -/

theorem Consistent.call (h : s.Consistent) {request : Request} (hok : s.Allowed (.call request)) :
    (s.call request).Consistent := by
  cases request with
  | start id workspace worktree =>
    unfold World.call
    dsimp only
    split
    · exact h
    · refine h.spawn_plain ?_ rfl rfl rfl trivial
      rintro ws ⟨⟩
      exact hok
  | fork source id =>
    unfold World.call
    dsimp only
    split
    · exact h
    · exact h.spawn_plain nofun rfl rfl rfl trivial
  | child parent id isolation =>
    unfold World.call
    dsimp only
    split
    · exact h.spawn_plain nofun rfl rfl rfl trivial
    · exact h
  | delete id =>
    unfold World.call
    dsimp only
    split
    · exact h.spawn_plain nofun rfl rfl rfl trivial
    · exact h

attribute [local simp] step

theorem Consistent.stepLoad (h : s.Consistent) {s' : World root} (hstep : s.step (.load t) = some s') :
    s'.Consistent := by
  unfold step at hstep
  dsimp only at hstep
  split at hstep
  · rename_i source id hj
    split at hstep
    · cases hstep
      cases hsource : s.records.lookup source with
      | none => exact h.ends hj rfl rfl
      | some workspace =>
        refine h.moves hj rfl rfl ?_ rfl rfl rfl trivial
        rintro ws ⟨⟩
        exact h.not_vanishing_record (Lib.mem_of_lookup hsource)
    · cases hstep
  · rename_i parent id isolation hj
    split at hstep
    · cases hstep
      cases hparent : s.records.lookup parent with
      | none => exact h.ends hj rfl rfl
      | some workspace =>
        refine h.moves hj rfl rfl ?_ rfl rfl rfl trivial
        rintro ws ⟨⟩
        exact h.not_vanishing_record (Lib.mem_of_lookup hparent)
    · cases hstep
  · cases hstep

theorem Consistent.stepFail (h : s.Consistent) (hok : s.Allowed (.fail t)) {s' : World root}
    (hstep : s.step (.fail t) = some s') : s'.Consistent := by
  unfold step at hstep
  dsimp only at hstep
  split at hstep
  · cases hstep
  · cases hstep
  · rename_i j hne hj
    cases hstep
    have hmade : s.madeBy t = none := hok
    rw [madeBy, hj] at hmade
    refine h.ends hj hmade ?_
    cases j with
    | removing id dir => exact absurd rfl (hne id dir)
    | _ => rfl

theorem Consistent.stepPlan (h : s.Consistent) {repo : Option Path} {s' : World root}
    (hstep : s.step (.plan t repo) = some s') : s'.Consistent := by
  unfold step at hstep
  dsimp only at hstep
  split at hstep
  · rename_i id workspace worktree hj
    cases hstep
    refine h.moves hj rfl rfl ?_ rfl rfl rfl trivial
    rintro ws ⟨⟩
    exact h.not_vanishing_held (held_of_job hj rfl)
  · cases hstep

/-- A worktree that was not there before is made for the task. -/
theorem Consistent.adds (h : s.Consistent) {plan : WorktreePlan root} {id : ConversationId} {workspace : Path}
    (hj : s.job t = some (.finalizing id workspace (some plan))) (hvanish : ¬ s.Vanishing plan.workspaceDir) :
    (({ s with worktrees := s.worktrees ++ [plan.worktreeRoot] } : World root).setJob t
      (some (.launching id plan.workspaceDir (some plan.worktreeRoot)))).Consistent := by
  have hgoes : s.Goes t (some (.launching id plan.workspaceDir (some plan.worktreeRoot))) := by
    refine ⟨?_, ?_, fun w hw => ?_, rfl, ?_, nofun, ?_⟩
    · rintro ws ⟨⟩
      exact hvanish
    · rintro w ⟨⟩
      exact ⟨plan.workspaceDir, rfl, plan.holds⟩
    · rw [madeBy, hj] at hw
      cases hw
    · rw [doomedBy, hj]
      rfl
    · rintro k ⟨⟩
      trivial
  have hset := h.setJob hgoes (h.lt_nextTask hj)
  refine ⟨hset.keys, hset.fresh, fun w hw => ?_, hset.sections, hset.stands, hset.made, hset.doomed, fun w hw => ?_,
    hset.removals⟩
  · rcases List.mem_append.1 hw with hw | hw
    · exact h.below w hw
    · rw [List.mem_singleton.1 hw]
      exact plan.below
  · rcases List.mem_append.1 hw with hw | hw
    · exact hset.covered w hw
    · rw [List.mem_singleton.1 hw]
      refine .inr (.inl ⟨t, ?_⟩)
      show (Function.update s.job t _ t).bind Job.made = _
      rw [Function.update_self]
      rfl

theorem Consistent.stepCreate (h : s.Consistent) {progress : Progress} (hok : s.Allowed (.create t progress))
    {s' : World root} (hstep : s.step (.create t progress) = some s') : s'.Consistent := by
  unfold step at hstep
  dsimp only at hstep
  split at hstep
  · rename_i id workspace hj
    cases hstep
    refine h.moves hj rfl rfl ?_ rfl rfl rfl trivial
    rintro ws ⟨⟩
    exact h.not_vanishing_held (held_of_job hj rfl)
  · rename_i id workspace plan hj
    cases hstep
    have hplan : plan ∈ (s.job t).bind Job.plan := by
      rw [hj]
      rfl
    rcases hok plan hplan with rfl | ⟨hnew, hadded, hvanish⟩
    · exact h.ends hj rfl rfl
    · cases progress with
      | mkdir => exact h.ends hj rfl rfl
      | removed =>
        simp only [createConversationWorktree, if_neg hnew]
        exact h.ends hj rfl rfl
      | added => exact absurd rfl hadded
      | done =>
        simp only [createConversationWorktree, if_neg hnew]
        exact h.adds hj hvanish
  · cases hstep

theorem Consistent.stepEnter (h : s.Consistent) (hok : s.Allowed (.enter t)) {s' : World root}
    (hstep : s.step (.enter t) = some s') : s'.Consistent := by
  unfold step at hstep
  dsimp only at hstep
  split at hstep
  · rename_i id workspace made hj
    split at hstep
    · rename_i hfree
      cases hstep
      by_cases hknown : s.Known id
      · rw [if_pos hknown]
        exact h.ends hj (hok _ hj hknown) rfl
      · rw [if_neg hknown]
        refine h.setJob ⟨?_, ?_, fun w hw => ?_, rfl, ?_, ?_, ?_⟩ (h.lt_nextTask hj)
        · rintro ws ⟨⟩
          exact h.not_vanishing_held (held_of_job hj rfl)
        · intro w hw
          obtain ⟨ws, hws, hin⟩ := h.made t w (by rw [madeBy, hj]; exact hw)
          rw [held_of_job hj rfl] at hws
          exact ⟨ws, hws, hin⟩
        · rwa [madeBy, hj] at hw
        · rw [doomedBy, hj]
          rfl
        · rintro c ⟨⟩
          exact hfree
        · rintro k ⟨⟩
          exact hknown
    · cases hstep
  · rename_i id hj
    split at hstep
    · rename_i hfree
      cases hstep
      cases hrecord : s.records.lookup id with
      | none => exact h.ends hj rfl rfl
      | some workspace =>
        refine h.setJob ⟨nofun, nofun, fun w hw => ?_, rfl, ?_, ?_, ?_⟩ (h.lt_nextTask hj)
        · rw [madeBy, hj] at hw
          cases hw
        · rw [doomedBy, hj]
          rfl
        · rintro c ⟨⟩
          exact hfree
        · rintro k ⟨⟩
          exact Lib.mem_of_lookup hrecord
    · cases hstep
  · cases hstep

/-- What another section says about its conversation does not change with this one. -/
theorem Stands.frame {s s' : World root} {j : Job root} {id : ConversationId} (hj : s.Stands j)
    (hother : j.inside ≠ some id) (hsame : ∀ c ws, c ≠ id → ((c, ws) ∈ s'.records ↔ (c, ws) ∈ s.records)) :
    s'.Stands j := by
  cases j with
  | starting c ws made =>
    intro hknown
    obtain ⟨⟨k, v⟩, hmem, rfl⟩ := List.mem_map.1 hknown
    have hold := (hsame k v fun heq => hother (congrArg some heq)).1 hmem
    exact hj (List.mem_map_of_mem (f := Prod.fst) hold)
  | closing c ws => exact (hsame c ws fun heq => hother (congrArg some heq)).2 hj
  | _ => trivial

/-- A step of the task in the section of `id` that changes the entry of `id` only. -/
theorem Consistent.stands_of_section (h : s.Consistent) {s' : World root} {j : Option (Job root)} {id : ConversationId}
    (hjob : s'.job = Function.update s.job t j) (hin : s.insideOf t = some id) (hnew : ∀ k, j = some k → s'.Stands k)
    (hsame : ∀ c ws, c ≠ id → ((c, ws) ∈ s'.records ↔ (c, ws) ∈ s.records)) :
    ∀ u k, s'.job u = some k → s'.Stands k := by
  intro u k hk
  rw [hjob] at hk
  by_cases hu : u = t
  · rw [hu, Function.update_self] at hk
    exact hnew k hk
  · rw [Function.update_of_ne hu] at hk
    refine (h.stands u k hk).frame (fun hku => hu (h.sections u t id ?_ hin)) hsame
    rw [insideOf, hk]
    exact hku

theorem Consistent.stepCommit (h : s.Consistent) {s' : World root} (hstep : s.step (.commit t) = some s') :
    s'.Consistent := by
  unfold step at hstep
  dsimp only at hstep
  split at hstep
  · rename_i id workspace made hj
    cases hstep
    have hheld : s.heldBy t = some workspace := held_of_job hj rfl
    have hin : s.insideOf t = some id := by
      rw [insideOf, hj]
      rfl
    have hnew : ¬ s.Known id := h.stands t _ hj
    have hrecords : ∀ c ws, c ≠ id → ((c, ws) ∈ dictSet s.records id workspace ↔ (c, ws) ∈ s.records) := by
      intro c ws hc
      rw [mem_dictSet_iff]
      exact ⟨fun hor => hor.elim (fun heq => absurd heq.1 hc) And.right, fun hmem => .inr ⟨hc, hmem⟩⟩
    refine h.evolve (t := t) (j := none) ⟨rfl, Nat.le_refl _, h.lt_nextTask hj, nofun, nofun, nofun, nofun,
      fun r hr => ?_, nodup_dictSet id workspace h.keys, h.below, h.stands_of_section rfl hin nofun hrecords,
      fun w hw => ?_, h.removals⟩
    · rcases mem_dictSet hr with rfl | hr
      · exact h.not_vanishing_held hheld
      · exact h.not_vanishing_record hr
    · rcases h.covered w hw with ⟨r, hr, hinr⟩ | ⟨u, hu⟩ | ⟨u, dir, hu, hind⟩
      · refine .inl ⟨r, (hrecords r.1 r.2 fun heq => hnew ?_).2 hr, hinr⟩
        exact heq ▸ List.mem_map_of_mem (f := Prod.fst) hr
      · by_cases hut : u = t
        · -- The conversation takes over the worktree that was made for it.
          subst hut
          obtain ⟨ws, hws, hinw⟩ := h.made u w hu
          obtain rfl : workspace = ws := Option.some.inj (hheld.symm.trans hws)
          exact .inl ⟨(id, workspace), mem_dictSet_iff.2 (.inl ⟨rfl, rfl⟩), hinw⟩
        · refine .inr (.inl ⟨u, ?_⟩)
          show (Function.update s.job t none u).bind Job.made = some w
          rw [bind_update, if_neg hut]
          exact hu
      · exact .inr (.inr ⟨u, dir, bind_of_update rfl (by rw [hj]; rfl) hu, hind⟩)
  · cases hstep

theorem mem_creating {u : TaskId} {ws dir : Path} (hu : u < s.nextTask) (hws : s.heldBy u = some ws) (hin : dir <+: ws) :
    u ∈ s.creating dir := by
  rw [creating, List.mem_filter, List.mem_range]
  refine ⟨hu, ?_⟩
  rw [hws]
  exact decide_eq_true hin

theorem Consistent.creating_nil (h : s.Consistent) {dir : Path} (hdir : s.creating dir = []) {u : TaskId} {ws : Path}
    (hws : s.heldBy u = some ws) : ¬ dir <+: ws := by
  intro hin
  obtain ⟨j, hj, -⟩ := Option.bind_eq_some_iff.1 hws
  have hmem := mem_creating (h.lt_nextTask hj) hws hin
  rw [hdir] at hmem
  cases hmem

theorem mem_pop {id c : ConversationId} {ws : Path} : (c, ws) ∈ (s.pop id).records ↔ (c, ws) ∈ s.records ∧ c ≠ id := by
  show (c, ws) ∈ s.records.filter (fun r => r.1 ≠ id) ↔ _
  rw [List.mem_filter]
  simp

theorem Consistent.stepClosed (h : s.Consistent) (hok : s.Allowed (.closed t)) {s' : World root}
    (hstep : s.step (.closed t) = some s') : s'.Consistent := by
  unfold step at hstep
  unfold Allowed at hok
  dsimp only at hstep hok
  split at hstep
  · rename_i id workspace hj
    cases hstep
    have hdeletable : s.Deletable id workspace := by
      rw [hj] at hok
      exact hok
    unfold Deletable at hdeletable
    have hin : s.insideOf t = some id := by
      rw [insideOf, hj]
      rfl
    have hother : ∀ u, u ≠ t → s.insideOf u ≠ some id := fun u hne hu => hne (h.sections u t id hu hin)
    have hrecord : (id, workspace) ∈ s.records := h.stands t _ hj
    have hrecords : ∀ c ws, c ≠ id → ((c, ws) ∈ (s.pop id).records ↔ (c, ws) ∈ s.records) := by
      intro c ws hc
      rw [mem_pop]
      exact and_iff_left hc
    have hvanish : ∀ r ∈ (s.pop id).records, ¬ s.Vanishing r.2 :=
      fun r hr => h.not_vanishing_record (List.mem_filter.1 hr).1
    -- What covered a worktree still does, unless it was the deleted conversation.
    have hcovered : ∀ j : Option (Job root), ∀ w ∈ s.worktrees, w <+: workspace ∨
        (∃ r ∈ (s.pop id).records, w <+: r.2) ∨ (∃ u, ((s.pop id).setJob t j).madeBy u = some w) ∨
        ∃ u dir, ((s.pop id).setJob t j).doomedBy u = some dir ∧ dir <+: w := by
      intro j w hw
      rcases h.covered w hw with ⟨r, hr, hinr⟩ | ⟨u, hu⟩ | ⟨u, dir, hu, hind⟩
      · by_cases hrid : r.1 = id
        · have hws : r.2 = workspace := value_unique h.keys (k := id) (hrid ▸ hr) hrecord
          exact .inl (hws ▸ hinr)
        · exact .inr (.inl ⟨r, (hrecords r.1 r.2 hrid).2 hr, hinr⟩)
      · exact .inr (.inr (.inl ⟨u, bind_of_update (s := s) rfl (by rw [hj]; rfl) hu⟩))
      · exact .inr (.inr (.inr ⟨u, dir, bind_of_update (s := s) rfl (by rw [hj]; rfl) hu, hind⟩))
    cases hdir : (s.pop id).removalDir workspace with
    | none =>
      rw [hdir] at hdeletable
      refine h.evolve (t := t) (j := none) ⟨rfl, Nat.le_refl _, h.lt_nextTask hj, nofun, nofun, nofun, nofun, hvanish,
        nodup_filter_keys _ h.keys, h.below, h.stands_of_section rfl hin nofun hrecords, fun w hw => ?_, h.removals⟩
      rcases hcovered none w hw with hws | hcov
      · exact .inl (hdeletable w hw hws)
      · exact hcov
    | some dir =>
      rw [hdir] at hdeletable
      obtain ⟨hworktree, hunused⟩ := removalDir_eq_some hdir
      refine h.evolve (t := t) (j := some (.removing id dir)) ⟨rfl, Nat.le_refl _, h.lt_nextTask hj, nofun, nofun, ?_,
        ?_, hvanish, nodup_filter_keys _ h.keys, h.below, h.stands_of_section rfl hin ?_ hrecords, fun w hw => ?_,
        h.removals⟩
      · rintro c ⟨⟩
        exact hother
      · rintro d ⟨⟩
        exact ⟨hunused, fun u _ ws hws => h.creating_nil hdeletable hws⟩
      · rintro k ⟨⟩
        trivial
      · rcases hcovered (some (.removing id dir)) w hw with hws | hcov
        · refine .inr (.inr ⟨t, dir, ?_, ?_⟩)
          · show (Function.update s.job t _ t).bind Job.doomed = some dir
            rw [Function.update_self]
            rfl
          · -- Both are the directory below the root on the way to the workspace.
            obtain ⟨part, hpart⟩ := h.below w hw
            have hsame := conversationWorktreeDir_eq (hpart.trans hws)
            obtain rfl : root ++ [part] = dir := Option.some.inj (hsame.symm.trans hworktree)
            exact hpart
        · exact hcov
  · cases hstep

theorem Consistent.stepRemoved (h : s.Consistent) {ok : Bool} (hok : s.Allowed (.removed t ok)) {s' : World root}
    (hstep : s.step (.removed t ok) = some s') : s'.Consistent := by
  obtain rfl : ok = true := hok
  unfold step at hstep
  dsimp only at hstep
  split at hstep
  · rename_i id dir hj
    cases hstep
    have hdoomed : s.doomedBy t = some dir := by
      rw [doomedBy, hj]
      rfl
    obtain ⟨hrecords, hheld⟩ := h.doomed t dir hdoomed
    have hinUse : s.inUse dir = [] := by
      rw [inUse, List.map_eq_nil_iff, List.filter_eq_nil_iff]
      exact fun r hr hin => hrecords r hr (of_decide_eq_true hin)
    have hcreating : s.creating dir = [] := by
      rw [creating, List.filter_eq_nil_iff]
      intro u _ hu
      obtain ⟨ws, hws, hin⟩ := (Option.any_eq_true _ _).1 hu
      exact hheld u ws hws (of_decide_eq_true hin)
    refine h.evolve (t := t) (j := none) ⟨rfl, Nat.le_refl _, h.lt_nextTask hj, nofun, nofun, nofun, nofun,
      fun r => h.not_vanishing_record, h.keys, fun w hw => h.below w (List.mem_filter.1 hw).1, fun u k hk => ?_,
      fun w hw => ?_, fun r hr => ?_⟩
    · have hk' : Function.update s.job t none u = some k := hk
      by_cases hu : u = t
      · rw [hu, Function.update_self] at hk'
        cases hk'
      · rw [Function.update_of_ne hu] at hk'
        exact h.stands u k hk'
    · obtain ⟨hw, hstays⟩ := List.mem_filter.1 hw
      have hout : ¬ dir <+: w := of_decide_eq_true hstays
      rcases h.covered w hw with hr | ⟨u, hu⟩ | ⟨u, d, hu, hind⟩
      · exact .inl hr
      · exact .inr (.inl ⟨u, bind_of_update (s := s) rfl (by rw [hj]; rfl) hu⟩)
      · refine .inr (.inr ⟨u, d, ?_, hind⟩)
        show (Function.update s.job t none u).bind Job.doomed = some d
        rw [bind_update, if_neg]
        · exact hu
        · rintro rfl
          rw [hdoomed] at hu
          cases hu
          exact hout hind
    · rcases List.mem_append.1 hr with hr | hr
      · exact h.removals r hr
      · rw [List.mem_singleton.1 hr]
        exact ⟨hinUse, hcreating⟩
  · cases hstep

end

theorem Consistent.step {s s' : World root} (h : s.Consistent) (a : Action) (hok : s.Allowed a)
    (hstep : s.step a = some s') : s'.Consistent := by
  cases a with
  | call request =>
    cases hstep
    exact h.call hok
  | load t => exact h.stepLoad hstep
  | fail t => exact h.stepFail hok hstep
  | plan t repo => exact h.stepPlan hstep
  | create t progress => exact h.stepCreate hok hstep
  | enter t => exact h.stepEnter hok hstep
  | commit t => exact h.stepCommit hstep
  | closed t => exact h.stepClosed hok hstep
  | removed t ok => exact h.stepRemoved hok hstep

theorem consistent_initial (root : Path) (records : List (ConversationId × Path)) :
    (initial root records).Consistent where
  keys := nodup_dictOf records
  fresh _ _ := rfl
  below := nofun
  sections := nofun
  stands := nofun
  made := nofun
  doomed := nofun
  covered := nofun
  removals := nofun

/-- In every run in which deletions and creations keep out of each other's
directories, worktrees are removed only when unused, and none is left over. -/
theorem worktrees_of_reaches {records : List (ConversationId × Path)} {s : World root}
    (h : Reaches step Allowed (initial root records) s) : s.Sound := by
  have hcons : s.Consistent :=
    h.invariant (consistent_initial root records) fun _ a _ hs hok ht => hs.step a hok ht
  exact hcons.sound

/-! ## Runs with and without a lost worktree -/

/-- A start of conversation 1 in a worktree of its own, as task 0. -/
def startActions : List Action :=
  [.call (.start 1 ["src", "pkg"] true), .plan 0 (some ["src"]), .create 0 .done, .enter 0, .commit 0]

/-- A fork, a child that shares, and a child in its own worktree; the shared child fails
and source and fork are deleted. -/
def sharedActions : List Action :=
  startActions ++
    [.call (.fork 1 2), .load 1, .enter 1, .commit 1,
      .call (.child 1 3 .worktree), .load 2, .plan 2 (some ["wt", "1", "src"]), .create 2 .done,
      .call (.child 1 4 .shared), .load 3, .plan 3 none, .create 3 .done, .fail 3, .enter 2, .commit 2,
      .call (.delete 1), .enter 4, .closed 4, .call (.delete 2), .enter 5, .closed 5, .removed 5 true]

theorem worktrees_of_reaches_shared :
    ∃ s, execAllowed step Allowed (initial ["wt"] []) sharedActions = some s ∧ s.Sound ∧
      s.worktrees = [["wt", "3", "src"]] ∧ s.removals.map Removal.dir = [["wt", "1"]] := by
  have hrun : (execAllowed step Allowed (initial ["wt"] []) sharedActions).map
      (fun s => (s.worktrees, s.removals.map Removal.dir)) = some ([["wt", "3", "src"]], [["wt", "1"]]) := by
    decide +kernel
  obtain ⟨s, hs, hval⟩ := Option.map_eq_some_iff.1 hrun
  simp only [Prod.mk.injEq] at hval
  exact ⟨s, hs, worktrees_of_reaches (reaches_of_execAllowed .init hs), hval⟩

/-- The source of a fork is deleted while the fork starts: the deletion asks the
catalog only, and removes the worktree under the fork. -/
theorem fork_without_worktree :
    ¬ ∀ s, Reaches step (fun _ _ => True) (initial ["wt"] []) s → s.Sound := by
  intro hall
  have hrun : (exec step (initial ["wt"] []) (startActions ++
      [.call (.fork 1 2), .load 1, .enter 1, .call (.delete 1), .enter 2, .closed 2, .removed 2 true, .commit 1])).map
      (fun s => (s.removals.map fun r => (r.dir, r.creating), s.succeeded)) =
      some ([(["wt", "1"], [1])], [(0, ["wt", "1", "src", "pkg"]), (1, ["wt", "1", "src", "pkg"])]) := by
    decide +kernel
  obtain ⟨s, hs, hval⟩ := Option.map_eq_some_iff.1 hrun
  simp only [Prod.mk.injEq] at hval
  obtain ⟨hremovals, hsucceeded⟩ := hval
  have hsound := (hall s (reaches_of_exec .init hs)).removals
  obtain ⟨r, hr, hval⟩ := List.map_eq_singleton_iff.1 hremovals
  rw [Prod.mk.injEq] at hval
  obtain ⟨hdir, hcreating⟩ := hval
  have hone := (hsound r (by rw [hr]; exact List.mem_singleton_self r)).2 1 (by rw [hcreating]; simp)
    ["wt", "1", "src", "pkg"] (by rw [hsucceeded]; simp)
  rw [hdir] at hone
  exact hone (by decide)

end World

end AgentSdk.ConversationService.Worktrees
