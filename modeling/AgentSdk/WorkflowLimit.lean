import AgentSdk.Workflow
/-!
# The limit of a workflow

How many sub-agents a script may have running at one moment. The tasks of a map
with a limit of its own take no permit of the shared semaphore, so that what
runs beside such a map comes on top of it.
-/

namespace AgentSdk.Workflow

variable {V : Type} {max : Nat}

/-! ## What a script may ask for -/

def Item.isPending : Item V → Bool
  | .done _ => false
  | _ => true

/-- The permits that the tasks of a map may hold at one moment: shared ones, and of its own. -/
def mapDemand (own : Option (Limit max)) (items : List (Item V)) : Nat × Nat :=
  match own with
  | none => (items.countP Item.isPending, 0)
  | some limit => (0, min limit.count (items.countP Item.isPending))

mutual

/-- The permits that the calls under way at one moment may hold together: shared ones, and of maps
with limits of their own. The calls of one script come one after another, the chains of a
pipeline side by side. -/
def Script.Demands (o : Outcomes V) : Address → Script V max → Nat × Nat → Prop
  | _, .ret _, d => d = (0, 0)
  | _, .fail _, d => d = (0, 0)
  | a, .runAgent task k, d => d = (1, 0) ∨ Script.Demands o a.next (k (o a task)) d
  | a, .mapAgents own tasks k, d =>
    d = mapDemand own (tasks.map (Item.start (V := V))) ∨
      Script.Demands o a.next (k (mapResults (taskResults o a tasks))) d
  | a, .pipeline chains k, d =>
    Script.DemandsAll o a 0 chains d ∨ Script.Demands o a.next (k (evalChains o a 0 chains)) d

def Script.DemandsAll (o : Outcomes V) : Address → Nat → List (Script V max) → Nat × Nat → Prop
  | _, _, [], d => d = (0, 0)
  | a, i, chain :: chains, d =>
    ∃ x y, Script.Demands o (0 :: i :: a) chain x ∧ Script.DemandsAll o a (i + 1) chains y ∧ d = x + y

end

mutual

/-- The same of a coroutine, from where it stands. -/
def Run.Demands (o : Outcomes V) : Run V max → Nat × Nat → Prop
  | .script a p, d => p.Demands o a d
  | .agent a task k, d => d = (1, 0) ∨ (k (o a task)).Demands o a.next d
  | .mapping a own items k, d =>
    d = mapDemand (own.map Prod.fst) items ∨
      (k (mapResults (items.mapIdx fun i item => item.outcome o a i))).Demands o a.next d
  | .chains a children k, d => Run.DemandsAll o children d ∨ (k (Run.values o children)).Demands o a.next d

def Run.DemandsAll (o : Outcomes V) : List (Run V max) → Nat × Nat → Prop
  | [], d => d = (0, 0)
  | r :: rs, d => ∃ x y, Run.Demands o r x ∧ Run.DemandsAll o rs y ∧ d = x + y

end

mutual

/-- The sub-agents that run under a permit of a map's own. -/
def Run.own : Run V max → Nat
  | .script _ _ => 0
  | .agent _ _ _ => 0
  | .mapping _ none _ _ => 0
  | .mapping _ (some _) items _ => items.countP Item.isRunning
  | .chains _ children _ => Run.ownAll children

def Run.ownAll : List (Run V max) → Nat
  | [] => 0
  | r :: rs => r.own + Run.ownAll rs

end

mutual

theorem Run.running_eq : ∀ r : Run V max, r.running = r.shared + r.own
  | .script _ _ => rfl
  | .agent _ _ _ => rfl
  | .mapping _ none _ _ => rfl
  | .mapping _ (some _) _ _ => (Nat.zero_add _).symm
  | .chains _ children _ => Run.runningAll_split children

theorem Run.runningAll_split : ∀ rs : List (Run V max), Run.runningAll rs = Run.sharedAll rs + Run.ownAll rs
  | [] => rfl
  | r :: rs => by
    rw [Run.runningAll, Run.sharedAll, Run.ownAll, Run.running_eq r, Run.runningAll_split rs]
    omega

end

variable {o : Outcomes V} {s s' : Nat} {r r' : Run V max} {a : Address}

/-! ## Steps ask for no more -/

theorem mapDemand_mono {own : Option (Limit max)} {items items' : List (Item V)}
    (h : items.countP Item.isPending ≤ items'.countP Item.isPending) : mapDemand own items ≤ mapDemand own items' := by
  cases own with
  | none => exact ⟨h, Nat.le_refl 0⟩
  | some limit => exact ⟨Nat.le_refl 0, min_le_min_left _ h⟩

theorem demandsAll_start (scripts : List (Script V max)) (i : Nat) (d : Nat × Nat) :
    Run.DemandsAll o (scripts.mapIdx fun j p => .script (0 :: (j + i) :: a) p) d ↔ Script.DemandsAll o a i scripts d := by
  induction scripts generalizing i d with
  | nil => exact .rfl
  | cons p scripts ih =>
    rw [start_cons]
    simp only [Run.DemandsAll, Script.DemandsAll, ih, Run.Demands]

theorem demandsAll_replace {c c' : Run V max} (h : ∀ d', c'.Demands o d' → ∃ d, c.Demands o d ∧ d' ≤ d)
    (pre post : List (Run V max)) {d' : Nat × Nat} (hd : Run.DemandsAll o (pre ++ c' :: post) d') :
    ∃ d, Run.DemandsAll o (pre ++ c :: post) d ∧ d' ≤ d := by
  induction pre generalizing d' with
  | nil =>
    obtain ⟨x, y, hx, hy, rfl⟩ := hd
    obtain ⟨z, hz, hle⟩ := h x hx
    exact ⟨z + y, ⟨z, y, hz, hy, rfl⟩, add_le_add_left hle y⟩
  | cons r pre ih =>
    obtain ⟨x, y, hx, hy, rfl⟩ := hd
    obtain ⟨z, hz, hle⟩ := ih hy
    exact ⟨x + z, ⟨x, z, hx, hz, rfl⟩, add_le_add_right hle x⟩

/-- A task of a map goes on: its result stays what it will be, and no more of them are pending. -/
theorem demands_replace {own own' : Option (Limit max × Nat)} {pre post : List (Item V)} {x y : Item V}
    {k : Except WorkflowError (List V) → Script V max} {d' : Nat × Nat}
    (h : (Run.mapping a own' (pre ++ y :: post) k).Demands o d') (hown : own'.map Prod.fst = own.map Prod.fst)
    (houtcome : y.outcome o a pre.length = x.outcome o a pre.length) (hpending : y.isPending = true → x.isPending = true) :
    ∃ d, (Run.mapping a own (pre ++ x :: post) k).Demands o d ∧ d' ≤ d := by
  rcases h with rfl | h
  · refine ⟨_, .inl rfl, ?_⟩
    rw [hown]
    refine mapDemand_mono ?_
    simp only [List.countP_append, List.countP_cons]
    split
    · rename_i hy
      rw [if_pos (hpending hy)]
    · omega
  · rw [outcomes_replace houtcome] at h
    exact ⟨d', .inr h, le_rfl⟩

/-- What may be asked for after a step could be asked for before. -/
theorem Step.demands (h : Step o s r s' r') : ∀ d', r'.Demands o d' → ∃ d, r.Demands o d ∧ d' ≤ d := by
  induction h with
  | acquire => exact fun d' hd => ⟨d', hd, le_rfl⟩
  | release => exact fun d' hd => ⟨d', .inr hd, le_rfl⟩
  | @startMap s a own tasks k =>
    rintro d' (rfl | hd)
    · refine ⟨_, .inl rfl, ?_⟩
      rw [Option.map_map]
      exact le_of_eq (congrArg (mapDemand · _) (by cases own <;> rfl))
    · rw [start_outcomes] at hd
      exact ⟨d', .inr hd, le_rfl⟩
  | acquireShared => exact fun d' hd => demands_replace hd rfl rfl fun _ => rfl
  | releaseShared => exact fun d' hd => demands_replace hd rfl rfl fun _ => rfl
  | acquireOwn => exact fun d' hd => demands_replace hd rfl rfl fun _ => rfl
  | releaseOwn => exact fun d' hd => demands_replace hd rfl rfl fun _ => rfl
  | endMap hdone =>
    intro d' hd
    refine ⟨d', .inr ?_, le_rfl⟩
    rw [done_of_result hdone, done_outcomes]
    exact hd
  | @startPipeline s a scripts k =>
    rintro d' (hd | hd)
    · exact ⟨d', .inl ((demandsAll_start scripts 0 d').1 hd), le_rfl⟩
    · refine ⟨d', .inr ?_, le_rfl⟩
      rw [← values_start scripts 0]
      exact hd
  | @inChain s s' a pre c c' post k hstep ih =>
    rintro d' (hd | hd)
    · obtain ⟨d, hd, hle⟩ := demandsAll_replace ih pre post hd
      exact ⟨d, .inl hd, hle⟩
    · refine ⟨d', .inr ?_, le_rfl⟩
      have hvalues : Run.values o (pre ++ c :: post) = Run.values o (pre ++ c' :: post) := by
        simp only [values_eq, List.map_append, List.map_cons, hstep.value]
      rw [hvalues]
      exact hd
  | endPipeline hdone =>
    intro d' hd
    refine ⟨d', .inr ?_, le_rfl⟩
    rw [values_of_finished hdone]
    exact hd

mutual

theorem Script.demands_some (o : Outcomes V) : ∀ (a : Address) (p : Script V max), ∃ d, p.Demands o a d
  | _, .ret _ => ⟨_, rfl⟩
  | _, .fail _ => ⟨_, rfl⟩
  | _, .runAgent _ _ => ⟨_, .inl rfl⟩
  | _, .mapAgents _ _ _ => ⟨_, .inl rfl⟩
  | a, .pipeline chains _ => by
    obtain ⟨d, hd⟩ := Script.demandsAll_some o a 0 chains
    exact ⟨d, .inl hd⟩

theorem Script.demandsAll_some (o : Outcomes V) : ∀ (a : Address) (i : Nat) (chains : List (Script V max)),
    ∃ d, Script.DemandsAll o a i chains d
  | _, _, [] => ⟨_, rfl⟩
  | a, i, chain :: chains => by
    obtain ⟨x, hx⟩ := Script.demands_some o (0 :: i :: a) chain
    obtain ⟨y, hy⟩ := Script.demandsAll_some o a (i + 1) chains
    exact ⟨x + y, x, y, hx, hy, rfl⟩

end

theorem running_le_pending (items : List (Item V)) : items.countP Item.isRunning ≤ items.countP Item.isPending := by
  refine List.countP_mono_left fun item _ h => ?_
  cases item with
  | waiting task => rfl
  | running task => rfl
  | done result => cases h

mutual

/-- The permits in use are among those that may be asked for. -/
theorem Run.held (o : Outcomes V) : ∀ r : Run V max, r.Within → ∃ d, r.Demands o d ∧ (r.shared, r.own) ≤ d
  | .script a p, _ => by
    obtain ⟨d, hd⟩ := p.demands_some o a
    exact ⟨d, hd, Nat.zero_le _, Nat.zero_le _⟩
  | .agent a task k, _ => ⟨_, .inl rfl, le_rfl⟩
  | .mapping a none items k, _ => ⟨_, .inl rfl, running_le_pending items, Nat.le_refl 0⟩
  | .mapping a (some (limit, free)) items k, h => by
    refine ⟨_, .inl rfl, Nat.le_refl 0, le_min ?_ (running_le_pending items)⟩
    cases h with
    | own h => exact h ▸ Nat.le_add_left _ _
  | .chains a children k, h => by
    have hchildren : ∀ c ∈ children, c.Within := by
      cases h with
      | chains h => exact h
    obtain ⟨d, hd, hle⟩ := Run.heldAll o children hchildren
    exact ⟨d, .inl hd, hle⟩

theorem Run.heldAll (o : Outcomes V) : ∀ rs : List (Run V max), (∀ r ∈ rs, r.Within) →
    ∃ d, Run.DemandsAll o rs d ∧ (Run.sharedAll rs, Run.ownAll rs) ≤ d
  | [], _ => ⟨_, rfl, le_rfl⟩
  | r :: rs, h => by
    obtain ⟨x, hx, hle⟩ := Run.held o r (h r List.mem_cons_self)
    obtain ⟨y, hy, hle'⟩ := Run.heldAll o rs fun c hc => h c (List.mem_cons_of_mem _ hc)
    exact ⟨x + y, ⟨x, y, hx, hy, rfl⟩, add_le_add hle hle'⟩

end

theorem demands_of_reachable {p : Script V max} (h : Reachable o p s r) :
    ∀ d', r.Demands o d' → ∃ d, p.Demands o [0] d ∧ d' ≤ d := by
  have hall : ∀ y : Nat × Run V max, Steps o (max, .script [0] p) y →
      ∀ d', y.2.Demands o d' → ∃ d, p.Demands o [0] d ∧ d' ≤ d := by
    intro y hy
    induction hy with
    | refl => exact fun d' hd => ⟨d', hd, le_rfl⟩
    | tail _ hstep ih =>
      intro d' hd
      obtain ⟨d₁, hd₁, hle₁⟩ := hstep.demands d' hd
      obtain ⟨d, hd, hle⟩ := ih d₁ hd₁
      exact ⟨d, hd, hle₁.trans hle⟩
  exact hall _ h

/-! ## What may be asked for is got -/

/-- A coroutine behind the call that it awaits. -/
def Run.after (o : Outcomes V) : Run V max → Run V max
  | .script a p => .script a p
  | .agent a task k => .script a.next (k (o a task))
  | .mapping a _ items k => .script a.next (k (mapResults (items.mapIdx fun i item => item.outcome o a i)))
  | .chains a children k => .script a.next (k (Run.values o children))

def Run.isScript : Run V max → Bool
  | .script _ _ => true
  | _ => false

theorem after_replace {own own' : Option (Limit max × Nat)} {pre post : List (Item V)} {x y : Item V}
    {k : Except WorkflowError (List V) → Script V max} (h : x.outcome o a pre.length = y.outcome o a pre.length) :
    (Run.mapping a own (pre ++ x :: post) k).after o = (Run.mapping a own' (pre ++ y :: post) k).after o := by
  simp only [Run.after, outcomes_replace h]

/-- The steps of a call do not change what follows it. -/
theorem Step.after (h : Step o s r s' r') (hr : r.isScript = false) : r'.after o = r.after o := by
  cases h with
  | acquire => cases hr
  | release => rfl
  | startMap => cases hr
  | acquireShared => exact after_replace rfl
  | releaseShared => exact after_replace rfl
  | acquireOwn => exact after_replace rfl
  | releaseOwn => exact after_replace rfl
  | endMap hdone => simp only [Run.after, done_of_result hdone, done_outcomes]
  | startPipeline => cases hr
  | inChain h => simp only [Run.after, values_eq, List.map_append, List.map_cons, h.value]
  | endPipeline hdone => simp only [Run.after, values_of_finished hdone]

/-- With a permit, a call can be brought to its end. -/
theorem call_ends {n : Nat} (h : Acc (Later o) r) (hn : n + r.shared = s + 1) (hr : r.Within) :
    Steps o (n, r) (s + 1, r.after o) := by
  induction h generalizing n with
  | intro r _ ih =>
    cases hscript : r.isScript with
    | true =>
      cases r with
      | script a p =>
        cases hn
        exact .refl
      | agent a task k => cases hscript
      | mapping a own items k => cases hscript
      | chains a children k => cases hscript
    | false =>
      have hstep : ∃ n' r', Step o n r n' r' := by
        by_cases hshared : 0 < r.shared
        · exact Run.release o n r hshared
        obtain rfl : n = s + 1 := by omega
        refine (Run.progress o s r hr).resolve_left ?_
        rintro ⟨x, hx⟩
        cases r with
        | script a p => cases hscript
        | agent a task k => cases hx
        | mapping a own items k => cases hx
        | chains a children k => cases hx
      obtain ⟨n', r', hstep⟩ := hstep
      rw [← hstep.after hscript]
      exact .more hstep (ih r' ⟨n, n', hstep⟩ (hstep.permits.trans hn) (hstep.within hr))

/-- Tasks that wait get the permits that there are; `f` is the map with so many free ones. -/
theorem fill {f : Nat → List (Item V) → Nat × Run V max}
    (hstep : ∀ n pre task post, Step o (f (n + 1) (pre ++ .waiting task :: post)).1
      (f (n + 1) (pre ++ .waiting task :: post)).2 (f n (pre ++ .running task :: post)).1
      (f n (pre ++ .running task :: post)).2)
    (items : List (Item V)) (m n : Nat) (pre : List (Item V))
    (hm : items.countP Item.isRunning + m ≤ items.countP Item.isPending) :
    ∃ items', Steps o (f (n + m) (pre ++ items)) (f n (pre ++ items')) ∧
      items'.countP Item.isRunning = items.countP Item.isRunning + m := by
  induction items generalizing m pre with
  | nil =>
    obtain rfl : m = 0 := by simpa using hm
    exact ⟨[], .refl, rfl⟩
  | cons item items ih =>
    have hcons : ∀ (x : Item V) m, items.countP Item.isRunning + m ≤ items.countP Item.isPending →
        ∃ items', Steps o (f (n + m) (pre ++ x :: items)) (f n (pre ++ x :: items')) ∧
          items'.countP Item.isRunning = items.countP Item.isRunning + m := by
      intro x m hm
      obtain ⟨items', hsteps, hcount⟩ := ih m (pre ++ [x]) hm
      rw [List.append_assoc, List.append_assoc, List.singleton_append, List.singleton_append] at hsteps
      exact ⟨items', hsteps, hcount⟩
    cases item with
    | waiting task =>
      cases m with
      | zero => exact ⟨_, .refl, rfl⟩
      | succ m =>
        rw [countP_waiting, List.countP_cons_of_pos rfl] at hm
        obtain ⟨items', hsteps, hcount⟩ := hcons (.running task) m (by omega)
        refine ⟨.running task :: items', .more (hstep _ _ _ _) hsteps, ?_⟩
        rw [countP_running, countP_waiting, hcount]
        omega
    | running task =>
      rw [countP_running, List.countP_cons_of_pos rfl] at hm
      obtain ⟨items', hsteps, hcount⟩ := hcons (.running task) m (by omega)
      refine ⟨.running task :: items', hsteps, ?_⟩
      rw [countP_running, countP_running, hcount]
      omega
    | done result =>
      rw [countP_ended, List.countP_cons_of_neg Bool.false_ne_true] at hm
      obtain ⟨items', hsteps, hcount⟩ := hcons (.done result) m hm
      exact ⟨.done result :: items', hsteps, by rw [countP_ended, countP_ended, hcount]⟩

/-- A coroutine that can take up to `n` shared permits, and keeps those of its maps. -/
def Run.Offers (o : Outcomes V) (r : Run V max) (n : Nat) : Prop :=
  ∀ m ≤ n, ∀ s, ∃ r', Steps o (s + m, r) (s, r') ∧ r'.shared = m ∧ r'.own = r.own

def OffersAll (o : Outcomes V) (rs : List (Run V max)) (n : Nat) : Prop :=
  ∀ (a : Address) (k : List (Option V) → Script V max) (pre : List (Run V max)), ∀ m ≤ n, ∀ s, ∃ rs',
    Steps o (s + m, .chains a (pre ++ rs) k) (s, .chains a (pre ++ rs') k) ∧ Run.sharedAll rs' = m ∧
      Run.ownAll rs' = Run.ownAll rs

theorem offers_none (h : r.shared = 0) : r.Offers o 0 := by
  intro m hm s
  obtain rfl : m = 0 := Nat.le_zero.1 hm
  exact ⟨r, .refl, h, rfl⟩

theorem offers_agent (task : AgentTask) (k : Except WorkflowError V → Script V max) :
    (Run.script a (.runAgent task k)).Offers o 1 := by
  intro m hm s
  cases m with
  | zero => exact ⟨_, .refl, rfl, rfl⟩
  | succ m =>
    obtain rfl : m = 0 := by omega
    exact ⟨.agent a task k, .more .acquire .refl, rfl, rfl⟩

theorem offers_map (tasks : List (Except WorkflowError AgentTask)) (k : Except WorkflowError (List V) → Script V max) :
    (Run.mapping a none (tasks.map Item.start) k).Offers o ((tasks.map (Item.start (V := V))).countP Item.isPending) := by
  intro m hm s
  have hnone := countP_start (V := V) tasks
  obtain ⟨items', hsteps, hcount⟩ := fill (o := o) (f := fun n items => (n, .mapping a none items k))
    (fun _ _ _ _ => .acquireShared) (tasks.map Item.start) m s [] (by omega)
  refine ⟨.mapping a none items' k, hsteps, ?_, rfl⟩
  rw [Run.shared, hcount, hnone, Nat.zero_add]

theorem offersAll_cons {x y : Nat} {rs : List (Run V max)} (hr : r.Offers o x) (hrs : OffersAll o rs y) :
    OffersAll o (r :: rs) (x + y) := by
  intro a k pre m hm s
  -- the first of them takes what it can
  obtain ⟨m₁, m₂, rfl, hm₁, hm₂⟩ : ∃ m₁ m₂, m = m₂ + m₁ ∧ m₁ ≤ x ∧ m₂ ≤ y :=
    ⟨min x m, m - min x m, by omega, by omega, by omega⟩
  obtain ⟨r', hsteps, hshared, hown⟩ := hr m₁ hm₁ (s + m₂)
  obtain ⟨rs', hsteps', hshared', hown'⟩ := hrs a k (pre ++ [r']) m₂ hm₂ s
  rw [List.append_assoc, List.append_assoc, List.singleton_append, List.singleton_append] at hsteps'
  have hfirst : Steps o (s + (m₂ + m₁), .chains a (pre ++ r :: rs) k) (s + m₂, .chains a (pre ++ r' :: rs) k) := by
    rw [← Nat.add_assoc]
    exact inChain_steps hsteps
  refine ⟨r' :: rs', hfirst.trans hsteps', ?_, ?_⟩
  · rw [Run.sharedAll, hshared, hshared', Nat.add_comm]
  · rw [Run.ownAll, Run.ownAll, hown, hown']

theorem offersAll_nil : OffersAll o ([] : List (Run V max)) 0 := by
  intro a k pre m hm s
  obtain rfl : m = 0 := Nat.le_zero.1 hm
  exact ⟨[], .refl, rfl, rfl⟩

/-- A call that takes no permit for itself can be brought to its end. -/
theorem behind_call {p : Script V max} (h : Step o (s + 1) (.script a p) (s + 1) r) :
    Steps o (s + 1, .script a p) (s + 1, r.after o) :=
  .more h (call_ends ((acc_script o p a).inv ⟨_, _, h⟩) h.permits (h.within .script))

theorem behind_map (own : Option (Limit max)) (tasks : List (Except WorkflowError AgentTask))
    (k : Except WorkflowError (List V) → Script V max) :
    Steps o (s + 1, .script a (.mapAgents own tasks k))
      (s + 1, .script a.next (k (mapResults (taskResults o a tasks)))) := by
  have h := behind_call (o := o) (s := s) (a := a) (p := .mapAgents own tasks k) .startMap
  rwa [Run.after, start_outcomes] at h

theorem behind_pipeline (chains : List (Script V max)) (k : List (Option V) → Script V max) :
    Steps o (s + 1, .script a (.pipeline chains k)) (s + 1, .script a.next (k (evalChains o a 0 chains))) := by
  have h := behind_call (o := o) (s := s) (a := a) (p := .pipeline chains k) .startPipeline
  rw [← values_start chains 0]
  exact h

/-- A map with a limit of its own takes all of its permits that it can use. -/
theorem fill_map (limit : Limit max) (tasks : List (Except WorkflowError AgentTask))
    (k : Except WorkflowError (List V) → Script V max) :
    ∃ r, Steps o (s + 1, .script a (.mapAgents (some limit) tasks k)) (s + 1, r) ∧
      r.own = (mapDemand (some limit) (tasks.map (Item.start (V := V)))).2 ∧ r.shared = 0 := by
  have hnone := countP_start (V := V) tasks
  let items := tasks.map (Item.start (V := V))
  let m := min limit.count (items.countP Item.isPending)
  obtain ⟨items', hsteps, hcount⟩ :=
    fill (o := o) (f := fun n items => (s + 1, .mapping a (some (limit, n)) items k)) (fun _ _ _ _ => .acquireOwn)
      items m (limit.count - m) [] (by rw [hnone, Nat.zero_add]; exact min_le_right _ _)
  rw [Nat.sub_add_cancel (min_le_left _ _)] at hsteps
  refine ⟨.mapping a (some (limit, limit.count - m)) items' k, .more .startMap hsteps, ?_, rfl⟩
  rw [Run.own, hcount, hnone, Nat.zero_add]
  rfl

mutual

/-- With a permit, a script can be brought to each point where it may ask for so many permits: it
has those of its maps then, and can take the shared ones. -/
theorem Script.asks (o : Outcomes V) (s : Nat) : ∀ (a : Address) (p : Script V max) (d : Nat × Nat), p.Demands o a d →
    ∃ r, Steps o (s + 1, .script a p) (s + 1, r) ∧ r.own = d.2 ∧ r.Offers o d.1
  | a, .ret v, _, rfl => ⟨_, .refl, rfl, offers_none rfl⟩
  | a, .fail e, _, rfl => ⟨_, .refl, rfl, offers_none rfl⟩
  | a, .runAgent task k, d, h => by
    rcases h with rfl | h
    · exact ⟨_, .refl, rfl, offers_agent task k⟩
    · obtain ⟨r, hsteps, hr⟩ := Script.asks o s a.next (k (o a task)) d h
      exact ⟨r, .more .acquire (.more .release hsteps), hr⟩
  | a, .mapAgents own tasks k, d, h => by
    rcases h with rfl | h
    · cases own with
      | none => exact ⟨_, .more .startMap .refl, rfl, offers_map tasks k⟩
      | some limit =>
        obtain ⟨r, hsteps, hown, hshared⟩ := fill_map (o := o) (s := s) (a := a) limit tasks k
        exact ⟨r, hsteps, hown, offers_none hshared⟩
    · obtain ⟨r, hsteps, hr⟩ := Script.asks o s a.next _ d h
      exact ⟨r, (behind_map own tasks k).trans hsteps, hr⟩
  | a, .pipeline chains k, d, h => by
    rcases h with h | h
    · obtain ⟨rs, hall, hown, hoffers⟩ := Script.asksAll o s a 0 chains d h
      have hsteps : Steps o (s + 1, .chains a _ k) (s + 1, .chains a rs k) := all_chains k hall []
      refine ⟨.chains a rs k, .more .startPipeline hsteps, hown, fun m hm s => ?_⟩
      obtain ⟨rs', hsteps', hshared, hown'⟩ := hoffers a k [] m hm s
      exact ⟨.chains a rs' k, hsteps', hshared, hown'⟩
    · obtain ⟨r, hsteps, hr⟩ := Script.asks o s a.next _ d h
      exact ⟨r, (behind_pipeline chains k).trans hsteps, hr⟩

theorem Script.asksAll (o : Outcomes V) (s : Nat) : ∀ (a : Address) (i : Nat) (chains : List (Script V max)) (d : Nat × Nat),
    Script.DemandsAll o a i chains d →
      ∃ rs, List.Forall₂ (fun r r' => Steps o (s + 1, r) (s + 1, r'))
          (chains.mapIdx fun j p => .script (0 :: (j + i) :: a) p) rs ∧
        Run.ownAll rs = d.2 ∧ OffersAll o rs d.1
  | _, _, [], _, rfl => ⟨[], .nil, rfl, offersAll_nil⟩
  | a, i, chain :: chains, _, ⟨x, y, hx, hy, rfl⟩ => by
    obtain ⟨r, hsteps, hown, hoffers⟩ := Script.asks o s (0 :: i :: a) chain x hx
    obtain ⟨rs, hall, hownAll, hoffersAll⟩ := Script.asksAll o s a (i + 1) chains y hy
    rw [start_cons]
    refine ⟨r :: rs, .cons hsteps hall, ?_, offersAll_cons hoffers hoffersAll⟩
    rw [Run.ownAll, hown, hownAll]
    rfl

end

/-! ## What the calls give -/

theorem results_of_no_failure {results : List (Except WorkflowError V)} (h : results.filterMap failure? = []) :
    results = (results.filterMap Except.toOption).map .ok := by
  induction results with
  | nil => rfl
  | cons result results ih =>
    cases result with
    | ok v => exact congrArg (Except.ok v :: ·) (ih h)
    | error e => exact absurd h (List.cons_ne_nil e _)

theorem no_failure (vs : List V) : (vs.map Except.ok).filterMap failure? = [] := by
  rw [List.filterMap_map, List.filterMap_eq_nil_iff]
  exact fun _ _ => rfl

/-- A map returns a result for each item, in the order of the items, exactly if none failed. -/
theorem mapResults_ok_iff (results : List (Except WorkflowError V)) (vs : List V) :
    mapResults results = .ok vs ↔ results = vs.map .ok := by
  constructor
  · intro h
    unfold mapResults at h
    by_cases hnone : results.filterMap failure? = []
    · rw [hnone] at h
      cases h
      exact results_of_no_failure hnone
    · rw [if_neg (by simpa using hnone)] at h
      cases h
  · rintro rfl
    have hall : (vs.map (Except.ok (ε := WorkflowError))).filterMap Except.toOption = vs := by
      rw [List.filterMap_map]
      exact List.filterMap_some
    simp only [mapResults, no_failure, hall]
    rfl

/-- A map goes on only when all of its tasks have ended. -/
theorem Step.map_ended {own : Option (Limit max × Nat)} {items : List (Item V)} {q : Script V max} {a' : Address}
    {k : Except WorkflowError (List V) → Script V max} (h : Step o s (.mapping a own items k) s' (.script a' q)) :
    ∃ results : List (Except WorkflowError V), items = results.map .done ∧ q = k (mapResults results) := by
  cases h with
  | endMap hdone => exact ⟨_, done_of_result hdone, rfl⟩

theorem evalChains_getElem (chains : List (Script V max)) (i j : Nat) :
    (evalChains o a j chains)[i]? = chains[i]?.map fun chain => (eval o (0 :: (i + j) :: a) chain).toOption := by
  induction chains generalizing i j with
  | nil => rfl
  | cons chain chains ih =>
    cases i with
    | zero => rw [evalChains, List.getElem?_cons_zero, List.getElem?_cons_zero, Option.map_some, Nat.zero_add]
    | succ i => rw [evalChains, List.getElem?_cons_succ, List.getElem?_cons_succ, ih, Nat.add_right_comm, Nat.add_assoc]

theorem length_evalChains (chains : List (Script V max)) (j : Nat) : (evalChains o a j chains).length = chains.length := by
  induction chains generalizing j with
  | nil => rfl
  | cons chain chains ih => rw [evalChains, List.length_cons, List.length_cons, ih]

/-- Where a map with a limit of its own and what runs beside it may ask for more than there is, some
schedule lets more than that run. -/
theorem exceeds (wf : WorkflowContext) {o : Outcomes V} {p : Script V wf.maxConcurrency} {d : Nat × Nat}
    (h : p.Demands o [0] d) (hown : d.2 ≠ 0) (hmany : wf.maxConcurrency < d.1 + d.2) :
    ∃ s r, Reachable o p s r ∧ wf.maxConcurrency < r.running := by
  obtain ⟨s, hs⟩ := Nat.exists_eq_add_of_le' wf.pos
  obtain ⟨r, hsteps, hr, hoffers⟩ := Script.asks o s [0] p d h
  obtain ⟨r', hsteps', hshared, hown'⟩ := hoffers (min d.1 (s + 1)) (min_le_left _ _) (s + 1 - min d.1 (s + 1))
  rw [Nat.sub_add_cancel (min_le_right _ _)] at hsteps'
  have hstart : (s + 1, Run.script [0] p) = (wf.maxConcurrency, Run.script [0] p) := Prod.ext hs.symm rfl
  refine ⟨s + 1 - min d.1 (s + 1), r', ?_, ?_⟩
  · have hrun := hsteps.trans hsteps'
    rw [hstart] at hrun
    exact hrun
  · rw [Run.running_eq, hshared, hown', hr]
    omega

theorem running_le {p : Script V max} (hdemands : ∀ d, p.Demands o [0] d → d.2 = 0 ∨ d.1 + d.2 ≤ max)
    (h : Reachable o p s r) : r.running ≤ max := by
  obtain ⟨hcount, hwithin, -⟩ := permits_of_reachable h
  obtain ⟨d', hd', hheld⟩ := Run.held o r hwithin
  obtain ⟨d, hd, hle⟩ := demands_of_reachable h d' hd'
  obtain ⟨hshared, hown⟩ := hheld.trans hle
  rw [Run.running_eq]
  rcases hdemands d hd with hnone | hfits
  · dsimp only at hown
    omega
  · dsimp only at hshared hown
    omega

/-- What a workflow keeps and gives, in every state of every schedule. -/
structure Kept (wf : WorkflowContext) (o : Outcomes V) (p : Script V wf.maxConcurrency) : Prop where
  limit : ∀ s r, Reachable o p s r → r.running ≤ wf.maxConcurrency
  /-- No schedule changes the result. -/
  result : ∀ s r x, Reachable o p s r → r.finished? = some x → x = eval o [0] p
  /-- A map goes on once all of its tasks have ended, -/
  ended : ∀ (a : Address) (own : Option (Limit wf.maxConcurrency × Nat)) (items : List (Item V))
    (k : Except WorkflowError (List V) → Script V wf.maxConcurrency) (s s' : Nat) (a' : Address)
    (q : Script V wf.maxConcurrency), Step o s (.mapping a own items k) s' (.script a' q) →
      ∃ results : List (Except WorkflowError V), items = results.map .done ∧ q = k (mapResults results)
  /-- with a result for each item in their order, or it raises. -/
  mapped : ∀ (results : List (Except WorkflowError V)) (vs : List V),
    mapResults results = .ok vs ↔ results = vs.map .ok
  /-- A pipeline has a result for each item, by the chain of this item alone. -/
  piped : ∀ (a : Address) (chains : List (Script V wf.maxConcurrency)),
    (evalChains o a 0 chains).length = chains.length ∧
      ∀ i, (evalChains o a 0 chains)[i]? = chains[i]?.map fun chain => (eval o (0 :: i :: a) chain).toOption

/-- A workflow keeps the limit of its context in every state of every schedule exactly if at no point
of its script a map with a limit of its own and what runs beside it may ask for more permits than there
are. What its calls give does not depend on the schedule. -/
theorem workflow_kept (wf : WorkflowContext) (o : Outcomes V) (p : Script V wf.maxConcurrency) :
    Kept wf o p ↔ ∀ d, p.Demands o [0] d → d.2 = 0 ∨ d.1 + d.2 ≤ wf.maxConcurrency := by
  constructor
  · intro h d hd
    by_contra hmany
    obtain ⟨hown, hlt⟩ := not_or.1 hmany
    obtain ⟨s, r, hr, hrunning⟩ := exceeds wf hd hown (Nat.lt_of_not_le hlt)
    exact Nat.not_le.2 hrunning (h.limit s r hr)
  · intro hdemands
    refine ⟨fun s r h => running_le hdemands h, fun s r x h hx => ?_, fun a own items k s s' a' q => Step.map_ended,
      mapResults_ok_iff, fun a chains => ⟨length_evalChains chains 0, fun i => evalChains_getElem chains i 0⟩⟩
    rw [← value_of_finished hx]
    exact value_of_reachable h

/-- A pipeline of two items in a context for one sub-agent at a time; its stage is a map with a limit of its own. -/
def twoMaps (wf : WorkflowContext) : Script Unit wf.maxConcurrency :=
  wf.pipeline [(), ()] [fun v => wf.mapAgents [v] (fun _ => .ok { prompt := "a" }) (some 1) fun _ => .ret v] fun _ => .ret ()

/-- Each of the two maps has a semaphore of its own. -/
theorem two_at_once : ∃ s r, Reachable (fun _ _ => .ok ()) (twoMaps ⟨1, Nat.le_refl 1⟩) s r ∧ 1 < r.running := by
  let limit : Limit 1 := ⟨1, Nat.le_refl 1, Nat.le_refl 1⟩
  let task : AgentTask := { prompt := "a" }
  let k : Except WorkflowError (List Unit) → Script Unit 1 := fun _ => .ret ()
  have hscript : twoMaps ⟨1, Nat.le_refl 1⟩ =
      .pipeline [.mapAgents (some limit) [.ok task] k, .mapAgents (some limit) [.ok task] k] fun _ => .ret () := rfl
  have hone : ∀ a, Steps (fun _ _ => .ok ()) (1, .script a (.mapAgents (some limit) [.ok task] k))
      (1, .mapping a (some (limit, 0)) [.running task] k) := fun a =>
    .more .startMap (.more (@Step.acquireOwn _ _ _ _ _ limit 0 [] task [] k) .refl)
  refine ⟨1, .chains [0] [.mapping [0, 0, 0] (some (limit, 0)) [.running task] k,
    .mapping [0, 1, 0] (some (limit, 0)) [.running task] k] fun _ => .ret (), ?_, Nat.le_refl 2⟩
  rw [hscript]
  exact .more .startPipeline (all_chains _ (.cons (hone [0, 0, 0]) (.cons (hone [0, 1, 0]) .nil)) [])

end AgentSdk.Workflow
