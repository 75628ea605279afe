import PosixIpc.PubSub.Attach
import PosixIpc.PubSub.PubSub

/-!
# What a sync does

A sync works against the publishers that are there when it is called: those whose name is not
configured any more are removed (`kept` are the others), and for the configurations without a
publisher (`newConfigs`) one is created. `Created` is the creation of several publishers one after
the other.

`runs_syncConfigs` is the specification, from an empty queue of changes. A sync that succeeds leaves
the publishers that were kept, followed by the new ones. A sync that fails leaves the publishers as
they were, and in the queue the removals and the additions it had got to.
-/

namespace PosixIpc

open Framework

namespace PubSub

/-! ### Applying the changes -/

/-- The publishers that stay. -/
def kept (configs : List PubSubConfig) (publishers : List Publisher) : List Publisher :=
  -- the order of the vector is kept
  publishers.filter (isConfigured configs)

/-- The publishers that go. -/
def dropped (configs : List PubSubConfig) (publishers : List Publisher) : List Publisher :=
  publishers.filter fun p => !isConfigured configs p

/-- The configurations without a publisher. -/
def newConfigs (publishers : List Publisher) (configs : List PubSubConfig) : List PubSubConfig :=
  configs.filter fun cfg => !isPublished publishers cfg

/-- Release the memory of several publishers. -/
def releaseAll : List Publisher → SysProg Unit
  | [] => .ret ()
  | p :: rest => Publisher.release p.shm >>= fun _ => releaseAll rest

/-- The additions of publishers. -/
def additions (added : List Publisher) : List PubSubChange :=
  added.map fun p => { addition := some p }

variable {configs : List PubSubConfig} {publishers : List Publisher}

/-- A publisher is configured if its name is, whatever the size. -/
theorem isConfigured_iff {p : Publisher} :
    isConfigured configs p = true ↔ p.config.shmName ∈ configs.map PubSubConfig.shmName := by
  unfold isConfigured
  rw [List.any_eq_true, List.mem_map]
  refine exists_congr fun cfg => and_congr_right fun _ => ?_
  rw [decide_eq_true_eq]
  exact eq_comm

/-- A configuration is published if its name is, whatever the size. -/
theorem isPublished_iff {cfg : PubSubConfig} :
    isPublished publishers cfg = true ↔
      cfg.shmName ∈ publishers.map fun p => p.config.shmName := by
  unfold isPublished
  rw [List.any_eq_true, List.mem_map]
  exact exists_congr fun p => and_congr_right fun _ => decide_eq_true_iff

/-- A publisher that goes has a name that is not configured. -/
theorem mem_dropped_iff {d : Publisher} : d ∈ dropped configs publishers ↔
    d ∈ publishers ∧ d.config.shmName ∉ configs.map PubSubConfig.shmName := by
  unfold dropped
  rw [List.mem_filter, ← isConfigured_iff, Bool.not_eq_true', Bool.not_eq_true]

/-- A new configuration has a name no publisher has. -/
theorem mem_newConfigs_iff {cfg : PubSubConfig} : cfg ∈ newConfigs publishers configs ↔
    cfg ∈ configs ∧ cfg.shmName ∉ publishers.map fun p => p.config.shmName := by
  unfold newConfigs
  rw [List.mem_filter, ← isPublished_iff, Bool.not_eq_true', Bool.not_eq_true]

theorem dropped_cons_of_configured {p : Publisher} (hp : isConfigured configs p = true)
    (l : List Publisher) : dropped configs (p :: l) = dropped configs l :=
  List.filter_cons_of_neg (by simp [hp])

theorem dropped_cons_of_unconfigured {p : Publisher} (hp : isConfigured configs p = false)
    (l : List Publisher) : dropped configs (p :: l) = p :: dropped configs l :=
  List.filter_cons_of_pos (by simp [hp])

/-- The removals are queued by the names of the publishers that are dropped. -/
theorem removals_eq (l : List Publisher) :
    removals configs l =
      (dropped configs l).map fun p => { removal := some p.config.shmName } := by
  induction l with
  | nil => rfl
  | cons p l ih =>
    cases hp : isConfigured configs p with
    -- a configured publisher queues no removal
    | true => rw [removals, if_pos hp, dropped_cons_of_configured hp, ih]
    | false =>
      rw [removals, if_neg (by simp [hp]), dropped_cons_of_unconfigured hp, List.map_cons, ih]

/-- The name is that of the first publisher behind some that have other names. -/
theorem eraseName_append {l : List Publisher} (p : Publisher) (rest : List Publisher)
    (hl : ∀ a ∈ l, a.config.shmName ≠ p.config.shmName) :
    eraseName p.config.shmName (l ++ p :: rest) =
      (Publisher.release p.shm >>= fun _ => .ret (l ++ rest)) := by
  induction l with
  | nil =>
    -- found: the tail is moved up by one and the last element destroyed
    rw [List.nil_append, eraseName, if_pos rfl, eraseFrom_eq]
    rfl
  | cons a l ih =>
    rw [List.cons_append, eraseName, if_neg (hl a List.mem_cons_self),
      ih fun b hb => hl b (List.mem_cons_of_mem _ hb), Prog.bind_assoc]
    rfl

/-- **The removals.** Each one takes the first publisher of its name, and all together those that
are not configured. -/
theorem applyAll_removals (l : List Publisher) (rest : List PubSubChange)
    (hkept : ∀ p ∈ publishers, isConfigured configs p = true) :
    applyAll (removals configs l ++ rest) (publishers ++ l) =
      (releaseAll (dropped configs l) >>= fun _ =>
        applyAll rest (publishers ++ kept configs l)) := by
  -- `publishers` are those passed over so far, `l` those still to come
  induction l generalizing publishers with
  | nil => rfl
  | cons p l ih =>
    cases hp : isConfigured configs p with
    | true =>
      have hk : kept configs (p :: l) = p :: kept configs l := List.filter_cons_of_pos hp
      have hkept' : ∀ q ∈ publishers ++ [p], isConfigured configs q = true := by
        intro q hq
        rcases List.mem_append.mp hq with hq | hq
        · exact hkept q hq
        · rw [List.mem_singleton.mp hq]
          exact hp
      rw [removals, if_pos hp, hk, dropped_cons_of_configured hp, List.append_cons, ih hkept',
        List.append_cons publishers p (kept configs l)]
    | false =>
      have hk : kept configs (p :: l) = kept configs l :=
        List.filter_cons_of_neg (by simp [hp])
      -- none of those kept has the name of one that goes
      have hne : ∀ a ∈ publishers, a.config.shmName ≠ p.config.shmName := by
        intro a ha heq
        have hconf := isConfigured_iff.mp (hkept a ha)
        rw [heq] at hconf
        exact absurd (isConfigured_iff.mpr hconf) (by rw [hp]; simp)
      rw [removals, if_neg (by simp [hp]), hk, dropped_cons_of_unconfigured hp, releaseAll,
        Prog.bind_assoc]
      -- the removal at the head of the queue is that of `p`
      change (eraseName p.config.shmName (publishers ++ p :: l) >>=
        applyAll (removals configs l ++ rest)) = _
      rw [eraseName_append p l hne, Prog.bind_assoc]
      exact congrArg (Publisher.release p.shm >>= ·) (funext fun _ => ih hkept)

/-- Applying additions only appends them, with no call to the system. -/
theorem applyAll_additions (added publishers : List Publisher) :
    applyAll (additions added) publishers = .ret (publishers ++ added) := by
  induction added generalizing publishers with
  | nil => rw [List.append_nil]; rfl
  | cons p added ih =>
    -- each addition is pushed to the back
    rw [List.append_cons]
    exact ih (publishers ++ [p])

/-- **`apply_changes`** after a sync has queued its changes. -/
theorem applyChanges_eq (added : List Publisher) :
    applyChanges ⟨publishers, removals configs publishers ++ additions added⟩ =
      (releaseAll (dropped configs publishers) >>= fun _ =>
        .ret { publishers := kept configs publishers ++ added, changeQueue := [] }) := by
  have happly := @applyAll_removals configs [] publishers (additions added)
    fun p hp => absurd hp List.not_mem_nil
  rw [List.nil_append, List.nil_append] at happly
  change (applyAll (removals configs publishers ++ additions added) publishers >>= fun l =>
    .ret (PubSub.mk l [])) = _
  rw [happly, Prog.bind_assoc]
  exact congrArg (releaseAll (dropped configs publishers) >>= ·)
    (funext fun _ => by rw [applyAll_additions]; rfl)

/-! ### Creating the new publishers -/

/-- Publishers are created for `cfgs`, one after the other, and none fails. -/
inductive Created (env : Env) : World → List PubSubConfig → List Publisher → World → Prop where
  | nil (w : World) : Created env w [] [] w
  | cons {w w₁ w' : World} {cfg : PubSubConfig} {p : Publisher} {cfgs : List PubSubConfig}
      {added : List Publisher} :
      (Publisher.fromConfig cfg).run (World.exec env) w = some (.ok p, w₁) →
      Created env w₁ cfgs added w' → Created env w (cfg :: cfgs) (p :: added) w'

variable {env : Env} {w w' : World}

/-- A publisher keeps the configuration it was created from. -/
theorem config_of_fromConfig {cfg : PubSubConfig} {p : Publisher}
    (h : (Publisher.fromConfig cfg).run (World.exec env) w = some (.ok p, w')) :
    p.config = cfg := by
  obtain ⟨i, s, hpub, -⟩ := (Publisher.runs_fromConfig.post h).published p rfl
  obtain ⟨shm, rfl, -⟩ := hpub.parts
  rfl

theorem Created.map_config {cfgs : List PubSubConfig} {added : List Publisher}
    (h : Created env w cfgs added w') : added.map Publisher.config = cfgs := by
  induction h with
  | nil w => rfl
  | cons hp _ ih => rw [List.map_cons, ih, config_of_fromConfig hp]

/-- What the second loop of `sync_configs` does: all new publishers are created, or it stops at the
first that is not. -/
inductive Adds (env : Env) (x : PubSub) (new : List PubSubConfig) (w : World) :
    Except PosixIpcError Unit × PubSub → World → Prop where
  | done {added : List Publisher} {w' : World} : Created env w new added w' →
      Adds env x new w
        (.ok (), { x with changeQueue := x.changeQueue ++ additions added }) w'
  | failed {pre post : List PubSubConfig} {cfg : PubSubConfig} {added : List Publisher}
      {w₁ w' : World} {e : PosixIpcError} : new = pre ++ cfg :: post →
      Created env w pre added w₁ →
      (Publisher.fromConfig cfg).run (World.exec env) w₁ = some (.error e, w') →
      Adds env x new w
        (.error e, { x with changeQueue := x.changeQueue ++ additions added }) w'

/-- One more publisher at the front. -/
theorem Adds.cons {x : PubSub} {new : List PubSubConfig} {w₁ : World} {cfg : PubSubConfig}
    {p : Publisher} {z : Except PosixIpcError Unit × PubSub}
    (hp : (Publisher.fromConfig cfg).run (World.exec env) w = some (.ok p, w₁))
    (h : Adds env { x with changeQueue := x.changeQueue ++ additions [p] } new w₁ z w') :
    Adds env x (cfg :: new) w z w' := by
  -- the addition of `p` is in the queue already when the loop goes on
  have hqueue : ∀ added : List Publisher, x.changeQueue ++ additions [p] ++ additions added =
      x.changeQueue ++ additions (p :: added) := by
    intro added
    rw [List.append_assoc]
    rfl
  cases h with
  | done hadded =>
    simp only [hqueue]
    exact .done (.cons hp hadded)
  | failed hnew hadded herr =>
    simp only [hqueue]
    exact .failed (by rw [hnew]; rfl) (.cons hp hadded) herr

/-- **Queueing the additions** makes the publishers of the new names, until one of them fails. -/
theorem runs_queueAdditions (configs : List PubSubConfig) (x : PubSub) (w : World) :
    Runs (World.exec env) (queueAdditions configs x) w
      (Adds env x (newConfigs x.publishers configs) w) := by
  induction configs generalizing x w with
  | nil =>
    have hdone : Adds env x [] w _ w := .done (.nil w)
    rw [show additions [] = [] from rfl, List.append_nil] at hdone
    exact Runs.ret hdone
  | cons cfg rest ih =>
    unfold queueAdditions
    cases hpub : isPublished x.publishers cfg with
    | true =>
      have hnew : newConfigs x.publishers (cfg :: rest) = newConfigs x.publishers rest :=
        List.filter_cons_of_neg (by simp [hpub])
      -- a publisher of that name is there already
      rw [if_pos rfl, hnew]
      exact ih x w
    | false =>
      have hnew : newConfigs x.publishers (cfg :: rest) = cfg :: newConfigs x.publishers rest :=
        List.filter_cons_of_pos (by simp [hpub])
      rw [if_neg (by simp), hnew]
      obtain ⟨r, w₁, hrun, -⟩ := @Publisher.runs_fromConfig env cfg w
      refine Runs.bind ⟨r, w₁, hrun, ?_⟩
      cases r with
      -- the function returns from within the loop, with what has been queued so far
      | error e =>
        have hfailed : Adds env x (cfg :: newConfigs x.publishers rest) w _ w₁ :=
          .failed rfl (.nil w) hrun
        rw [show additions [] = [] from rfl, List.append_nil] at hfailed
        exact Runs.ret hfailed
      | ok p => exact (ih _ w₁).mono fun _ _ h => Adds.cons hrun h

/-! ### The specification -/

/-- Releasing publishers is never stuck. -/
theorem runs_releaseAll (l : List Publisher) (w : World) :
    Runs (World.exec env) (releaseAll l) w fun _ _ => True := by
  induction l generalizing w with
  | nil => exact Runs.ret trivial
  | cons p l ih =>
    refine Runs.bind ?_
    cases p.shm with
    | none => exact Runs.ret (ih w)
    -- `munmap`, then `shm_unlink` if the object was created, then `close`
    | some shm =>
      refine Runs.step rfl ?_
      cases hc : shm.created with
      | true =>
        simp only [if_true]
        exact Runs.step rfl (Runs.step rfl (Runs.ret (ih _)))
      | false =>
        simp only [Bool.false_eq_true, if_false]
        exact Runs.step rfl (Runs.ret (ih _))

/-- What `sync_configs` does with an empty queue of changes. -/
inductive Syncs (env : Env) (configs : List PubSubConfig) (publishers : List Publisher) (w : World) :
    Except PosixIpcError Unit × PubSub → World → Prop where
  | done {added : List Publisher} {w₁ w' : World} :
      Created env w (newConfigs publishers configs) added w₁ →
      (releaseAll (dropped configs publishers)).run (World.exec env) w₁ = some ((), w') →
      Syncs env configs publishers w (.ok (), ⟨kept configs publishers ++ added, []⟩) w'
  | failed {pre post : List PubSubConfig} {cfg : PubSubConfig} {added : List Publisher}
      {w₁ w' : World} {e : PosixIpcError} :
      newConfigs publishers configs = pre ++ cfg :: post → Created env w pre added w₁ →
      (Publisher.fromConfig cfg).run (World.exec env) w₁ = some (.error e, w') →
      Syncs env configs publishers w
        (.error e, ⟨publishers, removals configs publishers ++ additions added⟩) w'

/-- **`sync_configs`.** -/
theorem runs_syncConfigs (configs : List PubSubConfig) (publishers : List Publisher) (w : World) :
    Runs (World.exec env) (syncConfigs configs ⟨publishers, []⟩) w
      (Syncs env configs publishers w) := by
  unfold syncConfigs
  refine Runs.bind ((runs_queueAdditions configs _ w).mono fun z w₁ h => ?_)
  change Adds env ⟨publishers, removals configs publishers⟩ (newConfigs publishers configs) w z w₁
    at h
  cases h with
  -- only now are the changes applied
  | done hadded =>
    refine Runs.bind ?_
    rw [applyChanges_eq]
    obtain ⟨u, w', hrun, -⟩ := @runs_releaseAll env (dropped configs publishers) w₁
    exact Runs.bind ⟨u, w', hrun, Runs.ret (Runs.ret (.done hadded hrun))⟩
  | failed hnew hadded herr => exact Runs.ret (.failed hnew hadded herr)

end PubSub

end PosixIpc
