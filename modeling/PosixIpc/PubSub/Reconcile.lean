import PosixIpc.PubSub.Distinct

/-!
# Syncs compute the reconciliation

What a sync is for, stated without the queue of changes: the publishers whose name is configured
stay, in their order, and behind them comes one new publisher for each configuration whose name no
publisher has, in the order of the configurations (`sync_reconciles`). Names may be repeated, among
the publishers and among the configurations.

The publishers that stay keep what they own: of the mappings of the process, a sync can only have
taken those of the publishers that went, if there is room for the objects below the mappings. What
is in their segments is theirs as well, as long as no new configuration is about one of their
objects. Names are compared as strings, so a sync that keeps `/queue` may create a publisher for
`queue`, and with another size that wipes the segment (`sync_rewrites`).
-/

namespace PosixIpc

open Framework

/-- The destructor takes away the pages of the object and no others. -/
theorem SharedMemory.runs_destroy_mappings {env : Env} {w : World} (shm : SharedMemory) :
    Runs (World.exec env) shm.destroy w fun _ w' => ∀ m ∈ w.process.mappings,
      ¬ m.Meets shm.shmPtr (shm.shmPtr + pageCeil shm.size) → m ∈ w'.process.mappings := by
  have hkept : ∀ (fd : Int) (m : Mapping), m ∈ w.process.mappings →
      ¬ m.Meets shm.shmPtr (shm.shmPtr + pageCeil shm.size) →
      m ∈ ((w.process.unmap shm.shmPtr shm.size).closeFile fd).mappings := by
    intro fd m hm hno
    rw [Process.mappings_closeFile]
    exact Process.mem_unmap hm hno
  unfold destroy SysProg.munmap SysProg.close SysProg.shmUnlink
  simp only [Prog.step_bind, Prog.ret_bind]
  -- the descriptor is closed in both cases, the name unlinked only in the first
  cases hc : shm.created with
  | true =>
    simp only [if_true]
    exact Runs.step rfl (Runs.step rfl (Runs.step rfl (Runs.ret (hkept shm.shmFd))))
  | false =>
    simp only [Bool.false_eq_true, if_false]
    exact Runs.step rfl (Runs.step rfl (Runs.ret (hkept shm.shmFd)))

namespace PubSub

variable {env : Env} {configs : List PubSubConfig} {publishers : List Publisher} {w w' : World}

/-- Releasing the memory of several publishers leaves the mappings of the others. -/
theorem mappings_of_releaseAll {l : List Publisher} {m : Mapping}
    (h : (releaseAll l).run (World.exec env) w = some ((), w'))
    (hne : ∀ d ∈ l, ∀ shm, d.shm = some shm →
      ¬ m.Meets shm.shmPtr (shm.shmPtr + pageCeil shm.size))
    (hm : m ∈ w.process.mappings) : m ∈ w'.process.mappings := by
  induction l generalizing w with
  | nil =>
    obtain ⟨-, rfl⟩ := Prod.mk.inj (Option.some.inj h)
    exact hm
  | cons d l ih =>
    rw [releaseAll, Prog.run_bind] at h
    obtain ⟨⟨u, w₁⟩, hrun, hrest⟩ := Option.bind_eq_some_iff.mp h
    refine ih hrest (fun d' hd' => hne d' (List.mem_cons_of_mem d hd')) ?_
    -- a publisher that was moved from has nothing to release
    cases hshm : d.shm with
    | none =>
      rw [hshm] at hrun
      obtain ⟨-, rfl⟩ := Prod.mk.inj (Option.some.inj hrun)
      exact hm
    | some shm =>
      rw [hshm] at hrun
      exact shm.runs_destroy_mappings.post hrun m hm (hne d List.mem_cons_self shm hshm)

theorem kept_eq : kept configs publishers =
    publishers.filter fun p => p.config.shmName ∈ configs.map PubSubConfig.shmName := by
  refine List.filter_congr fun p _ => ?_
  rw [Bool.eq_iff_iff, isConfigured_iff, decide_eq_true_iff]

theorem newConfigs_eq : newConfigs publishers configs =
    configs.filter fun cfg => cfg.shmName ∉ publishers.map fun p => p.config.shmName := by
  refine List.filter_congr fun cfg _ => ?_
  rw [Bool.eq_iff_iff, decide_eq_true_iff, ← isPublished_iff, Bool.not_eq_true',
    Bool.not_eq_true]

end PubSub

/-- **Reconciliation.** A sync that starts with no change pending and succeeds leaves, with no
change pending, the old publishers whose name is configured, as they were and in their order,
followed by one new publisher for each configuration whose name no old publisher had, in the order
of the configurations.

If there is room for the objects below the mappings, no mapping of the process is lost but those of
the publishers that went. If moreover every old publisher is on its segment through a mapping of its
own: the new publishers are on their segments, if their configurations are about distinct objects;
and the segment of a publisher that stays is as it was, unless its object is that of a new
configuration. -/
theorem sync_reconciles {env : Env} {configs : List PubSubConfig} {publishers : List Publisher}
    {w w' : World} {z : PubSub}
    (h : (PubSub.syncConfigs configs ⟨publishers, []⟩).run (World.exec env) w =
      some ((.ok (), z), w')) :
    z.changeQueue = [] ∧ ∃ added w₁,
      z.publishers =
        publishers.filter (fun p => p.config.shmName ∈ configs.map PubSubConfig.shmName) ++ added ∧
      added.map Publisher.config =
        configs.filter (fun cfg => cfg.shmName ∉ publishers.map fun p => p.config.shmName) ∧
      PubSub.Created env w (added.map Publisher.config) added w₁ ∧
      (w.Roomy env → (∀ p ∈ added, p.config.storageSizeBytes ≤ env.limit) →
        (∀ m ∈ w.process.mappings,
          (∀ d ∈ publishers, d.config.shmName ∉ configs.map PubSubConfig.shmName →
            ∀ shm, d.shm = some shm → ¬ m.Meets shm.shmPtr (shm.shmPtr + pageCeil shm.size)) →
          m ∈ w'.process.mappings) ∧
        (PubSub.Stationed w publishers →
          (((added.map Publisher.config).map PubSubConfig.object).Nodup →
            ∀ p ∈ added, ∃ q m, Publishing w' p q m) ∧
          ∀ p ∈ publishers, p.config.shmName ∈ configs.map PubSubConfig.shmName →
            (∀ p' ∈ added, p'.config.object ≠ p.config.object) →
            ∀ q m, Publishing w p q m →
              Publishing w' p q m ∧ w'.kernel.segments m.seg = w.kernel.segments m.seg)) := by
  have hsyncs := (PubSub.runs_syncConfigs configs publishers w).post h
  cases hsyncs with
  | @done added w₁ _ hadded hrel =>
    have hconfigs := hadded.map_config
    refine ⟨rfl, added, w₁, by rw [← PubSub.kept_eq], by rw [hconfigs, PubSub.newConfigs_eq],
      by rw [hconfigs]; exact hadded, fun hw hsizes => ?_⟩
    have hfit : ∀ cfg ∈ PubSub.newConfigs publishers configs,
        cfg.storageSizeBytes ≤ env.limit := by
      rw [← hconfigs]
      exact List.forall_mem_map.mpr hsizes
    refine ⟨fun m hm hno => ?_, fun hst => ⟨fun hnodup p hp => ?_,
      fun p hp hname hnew q m hpub => ?_⟩⟩
    · -- creating takes no mapping away, so it is the releases that count
      refine PubSub.mappings_of_releaseAll hrel (fun d hd => ?_) ((hadded.roomy hw hfit).2 m hm)
      obtain ⟨hd, hname⟩ := PubSub.mem_dropped_iff.mp hd
      exact hno d hd hname
    · rw [hconfigs] at hnodup
      obtain ⟨q, m, hpub, -⟩ := hadded.publishing hw hfit hnodup p hp
      exact ⟨q, m, (hst.created hw hfit hadded hrel hnodup hp hpub).1⟩
    · have hkept : p ∈ PubSub.kept configs publishers :=
        List.mem_filter.mpr ⟨hp, PubSub.isConfigured_iff.mpr hname⟩
      refine hst.kept hw hfit hadded hrel hkept (fun hmem => ?_) hpub
      rw [← hconfigs, List.map_map] at hmem
      obtain ⟨p', hp', heq⟩ := List.mem_map.mp hmem
      exact hnew p' hp' heq

/-- The configuration of a buffer of 64 bytes under a name. -/
def configNamed (name : String) : PubSubConfig := { config64 with shmName := name }

/-- What is left of a run: whether it succeeded, and the names. -/
def syncOutcome (x : (Except PosixIpcError Unit × PubSub) × World) : Bool × List String :=
  (x.1.1.isOk, x.1.2.names)

/-- Three publishers, two of them of one name, and a message in their queues. -/
def publishedWorld : Option (List Publisher × World) :=
  ((PubSub.syncConfigs [configNamed "/a", configNamed "/a", configNamed "/b"] ⟨[], []⟩).run
    (World.exec Env.bump) World.fresh).bind fun x =>
      ((x.1.2.publish ⟨[1, 2, 3]⟩).run (World.exec Env.bump) x.2).map fun y =>
        (x.1.2.publishers, y.2)

/-- Two publishers of one name go together, one of another name stays with its record, its segment
and the message there, and one is new. -/
theorem sync_reconciles_repeated : ∃ publishers w z w',
    publishers.map (fun p => p.config.shmName) = ["/a", "/a", "/b"] ∧
      (PubSub.syncConfigs [configNamed "/c", configNamed "/b"] ⟨publishers, []⟩).run
        (World.exec Env.bump) w = some ((.ok (), z), w') ∧
      z.names = ["/b", "/c"] ∧ z.changeQueue = [] ∧
      ∃ p ∈ publishers, p ∈ z.publishers ∧ p.config = configNamed "/b" ∧
        ∃ q m, Publishing w p q m ∧ Publishing w' p q m ∧
          w'.kernel.segments m.seg = w.kernel.segments m.seg ∧
          q.handle.contents (w'.kernel.segments m.seg).storage = some [[1, 2, 3]] := by
  have hrun : publishedWorld.bind (fun x =>
      ((PubSub.syncConfigs [configNamed "/c", configNamed "/b"] ⟨x.1, []⟩).run
        (World.exec Env.bump) x.2).map fun y =>
          (x.1.map (fun p => p.config.shmName), syncOutcome y,
            decide (x.2.Roomy Env.bump ∧ PubSub.Stationed x.2 x.1),
            decide (∃ p ∈ x.1, p.config = configNamed "/b" ∧ ∃ q ∈ p.queue,
              ∃ m ∈ x.2.process.mappings, Publishing x.2 p q m ∧
                q.handle.contents (x.2.kernel.segments m.seg).storage = some [[1, 2, 3]]))) =
      some (["/a", "/a", "/b"], (true, ["/b", "/c"]), true, true) := by
    decide +kernel
  obtain ⟨⟨publishers, w⟩, -, hrun⟩ := Option.bind_eq_some_iff.mp hrun
  obtain ⟨⟨⟨r, z⟩, w'⟩, hsync, hobs⟩ := Option.map_eq_some_iff.mp hrun
  simp only [Prod.mk.injEq, decide_eq_true_eq] at hobs
  obtain ⟨hnames, hout, ⟨hroomy, hst⟩, p, hp, hconfig, q, -, m, -, hpub, hcontents⟩ := hobs
  obtain ⟨hok, hnames'⟩ := Prod.mk.inj hout
  cases r with
  | error e => exact absurd hok (by simp [Except.isOk, Except.toBool])
  | ok u =>
    obtain ⟨hqueue, added, -, hlist, hconfigs, -, hrest⟩ := sync_reconciles hsync
    have hname : p.config.shmName ∈ [configNamed "/c", configNamed "/b"].map
        PubSubConfig.shmName := by
      rw [hconfig]
      decide
    -- the one new publisher is on another object
    rw [hnames] at hconfigs
    have hadded : ∀ p' ∈ added, p'.config = configNamed "/c" := by
      intro p' hp'
      have hmem := List.mem_map_of_mem (f := Publisher.config) hp'
      rw [hconfigs] at hmem
      exact List.mem_singleton.mp hmem
    have hfit : ∀ p' ∈ added, p'.config.storageSizeBytes ≤ Env.bump.limit := by
      intro p' hp'
      rw [hadded p' hp']
      decide
    have hother : ∀ p' ∈ added, p'.config.object ≠ p.config.object := by
      intro p' hp'
      rw [hadded p' hp', hconfig]
      decide
    obtain ⟨hpub', hseg⟩ := ((hrest hroomy hfit).2 hst).2 p hp hname hother q m hpub
    have hmem : p ∈ z.publishers := by
      rw [hlist]
      exact List.mem_append_left _ (List.mem_filter.mpr ⟨hp, decide_eq_true hname⟩)
    refine ⟨publishers, w, z, w', hnames, hsync, hnames', hqueue, p, hp, hmem, hconfig, q, m, hpub,
      hpub', hseg, ?_⟩
    rw [hseg]
    exact hcontents

/-- The object of `config64` under another spelling of its name, with a buffer of 96 bytes. -/
def config96 : PubSubConfig where
  shmName := "queue"
  storageSizeBytes := 352

/-- A publisher stays, and its segment is created anew for another spelling of its name. -/
theorem sync_rewrites : ¬ ∀ (env : Env) (configs : List PubSubConfig)
    (publishers : List Publisher) (w w' : World) (z : PubSub), w.Roomy env →
    (∀ cfg ∈ configs, cfg.storageSizeBytes ≤ env.limit) → PubSub.Stationed w publishers →
    (PubSub.syncConfigs configs ⟨publishers, []⟩).run (World.exec env) w =
      some ((.ok (), z), w') →
    ∀ p ∈ publishers, p.config.shmName ∈ configs.map PubSubConfig.shmName →
      ∀ q m, Publishing w p q m → w'.kernel.segments m.seg = w.kernel.segments m.seg := by
  intro h
  -- the second sync lists the object under both spellings; it keeps the publisher and then gives
  -- its segment the size of the other one
  have hrun : ((PubSub.syncConfigs [config64] ⟨[], []⟩).run (World.exec Env.bump)
      World.fresh).bind (fun x =>
        ((PubSub.syncConfigs [config64, config96] ⟨x.1.2.publishers, []⟩).run
          (World.exec Env.bump) x.2).map fun y =>
            (y.1.1.isOk, decide (x.2.Roomy Env.bump ∧ PubSub.Stationed x.2 x.1.2.publishers),
              decide (∃ p ∈ x.1.2.publishers, p.config = config64 ∧ ∃ q ∈ p.queue,
                ∃ m ∈ x.2.process.mappings, Publishing x.2 p q m ∧
                  (x.2.kernel.segments m.seg).size = 320 ∧
                  (y.2.kernel.segments m.seg).size = 352))) =
      some (true, true, true) := by
    decide +kernel
  obtain ⟨⟨⟨r, x⟩, w⟩, -, hrun⟩ := Option.bind_eq_some_iff.mp hrun
  obtain ⟨⟨⟨r', z⟩, w'⟩, hsync, hobs⟩ := Option.map_eq_some_iff.mp hrun
  simp only [Prod.mk.injEq, decide_eq_true_eq] at hobs
  obtain ⟨hok, ⟨hroomy, hst⟩, p, hp, hconfig, q, -, m, -, hpub, hsize, hsize'⟩ := hobs
  cases r' with
  | error e => exact absurd hok (by simp [Except.isOk, Except.toBool])
  | ok u =>
    have hname : p.config.shmName ∈ [config64, config96].map PubSubConfig.shmName := by
      rw [hconfig]
      exact List.mem_cons_self
    have hseg := h Env.bump _ x.publishers w w' z hroomy (by decide) hst hsync p hp hname q m hpub
    rw [hseg, hsize] at hsize'
    exact absurd hsize' (by decide)

end PosixIpc
