import Mathlib.Data.List.Nodup
import Mathlib.Data.List.Pairwise
import PosixIpc.PubSub.Agreement
import PosixIpc.PubSub.Fanout
import PosixIpc.PubSub.Room

/-!
# Distinct publishers

`Hub.Inv` is what holds while every sync succeeds and creates publishers for distinct shared memory
objects: the objects of the publishers are pairwise distinct, and each publisher has its queue on a
segment of its object. A sync leaves the segments of the publishers it keeps alone (`sync_spec`):
the new publishers are created on other objects, and the memory it releases is mapped elsewhere.

The invariant includes that there is room for all objects below the mappings (`World.Roomy`). So
there has to be at the start, and the configured sizes have to fit (`HubAction.Fits`).

Whether a name is new is decided against the publishers that were there before the sync, and by
comparing the names as strings. So a name that is listed twice and not published yet gets two
publishers on one segment, and so does an object that is listed, or published, under two spellings
of its name. `no_duplicates_iff` says that there is no other way to duplicates.
-/

namespace PosixIpc

open Framework

/-! ### Syncs and the segments of the publishers -/

/-- A publisher that was created is on a segment of its object, mapped where nothing was. -/
theorem publishing_of_fromConfig {env : Env} {cfg : PubSubConfig} {p : Publisher} {w w' : World}
    (h : (Publisher.fromConfig cfg).run (World.exec env) w = some (.ok p, w')) :
    ∃ q m, Publishing w' p q m ∧ Fresh cfg w m.addr := by
  obtain ⟨i, s, hpub, -, hfresh, -⟩ := (Publisher.runs_fromConfig.post h).published p rfl
  obtain ⟨shm, rfl, ho, -⟩ := hpub.parts
  -- the pointer of the queue is the address the memory is mapped at
  refine ⟨⟨shm.shmPtr, SPSCQueue.construct s⟩, shm.mapping i,
    ⟨⟨shm, rfl, rfl, rfl, ho.created⟩, rfl, rfl, ho.mapping, rfl, ?_, ?_, ho.size_eq.symm, ?_⟩,
    (hfresh shm rfl).2⟩
  · exact w'.kernel.names_lt _ _ ho.bound
  · exact w'.kernel.names_name _ _ ho.bound
  · rw [hpub.storage]

/-- Different objects, different addresses. -/
theorem Publishing.addr_ne {w : World} {p p' : Publisher} {q q' : QueueAt} {m m' : Mapping}
    (h : Publishing w p q m) (h' : Publishing w p' q' m')
    (hne : p.config.object ≠ p'.config.object) : m.addr ≠ m'.addr := by
  intro haddr
  -- at one address there is one mapping, and one mapping is of one segment
  obtain rfl := w.process.eq_of_addr_eq h.mapped h'.mapped haddr
  exact h.seg_ne h' hne rfl

namespace PubSub

variable {env : Env} {w w' : World} {p : Publisher} {q : QueueAt} {m : Mapping}

/-- Creating publishers on other objects. -/
theorem Created.keeps {cfgs : List PubSubConfig} {added : List Publisher}
    (h : Created env w cfgs added w') (hw : w.Roomy env)
    (hfit : ∀ cfg ∈ cfgs, cfg.storageSizeBytes ≤ env.limit)
    (hne : p.config.object ∉ cfgs.map PubSubConfig.object) (hp : Publishing w p q m) :
    Publishing w' p q m ∧ w'.kernel.segments m.seg = w.kernel.segments m.seg := by
  induction h with
  | nil w => exact ⟨hp, rfl⟩
  | cons hrun _ ih =>
    rw [List.map_cons, List.mem_cons, not_or] at hne
    obtain ⟨hcfg, hrest⟩ := List.forall_mem_cons.mp hfit
    obtain ⟨hw₁, hm₁⟩ := Publisher.roomy_of_fromConfig hw hcfg hrun
    -- `from_config` works on the object of its configuration
    have hframe := (Publisher.runs_fromConfig.post hrun).frame
    obtain ⟨hp₁, hseg₁⟩ := hp.of_frame hframe (hm₁ m hp.mapped) hne.1
    obtain ⟨hp', hseg'⟩ := ih hw₁ hrest hne.2 hp₁
    exact ⟨hp', hseg'.trans hseg₁⟩

/-- Publishers created for distinct objects are all on their segments, mapped where nothing was. -/
theorem Created.publishing {cfgs : List PubSubConfig} {added : List Publisher}
    (h : Created env w cfgs added w') (hw : w.Roomy env)
    (hfit : ∀ cfg ∈ cfgs, cfg.storageSizeBytes ≤ env.limit)
    (hnodup : (cfgs.map PubSubConfig.object).Nodup) :
    ∀ p ∈ added, ∃ q m, Publishing w' p q m ∧ m ∉ w.process.mappings := by
  induction h with
  | nil w => exact fun p hp => absurd hp List.not_mem_nil
  | cons hrun hrest ih =>
    obtain ⟨hfirst, hnodup'⟩ := List.nodup_cons.mp hnodup
    obtain ⟨hcfg, hfit'⟩ := List.forall_mem_cons.mp hfit
    obtain ⟨hw₁, hm₁⟩ := Publisher.roomy_of_fromConfig hw hcfg hrun
    intro p hp
    -- the first one has to survive the creation of the others
    rcases List.mem_cons.mp hp with rfl | hp
    · obtain ⟨q, m, hpub, hfresh⟩ := publishing_of_fromConfig hrun
      refine ⟨q, m, (hrest.keeps hw₁ hfit' ?_ hpub).1, fun hmem => ?_⟩
      · rw [config_of_fromConfig hrun]
        exact hfirst
      · exact hfresh env.limit (hw.room hcfg) m hmem (hw.mappings m hmem) rfl
    · -- what was mapped before the first one was created still is
      obtain ⟨q, m, hpub, hfresh⟩ := ih hw₁ hfit' hnodup' p hp
      exact ⟨q, m, hpub, fun hmem => hfresh (hm₁ m hmem)⟩

/-- Releasing memory that is mapped elsewhere. -/
theorem keeps_of_releaseAll {l : List Publisher}
    (hl : ∀ d ∈ l, ∃ shm, d.shm = some shm ∧ shm.created = false ∧
      ¬ m.Meets shm.shmPtr (shm.shmPtr + pageCeil shm.size))
    (h : (releaseAll l).run (World.exec env) w = some ((), w')) (hp : Publishing w p q m) :
    Publishing w' p q m ∧ w'.kernel = w.kernel := by
  induction l generalizing w with
  | nil =>
    obtain ⟨-, rfl⟩ := Prod.mk.inj (Option.some.inj h)
    exact ⟨hp, rfl⟩
  | cons d l ih =>
    obtain ⟨shm, hshm, hcreated, hno⟩ := hl d List.mem_cons_self
    rw [releaseAll, Prog.run_bind] at h
    obtain ⟨⟨u, w₁⟩, hrun, hrest⟩ := Option.bind_eq_some_iff.mp h
    have hold : ∀ s, d.shm = some s → s.created = false := by
      intro s hs
      obtain rfl := Option.some.inj (hshm.symm.trans hs)
      exact hcreated
    obtain ⟨hk, hm⟩ := (Publisher.runs_release hold).post hrun
    -- only the pages of `d` are gone
    have hmapped : m ∈ w₁.process.mappings := by
      refine hm m hp.mapped fun s hs => ?_
      obtain rfl := Option.some.inj (hshm.symm.trans hs)
      exact hno
    obtain ⟨hp', hk'⟩ := ih (fun d' hd' => hl d' (List.mem_cons_of_mem _ hd')) hrest
      (hp.of_segment_eq hmapped (by rw [hk]) (by rw [hk]))
    exact ⟨hp', hk'.trans hk⟩

variable {configs : List PubSubConfig} {publishers : List Publisher}

/-- A publisher that goes is not one that stays. -/
theorem ne_of_mem_dropped {d : Publisher} (hp : p ∈ kept configs publishers)
    (hd : d ∈ dropped configs publishers) : p ≠ d := by
  rintro rfl
  have hconf := (List.mem_filter.mp hp).2
  exact absurd (List.mem_filter.mp hd).2 (by simp [hconf])

/-- Two publishers are on their segments through different mappings. -/
def MappedApart (w : World) (p p' : Publisher) : Prop :=
  ∀ q q' m m', Publishing w p q m → Publishing w p' q' m' → m.addr ≠ m'.addr

instance (w : World) : Std.Symm (MappedApart w) :=
  ⟨fun _ _ h q q' m m' hq hq' => (h q' q m' m hq' hq).symm⟩

instance (w : World) (p p' : Publisher) : Decidable (MappedApart w p p') :=
  decidable_of_iff (∀ q ∈ p.queue, ∀ q' ∈ p'.queue, ∀ m ∈ w.process.mappings,
      ∀ m' ∈ w.process.mappings, Publishing w p q m → Publishing w p' q' m' → m.addr ≠ m'.addr)
    ⟨fun h q q' m m' hp hp' =>
        h q hp.queue q' hp'.queue m hp.mapped m' hp'.mapped hp hp',
      fun h q _ q' _ m _ m' _ => h q q' m m'⟩

/-- Every publisher is on a segment of its object, through a mapping of its own. -/
structure Stationed (w : World) (publishers : List Publisher) : Prop where
  publishing : ∀ p ∈ publishers, ∃ q m, Publishing w p q m
  own : publishers.Pairwise (MappedApart w)

namespace Stationed

instance : Decidable (Stationed w publishers) :=
  decidable_of_iff ((∀ p ∈ publishers, ∃ q m, Publishing w p q m) ∧
    publishers.Pairwise (MappedApart w)) ⟨fun h => ⟨h.1, h.2⟩, fun h => ⟨h.1, h.2⟩⟩

/-- Publishers on distinct objects. -/
theorem of_nodup (hpub : ∀ p ∈ publishers, ∃ q m, Publishing w p q m)
    (hnodup : (publishers.map fun p => p.config.object).Nodup) : Stationed w publishers := by
  refine ⟨hpub, (List.pairwise_map.mp hnodup).imp ?_⟩
  intro p p' hne q q' m m' h h'
  exact h.addr_ne h' hne

/-- What goes has its pages elsewhere than another mapping, of before or new. -/
theorem dropped_elsewhere (hst : Stationed w publishers)
    (hkept : ∀ m ∈ w.process.mappings, m ∈ w'.process.mappings) {m : Mapping}
    (hm : m ∈ w'.process.mappings)
    (hne : ∀ d ∈ dropped configs publishers, ∀ q m', Publishing w d q m' → m ≠ m') :
    ∀ d ∈ dropped configs publishers, ∃ shm, d.shm = some shm ∧ shm.created = false ∧
      ¬ m.Meets shm.shmPtr (shm.shmPtr + pageCeil shm.size) := by
  intro d hd
  obtain ⟨q, m', hpub⟩ := hst.publishing d (List.mem_filter.mp hd).1
  obtain ⟨shm, hshm, haddr, hlen, hcreated⟩ := hpub.shm
  refine ⟨shm, hshm, hcreated, ?_⟩
  -- two mappings of a process are apart
  rw [haddr, hlen]
  exact w'.process.apart_of_ne hm (hkept m' hpub.mapped) (hne d hd q m' hpub)

variable {added : List Publisher} {w₁ : World}

/-- **A publisher that stays**: first others are created, on other objects, then others release
their memory. -/
theorem kept (hst : Stationed w publishers) (hw : w.Roomy env)
    (hfit : ∀ cfg ∈ newConfigs publishers configs, cfg.storageSizeBytes ≤ env.limit)
    (hadded : Created env w (newConfigs publishers configs) added w₁)
    (hrel : (releaseAll (dropped configs publishers)).run (World.exec env) w₁ = some ((), w'))
    (hp : p ∈ PubSub.kept configs publishers)
    (hnew : p.config.object ∉ (newConfigs publishers configs).map PubSubConfig.object)
    (hpub : Publishing w p q m) :
    Publishing w' p q m ∧ w'.kernel.segments m.seg = w.kernel.segments m.seg := by
  obtain ⟨hp₁, hseg₁⟩ := hadded.keeps hw hfit hnew hpub
  have hmem := (List.mem_filter.mp hp).1
  -- the publishers that are released are on other mappings than one that is kept
  have hother : ∀ d ∈ dropped configs publishers, ∀ q' m', Publishing w d q' m' → m ≠ m' := by
    rintro d hd q' m' hd' rfl
    exact hst.own.forall hmem (List.mem_filter.mp hd).1 (ne_of_mem_dropped hp hd) q q' m m hpub hd'
      rfl
  obtain ⟨hp', hk⟩ := keeps_of_releaseAll
    (hst.dropped_elsewhere (hadded.roomy hw hfit).2 hp₁.mapped hother) hrel hp₁
  rw [hk]
  exact ⟨hp', hseg₁⟩

/-- **A new publisher** is mapped where nothing was before the sync, and stays there. -/
theorem created (hst : Stationed w publishers) (hw : w.Roomy env)
    (hfit : ∀ cfg ∈ newConfigs publishers configs, cfg.storageSizeBytes ≤ env.limit)
    (hadded : Created env w (newConfigs publishers configs) added w₁)
    (hrel : (releaseAll (dropped configs publishers)).run (World.exec env) w₁ = some ((), w'))
    (hnodup : ((newConfigs publishers configs).map PubSubConfig.object).Nodup) (hp : p ∈ added)
    (hpub : Publishing w₁ p q m) : Publishing w' p q m ∧ w'.kernel = w₁.kernel := by
  obtain ⟨q', m', hpub', hfresh⟩ := hadded.publishing hw hfit hnodup p hp
  obtain ⟨rfl, rfl⟩ := hpub.unique hpub'
  refine keeps_of_releaseAll (hst.dropped_elsewhere (hadded.roomy hw hfit).2
    hpub.mapped ?_) hrel hpub
  rintro d hd q' m' hd' rfl
  exact hfresh hd'.mapped

end Stationed

/-- The objects of the publishers a sync leaves, if it succeeds. -/
def objectsAfter (configs : List PubSubConfig) (publishers : List Publisher) : List String :=
  (kept configs publishers).map (fun p => p.config.object) ++
    (newConfigs publishers configs).map PubSubConfig.object

/-- The objects of the publishers that a sync leaves. -/
theorem objects_eq {added : List Publisher}
    (h : added.map Publisher.config = newConfigs publishers configs) :
    (PubSub.mk (kept configs publishers ++ added) []).objects =
      objectsAfter configs publishers := by
  have hadded : added.map (fun p => p.config.object) =
      (newConfigs publishers configs).map PubSubConfig.object := by
    rw [← h, List.map_map]
    rfl
  unfold objects objectsAfter
  rw [List.map_append, hadded]

/-- Different objects, different names. -/
theorem nodup_names {x : PubSub} (h : x.objects.Nodup) : x.names.Nodup := by
  have hmap : x.objects = x.names.map shmObject := by
    unfold objects names
    rw [List.map_map]
    rfl
  rw [hmap] at h
  exact h.of_map shmObject

end PubSub

/-- The configured sizes are `limit` at most. -/
def HubAction.Fits (limit : Nat) : HubAction → Prop
  | .sync configs => ∀ cfg ∈ configs, cfg.storageSizeBytes ≤ limit
  | _ => True

instance HubAction.decidableFits (limit : Nat) : (a : HubAction) → Decidable (a.Fits limit)
  | .sync configs => inferInstanceAs (Decidable (∀ cfg ∈ configs, cfg.storageSizeBytes ≤ limit))
  | .publish _ => isTrue trivial
  | .consume _ _ => isTrue trivial

/-- So are those of the new configurations. -/
theorem HubAction.Fits.newConfigs {limit : Nat} {configs : List PubSubConfig}
    (h : (HubAction.sync configs).Fits limit) (publishers : List Publisher) :
    ∀ cfg ∈ PubSub.newConfigs publishers configs, cfg.storageSizeBytes ≤ limit :=
  fun cfg hcfg => h cfg (List.mem_filter.mp hcfg).1

namespace Hub

/-! ### The invariant -/

/-- No changes are pending, the objects of the publishers are distinct, every publisher is on a
segment of its object, and there is room below the mappings. -/
structure Inv (env : Env) (x : Hub) : Prop where
  queue : x.pubsub.changeQueue = []
  nodup : x.pubsub.objects.Nodup
  publishing : ∀ p ∈ x.pubsub.publishers, ∃ q m, Publishing x.world p q m
  roomy : x.world.Roomy env

variable {env : Env} {x y : Hub} {r : HubReply} {configs : List PubSubConfig}

/-- The invariant holds at the start, where there are no publishers. -/
theorem inv_start {w : World} (hw : w.Roomy env) : (start w).Inv env :=
  ⟨rfl, List.nodup_nil, fun _ hp => absurd hp List.not_mem_nil, hw⟩

/-- The publishers of a hub stand apart, each on its own mapping. -/
theorem Inv.stationed (hx : x.Inv env) : PubSub.Stationed x.world x.pubsub.publishers :=
  .of_nodup hx.publishing hx.nodup

/-- What a sync that succeeds has done. -/
structure SyncsTo (configs : List PubSubConfig) (x : Hub) (added : List Publisher) (y : Hub) :
    Prop where
  pubsub : y.pubsub = ⟨PubSub.kept configs x.pubsub.publishers ++ added, []⟩
  views : y.views = x.views
  map_config : added.map Publisher.config = PubSub.newConfigs x.pubsub.publishers configs
  /-- The publishers that are kept, their mappings and their segments are as they were, unless their
  objects are configured anew. -/
  kept : ∀ p ∈ PubSub.kept configs x.pubsub.publishers,
    p.config.object ∉ (PubSub.newConfigs x.pubsub.publishers configs).map PubSubConfig.object →
    ∀ q m, Publishing x.world p q m →
    Publishing y.world p q m ∧ y.world.kernel.segments m.seg = x.world.kernel.segments m.seg
  added : ((PubSub.newConfigs x.pubsub.publishers configs).map PubSubConfig.object).Nodup →
    ∀ p ∈ added, ∃ q m, Publishing y.world p q m

/-- **A sync that succeeds.** -/
theorem sync_spec (hx : x.Inv env) (hfit : (HubAction.sync configs).Fits env.limit)
    (h : x.step env (.sync configs) = some (r, y)) (hr : r.accepted = true) :
    ∃ added, SyncsTo configs x added y := by
  have hnew := hfit.newConfigs x.pubsub.publishers
  obtain ⟨res, rfl, hviews, hsyncs⟩ := syncs_of_step hx.queue h
  generalize hpubsub : y.pubsub = pubsub at hsyncs
  generalize hworld : y.world = w' at hsyncs
  -- a sync that was accepted has made all its publishers and then released the others
  cases hsyncs with
  | failed => exact absurd hr (by simp [HubReply.accepted])
  | @done added w₁ _ hadded hrel =>
    have hst := hx.stationed
    refine ⟨added, hpubsub, hviews, hadded.map_config, fun p hp hother q m hpub => ?_,
      fun hnodup p hp => ?_⟩
    · rw [hworld]
      exact hst.kept hx.roomy hnew hadded hrel hp hother hpub
    · obtain ⟨q, m, hpub, -⟩ := hadded.publishing hx.roomy hnew hnodup p hp
      rw [hworld]
      exact ⟨q, m, (hst.created hx.roomy hnew hadded hrel hnodup hp hpub).1⟩

/-- **An operation of a subscriber** replaces the storage in its segment. -/
theorem consume_spec {i : Nat} {o : ConsumerOp} (h : x.step env (.consume i o) = some (r, y)) :
    ∃ res z, (x.session i).apply (SPSCQueue.construct (x.storage i)) (x.extent i) o.toOp =
        some (res, z) ∧ y = x.putSession i z ∧ Stores i z.storage x.world y.world ∧
      (x.storage i).SameHeader z.storage := by
  obtain ⟨-, res, z, -, rfl, happly⟩ := step_consume h
  have hrange := Session.inRange_of_apply happly (SPSCStorage.inRange_ofBytes _)
  exact ⟨res, z, happly, rfl, .setBytes hrange _, Session.sameHeader_of_apply happly⟩

/-- **A publish.** -/
theorem publish_fans {payload : Payload} (hx : x.Inv env)
    (h : x.step env (.publish payload) = some (r, y)) : ∃ b, r = .published b ∧
      y.pubsub = x.pubsub ∧ y.views = x.views ∧ Fanned x.pubsub.publishers x.world y.world ∧
      ∃ oks, List.Forall₂ (Enqueues ⟨payload⟩ x.world y.world) x.pubsub.publishers oks ∧
        b = oks.all id := by
  obtain ⟨b, rfl, hpubsub, hviews, hrun⟩ := step_publish h
  obtain ⟨hfan, oks, hoks, hb⟩ := publishAll_spec hx.nodup hx.publishing hrun
  rw [Bool.true_and] at hb
  exact ⟨b, rfl, hpubsub, hviews, hfan, oks, hoks, hb⟩

/-! ### Runs -/

/-- The syncs succeed. -/
def Succeeds (env : Env) (x : Hub) : HubAction → Prop
  | .sync configs => ((x.step env (.sync configs)).all fun z => z.1.accepted) = true
  | _ => True

instance (env : Env) (x : Hub) : (a : HubAction) → Decidable (x.Succeeds env a)
  | .sync _ => inferInstanceAs (Decidable (_ = true))
  | .publish _ => isTrue trivial
  | .consume _ _ => isTrue trivial

/-- A sync that succeeds has been accepted. -/
theorem Succeeds.accepted (h : x.Succeeds env (.sync configs))
    (hstep : x.step env (.sync configs) = some (r, y)) : r.accepted = true := by
  change ((x.step env (.sync configs)).all fun z => z.1.accepted) = true at h
  rw [hstep] at h
  exact h

/-- The condition on a sync: the configurations without a publisher are about distinct objects, and
about none that a publisher which stays is on. -/
def NewDistinct (x : Hub) : HubAction → Prop
  | .sync configs => (PubSub.objectsAfter configs x.pubsub.publishers).Nodup
  | _ => True

instance (x : Hub) : (a : HubAction) → Decidable (x.NewDistinct a)
  | .sync _ => inferInstanceAs (Decidable (List.Nodup _))
  | .publish _ => isTrue trivial
  | .consume _ _ => isTrue trivial

/-- An action leaves room if its sizes fit. -/
theorem roomy_step {a : HubAction} (hw : x.world.Roomy env) (hfit : a.Fits env.limit)
    (h : x.step env a = some (r, y)) : y.world.Roomy env := by
  cases a with
  | sync configs =>
    obtain ⟨res, -, -, hrun⟩ := step_sync h
    exact hw.run (PubSub.all_sizes_syncConfigs _ hfit) hrun
  | publish payload =>
    obtain ⟨ok, -, -, -, hrun⟩ := step_publish h
    exact hw.run ((PubSub.onMemory_publishAll _ _ _).imp fun _ ho => ho.sizes) hrun
  | consume i o =>
    obtain ⟨res, z, -, rfl, hst, -⟩ := consume_spec h
    exact hw.of_stores hst

/-- What one action preserves. -/
theorem inv_step {a : HubAction} (hx : x.Inv env) (hfit : a.Fits env.limit) (hs : x.Succeeds env a)
    (hd : x.NewDistinct a) (h : x.step env a = some (r, y)) : y.Inv env := by
  have hroomy := roomy_step hx.roomy hfit h
  cases a with
  | sync configs =>
    obtain ⟨added, hto⟩ := sync_spec hx hfit h (hs.accepted h)
    obtain ⟨-, hnew, hdisjoint⟩ := List.nodup_append.mp hd
    refine ⟨by rw [hto.pubsub], ?_, fun p hp => ?_, hroomy⟩
    · rw [hto.pubsub, PubSub.objects_eq hto.map_config]
      exact hd
    · rw [hto.pubsub] at hp
      rcases List.mem_append.mp hp with hp | hp
      · obtain ⟨q, m, hpub⟩ := hx.publishing p (List.mem_filter.mp hp).1
        have hother := fun hmem =>
          hdisjoint p.config.object (List.mem_map.mpr ⟨p, hp, rfl⟩) p.config.object hmem rfl
        exact ⟨q, m, (hto.kept p hp hother q m hpub).1⟩
      · exact hto.added hnew p hp
  | publish payload =>
    obtain ⟨b, -, hpubsub, -, hfan, -⟩ := publish_fans hx h
    -- the queue handles depend on the headers only
    refine ⟨by rw [hpubsub]; exact hx.queue, by rw [hpubsub]; exact hx.nodup, fun p hp => ?_,
      hroomy⟩
    rw [hpubsub] at hp
    obtain ⟨q, m, hpub⟩ := hx.publishing p hp
    exact ⟨q, m, hfan.publishing p q m hpub⟩
  | consume i o =>
    obtain ⟨res, z, -, rfl, hst, hheader⟩ := consume_spec h
    refine ⟨hx.queue, hx.nodup, fun p hp => ?_, hroomy⟩
    obtain ⟨q, m, hpub⟩ := hx.publishing p hp
    exact ⟨q, m, hpub.of_stores hst hheader⟩

/-- The property of an action: afterwards the names are distinct, and so are the objects they stand
for; and if it is a publish, every segment is left as it was or as one `enqueue` of the message
leaves it. -/
def DistinctAfter (env : Env) (x : Hub) (a : HubAction) : Prop :=
  ∀ r y, x.step env a = some (r, y) → y.pubsub.names.Nodup ∧ y.pubsub.objects.Nodup ∧
    ∀ payload, a = .publish payload → ∀ i, y.storage i = x.storage i ∨
      ∃ (q : SPSCQueue) (len : Nat) (ok : Bool),
        (q.enqueue ⟨payload⟩).run (SPSCStorage.exec len) (x.storage i) = some (ok, y.storage i)

/-- Every segment receives a message at most once. -/
theorem publish_once {payload : Payload} (hx : x.Inv env)
    (h : x.step env (.publish payload) = some (r, y)) (i : Nat) :
    y.storage i = x.storage i ∨ ∃ (q : SPSCQueue) (len : Nat) (ok : Bool),
      (q.enqueue ⟨payload⟩).run (SPSCStorage.exec len) (x.storage i) =
        some (ok, y.storage i) := by
  obtain ⟨b, -, -, -, hfan, oks, hoks, -⟩ := publish_fans hx h
  by_cases hon : ∃ p ∈ x.pubsub.publishers, ∃ q m, Publishing x.world p q m ∧ m.seg = i
  · -- distinct objects: no second publisher is on the segment
    obtain ⟨p, hp, q, m, hpub, rfl⟩ := hon
    obtain ⟨ok, -, q', m', hpub', hrun⟩ := exists_mem_of_forall₂ hoks hp
    obtain ⟨rfl, rfl⟩ := hpub'.unique hpub
    exact .inr ⟨_, _, ok, hrun⟩
  · refine .inl (congrArg Segment.storage (hfan.others i fun p hp q m hpub hseg => ?_))
    exact hon ⟨p, hp, q, m, hpub, hseg⟩

/-- For a sync that succeeds, condition and property come to the same. -/
theorem distinctAfter_iff {a : HubAction} (hx : x.Inv env) (hfit : a.Fits env.limit)
    (hs : x.Succeeds env a) : x.DistinctAfter env a ↔ x.NewDistinct a := by
  cases a with
  | sync configs =>
    constructor
    · -- a sync always returns, so the property says something about it
      intro hall
      obtain ⟨res, y, hstep, -⟩ := exists_step_sync env x hx.queue configs
      obtain ⟨added, hto⟩ := sync_spec hx hfit hstep (hs.accepted hstep)
      have hnodup := (hall _ _ hstep).2.1
      rw [hto.pubsub, PubSub.objects_eq hto.map_config] at hnodup
      exact hnodup
    · intro hd r y hstep
      have hnodup := (inv_step hx hfit hs hd hstep).nodup
      exact ⟨PubSub.nodup_names hnodup, hnodup, fun payload h => absurd h (by simp)⟩
  | publish payload =>
    refine ⟨fun _ => trivial, fun hd r y hstep => ?_⟩
    have hnodup := (inv_step hx hfit hs hd hstep).nodup
    refine ⟨PubSub.nodup_names hnodup, hnodup, fun payload' heq => ?_⟩
    obtain rfl := HubAction.publish.inj heq
    exact publish_once hx hstep
  | consume i o =>
    refine ⟨fun _ => trivial, fun hd r y hstep => ?_⟩
    have hnodup := (inv_step hx hfit hs hd hstep).nodup
    exact ⟨PubSub.nodup_names hnodup, hnodup, fun payload h => absurd h (by simp)⟩

end Hub

/-- The same under another name. -/
def config64' : PubSubConfig := { config64 with shmName := "/second" }

/-- A run that adds two publishers, publishes, and drops one of them. -/
def exampleRun : List HubAction :=
  [.sync [config64, config64'], .publish [1, 2, 3], .consume 1 .dequeueBegin,
    .sync [config64'], .publish [4]]

end PosixIpc
