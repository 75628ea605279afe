import PosixIpc.PubSub.Room

/-!
# Descriptors and mappings of publishers and subscribers

What `from_config`, `sync_configs` and the destructors do with the handles of the process, by the
ledger of all descriptors and mappings.

`Books` is the state of the ledger: what was acquired and not released is held by somebody or lost,
and no handle is held twice. What was open before the process began with all this stays open
throughout (`Books.others`). Two places lose a descriptor: the probe of `SharedMemory::exists` if it
gets descriptor 0, and the creation of a segment of size zero. Neither happens in a process whose
descriptor 0 is in use and whose configurations have a size.

`Inventory` says who holds what: the shared memory objects of the process, each of which unmaps
nothing but its own mapping. There is room below the mappings, so what is left of an object that was
moved unmaps nothing, and the mappings that were there in the beginning keep all their pages
(`Inventory.keeps`).

A sync that fails leaves publishers in the queue of changes, and the next one creates them again.
`PubSub.owners` are the publishers together with those in the queue, and `ensures_syncConfigs` asks
for nothing about the queue.
-/

namespace PosixIpc

open Framework

/-! ### Books -/

/-- The handles `held` are held, and `lost` are lost, in a process that began in the world `base`.
In a process that is `tidy` nothing is lost. -/
structure Books (base : World) (tidy : Prop) (x : Logged) (held lost : List Handle) : Prop where
  accounts : x.ledger.Accounts held lost
  isOpen : ∀ h, h ∈ held ∨ h ∈ lost → x.world.IsOpen h
  others : ∀ h, base.IsOpen h → x.world.IsOpen h ∧ h ∉ held ∧ h ∉ lost
  descriptor : ∀ h ∈ lost, ∃ fd, h = .descriptor fd
  tidy : tidy → lost = []

namespace Books

variable {base : World} {tidy : Prop} {x y : Logged} {held held' lost new : List Handle} {fd : Nat}

/-- Empty books: nothing is held and nothing has been acquired. -/
theorem start (base : World) (tidy : Prop) : Books base tidy ⟨base, ⟨[], []⟩⟩ [] [] where
  accounts := Ledger.accounts_empty
  isOpen h hh := absurd hh (by simp)
  others h hh := ⟨hh, List.not_mem_nil, List.not_mem_nil⟩
  descriptor h hh := absurd hh List.not_mem_nil
  tidy _ := rfl

/-- The order in which things are held is of no importance. -/
theorem congr (h : Books base tidy x held lost) (hc : ∀ a, held'.count a = held.count a) :
    Books base tidy x held' lost := by
  have hmem : ∀ a, a ∈ held' ↔ a ∈ held := by
    intro a
    rw [← List.count_pos_iff, ← List.count_pos_iff, hc a]
  refine ⟨h.accounts.congr hc, fun a ha => ?_, fun a ha => ?_, h.descriptor, h.tidy⟩
  · rw [hmem a] at ha
    exact h.isOpen a ha
  · rw [hmem a]
    exact h.others a ha

/-- Handles are gained. -/
theorem gain (h : Books base tidy x held lost) (hg : Logged.Gains x y new) :
    Books base tidy y (held ++ new) lost := by
  obtain ⟨t, hacquired, hreleased, -⟩ := hg.ledger
  refine ⟨?_, ?_, fun a ha => ?_, h.descriptor, h.tidy⟩
  · -- what is held or lost is open, the new handles were not
    refine h.accounts.gain hacquired hreleased hg.nodup fun a ha => ⟨fun hmem => ?_, fun hmem => ?_⟩
    · exact hg.fresh a ha (h.isOpen a (.inl hmem))
    · exact hg.fresh a ha (h.isOpen a (.inr hmem))
  · rintro a (ha | ha)
    · rcases List.mem_append.mp ha with ha | ha
      · exact (hg.isOpen a).mpr (.inl (h.isOpen a (.inl ha)))
      · exact (hg.isOpen a).mpr (.inr ha)
    · exact (hg.isOpen a).mpr (.inl (h.isOpen a (.inr ha)))
  · obtain ⟨hopen, hheld, hlost⟩ := h.others a ha
    refine ⟨(hg.isOpen a).mpr (.inl hopen), fun hmem => ?_, hlost⟩
    rcases List.mem_append.mp hmem with hmem | hmem
    · exact hheld hmem
    · exact hg.fresh a hmem hopen

/-- A descriptor is forgotten. -/
theorem forget (h : Books base tidy x (held ++ [.descriptor fd]) lost) (hno : ¬ tidy) :
    Books base tidy x held (lost ++ [.descriptor fd]) := by
  -- the descriptor moves from what is held to what is lost; it stays open
  refine ⟨h.accounts.lose fun a => (List.count_append ..).symm, ?_, fun a ha => ?_, ?_,
    fun ht => absurd ht hno⟩
  · rintro a (ha | ha)
    · exact h.isOpen a (.inl (List.mem_append_left _ ha))
    · rcases List.mem_append.mp ha with ha | ha
      · exact h.isOpen a (.inr ha)
      · exact h.isOpen a (.inl (List.mem_append_right _ ha))
  · -- what is in neither list is not the descriptor either
    obtain ⟨hopen, hheld, hlost⟩ := h.others a ha
    refine ⟨hopen, fun hmem => hheld (List.mem_append_left _ hmem), fun hmem => ?_⟩
    rcases List.mem_append.mp hmem with hmem | hmem
    · exact hlost hmem
    · exact hheld (List.mem_append_right _ hmem)
  · -- what is lost are descriptors, with this one
    intro a ha
    rcases List.mem_append.mp ha with ha | ha
    · exact h.descriptor a ha
    · exact ⟨fd, List.mem_singleton.mp ha⟩

/-- Handles are released, and what else was open stays open. -/
theorem release (h : Books base tidy x held lost)
    (hc : ∀ a, held'.count a + new.count a = held.count a)
    (hl : y.ledger = x.ledger.record [] new)
    (hopen : ∀ a, x.world.IsOpen a → a ∉ new → y.world.IsOpen a) :
    Books base tidy y held' lost := by
  refine ⟨by rw [hl]; exact h.accounts.release hc, ?_, fun a ha => ?_, h.descriptor, h.tidy⟩
  · rintro a (ha | ha)
    · exact hopen a (h.isOpen a (.inl (Ledger.mem_of_count hc (.inl ha))))
        fun ha' => h.accounts.not_mem hc ha' ha
    · -- lost, so it was not held
      refine hopen a (h.isOpen a (.inr ha)) fun ha' => ?_
      have hs := h.accounts.single a
      have hc' := hc a
      have h₁ := List.count_pos_iff.mpr ha
      have h₂ := List.count_pos_iff.mpr ha'
      omega
  · obtain ⟨hx, hheld, hlost⟩ := h.others a ha
    exact ⟨hopen a hx fun hmem => hheld (Ledger.mem_of_count hc (.inr hmem)),
      fun hmem => hheld (Ledger.mem_of_count hc (.inl hmem)), hlost⟩

end Books

/-! ### Objects and what they hold -/

/-- The books of a process with the objects `objs`. Each of them unmaps what is its own, there is
room below the mappings, and the mappings of the world `base` have all their pages. -/
structure Inventory (env : Env) (base : World) (tidy : Prop) (x : Logged)
    (objs : List SharedMemory) (lost : List Handle) : Prop where
  books : Books base tidy x (objs.flatMap SharedMemory.handles) lost
  roomy : x.world.Roomy env
  sound : ∀ shm ∈ objs, shm.Sound env x.world
  keeps : ∀ m ∈ base.process.mappings, m ∈ x.world.process.mappings

/-- What a factory returns comes with objects, if it returns anything. -/
def objectsOf {α : Type} (owned : α → List SharedMemory) :
    Except PosixIpcError α → List SharedMemory
  | .error _ => []
  | .ok a => owned a

namespace Inventory

variable {env : Env} {base : World} {tidy : Prop} {x y : Logged}
  {objs objs' new new' : List SharedMemory} {lost : List Handle} {shm : SharedMemory} {fd : Nat}

/-- An empty inventory, in a process with room below its mappings. -/
theorem start (hw : base.Roomy env) (tidy : Prop) :
    Inventory env base tidy ⟨base, ⟨[], []⟩⟩ [] [] where
  books := Books.start base tidy
  roomy := hw
  sound _ h := absurd h List.not_mem_nil
  keeps _ hm := hm

/-- The order of the objects is of no importance. -/
theorem congr (h : Inventory env base tidy x objs lost) (hp : objs'.Perm objs) :
    Inventory env base tidy x objs' lost where
  books := h.books.congr fun a => (hp.flatMap_right _).count_eq a
  roomy := h.roomy
  sound shm hmem := h.sound shm (hp.mem_iff.mp hmem)
  keeps := h.keeps

/-- Objects change places. -/
theorem swap (h : Inventory env base tidy x (objs ++ new ++ new') lost) :
    Inventory env base tidy x (objs ++ new' ++ new) lost := by
  refine h.congr ?_
  rw [List.append_assoc, List.append_assoc]
  exact List.perm_append_comm.append_left objs

/-- Objects are sound while the mappings they had are there. -/
theorem sound_of_gains (h : Inventory env base tidy x objs lost) {new : List Handle}
    (hg : Logged.Gains x y new) : ∀ shm ∈ objs, shm.Sound env y.world :=
  fun shm hmem => (h.sound shm hmem).of_mappings fun m hm _ => hg.mappings m hm

/-- New objects come with their handles. -/
theorem gain (h : Inventory env base tidy x objs lost)
    (hg : Logged.Gains x y (new.flatMap SharedMemory.handles)) (hroom : y.world.Roomy env)
    (hnew : ∀ shm ∈ new, shm.Sound env y.world) :
    Inventory env base tidy y (objs ++ new) lost where
  books := by
    rw [List.flatMap_append]
    exact h.books.gain hg
  roomy := hroom
  sound shm hmem := by
    rcases List.mem_append.mp hmem with hmem | hmem
    · exact h.sound_of_gains hg shm hmem
    · exact hnew shm hmem
  keeps m hm := hg.mappings m (h.keeps m hm)

/-- No handle is gained. -/
theorem gain_nothing (h : Inventory env base tidy x objs lost) (hg : Logged.Gains x y [])
    (hroom : y.world.Roomy env) : Inventory env base tidy y objs lost := by
  have hgain : Inventory env base tidy y (objs ++ []) lost :=
    h.gain hg hroom fun _ hmem => absurd hmem List.not_mem_nil
  rw [List.append_nil] at hgain
  exact hgain

/-- A descriptor is opened and forgotten. -/
theorem forget (h : Inventory env base tidy x objs lost) (hg : Logged.Gains x y [.descriptor fd])
    (hroom : y.world.Roomy env) (hno : ¬ tidy) :
    Inventory env base tidy y objs (lost ++ [.descriptor fd]) where
  books := (h.books.gain hg).forget hno
  roomy := hroom
  sound := h.sound_of_gains hg
  keeps m hm := hg.mappings m (h.keeps m hm)

/-- Nothing happens to the process. -/
theorem quiet (h : Inventory env base tidy x objs lost) (hl : y.ledger = x.ledger)
    (hp : y.world.process = x.world.process) (hroom : y.world.Roomy env) :
    Inventory env base tidy y objs lost :=
  h.gain_nothing (Logged.Gains.nothing hl hp) hroom

/-- A program that sizes no object beyond the limit leaves room where there is. -/
theorem ensures_roomy (h : Inventory env base tidy x objs lost) {α : Type} {p : SysProg α}
    {V : α → Prop} (hp : p.All (SysCall.Sizes env.limit) V) :
    Ensures (Logged.exec env) p x fun _ y => y.world.Roomy env :=
  fun _ _ hrun => h.roomy.run hp (Logged.run_world hrun)

/-- Below every mapping there are as many bytes as an object has. -/
theorem room (h : Inventory env base tidy x objs lost) (hs : shm.size ≤ env.limit) :
    ∀ m ∈ x.world.process.mappings, shm.size ≤ m.addr :=
  fun m hm => hs.trans (h.roomy.mappings m hm)

/-- **Moving** an object changes nothing. -/
theorem ensures_moveOut (h : Inventory env base tidy x objs lost) (hmem : shm ∈ objs) :
    Ensures (Logged.exec env) shm.moveOut x fun r y => r = shm ∧ y = x := by
  intro r y hrun
  have hs := h.sound shm hmem
  rw [SharedMemory.run_moveOut_handles hs.created (h.room hs.size_le)] at hrun
  obtain ⟨rfl, rfl⟩ := Prod.mk.inj (Option.some.inj hrun)
  exact ⟨rfl, rfl⟩

/-- **Destroying what is left** of an object that was moved changes nothing. -/
theorem ensures_destroy_moved (h : Inventory env base tidy x objs lost)
    (hc : shm.created = false) (hs : shm.size ≤ env.limit) :
    Ensures (Logged.exec env) shm.moveConstruct.2.destroy x fun _ y => y = x := by
  intro u y hrun
  rw [SharedMemory.run_destroy_moved_handles hc (h.room hs)] at hrun
  exact (Prod.mk.inj (Option.some.inj hrun)).2.symm

/-- **Destroying** an object releases its handles, and no others. -/
theorem ensures_destroy (h : Inventory env base tidy x (objs ++ [shm]) lost) :
    Ensures (Logged.exec env) shm.destroy x fun _ y => Inventory env base tidy y objs lost := by
  have hs := h.sound shm (List.mem_append_right _ (List.mem_singleton_self shm))
  refine ((SharedMemory.runs_destroy_handles hs h.roomy).ensures.and
    (h.ensures_roomy (SharedMemory.all_sizes_destroy shm _))).mono ?_
  rintro _ y ⟨⟨-, hl, hopen, hmappings⟩, hroom⟩
  have hcount : ∀ a, (objs.flatMap SharedMemory.handles).count a + shm.handles.count a =
      ((objs ++ [shm]).flatMap SharedMemory.handles).count a := by
    intro a
    rw [List.flatMap_append, List.count_append, List.flatMap_singleton]
  refine ⟨h.books.release hcount hl hopen, hroom, fun d hd => ?_, fun m hm => ?_⟩
  · -- the mapping of another object is not that of this one
    have hsound := h.sound d (List.mem_append_left _ hd)
    refine ⟨hsound.created, hsound.size_le, fun hne => ?_⟩
    obtain ⟨k, hk⟩ := hsound.mapped hne
    refine ⟨k, hmappings _ hk fun hmem => h.books.accounts.not_mem hcount hmem ?_⟩
    exact List.mem_flatMap.mpr ⟨d, hd, SharedMemory.mem_handles_mapping hne⟩
  · -- nor is one that was there in the beginning
    refine hmappings m (h.keeps m hm) fun hmem => ?_
    exact (h.books.others (.mapping m.addr) ⟨m, hm, rfl⟩).2.1
      (Ledger.mem_of_count hcount (.inr hmem))

/-- A call on memory. -/
theorem exec_onMemory (o : SysCall) (ho : o.OnMemory) (x : Logged) (r : o.Ret) (y : Logged)
    (he : Logged.exec env o x = some (r, y)) (h : Inventory env base tidy x objs lost) :
    Inventory env base tidy y objs lost := by
  obtain ⟨hl, hp, hworld⟩ := Logged.exec_onMemory ho he
  exact h.quiet hl hp (h.roomy.exec ho.sizes hworld)

end Inventory

/-! ### Shared memory -/

section SharedMemory

variable {env : Env} {base : World} {tidy : Prop} {x : Logged} {objs : List SharedMemory}
  {lost : List Handle}

/-- **The probe** gives back its descriptor, unless it is descriptor 0. -/
theorem SharedMemory.runs_exists_handles (name : String) :
    Runs (Logged.exec env) (SharedMemory.exists name) x fun _ y => Logged.Gains x y [] ∨
      x.world.process.file 0 = none ∧ ∃ fd, Logged.Gains x y [.descriptor fd] := by
  unfold SharedMemory.exists SysProg.shmOpen SysProg.close SysProg.shmUnlink
  simp only [Prog.step_bind, Prog.ret_bind]
  rcases World.failing_cases env (World.shmOpen name { creat := true, excl := true }) x.world with
    ⟨e, hf, heq⟩ | ⟨hf, heq⟩
  · exact Runs.step (Logged.exec_eq (congrArg some heq))
      (Runs.ret (.inl (.nothing (Ledger.record_nil _) rfl)))
  · cases hb : x.world.kernel.names name with
    | some i =>
      rw [World.shmOpen_excl hb rfl] at heq
      exact Runs.step (Logged.exec_eq (congrArg some heq))
        (Runs.ret (.inl (.nothing (Ledger.record_nil _) rfl)))
    | none =>
      rw [World.shmOpen_create hb rfl] at heq
      refine Runs.step (Logged.exec_eq (congrArg some heq)) ?_
      have hold := @SharedMemory.holding_openFile x.world.kernel.next x x.ledger rfl
        (x.world.kernel.create name) (x.world.calls + 1)
      by_cases hpos : 0 < (x.world.process.openFile x.world.kernel.next).1
      · simp only [if_pos hpos]
        refine Runs.step (Logged.exec_eq rfl) (Runs.step (Logged.exec_eq rfl) (Runs.ret (.inl ?_)))
        have hclosed : Logged.Gains x ⟨⟨_, _, x.world.calls + 1⟩, _⟩ [] := hold.close
        exact hclosed.of_process_eq (Ledger.record_nil _) rfl
      · simp only [if_neg hpos]
        -- descriptor 0 was free, and is left open
        have hfd : (x.world.process.openFile x.world.kernel.next).1 = 0 :=
          Nat.eq_zero_of_not_pos hpos
        have hfree := hold.free
        rw [hfd] at hfree
        exact Runs.ret (.inr ⟨hfree, _, hold.gains⟩)

/-- **The probe** keeps the books. If descriptor 0 were free, what it opens could be lost. -/
theorem SharedMemory.ensures_exists (name : String) (hzero : tidy → base.IsOpen (.descriptor 0))
    (hx : Inventory env base tidy x objs lost) :
    Ensures (Logged.exec env) (SharedMemory.exists name) x fun _ y =>
      ∃ lost', Inventory env base tidy y objs lost' := by
  refine ((SharedMemory.runs_exists_handles name).ensures.and
    (hx.ensures_roomy (SharedMemory.all_sizes_exists name))).mono ?_
  rintro _ y ⟨hg | ⟨hfree, fd, hg⟩, hroom⟩
  · exact ⟨lost, hx.gain_nothing hg hroom⟩
  · exact ⟨_, hx.forget hg hroom fun ht => (hx.books.others _ (hzero ht)).1 hfree⟩

/-- **`open_or_create`.** -/
theorem SharedMemory.ensures_openOrCreate (name : String) {size : Nat} {create : Bool}
    (hfit : create = true → size ≤ env.limit) (hsize : tidy → create = true → size ≠ 0)
    (hx : Inventory env base tidy x objs lost) :
    Ensures (Logged.exec env) (SharedMemory.openOrCreate name size create) x fun r y =>
      ∃ lost', Inventory env base tidy y (objs ++ objectsOf ([·]) r) lost' := by
  -- the exits of the call, with the room it leaves
  refine ((SharedMemory.runs_openOrCreate_handles hx.roomy hfit).ensures.and
    (hx.ensures_roomy (SharedMemory.all_sizes_openOrCreate hfit))).mono ?_
  rintro r y ⟨h, hroom⟩
  cases h with
  -- nothing was gained, or everything was given back
  | failed e hno hg =>
    refine ⟨lost, ?_⟩
    change Inventory env base tidy y (objs ++ []) lost
    rw [List.append_nil]
    exact hx.gain_nothing hg hroom
  -- a descriptor is left open by a size of zero, which a tidy run does not ask for
  | leaked e fd hyes hg =>
    refine ⟨lost ++ [.descriptor fd], ?_⟩
    change Inventory env base tidy y (objs ++ []) (lost ++ [.descriptor fd])
    rw [List.append_nil]
    exact hx.forget hg hroom fun ht => hsize ht hyes.1 hyes.2.1
  -- the object enters the inventory with its handles
  | opened shm hno hs hg =>
    have hg' : Logged.Gains x y ([shm].flatMap SharedMemory.handles) := by
      rw [List.flatMap_singleton]
      exact hg
    exact ⟨lost, hx.gain hg' hroom (List.forall_mem_singleton.mpr hs)⟩

end SharedMemory

/-! ### Publishers and subscribers -/

section Owners

variable {env : Env} {base : World} {tidy : Prop} {x : Logged} {objs : List SharedMemory}
  {lost : List Handle} {config : PubSubConfig}

/-- The shared memory object of a publisher. -/
def Publisher.objects (p : Publisher) : List SharedMemory := p.shm.toList

/-- Letting go of the old object strikes it from the inventory. -/
theorem Publisher.ensures_release {old : Option SharedMemory}
    (hx : Inventory env base tidy x (objs ++ old.toList) lost) :
    Ensures (Logged.exec env) (Publisher.release old) x fun _ y =>
      Inventory env base tidy y objs lost := by
  cases old with
  | none => exact .ret (hx.congr (by rw [Option.toList_none, List.append_nil]))
  | some shm => exact hx.ensures_destroy

/-- A queue on a segment that is mapped. -/
theorem Publisher.ensures_onStorage {shm : SharedMemory}
    (hx : Inventory env base tidy x (objs ++ [shm]) lost) :
    Ensures (Logged.exec env) (Publisher.onStorage config shm) x fun r y =>
      ∃ lost', Inventory env base tidy y (objs ++ objectsOf Publisher.objects r) lost' := by
  unfold Publisher.onStorage SysProg.storage
  exact .step fun s y he => .ret ⟨lost,
    Inventory.exec_onMemory (.storage shm.shmPtr) trivial x s y he hx⟩

/-- **Creating the segment anew**, with the object that was open before. -/
theorem Publisher.ensures_recreate (old : Option SharedMemory)
    (hfit : config.storageSizeBytes ≤ env.limit) (hsize : tidy → config.storageSizeBytes ≠ 0)
    (hx : Inventory env base tidy x (objs ++ old.toList) lost) :
    Ensures (Logged.exec env) (Publisher.recreate config old) x fun r y =>
      ∃ lost', Inventory env base tidy y (objs ++ objectsOf Publisher.objects r) lost' := by
  unfold Publisher.recreate SysProg.construct
  refine .bind ((SharedMemory.ensures_openOrCreate _ (fun _ => hfit) (fun ht _ => hsize ht)
    hx).mono ?_)
  rintro r y ⟨lost', hy⟩
  cases r with
  | error e =>
    -- the old object goes when the function returns
    change Inventory env base tidy y (objs ++ old.toList ++ []) lost' at hy
    rw [List.append_nil] at hy
    refine .bind ((Publisher.ensures_release hy).mono fun _ z hz => .ret ⟨lost', ?_⟩)
    change Inventory env base tidy z (objs ++ []) lost'
    rw [List.append_nil]
    exact hz
  | ok res =>
    refine .bind ((Publisher.ensures_release hy.swap).mono fun _ z hz => .bind ?_)
    refine (hz.ensures_moveOut (List.mem_append_right _ (List.mem_singleton_self res))).mono ?_
    rintro _ _ ⟨rfl, rfl⟩
    exact .step fun _ z' he => Publisher.ensures_onStorage
      (Inventory.exec_onMemory (.construct _ _) trivial _ _ z' he hz)

/-- **`Publisher::from_config`.** -/
theorem Publisher.ensures_fromConfig (config : PubSubConfig)
    (hzero : tidy → base.IsOpen (.descriptor 0)) (hfit : config.storageSizeBytes ≤ env.limit)
    (hsize : tidy → config.storageSizeBytes ≠ 0) (hx : Inventory env base tidy x objs lost) :
    Ensures (Logged.exec env) (Publisher.fromConfig config) x fun r y =>
      ∃ lost', Inventory env base tidy y (objs ++ objectsOf Publisher.objects r) lost' := by
  unfold Publisher.fromConfig
  refine .bind ((SharedMemory.ensures_exists _ hzero hx).mono ?_)
  rintro found y ⟨lost₁, hy⟩
  -- no segment yet: it is created
  cases found with
  | false =>
    refine Publisher.ensures_recreate none hfit hsize (hy.congr ?_)
    rw [Option.toList_none, List.append_nil]
  | true =>
    refine .bind ((SharedMemory.ensures_openOrCreate _ (by simp) (by simp) hy).mono ?_)
    rintro r z ⟨lost₂, hz⟩
    cases r with
    | error e => exact .ret ⟨lost₂, hz⟩
    | ok res =>
      refine .bind ((hz.ensures_moveOut (List.mem_append_right _
        (List.mem_singleton_self res))).mono ?_)
      rintro _ _ ⟨rfl, rfl⟩
      -- another size is configured: the segment is created anew, and the old object let go of
      split
      · exact Publisher.ensures_recreate (some _) hfit hsize hz
      · exact Publisher.ensures_onStorage hz

/-- The shared memory object of a subscriber. -/
def Subscriber.objects (s : Subscriber) : List SharedMemory := [s.shm]

/-- **The end of `Subscriber::from_config`**, with the object it has opened. -/
theorem Subscriber.ensures_onMemory {shm : SharedMemory}
    (hx : Inventory env base tidy x (objs ++ [shm]) lost) :
    Ensures (Logged.exec env) (Subscriber.onMemory config shm) x fun r y =>
      Inventory env base tidy y (objs ++ objectsOf Subscriber.objects r) lost := by
  -- both errors let go of the object
  have hfailed : ∀ (e : PosixIpcError) (z : Logged),
      Inventory env base tidy z (objs ++ [shm]) lost →
      Ensures (Logged.exec env) (shm.destroy >>= fun _ => .ret (.error e)) z fun r y =>
        Inventory env base tidy y (objs ++ objectsOf Subscriber.objects r) lost := by
    intro e z hz
    refine .bind (hz.ensures_destroy.mono fun _ u hu => .ret ?_)
    change Inventory env base tidy u (objs ++ []) lost
    rw [List.append_nil]
    exact hu
  unfold Subscriber.onMemory
  split
  · exact hfailed _ x hx
  · refine .bind ((Ensures.of_all Inventory.exec_onMemory
      (Subscriber.onMemory_mapStorage _ _) hx).mono ?_)
    rintro r z ⟨-, hz⟩
    cases r with
    | error e => exact hfailed e z hz
    | ok s => exact .ret hz

/-- **`Subscriber::from_config`.** -/
theorem Subscriber.ensures_fromConfig (config : PubSubConfig)
    (hzero : tidy → base.IsOpen (.descriptor 0)) (hx : Inventory env base tidy x objs lost) :
    Ensures (Logged.exec env) (Subscriber.fromConfig config) x fun r y =>
      ∃ lost', Inventory env base tidy y (objs ++ objectsOf Subscriber.objects r) lost' := by
  have hnothing : ∀ {z : Logged} {lost' : List Handle} (e : PosixIpcError),
      Inventory env base tidy z objs lost' → Inventory env base tidy z
        (objs ++ objectsOf Subscriber.objects (.error e)) lost' := by
    intro z lost' e hz
    refine hz.congr ?_
    change (objs ++ []).Perm objs
    rw [List.append_nil]
  unfold Subscriber.fromConfig
  refine .bind ((SharedMemory.ensures_exists _ hzero hx).mono ?_)
  rintro found y ⟨lost₁, hy⟩
  cases found with
  | false => exact .ret ⟨lost₁, hnothing _ hy⟩
  | true =>
    refine .bind ((SharedMemory.ensures_openOrCreate _ (by simp) (by simp) hy).mono ?_)
    rintro r z ⟨lost₂, hz⟩
    cases r with
    | error e => exact .ret ⟨lost₂, hz⟩
    | ok res =>
      -- what is left of the result goes last
      have hs := hz.sound res (List.mem_append_right _ (List.mem_singleton_self res))
      refine .bind ((Subscriber.ensures_onMemory hz).mono fun r u hu => .bind ?_)
      refine (hu.ensures_destroy_moved hs.created hs.size_le).mono ?_
      rintro _ _ rfl
      exact .ret ⟨lost₂, hu⟩

end Owners

/-! ### The set of publishers -/

namespace PubSub

variable {env : Env} {base : World} {tidy : Prop} {x : Logged} {objs : List SharedMemory}
  {lost : List Handle}

/-- The publishers, and those that are about to be added. -/
def owners (ps : PubSub) : List Publisher := ps.publishers ++ ps.pending

/-- The shared memory objects of several publishers. -/
def objectsOfAll (l : List Publisher) : List SharedMemory := l.flatMap Publisher.objects

@[simp] theorem objectsOfAll_nil : objectsOfAll [] = [] := rfl

@[simp] theorem objectsOfAll_cons (p : Publisher) (l : List Publisher) :
    objectsOfAll (p :: l) = p.objects ++ objectsOfAll l := rfl

@[simp] theorem objectsOfAll_append (l l' : List Publisher) :
    objectsOfAll (l ++ l') = objectsOfAll l ++ objectsOfAll l' :=
  List.flatMap_append

/-- The destructor: the queue of changes goes before the publishers. -/
def destroy (ps : PubSub) : SysProg Unit := do
  releaseAll ps.pending
  releaseAll ps.publishers

/-- Releasing publishers strikes their objects from the inventory. -/
theorem ensures_releaseAll {l : List Publisher}
    (hx : Inventory env base tidy x (objs ++ objectsOfAll l) lost) :
    Ensures (Logged.exec env) (releaseAll l) x fun _ y => Inventory env base tidy y objs lost := by
  induction l generalizing x with
  | nil => exact .ret (hx.congr (by rw [objectsOfAll_nil, List.append_nil]))
  | cons p l ih =>
    rw [objectsOfAll_cons, ← List.append_assoc] at hx
    exact .bind ((Publisher.ensures_release hx.swap).mono fun _ y hy => ih hy)

/-- **Erasing** a publisher releases what it holds. -/
theorem ensures_eraseName (name : String) {l : List Publisher}
    (hx : Inventory env base tidy x (objs ++ objectsOfAll l) lost) :
    Ensures (Logged.exec env) (eraseName name l) x fun l' y =>
      Inventory env base tidy y (objs ++ objectsOfAll l') lost := by
  induction l generalizing objs with
  | nil => exact .ret hx
  | cons p l ih =>
    rw [objectsOfAll_cons, ← List.append_assoc] at hx
    unfold eraseName
    split
    · rw [eraseFrom_eq]
      exact .bind ((Publisher.ensures_release hx.swap).mono fun _ y hy => .ret hy)
    · -- passed over: it counts among the other objects
      refine .bind ((ih hx).mono fun l' y hy => .ret ?_)
      rw [List.append_assoc] at hy
      exact hy

/-- **The loop of `apply_changes`**, for any queue of changes. -/
theorem ensures_applyAll {changes : List PubSubChange} {l : List Publisher}
    (hx : Inventory env base tidy x
      (objs ++ (objectsOfAll l ++ objectsOfAll (changes.filterMap PubSubChange.addition))) lost) :
    Ensures (Logged.exec env) (applyAll changes l) x fun l' y =>
      Inventory env base tidy y (objs ++ objectsOfAll l') lost := by
  induction changes generalizing x l with
  | nil =>
    refine .ret (hx.congr ?_)
    rw [List.filterMap_nil, objectsOfAll_nil, List.append_nil]
  | cons change rest ih =>
    refine .bind ?_
    unfold applyChange
    cases hadd : change.addition with
    | some p =>
      rw [List.filterMap_cons_some hadd] at hx
      refine .ret (ih (hx.congr ?_))
      simp only [objectsOfAll_append, objectsOfAll_cons, objectsOfAll_nil, List.append_nil,
        List.append_assoc, List.Perm.refl]
    | none =>
      rw [List.filterMap_cons_none hadd] at hx
      cases change.removal with
      | none => exact .ret (ih hx)
      | some name =>
        -- the additions still to come count among the other objects
        rw [← List.append_assoc] at hx
        refine (ensures_eraseName name hx.swap).mono fun l' y hy => ih ?_
        rw [← List.append_assoc]
        exact hy.swap

/-- **The second loop of `sync_configs`.** Where it stops, the publishers it has created are in the
queue of changes. -/
theorem ensures_queueAdditions (configs : List PubSubConfig) {ps : PubSub}
    (hzero : tidy → base.IsOpen (.descriptor 0))
    (hfit : ∀ cfg ∈ configs, cfg.storageSizeBytes ≤ env.limit)
    (hsize : tidy → ∀ cfg ∈ configs, cfg.storageSizeBytes ≠ 0)
    (hx : Inventory env base tidy x (objs ++ objectsOfAll ps.owners) lost) :
    Ensures (Logged.exec env) (queueAdditions configs ps) x fun r y =>
      ∃ lost', Inventory env base tidy y (objs ++ objectsOfAll r.2.owners) lost' := by
  induction configs generalizing x ps lost with
  | nil => exact .ret ⟨lost, hx⟩
  | cons cfg rest ih =>
    obtain ⟨hcfg, hrest⟩ := List.forall_mem_cons.mp hfit
    have hsize' : tidy → ∀ cfg ∈ rest, cfg.storageSizeBytes ≠ 0 :=
      fun ht c hc => hsize ht c (List.mem_cons_of_mem _ hc)
    unfold queueAdditions
    split
    · exact ih hrest hsize' hx
    · refine .bind ((Publisher.ensures_fromConfig cfg hzero hcfg
        (fun ht => hsize ht cfg List.mem_cons_self) hx).mono ?_)
      rintro r y ⟨lost₁, hy⟩
      cases r with
      | error e =>
        change Inventory env base tidy y (objs ++ objectsOfAll ps.owners ++ []) lost₁ at hy
        rw [List.append_nil] at hy
        exact .ret ⟨lost₁, hy⟩
      | ok p =>
        -- the new publisher is the last one that is pending
        have howners :
            owners { ps with changeQueue := ps.changeQueue ++ [{ addition := some p }] } =
              ps.owners ++ [p] := by
          unfold owners pending
          rw [List.filterMap_append, List.append_assoc]
          rfl
        have hy' : Inventory env base tidy y (objs ++ objectsOfAll (ps.owners ++ [p])) lost₁ := by
          rw [objectsOfAll_append, objectsOfAll_cons, objectsOfAll_nil, List.append_nil,
            ← List.append_assoc]
          exact hy
        rw [← howners] at hy'
        exact ih hrest hsize' hy'

/-- Removals that are queued hold no objects. -/
theorem pending_queueRemovals (configs : List PubSubConfig) (ps : PubSub) :
    (ps.queueRemovals configs).pending = ps.pending := by
  unfold pending queueRemovals
  rw [List.filterMap_append, removals_eq, List.filterMap_map]
  have hnone : (PubSubChange.addition ∘ fun p : Publisher =>
      ({ removal := some p.config.shmName } : PubSubChange)) = fun _ => none := rfl
  rw [hnone, List.filterMap_none, List.append_nil]

/-- **`sync_configs`**, whatever is in the queue of changes. -/
theorem ensures_syncConfigs (configs : List PubSubConfig) {ps : PubSub}
    (hzero : tidy → base.IsOpen (.descriptor 0))
    (hfit : ∀ cfg ∈ configs, cfg.storageSizeBytes ≤ env.limit)
    (hsize : tidy → ∀ cfg ∈ configs, cfg.storageSizeBytes ≠ 0)
    (hx : Inventory env base tidy x (objs ++ objectsOfAll ps.owners) lost) :
    Ensures (Logged.exec env) (ps.syncConfigs configs) x fun r y =>
      ∃ lost', Inventory env base tidy y (objs ++ objectsOfAll r.2.owners) lost' := by
  have howners : (ps.queueRemovals configs).owners = ps.owners := by
    unfold owners
    rw [pending_queueRemovals]
    rfl
  unfold syncConfigs
  rw [← howners] at hx
  refine .bind ((ensures_queueAdditions configs hzero hfit hsize hx).mono ?_)
  rintro ⟨r, ps'⟩ y ⟨lost', hy⟩
  cases r with
  | error e => exact .ret ⟨lost', hy⟩
  | ok u =>
    unfold applyChanges
    have hy' : Inventory env base tidy y (objs ++ (objectsOfAll ps'.publishers ++
        objectsOfAll (ps'.changeQueue.filterMap PubSubChange.addition))) lost' := by
      rw [← objectsOfAll_append]
      exact hy
    refine .bind (.bind ((ensures_applyAll hy').mono fun l z hz => .ret (.ret ⟨lost', ?_⟩)))
    -- nothing is pending any more
    have hnil : owners ⟨l, []⟩ = l := List.append_nil l
    change Inventory env base tidy z (objs ++ objectsOfAll (owners ⟨l, []⟩)) lost'
    rw [hnil]
    exact hz

/-- **The destructor.** -/
theorem ensures_destroy {ps : PubSub}
    (hx : Inventory env base tidy x (objs ++ objectsOfAll ps.owners) lost) :
    Ensures (Logged.exec env) ps.destroy x fun _ y => Inventory env base tidy y objs lost := by
  unfold destroy
  have hx' : Inventory env base tidy x
      (objs ++ objectsOfAll ps.publishers ++ objectsOfAll ps.pending) lost := by
    rw [List.append_assoc, ← objectsOfAll_append]
    exact hx
  exact .bind ((ensures_releaseAll hx').mono fun _ y hy => ensures_releaseAll hy)

end PubSub

end PosixIpc
