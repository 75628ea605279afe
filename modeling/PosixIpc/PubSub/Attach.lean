import PosixIpc.PubSub.Subscriber
import PosixIpc.Posix.Specs

/-!
# What the two `from_config` functions do

For every environment, the outcome of `Publisher::from_config` and `Subscriber::from_config` on
their own, with no other process acting. A publisher that is returned either attached to an existing
segment of the configured size, without looking at its bytes, or has created or emptied the segment
and constructed a storage of that size in it (`Published`). A subscriber is only returned on a
segment of the configured size whose header passed `SPSCStorage::map` (`Subscribed`).
-/

namespace PosixIpc

open Framework

/-- The storage in a segment. -/
def Segment.storage (s : Segment) : SPSCStorage := SPSCStorage.ofBytes s.bytes

/-! ### Publishers -/

/-- A publisher on segment `i`, whose storage is `s`. -/
structure Published (config : PubSubConfig) (p : Publisher) (i : Nat) (s : SPSCStorage)
    (w' : World) : Prop where
  parts : ∃ shm, p = { config, shm := some shm,
                       queue := some ⟨shm.shmPtr, SPSCQueue.construct s⟩ } ∧
    Opened config.shmName i shm w' ∧ shm.size = config.storageSizeBytes
  storage : (w'.kernel.segments i).storage = s

/-- Where a publisher's storage comes from. -/
inductive Origin (config : PubSubConfig) (w : World) (i : Nat) (s : SPSCStorage) (w' : World) :
    Prop where
  /-- The segment was there with the configured size, and is as it was. -/
  | attached (hb : w.kernel.names config.shmName = some i)
      (hsize : (w.kernel.segments i).size = config.storageSizeBytes) (hk : w'.kernel = w.kernel)
  /-- The segment is new or was emptied, and a storage was constructed in it. -/
  | constructed (raw : Mem) (hs : s = SPSCStorage.construct config.storageSizeBytes raw)
      (hb : ∀ j, w.kernel.names config.shmName = some j → i = j)

/-- The sizes that `from_config` meets are `n` at most: the configured one, and that of the segment
if there is one. -/
def Room (config : PubSubConfig) (w : World) (n : Nat) : Prop :=
  config.storageSizeBytes ≤ n ∧
    ∀ i, w.kernel.names config.shmName = some i → (w.kernel.segments i).size ≤ n

/-- The pointer was not in use in `w`, where there is room. -/
def Fresh (config : PubSubConfig) (w : World) (ptr : Nat) : Prop :=
  ∀ n, Room config w n → ∀ m ∈ w.process.mappings, n ≤ m.addr → m.addr ≠ ptr

/-- What `Publisher::from_config` does. -/
structure Publishes (env : Env) (config : PubSubConfig) (w : World)
    (r : Except PosixIpcError Publisher) (w' : World) : Prop where
  frame : Frame config.shmName w w'
  kept : ∀ n, Room config w n → KeepsAbove n w w'
  published : ∀ p, r = .ok p → ∃ i s, Published config p i s w' ∧ Origin config w i s w' ∧
    (∀ shm, p.shm = some shm → env.limit ≤ shm.shmPtr ∧ Fresh config w shm.shmPtr) ∧
    (env.Plentiful → ∀ j, w.kernel.names config.shmName = some j →
      (w.kernel.segments j).size = config.storageSizeBytes → w'.kernel = w.kernel)
  succeeds : env.Plentiful → 0 < config.storageSizeBytes → config.storageSizeBytes < 2 ^ 63 →
    (∀ j, w.kernel.names config.shmName = some j → (w.kernel.segments j).size ≠ 0) →
    ∃ p, r = .ok p

namespace Publisher

variable {env : Env} {config : PubSubConfig} {w w₀ : World}

/-- Reading the storage of an open segment. -/
theorem exec_storage {name : String} {i : Nat} {shm : SharedMemory} (ho : Opened name i shm w) :
    World.exec env (.storage shm.shmPtr) w = some ((w.kernel.segments i).storage, w) := by
  simp only [World.exec, ho.segAt_eq]
  rfl

theorem runs_onStorage {i : Nat} {shm : SharedMemory} (ho : Opened config.shmName i shm w)
    (hsize : shm.size = config.storageSizeBytes) :
    Runs (World.exec env) (onStorage config shm) w fun r w' => w' = w ∧ ∃ p, r = .ok p ∧
      p.shm = some shm ∧ Published config p i (w.kernel.segments i).storage w' := by
  unfold onStorage SysProg.storage
  simp only [Prog.step_bind, Prog.ret_bind]
  exact Runs.step (exec_storage ho)
    (Runs.ret ⟨rfl, _, rfl, rfl, ⟨⟨shm, rfl, ho, hsize⟩, rfl⟩⟩)

theorem runs_release {old : Option SharedMemory}
    (hold : ∀ shm, old = some shm → shm.created = false) :
    Runs (World.exec env) (release old) w fun _ w' => w'.kernel = w.kernel ∧
      ∀ m ∈ w.process.mappings,
        (∀ shm, old = some shm → ¬ m.Meets shm.shmPtr (shm.shmPtr + pageCeil shm.size)) →
        m ∈ w'.process.mappings := by
  cases old with
  | none => exact Runs.ret ⟨rfl, fun m hm _ => hm⟩
  | some shm =>
    exact (SharedMemory.runs_destroy (hold shm rfl)).mono
      fun _ w' h => ⟨h.1, fun m hm hno => h.2 m hm (hno shm rfl)⟩

/-- The storage constructed at the start of an open segment. -/
theorem runs_construct {name : String} {i : Nat} {shm : SharedMemory} {α : Type}
    {k : Unit → SysProg α} {Q : α → World → Prop} (ho : Opened name i shm w)
    (h : ∀ w' raw, Frame name w w' → Opened name i shm w' →
      w'.process.mappings = w.process.mappings →
      (w'.kernel.segments i).storage = SPSCStorage.construct shm.size raw →
      Runs (World.exec env) (k ()) w' Q) :
    Runs (World.exec env) (.step (.construct shm.shmPtr shm.size) k) w Q := by
  have hname := w.kernel.names_name name i ho.bound
  have hlt : shm.size < 2 ^ 64 := by
    have hlt := (w.kernel.segments i).size_lt
    rw [ho.size_eq] at hlt
    exact lt_trans hlt (by decide)
  -- the header and the counters are written, the buffer bytes stay
  have hexec : World.exec env (.construct shm.shmPtr shm.size) w = some ((),
      { w with kernel := w.kernel.setBytes i ((SPSCStorage.construct shm.size
          (SPSCStorage.ofBytes (w.kernel.segments i).bytes).buffer).toBytes
          (w.kernel.segments i).bytes) }) := by
    simp only [World.exec, ho.segAt_eq]
  refine Runs.step hexec (h _ (SPSCStorage.ofBytes (w.kernel.segments i).bytes).buffer
    (.setBytes hname rfl) ?_ rfl ?_)
  · refine ⟨ho.created, ho.mapping, ho.above, ?_, ho.bound⟩
    exact (congrArg Segment.size (if_pos rfl)).trans ho.size_eq
  · have hbytes : ((w.kernel.setBytes i ((SPSCStorage.construct shm.size
        (SPSCStorage.ofBytes (w.kernel.segments i).bytes).buffer).toBytes
        (w.kernel.segments i).bytes)).segments i).bytes = _ :=
      congrArg Segment.bytes (if_pos rfl)
    unfold Segment.storage
    rw [hbytes]
    exact SPSCStorage.ofBytes_toBytes (SPSCStorage.inRange_construct hlt _) _

/-- The object that was opened before, as far as the second half of `from_config` is concerned: it
is mapped in `w`, where nothing was mapped in `w₀`. -/
structure Old (config : PubSubConfig) (w₀ w : World) (shm : SharedMemory) : Prop where
  created : shm.created = false
  mapped : ∃ i, shm.mapping i ∈ w.process.mappings
  fresh : Fresh config w₀ shm.shmPtr

/-- **The second half of `from_config`.** `w₀` is the world `from_config` started in, which knows
nothing of the object that was opened meanwhile. -/
theorem runs_recreate {old : Option SharedMemory} (hF : Frame config.shmName w₀ w)
    (hK : ∀ n, Room config w₀ n → KeepsAbove n w₀ w)
    (hb : ∀ j, w₀.kernel.names config.shmName = some j → w.kernel.names config.shmName = some j)
    (hold : ∀ shm, old = some shm → Old config w₀ w shm) :
    Runs (World.exec env) (recreate config old) w fun r w' => Frame config.shmName w₀ w' ∧
      (∀ n, Room config w₀ n → KeepsAbove n w₀ w') ∧
      (env.Plentiful → 0 < config.storageSizeBytes → config.storageSizeBytes < 2 ^ 63 →
        ∃ p, r = .ok p) ∧
      ∀ p, r = .ok p → ∃ i s, Published config p i s w' ∧ Origin config w₀ i s w' ∧
        ∀ shm, p.shm = some shm → env.limit ≤ shm.shmPtr ∧ Fresh config w₀ shm.shmPtr := by
  unfold recreate
  refine Runs.bind (SharedMemory.runs_openOrCreate.mono fun r w₁ hc => ?_)
  have hcreated : ∀ shm, old = some shm → shm.created = false := fun shm hs => (hold shm hs).created
  -- what is left after letting go of the old object: it has taken its own mapping with it
  have hrelease : ∀ w₂ : World, (∀ m ∈ w₁.process.mappings,
      (∀ shm, old = some shm → ¬ m.Meets shm.shmPtr (shm.shmPtr + pageCeil shm.size)) →
        m ∈ w₂.process.mappings) → ∀ n, Room config w₀ n → KeepsAbove n w₀ w₂ := by
    intro w₂ hm n hn m hmem hle
    have hw := hK n hn m hmem hle
    refine hm m (hc.kept m hw (hn.1.trans hle)) fun shm hs => ?_
    obtain ⟨i, hi⟩ := (hold shm hs).mapped
    refine SharedMemory.not_meets_of_apart (w.process.apart_of_ne hw hi ?_)
    rintro rfl
    exact (hold shm hs).fresh n hn _ hmem hle rfl
  cases r with
  | error e =>
    -- not created: only the old object is let go of
    refine Runs.bind ((runs_release hcreated).mono fun _ w₂ h₂ => Runs.ret
      ⟨(hF.trans hc.frame).trans (.of_kernel_eq h₂.1), hrelease w₂ h₂.2, fun hp hpos hlt => ?_,
        fun p h => absurd h (by simp)⟩)
    obtain ⟨shm, h⟩ := hc.succeeds hp hpos hlt
    exact absurd h (by simp)
  | ok shm =>
    obtain ⟨i, ho, hsize, -, hplaced, hsame⟩ := hc.opened shm rfl
    refine Runs.bind ((runs_release hcreated).mono fun _ w₂ h₂ => ?_)
    obtain ⟨hk, hm⟩ := h₂
    -- the new mapping is apart from the old one
    have ho₂ : Opened config.shmName i shm w₂ := by
      refine ⟨ho.created, hm _ ho.mapping fun s hs => ?_, ho.above, by rw [hk]; exact ho.size_eq,
        by rw [hk]; exact ho.bound⟩
      obtain ⟨j, hj⟩ := (hold s hs).mapped
      exact SharedMemory.not_meets_of_apart (hplaced.apart _ hj)
    -- what is left of the result unmaps less than the new mapping lies behind
    refine Runs.bind ((SharedMemory.runs_moveOut ho.created).mono fun shm' w₃ h₃ => ?_)
    obtain ⟨rfl, hk₃, -, -, hkept₃⟩ := h₃
    have ho₃ := ho₂.of_keepsAbove hk₃ hkept₃
    unfold SysProg.construct
    refine runs_construct ho₃ fun w₄ raw hF₄ ho₄ hm₄ hst => ?_
    refine (runs_onStorage ho₄ hsize).mono fun r w₅ h₅ => ?_
    obtain ⟨rfl, p, rfl, hshm, hpub⟩ := h₅
    refine ⟨?_, fun n hn => ?_, fun _ _ _ => ⟨p, rfl⟩, fun p' hp' => ?_⟩
    · exact ((hF.trans hc.frame).trans (.of_kernel_eq (hk₃.trans hk))).trans hF₄
    · exact ((hrelease w₂ hm n hn).trans (hkept₃.mono (hsize.le.trans hn.1))).trans
        (.of_mappings_eq hm₄)
    · obtain rfl := Except.ok.inj hp'
      rw [hsize] at hst
      rw [hst] at hpub
      refine ⟨i, _, hpub, .constructed raw rfl fun j hj => hsame j (hb j hj), fun s hs => ?_⟩
      obtain rfl := Option.some.inj (hshm.symm.trans hs)
      refine ⟨hplaced.limit_le, fun n hn m hmem hle => ?_⟩
      have hw := hK n hn m hmem hle
      exact ((hplaced.apart m hw).addr_ne hplaced.paged (w.process.paged m hw)).symm

/-- Where `from_config` recreates the segment, no segment of the configured size was found. -/
theorem publishes_of_recreate {old : Option SharedMemory} (hF : Frame config.shmName w₀ w)
    (hK : ∀ n, Room config w₀ n → KeepsAbove n w₀ w)
    (hb : ∀ j, w₀.kernel.names config.shmName = some j → w.kernel.names config.shmName = some j)
    (hold : ∀ shm, old = some shm → Old config w₀ w shm)
    (hno : env.Plentiful → ∀ j, w₀.kernel.names config.shmName = some j →
      (w₀.kernel.segments j).size ≠ config.storageSizeBytes) :
    Runs (World.exec env) (recreate config old) w (Publishes env config w₀) := by
  refine (runs_recreate hF hK hb hold).mono fun r w' h => ?_
  obtain ⟨hF', hK', hsucc, hpub⟩ := h
  refine ⟨hF', hK', fun p hr => ?_, fun hpl hpos hlt _ => hsucc hpl hpos hlt⟩
  obtain ⟨i, s, h₁, h₂, h₃⟩ := hpub p hr
  exact ⟨i, s, h₁, h₂, h₃, fun hpl j hj hsize => absurd hsize (hno hpl j hj)⟩

/-- What `from_config` opens is an old object to what follows. -/
theorem old_of_placed {w₁ w₂ : World} {shm : SharedMemory} {i : Nat}
    (ho : Opened config.shmName i shm w₂) (hplaced : Placed env w₁ (shm.mapping i))
    (hm : w₁.process.mappings = w₀.process.mappings) : Old config w₀ w₂ shm := by
  refine ⟨ho.created, ⟨i, ho.mapping⟩, fun n _ m hmem _ => ?_⟩
  rw [← hm] at hmem
  exact ((hplaced.apart m hmem).addr_ne hplaced.paged (w₁.process.paged m hmem)).symm

/-- **`Publisher::from_config`.** -/
theorem runs_fromConfig :
    Runs (World.exec env) (fromConfig config) w (Publishes env config w) := by
  unfold fromConfig
  refine Runs.bind (SharedMemory.runs_exists.mono fun b w₁ hp => ?_)
  have hF₁ := hp.frame
  have hb₁ : ∀ j, w.kernel.names config.shmName = some j →
      w₁.kernel.names config.shmName = some j := by
    intro j hj
    rw [hp.bound j hj]
    exact hj
  cases b with
  | false =>
    -- taken for absent
    refine publishes_of_recreate hF₁ (fun n _ => .of_mappings_eq hp.mappings) hb₁
      (fun shm h => absurd h (by simp)) fun hpl j hj => ?_
    exact absurd (hp.found hpl j hj) (by simp)
  | true =>
    obtain ⟨j, hj⟩ := hp.reported rfl
    have hk₁ := hp.bound j hj
    refine Runs.bind (SharedMemory.runs_open.mono fun r w₂ ho => ?_)
    have hF₂ : Frame config.shmName w w₂ := hF₁.trans (.of_kernel_eq ho.kernel)
    have hK₂ : ∀ n, Room config w n → KeepsAbove n w w₂ := by
      intro n hn
      refine (KeepsAbove.of_mappings_eq hp.mappings).trans (ho.kept n ?_)
      rw [hk₁]
      exact hn.2
    cases r with
    | error e =>
      -- the object is there and cannot be opened: no publisher
      refine Runs.ret ⟨hF₂, hK₂, fun p h => absurd h (by simp), fun hpl _ _ hne => ?_⟩
      obtain ⟨shm, h⟩ := ho.succeeds hpl j (hb₁ j hj) (by rw [hk₁]; exact hne j hj)
      exact absurd h (by simp)
    | ok shm =>
      obtain ⟨i, hi, hopen, hsize, hplaced⟩ := ho.opened shm rfl
      rw [hk₁] at hi hsize
      -- the result of `open` is moved, which unmaps what lies below the size of the segment
      refine Runs.bind ((SharedMemory.runs_moveOut hopen.created).mono fun shm' w₃ h₃ => ?_)
      obtain ⟨rfl, hk₃, -, -, hkept₃⟩ := h₃
      have hopen₃ := hopen.of_keepsAbove hk₃ hkept₃
      have hold := old_of_placed hopen₃ hplaced hp.mappings
      have hF₃ := hF₂.trans (.of_kernel_eq hk₃)
      have hK₃ : ∀ n, Room config w n → KeepsAbove n w w₃ := by
        intro n hn
        refine (hK₂ n hn).trans (hkept₃.mono ?_)
        rw [hsize]
        exact hn.2 i hi
      have hk : w₃.kernel = w.kernel := (hk₃.trans ho.kernel).trans hk₁
      by_cases hmatch : config.storageSizeBytes = shm'.size
      · -- the segment is used as it is
        simp only [ne_eq, hmatch, not_true_eq_false, if_false]
        refine (runs_onStorage hopen₃ hmatch.symm).mono fun r w₄ h₄ => ?_
        obtain ⟨rfl, p, rfl, hshm, hpub⟩ := h₄
        refine ⟨hF₃, hK₃, fun p' hp' => ?_, fun _ _ _ _ => ⟨p, rfl⟩⟩
        obtain rfl := Except.ok.inj hp'
        refine ⟨i, _, hpub, .attached hi (hsize.symm.trans hmatch.symm) hk, fun s hs => ?_,
          fun _ _ _ _ => hk⟩
        obtain rfl := Option.some.inj (hshm.symm.trans hs)
        exact ⟨hplaced.limit_le, hold.fresh⟩
      · -- another size: emptied and constructed anew, under the same name
        simp only [ne_eq, hmatch, not_false_eq_true, if_true]
        have hb₃ : ∀ j, w.kernel.names config.shmName = some j →
            w₃.kernel.names config.shmName = some j := by
          intro j hj
          rw [hk]
          exact hj
        refine publishes_of_recreate hF₃ hK₃ hb₃ (fun s hs => ?_) fun _ j' hj' hsz => ?_
        · obtain rfl := Option.some.inj hs
          exact hold
        · obtain rfl := Option.some.inj (hi.symm.trans hj')
          exact hmatch (hsz.symm.trans hsize.symm)

end Publisher

/-! ### Subscribers -/

/-- What `Subscriber::from_config` does. -/
structure Subscribes (env : Env) (config : PubSubConfig) (w : World)
    (r : Except PosixIpcError Subscriber) (w' : World) : Prop where
  subscribed : ∀ sub, r = .ok sub → ∃ i, w.kernel.names config.shmName = some i ∧
    w'.kernel = w.kernel ∧ Opened config.shmName i sub.shm w' ∧
    sub.shm.size = config.storageSizeBytes ∧
    sub.queue = ⟨sub.shm.shmPtr, SPSCQueue.construct (w.kernel.segments i).storage⟩ ∧
    SPSCStorage.map sub.shm.shmPtr sub.shm.size (w.kernel.segments i).storage =
      .ok (w.kernel.segments i).storage
  succeeds : env.Plentiful → ∀ i, w.kernel.names config.shmName = some i →
    (w.kernel.segments i).size = config.storageSizeBytes → 256 ≤ config.storageSizeBytes →
    (w.kernel.segments i).storage.magic = spscMagic →
    (w.kernel.segments i).storage.abiVersion = spscAbiVersion →
    (w.kernel.segments i).storage.storageSize = config.storageSizeBytes → ∃ sub, r = .ok sub

namespace Subscriber

variable {env : Env} {config : PubSubConfig} {w w₀ : World}

/-- The checks of `map` on an open segment. -/
theorem runs_mapStorage {name : String} {i : Nat} {shm : SharedMemory} (ho : Opened name i shm w) :
    Runs (World.exec env) (mapStorage shm.shmPtr shm.size) w fun r w' => w' = w ∧
      (∀ s, r = .ok s → s = (w.kernel.segments i).storage ∧
        SPSCStorage.map shm.shmPtr shm.size (w.kernel.segments i).storage =
          .ok (w.kernel.segments i).storage) ∧
      (256 ≤ shm.size → (w.kernel.segments i).storage.magic = spscMagic →
        (w.kernel.segments i).storage.abiVersion = spscAbiVersion →
        (w.kernel.segments i).storage.storageSize = shm.size → ∃ s, r = .ok s) := by
  have halign := ho.ptr_aligned
  unfold mapStorage
  -- the checks `map` makes before it reads the header
  by_cases hlen : shm.size < SPSCStorage.bufferOffset
  · -- too short for a header: nothing is read
    rw [if_pos (.inr (.inl hlen))]
    refine Runs.ret ⟨rfl, fun s hs => ?_, fun h => absurd hlen (Nat.not_lt.mpr h)⟩
    rw [SPSCStorage.map, if_neg ho.ptr_ne, if_pos hlen] at hs
    exact absurd hs (by simp)
  · have hno : ¬ (shm.shmPtr = 0 ∨ shm.size < SPSCStorage.bufferOffset ∨
        shm.shmPtr % spscCacheLineSize ≠ 0) := by
      rintro (h | h | h)
      · exact ho.ptr_ne h
      · exact hlen h
      · exact h halign
    rw [if_neg hno]
    unfold SysProg.storage
    simp only [Prog.step_bind, Prog.ret_bind]
    refine Runs.step (Publisher.exec_storage ho) (Runs.ret ⟨rfl, fun s hs => ?_, ?_⟩)
    · obtain rfl := SPSCStorage.eq_of_map hs
      exact ⟨rfl, hs⟩
    · intro h256 hmagic habi hsize
      exact ⟨_, (SPSCStorage.map_eq_ok_iff ho.ptr_ne halign).mpr ⟨rfl, h256, hmagic, habi, hsize⟩⟩

/-- What is left of the result of `open` is destroyed in the end, and the subscriber stays. -/
theorem subscribes_destroy_moved {shm : SharedMemory} {r : Except PosixIpcError Subscriber}
    (h : Subscribes env config w₀ r w) (hshm : ∀ sub, r = .ok sub → sub.shm = shm)
    (hc : shm.created = false) :
    Runs (World.exec env) (shm.moveConstruct.2.destroy >>= fun _ => .ret r) w
      (Subscribes env config w₀) := by
  refine Runs.bind ((SharedMemory.runs_destroy_moved hc).mono fun _ w' hw => Runs.ret ?_)
  obtain ⟨hk, -, -, hkept⟩ := hw
  refine ⟨fun sub hsub => ?_, h.succeeds⟩
  obtain ⟨i, hi, hk', ho, hrest⟩ := h.subscribed sub hsub
  rw [← hshm sub hsub] at hkept
  exact ⟨i, hi, hk.trans hk', ho.of_keepsAbove hk hkept, hrest⟩

/-- **`Subscriber::from_config`.** -/
theorem runs_fromConfig :
    Runs (World.exec env) (fromConfig config) w (Subscribes env config w) := by
  unfold fromConfig
  refine Runs.bind (SharedMemory.runs_exists.mono fun b w₁ hp => ?_)
  cases b with
  | false =>
    -- taken for absent, which a plentiful environment rules out
    refine Runs.ret ⟨fun sub h => absurd h (by simp), fun hpl i hi => ?_⟩
    exact absurd (hp.found hpl i hi) (by simp)
  | true =>
    obtain ⟨j, hj⟩ := hp.reported rfl
    have hk₁ := hp.bound j hj
    refine Runs.bind (SharedMemory.runs_open.mono fun r w₂ ho => ?_)
    cases r with
    | error e =>
      refine Runs.ret ⟨fun sub h => absurd h (by simp), fun hpl i hi hsize hlow _ _ _ => ?_⟩
      obtain ⟨shm, h⟩ := ho.succeeds hpl i (by rw [hk₁]; exact hi)
        (by rw [hk₁, hsize]; omega)
      exact absurd h (by simp)
    | ok shm =>
      obtain ⟨i, hi, hopen, hsize, -⟩ := ho.opened shm rfl
      have hk₂ : w₂.kernel = w.kernel := ho.kernel.trans hk₁
      rw [hk₁] at hi hsize
      have hsegs : (w₂.kernel.segments i).storage = (w.kernel.segments i).storage := by rw [hk₂]
      change Runs (World.exec env) (onMemory config shm >>= fun r =>
        shm.moveConstruct.2.destroy >>= fun _ => .ret r) w₂ _
      refine Runs.bind (Runs.mono (Q := fun r w₃ => Subscribes env config w r w₃ ∧
        ∀ sub, r = .ok sub → sub.shm = shm) ?_ fun r w₃ h =>
          subscribes_destroy_moved h.1 h.2 hopen.created)
      unfold onMemory
      by_cases hmatch : config.storageSizeBytes = shm.size
      · simp only [ne_eq, hmatch, not_true_eq_false, if_false]
        refine Runs.bind ((runs_mapStorage hopen).mono fun r w₃ h₃ => ?_)
        obtain ⟨rfl, hok, hsucc⟩ := h₃
        rw [hsegs] at hok hsucc
        cases r with
        | error e =>
          -- a header `map` refuses
          refine Runs.bind ((SharedMemory.runs_destroy hopen.created).mono fun _ w₄ _ => Runs.ret
            ⟨⟨fun sub h => absurd h (by simp), fun _ i' hi' hs' hlow hm ha hst => ?_⟩,
              fun sub h => absurd h (by simp)⟩)
          obtain rfl := Option.some.inj (hi.symm.trans hi')
          obtain ⟨s, h⟩ := hsucc (by omega) hm ha (by omega)
          exact absurd h (by simp)
        | ok s =>
          obtain ⟨rfl, hmap⟩ := hok s rfl
          refine Runs.ret ⟨⟨fun sub h => ?_, fun _ _ _ _ _ _ _ _ => ⟨_, rfl⟩⟩, fun sub h => ?_⟩
          · obtain rfl := Except.ok.inj h
            exact ⟨i, hi, hk₂, hopen, hmatch.symm, rfl, hmap⟩
          · obtain rfl := Except.ok.inj h
            rfl
      · -- another size than the configured one
        simp only [ne_eq, hmatch, not_false_eq_true, if_true]
        refine Runs.bind ((SharedMemory.runs_destroy hopen.created).mono fun _ w₃ _ => Runs.ret
          ⟨⟨fun sub h => absurd h (by simp), fun _ i' hi' hs' _ _ _ _ => ?_⟩,
            fun sub h => absurd h (by simp)⟩)
        obtain rfl := Option.some.inj (hi.symm.trans hi')
        exact absurd (hs'.symm.trans hsize.symm) hmatch

end Subscriber

end PosixIpc
