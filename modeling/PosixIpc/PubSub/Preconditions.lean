import PosixIpc.PubSub.Agreement
import PosixIpc.Spsc.Bounds

/-!
# The preconditions of a queue through `from_config`

`SPSCQueue::create` refuses storages whose buffer size is not a multiple of 8 or below 16. The
publisher and the subscriber construct their queues directly, so these checks are never made for a
configured size. `pubsub_preconditions_iff` says for which sizes this does no harm: those for which
`from_config` fails anyway, and those `create` would accept.

Segments that exist already are assumed to be initialised: a publisher constructed the storage in
them, and since then a producer and a consumer worked on it through legal operations
(`Initialised`).
-/

namespace PosixIpc

open Framework

/-! ### The header never changes -/

namespace Session

variable {q : SPSCQueue} {len : Nat} {x y : Session}

theorem sameHeader_of_reaches {P : Session → Op → Prop} {ops : List Op}
    (h : Reaches (apply q len) P x ops y) : x.storage.SameHeader y.storage := by
  refine h.invariant (I := fun z => x.storage.SameHeader z.storage) ?_ ⟨rfl, rfl, rfl⟩
  intro z o r z' hz _ happly
  obtain ⟨h₁, h₂, h₃⟩ := sameHeader_of_apply happly
  exact ⟨h₁.trans hz.1, h₂.trans hz.2.1, h₃.trans hz.2.2⟩

/-- Every legal operation is answered. -/
theorem Inv.apply_isSome {B : Nat} {front back : List Payload} (hq : Sized q B)
    (h : Inv B x front back) {o : Op} (hl : Legal q x o) : (x.apply q (256 + B) o).isSome := by
  have hsound := h.opSound hq hl
  cases o with
  | enqueue p =>
    obtain ⟨⟨ok, y, happly⟩, -⟩ := hsound
    rw [happly]; rfl
  | dequeueBegin =>
    obtain ⟨v, y, happly, -⟩ := hsound
    rw [happly]; rfl
  | dequeueCommit =>
    obtain ⟨v, y, -, happly, -⟩ := hsound
    rw [happly]; rfl

end Session

/-! ### Sound queues and initialised segments -/

/-- The queue `q` is on the storage `s` of mapping `m` and meets what `SPSCQueue::create` enforces;
and over any run, every legal operation stays inside the mapped segment. -/
structure QueueSound (w : World) (q : QueueAt) (m : Mapping) (s : SPSCStorage) : Prop where
  mapped : m ∈ w.process.mappings
  offset : m.offset = 0
  addr : m.addr = q.storage
  storage : (w.kernel.segments m.seg).storage = s
  handle : q.handle = SPSCQueue.construct s
  header : 256 ≤ s.storageSize
  aligned : s.bufferSize % 8 = 0
  minimum : 16 ≤ s.bufferSize
  length : s.bufferSize + 256 = m.len
  size : (w.kernel.segments m.seg).size = m.len
  inside : ∀ ops x, Reaches (Session.apply q.handle m.len) (Session.Legal q.handle)
    (Session.start s) ops x → ∀ o, Session.Legal q.handle x o → (x.apply q.handle m.len o).isSome

/-- A storage was constructed in the segment, and legal operations have led to what is there. -/
def Initialised (seg : Segment) : Prop :=
  ∃ raw ops x, Reaches
    (Session.apply (SPSCQueue.construct (SPSCStorage.construct seg.size raw)) seg.size)
    (Session.Legal (SPSCQueue.construct (SPSCStorage.construct seg.size raw)))
    (Session.start (SPSCStorage.construct seg.size raw)) ops x ∧ seg.storage = x.storage

/-- On a table whose segments are all initialised, every publisher and every subscriber of the
configuration has a sound queue. -/
def MeetsCreate (config : PubSubConfig) : Prop :=
  ∀ (env : Env) (w : World),
    (∀ a i, w.kernel.names a = some i → Initialised (w.kernel.segments i)) →
    (∀ p w', (Publisher.fromConfig config).run (World.exec env) w = some (.ok p, w') →
      ∃ q m s, p.queue = some q ∧ QueueSound w' q m s) ∧
    (∀ sub w', (Subscriber.fromConfig config).run (World.exec env) w = some (.ok sub, w') →
      ∃ m s, QueueSound w' sub.queue m s)

/-- A storage that legal operations lead to from a constructed one. -/
theorem invariant_of_reaches {n : Nat} {raw : Mem} (hlow : 272 ≤ n) (h8 : n % 8 = 0)
    (hhigh : n < 2 ^ 63) {ops : List Op} {x : Session}
    (hr : Reaches (Session.apply (SPSCQueue.construct (SPSCStorage.construct n raw)) n)
      (Session.Legal (SPSCQueue.construct (SPSCStorage.construct n raw)))
      (Session.start (SPSCStorage.construct n raw)) ops x) :
    x.storage.storageSize = n ∧ Sized (SPSCQueue.construct x.storage) (n - 256) ∧
      ∃ front back, Session.Inv (n - 256) (Session.start x.storage) front back := by
  have hstored : x.storage.storageSize = n := (Session.sameHeader_of_reaches hr).2.2
  have hsized : Sized (SPSCQueue.construct (SPSCStorage.construct n raw)) (n - 256) :=
    sized_construct rfl (by omega) (by omega) (by omega) (by omega)
  refine ⟨hstored, sized_construct hstored (by omega) (by omega) (by omega) (by omega), ?_⟩
  have h₀ : Session.Inv (n - 256) (Session.start (SPSCStorage.construct n raw)) [] [] :=
    Session.Inv.start (by omega) raw
  -- the invariant speaks of 256 bytes of header and a buffer
  have hr' : Reaches
      (Session.apply (SPSCQueue.construct (SPSCStorage.construct n raw)) (256 + (n - 256)))
      (Session.Legal (SPSCQueue.construct (SPSCStorage.construct n raw)))
      (Session.start (SPSCStorage.construct n raw)) ops x := by
    rw [show 256 + (n - 256) = n by omega]
    exact hr
  obtain ⟨front, back, hinv⟩ := h₀.reaches hsized hr'
  exact ⟨front, back, hinv.layout, fun v hv => absurd hv (by simp [Session.start])⟩

/-- **Good sizes.** A queue on an initialised storage of an acceptable size is sound. -/
theorem queueSound {w : World} {m : Mapping} {seg : Segment} (hm : m ∈ w.process.mappings)
    (h₀ : m.offset = 0) (hseg : w.kernel.segments m.seg = seg) (hsize : seg.size = m.len)
    (hinit : Initialised seg) (hlow : 272 ≤ m.len) (h8 : m.len % 8 = 0) :
    QueueSound w ⟨m.addr, SPSCQueue.construct seg.storage⟩ m seg.storage := by
  obtain ⟨raw, ops, x, hr, hst⟩ := hinit
  have hhigh := seg.size_lt
  rw [hsize] at hr hhigh
  obtain ⟨hstored, hsized, front, back, hinv⟩ := invariant_of_reaches hlow h8 hhigh hr
  rw [← hst] at hstored hsized hinv
  have hB : seg.storage.bufferSize = m.len - 256 := hsized.bufferSize_eq
  refine ⟨hm, h₀, rfl, by rw [hseg], rfl, by omega, by omega, by omega, by omega,
    by rw [hseg, hsize], fun ops' y hr' o hl => ?_⟩
  -- from there on, every run stays inside the mapping
  have hlen : m.len = 256 + (m.len - 256) := by omega
  rw [hlen] at hr' ⊢
  obtain ⟨front', back', hinv'⟩ := hinv.reaches hsized hr'
  exact hinv'.apply_isSome hsized hl

theorem initialised_of_construct {seg : Segment} (raw : Mem)
    (h : seg.storage = SPSCStorage.construct seg.size raw) : Initialised seg :=
  ⟨raw, [], _, .refl _, h⟩

theorem meetsCreate_of_good {config : PubSubConfig} (hlow : 272 ≤ config.storageSizeBytes)
    (h8 : config.storageSizeBytes % 8 = 0) : MeetsCreate config := by
  intro env w hinit
  refine ⟨fun p w' hrun => ?_, fun sub w' hrun => ?_⟩
  · obtain ⟨i, s, hpub, horigin, -, -⟩ :=
      (Publisher.runs_fromConfig.post hrun).published p rfl
    obtain ⟨⟨shm, rfl, ho, hsize⟩, hst⟩ := hpub
    have hseg : Initialised (w'.kernel.segments i) := by
      -- attached to an initialised segment, or constructed just now
      cases horigin with
      | attached hb _ hk =>
        rw [hk]
        exact hinit _ i hb
      | constructed raw hs _ =>
        refine initialised_of_construct raw ?_
        rw [hst, hs, ho.size_eq, hsize]
    rw [← hst]
    exact ⟨_, _, _, rfl, queueSound ho.mapping rfl rfl ho.size_eq hseg (hlow.trans hsize.ge)
      ((congrArg (· % 8) hsize).trans h8)⟩
  · obtain ⟨i, hb, hk, ho, hsize, hq, -⟩ :=
      (Subscriber.runs_fromConfig.post hrun).subscribed sub rfl
    rw [hq]
    exact ⟨_, _, queueSound ho.mapping rfl (by rw [hk]) (by rw [← hk]; exact ho.size_eq)
      (hinit _ i hb) (hlow.trans hsize.ge) ((congrArg (· % 8) hsize).trans h8)⟩

/-- A size for which no segment can be created or opened. -/
theorem meetsCreate_of_failing {config : PubSubConfig}
    (h : config.storageSizeBytes = 0 ∨ 2 ^ 63 ≤ config.storageSizeBytes) : MeetsCreate config := by
  -- a mapping is not empty, and a segment is below `2 ^ 63` bytes
  have hsize : ∀ {name i w' shm}, Opened name i shm w' → shm.size ≠ config.storageSizeBytes := by
    intro name i w' shm ho heq
    have hne := ho.size_ne
    have hlt := (w'.kernel.segments i).size_lt
    rw [ho.size_eq] at hlt
    omega
  intro env w _
  refine ⟨fun p w' hrun => ?_, fun sub w' hrun => ?_⟩
  · obtain ⟨i, s, ⟨⟨shm, -, ho, hs⟩, -⟩, -⟩ :=
      (Publisher.runs_fromConfig.post hrun).published p rfl
    exact absurd hs (hsize ho)
  · obtain ⟨i, -, -, ho, hs, -⟩ := (Subscriber.runs_fromConfig.post hrun).subscribed sub rfl
    exact absurd hs (hsize ho)

/-- **Bad sizes.** On an empty table, the publisher constructs a storage `create` would refuse. -/
theorem not_meetsCreate {config : PubSubConfig} (hpos : 0 < config.storageSizeBytes)
    (hhigh : config.storageSizeBytes < 2 ^ 63)
    (hbad : config.storageSizeBytes < 272 ∨ config.storageSizeBytes % 8 ≠ 0) :
    ¬ MeetsCreate config := by
  intro hmeets
  have hempty : ∀ a i, World.fresh.kernel.names a ≠ some i := by
    intro a i h
    exact absurd h (by simp [World.fresh])
  obtain ⟨r, w', hrun, hpost⟩ := @Publisher.runs_fromConfig Env.bump config World.fresh
  obtain ⟨p, rfl⟩ := hpost.succeeds Env.bump_plentiful hpos hhigh
    (fun j hj => absurd hj (hempty _ j))
  obtain ⟨i, s, hpub, horigin, -⟩ := hpost.published p rfl
  obtain ⟨⟨shm, rfl, ho, hsize⟩, hst⟩ := hpub
  obtain ⟨q, m, s', hq, hsound⟩ := (hmeets Env.bump World.fresh
    (fun a i h => absurd h (hempty a i))).1 _ w' hrun
  -- the mapping at the address of the queue is the one of the publisher
  obtain rfl := Option.some.inj hq
  have hm : m = shm.mapping i :=
    w'.process.eq_of_addr_eq hsound.mapped ho.mapping hsound.addr
  have hs' : s' = s := by
    rw [← hsound.storage, hm]
    exact hst
  cases horigin with
  -- there was nothing to attach to
  | attached hb _ _ => exact hempty _ i hb
  | constructed raw hs _ =>
    have hstored : s'.storageSize = config.storageSizeBytes := by
      rw [hs', hs]
      rfl
    have hlow := hsound.header
    have hB : s'.bufferSize = config.storageSizeBytes - 256 := by
      change subW s'.storageSize 256 = _
      rw [hstored, subW_eq (by omega) (by omega)]
    have h8 := hsound.aligned
    have h16 := hsound.minimum
    -- what `create` enforces contradicts the size
    omega

/-- **Preconditions through `from_config`.** Every queue the pub/sub functions return for a
configuration meets what `SPSCQueue::create` enforces, and stays inside its segment over any run,
exactly if the configured size is one for which they never return a queue or one `create` accepts.
-/
theorem pubsub_preconditions_iff (config : PubSubConfig) :
    MeetsCreate config ↔ config.storageSizeBytes = 0 ∨ 2 ^ 63 ≤ config.storageSizeBytes ∨
      (272 ≤ config.storageSizeBytes ∧ config.storageSizeBytes % 8 = 0) := by
  constructor
  · intro hmeets
    by_contra hno
    rw [not_or, not_or] at hno
    exact not_meetsCreate (by omega) (by omega) (by omega) hmeets
  · rintro (h | h | ⟨hlow, h8⟩)
    · exact meetsCreate_of_failing (.inl h)
    · exact meetsCreate_of_failing (.inr h)
    · exact meetsCreate_of_good hlow h8

/-- A size of 8 bytes: `storage_size() - 256` wraps. -/
theorem pubsub_preconditions_fail :
    ¬ ∀ config : PubSubConfig, MeetsCreate config := by
  intro h
  have hmeets := h { shmName := "/queue", storageSizeBytes := 8 }
  exact not_meetsCreate (by decide) (by decide) (by decide) hmeets

end PosixIpc
