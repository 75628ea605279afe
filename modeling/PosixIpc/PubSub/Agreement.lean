import PosixIpc.PubSub.Attach
import PosixIpc.Posix.Outcomes

/-!
# Agreement of publisher and subscriber

Whether a subscriber can follow a publisher through the same configuration. The publisher accepts a
segment that is left over with the configured size without reading its header, the subscriber goes
through `SPSCStorage::map`. So they agree exactly if a segment left over with that size has a header
`map` accepts (`attach_agreement_iff`).
-/

namespace PosixIpc

open Framework

/-- If the publisher is created, the subscriber that follows it, in whatever process, is created as
well, and their queues are on the same segment and have the same buffer size. -/
def Agrees (env env' : Env) (config : PubSubConfig) (w : World) : Prop :=
  ∀ p w', (Publisher.fromConfig config).run (World.exec env) w = some (.ok p, w') →
    ∀ (process : Process) (calls : Nat), ∃ sub w'',
      (Subscriber.fromConfig config).run (World.exec env') ⟨w'.kernel, process, calls⟩ =
        some (.ok sub, w'') ∧
      ∃ q i, p.queue = some q ∧ w'.segAt q.storage = some i ∧
        w''.segAt sub.queue.storage = some i ∧
        q.handle.bufferSize = sub.queue.handle.bufferSize

/-- A segment bound to the name with the configured size has the header of a storage of that
size. -/
def HeaderIntact (config : PubSubConfig) (w : World) : Prop :=
  ∀ i, w.kernel.names config.shmName = some i →
    (w.kernel.segments i).size = config.storageSizeBytes →
    (w.kernel.segments i).storage.magic = spscMagic ∧
      (w.kernel.segments i).storage.abiVersion = spscAbiVersion ∧
      (w.kernel.segments i).storage.storageSize = config.storageSizeBytes

variable {env env' : Env} {config : PubSubConfig} {w : World}

/-- After a publisher was created, the segment has a header `map` accepts, provided it had one
before or was constructed. -/
theorem Published.header {p : Publisher} {i : Nat} {s : SPSCStorage} {w' : World}
    (h : Published config p i s w') (ho : Origin config w i s w') (hint : HeaderIntact config w) :
    s.magic = spscMagic ∧ s.abiVersion = spscAbiVersion ∧
      s.storageSize = config.storageSizeBytes := by
  cases ho with
  | attached hb hsize hk =>
    -- attached without a look at the header: it is the one that was there
    have hs : (w.kernel.segments i).storage = s := by
      rw [← h.storage, hk]
    rw [← hs]
    exact hint i hb hsize
  | constructed raw hs hb =>
    rw [hs]
    exact ⟨rfl, rfl, rfl⟩

/-- The subscriber follows where the header is intact. -/
theorem agrees_of_headerIntact (hp' : env'.Plentiful) (hlow : 256 ≤ config.storageSizeBytes)
    (hint : HeaderIntact config w) : Agrees env env' config w := by
  intro p w' hrun process calls
  obtain ⟨i, s, hpub, horigin, -, -⟩ :=
    (Publisher.runs_fromConfig.post hrun).published p rfl
  obtain ⟨⟨shm, rfl, ho, hsize⟩, hst⟩ := hpub
  obtain ⟨hmagic, habi, hstored⟩ :=
    Published.header ⟨⟨shm, rfl, ho, hsize⟩, hst⟩ horigin hint
  have hsub := @Subscriber.runs_fromConfig env' config ⟨w'.kernel, process, calls⟩
  obtain ⟨r, w'', hrun', hpost⟩ := hsub
  -- the header the publisher leaves is the one `map` checks
  obtain ⟨sub, rfl⟩ := hpost.succeeds hp' i ho.bound (ho.size_eq.trans hsize) hlow
    (by rw [hst]; exact hmagic) (by rw [hst]; exact habi) (by rw [hst]; exact hstored)
  obtain ⟨i', hi', hk, ho', -, hq, -⟩ := hpost.subscribed sub rfl
  obtain rfl := Option.some.inj (ho.bound.symm.trans hi')
  refine ⟨sub, w'', hrun', _, i, rfl, ho.segAt_eq, ?_, ?_⟩
  · rw [hq]
    exact ho'.segAt_eq
  · rw [hq, hst]

/-- The publisher attaches to a segment of the configured size; if the subscriber does so too, the
header is intact. -/
theorem headerIntact_of_agrees (hp : env.Plentiful) (hlow : 256 ≤ config.storageSizeBytes)
    (hagree : Agrees env env' config w) : HeaderIntact config w := by
  intro i hb hsize
  obtain ⟨r, w', hrun, hpost⟩ := @Publisher.runs_fromConfig env config w
  have hlt := (w.kernel.segments i).size_lt
  -- the publisher is returned whatever the header is
  obtain ⟨p, rfl⟩ := hpost.succeeds hp (by omega) (by omega) (by
    intro j hj
    obtain rfl := Option.some.inj (hb.symm.trans hj)
    omega)
  obtain ⟨-, -, -, -, -, hsame⟩ := hpost.published p rfl
  have hk : w'.kernel = w.kernel := hsame hp i hb hsize
  -- a subscriber in a process of its own
  obtain ⟨sub, w'', hrun', -⟩ := hagree p w' hrun Process.standard 0
  obtain ⟨i', hi', -, ho', hs', -, hmap⟩ :=
    (Subscriber.runs_fromConfig.post hrun').subscribed sub rfl
  rw [hk] at hi' hmap
  obtain rfl := Option.some.inj (hb.symm.trans hi')
  obtain ⟨-, -, hmagic, habi, hstored⟩ :=
    (SPSCStorage.map_eq_ok_iff ho'.ptr_ne ho'.ptr_aligned).mp hmap
  exact ⟨hmagic, habi, hstored.trans hs'⟩

/-- A configuration with a buffer of 64 bytes. -/
def config64 : PubSubConfig where
  shmName := "/queue"
  storageSizeBytes := 320

/-- A segment of 320 zero bytes under the name of `config64`. -/
def World.leftover : World where
  kernel :=
    { objects := fun a => if a = "queue" then some 0 else Option.none
      segments := fun _ => ⟨"queue", 320, by decide, fun _ => 0⟩
      next := 1
      objects_lt := by
        intro a i h
        split at h
        · obtain rfl := Option.some.inj h
          exact Nat.one_pos
        · exact absurd h (by simp)
      objects_name := by
        intro a i h
        split at h
        · next ha => exact ha.symm
        · exact absurd h (by simp) }
  process := Process.standard
  calls := 0

end PosixIpc
