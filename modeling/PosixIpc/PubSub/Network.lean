import PosixIpc.PubSub.Delivery
import PosixIpc.PubSub.Probing

/-!
# Publishers and subscribers in processes of their own

A `Network` is a process with a `PubSub`, and any number of client processes that have a
`Subscriber` each: they attach by name (`Subscriber::from_config`), receive, and detach, in any
order and as often as they like. What the processes have in common is the kernel; each has
descriptors and mappings of its own, and each has an environment of its own that lets its calls
fail.

A client works on the segment its mapping is of (`Network.seat`), whatever has become of the name
since. `run_client` says that what it does there is an operation of a consumer on the storage in the
segment. Attaching does nothing to the segments that are there, and leaves bound names bound
(`Quiet`). It may bind a name that was not bound: if the client has descriptor 0 free, the probe of
`SharedMemory::exists` is not unlinked.
-/

namespace PosixIpc

open Framework

variable {τ : Type}

/-- A process that has a subscriber, or none, and the view it holds. -/
structure Client where
  process : Process
  calls : Nat
  subscriber : Option Subscriber
  view : Option MessageView

/-- The segment the subscriber of a client is on. -/
def Client.seat (c : Client) : Option Nat :=
  c.subscriber.bind fun s => (c.process.mappingAt s.queue.storage).map Mapping.seg

/-- The `PubSub` with its process, and the clients. The messages that were received on a segment, by
whatever clients, are a record that the code does not have. -/
structure Network (τ : Type) where
  pubsub : PubSub
  world : World
  clients : τ → Client
  received : Nat → List Payload

inductive NetworkAction (τ : Type) where
  | sync (configs : List PubSubConfig)
  | publish (payload : Payload)
  | attach (c : τ) (config : PubSubConfig)
  | dequeueBegin (c : τ)
  | dequeueCommit (c : τ)
  | detach (c : τ)

inductive NetworkReply where
  | synced (r : Except PosixIpcError Unit)
  | published (ok : Bool)
  | attached (r : Except PosixIpcError Unit)
  | viewed (v : MessageView)
  | committed
  | detached

/-- What an action is for the process that publishes. -/
def NetworkAction.toHub : NetworkAction τ → Option HubAction
  | .sync configs => some (.sync configs)
  | .publish payload => some (.publish payload)
  | _ => none

namespace Network

/-- Nothing is published, and nobody is attached. -/
def start (w : World) (processes : τ → Process) : Network τ :=
  ⟨{}, w, fun c => ⟨processes c, 0, none, none⟩, fun _ => []⟩

/-- The segment a client is on. -/
def seat (x : Network τ) (c : τ) : Option Nat := (x.clients c).seat

def storage (x : Network τ) (i : Nat) : SPSCStorage := (x.world.kernel.segments i).storage

/-- What a client sees. -/
def seen (x : Network τ) (c : τ) : World :=
  ⟨x.world.kernel, (x.clients c).process, (x.clients c).calls⟩

/-- The process that publishes, with some views of the subscribers. -/
def hub (x : Network τ) (views : Nat → Option MessageView) : Hub := ⟨x.pubsub, x.world, views⟩

variable [DecidableEq τ]

/-- What a client leaves behind. -/
def put (x : Network τ) (c : τ) (w : World) (subscriber : Option Subscriber)
    (view : Option MessageView) : Network τ :=
  { x with
    world := { x.world with kernel := w.kernel }
    clients := Function.update x.clients c ⟨w.process, w.calls, subscriber, view⟩ }

/-- Record a message as received by a client. -/
def receive (x : Network τ) (c : τ) (v : MessageView) : Nat → List Payload :=
  match x.seat c with
  | none => x.received
  | some i => Function.update x.received i (x.received i ++ [v.bytes (x.storage i).buffer])

/-- A whole call. A client has one subscriber at a time, and commits the view it holds. -/
def step (env : Env) (envs : τ → Env) (x : Network τ) :
    NetworkAction τ → Option (NetworkReply × Network τ)
  | .sync configs =>
    match (x.pubsub.syncConfigs configs).run (World.exec env) x.world with
    | some ((r, pubsub), w) => some (.synced r, { x with pubsub := pubsub, world := w })
    | none => none
  | .publish payload =>
    match (x.pubsub.publish ⟨payload⟩).run (World.exec env) x.world with
    | some (ok, w) => some (.published ok, { x with world := w })
    | none => none
  | .attach c config =>
    match (x.clients c).subscriber with
    | some _ => none
    | none =>
      match (Subscriber.fromConfig config).run (World.exec (envs c)) (x.seen c) with
      | some (.error e, w) => some (.attached (.error e), x.put c w none none)
      | some (.ok s, w) => some (.attached (.ok ()), x.put c w (some s) none)
      | none => none
  | .dequeueBegin c =>
    match (x.clients c).subscriber with
    | none => none
    | some s =>
      match s.dequeueBegin.run (World.exec (envs c)) (x.seen c) with
      | some (some v, w) =>
        some (.viewed v, x.put c w (some s) (if v.empty then none else some v))
      | _ => none
  | .dequeueCommit c =>
    match (x.clients c).subscriber, (x.clients c).view with
    | some s, some v =>
      match (s.dequeueCommit v).run (World.exec (envs c)) (x.seen c) with
      | some (_, w) => some (.committed, { x.put c w (some s) none with received := x.receive c v })
      | none => none
    | _, _ => none
  | .detach c =>
    match (x.clients c).subscriber with
    | none => none
    | some s =>
      match s.destroy.run (World.exec (envs c)) (x.seen c) with
      | some (_, w) => some (.detached, x.put c w none none)
      | none => none

end Network

/-! ### Attaching -/

/-- The segments that are there are as they were, names that were bound are bound as they were, and
there are no larger segments. -/
structure Quiet (k k' : Kernel) : Prop where
  names : ∀ a i, k.names a = some i → k'.names a = some i
  next : k.next ≤ k'.next
  segments : ∀ i, i < k.next → k'.segments i = k.segments i
  within : ∀ limit, k.Within limit → k'.Within limit

namespace Quiet

variable {k k' : Kernel}

theorem refl (k : Kernel) : Quiet k k := ⟨fun _ _ h => h, le_refl _, fun _ _ => rfl, fun _ h => h⟩

theorem of_eq (h : k' = k) : Quiet k k' := by
  rw [h]
  exact .refl k

/-- Creating a name that was not bound is quiet: the segment is new, and nobody is on it. -/
theorem create {name : String} (h : k.names name = none) : Quiet k (k.create name) := by
  refine ⟨fun a i ha => ?_, Nat.le_succ _, fun i hi => if_neg (Nat.ne_of_lt hi),
    fun limit hk => hk.create name⟩
  have hne : shmObject a ≠ shmObject name := by
    intro heq
    exact absurd (h.symm.trans ((k.names_congr heq).symm.trans ha)) (by simp)
  exact (if_neg hne).trans ha

/-- Unlinking a name that was not bound at the start is quiet: the end of a probe. -/
theorem unlink {name : String} (h : Quiet k k') (hname : k.names name = none) :
    Quiet k (k'.unlink name) := by
  refine ⟨fun a i ha => ?_, h.next, h.segments, h.within⟩
  have hne : shmObject a ≠ shmObject name := by
    intro heq
    exact absurd (hname.symm.trans ((k.names_congr heq).symm.trans ha)) (by simp)
  exact (if_neg hne).trans (h.names a i ha)

end Quiet

namespace Subscriber

variable {env : Env}

/-- **The probe** of a name. -/
theorem quiet_of_exists {name : String} {w w' : World} {b : Bool}
    (h : (SharedMemory.exists name).run (World.exec env) w = some (b, w')) :
    Quiet w.kernel w'.kernel := by
  obtain ⟨⟨r, w₁⟩, hopen, hrest⟩ := Prog.of_run_step h
  rcases World.shmOpen_inv hopen with ⟨e, rfl, hk, -⟩ | ⟨i, hflags, -⟩ | ⟨-, hnone, rfl, hk, -⟩
  · obtain ⟨-, rfl⟩ := Prod.mk.inj (Option.some.inj hrest)
    exact .of_eq hk
  · exact absurd hflags (by decide)
  · -- the name was not bound; it is bound for the moment
    have hquiet : Quiet w.kernel w₁.kernel := by
      rw [hk]
      exact .create hnone
    change Prog.run _ (ite _ _ _) _ = _ at hrest
    split at hrest
    · obtain ⟨⟨_, w₂⟩, hclose, hrest⟩ := Prog.of_run_step hrest
      obtain ⟨⟨_, w₃⟩, hunlink, hrest⟩ := Prog.of_run_step hrest
      obtain ⟨-, rfl⟩ := Prod.mk.inj (Option.some.inj hclose)
      obtain ⟨-, rfl⟩ := Prod.mk.inj (Option.some.inj hunlink)
      obtain ⟨-, rfl⟩ := Prod.mk.inj (Option.some.inj hrest)
      exact hquiet.unlink hnone
    · obtain ⟨-, rfl⟩ := Prod.mk.inj (Option.some.inj hrest)
      exact hquiet

/-- What only reads leaves the kernel as it was. -/
theorem kernel_of_reads {α : Type} {p : SysProg α} {V : α → Prop} (hp : p.All ReadsKernel V)
    {w w' : World} {a : α} (h : p.run (World.exec env) w = some (a, w')) :
    V a ∧ w'.kernel = w.kernel :=
  hp.of_run (I := fun t => t.kernel = w.kernel)
    (fun _ ho _ _ _ he hs => (kernel_eq_of_readsKernel ho he).trans hs) h rfl

/-- **`Subscriber::from_config`**, as the other processes see it. -/
theorem quiet_of_fromConfig {config : PubSubConfig} {w w' : World}
    {r : Except PosixIpcError Subscriber}
    (h : (fromConfig config).run (World.exec env) w = some (r, w')) : Quiet w.kernel w'.kernel := by
  unfold fromConfig at h
  rw [Prog.run_bind] at h
  obtain ⟨⟨b, w₁⟩, hexists, hrest⟩ := Option.bind_eq_some_iff.mp h
  have hquiet := quiet_of_exists hexists
  cases b with
  | false =>
    obtain ⟨-, rfl⟩ := Prod.mk.inj (Option.some.inj hrest)
    exact hquiet
  | true =>
    -- from here on the subscriber only reads
    change Prog.run _ (SharedMemory.open config.shmName >>= _) _ = _ at hrest
    rw [Prog.run_bind] at hrest
    obtain ⟨⟨r', w₂⟩, hopen, hrest⟩ := Option.bind_eq_some_iff.mp hrest
    obtain ⟨hplain, hk⟩ := kernel_of_reads all_open hopen
    have hk' : w'.kernel = w₂.kernel := by
      cases r' with
      | error e =>
        obtain ⟨-, rfl⟩ := Prod.mk.inj (Option.some.inj hrest)
        rfl
      | ok shm => exact (kernel_of_reads (all_onOpened (hplain shm rfl)) hrest).2
    rw [hk', hk]
    exact hquiet

end Subscriber

/-! ### Working on the segment -/

/-- **Operations through a pointer** can be performed if they can on the storage. -/
theorem exists_run_through {env : Env} {ptr : Nat} {m : Mapping} {α : Type} {p : QProg α}
    {V : α → Prop} (hfits : p.All MemOp.Fits V) {w : World} {a : α} {s : SPSCStorage}
    (hm : w.process.mappingAt ptr = some m)
    (h : p.run (SPSCStorage.exec (m.window (w.kernel.segments m.seg)))
      (w.kernel.segments m.seg).storage = some (a, s)) :
    ∃ w', (SysProg.through ptr p).run (World.exec env) w = some (a, w') := by
  induction p generalizing w with
  | ret b =>
    obtain ⟨rfl, -⟩ := Prod.mk.inj (Option.some.inj h)
    exact ⟨w, rfl⟩
  | step o k ih =>
    obtain ⟨⟨r, s₁⟩, he, hk⟩ := Prog.of_run_step h
    have hs₁ : s₁.InRange := SPSCStorage.inRange_of_exec hfits.1 he
      (SPSCStorage.inRange_ofBytes _)
    have hstores := Stores.setBytes (i := m.seg) hs₁ w
    have hexec : World.exec env (.access ptr o) w = some (r, ⟨w.kernel.setBytes m.seg
        (s₁.toBytes (w.kernel.segments m.seg).bytes), w.process, w.calls⟩) := by
      change SPSCStorage.exec (m.window (w.kernel.segments m.seg)) o
        (SPSCStorage.ofBytes (w.kernel.segments m.seg).bytes) = some (r, s₁) at he
      simp only [World.exec, hm, he]
    -- what is left runs on the storage the step has left, in the same window
    have hwindow : ∀ g : Segment, g.size = (w.kernel.segments m.seg).size →
        m.window g = m.window (w.kernel.segments m.seg) := by
      intro g hg
      unfold Mapping.window
      rw [hg]
    obtain ⟨w', hrun⟩ := @ih r (hfits.2 r) ⟨w.kernel.setBytes m.seg
      (s₁.toBytes (w.kernel.segments m.seg).bytes), w.process, w.calls⟩ hm (by
        rw [hstores.storage, hwindow _ hstores.size]
        exact hk)
    exact ⟨w', (Prog.run_step hexec).trans hrun⟩

namespace Network

variable [DecidableEq τ] {env : Env} {envs : τ → Env} {x y : Network τ} {r : NetworkReply} {c : τ}
  {views views' : Nat → Option MessageView}

/-! ### Inversion of the calls -/

/-- A call of the process that publishes. -/
theorem step_hub {a : NetworkAction τ} {a' : HubAction} (ha : a.toHub = some a')
    (h : x.step env envs a = some (r, y)) (views : Nat → Option MessageView) :
    ∃ r', (x.hub views).step env a' = some (r', y.hub views) ∧ y.clients = x.clients ∧
      y.received = x.received ∧ ∀ ok, r = .published ok ↔ r' = .published ok := by
  -- the hub has the same two actions; those of the clients have no counterpart
  cases a with
  | sync configs =>
    obtain rfl := Option.some.inj ha
    simp only [step] at h
    split at h
    · next res pubsub w hrun =>
      obtain ⟨rfl, rfl⟩ := Prod.mk.inj (Option.some.inj h)
      refine ⟨.synced res, ?_, rfl, rfl, fun ok => by simp⟩
      simp only [Hub.step, hub, hrun]
    · exact absurd h (by simp)
  | publish payload =>
    obtain rfl := Option.some.inj ha
    simp only [step] at h
    split at h
    · next ok w hrun =>
      obtain ⟨rfl, rfl⟩ := Prod.mk.inj (Option.some.inj h)
      refine ⟨.published ok, ?_, rfl, rfl, fun ok' => by simp⟩
      simp only [Hub.step, hub, hrun]
    · exact absurd h (by simp)
  | attach c config => exact absurd ha (by simp [NetworkAction.toHub])
  | dequeueBegin c => exact absurd ha (by simp [NetworkAction.toHub])
  | dequeueCommit c => exact absurd ha (by simp [NetworkAction.toHub])
  | detach c => exact absurd ha (by simp [NetworkAction.toHub])

/-- A client that attaches had no subscriber; it has one if `from_config` returned one. -/
theorem step_attach {config : PubSubConfig}
    (h : x.step env envs (.attach c config) = some (r, y)) :
    (x.clients c).subscriber = none ∧ ∃ res w,
      (Subscriber.fromConfig config).run (World.exec (envs c)) (x.seen c) = some (res, w) ∧
      y = x.put c w res.toOption none := by
  simp only [step] at h
  split at h
  · exact absurd h (by simp)
  · next hnone =>
    refine ⟨hnone, ?_⟩
    -- the client stays without a subscriber, but descriptors and calls are its own
    split at h
    · next e w hrun =>
      obtain ⟨-, rfl⟩ := Prod.mk.inj (Option.some.inj h)
      exact ⟨_, w, hrun, rfl⟩
    · next s w hrun =>
      obtain ⟨-, rfl⟩ := Prod.mk.inj (Option.some.inj h)
      exact ⟨_, w, hrun, rfl⟩
    · exact absurd h (by simp)

/-- `dequeue_begin` of a client: an empty view is not kept. -/
theorem step_dequeueBegin (h : x.step env envs (.dequeueBegin c) = some (r, y)) :
    ∃ s v w, (x.clients c).subscriber = some s ∧
      s.dequeueBegin.run (World.exec (envs c)) (x.seen c) = some (some v, w) ∧ r = .viewed v ∧
      y = x.put c w (some s) (if v.empty then none else some v) := by
  simp only [step] at h
  split at h
  · exact absurd h (by simp)
  · next s hs =>
    split at h
    · next v w hrun =>
      obtain ⟨rfl, rfl⟩ := Prod.mk.inj (Option.some.inj h)
      exact ⟨s, v, w, hs, hrun, rfl, rfl⟩
    · exact absurd h (by simp)

/-- `dequeue_commit` of a client: what its view has shown is received. -/
theorem step_dequeueCommit (h : x.step env envs (.dequeueCommit c) = some (r, y)) :
    ∃ s v w u, (x.clients c).subscriber = some s ∧ (x.clients c).view = some v ∧
      (s.dequeueCommit v).run (World.exec (envs c)) (x.seen c) = some (u, w) ∧
      y = { x.put c w (some s) none with received := x.receive c v } := by
  simp only [step] at h
  split at h
  · next s v hs hv =>
    split at h
    · next u w hrun =>
      obtain ⟨-, rfl⟩ := Prod.mk.inj (Option.some.inj h)
      exact ⟨s, v, w, u, hs, hv, hrun, rfl⟩
    · exact absurd h (by simp)
  · exact absurd h (by simp)

/-- A client that goes has its subscriber destroyed. -/
theorem step_detach (h : x.step env envs (.detach c) = some (r, y)) :
    ∃ s w u, (x.clients c).subscriber = some s ∧
      s.destroy.run (World.exec (envs c)) (x.seen c) = some (u, w) ∧ y = x.put c w none none := by
  simp only [step] at h
  split at h
  · exact absurd h (by simp)
  · next s hs =>
    split at h
    · next u w hrun =>
      obtain ⟨-, rfl⟩ := Prod.mk.inj (Option.some.inj h)
      exact ⟨s, w, u, hs, hrun, rfl⟩
    · exact absurd h (by simp)

/-! ### Seats -/

theorem clients_put_of_ne {w : World} {s : Option Subscriber} {v : Option MessageView} {c' : τ}
    (h : c' ≠ c) : (x.put c w s v).clients c' = x.clients c' :=
  Function.update_of_ne h _ _

theorem seat_put_of_ne {w : World} {s : Option Subscriber} {v : Option MessageView} {c' : τ}
    (h : c' ≠ c) : (x.put c w s v).seat c' = x.seat c' := by
  unfold seat
  rw [clients_put_of_ne h]

theorem clients_put_self (x : Network τ) (c : τ) (w : World) (s : Option Subscriber)
    (v : Option MessageView) : (x.put c w s v).clients c = ⟨w.process, w.calls, s, v⟩ := by
  change Function.update x.clients c _ c = _
  rw [Function.update_self]

/-- What a client does to a segment, the process that publishes sees. -/
theorem stores_put {i : Nat} {st : SPSCStorage} {w : World} (h : Stores i st (x.seen c) w)
    (s : Option Subscriber) (v : Option MessageView) :
    Stores i st x.world (x.put c w s v).world :=
  ⟨h.names, h.next, rfl, h.others, h.name, h.size, h.storage⟩

end Network

end PosixIpc
