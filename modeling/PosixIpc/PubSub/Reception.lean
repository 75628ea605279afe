import Mathlib.Data.Fintype.Basic
import PosixIpc.Spsc.Bounds
import PosixIpc.PubSub.Books
import PosixIpc.PubSub.Network

/-!
# Reception by clients

What arrives at the clients that attach to a publisher's queue one after the other. `Network.Inv` is
kept by every call of the processes, if syncs succeed and nobody attaches to a segment that has a
client already. It mentions the views by segment: those are not part of the state, each client holds
its own.

`Served` is the way of one publisher's segment through a run: it is that of a queue on its own, on
which the published messages are enqueued and whoever is attached performs the operations of the
consumer. `network_delivery` puts this together with the refinement of the queue.
-/

namespace PosixIpc

open Framework

variable {τ : Type}

/-! ### Runs of the queue put together -/

namespace Session

variable {q : SPSCQueue} {len : Nat} {x y z : Session} {ops ops' : List Op}
  {es es' : List (Fifo.Event Payload)}

/-- Runs one after the other: their events are put together. -/
theorem events_append (h : events q len x ops = some (es, y))
    (h' : events q len y ops' = some (es', z)) :
    events q len x (ops ++ ops') = some (es ++ es', z) := by
  -- by induction on the first run; the second one starts where it ends
  induction ops generalizing x es with
  | nil =>
    obtain ⟨rfl, rfl⟩ := Prod.mk.inj (Option.some.inj h)
    exact h'
  | cons o ops ih =>
    simp only [events] at h
    split at h
    · exact absurd h (by simp)
    · next rep x' happly =>
      split at h
      · exact absurd h (by simp)
      · next es₁ y' hrest =>
        obtain ⟨rfl, rfl⟩ := Prod.mk.inj (Option.some.inj h)
        simp only [List.cons_append, events, happly, ih hrest]

/-- The events of a run are a record of it, so the run can be followed. -/
theorem follow_of_events (h : events q len x ops = some (es, y)) :
    follow (apply q len) x ops = some y := by
  -- the same recursion, less the events it collects
  induction ops generalizing x es with
  | nil =>
    obtain ⟨-, rfl⟩ := Prod.mk.inj (Option.some.inj h)
    rfl
  | cons o ops ih =>
    simp only [events] at h
    split at h
    · exact absurd h (by simp)
    · next rep x' happly =>
      split at h
      · exact absurd h (by simp)
      · next es₁ y' hrest =>
        obtain ⟨-, rfl⟩ := Prod.mk.inj (Option.some.inj h)
        rw [follow, happly]
        exact ih hrest

/-- No run writes to the header, which only `create` fills. -/
theorem sameHeader_of_events (h : events q len x ops = some (es, y)) :
    x.storage.SameHeader y.storage := by
  induction ops generalizing x es with
  | nil =>
    obtain ⟨-, rfl⟩ := Prod.mk.inj (Option.some.inj h)
    exact ⟨rfl, rfl, rfl⟩
  | cons o ops ih =>
    simp only [events] at h
    split at h
    · exact absurd h (by simp)
    · next rep x' happly =>
      split at h
      · exact absurd h (by simp)
      · -- the step keeps the header and so does the rest of the run
        next es₁ y' hrest =>
        obtain ⟨-, rfl⟩ := Prod.mk.inj (Option.some.inj h)
        obtain ⟨h₁, h₂, h₃⟩ := sameHeader_of_apply happly
        obtain ⟨h₁', h₂', h₃'⟩ := ih hrest
        exact ⟨h₁'.trans h₁, h₂'.trans h₂, h₃'.trans h₃⟩

/-- Being shown a view is a completed `dequeue_begin`. -/
theorem run_of_apply_dequeueBegin {v : MessageView}
    (h : x.apply q len .dequeueBegin = some (.viewed v, y)) :
    (SPSCQueue.dequeueBegin 2).run (SPSCStorage.exec len) x.storage = some (some v, y.storage) := by
  simp only [apply] at h
  split at h
  · next v' st hrun =>
    simp only [Option.some.injEq, Prod.mk.injEq, Reply.viewed.injEq] at h
    obtain ⟨rfl, rfl⟩ := h
    exact hrun
  · exact absurd h (by simp)

/-- A commit that was answered is a completed `dequeue_commit`. -/
theorem run_of_apply_dequeueCommit {v : MessageView} {rep : Reply} (hv : x.view = some v)
    (h : x.apply q len .dequeueCommit = some (rep, y)) :
    ∃ u, (SPSCQueue.dequeueCommit v).run (SPSCStorage.exec len) x.storage =
      some (u, y.storage) := by
  simp only [apply, hv] at h
  split at h
  · next u st hrun =>
    obtain ⟨-, rfl⟩ := Prod.mk.inj (Option.some.inj h)
    exact ⟨u, hrun⟩
  · exact absurd h (by simp)

/-- A run of one operation. -/
theorem events_single {o : Op} {rep : Reply} (h : x.apply q len o = some (rep, y)) :
    events q len x [o] = some ([x.event y o rep], y) := by
  simp only [events, h]

end Session

/-! ### Names -/

/-- Calls on memory bind no names. -/
theorem World.names_of_onMemory {env : Env} {α : Type} {p : SysProg α} {V : α → Prop}
    (hp : p.All SysCall.OnMemory V) {w w' : World} {a : α}
    (h : p.run (World.exec env) w = some (a, w')) : w'.kernel.names = w.kernel.names := by
  refine (hp.of_run (I := fun t => t.kernel.names = w.kernel.names) ?_ h rfl).2
  intro o ho s r s' he hs
  rw [← hs]
  -- of the calls on memory none looks a name up; the others are excluded by `OnMemory`
  cases o with
  | construct ptr n =>
    obtain ⟨i, m, hk, -⟩ := World.construct_inv he
    rw [hk]
    rfl
  | storage ptr => rw [World.storage_inv he]
  | access ptr o =>
    simp only [World.exec] at he
    split at he
    · exact absurd he (by simp)
    · split at he
      · exact absurd he (by simp)
      · obtain ⟨-, rfl⟩ := Prod.mk.inj (Option.some.inj he)
        rfl
  | shmOpen name flags => exact ho.elim
  | ftruncate fd size => exact ho.elim
  | fstat fd => exact ho.elim
  | mmap len fd => exact ho.elim
  | munmap addr len => exact ho.elim
  | close fd => exact ho.elim
  | shmUnlink name => exact ho.elim

namespace Hub

variable {env : Env} {x y : Hub} {r : HubReply} {p : Publisher}

/-- The name of a publisher whose object is not configured anew is bound as it was after a sync. -/
theorem names_of_sync {configs : List PubSubConfig} (hx : x.Inv env)
    (hs : x.Succeeds env (.sync configs)) (h : x.step env (.sync configs) = some (r, y))
    (hp : p.config.object ∉
      (PubSub.newConfigs x.pubsub.publishers configs).map PubSubConfig.object) :
    y.world.kernel.names p.config.shmName = x.world.kernel.names p.config.shmName := by
  have hok := hs.accepted h
  obtain ⟨res, rfl, -, hsyncs⟩ := syncs_of_step hx.queue h
  generalize y.pubsub = pubsub at hsyncs
  generalize y.world = w' at hsyncs
  cases hsyncs with
  | failed => exact absurd hok (by simp [HubReply.accepted])
  -- what is added binds the names it was asked for, and releasing the dropped publishers unlinks
  -- nothing: none of them has created its name
  | @done added w₁ _ hadded hrel =>
    have hk := PubSub.kernel_of_releaseAll (fun d hd shm hshm => by
      obtain ⟨q', m', hd'⟩ := hx.publishing d (PubSub.mem_dropped_iff.mp hd).1
      obtain ⟨shm', hshm', -, -, hcreated⟩ := hd'.shm
      obtain rfl := Option.some.inj (hshm.symm.trans hshm')
      exact hcreated) hrel
    rw [hk]
    exact hadded.names hp

/-- Publishing binds no names. -/
theorem names_of_publish {payload : Payload} (h : x.step env (.publish payload) = some (r, y)) :
    y.world.kernel.names = x.world.kernel.names := by
  obtain ⟨ok, -, -, -, hrun⟩ := step_publish h
  exact World.names_of_onMemory (PubSub.onMemory_publishAll _ _ _) hrun

end Hub

namespace Network

variable {x y z : Network τ} {views views' views'' : Nat → Option MessageView}

/-- What the client on segment `i` works on. -/
def session (x : Network τ) (views : Nat → Option MessageView) (i : Nat) : Session :=
  ⟨x.storage i, views i⟩

/-- The bytes of segment `i` that can be accessed where it is mapped as a whole. -/
def extent (x : Network τ) (i : Nat) : Nat := pageCeil (x.world.kernel.segments i).size

/-- The syncs are in order, and a client that attaches is alone on its segment. -/
def Orderly (env : Env) (x : Network τ) : NetworkAction τ → Prop
  | .sync configs => (x.hub fun _ => none).Orderly env (.sync configs)
  | .attach _ config => ∀ c, ∀ i ∈ x.seat c, x.world.kernel.names config.shmName ≠ some i
  | _ => True

instance [Fintype τ] (env : Env) (x : Network τ) :
    (a : NetworkAction τ) → Decidable (x.Orderly env a)
  | .sync configs =>
    inferInstanceAs (Decidable ((x.hub fun _ => none).Orderly env (.sync configs)))
  | .attach _ config =>
    inferInstanceAs (Decidable (∀ c, ∀ i ∈ x.seat c, x.world.kernel.names config.shmName ≠ some i))
  | .publish _ | .dequeueBegin _ | .dequeueCommit _ | .detach _ => isTrue trivial

/-- What holds between the calls, for some views by segment. -/
structure Inv (env : Env) (x : Network τ) (views : Nat → Option MessageView) : Prop where
  hub : (x.hub views).Inv env
  seated : ∀ c s, (x.clients c).subscriber = some s → s.shm.created = false ∧ ∃ m,
    (x.clients c).process.mappingAt s.queue.storage = some m ∧ m.seg < x.world.kernel.next
  alone : ∀ c c' i, x.seat c = some i → x.seat c' = some i → c = c'
  view : ∀ c i v, x.seat c = some i → (x.clients c).view = some v → views i = some v
  unborn : ∀ i, x.world.kernel.next ≤ i → views i = none ∧ x.received i = []

/-- Before the first call nobody has attached, and nothing has been received. -/
theorem inv_start {env : Env} {w : World} (hw : w.Roomy env) (processes : τ → Process) :
    (start w processes).Inv env fun _ => none where
  hub := Hub.inv_start hw
  seated c s h := absurd h (by simp [start])
  alone c c' i h := absurd h (by simp [start, seat, Client.seat])
  view c i v h := absurd h (by simp [start, seat, Client.seat])
  unborn i hi := ⟨rfl, rfl⟩

/-- A client sits on a segment that is there. -/
theorem Inv.seat_lt {env : Env} (h : x.Inv env views) {c : τ} {i : Nat} (hc : x.seat c = some i) :
    i < x.world.kernel.next := by
  unfold seat Client.seat at hc
  obtain ⟨s, hs, hmap⟩ := Option.bind_eq_some_iff.mp hc
  obtain ⟨-, m, hm, hlt⟩ := h.seated c s hs
  rw [hm] at hmap
  obtain rfl := Option.some.inj hmap
  exact hlt

/-! ### One call -/

variable {env : Env} {envs : τ → Env} {r : NetworkReply} {c : τ}

/-- What matters of a call of a client on its segment: it is an operation of a consumer. -/
structure Works (c : τ) (i : Nat) (o : Op) (x : Network τ) (views : Nat → Option MessageView)
    (y : Network τ) (views' : Nat → Option MessageView) : Prop where
  seat : x.seat c = some i
  pubsub : y.pubsub = x.pubsub
  clients : ∀ c', (y.clients c').subscriber = (x.clients c').subscriber ∧
    (y.clients c').process = (x.clients c').process
  own : ∀ v, (y.clients c).view = some v → views' i = some v
  others : ∀ c', c' ≠ c → (y.clients c').view = (x.clients c').view
  stores : Stores i (y.storage i) x.world y.world
  apply : ∀ q, ∃ rep, (x.session views i).apply q (x.extent i) o = some (rep, y.session views' i) ∧
    y.received i = x.received i ++ Fifo.popped [(x.session views i).event (y.session views' i) o rep]
  views : ∀ j, j ≠ i → views' j = views j
  received : ∀ j, j ≠ i → y.received j = x.received j

/-- An operation on the queue moves no client to another segment. -/
theorem Works.seats {i : Nat} {o : Op} (hw : Works c i o x views y views') (c' : τ) :
    y.seat c' = x.seat c' := by
  obtain ⟨hs, hp⟩ := hw.clients c'
  unfold Network.seat Client.seat
  rw [hs, hp]

/-- **An operation of a client** keeps the invariant. -/
theorem Inv.works {i : Nat} {o : Op} (h : x.Inv env views) (hw : Works c i o x views y views') :
    y.Inv env views' := by
  have hlt := h.seat_lt hw.seat
  obtain ⟨rep, happly, -⟩ := hw.apply (SPSCQueue.construct (x.storage i))
  have hheader := Session.sameHeader_of_apply happly
  refine ⟨⟨?_, ?_, fun p hp => ?_, h.hub.roomy.of_stores hw.stores⟩, fun c' s hs => ?_,
    fun c₁ c₂ j h₁ h₂ => ?_, fun c' j v hj hv => ?_, fun j hj => ?_⟩
  · change y.pubsub.changeQueue = []
    rw [hw.pubsub]
    exact h.hub.queue
  · change y.pubsub.objects.Nodup
    rw [hw.pubsub]
    exact h.hub.nodup
  · change p ∈ y.pubsub.publishers at hp
    rw [hw.pubsub] at hp
    obtain ⟨q, m, hpub⟩ := h.hub.publishing p hp
    exact ⟨q, m, hpub.of_stores hw.stores hheader⟩
  · obtain ⟨hsub, hproc⟩ := hw.clients c'
    rw [hproc, hw.stores.next]
    exact h.seated c' s (hsub.symm.trans hs)
  · rw [hw.seats] at h₁ h₂
    exact h.alone c₁ c₂ j h₁ h₂
  · rw [hw.seats] at hj
    by_cases hc : c' = c
    · subst hc
      obtain rfl := Option.some.inj (hj.symm.trans hw.seat)
      exact hw.own v hv
    · -- another client is on another segment
      have hne : j ≠ i := by
        rintro rfl
        exact hc (h.alone c' c j hj hw.seat)
      rw [hw.others c' hc] at hv
      rw [hw.views j hne]
      exact h.view c' j v hj hv
  · rw [hw.stores.next] at hj
    have hne : j ≠ i := fun heq => absurd (heq ▸ hj) (Nat.not_le.mpr hlt)
    rw [hw.views j hne, hw.received j hne]
    exact h.unborn j hj

/-- A client's operation, from its pointer to the storage. -/
theorem Inv.run_client (h : x.Inv env views) {s : Subscriber}
    (hs : (x.clients c).subscriber = some s) {α : Type} {p : QProg α} {V : α → Prop}
    (hfits : p.All MemOp.Fits V) {a : α} {w : World}
    (hrun : (SysProg.through s.queue.storage p).run (World.exec (envs c)) (x.seen c) =
      some (a, w)) :
    ∃ i st, x.seat c = some i ∧ Stores i st (x.seen c) w ∧
      p.run (SPSCStorage.exec (x.extent i)) (x.storage i) = some (a, st) := by
  obtain ⟨-, m, hm, -⟩ := h.seated c s hs
  obtain ⟨st, hst, hstores⟩ := run_through hfits hm hrun
  refine ⟨m.seg, st, ?_, hstores, SPSCStorage.run_mono (min_le_right _ _) hst⟩
  unfold seat Client.seat
  rw [hs]
  change (Process.mappingAt _ _).map Mapping.seg = _
  rw [hm]
  rfl

/-- What a client that has attached is on. -/
theorem attached_spec {config : PubSubConfig} {s : Subscriber} {w : World}
    (hrun : (Subscriber.fromConfig config).run (World.exec (envs c)) (x.seen c) =
      some (.ok s, w)) :
    ∃ i, x.world.kernel.names config.shmName = some i ∧ w.kernel = x.world.kernel ∧
      s.shm.created = false ∧
      w.process.mappingAt s.queue.storage =
        some ⟨s.shm.shmPtr, (x.world.kernel.segments i).size, i, 0⟩ := by
  obtain ⟨i, hi, hk, ho, -, hqueue, -⟩ := (Subscriber.runs_fromConfig.post hrun).subscribed s rfl
  refine ⟨i, hi, hk, ho.created, ?_⟩
  rw [hqueue]
  have hsize : s.shm.size = (x.world.kernel.segments i).size := by
    rw [← ho.size_eq, hk]
    rfl
  rw [← hsize]
  exact w.process.mappingAt_eq ho.mapping rfl

/-- A client that goes leaves the kernel as it is. -/
theorem Inv.kernel_of_detach (h : x.Inv env views) {s : Subscriber}
    (hsub : (x.clients c).subscriber = some s) {w : World} {u : Unit}
    (hrun : s.destroy.run (World.exec (envs c)) (x.seen c) = some (u, w)) :
    w.kernel = x.world.kernel :=
  (Subscriber.kernel_of_reads (all_destroy (h.seated c s hsub).1) hrun).2

/-- The syncs do not depend on the views. -/
theorem orderly_hub {configs : List PubSubConfig}
    (h : (x.hub views).Orderly env (.sync configs)) :
    (x.hub views').Orderly env (.sync configs) := by
  refine ⟨?_, h.distinct, h.fits⟩
  have hs := h.succeeds
  simp only [Hub.Succeeds, Hub.step, hub] at hs ⊢
  split at hs
  · exact hs
  · exact hs

variable [DecidableEq τ]

/-- A client that keeps its subscriber and its process keeps its place. -/
theorem clients_put {w : World} {s : Subscriber} {v : Option MessageView}
    (hs : (x.clients c).subscriber = some s) (hw : w.process = (x.clients c).process) (c' : τ) :
    ((x.put c w (some s) v).clients c').subscriber = (x.clients c').subscriber ∧
      ((x.put c w (some s) v).clients c').process = (x.clients c').process := by
  by_cases hc : c' = c
  · subst hc
    rw [clients_put_self]
    exact ⟨hs.symm, hw⟩
  · rw [clients_put_of_ne hc]
    exact ⟨rfl, rfl⟩

/-- **`dequeue_begin` of a client** works on the segment it has attached to. -/
theorem Inv.works_dequeueBegin (h : x.Inv env views)
    (hs : x.step env envs (.dequeueBegin c) = some (r, y)) :
    ∃ i views', Works c i .dequeueBegin x views y views' := by
  obtain ⟨s, v, w, hsub, hrun, -, rfl⟩ := step_dequeueBegin hs
  -- the client is on a segment `i`, and the call is an operation of the session on `i`
  obtain ⟨i, st, hseat, hstores, hst⟩ := h.run_client hsub (SPSCQueue.fits_dequeueBegin 2) hrun
  have hstores' := stores_put hstores (some s) (if v.empty then none else some v)
  have hstorage : (x.put c w (some s) (if v.empty then none else some v)).storage i = st :=
    hstores'.storage
  refine ⟨i, Function.update views i (if v.empty then none else some v), hseat, rfl,
    clients_put hsub hstores.process, fun v' hv' => ?_,
    fun c' hc' => congrArg Client.view (clients_put_of_ne hc'), ?_, ?_,
    fun j hj => Function.update_of_ne hj _ _, fun j hj => rfl⟩
  · rw [clients_put_self] at hv'
    rw [Function.update_self]
    exact hv'
  · rw [hstorage]
    exact hstores'
  · -- the reply of the session is the view the client has got
    intro q
    have happly := Session.apply_dequeueBegin (q := q) (x := x.session views i) hst
    refine ⟨.viewed v, ?_, (List.append_nil _).symm⟩
    unfold session
    rw [hstorage, Function.update_self]
    exact happly

/-- **`dequeue_commit` of a client** takes out what its view has shown. -/
theorem Inv.works_dequeueCommit (h : x.Inv env views)
    (hs : x.step env envs (.dequeueCommit c) = some (r, y)) :
    ∃ i views', Works c i .dequeueCommit x views y views' := by
  obtain ⟨s, v, w, u, hsub, hv, hrun, rfl⟩ := step_dequeueCommit hs
  obtain ⟨i, st, hseat, hstores, hst⟩ := h.run_client hsub (SPSCQueue.fits_dequeueCommit v) hrun
  have hstores' := stores_put hstores (some s) none
  have hstorage : (x.put c w (some s) none).storage i = st := hstores'.storage
  have hview := h.view c i v hseat hv
  have hreceive : x.receive c v =
      Function.update x.received i (x.received i ++ [v.bytes (x.storage i).buffer]) := by
    unfold receive
    rw [hseat]
  refine ⟨i, Function.update views i none, hseat, rfl, clients_put hsub hstores.process,
    fun v' hv' => ?_, fun c' hc' => congrArg Client.view (clients_put_of_ne hc'), ?_, ?_,
    fun j hj => Function.update_of_ne hj _ _, fun j hj => ?_⟩
  · change ((x.put c w (some s) none).clients c).view = some v' at hv'
    rw [clients_put_self] at hv'
    exact absurd hv' (by simp)
  · change Stores i ((x.put c w (some s) none).storage i) _ _
    rw [hstorage]
    exact hstores'
  · intro q
    have happly := Session.apply_dequeueCommit (q := q) (x := x.session views i) hview hst
    refine ⟨.committed, ?_, ?_⟩
    · change Session.apply q _ _ _ = some (_, ⟨(x.put c w (some s) none).storage i, _⟩)
      rw [hstorage, Function.update_self]
      exact happly
    · change x.receive c v i = _
      rw [hreceive, Function.update_self]
      -- what the client saw through its view is what the commit takes out
      change _ = x.received i ++ [(x.session views i).shown]
      unfold Session.shown session
      rw [hview]
  · change x.receive c v j = _
    rw [hreceive, Function.update_of_ne hj]

/-- **Clients come and go**: the segments that are there and the other clients are as they were. -/
theorem Inv.of_quiet (h : x.Inv env views) {w : World} (hq : Quiet x.world.kernel w.kernel)
    {sub : Option Subscriber}
    (hsub : ∀ s, sub = some s → s.shm.created = false ∧ ∃ m,
      w.process.mappingAt s.queue.storage = some m ∧ m.seg < w.kernel.next ∧
      ∀ c', x.seat c' ≠ some m.seg) : (x.put c w sub none).Inv env views := by
  have hseat : ∀ j, (x.put c w sub none).seat c = some j → ∀ c', x.seat c' ≠ some j := by
    intro j hj
    unfold seat Client.seat at hj
    rw [clients_put_self] at hj
    obtain ⟨s, hs, hmap⟩ := Option.bind_eq_some_iff.mp hj
    obtain ⟨-, m, hm, -, hfree⟩ := hsub s hs
    change (w.process.mappingAt s.queue.storage).map Mapping.seg = some j at hmap
    rw [hm] at hmap
    obtain rfl := Option.some.inj hmap
    exact hfree
  refine ⟨⟨h.hub.queue, h.hub.nodup, fun p hp => ?_,
    ⟨hq.within _ h.hub.roomy.within, h.hub.roomy.mappings⟩⟩, fun c' s hs => ?_,
    fun c₁ c₂ j h₁ h₂ => ?_, fun c' j v hj hv => ?_, fun j hj => ?_⟩
  · obtain ⟨q, m, hpub⟩ := h.hub.publishing p hp
    -- its segment was there before, so it is untouched
    exact ⟨q, m, hpub.of_segment_eq hpub.mapped hq.next (hq.segments _ hpub.lt)⟩
  · by_cases hc : c' = c
    · subst hc
      rw [clients_put_self] at hs ⊢
      obtain ⟨hcreated, m, hm, hlt, -⟩ := hsub s hs
      exact ⟨hcreated, m, hm, hlt⟩
    · rw [clients_put_of_ne hc] at hs ⊢
      obtain ⟨hcreated, m, hm, hlt⟩ := h.seated c' s hs
      exact ⟨hcreated, m, hm, lt_of_lt_of_le hlt hq.next⟩
  · -- the segment of the one that comes is free
    by_cases hc₁ : c₁ = c
    · by_cases hc₂ : c₂ = c
      · rw [hc₁, hc₂]
      · subst hc₁
        rw [seat_put_of_ne hc₂] at h₂
        exact absurd h₂ (hseat j h₁ c₂)
    · rw [seat_put_of_ne hc₁] at h₁
      by_cases hc₂ : c₂ = c
      · subst hc₂
        exact absurd h₁ (hseat j h₂ c₁)
      · rw [seat_put_of_ne hc₂] at h₂
        exact h.alone c₁ c₂ j h₁ h₂
  · by_cases hc : c' = c
    · subst hc
      rw [clients_put_self] at hv
      exact absurd hv (by simp)
    · rw [seat_put_of_ne hc] at hj
      rw [clients_put_of_ne hc] at hv
      exact h.view c' j v hj hv
  · exact h.unborn j (hq.next.trans hj)

/-- **Attaching.** The client that comes is alone, for it found the name's segment free. -/
theorem Inv.attach {config : PubSubConfig} (h : x.Inv env views)
    (ho : x.Orderly env (.attach c config))
    (hs : x.step env envs (.attach c config) = some (r, y)) : y.Inv env views := by
  obtain ⟨-, res, w, hrun, rfl⟩ := step_attach hs
  have hquiet : Quiet (x.seen c).kernel w.kernel := Subscriber.quiet_of_fromConfig hrun
  -- a client that could not attach has no subscriber to place
  refine h.of_quiet hquiet fun s hsub => ?_
  cases res with
  | error e => exact absurd hsub (by simp [Except.toOption])
  | ok s' =>
    obtain rfl := Option.some.inj hsub
    obtain ⟨i, hi, hk, hcreated, hm⟩ := attached_spec hrun
    refine ⟨hcreated, _, hm, ?_, fun c' hc' => ho c' i hc' hi⟩
    rw [hk]
    exact x.world.kernel.names_lt _ _ hi

/-- **Detaching** unmaps pages of the client only. -/
theorem Inv.detach (h : x.Inv env views) (hs : x.step env envs (.detach c) = some (r, y)) :
    y.Inv env views := by
  obtain ⟨s, w, u, hsub, hrun, rfl⟩ := step_detach hs
  exact h.of_quiet (.of_eq (h.kernel_of_detach hsub hrun)) fun s' hs' => absurd hs' (by simp)

/-- **A call of the process that publishes.** -/
theorem Inv.serve {a : NetworkAction τ} {a' : HubAction} (h : x.Inv env views)
    (ha : a.toHub = some a') (ho : (x.hub views).Orderly env a')
    (hs : x.step env envs a = some (r, y)) : y.Inv env views := by
  obtain ⟨r', hstep, hclients, hreceived, -⟩ := step_hub ha hs views
  obtain ⟨hnext, -⟩ := Hub.views_step (fun i hi => (h.unborn i hi).1) hstep
  change x.world.kernel.next ≤ y.world.kernel.next at hnext
  -- the clients are no party to the call, and segments are only added
  refine ⟨ho.inv_step h.hub hstep, fun c s hsub => ?_, fun c c' i => ?_, fun c i v => ?_,
    fun i hi => ?_⟩
  · rw [hclients] at hsub ⊢
    obtain ⟨hcreated, m, hm, hlt⟩ := h.seated c s hsub
    exact ⟨hcreated, m, hm, lt_of_lt_of_le hlt hnext⟩
  · unfold seat
    rw [hclients]
    exact h.alone c c' i
  · unfold seat
    rw [hclients]
    exact h.view c i v
  · rw [hreceived]
    exact h.unborn i (hnext.trans hi)

/-! ### The segment of a publisher -/

/-- The messages published in a run. -/
def publishedIn (actions : List (NetworkAction τ)) : List Payload :=
  Hub.publishedIn (actions.filterMap NetworkAction.toHub)

/-- The clients on segment `i` have it mapped as a whole. -/
def Whole (x : Network τ) (i : Nat) : Prop :=
  ∀ c s m, (x.clients c).subscriber = some s →
    (x.clients c).process.mappingAt s.queue.storage = some m → m.seg = i →
    m.len = (x.world.kernel.segments i).size

/-- The syncs keep a name, and no publish overwrites unread messages in its queue. -/
def Steady (env : Env) (name : String) (x : Network τ) (a : NetworkAction τ) : Prop :=
  x.Orderly env a ∧
    ∀ a' ∈ a.toHub, Hub.Keeps name a' ∧ (x.hub fun _ => none).SparesUnread name a'

instance [Fintype τ] (env : Env) (name : String) (x : Network τ) (a : NetworkAction τ) :
    Decidable (x.Steady env name a) :=
  inferInstanceAs (Decidable (_ ∧ _))

/-- A publisher that is on its segment before and after, and the operations on the queue there in
between. -/
structure Served (p : Publisher) (q : QueueAt) (m : Mapping) (ops : List Op)
    (es : List (Fifo.Event Payload)) (x : Network τ) (views : Nat → Option MessageView)
    (y : Network τ) (views' : Nat → Option MessageView) : Prop where
  mem : p ∈ y.pubsub.publishers
  publishing : Publishing y.world p q m
  bound : x.world.kernel.names p.config.shmName = some m.seg →
    y.world.kernel.names p.config.shmName = some m.seg
  size : (y.world.kernel.segments m.seg).size = (x.world.kernel.segments m.seg).size
  events : Session.events q.handle (x.extent m.seg) (x.session views m.seg) ops =
    some (es, y.session views' m.seg)
  keeps : Along (Session.apply q.handle (x.extent m.seg)) (Session.KeepsUnread q.handle)
    (x.session views m.seg) ops
  received : y.received m.seg = x.received m.seg ++ Fifo.popped es
  whole : x.Whole m.seg → y.Whole m.seg

namespace Served

variable {p : Publisher} {q : QueueAt} {m : Mapping} {ops ops' : List Op}
  {es es' : List (Fifo.Event Payload)}

omit [DecidableEq τ] in
/-- The segment keeps its size, so it is accessed within the same bounds. -/
theorem extent (h : Served p q m ops es x views y views') : y.extent m.seg = x.extent m.seg := by
  unfold Network.extent
  rw [h.size]

omit [DecidableEq τ] in
/-- Nothing has happened to the segment. -/
theorem nothing (hp : p ∈ y.pubsub.publishers) (hpub : Publishing y.world p q m)
    (hbound : x.world.kernel.names p.config.shmName = some m.seg →
      y.world.kernel.names p.config.shmName = some m.seg)
    (hseg : y.world.kernel.segments m.seg = x.world.kernel.segments m.seg)
    (hview : views' m.seg = views m.seg) (hreceived : y.received m.seg = x.received m.seg)
    (hwhole : x.Whole m.seg → y.Whole m.seg) : Served p q m [] [] x views y views' := by
  refine ⟨hp, hpub, hbound, by rw [hseg], ?_, trivial, ?_, hwhole⟩
  · unfold session storage
    rw [hseg, hview]
    rfl
  · rw [hreceived]
    exact (List.append_nil _).symm

omit [DecidableEq τ] in
/-- What happens to the segment one call after the other. -/
theorem trans (h : Served p q m ops es x views y views')
    (h' : Served p q m ops' es' y views' z views'') :
    Served p q m (ops ++ ops') (es ++ es') x views z views'' := by
  have hevents := h'.events
  have hkeeps := h'.keeps
  rw [h.extent] at hevents hkeeps
  refine ⟨h'.mem, h'.publishing, fun hb => h'.bound (h.bound hb), h'.size.trans h.size,
    Session.events_append h.events hevents,
    h.keeps.append (Session.follow_of_events h.events) hkeeps, ?_, fun hw => h'.whole (h.whole hw)⟩
  rw [h'.received, h.received, Fifo.popped_append, List.append_assoc]

end Served

/-! ### What a call does to the segment -/

section Calls

variable {p : Publisher} {q : QueueAt} {m : Mapping}

omit [DecidableEq τ] in
/-- An operation of a client, on this segment or on another one. -/
theorem Works.served {i : Nat} {o : Op} (hw : Works c i o x views y views')
    (hp : p ∈ x.pubsub.publishers) (hpub : Publishing x.world p q m)
    (ho : ∀ s, Session.KeepsUnread q.handle s o) (hnone : Session.enqueued o = none) :
    ∃ ops es, Served p q m ops es x views y views' ∧ ops.filterMap Session.enqueued = [] := by
  obtain ⟨rep, happly, hreceived⟩ := hw.apply q.handle
  have hpub' := hpub.of_stores hw.stores (Session.sameHeader_of_apply happly)
  have hmem : p ∈ y.pubsub.publishers := by
    rw [hw.pubsub]
    exact hp
  have hbound : x.world.kernel.names p.config.shmName = some m.seg →
      y.world.kernel.names p.config.shmName = some m.seg := fun hb => by
    rw [hw.stores.names]
    exact hb
  have hsize : (y.world.kernel.segments m.seg).size = (x.world.kernel.segments m.seg).size := by
    rw [← hpub'.len, ← hpub.len]
  have hwhole : x.Whole m.seg → y.Whole m.seg := by
    intro hx c' s m' hs hm' hseg
    obtain ⟨hsub, hproc⟩ := hw.clients c'
    rw [hproc] at hm'
    rw [hsize]
    exact hx c' s m' (hsub.symm.trans hs) hm' hseg
  -- on the segment of the publisher the call is one operation of its session, on another one none
  by_cases hi : m.seg = i
  · subst hi
    refine ⟨[o], _, ⟨hmem, hpub', hbound, hsize, Session.events_single happly, ⟨ho _, ?_⟩,
      hreceived, hwhole⟩, ?_⟩
    · exact fun _ _ _ => trivial
    · exact List.filterMap_cons_none hnone
  · exact ⟨[], [], .nothing hmem hpub' hbound (hw.stores.others _ hi) (hw.views _ hi)
      (hw.received _ hi) hwhole, rfl⟩

/-- Clients come and go. -/
theorem Served.of_quiet {w : World} {sub : Option Subscriber} (hp : p ∈ x.pubsub.publishers)
    (hpub : Publishing x.world p q m) (hq : Quiet x.world.kernel w.kernel)
    (hsub : ∀ s m', sub = some s → w.process.mappingAt s.queue.storage = some m' →
      m'.seg = m.seg → m'.len = (w.kernel.segments m.seg).size) :
    Served p q m [] [] x views (x.put c w sub none) views := by
  have hseg := hq.segments _ hpub.lt
  refine .nothing hp (hpub.of_segment_eq hpub.mapped hq.next hseg) (hq.names _ _) hseg rfl rfl ?_
  intro hx c' s m' hs hm' heq
  -- only the client that came or went may have another mapping than before
  by_cases hc : c' = c
  · subst hc
    rw [clients_put_self] at hs hm'
    exact hsub s m' hs hm' heq
  · rw [clients_put_of_ne hc] at hs hm'
    change _ = (w.kernel.segments m.seg).size
    rw [hseg]
    exact hx c' s m' hs hm' heq

/-- An attaching client maps the whole of the segment it finds under its name. -/
theorem Served.of_attach {config : PubSubConfig} (hp : p ∈ x.pubsub.publishers)
    (hpub : Publishing x.world p q m) (hs : x.step env envs (.attach c config) = some (r, y)) :
    Served p q m [] [] x views y views := by
  obtain ⟨-, res, w, hrun, rfl⟩ := step_attach hs
  have hquiet : Quiet (x.seen c).kernel w.kernel := Subscriber.quiet_of_fromConfig hrun
  refine .of_quiet hp hpub hquiet fun s m' hsub hm' heq => ?_
  cases res with
  | error e => exact absurd hsub (by simp [Except.toOption])
  | ok s' =>
    obtain rfl := Option.some.inj hsub
    obtain ⟨i, -, hk, -, hm⟩ := attached_spec hrun
    obtain rfl := Option.some.inj (hm.symm.trans hm')
    obtain rfl : i = m.seg := heq
    rw [hk]

/-- A client that goes does nothing to the segment. -/
theorem Inv.served_detach (h : x.Inv env views) (hp : p ∈ x.pubsub.publishers)
    (hpub : Publishing x.world p q m) (hs : x.step env envs (.detach c) = some (r, y)) :
    Served p q m [] [] x views y views := by
  obtain ⟨s, w, u, hsub, hrun, rfl⟩ := step_detach hs
  exact .of_quiet hp hpub (.of_eq (h.kernel_of_detach hsub hrun)) fun _ _ hs' =>
    absurd hs' (by simp)

/-- **A sync that keeps the name** does nothing to the segment. -/
theorem Inv.served_sync {configs : List PubSubConfig} (h : x.Inv env views)
    (ho : x.Steady env p.config.shmName (.sync configs)) (hp : p ∈ x.pubsub.publishers)
    (hpub : Publishing x.world p q m) (hs : x.step env envs (.sync configs) = some (r, y)) :
    Served p q m [] [] x views y views := by
  obtain ⟨r', hstep, hclients, hreceived, -⟩ := step_hub rfl hs views
  have hord : (x.hub views).Orderly env (.sync configs) := orderly_hub ho.1
  have hcarried := Hub.carried_sync h.hub hp hpub hord (ho.2 _ rfl).1 hstep
  obtain ⟨added, hto⟩ := Hub.sync_spec h.hub hord.fits hstep (hord.succeeds.accepted hstep)
  -- the publisher is kept, and with it its segment
  have hkept : p ∈ PubSub.kept configs x.pubsub.publishers :=
    List.mem_filter.mpr ⟨hp, PubSub.isConfigured_iff.mpr (ho.2 _ rfl).1⟩
  have hother := hord.distinct.object_notMem hkept
  obtain ⟨hpub', hseg⟩ := hto.kept p hkept hother q m hpub
  have hnames := Hub.names_of_sync h.hub hord.succeeds hstep hother
  refine .nothing hcarried.mem hpub' (fun hb => hnames.trans hb) hseg rfl (by rw [hreceived]) ?_
  intro hx c s m' hsub hm' heq
  rw [hclients] at hsub hm'
  change _ = ((y.hub views).world.kernel.segments m.seg).size
  rw [hseg]
  exact hx c s m' hsub hm' heq

/-- **A publish** is one `enqueue` on the segment, and its answer is part of the fan's. -/
theorem Inv.served_publish {payload : Payload} (h : x.Inv env views)
    (ho : x.Steady env p.config.shmName (.publish payload)) (hp : p ∈ x.pubsub.publishers)
    (hpub : Publishing x.world p q m) (hs : x.step env envs (.publish payload) = some (r, y)) :
    ∃ es, Served p q m [.enqueue payload] es x views y views ∧
      (r ≠ .published false → Fifo.accepted es = [payload]) := by
  obtain ⟨r', hstep, hclients, hreceived, hreply⟩ := step_hub rfl hs views
  obtain ⟨b, rfl, hpubsub, -, hfan, oks, hoks, hb⟩ := Hub.publish_fans h.hub hstep
  obtain rfl := (hreply b).mpr rfl
  obtain ⟨ok, hok, q', m', hpub', hrun⟩ := exists_mem_of_forall₂ hoks hp
  obtain ⟨rfl, rfl⟩ := hpub'.unique hpub
  have hpub'' := hfan.publishing p _ _ hpub
  have hsize : (y.world.kernel.segments m'.seg).size = (x.world.kernel.segments m'.seg).size := by
    change ((y.hub views).world.kernel.segments m'.seg).size = _
    rw [← hpub''.len]
    exact hpub.len
  have happly : (x.session views m'.seg).apply q'.handle (x.extent m'.seg) (.enqueue payload) =
      some (.enqueued ok, y.session views m'.seg) :=
    Session.apply_enqueue (x := x.session views m'.seg) hrun
  refine ⟨_, ⟨?_, hpub'', fun hb => ?_, hsize, Session.events_single happly, ⟨?_, ?_⟩, ?_, ?_⟩, ?_⟩
  · change p ∈ (y.hub views).pubsub.publishers
    rw [hpubsub]
    exact hp
  · have hnames := Hub.names_of_publish hstep
    change (y.hub views).world.kernel.names p.config.shmName = _
    rw [hnames]
    exact hb
  · exact (ho.2 _ rfl).2 p hp rfl q' hpub.queue m' hpub.mapped hpub.addr.symm
  · exact fun _ _ _ => trivial
  · rw [hreceived]
    cases ok <;> exact (List.append_nil _).symm
  · intro hx c s m' hsub hm' heq
    rw [hclients] at hsub hm'
    rw [hsize]
    exact hx c s m' hsub hm' heq
  · intro hne
    -- the publish was answered with true, so all queues have accepted
    have hall : b = true := by
      cases b with
      | true => rfl
      | false => exact absurd rfl hne
    rw [hb, List.all_eq_true] at hall
    obtain rfl : ok = true := hall ok hok
    rfl

/-- **One call**, as the segment of a publisher sees it. -/
theorem Inv.served_step {a : NetworkAction τ} (h : x.Inv env views)
    (ho : x.Steady env p.config.shmName a) (hp : p ∈ x.pubsub.publishers)
    (hpub : Publishing x.world p q m) (hs : x.step env envs a = some (r, y)) :
    ∃ views' ops es, y.Inv env views' ∧ Served p q m ops es x views y views' ∧
      ops.filterMap Session.enqueued = publishedIn [a] ∧
      (r ≠ .published false → Fifo.accepted es = publishedIn [a]) := by
  -- only `publish` enqueues; with any other action no message is accepted
  cases a with
  | sync configs =>
    exact ⟨views, [], [], h.serve rfl (orderly_hub ho.1) hs, h.served_sync ho hp hpub hs, rfl,
      fun _ => rfl⟩
  | publish payload =>
    have hord : (x.hub views).Orderly env (.publish payload) := ⟨trivial, trivial, trivial⟩
    obtain ⟨es, hserved, haccepted⟩ := h.served_publish ho hp hpub hs
    exact ⟨views, _, es, h.serve rfl hord hs, hserved, rfl, haccepted⟩
  | attach c config =>
    exact ⟨views, [], [], h.attach ho.1 hs, .of_attach hp hpub hs, rfl, fun _ => rfl⟩
  | detach c => exact ⟨views, [], [], h.detach hs, h.served_detach hp hpub hs, rfl, fun _ => rfl⟩
  | dequeueBegin c =>
    obtain ⟨i, views', hw⟩ := h.works_dequeueBegin hs
    obtain ⟨ops, es, hserved, hnone⟩ := hw.served hp hpub (fun _ => trivial) rfl
    have hsub := Session.accepted_sublist hserved.events
    rw [hnone] at hsub
    exact ⟨views', ops, es, h.works hw, hserved, hnone, fun _ => List.eq_nil_of_sublist_nil hsub⟩
  | dequeueCommit c =>
    obtain ⟨i, views', hw⟩ := h.works_dequeueCommit hs
    obtain ⟨ops, es, hserved, hnone⟩ := hw.served hp hpub (fun _ => trivial) rfl
    have hsub := Session.accepted_sublist hserved.events
    rw [hnone] at hsub
    exact ⟨views', ops, es, h.works hw, hserved, hnone, fun _ => List.eq_nil_of_sublist_nil hsub⟩

/-- **One call** keeps the invariant. -/
theorem Inv.step {a : NetworkAction τ} (h : x.Inv env views) (ho : x.Orderly env a)
    (hs : x.step env envs a = some (r, y)) : ∃ views', y.Inv env views' := by
  cases a with
  | sync configs => exact ⟨views, h.serve rfl (orderly_hub ho) hs⟩
  | publish payload =>
    have hord : (x.hub views).Orderly env (.publish payload) := ⟨trivial, trivial, trivial⟩
    exact ⟨views, h.serve rfl hord hs⟩
  | attach c config => exact ⟨views, h.attach ho hs⟩
  | detach c => exact ⟨views, h.detach hs⟩
  | dequeueBegin c =>
    obtain ⟨i, views', hw⟩ := h.works_dequeueBegin hs
    exact ⟨views', h.works hw⟩
  | dequeueCommit c =>
    obtain ⟨i, views', hw⟩ := h.works_dequeueCommit hs
    exact ⟨views', h.works hw⟩

/-- A publish is accepted by all queues. -/
def Accepts (env : Env) (envs : τ → Env) (x : Network τ) (a : NetworkAction τ) : Prop :=
  ∀ r y, x.step env envs a = some (r, y) → r ≠ .published false

omit [DecidableEq τ] in
theorem publishedIn_cons (a : NetworkAction τ) (actions : List (NetworkAction τ)) :
    publishedIn (a :: actions) = publishedIn [a] ++ publishedIn actions := by
  unfold publishedIn Hub.publishedIn
  rw [← List.singleton_append, List.filterMap_append, List.filterMap_append]

/-- **A run**, as the segment of a publisher that stays configured sees it. -/
theorem Inv.served_reaches {actions : List (NetworkAction τ)} (h : x.Inv env views)
    (hp : p ∈ x.pubsub.publishers) (hpub : Publishing x.world p q m)
    (hr : Reaches (Network.step env envs) (Steady env p.config.shmName) x actions z) :
    ∃ views' ops es, z.Inv env views' ∧ Served p q m ops es x views z views' ∧
      ops.filterMap Session.enqueued = publishedIn actions ∧
      (Along (Network.step env envs) (Accepts env envs) x actions →
        Fifo.accepted es = publishedIn actions) := by
  -- by induction on the run, with the views each call leaves
  induction hr generalizing views with
  | refl x =>
    exact ⟨views, [], [], h, .nothing hp hpub id rfl rfl rfl id, rfl, fun _ => rfl⟩
  | @cons x y z a actions r ho hs _ ih =>
    obtain ⟨views', ops, es, hinv, hone, hops, hacc⟩ := h.served_step ho hp hpub hs
    obtain ⟨views'', ops', es', hinv', hmany, hops', hacc'⟩ :=
      ih hinv hone.mem hone.publishing
    refine ⟨views'', ops ++ ops', es ++ es', hinv', hone.trans hmany, ?_, fun hall => ?_⟩
    · rw [List.filterMap_append, hops, hops', ← publishedIn_cons]
    · rw [Fifo.accepted_append, hacc (hall.1 r y hs), hacc' (hall.2 r y hs), ← publishedIn_cons]

/-- **The invariant holds in every state reached**, for some views. -/
theorem inv_of_reaches {w : World} {processes : τ → Process} {actions : List (NetworkAction τ)}
    (hw : w.Roomy env)
    (hr : Reaches (Network.step env envs) (Orderly env) (start w processes) actions x) :
    ∃ views, x.Inv env views :=
  hr.invariant (I := fun t => ∃ views, t.Inv env views)
    (fun _ _ _ _ ⟨_, h⟩ ho hs => h.step ho hs) ⟨_, inv_start hw processes⟩

end Calls

/-! ### What a client finds -/

/-- The clients that have no subscriber can attach to segment `i`, if resources do not fail them. -/
def Admits (env : Env) (envs : τ → Env) (config : PubSubConfig) (i : Nat) (x : Network τ) : Prop :=
  ∀ c, (x.clients c).subscriber = none → (envs c).Plentiful → ∃ y,
    x.step env envs (.attach c config) = some (.attached (.ok ()), y) ∧ y.seat c = some i

/-- A client on segment `i` is told by `can_dequeue` and `is_empty` whether there are any of the
messages `l`; it is shown the first of them, or nothing if there is none; and if it holds a view,
that shows the first of them, and committing it is receiving it. -/
structure Presents (env : Env) (envs : τ → Env) (i : Nat) (l : List Payload) (x : Network τ) :
    Prop where
  asks : ∀ c, x.seat c = some i → ∃ s w w', (x.clients c).subscriber = some s ∧
    s.canDequeue.run (World.exec (envs c)) (x.seen c) = some (decide (l ≠ []), w) ∧
    s.isEmpty.run (World.exec (envs c)) (x.seen c) = some (decide (l = []), w')
  looks : ∀ c, x.seat c = some i → ∃ v y, x.step env envs (.dequeueBegin c) = some (.viewed v, y) ∧
    (if v.empty then none else some (v.bytes (y.storage i).buffer)) = l.head?
  commits : ∀ c v, x.seat c = some i → (x.clients c).view = some v → ∃ y,
    x.step env envs (.dequeueCommit c) = some (.committed, y) ∧
    some (v.bytes (x.storage i).buffer) = l.head? ∧
    y.received i = x.received i ++ [v.bytes (x.storage i).buffer]

/-- A client attaches to a segment with a header that is in order. -/
theorem admits_of_header {config : PubSubConfig} {i : Nat}
    (hbound : x.world.kernel.names config.shmName = some i)
    (hsize : (x.world.kernel.segments i).size = config.storageSizeBytes)
    (hlow : 256 ≤ config.storageSizeBytes) (hmagic : (x.storage i).magic = spscMagic)
    (habi : (x.storage i).abiVersion = spscAbiVersion)
    (hstorage : (x.storage i).storageSize = config.storageSizeBytes) :
    x.Admits env envs config i := by
  intro c hnone hplenty
  obtain ⟨res, w, hrun, hsub⟩ := @Subscriber.runs_fromConfig (envs c) config (x.seen c)
  obtain ⟨s, rfl⟩ := hsub.succeeds hplenty i hbound hsize hlow hmagic habi hstorage
  refine ⟨x.put c w (some s) none, ?_, ?_⟩
  · -- the construction ends with a subscriber, on the segment its name was bound to
    simp only [step, hnone, hrun]
  · obtain ⟨j, hj, -, -, hm⟩ := attached_spec hrun
    obtain rfl := Option.some.inj (hbound.symm.trans hj)
    unfold seat Client.seat
    rw [clients_put_self]
    change (w.process.mappingAt s.queue.storage).map Mapping.seg = _
    rw [hm]
    rfl

omit [DecidableEq τ] in
/-- A client on a segment that it has mapped as a whole can do there what can be done in the
segment. -/
theorem Whole.exists_run (env' : Env) {i len : Nat} (h : x.Whole i) (hinv : x.Inv env views)
    (hc : x.seat c = some i) (hlen : len ≤ x.extent i) {α : Type} {p : QProg α} {V : α → Prop}
    (hfits : p.All MemOp.Fits V) {a : α} {st : SPSCStorage}
    (hrun : p.run (SPSCStorage.exec len) (x.storage i) = some (a, st)) :
    ∃ s w, (x.clients c).subscriber = some s ∧
      (SysProg.through s.queue.storage p).run (World.exec env') (x.seen c) = some (a, w) ∧
      (w.kernel.segments i).storage = st := by
  unfold seat Client.seat at hc
  obtain ⟨s, hs, hmap⟩ := Option.bind_eq_some_iff.mp hc
  obtain ⟨-, m, hm, -⟩ := hinv.seated c s hs
  rw [hm] at hmap
  obtain rfl := Option.some.inj hmap
  -- the mapping reaches to the end of the segment, so what the program may access there it may
  -- access through the pointer
  have hwindow : m.window (x.world.kernel.segments m.seg) = x.extent m.seg := by
    unfold Mapping.window
    rw [h c s m hs hm rfl]
    exact min_self _
  have hrun' := SPSCStorage.run_mono hlen hrun
  rw [← hwindow] at hrun'
  obtain ⟨w, hw⟩ : ∃ w, (SysProg.through s.queue.storage p).run (World.exec env') (x.seen c) =
    some (a, w) := exists_run_through hfits hm hrun'
  obtain ⟨st', hst', hstores⟩ := run_through hfits hm hw
  obtain ⟨-, rfl⟩ := Prod.mk.inj (Option.some.inj (hrun'.symm.trans hst'))
  exact ⟨s, w, hs, hw, hstores.storage⟩

/-- What is in the queue by the invariant of the session is what the client on it is told and
shown. -/
theorem presents_of_session {q : SPSCQueue} {B i : Nat} {front back : List Payload}
    (hinv : x.Inv env views) (hwhole : x.Whole i) (hq : Sized q B) (hlen : 256 + B ≤ x.extent i)
    (h : (x.session views i).Inv B front back) : x.Presents env envs i (front ++ back) := by
  constructor
  · intro c hc
    -- both compare the indices
    have hcan := @SPSCQueue.run_canDequeue (256 + B) (x.storage i) (Nat.le_add_right 256 B)
    obtain ⟨s, w, hs, hw, -⟩ :=
      hwhole.exists_run (envs c) hinv hc hlen SPSCQueue.fits_canDequeue hcan
    obtain ⟨s', w', hs', hw', -⟩ :=
      hwhole.exists_run (envs c) hinv hc hlen SPSCQueue.fits_isEmpty h.run_isEmpty
    obtain rfl := Option.some.inj (hs.symm.trans hs')
    refine ⟨s, w, w', hs, ?_, hw'⟩
    rw [← decide_eq_decide.mpr (not_congr h.layout.eq_iff)]
    exact hw
  · intro c hc
    rcases h.dequeueBegin hq with ⟨hnil, happly⟩ | ⟨p, rest, back', r', hcat, happly, hst, -, -⟩
    · -- nothing to read
      have hrun := Session.run_of_apply_dequeueBegin happly
      obtain ⟨s, w, hs, hw, -⟩ :=
        hwhole.exists_run (envs c) hinv hc hlen (SPSCQueue.fits_dequeueBegin 2) hrun
      refine ⟨{}, _, by simp only [step, hs, Subscriber.dequeueBegin, hw]; rfl, ?_⟩
      rw [hnil]
      rfl
    · have hrun := Session.run_of_apply_dequeueBegin happly
      obtain ⟨s, w, hs, hw, hstorage⟩ :=
        hwhole.exists_run (envs c) hinv hc hlen (SPSCQueue.fits_dequeueBegin 2) hrun
      refine ⟨_, _, by simp only [step, hs, Subscriber.dequeueBegin, hw]; rfl, ?_⟩
      have hpos := hst.pos
      rw [if_neg (by simp only [MessageView.empty, decide_eq_true_eq]; omega), hcat]
      change some ((MessageView.mk (some (r' + 8)) p.length r').bytes
        (w.kernel.segments i).storage.buffer) = some p
      rw [hstorage]
      exact congrArg some hst.bytes
  · intro c v hc hv
    have hview := hinv.view c i v hc hv
    obtain ⟨p, rest, hf, hbytes, -, -, -, happly, -⟩ := h.dequeueCommit hq hview
    obtain ⟨u, hrun⟩ := Session.run_of_apply_dequeueCommit hview happly
    obtain ⟨s, w, hs, hw, -⟩ :=
      hwhole.exists_run (envs c) hinv hc hlen (SPSCQueue.fits_dequeueCommit v) hrun
    refine ⟨_, by simp only [step, hs, hv, Subscriber.dequeueCommit, hw]; rfl, ?_, ?_⟩
    · rw [hf]
      exact congrArg some hbytes
    · change x.receive c v i = _
      unfold receive
      rw [hc]
      exact Function.update_self _ _ _

end Network

/-- A client receives a message and goes; another one comes, and has seen the next message. -/
def relievingRun : List (NetworkAction Bool) :=
  [.attach true config64, .publish [1, 2, 3], .dequeueBegin true, .publish [4],
    .dequeueCommit true, .detach true, .attach false config64, .dequeueBegin false]

end PosixIpc
