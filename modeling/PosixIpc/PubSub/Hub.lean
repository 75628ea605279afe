import PosixIpc.PubSub.Sync
import PosixIpc.Spsc.Session

/-!
# A set of publishers at work

A `Hub` is one `PubSub` in its process, together with the subscribers on the segments: for each
segment, the view its consumer holds. Its actions are whole calls: `sync_configs` and `publish` on
the `PubSub`, and `dequeue_begin` and `dequeue_commit` of the subscriber on a segment.

A sync may fail in the middle, a publish may find queues full; neither ends a run. Only a call that
ends the process (an access outside the segment, a failed assertion) has no answer.
-/

namespace PosixIpc

open Framework

/-- What a subscriber does with its queue. -/
inductive ConsumerOp where
  | dequeueBegin
  | dequeueCommit
  deriving DecidableEq, Repr

def ConsumerOp.toOp : ConsumerOp → Op
  | .dequeueBegin => .dequeueBegin
  | .dequeueCommit => .dequeueCommit

/-- A `PubSub`, its process, and the views the subscribers hold. -/
structure Hub where
  pubsub : PubSub
  world : World
  views : Nat → Option MessageView

inductive HubAction where
  | sync (configs : List PubSubConfig)
  | publish (payload : Payload)
  /-- The subscriber on segment `seg` performs an operation. -/
  | consume (seg : Nat) (o : ConsumerOp)
  deriving DecidableEq

inductive HubReply where
  | synced (r : Except PosixIpcError Unit)
  | published (ok : Bool)
  | consumed (r : Reply)

/-- Whether a sync succeeded. -/
def HubReply.accepted : HubReply → Bool
  | .synced (.ok _) => true
  | _ => false

theorem HubReply.eq_of_accepted {r : HubReply} (h : r.accepted = true) : r = .synced (.ok ()) := by
  unfold accepted at h
  split at h
  · rfl
  · exact absurd h (by simp)

namespace Hub

/-- Nothing is published yet. -/
def start (w : World) : Hub := ⟨{}, w, fun _ => none⟩

/-- The storage in a segment. -/
def storage (x : Hub) (i : Nat) : SPSCStorage := (x.world.kernel.segments i).storage

/-- What the subscriber on segment `i` works on. -/
def session (x : Hub) (i : Nat) : Session := ⟨x.storage i, x.views i⟩

/-- The bytes of segment `i` that can be accessed where it is mapped as a whole. -/
def extent (x : Hub) (i : Nat) : Nat := pageCeil (x.world.kernel.segments i).size

/-- Store the outcome of an operation of the subscriber on segment `i`. -/
def putSession (x : Hub) (i : Nat) (z : Session) : Hub where
  pubsub := x.pubsub
  -- through its own mapping: the subscriber is another process
  world := { x.world with kernel :=
    x.world.kernel.setBytes i (z.storage.toBytes (x.world.kernel.segments i).bytes) }
  views := fun j => if j = i then z.view else x.views j

/-- A whole call. -/
def step (env : Env) (x : Hub) : HubAction → Option (HubReply × Hub)
  | .sync configs =>
    match (x.pubsub.syncConfigs configs).run (World.exec env) x.world with
    | some ((r, pubsub), w) => some (.synced r, { x with pubsub := pubsub, world := w })
    | none => none
  | .publish payload =>
    match (x.pubsub.publish ⟨payload⟩).run (World.exec env) x.world with
    | some (ok, w) => some (.published ok, { x with world := w })
    | none => none
  | .consume i o =>
    if i < x.world.kernel.next then
      -- the consumer's operations do not look at the handle
      match (x.session i).apply (SPSCQueue.construct (x.storage i)) (x.extent i) o.toOp with
      | some (r, z) => some (.consumed r, x.putSession i z)
      | none => none
    else none

/-! ### Inversion of the calls -/

section Inversion

variable {env : Env} {x y : Hub} {r : HubReply}

theorem step_sync {configs : List PubSubConfig} (h : x.step env (.sync configs) = some (r, y)) :
    ∃ res, r = .synced res ∧ y.views = x.views ∧
      (x.pubsub.syncConfigs configs).run (World.exec env) x.world =
        some ((res, y.pubsub), y.world) := by
  simp only [step] at h
  split at h
  · next res pubsub w hrun =>
    obtain ⟨rfl, rfl⟩ := Prod.mk.inj (Option.some.inj h)
    exact ⟨res, rfl, rfl, hrun⟩
  · exact absurd h (by simp)

theorem step_publish {payload : Payload} (h : x.step env (.publish payload) = some (r, y)) :
    ∃ ok, r = .published ok ∧ y.pubsub = x.pubsub ∧ y.views = x.views ∧
      (x.pubsub.publish ⟨payload⟩).run (World.exec env) x.world = some (ok, y.world) := by
  simp only [step] at h
  split at h
  · next ok w hrun =>
    obtain ⟨rfl, rfl⟩ := Prod.mk.inj (Option.some.inj h)
    exact ⟨ok, rfl, rfl, rfl, hrun⟩
  · exact absurd h (by simp)

theorem step_consume {i : Nat} {o : ConsumerOp} (h : x.step env (.consume i o) = some (r, y)) :
    i < x.world.kernel.next ∧ ∃ res z, r = .consumed res ∧ y = x.putSession i z ∧
      (x.session i).apply (SPSCQueue.construct (x.storage i)) (x.extent i) o.toOp =
        some (res, z) := by
  simp only [step] at h
  split at h
  · next hi =>
    refine ⟨hi, ?_⟩
    split at h
    · next res z happly =>
      obtain ⟨rfl, rfl⟩ := Prod.mk.inj (Option.some.inj h)
      exact ⟨res, z, rfl, rfl, happly⟩
    · exact absurd h (by simp)
  · exact absurd h (by simp)

/-- A sync is always answered. -/
theorem exists_step_sync (env : Env) (x : Hub) (hq : x.pubsub.changeQueue = [])
    (configs : List PubSubConfig) : ∃ res y, x.step env (.sync configs) = some (.synced res, y) ∧
      PubSub.Syncs env configs x.pubsub.publishers x.world (res, y.pubsub) y.world := by
  -- the specification is about an empty queue, written as such
  obtain ⟨⟨publishers, queue⟩, w, views⟩ := x
  change queue = [] at hq
  subst hq
  obtain ⟨⟨res, pubsub⟩, w', hrun, hsyncs⟩ :=
    @PubSub.runs_syncConfigs env configs publishers w
  refine ⟨res, ⟨pubsub, w', views⟩, ?_, hsyncs⟩
  simp only [step, hrun]

/-- What a sync has done, from an empty queue of changes. -/
theorem syncs_of_step {configs : List PubSubConfig} (hq : x.pubsub.changeQueue = [])
    (h : x.step env (.sync configs) = some (r, y)) : ∃ res, r = .synced res ∧ y.views = x.views ∧
      PubSub.Syncs env configs x.pubsub.publishers x.world (res, y.pubsub) y.world := by
  obtain ⟨res, y', hstep, hsyncs⟩ := exists_step_sync env x hq configs
  obtain ⟨rfl, rfl⟩ := Prod.mk.inj (Option.some.inj (h.symm.trans hstep))
  obtain ⟨-, -, hviews, -⟩ := step_sync h
  exact ⟨res, rfl, hviews, hsyncs⟩

end Inversion

end Hub

end PosixIpc
