import PosixIpc.Framework.Locking
import PosixIpc.PubSub.Isolation

/-!
# Threads on one `PubSub`

`SpinLock` and `SpinLockGuard` (`synchronization.hpp`), and any number of threads that call
`sync_configs` and `publish` on one `PubSub`. Both functions begin with a guard on the lock of the
object, which is given back on every way out of them. Between two steps of a call, at the grain of
system calls and of single accesses to the queues, any other thread may take steps.

`pubsub_serializable`: whenever the lock is free, the threads have performed their calls one after
the other, in the order in which they gave the lock back. What is known of the runs of a `Hub` is
thus known of the threads. In particular a queue has one producer at a time, and the messages of all
threads arrive in all queues in one order (`threads_total_order`).
-/

namespace PosixIpc

open Framework

/-! ### The lock -/

namespace SpinLock

/-- `atomic_flag::test_and_set`: the value before, and the flag. -/
def testAndSet (locked : Bool) : Bool × Bool := (locked, true)

/-- A round of the loop of `lock`: whether it was the last one, and the flag. -/
def lockRound (locked : Bool) : Bool × Bool :=
  (!(testAndSet locked).1, (testAndSet locked).2)

/-- `unlock`: `atomic_flag::clear`. -/
def unlock (_ : Bool) : Bool := false

/-- `SpinLock`. -/
def lock : TryLock Bool where
  attempt := lockRound
  release := unlock
  held := id
  attempt_fst := fun _ => rfl
  held_attempt := fun _ => rfl
  held_release := fun _ => rfl

end SpinLock

/-! ### The threads -/

/-- The functions that begin with a `SpinLockGuard`. -/
inductive PubSubCall where
  | syncConfigs (configs : List PubSubConfig)
  | publish (payload : Payload)

namespace PubSubCall

/-- What a call does while it has the lock. -/
def body : PubSubCall → PubSub → SysProg (HubReply × PubSub)
  | .syncConfigs configs, x => do
    let (r, x') ← x.syncConfigs configs
    return (.synced r, x')
  | .publish payload, x => do
    let ok ← x.publish ⟨payload⟩
    return (.published ok, x)

/-- The call as an action of a `Hub`. -/
def toAction : PubSubCall → HubAction
  | .syncConfigs configs => .sync configs
  | .publish payload => .publish payload

/-- What a call is for a queue that stays configured. -/
def enqueued : PubSubCall → Option Op
  | .syncConfigs _ => none
  | .publish payload => some (.enqueue payload)

/-- A call of a thread is seen by a segment as what the thread publishes there. -/
theorem project_toAction (i : Nat) (call : PubSubCall) :
    Hub.project i call.toAction = call.enqueued := by
  cases call <;> rfl

end PubSubCall

/-- Threads `I` on one `PubSub`. -/
abbrev Threads (I : Type) := Team SysCall.Ret I Bool PubSubCall HubReply PubSub World

namespace Threads

variable {I : Type} {env : Env} {w : World}

/-- A `PubSub` without publishers, and no thread in a call. -/
def start (I : Type) (w : World) : Threads I := Team.start false {} w

/-- The next step of one of the threads. -/
def step [DecidableEq I] (env : Env) :
    Threads I → TeamAction I PubSubCall → Option (Unit × Threads I) :=
  Team.step SpinLock.lock (World.exec env) PubSubCall.body

/-- The object and its process, without subscribers. -/
def hub (y : Threads I) : Hub := ⟨y.object, y.world, fun _ => none⟩

/-- The calls that are over, as actions of a `Hub`. -/
def actions (y : Threads I) : List HubAction := y.calls.map PubSubCall.toAction

/-- **A whole call** is an action of a `Hub`. -/
theorem whole_eq (env : Env) (x : Hub) (call : PubSubCall) :
    Team.whole (World.exec env) PubSubCall.body (x.pubsub, x.world) call =
      (x.step env call.toAction).map fun z => (z.1, (z.2.pubsub, z.2.world)) := by
  -- the body of a call is the function of the source, its result paired with the publishers there
  -- are then
  cases call with
  | syncConfigs configs =>
    change ((x.pubsub.syncConfigs configs >>= fun z => .ret (HubReply.synced z.1, z.2)).run
      (World.exec env) x.world).map _ = _
    rw [Prog.run_bind]
    simp only [PubSubCall.toAction, Hub.step]
    cases (x.pubsub.syncConfigs configs).run (World.exec env) x.world with
    | none => rfl
    | some z => rfl
  | publish payload =>
    change ((x.pubsub.publish ⟨payload⟩ >>= fun ok => .ret (HubReply.published ok, x.pubsub)).run
      (World.exec env) x.world).map _ = _
    rw [Prog.run_bind]
    simp only [PubSubCall.toAction, Hub.step]
    cases (x.pubsub.publish ⟨payload⟩).run (World.exec env) x.world with
    | none => rfl
    | some z => rfl

/-- Calls of the threads create no views. -/
theorem views_of_step {x y : Hub} {r : HubReply} {call : PubSubCall}
    (h : x.step env call.toAction = some (r, y)) : y.views = x.views := by
  cases call with
  | syncConfigs configs =>
    obtain ⟨-, -, hviews, -⟩ := Hub.step_sync h
    exact hviews
  | publish payload =>
    obtain ⟨-, -, -, hviews, -⟩ := Hub.step_publish h
    exact hviews

/-- The calls of a log, performed on a `Hub`. -/
theorem hub_replies {calls : List PubSubCall} {answers : List HubReply} {pubsub : PubSub}
    {w' : World} (h : replies (Team.whole (World.exec env) PubSubCall.body) ({}, w) calls =
      some (answers, (pubsub, w'))) :
    replies (Hub.step env) (Hub.start w) (calls.map PubSubCall.toAction) =
      some (answers, ⟨pubsub, w', fun _ => none⟩) := by
  -- the subscribers of the `Hub` do nothing
  have hsim : ∀ z (x : Hub) call r z', (z = (x.pubsub, x.world) ∧ x.views = fun _ => none) →
      Team.whole (World.exec env) PubSubCall.body z call = some (r, z') →
      ∃ x' : Hub, x.step env call.toAction = some (r, x') ∧
        z' = (x'.pubsub, x'.world) ∧ x'.views = fun _ => none := by
    rintro - x call r z ⟨rfl, hviews⟩ hstep
    rw [whole_eq] at hstep
    obtain ⟨⟨r', y⟩, hy, hz⟩ := Option.map_eq_some_iff.mp hstep
    obtain ⟨rfl, rfl⟩ := Prod.mk.inj hz
    exact ⟨y, hy, rfl, (views_of_step hy).trans hviews⟩
  have hstart : (({} : PubSub), w) = ((Hub.start w).pubsub, (Hub.start w).world) ∧
      (Hub.start w).views = fun _ => none := ⟨rfl, rfl⟩
  obtain ⟨⟨pubsub', w'', views⟩, hrun, hz, rfl⟩ := replies_of_simulation hsim hstart h
  obtain ⟨rfl, rfl⟩ := Prod.mk.inj hz
  exact hrun

variable [DecidableEq I] {acts : List (TeamAction I PubSubCall)} {y z : Threads I}

/-- The invariant of the lock, at the `PubSub`'s calls. -/
theorem inv_of_reaches (hr : Reaches (step env) (fun _ _ => True) (start I w) acts y) :
    y.Inv SpinLock.lock (World.exec env) PubSubCall.body {} w :=
  Team.inv_of_reaches rfl hr

/-- Whenever the lock is free, the calls of the log have led to where the threads are. -/
theorem replies_of_free (hr : Reaches (step env) (fun _ _ => True) (start I w) acts y)
    (hfree : y.Free) :
    replies (Hub.step env) (Hub.start w) y.actions = some (y.answers, y.hub) :=
  hub_replies (Team.serializable (l := false) rfl hr hfree)

end Threads

/-- **Threads are serializable.** Any number of threads call `sync_configs` and `publish` on one
`PubSub`, and their steps are taken in any order. At any time at most one of them is between taking
the lock and giving it back, and the flag of the lock tells whether there is one. If there is none,
everything is as after the calls that are over, performed one after the other, with the same
answers. If there is one, it has done what its call does on its own; if the call on its own has an
answer, the thread gets to it by its own steps, and gives the lock back. -/
theorem pubsub_serializable {I : Type} [DecidableEq I] {env : Env} {w : World}
    {acts : List (TeamAction I PubSubCall)} {y : Threads I}
    (hr : Reaches (Threads.step env) (fun _ _ => True) (Threads.start I w) acts y) :
    (∀ i j, (y.phase i).Holds → (y.phase j).Holds → i = j) ∧
    (y.lock = true ↔ ∃ i, (y.phase i).Holds) ∧
    (y.Free → replies (Hub.step env) (Hub.start w) y.actions = some (y.answers, y.hub)) ∧
    ∀ i call rest, y.phase i = .inside call rest →
      ∃ x : Hub, replies (Hub.step env) (Hub.start w) y.actions = some (y.answers, x) ∧
        ∀ r x', x.step env call.toAction = some (r, x') →
          ∃ n z, follow (Threads.step env) y (List.replicate n (.step i)) = some z ∧ z.Free ∧
            z.log = y.log ++ [(i, call, r)] ∧ z.hub = x' := by
  have hinv := Threads.inv_of_reaches hr
  refine ⟨hinv.alone, hinv.held, Threads.replies_of_free hr, fun i call rest hi => ?_⟩
  have hholds : (y.phase i).Holds := by
    rw [hi]
    exact trivial
  obtain ⟨pubsub, w', hrun, hagree, -⟩ := hinv.serial
  refine ⟨⟨pubsub, w', fun _ => none⟩, Threads.hub_replies hrun, fun r x' hstep => ?_⟩
  -- what is left of the call ends where the call on its own ends
  have hwhole := Threads.whole_eq env ⟨pubsub, w', fun _ => none⟩ call
  rw [hstep] at hwhole
  obtain ⟨pubsub₁, w₁, views₁⟩ := x'
  obtain ⟨⟨⟨r', pubsub'⟩, w''⟩, hbody, heq⟩ := Option.map_eq_some_iff.mp hwhole
  obtain ⟨rfl, heq⟩ := Prod.mk.inj heq
  obtain ⟨rfl, rfl⟩ := Prod.mk.inj heq
  have hall := hagree i
  rw [hi] at hall
  obtain ⟨n, hn⟩ := Team.exists_release SpinLock.lock PubSubCall.body hi
    (hall.2.symm.trans hbody)
  refine ⟨n, _, hn, fun j => ?_, rfl, ?_⟩
  · change ¬ (Function.update y.phase i .idle j).Holds
    by_cases hj : j = i
    · subst hj
      rw [Function.update_self]
      exact id
    · rw [Function.update_of_ne hj]
      exact hinv.not_holds hholds hj
  · exact congrArg (Hub.mk pubsub' w'') (Threads.views_of_step hstep).symm

/-- One thread adds two publishers; meanwhile another one waits with a message. -/
def syncingRun : List (TeamAction Bool PubSubCall) :=
  [[.call false (.syncConfigs [config64, config64'])], .replicate 5 (.step false),
    [.call true (.publish [1, 2])], .replicate 3 (.step true), .replicate 22 (.step false),
    .replicate 19 (.step true)].flatten

/-- Two threads that want the lock at the same time get it one after the other. -/
theorem pubsub_serializable_syncing : ∃ y : Threads Bool,
    Reaches (Threads.step Env.bump) (fun _ _ => True) (Threads.start Bool World.fresh)
      syncingRun y ∧
    y.log.map (fun e => e.1) = [false, true] ∧
    replies (Hub.step Env.bump) (Hub.start World.fresh) y.actions = some (y.answers, y.hub) := by
  have hrun : (follow (Threads.step Env.bump) (Threads.start Bool World.fresh) syncingRun).map
      (fun y => (y.log.map fun e => e.1, decide (∀ i : Bool, ¬ (y.phase i).Holds))) =
      some ([false, true], true) := by decide +kernel
  obtain ⟨y, hy, hobs⟩ := Option.map_eq_some_iff.mp hrun
  obtain ⟨hlog, hfree⟩ := Prod.mk.inj hobs
  have hreach : Reaches (Threads.step Env.bump) (fun _ _ => True) (Threads.start Bool World.fresh)
      syncingRun y := .of_follow hy (along_of_forall (Q := fun _ => True) (fun _ _ => trivial) _)
  have hfree' : ∀ i : Bool, ¬ (y.phase i).Holds := of_decide_eq_true hfree
  exact ⟨y, hreach, hlog, (pubsub_serializable hreach).2.2.1 hfree'⟩

/-- Two threads publish; the second one begins while the first one is at work. -/
def publishingRun : List (TeamAction Bool PubSubCall) :=
  [[.call false (.publish [3])], .replicate 7 (.step false),
    [.call true (.publish [4, 5])], .replicate 3 (.step true), .replicate 12 (.step false),
    .replicate 19 (.step true)].flatten

end PosixIpc
