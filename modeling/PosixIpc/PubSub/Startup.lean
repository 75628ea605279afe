import PosixIpc.PubSub.Agreement
import PosixIpc.PubSub.Probing
import PosixIpc.Framework.Run

/-!
# Starting up next to a polling subscriber

One process executes `Publisher::from_config` while another one executes `Subscriber::from_config`,
any number of times, for the same configuration; their system calls interleave in any order
(`Startup.step`). The flag `probing` is a ghost of the subscriber.

`startup_bound`: if the publisher's `shm_open` without `O_EXCL` is never performed while the
subscriber is probing, a publisher that was returned is on the segment its name is bound to.
Otherwise it may be on the segment of the probe, which the subscriber unlinks (`startup_race`).
-/

namespace PosixIpc

open Framework SysProg

/-! ### The system -/

/-- The two processes over one kernel. -/
structure Startup where
  kernel : Kernel
  probing : Bool
  publisher : Process
  publisherCalls : Nat
  /-- What is left of `Publisher::from_config`. -/
  publishing : SysProg (Except PosixIpcError Publisher)
  subscriber : Process
  subscriberCalls : Nat
  /-- What is left of the subscriber's current call, if it is in one. -/
  subscribing : Option (SysProg (Except PosixIpcError Subscriber))

inductive StartupAction where
  /-- The publisher's next system call. -/
  | publisherStep
  /-- The subscriber calls `from_config`, for the first time or again. -/
  | subscriberCall
  /-- The subscriber's next system call, or its return. -/
  | subscriberStep
  deriving DecidableEq, Repr

namespace Startup

def seenByPublisher (x : Startup) : Seen :=
  ⟨⟨x.kernel, x.publisher, x.publisherCalls⟩, x.probing⟩

def seenBySubscriber (x : Startup) : Seen :=
  ⟨⟨x.kernel, x.subscriber, x.subscriberCalls⟩, x.probing⟩

variable (env env' : Env) (config : PubSubConfig)

/-- One step of one of the processes. `env` is the publisher's environment, `env'` the
subscriber's. -/
def step (x : Startup) : StartupAction → Option (Unit × Startup)
  | .publisherStep =>
    match x.publishing with
    | .ret _ => none
    | .step o k =>
      (World.exec env o x.seenByPublisher.world).map fun (r, w) =>
        ((), { x with kernel := w.kernel, publisher := w.process, publisherCalls := w.calls,
                      publishing := k r })
  | .subscriberCall =>
    match x.subscribing with
    | none => some ((), { x with subscribing := some (Subscriber.fromConfig config) })
    | some _ => none
  | .subscriberStep =>
    match x.subscribing with
    | none => none
    | some (.ret _) => some ((), { x with subscribing := none })
    | some (.step o k) =>
      (World.exec env' o x.seenBySubscriber.world).map fun (r, w) =>
        ((), { x with kernel := w.kernel, subscriber := w.process, subscriberCalls := w.calls,
                      probing := probingAfter o r x.probing, subscribing := some (k r) })

/-- Nothing has happened yet. -/
def initial (kernel : Kernel) (publisher subscriber : Process) : Startup where
  kernel := kernel
  probing := false
  publisher := publisher
  publisherCalls := 0
  publishing := Publisher.fromConfig config
  subscriber := subscriber
  subscriberCalls := 0
  subscribing := none

/-- The next call of a program is careful. -/
def CarefulNext {α : Type} (probing : Bool) : SysProg α → Prop
  | .ret _ => True
  | .step o _ => Careful probing o

instance {α : Type} (probing : Bool) : (p : SysProg α) → Decidable (CarefulNext probing p)
  | .ret _ => isTrue trivial
  | .step o _ => inferInstanceAs (Decidable (Careful probing o))

/-- The condition on a step: the publisher's next call is careful. -/
def CarefulStep (x : Startup) : StartupAction → Prop
  | .publisherStep => CarefulNext x.probing x.publishing
  | _ => True

instance (x : Startup) : (a : StartupAction) → Decidable (x.CarefulStep a)
  | .publisherStep => inferInstanceAs (Decidable (CarefulNext x.probing x.publishing))
  | .subscriberCall => isTrue trivial
  | .subscriberStep => isTrue trivial

/-- A publisher that was returned is on the segment its name is bound to. -/
def PublisherBound (x : Startup) : Prop :=
  ∀ p, x.publishing = .ret (.ok p) → ∃ q m, p.queue = some q ∧
    x.publisher.mappingAt q.storage = some m ∧ x.kernel.names config.shmName = some m.seg

end Startup

/-! ### Runs -/

namespace Startup

variable {env env' : Env} {config : PubSubConfig}

/-- What holds in every state: both processes can be carried on, whatever the other one does. -/
structure Inv (env env' : Env) (config : PubSubConfig) (x : Startup) : Prop where
  publishing : Obtains env config.shmName (OnHeld config.shmName) x.publishing x.seenByPublisher
  subscribing : ∀ p, x.subscribing = some p →
    Abides (subscriberExec env') SameProbing (Moves config.shmName)
      (fun _ y => y.probing = false) p x.seenBySubscriber
  idle : x.subscribing = none → x.probing = false

theorem inv_initial (kernel : Kernel) (publisher subscriber : Process) :
    Inv env env' config (initial config kernel publisher subscriber) := by
  refine ⟨obtains_fromConfig (L := []) ⟨fun m hm => absurd hm List.not_mem_nil,
    fun h => absurd h (by simp [initial, seenByPublisher])⟩,
    fun p h => absurd h (by simp [initial]), fun _ => rfl⟩

/-- A step of the publisher. -/
theorem inv_publisherStep {x y : Startup} {o : SysCall}
    {k : o.Ret → SysProg (Except PosixIpcError Publisher)} {r : o.Ret} {w : World}
    (hx : Inv env env' config x) (hp : x.publishing = .step o k) (hc : Careful x.probing o)
    (he : World.exec env o x.seenByPublisher.world = some (r, w))
    (hy : y = { x with kernel := w.kernel, publisher := w.process, publisherCalls := w.calls,
                       publishing := k r }) : Inv env env' config y := by
  -- a careful call is one the publisher's program was verified for
  have hexec : publisherExec env o x.seenByPublisher = some (r, ⟨w, x.probing⟩) := by
    unfold publisherExec
    rw [he]
    exact if_pos hc
  have hpub := hx.publishing
  rw [hp] at hpub
  subst hy
  refine ⟨(Abides.next (Bears.refl _) hpub hexec).2, fun p hs => ?_, hx.idle⟩
  -- the subscriber does not notice
  exact (hx.subscribing p hs).stable sameProbing_trans rfl

/-- A step of the subscriber. -/
theorem inv_subscriberStep {x y : Startup} {o : SysCall}
    {k : o.Ret → SysProg (Except PosixIpcError Subscriber)} {r : o.Ret} {w : World}
    (hx : Inv env env' config x) (hs : x.subscribing = some (.step o k))
    (he : World.exec env' o x.seenBySubscriber.world = some (r, w))
    (hy : y = { x with kernel := w.kernel, subscriber := w.process, subscriberCalls := w.calls,
                       probing := probingAfter o r x.probing, subscribing := some (k r) }) :
    Inv env env' config y := by
  have hexec : subscriberExec env' o x.seenBySubscriber =
      some (r, ⟨w, probingAfter o r x.probing⟩) := by
    unfold subscriberExec
    rw [he]
    rfl
  obtain ⟨hmoves, hsub⟩ := Abides.next sameProbing_refl (hx.subscribing _ hs) hexec
  subst hy
  -- what the subscriber does is what the publisher can bear
  refine ⟨hx.publishing.stable (fun a b c h h' => h.trans h')
    ⟨⟨hmoves.next, hmoves.segments, hmoves.held, hmoves.probeEmpty⟩, rfl⟩, fun p hp => ?_,
    fun h => absurd h (by simp)⟩
  obtain rfl := Option.some.inj hp
  exact hsub

theorem inv_step {x y : Startup} {a : StartupAction} {u : Unit} (hx : Inv env env' config x)
    (hc : x.CarefulStep a) (h : step env env' config x a = some (u, y)) :
    Inv env env' config y := by
  cases a with
  | publisherStep =>
    simp only [step] at h
    split at h
    · exact absurd h (by simp)
    · next o k hp =>
      obtain ⟨⟨r, w⟩, he, heq⟩ := Option.map_eq_some_iff.mp h
      simp only [CarefulStep, CarefulNext, hp] at hc
      exact inv_publisherStep hx hp hc he (Prod.mk.inj heq).2.symm
  | subscriberCall =>
    simp only [step] at h
    split at h
    · next hs =>
      obtain ⟨-, rfl⟩ := Prod.mk.inj (Option.some.inj h)
      -- a new call starts with no probe under way
      refine ⟨hx.publishing, fun p hp => ?_, fun h => absurd h (by simp)⟩
      obtain rfl := Option.some.inj hp
      exact subscriber_fromConfig (hx.idle hs)
    · exact absurd h (by simp)
  | subscriberStep =>
    simp only [step] at h
    split at h
    · exact absurd h (by simp)
    · next r hs =>
      obtain ⟨-, rfl⟩ := Prod.mk.inj (Option.some.inj h)
      -- a call that returns has unlinked its probe
      refine ⟨hx.publishing, fun p hp => absurd hp (by simp), fun _ => ?_⟩
      exact Abides.done sameProbing_refl (hx.subscribing _ hs)
    · next o k hs =>
      obtain ⟨⟨r, w⟩, he, heq⟩ := Option.map_eq_some_iff.mp h
      exact inv_subscriberStep hx hs he (Prod.mk.inj heq).2.symm

/-- In a state with the invariant, a publisher that was returned is on the segment its name is bound
to. -/
theorem Inv.bound {x : Startup} (hx : Inv env env' config x) : x.PublisherBound config := by
  intro p hp
  have hpub := hx.publishing
  rw [hp] at hpub
  obtain ⟨q, m, hq, hm, h₀, haddr, hheld⟩ := Abides.done (Bears.refl _) hpub p rfl
  exact ⟨q, m, hq, haddr ▸ x.publisher.mappingAt_eq hm h₀, hheld.2⟩

end Startup

/-- **Starting up safely.** From any table of names, with any processes and any environments, along
every run in which the publisher never performs its `shm_open` without `O_EXCL` while the subscriber
is probing: a publisher that was returned is on the segment its name is bound to. -/
theorem startup_bound (env env' : Env) (config : PubSubConfig) (kernel : Kernel)
    (publisher subscriber : Process) (actions : List StartupAction) (x : Startup)
    (h : Reaches (Startup.step env env' config) Startup.CarefulStep
      (Startup.initial config kernel publisher subscriber) actions x) :
    x.PublisherBound config :=
  (h.invariant (fun _ _ _ _ hx hc hs => Startup.inv_step hx hc hs)
    (Startup.inv_initial kernel publisher subscriber)).bound

/-- The publisher that was returned, if any. -/
def Startup.returned (x : Startup) : Option Publisher :=
  match x.publishing with
  | .ret (.ok p) => some p
  | _ => none

theorem Startup.publishing_of_returned {x : Startup} (h : x.returned.isSome) :
    ∃ p, x.publishing = .ret (.ok p) := by
  unfold returned at h
  split at h
  · next p hp => exact ⟨p, hp⟩
  · exact absurd h (by simp)

/-- Nothing is bound, and both processes have their standard files open. -/
def Startup.fresh : Startup :=
  Startup.initial config64 Kernel.none Process.standard Process.standard

/-- The subscriber polls twice while the publisher is starting: first it comes upon the publisher's
probe, then its own probe is over before the publisher goes on. -/
def carefulRun : List StartupAction :=
  [.subscriberCall, .publisherStep, .subscriberStep, .subscriberStep, .publisherStep,
    .publisherStep, .subscriberStep, .subscriberStep, .subscriberStep, .subscriberStep,
    .subscriberCall, .subscriberStep, .subscriberStep, .subscriberStep, .subscriberStep] ++
    .replicate 9 .publisherStep

/-- The subscriber's probe falls between the publisher's two attempts to open the segment. -/
def racingRun : List StartupAction :=
  [.publisherStep, .publisherStep, .publisherStep, .subscriberCall, .subscriberStep,
    .publisherStep, .publisherStep, .subscriberStep, .subscriberStep, .subscriberStep] ++
    .replicate 8 .publisherStep

theorem startup_bound_careful : ∃ x, Reaches (Startup.step Env.bump Env.bump config64)
    Startup.CarefulStep Startup.fresh carefulRun x ∧ (∃ p, x.publishing = .ret (.ok p)) ∧
    x.PublisherBound config64 := by
  have hrun : ((follow (Startup.step Env.bump Env.bump config64) Startup.fresh carefulRun).map
      fun x => x.returned.isSome) = some true := by decide +kernel
  have hcareful : Along (Startup.step Env.bump Env.bump config64) Startup.CarefulStep
      Startup.fresh carefulRun := by decide +kernel
  obtain ⟨x, hx, hret⟩ := Option.map_eq_some_iff.mp hrun
  have hreach := Reaches.of_follow hx hcareful
  exact ⟨x, hreach, Startup.publishing_of_returned hret,
    startup_bound Env.bump Env.bump config64 _ _ _ carefulRun x hreach⟩

/-- **The race.** The publisher is returned on the segment of the subscriber's probe, and when the
subscriber's call is over the name is not bound at all. -/
theorem startup_race : ¬ ∀ (env env' : Env) (config : PubSubConfig) (kernel : Kernel)
    (publisher subscriber : Process) (actions : List StartupAction) (x : Startup),
    env.Plentiful → env'.Plentiful →
    Reaches (Startup.step env env' config) (fun _ _ => True)
      (Startup.initial config kernel publisher subscriber) actions x →
    x.subscribing = none → x.PublisherBound config := by
  intro h
  -- the publisher has returned, the subscriber is done, and the name is bound to nothing
  have hrun : ((follow (Startup.step Env.bump Env.bump config64) Startup.fresh racingRun).map
      fun x => (x.returned.isSome, x.subscribing.isNone, x.kernel.names config64.shmName)) =
        some (true, true, none) := by decide +kernel
  have htrue : Along (Startup.step Env.bump Env.bump config64) (fun _ _ => True)
      Startup.fresh racingRun := by decide +kernel
  obtain ⟨x, hx, hobs⟩ := Option.map_eq_some_iff.mp hrun
  obtain ⟨hret, hrest⟩ := Prod.mk.inj hobs
  obtain ⟨hidle, hname⟩ := Prod.mk.inj hrest
  obtain ⟨p, hp⟩ := Startup.publishing_of_returned hret
  obtain ⟨q, m, -, -, hbound⟩ := h Env.bump Env.bump config64 _ _ _ racingRun x
    Env.bump_plentiful Env.bump_plentiful (Reaches.of_follow hx htrue)
    (Option.isNone_iff_eq_none.mp hidle) p hp
  exact absurd (hname.symm.trans hbound) (by simp)

end PosixIpc
