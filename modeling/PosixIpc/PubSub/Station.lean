import PosixIpc.PubSub.Agreement
import PosixIpc.PubSub.Books

/-!
# A process with publishers and subscribers

A process has a `PubSub` and subscribers. It syncs, publishes, subscribes, receives and lets go of
what it has, in any order; calls fail at any time, and between them other processes do what they
like to the names and the segments.

`station_books` is about its descriptors and mappings: they are held by exactly one publisher,
pending addition or subscriber, and all of them are released in the end. There has to be room below
the mappings for all objects that the process opens, its own and those of the others: what is left
of a `SharedMemory` that was moved unmaps as many bytes from the null page on.
-/

namespace PosixIpc

open Framework

/-- A process with a `PubSub` and subscribers. A subscriber is in a cell of its own, which is empty
once it is destroyed. -/
structure Station where
  pubsub : PubSub
  subscribers : List (Option Subscriber)
  logged : Logged

inductive StationAction where
  | sync (configs : List PubSubConfig)
  | publish (val : Message)
  | subscribe (config : PubSubConfig)
  | dequeueBegin (i : Nat)
  | dequeueCommit (i : Nat) (message : MessageView)
  | unsubscribe (i : Nat)
  /-- The `PubSub` is destroyed, and a new one made. -/
  | restart
  /-- Other processes have left the kernel in some state. -/
  | meanwhile (kernel : Kernel)

namespace Station

/-- Nothing is published or subscribed to yet. -/
def start (w : World) : Station := ⟨{}, [], ⟨w, ⟨[], []⟩⟩⟩

/-- Perform a call on the subscriber in a cell. -/
def withSubscriber (env : Env) (x : Station) (i : Nat) {α : Type} (p : Subscriber → SysProg α) :
    Option (Option PosixIpcError × Station) :=
  match live x.subscribers i with
  | none => none
  | some s =>
    match (p s).run (Logged.exec env) x.logged with
    | none => none
    | some (_, y) => some (none, { x with logged := y })

/-- A whole call, and the error it returns. -/
def step (env : Env) (x : Station) : StationAction → Option (Option PosixIpcError × Station)
  | .sync configs =>
    match (x.pubsub.syncConfigs configs).run (Logged.exec env) x.logged with
    | none => none
    | some ((.error e, pubsub), y) => some (some e, { x with pubsub := pubsub, logged := y })
    | some ((.ok _, pubsub), y) => some (none, { x with pubsub := pubsub, logged := y })
  | .publish val =>
    match (x.pubsub.publish val).run (Logged.exec env) x.logged with
    | none => none
    | some (_, y) => some (none, { x with logged := y })
  | .subscribe config =>
    match (Subscriber.fromConfig config).run (Logged.exec env) x.logged with
    | none => none
    | some (.error e, y) => some (some e, { x with logged := y })
    | some (.ok s, y) =>
      some (none, { x with subscribers := x.subscribers ++ [some s], logged := y })
  | .dequeueBegin i => x.withSubscriber env i Subscriber.dequeueBegin
  | .dequeueCommit i message => x.withSubscriber env i fun s => s.dequeueCommit message
  | .unsubscribe i =>
    match x.withSubscriber env i Subscriber.destroy with
    | none => none
    | some (r, y) => some (r, { y with subscribers := y.subscribers.set i none })
  | .restart =>
    match x.pubsub.destroy.run (Logged.exec env) x.logged with
    | none => none
    | some (_, y) => some (none, { x with pubsub := {}, logged := y })
  | .meanwhile kernel =>
    some (none, { x with logged := { x.logged with world := { x.logged.world with kernel } } })

/-- The shared memory objects of the subscribers, the publishers and the pending additions. -/
def objects (x : Station) : List SharedMemory :=
  Framework.held Subscriber.objects x.subscribers ++ PubSub.objectsOfAll x.pubsub.owners

/-- What they hold. -/
def held (x : Station) : List Handle := x.objects.flatMap SharedMemory.handles

/-- The configurations of a sync have a size. -/
def Sizes : StationAction → Prop
  | .sync configs => ∀ cfg ∈ configs, cfg.storageSizeBytes ≠ 0
  | _ => True

instance : (a : StationAction) → Decidable (Sizes a)
  | .sync configs => inferInstanceAs (Decidable (∀ cfg ∈ configs, cfg.storageSizeBytes ≠ 0))
  | .publish _ | .subscribe _ | .dequeueBegin _ | .dequeueCommit _ _ | .unsubscribe _ | .restart
  | .meanwhile _ => isTrue trivial

/-- There is room below the limit for the objects of a sync, and for those of other processes. -/
def Fits (limit : Nat) : StationAction → Prop
  | .sync configs => ∀ cfg ∈ configs, cfg.storageSizeBytes ≤ limit
  | .meanwhile kernel => kernel.Within limit
  | _ => True

instance (limit : Nat) : (a : StationAction) → Decidable (Fits limit a)
  | .sync configs => inferInstanceAs (Decidable (∀ cfg ∈ configs, cfg.storageSizeBytes ≤ limit))
  | .meanwhile kernel => inferInstanceAs (Decidable (kernel.Within limit))
  | .publish _ | .subscribe _ | .dequeueBegin _ | .dequeueCommit _ _ | .unsubscribe _
  | .restart => isTrue trivial

/-- The books are in order. -/
def Inv (env : Env) (base : World) (tidy : Prop) (x : Station) : Prop :=
  ∃ lost, Inventory env base tidy x.logged x.objects lost

variable {env : Env} {base : World} {tidy : Prop} {x y : Station} {r : Option PosixIpcError}

theorem inv_start (hw : base.Roomy env) (tidy : Prop) : Inv env base tidy (start base) :=
  ⟨[], Inventory.start hw tidy⟩

theorem withSubscriber_inv {i : Nat} {α : Type} {p : Subscriber → SysProg α}
    (h : x.withSubscriber env i p = some (r, y)) : ∃ s a z, live x.subscribers i = some s ∧
      (p s).run (Logged.exec env) x.logged = some (a, z) ∧ y = { x with logged := z } := by
  unfold withSubscriber at h
  split at h
  · exact absurd h (by simp)
  · next s hs =>
    split at h
    · exact absurd h (by simp)
    · next a z hrun => exact ⟨s, a, z, hs, hrun, (Prod.mk.inj (Option.some.inj h)).2.symm⟩

/-- A call on mapped memory. -/
theorem Inv.onMemory (h : Inv env base tidy x) {α : Type} {p : SysProg α}
    (hp : p.All SysCall.OnMemory fun _ => True) {a : α} {z : Logged}
    (hrun : p.run (Logged.exec env) x.logged = some (a, z)) :
    Inv env base tidy { x with logged := z } := by
  obtain ⟨lost, hx⟩ := h
  exact ⟨lost, (Ensures.of_all Inventory.exec_onMemory hp hx a z hrun).2⟩

/-- **A sync**, whatever it returns. -/
theorem Inv.sync (h : Inv env base tidy x) (hzero : tidy → base.IsOpen (.descriptor 0))
    {configs : List PubSubConfig} (hfit : ∀ cfg ∈ configs, cfg.storageSizeBytes ≤ env.limit)
    (hsize : tidy → ∀ cfg ∈ configs, cfg.storageSizeBytes ≠ 0)
    {res : Except PosixIpcError Unit × PubSub} {z : Logged}
    (hrun : (x.pubsub.syncConfigs configs).run (Logged.exec env) x.logged = some (res, z)) :
    Inv env base tidy { x with pubsub := res.2, logged := z } := by
  obtain ⟨lost, hx⟩ := h
  exact PubSub.ensures_syncConfigs configs hzero hfit hsize hx _ _ hrun

/-- **A subscription**, whatever it returns. -/
theorem Inv.subscribe (h : Inv env base tidy x) (hzero : tidy → base.IsOpen (.descriptor 0))
    {config : PubSubConfig} {res : Except PosixIpcError Subscriber} {z : Logged}
    (hrun : (Subscriber.fromConfig config).run (Logged.exec env) x.logged = some (res, z)) :
    ∃ lost, Inventory env base tidy z (x.objects ++ objectsOf Subscriber.objects res) lost := by
  obtain ⟨lost, hx⟩ := h
  exact Subscriber.ensures_fromConfig config hzero hx _ _ hrun

/-- **One call.** -/
theorem Inv.step (h : Inv env base tidy x) (hzero : tidy → base.IsOpen (.descriptor 0))
    {a : StationAction} (hfit : Fits env.limit a) (hsize : tidy → Sizes a)
    (hs : x.step env a = some (r, y)) : Inv env base tidy y := by
  cases a with
  | sync configs =>
    simp only [Station.step] at hs
    split at hs
    · exact absurd hs (by simp)
    · next e pubsub z hrun =>
      obtain ⟨-, rfl⟩ := Prod.mk.inj (Option.some.inj hs)
      exact h.sync hzero hfit hsize hrun
    · next u pubsub z hrun =>
      obtain ⟨-, rfl⟩ := Prod.mk.inj (Option.some.inj hs)
      exact h.sync hzero hfit hsize hrun
  | publish val =>
    simp only [Station.step] at hs
    split at hs
    · exact absurd hs (by simp)
    · next ok z hrun =>
      obtain ⟨-, rfl⟩ := Prod.mk.inj (Option.some.inj hs)
      exact h.onMemory (PubSub.onMemory_publishAll _ _ _) hrun
  | subscribe config =>
    simp only [Station.step] at hs
    split at hs
    · exact absurd hs (by simp)
    · next e z hrun =>
      obtain ⟨-, rfl⟩ := Prod.mk.inj (Option.some.inj hs)
      obtain ⟨lost, hz⟩ := h.subscribe hzero hrun
      change Inventory env base tidy z (x.objects ++ []) lost at hz
      rw [List.append_nil] at hz
      exact ⟨lost, hz⟩
    · next s z hrun =>
      obtain ⟨-, rfl⟩ := Prod.mk.inj (Option.some.inj hs)
      obtain ⟨lost, hz⟩ := h.subscribe hzero hrun
      -- the new cell comes before the publishers
      refine ⟨lost, hz.swap.congr ?_⟩
      unfold objects
      rw [held_append_some]
      exact .refl _
  | dequeueBegin i =>
    obtain ⟨s, v, z, -, hrun, rfl⟩ := withSubscriber_inv hs
    exact h.onMemory (SysProg.onMemory_through _ _) hrun
  | dequeueCommit i message =>
    obtain ⟨s, v, z, -, hrun, rfl⟩ := withSubscriber_inv hs
    exact h.onMemory (SysProg.onMemory_through _ _) hrun
  | unsubscribe i =>
    obtain ⟨lost, hx⟩ := h
    simp only [Station.step] at hs
    split at hs
    · exact absurd hs (by simp)
    · next r' y' hwith =>
      obtain ⟨-, rfl⟩ := Prod.mk.inj (Option.some.inj hs)
      obtain ⟨s, u, z, hlive, hrun, rfl⟩ := withSubscriber_inv hwith
      -- the object of the subscriber and those that stay
      have hperm : (objects { x with subscribers := x.subscribers.set i none } ++ [s.shm]).Perm
          x.objects := by
        refine List.perm_iff_count.mpr fun a => ?_
        have hset := count_held_set Subscriber.objects hlive none a
        rw [Option.elim_none, List.count_nil] at hset
        change _ + [s.shm].count a = _ at hset
        simp only [objects, List.count_append]
        omega
      exact ⟨lost, (hx.congr hperm).ensures_destroy u z hrun⟩
  | restart =>
    obtain ⟨lost, hx⟩ := h
    simp only [Station.step] at hs
    split at hs
    · exact absurd hs (by simp)
    · next u z hrun =>
      obtain ⟨-, rfl⟩ := Prod.mk.inj (Option.some.inj hs)
      refine ⟨lost, (PubSub.ensures_destroy hx _ _ hrun).congr ?_⟩
      change (_ ++ PubSub.objectsOfAll []).Perm _
      rw [PubSub.objectsOfAll_nil, List.append_nil]
  | meanwhile kernel =>
    obtain ⟨lost, hx⟩ := h
    obtain ⟨-, rfl⟩ := Prod.mk.inj (Option.some.inj hs)
    exact ⟨lost, hx.quiet rfl rfl ⟨hfit, hx.roomy.mappings⟩⟩

/-- **Any number of calls.** -/
theorem Inv.reaches {actions : List StationAction} (h : Inv env base tidy x)
    (hzero : tidy → base.IsOpen (.descriptor 0)) (hsize : tidy → ∀ a ∈ actions, Sizes a)
    (hr : Reaches (Station.step env) (fun _ a => Fits env.limit a) x actions y) :
    Inv env base tidy y := by
  induction hr with
  | refl x => exact h
  | cons hfit hs _ ih =>
    exact ih (h.step hzero hfit (fun ht => hsize ht _ List.mem_cons_self) hs)
      fun ht a hmem => hsize ht a (List.mem_cons_of_mem _ hmem)

end Station

/-- **Handles of a process.** In every run of a process that has room for its objects and those it
opens, whatever fails and whatever other processes do in between: each handle that was acquired was
released, or is held by exactly one publisher, pending addition or subscriber, or is a descriptor
that is lost; what is held is open, and every object has all pages of its mapping; what was open
before is still open and held by none of them, and the mappings there were have all their pages. If
descriptor 0 is in use from the start and the configurations of all syncs have a size, nothing is
lost, so that everything is released once the publishers and the subscribers are gone. -/
theorem station_books {env : Env} {w : World} {actions : List StationAction} {x : Station}
    (hw : w.Roomy env)
    (hr : Reaches (Station.step env) (fun _ a => Station.Fits env.limit a) (Station.start w)
      actions x) :
    (∃ lost, x.logged.ledger.Accounts x.held lost ∧
      (∀ h, h ∈ x.held ∨ h ∈ lost → x.logged.world.IsOpen h) ∧
      (∀ h ∈ lost, ∃ fd, h = .descriptor fd)) ∧
    (∀ shm ∈ x.objects, shm.shmPtr ≠ 0 →
      ∃ i, shm.mapping i ∈ x.logged.world.process.mappings) ∧
    (∀ h, w.IsOpen h → x.logged.world.IsOpen h ∧ h ∉ x.held) ∧
    (∀ m ∈ w.process.mappings, m ∈ x.logged.world.process.mappings) ∧
    (w.IsOpen (.descriptor 0) → (∀ a ∈ actions, Station.Sizes a) →
      x.logged.ledger.Accounts x.held [] ∧
        (x.pubsub.owners = [] → (∀ i, live x.subscribers i = none) →
          x.logged.ledger.Settled)) := by
  obtain ⟨lost, hx⟩ := (Station.inv_start hw
    (w.IsOpen (.descriptor 0) ∧ ∀ a ∈ actions, Station.Sizes a)).reaches (fun ht => ht.1)
    (fun ht => ht.2) hr
  have hbooks := hx.books
  refine ⟨⟨lost, hbooks.accounts, hbooks.isOpen, hbooks.descriptor⟩,
    fun shm hmem => (hx.sound shm hmem).mapped,
    fun h hh => ⟨(hbooks.others h hh).1, (hbooks.others h hh).2.1⟩, hx.keeps,
    fun hzero hsizes => ?_⟩
  have hlost := hbooks.tidy ⟨hzero, hsizes⟩
  subst hlost
  refine ⟨hbooks.accounts, fun howners hgone => ?_⟩
  -- nobody is left to hold anything
  have hobjects : x.objects = [] := by
    unfold Station.objects
    rw [held_eq_nil hgone, howners]
    rfl
  have haccounts := hbooks.accounts
  rw [hobjects] at haccounts
  exact haccounts.settled_iff.mpr rfl

/-- The eighth call fails for want of memory. -/
def Env.scarce : Env :=
  { Env.bump with
    fault := fun n => if n = 7 then some .enomem else none
    fault_ne_eexist := fun n => by
      split
      · simp
      · simp }

/-- The first sync fails with one publisher in the queue of changes, and the second one creates it
again. -/
def restartingRun : List StationAction :=
  [.sync [config64, { config64 with shmName := "/second" }], .sync [config64], .publish ⟨[1, 2, 3]⟩,
    .subscribe config64, .dequeueBegin 0, .dequeueCommit 0 ⟨some 8, 3, 0⟩, .unsubscribe 0, .restart]

theorem station_books_restarting :
    ∃ x, World.fresh.Roomy Env.scarce ∧
      Reaches (Station.step Env.scarce) (fun _ a => Station.Fits Env.scarce.limit a)
        (Station.start World.fresh) restartingRun x ∧
      x.logged.ledger.acquired.length = 9 ∧ x.logged.ledger.Settled := by
  have hends : (follow (Station.step Env.scarce) (Station.start World.fresh) restartingRun).map
      (fun z => (z.pubsub.owners, z.subscribers, z.logged.ledger.acquired.length)) =
        some ([], [none], 9) := by
    decide +kernel
  obtain ⟨x, hf, hx⟩ := Option.map_eq_some_iff.mp hends
  obtain ⟨howners, hx⟩ := Prod.mk.inj hx
  obtain ⟨hsubscribers, hacquired⟩ := Prod.mk.inj hx
  have hfits : ∀ a ∈ restartingRun, Station.Fits Env.scarce.limit a := by decide
  have hroomy : World.fresh.Roomy Env.scarce := by decide
  have hr : Reaches (Station.step Env.scarce) (fun _ a => Station.Fits Env.scarce.limit a)
      (Station.start World.fresh) restartingRun x := .of_follow hf (along_of_forall hfits _)
  have hgone : ∀ i, live x.subscribers i = none := by
    intro i
    rw [hsubscribers]
    rcases i with _ | i <;> rfl
  have hzero : World.fresh.process.file 0 ≠ none := by decide
  exact ⟨x, hroomy, hr, hacquired,
    ((station_books hroomy hr).2.2.2.2 hzero (by decide)).2 howners hgone⟩

end PosixIpc
