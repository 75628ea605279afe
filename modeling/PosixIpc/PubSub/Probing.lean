import PosixIpc.PubSub.Attach

/-!
# Probes next to each other

The programs of a publisher and of a subscriber that start up at the same time, for one name, as
each of them has to bear with the other's system calls between its own.

`SharedMemory::exists` probes a name by creating and unlinking it, so for a moment every name that
is not bound is bound to an empty segment of whoever is probing. Mostly this does no harm: exclusive
creation fails, and opening such a segment fails when it is mapped, because it is empty. The one
call that goes wrong is the second `shm_open` of `open_or_create`, the one without `O_EXCL`: between
the probe's `shm_open` and its `shm_unlink`, it opens the segment of the probe (`Careful` excludes
this).

* `Seen` is a world with a ghost: whether the subscriber is between its successful `shm_open` in
  `exists` and its `shm_unlink`.
* `Moves` is what a step of the subscriber can do to the kernel. `Held` is what the publisher builds
  on: the subscriber is not probing and the name is bound. The subscriber cannot invalidate it.
* `subscriber_fromConfig` and `obtains_fromConfig` are the two programs under interference. A careful
  publisher that is returned is on a segment that is held.

The publisher also unmaps: the object that did not fit, and with each object that is moved the pages
from the null page on. The mapping it ends up with has none of these pages (`MappedOn`), because it
was placed behind its own length and apart from what was mapped.
-/

namespace PosixIpc

open Framework SysProg

/-! ### Probing and care -/

/-- What a process sees, and whether the subscriber is probing. -/
structure Seen where
  world : World
  probing : Bool

/-- The ghost after a call of the subscriber. `exists` takes descriptor 0 for a failure. -/
def probingAfter : (o : SysCall) → o.Ret → Bool → Bool
  | .shmOpen _ flags, r, b =>
    match r with
    | .ok fd => (flags.creat && flags.excl && decide (0 < fd)) || b
    | .error _ => b
  | .shmUnlink _, _, _ => false
  | _, _, b => b

/-- The call is not an `shm_open` that may create without `O_EXCL` while the subscriber is
probing. -/
def Careful (probing : Bool) : SysCall → Prop
  | .shmOpen _ flags => probing = true → flags.creat = true → flags.excl = true
  | _ => True

instance (probing : Bool) : (o : SysCall) → Decidable (Careful probing o)
  | .shmOpen _ flags =>
    inferInstanceAs (Decidable (probing = true → flags.creat = true → flags.excl = true))
  | .ftruncate _ _ | .fstat _ | .mmap _ _ | .munmap _ _ | .close _ | .shmUnlink _
  | .construct _ _ | .storage _ | .access _ _ => isTrue trivial

/-! ### What the subscriber does to the kernel -/

/-- The subscriber is not probing, and the name is bound to segment `i`. -/
def Held (name : String) (i : Nat) (x : Seen) : Prop :=
  x.probing = false ∧ x.world.kernel.names name = some i

/-- While the subscriber is probing, the name is bound to an empty segment. -/
def ProbeEmpty (name : String) (x : Seen) : Prop :=
  x.probing = true → ∃ i, x.world.kernel.names name = some i ∧
    (x.world.kernel.segments i).size = 0

/-- What a step of the subscriber can do. -/
structure Moves (name : String) (x y : Seen) : Prop where
  next : x.world.kernel.next ≤ y.world.kernel.next
  segments : ∀ i, i < x.world.kernel.next → y.world.kernel.segments i = x.world.kernel.segments i
  held : ∀ i, Held name i x → Held name i y
  probeEmpty : ProbeEmpty name x → ProbeEmpty name y

namespace Moves

variable {name : String} {x y z : Seen}

theorem refl (name : String) (x : Seen) : Moves name x x :=
  ⟨le_refl _, fun _ _ => rfl, fun _ h => h, fun h => h⟩

/-- Moves compose: what a move keeps of the segments there were, the next one keeps as well. -/
theorem trans (h : Moves name x y) (h' : Moves name y z) : Moves name x z := by
  refine ⟨h.next.trans h'.next, fun i hi => ?_, fun i hi => h'.held i (h.held i hi),
    fun hp => h'.probeEmpty (h.probeEmpty hp)⟩
  rw [h'.segments i (lt_of_lt_of_le hi h.next), h.segments i hi]

/-- The kernel is only looked at. -/
theorem of_kernel_eq (hk : y.world.kernel = x.world.kernel) (hp : y.probing = x.probing) :
    Moves name x y := by
  refine ⟨by rw [hk], fun i _ => by rw [hk], fun i hi => ?_, fun h hy => ?_⟩
  · exact ⟨hp.trans hi.1, by rw [hk]; exact hi.2⟩
  · rw [hk]
    exact h (hp.symm.trans hy)

/-- A name is created that was not bound. -/
theorem create (hb : x.world.kernel.names name = none)
    (hk : y.world.kernel = x.world.kernel.create name) : Moves name x y := by
  refine ⟨by rw [hk]; exact Nat.le_succ _, fun i hi => ?_, fun i hi => ?_, fun _ _ => ?_⟩
  · rw [hk]
    exact if_neg (Nat.ne_of_lt hi)
  · -- nothing is held under a name that is not bound
    exact absurd (hb.symm.trans hi.2) (by simp)
  · rw [hk]
    exact ⟨_, SharedMemory.names_create _ _, congrArg Segment.size (if_pos rfl)⟩

/-- The end of a probe. -/
theorem unlink (hx : x.probing = true) (hy : y.probing = false)
    (hk : y.world.kernel = x.world.kernel.unlink name) : Moves name x y := by
  refine ⟨by rw [hk]; exact le_refl _, fun i _ => by rw [hk]; rfl, fun i hi => ?_,
    fun _ h => absurd (hy.symm.trans h) (by simp)⟩
  -- nothing is held during a probe, so nothing that is held gets unlinked
  exact absurd (hx.symm.trans hi.1) (by simp)

end Moves

/-- The calls that only look at the kernel. -/
def ReadsKernel : SysCall → Prop
  | .shmOpen _ flags => flags.creat = false ∧ flags.trunc = false
  | .ftruncate _ _ => False
  | .shmUnlink _ => False
  | .construct _ _ => False
  | .access _ _ => False
  | _ => True

section Subscriber

variable {env : Env} {name : String} {config : PubSubConfig}

/-- A call that reads the kernel does so also where it may be refused. -/
theorem kernel_eq_of_failing {α : Type} {call : World → Except Errno α × World} {w : World}
    (h : (call w).2.kernel = w.kernel) :
    (World.failing env call w).2.kernel = w.kernel := by
  rcases World.failing_cases env call w with ⟨e, -, heq⟩ | ⟨-, heq⟩
  · rw [heq]
  · rw [heq]
    exact h

/-- **The calls that read** leave the kernel as it was. -/
theorem kernel_eq_of_readsKernel {o : SysCall} (ho : ReadsKernel o) {w w' : World} {r : o.Ret}
    (h : World.exec env o w = some (r, w')) : w'.kernel = w.kernel := by
  cases o with
  | shmOpen a flags =>
    -- without `O_CREAT` and `O_TRUNC`, `shm_open` changes descriptors only
    rcases World.shmOpen_inv h with ⟨e, -, hk, -⟩ | ⟨i, -, -, -, hk, -⟩ | ⟨hc, -⟩
    · exact hk
    · rw [hk, ho.2]
      rfl
    · exact absurd (hc.symm.trans ho.1) (by simp)
  | ftruncate fd size => exact ho.elim
  | shmUnlink a => exact ho.elim
  | construct ptr n => exact ho.elim
  | access ptr o => exact ho.elim
  | fstat fd =>
    obtain ⟨-, rfl⟩ := Prod.mk.inj (Option.some.inj h)
    refine kernel_eq_of_failing ?_
    unfold World.fstat
    split <;> rfl
  | mmap len fd =>
    obtain ⟨-, rfl⟩ := Prod.mk.inj (Option.some.inj h)
    refine kernel_eq_of_failing ?_
    unfold World.mmap
    split
    · rfl
    · split <;> rfl
  | munmap addr len =>
    obtain ⟨-, rfl⟩ := Prod.mk.inj (Option.some.inj h)
    rfl
  | close fd =>
    obtain ⟨-, rfl⟩ := Prod.mk.inj (Option.some.inj h)
    rfl
  | storage ptr => rw [World.storage_inv h]

/-! ### The subscriber's programs -/

/-- A call of the subscriber, with the ghost. -/
def subscriberExec (env : Env) (o : SysCall) (x : Seen) : Option (o.Ret × Seen) :=
  (World.exec env o x.world).map fun (r, w) => (r, ⟨w, probingAfter o r x.probing⟩)

/-- A call of the subscriber, taken apart. -/
theorem of_subscriberExec {o : SysCall} {x y : Seen} {r : o.Ret}
    (h : subscriberExec env o x = some (r, y)) :
    World.exec env o x.world = some (r, y.world) ∧ y.probing = probingAfter o r x.probing := by
  obtain ⟨⟨r', w⟩, he, heq⟩ := Option.map_eq_some_iff.mp h
  obtain ⟨rfl, rfl⟩ := Prod.mk.inj heq
  exact ⟨he, rfl⟩

/-- The ghost is the subscriber's: the publisher leaves it alone. -/
def SameProbing (x y : Seen) : Prop := y.probing = x.probing

theorem sameProbing_refl (x : Seen) : SameProbing x x := rfl

theorem sameProbing_trans (x y z : Seen) (h : SameProbing x y) (h' : SameProbing y z) :
    SameProbing x z :=
  Eq.trans h' h

/-- What the subscriber knows of its ghost survives the publisher's calls. -/
theorem stable_probing {b : Bool} (x y : Seen) (hx : x.probing = b) (h : SameProbing x y) :
    y.probing = b :=
  Eq.trans h hx

/-- **The probe**, as the publisher has to bear with it. -/
theorem subscriber_exists {x : Seen} (hx : x.probing = false) :
    Abides (subscriberExec env) SameProbing (Moves name) (fun _ y => y.probing = false)
      (SharedMemory.exists name) x := by
  unfold SharedMemory.exists SysProg.shmOpen
  simp only [Prog.step_bind, Prog.ret_bind]
  refine Abides.of_step stable_probing hx fun t ht r t' he => ?_
  obtain ⟨hexec, hprobing⟩ := of_subscriberExec he
  rcases World.shmOpen_inv hexec with ⟨e, rfl, hk, -⟩ | ⟨i, hno, -⟩ | ⟨-, hb, rfl, hk, -⟩
  · -- the name is bound, or a descriptor could not be had
    have ht' : t'.probing = false := hprobing.trans ht
    exact ⟨.of_kernel_eq hk (ht'.trans ht.symm), .of_ret stable_probing ht' fun _ h => h⟩
  · exact absurd hno (by simp)
  · -- the name was free, and is bound to the probe from now on
    refine ⟨.create hb hk, ?_⟩
    by_cases hfd : 0 < (t.world.process.openFile t.world.kernel.next).1
    · have ht' : t'.probing = true := by
        rw [hprobing]
        simp only [probingAfter, hfd, decide_true, Bool.and_self, Bool.true_or]
      simp only [if_pos hfd]
      -- closing the descriptor
      refine Abides.of_step stable_probing ht' fun u hu _ u' he' => ?_
      obtain ⟨hclose, hu'⟩ := of_subscriberExec he'
      obtain ⟨-, hw⟩ := Prod.mk.inj (Option.some.inj hclose)
      refine ⟨.of_kernel_eq (by rw [← hw]) hu', ?_⟩
      -- unlinking the name
      refine Abides.of_step stable_probing (hu'.trans hu) fun v hv _ v' he'' => ?_
      obtain ⟨hunlink, hv'⟩ := of_subscriberExec he''
      obtain ⟨-, hw'⟩ := Prod.mk.inj (Option.some.inj hunlink)
      exact ⟨.unlink hv hv' (by rw [← hw']), .of_ret stable_probing hv' fun _ h => h⟩
    · -- descriptor 0 passes for a failure: the name stays bound, and is held
      have ht' : t'.probing = false := by
        rw [hprobing]
        simp only [probingAfter, hfd, decide_false, Bool.and_false, Bool.false_or, ht]
      simp only [if_neg hfd]
      exact .of_ret stable_probing ht' fun _ h => h

/-- Objects that do not unlink their name when they are destroyed. -/
def Uncreated (r : Except PosixIpcError SharedMemory) : Prop :=
  ∀ shm, r = .ok shm → shm.created = false

/-- An object that did not create its name reads the kernel only when it is destroyed. -/
theorem all_destroy {shm : SharedMemory} (hc : shm.created = false) :
    shm.destroy.All ReadsKernel fun _ => True := by
  refine ⟨trivial, fun _ => ?_⟩
  change Prog.All ReadsKernel _ (ite (shm.created = true) _ _)
  rw [if_neg (by rw [hc]; simp)]
  exact ⟨trivial, fun _ => trivial⟩

/-- Moving an object out runs the destructor of a null object. -/
theorem all_moveOut {shm : SharedMemory} (hc : shm.created = false) :
    shm.moveOut.All ReadsKernel fun shm' => shm' = shm := by
  have hc' : shm.moveConstruct.2.created = false := hc
  exact Prog.All.bind ((all_destroy hc').mono fun _ _ => rfl)

/-- Mapping a segment reads the kernel. -/
theorem all_mapped (size fd : Nat) :
    (SharedMemory.mapped name size fd).All ReadsKernel Uncreated := by
  refine ⟨trivial, fun r => ?_⟩
  cases r with
  | error e => exact ⟨trivial, fun _ shm h => absurd h (by simp)⟩
  | ok ptr =>
    change Prog.All ReadsKernel Uncreated (SharedMemory.moveOut _ >>= fun shm => .ret (.ok shm))
    refine Prog.All.bind ((all_moveOut rfl).mono ?_)
    rintro shm' rfl shm h
    obtain rfl := Except.ok.inj h
    rfl

/-- Opening for reading takes the size the segment has. -/
theorem all_sized_open (size fd : Nat) :
    (SharedMemory.sized name size false fd).All ReadsKernel Uncreated := by
  refine ⟨trivial, fun r => ?_⟩
  cases r with
  | error e => exact ⟨trivial, fun _ shm h => absurd h (by simp)⟩
  | ok stSize => exact all_mapped stSize fd

/-- **`open` reads the kernel**, in both of its attempts. -/
theorem all_open : (SharedMemory.open name).All ReadsKernel Uncreated := by
  refine ⟨⟨rfl, rfl⟩, fun r => ?_⟩
  cases r with
  | ok fd => exact all_sized_open 0 fd
  | error e =>
    change Prog.All ReadsKernel Uncreated (ite (e = .eexist) _ _)
    split
    · refine ⟨⟨rfl, rfl⟩, fun r => ?_⟩
      cases r with
      | ok fd => exact all_sized_open 0 fd
      | error e' => exact fun shm h => absurd h (by simp)
    · exact fun shm h => absurd h (by simp)

/-- Mapping the storage only reads it. -/
theorem all_mapStorage (ptr len : Nat) :
    (Subscriber.mapStorage ptr len).All ReadsKernel fun _ => True := by
  unfold Subscriber.mapStorage
  split
  · exact trivial
  · exact ⟨trivial, fun _ => trivial⟩

/-- What `from_config` does with the opened object reads the kernel, whether it succeeds or not.
-/
theorem all_onMemory {shm : SharedMemory} (hc : shm.created = false) :
    (Subscriber.onMemory config shm).All ReadsKernel fun _ => True := by
  unfold Subscriber.onMemory
  split
  · exact ((all_destroy hc).mono fun _ _ => trivial).bind
  · refine ((all_mapStorage _ _).mono fun r _ => ?_).bind
    cases r with
    | error e => exact ((all_destroy hc).mono fun _ _ => trivial).bind
    | ok s => exact trivial

/-- The end of `from_config`, with what is left of the result of `open`. -/
theorem all_onOpened {res : SharedMemory} (hc : res.created = false) :
    (Subscriber.onMemory config res.moveConstruct.1 >>= fun r =>
      res.moveConstruct.2.destroy >>= fun _ => (.ret r : SysProg _)).All ReadsKernel
        fun _ => True := by
  have hc' : res.moveConstruct.2.created = false := hc
  refine Prog.All.bind ((all_onMemory hc).mono fun r _ => ?_)
  exact Prog.All.bind ((all_destroy hc').mono fun _ _ => trivial)

/-- Reading leaves the ghost as it is. -/
theorem probingAfter_eq {o : SysCall} (ho : ReadsKernel o) (r : o.Ret) (b : Bool) :
    probingAfter o r b = b := by
  cases o with
  | shmOpen a flags =>
    cases r with
    | ok fd => simp only [probingAfter, ho.1, Bool.false_and, Bool.false_or]
    | error e => rfl
  | shmUnlink a => exact ho.elim
  | _ => rfl

/-- A part of the subscriber's program that only reads. -/
theorem subscriber_reads {α : Type} {p : SysProg α} {V : α → Prop} (h : p.All ReadsKernel V)
    {x : Seen} (hx : x.probing = false) :
    Abides (subscriberExec env) SameProbing (Moves name) (fun a y => V a ∧ y.probing = false)
      p x := by
  refine Abides.of_invariant stable_probing (fun o ho s r s' hs he => ?_) h hx
  obtain ⟨hexec, hprobing⟩ := of_subscriberExec he
  rw [probingAfter_eq ho] at hprobing
  exact ⟨.of_kernel_eq (kernel_eq_of_readsKernel ho hexec) hprobing, hprobing.trans hs⟩

/-- **`Subscriber::from_config` next to a publisher.** -/
theorem subscriber_fromConfig {x : Seen} (hx : x.probing = false) :
    Abides (subscriberExec env) SameProbing (Moves config.shmName) (fun _ y => y.probing = false)
      (Subscriber.fromConfig config) x := by
  unfold Subscriber.fromConfig
  refine Abides.bind sameProbing_refl ((subscriber_exists hx).mono fun b y hy => ?_)
  cases b with
  | false => exact .of_ret stable_probing hy fun _ h => h
  | true =>
    -- after the probe the subscriber only reads
    refine Abides.bind sameProbing_refl ((subscriber_reads all_open hy).mono fun r z hz => ?_)
    cases r with
    | error e => exact .of_ret stable_probing hz.2 fun _ h => h
    | ok shm => exact (subscriber_reads (all_onOpened (hz.1 shm rfl)) hz.2).mono fun _ _ h => h.2

end Subscriber

/-! ### The publisher's programs -/

section Publisher

variable {env : Env} {name : String} {config : PubSubConfig} {x : Seen} {L : List Mapping} {i : Nat}

/-- A careful call of the publisher. -/
def publisherExec (env : Env) (o : SysCall) (x : Seen) : Option (o.Ret × Seen) :=
  if Careful x.probing o then (World.exec env o x.world).map fun (r, w) => (r, ⟨w, x.probing⟩)
  else none

/-- A call of the publisher, taken apart. -/
theorem of_publisherExec {o : SysCall} {x y : Seen} {r : o.Ret}
    (h : publisherExec env o x = some (r, y)) :
    Careful x.probing o ∧ World.exec env o x.world = some (r, y.world) ∧ SameProbing x y := by
  unfold publisherExec at h
  split at h
  · next hc =>
    obtain ⟨⟨r', w⟩, he, heq⟩ := Option.map_eq_some_iff.mp h
    obtain ⟨rfl, rfl⟩ := Prod.mk.inj heq
    exact ⟨hc, he, rfl⟩
  · exact absurd h (by simp)

/-- What the publisher has to bear with: moves of the subscriber, which leave its own tables
alone. -/
structure Bears (name : String) (x y : Seen) : Prop where
  moves : Moves name x y
  process : y.world.process = x.world.process

theorem Bears.refl (name : String) (x : Seen) : Bears name x x := ⟨.refl name x, rfl⟩

theorem Bears.trans {y z : Seen} (h : Bears name x y) (h' : Bears name y z) : Bears name x z :=
  ⟨h.moves.trans h'.moves, h'.process.trans h.process⟩

/-- The mappings `L` are there. -/
def Has (L : List Mapping) (x : Seen) : Prop := ∀ m ∈ L, m ∈ x.world.process.mappings

theorem Has.of_mappings_eq {y : Seen} (hx : Has L x)
    (h : y.world.process.mappings = x.world.process.mappings) : Has L y := by
  intro m hm
  rw [h]
  exact hx m hm

/-- What the publisher knows at all times. -/
structure Own (name : String) (L : List Mapping) (x : Seen) : Prop where
  has : Has L x
  probeEmpty : ProbeEmpty name x

/-- The subscriber's moves take nothing the publisher knows from it. -/
theorem Own.stable (x y : Seen) (hx : Own name L x) (h : Bears name x y) : Own name L y :=
  ⟨hx.has.of_mappings_eq (by rw [h.process]), h.moves.probeEmpty hx.probeEmpty⟩

/-- Where a segment is held there is no probe whose emptiness could be asked for. -/
theorem Held.probeEmpty (h : Held name i x) : ProbeEmpty name x :=
  fun hp => absurd (h.1.symm.trans hp) (by simp)

/-- A segment that is held is mapped, apart from `L` and behind as many bytes as it has. -/
structure MappedOn (name : String) (L : List Mapping) (i : Nat) (shm : SharedMemory) (x : Seen) :
    Prop where
  created : shm.created = false
  held : Held name i x
  mapped : shm.mapping i ∈ x.world.process.mappings
  above : shm.size ≤ shm.shmPtr
  apart : ∀ m ∈ L, m.Apart (shm.mapping i)

/-- A segment that is held stays held, and mapped, whatever the subscriber does. -/
theorem MappedOn.stable {shm : SharedMemory} (x y : Seen) (hx : MappedOn name L i shm x)
    (h : Bears name x y) : MappedOn name L i shm y :=
  ⟨hx.created, h.moves.held i hx.held, by rw [h.process]; exact hx.mapped, hx.above, hx.apart⟩

/-- The mapping lies behind the pages that the destructor of a null object unmaps. -/
theorem MappedOn.not_meets_null {shm : SharedMemory} (hx : MappedOn name L i shm x) :
    ¬ (shm.mapping i).Meets 0 (0 + pageCeil shm.size) :=
  Process.not_meets_null hx.mapped hx.above

/-- If the program succeeds, what it returns satisfies `Φ`. -/
def OnOk {α : Type} (Φ : α → Seen → Prop) (r : Except PosixIpcError α) (x : Seen) : Prop :=
  ∀ a, r = .ok a → Φ a x

/-- The publisher runs `p`, and if that succeeds, the value satisfies `Φ`. -/
def Obtains (env : Env) (name : String) {α : Type} (Φ : α → Seen → Prop)
    (p : SysProg (Except PosixIpcError α)) (x : Seen) : Prop :=
  Abides (publisherExec env) (Bears name) SameProbing (OnOk Φ) p x

/-- A part of the program that ends in an error, whatever it does before. -/
theorem Obtains.fails {α : Type} {Φ : α → Seen → Prop} {p : SysProg (Except PosixIpcError α)}
    (h : p.All (fun _ => True) fun r => ∃ e, r = .error e) : Obtains env name Φ p x := by
  have hsame : ∀ o, True → ∀ (s : Seen) r s', True → publisherExec env o s = some (r, s') →
      SameProbing s s' ∧ True :=
    fun o _ s r s' _ he => ⟨(of_publisherExec he).2.2, trivial⟩
  refine (Abides.of_invariant (R := Bears name) (fun _ _ h _ => h) hsame h trivial).mono ?_
  rintro r y ⟨⟨e, rfl⟩, -⟩ a ha
  exact absurd ha (by simp)

/-- Closing the descriptor on the way out. -/
theorem Obtains.closing {α : Type} {Φ : α → Seen → Prop} {fd : Int} {e : PosixIpcError} :
    Obtains env name Φ (SysProg.close fd >>= fun _ => .ret (.error e)) x :=
  .fails ⟨trivial, fun _ => ⟨e, rfl⟩⟩

/-- Segment `i` is open as `fd`. -/
structure OpenAs (L : List Mapping) (i fd : Nat) (x : Seen) : Prop where
  file : x.world.process.fileSeg fd = some i
  has : Has L x

theorem OpenAs.of_process_eq {fd : Nat} {y : Seen} (hx : OpenAs L i fd x)
    (h : y.world.process = x.world.process) : OpenAs L i fd y :=
  ⟨by rw [h]; exact hx.file, hx.has.of_mappings_eq (by rw [h])⟩

/-- The subscriber does not close the publisher's descriptors. -/
theorem OpenAs.stable {fd : Nat} {y : Seen} (hx : OpenAs L i fd x) (h : Bears name x y) :
    OpenAs L i fd y :=
  hx.of_process_eq h.process

/-- A segment that was just opened. -/
theorem OpenAs.of_openFile {y : Seen} (hx : Has L x)
    (h : y.world.process = (x.world.process.openFile i).2) :
    OpenAs L i (x.world.process.openFile i).1 y := by
  refine ⟨?_, hx.of_mappings_eq ?_⟩
  · rw [h]
    exact Process.fileSeg_openFile _ _
  · rw [h, Process.mappings_openFile]

/-! ### After the mapping -/

/-- The calls after the mapping: they concern the bytes of a segment, or other pages than those of
mapping `m`. -/
def LeavesMapping (m : Mapping) : SysCall → Prop
  | .munmap addr len => ¬ m.Meets addr (addr + pageCeil len)
  | .close _ => True
  | .construct _ _ => True
  | .storage _ => True
  | _ => False

/-- A mapping of a segment that is held survives the calls after it. -/
theorem publisher_leavesMapping {m : Mapping} {o : SysCall} (ho : LeavesMapping m o)
    {y : Seen} {r : o.Ret} (hx : m ∈ x.world.process.mappings ∧ Held name m.seg x)
    (he : publisherExec env o x = some (r, y)) :
    SameProbing x y ∧ m ∈ y.world.process.mappings ∧ Held name m.seg y := by
  obtain ⟨-, hexec, hsame⟩ := of_publisherExec he
  refine ⟨hsame, ?_⟩
  -- names and mappings after the call
  suffices h : m ∈ y.world.process.mappings ∧
      y.world.kernel.names = x.world.kernel.names from
    ⟨h.1, hsame.trans hx.2.1, by rw [h.2]; exact hx.2.2⟩
  cases o with
  | munmap addr len =>
    obtain ⟨-, hw⟩ := Prod.mk.inj (Option.some.inj hexec)
    rw [← hw]
    -- of these calls only unmapping could take the mapping away
    exact ⟨Process.mem_unmap hx.1 ho, rfl⟩
  | close fd =>
    obtain ⟨-, hw⟩ := Prod.mk.inj (Option.some.inj hexec)
    rw [← hw]
    refine ⟨?_, rfl⟩
    change m ∈ (x.world.process.closeFile fd).mappings
    rw [Process.mappings_closeFile]
    exact hx.1
  | construct ptr n =>
    obtain ⟨i, b, hk, hp⟩ := World.construct_inv hexec
    rw [hk, hp]
    exact ⟨hx.1, rfl⟩
  | storage ptr =>
    rw [World.storage_inv hexec]
    exact ⟨hx.1, rfl⟩
  | _ => exact ho.elim

/-- A part of the program after the mapping. -/
theorem MappedOn.abides {shm : SharedMemory} {α : Type} {p : SysProg α} {V : α → Prop}
    (hx : MappedOn name L i shm x) (h : p.All (LeavesMapping (shm.mapping i)) V) :
    Abides (publisherExec env) (Bears name) SameProbing
      (fun a y => V a ∧ MappedOn name L i shm y) p x := by
  have hstable : ∀ y z : Seen, (shm.mapping i ∈ y.world.process.mappings ∧ Held name i y) →
      Bears name y z → shm.mapping i ∈ z.world.process.mappings ∧ Held name i z := by
    rintro y z ⟨hy, hheld⟩ hz
    exact ⟨by rw [hz.process]; exact hy, hz.moves.held i hheld⟩
  refine (Abides.of_invariant hstable (fun o ho y r y' hy he =>
    publisher_leavesMapping ho hy he) h ⟨hx.mapped, hx.held⟩).mono ?_
  rintro a y ⟨ha, hmap, hheld⟩
  exact ⟨ha, hx.created, hheld, hmap, hx.above, hx.apart⟩

/-- An object elsewhere is destroyed without touching the mapping. -/
theorem all_leaves_destroy {shm : SharedMemory} {m : Mapping} (hc : shm.created = false)
    (hno : ¬ m.Meets shm.shmPtr (shm.shmPtr + pageCeil shm.size)) :
    shm.destroy.All (LeavesMapping m) fun _ => True := by
  refine ⟨hno, fun _ => ?_⟩
  change Prog.All (LeavesMapping m) _ (ite (shm.created = true) _ _)
  rw [if_neg (by rw [hc]; simp)]
  exact ⟨trivial, fun _ => trivial⟩

/-- **Moving the object out** leaves its own mapping. -/
theorem MappedOn.all_moveOut {shm : SharedMemory} (hx : MappedOn name L i shm x) :
    shm.moveOut.All (LeavesMapping (shm.mapping i)) fun shm' => shm' = shm := by
  have hc : shm.moveConstruct.2.created = false := hx.created
  exact Prog.All.bind ((all_leaves_destroy hc hx.not_meets_null).mono fun _ _ => rfl)

/-- Mapping an open segment. An empty one cannot be mapped. -/
theorem obtains_mapped {size fd : Nat} (hx : OpenAs L i fd x) (hheld : size ≠ 0 → Held name i x) :
    Obtains env name (fun shm y => ∃ i, MappedOn name L i shm y)
      (SharedMemory.mapped name size fd) x := by
  unfold SharedMemory.mapped SysProg.mmap
  simp only [Prog.step_bind, Prog.ret_bind]
  refine Abides.of_step
    (A := fun x => OpenAs L i fd x ∧ (size ≠ 0 → Held name i x))
    (fun s t hs ht => ⟨hs.1.stable ht, fun hne => ht.moves.held i (hs.2 hne)⟩) ⟨hx, hheld⟩ ?_
  rintro t ⟨hopen, hheld⟩ r t' he
  obtain ⟨-, hexec, hsame⟩ := of_publisherExec he
  refine ⟨hsame, ?_⟩
  rcases World.mmap_inv hopen.file hexec with ⟨e, rfl, -, -⟩ | ⟨addr, hplaced, rfl, hk, hm⟩
  · exact Obtains.closing
  · -- what was mapped is not empty, so it is held
    have hheld' := hheld hplaced.paged.len_ne
    have hmapped : MappedOn name L i ⟨name, size, fd, addr, false⟩ t' := by
      refine ⟨rfl, ⟨hsame.trans hheld'.1, by rw [hk]; exact hheld'.2⟩, ?_, hplaced.len_le,
        fun m hm' => (hplaced.apart m (hopen.has m hm')).symm⟩
      rw [hm]
      exact List.mem_cons_self
    -- moved into the result
    refine Abides.bind (Bears.refl _) ((hmapped.abides hmapped.all_moveOut).mono ?_)
    rintro shm' y ⟨rfl, hy⟩
    refine Abides.of_ret MappedOn.stable hy fun u hu shm hshm => ?_
    obtain rfl := Except.ok.inj hshm
    exact ⟨i, hu⟩

/-- Sizing and mapping an existing segment: it is held, or it is the empty segment of a probe. -/
theorem obtains_sized_open {size fd : Nat} (hx : OpenAs L i fd x)
    (hlt : i < x.world.kernel.next)
    (hheld : Held name i x ∨ (x.world.kernel.segments i).size = 0) :
    Obtains env name (fun shm y => ∃ i, MappedOn name L i shm y)
      (SharedMemory.sized name size false fd) x := by
  unfold SharedMemory.sized SysProg.fstat
  simp only [Bool.false_eq_true, if_false, Prog.step_bind, Prog.ret_bind]
  refine Abides.of_step
    (A := fun x => OpenAs L i fd x ∧ i < x.world.kernel.next ∧
      (Held name i x ∨ (x.world.kernel.segments i).size = 0))
    (fun s t hs ht => ⟨hs.1.stable ht, lt_of_lt_of_le hs.2.1 ht.moves.next, hs.2.2.imp
      (ht.moves.held i) fun hz => by rw [ht.moves.segments i hs.2.1]; exact hz⟩)
    ⟨hx, hlt, hheld⟩ ?_
  rintro t ⟨hopen, -, hheld⟩ r t' he
  obtain ⟨-, hexec, hsame⟩ := of_publisherExec he
  refine ⟨hsame, ?_⟩
  obtain ⟨⟨e, rfl⟩ | rfl, hk, hp⟩ := World.fstat_inv hopen.file hexec
  · exact Obtains.closing
  · refine obtains_mapped (hopen.of_process_eq hp) fun hne => ?_
    obtain hheld | hz := hheld
    · exact ⟨hsame.trans hheld.1, by rw [hk]; exact hheld.2⟩
    · -- the empty segment of a probe cannot be mapped
      exact absurd hz hne

/-- Sizing and mapping a segment that is held. -/
theorem obtains_sized_create {size fd : Nat} (hx : OpenAs L i fd x) (hheld : Held name i x) :
    Obtains env name (fun shm y => ∃ i, MappedOn name L i shm y)
      (SharedMemory.sized name size true fd) x := by
  unfold SharedMemory.sized SysProg.ftruncate
  simp only [if_true]
  split
  · exact .fails ⟨_, rfl⟩
  · simp only [Prog.step_bind, Prog.ret_bind]
    -- until `ftruncate` the name stays bound to the segment, whatever the other one does
    refine Abides.of_step (A := fun x => OpenAs L i fd x ∧ Held name i x)
      (fun s t hs ht => ⟨hs.1.stable ht, ht.moves.held i hs.2⟩) ⟨hx, hheld⟩ ?_
    rintro t ⟨hopen, hheld⟩ r t' he
    obtain ⟨-, hexec, hsame⟩ := of_publisherExec he
    refine ⟨hsame, ?_⟩
    rcases World.ftruncate_inv hopen.file hexec with ⟨e, rfl, -, -⟩ | ⟨hlt, rfl, hk, hp⟩
    · exact Obtains.closing
    · refine obtains_mapped (hopen.of_process_eq hp) fun _ => ⟨hsame.trans hheld.1, ?_⟩
      rw [hk]
      exact hheld.2

/-! ### From the probe to the mapping -/

/-- Where the name is not bound, the subscriber is not probing. -/
theorem ProbeEmpty.of_unbound (h : ProbeEmpty name x) (hb : x.world.kernel.names name = none) :
    x.probing = false := by
  cases hp : x.probing with
  | false => rfl
  | true =>
    obtain ⟨i, hi, -⟩ := h hp
    exact absurd (hb.symm.trans hi) (by simp)

/-- What the publisher knows survives its own calls that leave the kernel and the mappings alone.
-/
theorem Own.of_kernel_eq {y : Seen} (hx : Own name L x) (hk : y.world.kernel = x.world.kernel)
    (hp : y.world.process.mappings = x.world.process.mappings) (hs : SameProbing x y) :
    Own name L y := by
  refine ⟨hx.has.of_mappings_eq hp, fun hy => ?_⟩
  rw [hk]
  exact hx.probeEmpty (hs.symm.trans hy)

/-- A name that was created is held. -/
theorem Own.held_create {y : Seen} (hx : Own name L x) (hb : x.world.kernel.names name = none)
    (hk : y.world.kernel = x.world.kernel.create name) (hs : SameProbing x y) :
    Held name x.world.kernel.next y := by
  refine ⟨hs.trans (hx.probeEmpty.of_unbound hb), ?_⟩
  rw [hk]
  exact SharedMemory.names_create _ _

/-- **The publisher's own probe** leaves it where it was. -/
theorem publisher_exists (hx : Own name L x) :
    Abides (publisherExec env) (Bears name) SameProbing (fun _ y => Own name L y)
      (SharedMemory.exists name) x := by
  unfold SharedMemory.exists SysProg.shmOpen
  simp only [Prog.step_bind, Prog.ret_bind]
  refine Abides.of_step Own.stable hx fun t ht r t' he => ?_
  obtain ⟨-, hexec, hsame⟩ := of_publisherExec he
  refine ⟨hsame, ?_⟩
  -- taken, opened, or created: `O_EXCL` leaves the first and the last
  rcases World.shmOpen_inv hexec with ⟨e, rfl, hk, hp⟩ | ⟨i, hno, -⟩ | ⟨-, hb, rfl, hk, hp⟩
  · -- reported as existing, be it the subscriber's probe that exists
    exact .of_ret Own.stable (ht.of_kernel_eq hk (by rw [hp]) hsame) fun _ h => h
  · exact absurd hno (by simp)
  · have hheld := ht.held_create hb hk hsame
    have hm : Has L t' := ht.has.of_mappings_eq (by rw [hp, Process.mappings_openFile])
    by_cases hfd : 0 < (t.world.process.openFile t.world.kernel.next).1
    · -- the name is held until the publisher itself unlinks it
      simp only [if_pos hfd]
      have hstable : ∀ y z : Seen,
          Has L y ∧ Held name t.world.kernel.next y → Bears name y z →
          Has L z ∧ Held name t.world.kernel.next z := by
        rintro y z ⟨hm, hheld⟩ hz
        exact ⟨hm.of_mappings_eq (by rw [hz.process]), hz.moves.held _ hheld⟩
      refine Abides.of_step hstable ⟨hm, hheld⟩ ?_
      rintro u ⟨hmu, hu⟩ _ u' he'
      obtain ⟨-, hclose, hsame'⟩ := of_publisherExec he'
      obtain ⟨-, hw⟩ := Prod.mk.inj (Option.some.inj hclose)
      refine ⟨hsame', ?_⟩
      refine Abides.of_step hstable ⟨?_, hsame'.trans hu.1, ?_⟩ ?_
      · refine hmu.of_mappings_eq ?_
        rw [← hw]
        exact Process.mappings_closeFile _ _
      · rw [← hw]
        exact hu.2
      · rintro v ⟨hmv, hv⟩ _ v' he''
        obtain ⟨-, hunlink, hsame''⟩ := of_publisherExec he''
        obtain ⟨-, hw'⟩ := Prod.mk.inj (Option.some.inj hunlink)
        refine ⟨hsame'', .of_ret Own.stable ⟨?_, fun hp' => ?_⟩ fun _ h => h⟩
        · exact hmv.of_mappings_eq (by rw [← hw'])
        · exact absurd ((hsame''.trans hv.1).symm.trans hp') (by simp)
    · -- descriptor 0 passes for a failure: the name stays bound, but not to a probe
      simp only [if_neg hfd]
      exact .of_ret Own.stable ⟨hm, hheld.probeEmpty⟩ fun _ h => h

/-- **`open`.** The segment is held, or it belongs to a probe and cannot be mapped. -/
theorem obtains_open (hx : Own name L x) :
    Obtains env name (fun shm y => ∃ i, MappedOn name L i shm y) (SharedMemory.open name) x := by
  -- one attempt, which is made again should the first one have failed with `EEXIST`
  have attempt : ∀ (k : Except Errno Nat → SysProg (Except PosixIpcError SharedMemory)) (y : Seen),
      Own name L y → (∀ fd, k (.ok fd) = SharedMemory.sized name 0 false fd) →
      (∀ e z, Own name L z → Obtains env name (fun shm y => ∃ i, MappedOn name L i shm y)
        (k (.error e)) z) →
      Obtains env name (fun shm y => ∃ i, MappedOn name L i shm y)
        (.step (.shmOpen name {}) k) y := by
    intro k y hy hok herror
    refine Abides.of_step Own.stable hy fun t ht r t' he => ?_
    obtain ⟨-, hexec, hsame⟩ := of_publisherExec he
    refine ⟨hsame, ?_⟩
    rcases World.shmOpen_inv hexec with ⟨e, rfl, hk, hp⟩ | ⟨i, -, hb, rfl, hk, hp⟩ | ⟨hc, -⟩
    · exact herror e t' (ht.of_kernel_eq hk (by rw [hp]) hsame)
    · rw [hok]
      replace hk : t'.world.kernel = t.world.kernel := hk
      refine obtains_sized_open (.of_openFile ht.has hp) ?_ ?_
      · rw [hk]
        exact t.world.kernel.names_lt name i hb
      · rw [hk]
        -- while the subscriber is probing, what the name is bound to is empty
        cases hprobing : t.probing with
        | false => exact .inl ⟨hsame.trans hprobing, by rw [hk]; exact hb⟩
        | true =>
          obtain ⟨j, hj, hz⟩ := ht.probeEmpty hprobing
          obtain rfl := Option.some.inj (hb.symm.trans hj)
          exact .inr hz
    · exact absurd hc (by simp)
  -- the second attempt is the last one
  refine attempt _ x hx (fun fd => rfl) fun e z hz => ?_
  change Obtains env name _ (ite (e = .eexist) _ _) z
  split
  · exact attempt _ z hz (fun fd => rfl) fun e' z' _ => .fails ⟨_, rfl⟩
  · exact .fails ⟨_, rfl⟩

/-- **`open_or_create` with `create`.** This is where care is needed: the second `shm_open` takes
whatever the name is bound to. -/
theorem obtains_openOrCreate {size : Nat} (hx : Own name L x) :
    Obtains env name (fun shm y => ∃ i, MappedOn name L i shm y)
      (SharedMemory.openOrCreate name size true) x := by
  unfold SharedMemory.openOrCreate SysProg.shmOpen
  simp only [Prog.step_bind, Prog.ret_bind]
  refine Abides.of_step Own.stable hx fun t ht r t' he => ?_
  obtain ⟨-, hexec, hsame⟩ := of_publisherExec he
  refine ⟨hsame, ?_⟩
  -- taken, opened, or created: `O_EXCL` leaves the first and the last
  rcases World.shmOpen_inv hexec with ⟨e, rfl, hk, hp⟩ | ⟨i, hno, -⟩ | ⟨-, hb, rfl, hk, hp⟩
  · split
    · next fd heq => exact absurd heq (by simp)
    · next e' _ =>
      split
      · -- the name is taken: once more, without `O_EXCL`
        refine Abides.of_step Own.stable (ht.of_kernel_eq hk (by rw [hp]) hsame)
          fun u hu r u' he' => ?_
        obtain ⟨hcareful, hexec', hsame'⟩ := of_publisherExec he'
        refine ⟨hsame', ?_⟩
        -- a careful call is not made during a probe
        have hnot : u.probing = false := by
          cases hprobing : u.probing with
          | false => rfl
          | true => exact absurd (hcareful hprobing rfl) (by simp)
        rcases World.shmOpen_inv hexec' with
          ⟨e'', rfl, -, -⟩ | ⟨i, -, hb, rfl, hk', hp'⟩ | ⟨-, hb, rfl, hk', hp'⟩
        · -- no descriptor could be had this time either
          exact Obtains.fails ⟨_, rfl⟩
        · refine obtains_sized_create (.of_openFile hu.has hp') ⟨hsame'.trans hnot, ?_⟩
          rw [hk']
          exact hb
        · exact obtains_sized_create (.of_openFile hu.has hp')
            (hu.held_create hb hk' hsame')
      · exact Obtains.fails ⟨_, rfl⟩
  · exact absurd hno (by simp [SharedMemory.openFlags])
  · -- the name was free: the segment is the publisher's own
    exact obtains_sized_create (.of_openFile ht.has hp) (ht.held_create hb hk hsame)

/-! ### From the mapping to the publisher -/

/-- The publisher's queue is on a segment that is held. -/
def OnHeld (name : String) (p : Publisher) (x : Seen) : Prop :=
  ∃ q m, p.queue = some q ∧ m ∈ x.world.process.mappings ∧ m.offset = 0 ∧ m.addr = q.storage ∧
    Held name m.seg x

/-- What the end of the program returns, once the segment is mapped. -/
theorem MappedOn.onHeld {shm : SharedMemory} {r : Except PosixIpcError Publisher}
    (hx : MappedOn name L i shm x)
    (hr : ∀ p, r = .ok p → ∃ q, p.queue = some q ∧ q.storage = shm.shmPtr) :
    OnOk (OnHeld name) r x := by
  intro p hp
  obtain ⟨q, hq, hstorage⟩ := hr p hp
  exact ⟨q, _, hq, hx.mapped, rfl, hstorage.symm, hx.held⟩

/-- Making the queue touches the bytes of the segment only; the queue stands at the object's
address. -/
theorem all_onStorage (shm : SharedMemory) {m : Mapping} :
    (Publisher.onStorage config shm).All (LeavesMapping m)
      fun r => ∀ a, r = .ok a → ∃ q, a.queue = some q ∧ q.storage = shm.shmPtr := by
  refine ⟨trivial, fun s a ha => ?_⟩
  obtain rfl := Except.ok.inj ha
  exact ⟨_, rfl, rfl⟩

/-- Letting the old object go unmaps the old object's pages only. -/
theorem all_leaves_release {old : Option SharedMemory} {m : Mapping}
    (hold : ∀ shm, old = some shm → shm.created = false ∧
      ¬ m.Meets shm.shmPtr (shm.shmPtr + pageCeil shm.size)) :
    (Publisher.release old).All (LeavesMapping m) fun _ => True := by
  cases old with
  | none => exact trivial
  | some shm => exact all_leaves_destroy (hold shm rfl).1 (hold shm rfl).2

/-- **Creating the segment anew**, with the old object let go of after the new one has been
mapped. -/
theorem obtains_recreate {old : Option SharedMemory} (hx : Own config.shmName L x)
    (hold : ∀ shm, old = some shm → shm.created = false ∧ ∃ j, shm.mapping j ∈ L) :
    Obtains env config.shmName (OnHeld config.shmName) (Publisher.recreate config old) x := by
  unfold Publisher.recreate
  refine Abides.bind (Bears.refl _) ((obtains_openOrCreate hx).mono fun r y hy => ?_)
  cases r with
  | error e =>
    -- whatever is let go of, no publisher is returned
    refine Obtains.fails (Prog.All.bind ?_)
    exact .of_forall _ (fun _ => trivial) fun _ => ⟨e, rfl⟩
  | ok shm =>
    obtain ⟨i, hm⟩ := hy shm rfl
    -- the old object was mapped when the new one was, and so is elsewhere
    have hrelease : (Publisher.release old).All (LeavesMapping (shm.mapping i)) fun _ => True := by
      refine all_leaves_release fun s hs => ⟨(hold s hs).1, ?_⟩
      obtain ⟨j, hj⟩ := (hold s hs).2
      exact (hm.apart _ hj).symm
    refine (hm.abides (Prog.All.bind (hrelease.mono fun _ _ => Prog.All.bind
      (hm.all_moveOut.mono ?_)))).mono fun r z hz => hz.2.onHeld hz.1
    rintro shm' rfl
    exact ⟨trivial, fun _ => all_onStorage shm'⟩

/-- **`Publisher::from_config` next to a subscriber.** -/
theorem obtains_fromConfig (hx : Own config.shmName L x) :
    Obtains env config.shmName (OnHeld config.shmName) (Publisher.fromConfig config) x := by
  unfold Publisher.fromConfig
  refine Abides.bind (Bears.refl _) ((publisher_exists hx).mono fun b y hy => ?_)
  -- no segment yet: it is created
  cases b with
  | false => exact obtains_recreate hy fun shm h => absurd h (by simp)
  | true =>
    refine Abides.bind (Bears.refl _) ((obtains_open hy).mono fun r z hz => ?_)
    cases r with
    | error e => exact Obtains.fails ⟨e, rfl⟩
    | ok shm =>
      obtain ⟨i, hm⟩ := hz shm rfl
      refine Abides.bind (Bears.refl _) ((hm.abides hm.all_moveOut).mono ?_)
      rintro shm' u ⟨rfl, hu⟩
      change Obtains env _ _ (ite (config.storageSizeBytes ≠ shm'.size) _ _) u
      split
      · -- another size: the segment is opened once more, next to the old mapping
        have hown : Own config.shmName [shm'.mapping i] u :=
          ⟨List.forall_mem_singleton.mpr hu.mapped, hu.held.probeEmpty⟩
        refine obtains_recreate hown fun s hs => ?_
        obtain rfl := Option.some.inj hs
        exact ⟨hu.created, i, List.mem_singleton_self _⟩
      · exact (hu.abides (all_onStorage shm')).mono fun r z hz => hz.2.onHeld hz.1

end Publisher

end PosixIpc
