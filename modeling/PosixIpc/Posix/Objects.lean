import PosixIpc.Posix.Handles

/-!
# Shared memory objects over time

A process that opens, moves, assigns and destroys `SharedMemory` objects in any order, with a ledger
of its descriptors and mappings. For each object it is also noted which names were brought into
existence by a call whose object it is, or has been moved to it (`Owner.creations`). The library
keeps no such record, `created_` being false throughout, but what it promises about names is said in
these terms.

There are two leaks, and no others (`Objects.Leaks`). A move assignment takes over the fields of the
other object and forgets the descriptor and the mapping of its own; and `open_or_create` with
`create` and size zero leaves its descriptor open. `handles_released_iff` says that by the time the
objects are gone every handle is released as often as it was acquired exactly if no step of the run
is one of these. No handle is ever released while an object holds it.

All this is about processes in which there is room below the mappings for the objects
(`World.Roomy`, `ObjectOp.Fits`). Where an object is larger than the address of some mapping, the
destructor of what is left of it after a move unmaps pages of that mapping.
-/

namespace PosixIpc

open Framework

/-- A live object, with the names whose ownership it has received. -/
structure Owner where
  shm : SharedMemory
  creations : List String
  deriving DecidableEq, Repr

namespace Owner

/-- Ownership goes with the move. -/
def moveConstruct (other : Owner) : Owner × Owner :=
  (⟨other.shm.moveConstruct.1, other.creations⟩, ⟨other.shm.moveConstruct.2, []⟩)

/-- The target receives ownership beside what it had received before. -/
def moveAssign (this other : Owner) : Owner × Owner :=
  (⟨(this.shm.moveAssign other.shm).1, this.creations ++ other.creations⟩,
    ⟨(this.shm.moveAssign other.shm).2, []⟩)

/-- What the object holds. -/
def handles (o : Owner) : List Handle := o.shm.handles

theorem moves : Moves handles moveConstruct moveAssign where
  construct_target _ := rfl
  construct_source _ := rfl
  assign_target _ _ := rfl
  assign_source _ _ := rfl

end Owner

/-- A process and its objects. -/
structure Objects where
  world : World
  cells : List (Option Owner)
  ledger : Ledger Handle

/-- What a program does with shared memory objects. -/
inductive ObjectOp where
  | openOrCreate (name : String) (size : Nat) (create : Bool)
  | «open» (name : String)
  | moveConstruct (src : Nat)
  | moveAssign (dst src : Nat)
  | destroy (i : Nat)
  deriving DecidableEq, Repr

/-- No object is created that has no room below the limit. -/
def ObjectOp.Fits (limit : Nat) : ObjectOp → Prop
  | .openOrCreate _ size create => create = true → size ≤ limit
  | _ => True

instance ObjectOp.decidableFits (limit : Nat) : (o : ObjectOp) → Decidable (o.Fits limit)
  | .openOrCreate _ size create => inferInstanceAs (Decidable (create = true → size ≤ limit))
  | .open _ | .moveConstruct _ | .moveAssign _ _ | .destroy _ => isTrue trivial

namespace Objects

/-- No objects yet. -/
def start (w : World) : Objects := ⟨w, [], ⟨[], []⟩⟩

/-- Run a factory. The object it returns, if any, gets a cell. -/
def make (env : Env) (x : Objects) (p : SysProg (Except PosixIpcError SharedMemory))
    (creations : List String) : Option (Option PosixIpcError × Objects) :=
  match p.run (Logged.exec env) ⟨x.world, x.ledger⟩ with
  | none => none
  | some (.error e, y) => some (some e, ⟨y.world, x.cells, y.ledger⟩)
  | some (.ok shm, y) => some (none, ⟨y.world, x.cells ++ [some ⟨shm, creations⟩], y.ledger⟩)

/-- One operation, and the error it returns. Only an object that is there can be moved, assigned to
or destroyed. -/
def step (env : Env) (x : Objects) : ObjectOp → Option (Option PosixIpcError × Objects)
  | .openOrCreate name size create =>
    x.make env (SharedMemory.openOrCreate name size create)
      (if create ∧ x.world.kernel.names name = none then [name] else [])
  | .open name => x.make env (SharedMemory.open name) []
  | .moveConstruct src =>
    (moveConstruct Owner.moveConstruct x.cells src).map fun c => (none, { x with cells := c })
  | .moveAssign dst src =>
    (moveAssign Owner.moveAssign x.cells dst src).map fun c => (none, { x with cells := c })
  | .destroy i =>
    match live x.cells i with
    | none => none
    | some o =>
      match o.shm.destroy.run (Logged.exec env) ⟨x.world, x.ledger⟩ with
      | none => none
      | some (_, y) => some (none, ⟨y.world, x.cells.set i none, y.ledger⟩)

/-- What the objects hold. -/
def held (x : Objects) : List Handle := Framework.held Owner.handles x.cells

/-- The objects an operation is about are there. -/
def Present (x : Objects) : ObjectOp → Prop
  | .openOrCreate _ _ _ | .open _ => True
  | .moveConstruct i | .destroy i => (live x.cells i).isSome
  | .moveAssign dst src => (live x.cells dst).isSome ∧ (live x.cells src).isSome

/-- The operation leaves a handle behind that no object holds: another object is assigned to one
that is open, or size zero is refused with the descriptor open. -/
def Leaks (env : Env) (x : Objects) : ObjectOp → Prop
  | .openOrCreate name size create => SharedMemory.LeavesOpen env name size create x.world
  | .moveAssign dst src => dst ≠ src ∧
      ∃ o ∈ live x.cells dst, o.shm.shmPtr ≠ 0 ∨ 0 ≤ o.shm.shmFd
  | _ => False

instance (env : Env) (x : Objects) (o : ObjectOp) : Decidable (Leaks env x o) :=
  match o with
  | .openOrCreate name size create =>
    inferInstanceAs (Decidable (create = true ∧ size = 0 ∧ env.fault x.world.calls = none ∧
      (x.world.kernel.names name = none ∨ env.fault (x.world.calls + 1) = none)))
  | .moveAssign dst src => inferInstanceAs (Decidable (dst ≠ src ∧
      ∃ o ∈ live x.cells dst, o.shm.shmPtr ≠ 0 ∨ 0 ≤ o.shm.shmFd))
  | .open _ | .moveConstruct _ | .destroy _ => isFalse fun h => h

variable {env : Env} {x y : Objects} {lost : List Handle}

/-- The books are in order, what is held or lost is open, there is room below the mappings, and the
objects unmap what is theirs. -/
structure Inv (env : Env) (x : Objects) (lost : List Handle) : Prop where
  accounts : x.ledger.Accounts x.held lost
  isOpen : ∀ h, h ∈ x.held ∨ h ∈ lost → x.world.IsOpen h
  roomy : x.world.Roomy env
  sound : ∀ i o, live x.cells i = some o → o.shm.Sound env x.world

/-- The invariant holds at the start, where nothing is held. -/
theorem inv_start {w : World} (hw : w.Roomy env) : Inv env (start w) [] := by
  refine ⟨Ledger.accounts_empty, ?_, hw, ?_⟩
  · rintro h (hh | hh)
    · exact absurd hh List.not_mem_nil
    · exact absurd hh List.not_mem_nil
  · intro i o h
    exact absurd h (by simp [start, live])

/-! ### Opening -/

/-- What `make` can have done. -/
theorem make_inv {p : SysProg (Except PosixIpcError SharedMemory)} {creations : List String}
    {r : Option PosixIpcError} (h : x.make env p creations = some (r, y)) :
    (∃ e z, p.run (Logged.exec env) ⟨x.world, x.ledger⟩ = some (.error e, z) ∧
      y = ⟨z.world, x.cells, z.ledger⟩) ∨
    (∃ shm z, p.run (Logged.exec env) ⟨x.world, x.ledger⟩ = some (.ok shm, z) ∧
      y = ⟨z.world, x.cells ++ [some ⟨shm, creations⟩], z.ledger⟩) := by
  unfold make at h
  split at h
  · exact absurd h (by simp)
  · next e z hrun => exact .inl ⟨e, z, hrun, (Prod.mk.inj (Option.some.inj h)).2.symm⟩
  · next shm z hrun => exact .inr ⟨shm, z, hrun, (Prod.mk.inj (Option.some.inj h)).2.symm⟩

theorem sound_moveConstruct {w : World} (o : Owner) (h : o.shm.Sound env w) :
    o.moveConstruct.1.shm.Sound env w ∧ o.moveConstruct.2.shm.Sound env w :=
  -- what is left of the object has no pointer
  ⟨h, h.created, h.size_le, fun hne => absurd rfl hne⟩

theorem sound_moveAssign {w : World} (d o : Owner) (_ : d.shm.Sound env w)
    (h : o.shm.Sound env w) :
    (d.moveAssign o).1.shm.Sound env w ∧ (d.moveAssign o).2.shm.Sound env w :=
  ⟨h, h.created, h.size_le, fun hne => absurd rfl hne⟩

/-- New handles are entered and open, beside the others. -/
theorem Inv.gain (h : Inv env x lost) {z : Logged} {new : List Handle}
    (hg : Logged.Gains ⟨x.world, x.ledger⟩ z new) :
    z.ledger.Accounts (x.held ++ new) lost ∧
      ∀ a, a ∈ x.held ++ new ∨ a ∈ lost → z.world.IsOpen a := by
  obtain ⟨t, hacquired, hreleased, -⟩ := hg.ledger
  constructor
  · -- what is held or lost is open, the new handles were not
    refine h.accounts.gain hacquired hreleased hg.nodup fun a ha => ⟨fun hmem => ?_, fun hmem => ?_⟩
    · exact hg.fresh a ha (h.isOpen a (.inl hmem))
    · exact hg.fresh a ha (h.isOpen a (.inr hmem))
  · rintro a (ha | ha)
    · rcases List.mem_append.mp ha with ha | ha
      · exact (hg.isOpen a).mpr (.inl (h.isOpen a (.inl ha)))
      · exact (hg.isOpen a).mpr (.inr ha)
    · exact (hg.isOpen a).mpr (.inl (h.isOpen a (.inr ha)))

/-- **Opening** keeps the books, and loses the descriptor exactly if it is left open. -/
theorem Inv.make (h : Inv env x lost) {name : String} {size : Nat} {create : Bool}
    {creations : List String} {r : Option PosixIpcError} (hsize : create = true → size ≤ env.limit)
    (hs : x.make env (SharedMemory.openOrCreate name size create) creations = some (r, y)) :
    ∃ l, Inv env y (lost ++ l) ∧
      (l = [] ↔ ¬ SharedMemory.LeavesOpen env name size create x.world) := by
  have hruns := @SharedMemory.runs_openOrCreate_handles env name size create ⟨x.world, x.ledger⟩
    h.roomy hsize
  -- the objects that were there keep their mappings
  have hold : ∀ {z : Logged} {new : List Handle}, Logged.Gains ⟨x.world, x.ledger⟩ z new →
      ∀ i o, live x.cells i = some o → o.shm.Sound env z.world :=
    fun hg i o ho => (h.sound i o ho).of_mappings fun m hm _ => hg.mappings m hm
  have hroomy : ∀ {r : Except PosixIpcError SharedMemory} {z : Logged},
      (SharedMemory.openOrCreate name size create).run (Logged.exec env) ⟨x.world, x.ledger⟩ =
        some (r, z) → z.world.Roomy env :=
    fun hrun => h.roomy.run (SharedMemory.all_sizes_openOrCreate hsize) (Logged.run_world hrun)
  rcases make_inv hs with ⟨e, z, hrun, rfl⟩ | ⟨shm, z, hrun, rfl⟩
  · -- no object
    cases hruns.post hrun with
    | failed _ hno hg =>
      obtain ⟨hacc, hopen⟩ := h.gain hg
      rw [List.append_nil] at hacc hopen
      refine ⟨[], ?_, iff_of_true rfl hno⟩
      rw [List.append_nil]
      exact ⟨hacc, hopen, hroomy hrun, hold hg⟩
    | leaked _ fd hyes hg =>
      obtain ⟨hacc, hopen⟩ := h.gain hg
      -- held by the function, and with its return by no one
      refine ⟨[.descriptor fd], ⟨hacc.lose fun a => (List.count_append ..).symm, ?_, hroomy hrun,
        hold hg⟩, iff_of_false (by simp) fun hno => hno hyes⟩
      rintro a (ha | ha)
      · exact hopen a (.inl (List.mem_append_left _ ha))
      · rcases List.mem_append.mp ha with ha | ha
        · exact hopen a (.inr ha)
        · exact hopen a (.inl (List.mem_append_right _ ha))
  · cases hruns.post hrun with
    | opened _ hno hsound hg =>
      obtain ⟨hacc, hopen⟩ := h.gain hg
      -- the object holds what was gained
      have hheld : held ⟨z.world, x.cells ++ [some ⟨shm, creations⟩], z.ledger⟩ =
          x.held ++ shm.handles := held_append_some _ _ _
      refine ⟨[], ?_, iff_of_true rfl hno⟩
      rw [List.append_nil]
      refine ⟨by rw [hheld]; exact hacc, by rw [hheld]; exact hopen, hroomy hrun, fun i o ho => ?_⟩
      rcases mem_of_live_append ho with ho | rfl
      · exact hold hg i o ho
      · exact hsound

/-! ### Destroying -/

/-- The destructor leaves names and segments alone. -/
theorem kernel_of_destroy {x z : Logged} {shm : SharedMemory} {u : Unit}
    (hc : shm.created = false) (h : shm.destroy.run (Logged.exec env) x = some (u, z)) :
    z.world.kernel = x.world.kernel :=
  ((SharedMemory.runs_destroy hc).post (Logged.run_world h)).1

/-- Destroying an object that is there. -/
theorem step_destroy {i : Nat} {o : Owner} (hlive : live x.cells i = some o)
    (hc : o.shm.created = false) :
    ∃ z : Logged, x.step env (.destroy i) = some (none, ⟨z.world, x.cells.set i none, z.ledger⟩) ∧
      z.world.kernel = x.world.kernel := by
  obtain ⟨z, hrun⟩ := Logged.exists_run (x := ⟨x.world, x.ledger⟩)
    (@SharedMemory.run_destroy env x.world o.shm hc)
  exact ⟨z, by simp only [step, hlive, hrun], kernel_of_destroy hc hrun⟩

/-- What `destroy` can have done. -/
theorem destroy_inv {i : Nat} {r : Option PosixIpcError}
    (hs : x.step env (.destroy i) = some (r, y)) :
    ∃ (o : Owner) (z : Logged), live x.cells i = some o ∧
      o.shm.destroy.run (Logged.exec env) ⟨x.world, x.ledger⟩ = some ((), z) ∧
      y = ⟨z.world, x.cells.set i none, z.ledger⟩ := by
  simp only [step] at hs
  split at hs
  · exact absurd hs (by simp)
  · next o hlive =>
    split at hs
    · exact absurd hs (by simp)
    · next u z hrun => exact ⟨o, z, hlive, hrun, (Prod.mk.inj (Option.some.inj hs)).2.symm⟩

/-- The mapping of an object that is still there is not that of the one that goes. -/
theorem Inv.other_mapping (h : Inv env x lost) {i j : Nat} {o d : Owner}
    (hlive : live x.cells i = some o) (hd : live (x.cells.set i none) j = some d)
    (hne : d.shm.shmPtr ≠ 0) : Handle.mapping d.shm.shmPtr ∉ o.handles := by
  intro hmem
  refine h.accounts.not_mem (fun a => count_held_set _ hlive none a) hmem ?_
  -- it holds the handle itself
  exact mem_held_of_live hd (SharedMemory.mem_handles_mapping hne)

/-- **Destroying** an object releases what it holds. -/
theorem Inv.destroy (h : Inv env x lost) {i : Nat} {r : Option PosixIpcError}
    (hs : x.step env (.destroy i) = some (r, y)) : Inv env y lost := by
  obtain ⟨o, z, hlive, hrun, rfl⟩ := destroy_inv hs
  obtain ⟨-, hl, hopen, hmappings⟩ :=
    (SharedMemory.runs_destroy_handles (h.sound i o hlive) h.roomy).post hrun
  have hcount : ∀ a, (Framework.held Owner.handles (x.cells.set i none)).count a +
      o.handles.count a = x.held.count a := fun a => count_held_set _ hlive none a
  refine ⟨by rw [hl]; exact h.accounts.release hcount, ?_,
    h.roomy.run (SharedMemory.all_sizes_destroy _ _) (Logged.run_world hrun), fun j d hd => ?_⟩
  · rintro a (ha | ha)
    · -- still held by another object
      exact hopen a (h.isOpen a (.inl (Ledger.mem_of_count hcount (.inl ha))))
        fun ha' => h.accounts.not_mem hcount ha' ha
    · -- lost, so not held by this one
      refine hopen a (h.isOpen a (.inr ha)) fun ha' => ?_
      have hs := h.accounts.single a
      have hc := hcount a
      have h₁ := List.count_pos_iff.mpr ha
      have h₂ : 0 < o.handles.count a := List.count_pos_iff.mpr ha'
      omega
  · have hsound : d.shm.Sound env x.world :=
      forall_set (fun o' ho' => absurd ho' (by simp)) h.sound j d hd
    refine ⟨hsound.created, hsound.size_le, fun hne => ?_⟩
    obtain ⟨k, hk⟩ := hsound.mapped hne
    exact ⟨k, hmappings _ hk (h.other_mapping hlive hd hne)⟩

/-! ### Runs -/

/-- **One operation** keeps the invariant, and loses something exactly if it leaks. -/
theorem Inv.step (h : Inv env x lost) {o : ObjectOp} {r : Option PosixIpcError}
    (ho : o.Fits env.limit) (hs : x.step env o = some (r, y)) :
    ∃ l, Inv env y (lost ++ l) ∧ (l = [] ↔ ¬ Leaks env x o) := by
  cases o with
  | openOrCreate name size create => exact h.make ho hs
  | «open» name =>
    obtain ⟨l, hy, hl⟩ := h.make (fun hc => absurd hc (by simp)) hs
    exact ⟨l, hy, hl.trans (iff_of_true (fun hz => absurd hz.1 (by simp)) fun hz => hz)⟩
  | moveConstruct src =>
    obtain ⟨c, hc, heq⟩ := Option.map_eq_some_iff.mp hs
    obtain ⟨-, rfl⟩ := Prod.mk.inj heq
    -- the handles are in another cell now
    have hcount := count_moveConstruct Owner.moves hc
    refine ⟨[], ?_, iff_of_true rfl fun h => h⟩
    rw [List.append_nil]
    refine ⟨h.accounts.congr hcount, fun a ha => h.isOpen a (ha.imp_left fun ha => ?_), h.roomy,
      forall_moveConstruct sound_moveConstruct hc h.sound⟩
    have hcount' : ∀ a, (Framework.held Owner.handles c).count a + ([] : List Handle).count a =
        x.held.count a := hcount
    exact Ledger.mem_of_count hcount' (.inl ha)
  | moveAssign dst src =>
    obtain ⟨c, hc, heq⟩ := Option.map_eq_some_iff.mp hs
    obtain ⟨-, rfl⟩ := Prod.mk.inj heq
    -- what the target held is in no hand any more, though still open
    have hcount := count_moveAssign Owner.moves hc
    refine ⟨overwritten Owner.handles x.cells dst src, ⟨h.accounts.lose hcount, ?_, h.roomy,
      forall_moveAssign sound_moveAssign hc h.sound⟩,
      overwritten_eq_nil_iff (fun o => o.shm.handles_eq_nil_iff) dst src⟩
    rintro a (ha | ha)
    · exact h.isOpen a (.inl (Ledger.mem_of_count hcount (.inl ha)))
    · rcases List.mem_append.mp ha with ha | ha
      · exact h.isOpen a (.inr ha)
      · exact h.isOpen a (.inl (Ledger.mem_of_count hcount (.inr ha)))
  | destroy i =>
    refine ⟨[], ?_, iff_of_true rfl fun h => h⟩
    rw [List.append_nil]
    exact h.destroy hs

/-- What a factory gives back on its way is not held, and not even open, afterwards. -/
theorem Inv.make_released (h : Inv env x lost) {name : String} {size : Nat} {create : Bool}
    {creations : List String} {r : Option PosixIpcError} (hsize : create = true → size ≤ env.limit)
    (hs : x.make env (SharedMemory.openOrCreate name size create) creations = some (r, y)) :
    ∃ t, y.ledger.released = x.ledger.released ++ t ∧ ∀ a ∈ t, a ∉ y.held := by
  obtain ⟨l, hy, -⟩ := h.make hsize hs
  -- all three exits gain something, if only nothing
  have hgains : ∃ z new, Logged.Gains ⟨x.world, x.ledger⟩ z new ∧ y.ledger = z.ledger ∧
      y.world = z.world := by
    have hruns := @SharedMemory.runs_openOrCreate_handles env name size create ⟨x.world, x.ledger⟩
      h.roomy hsize
    rcases make_inv hs with ⟨e, z, hrun, rfl⟩ | ⟨shm, z, hrun, rfl⟩
    · cases hruns.post hrun with
      | failed _ _ hg => exact ⟨z, _, hg, rfl, rfl⟩
      | leaked _ _ _ hg => exact ⟨z, _, hg, rfl, rfl⟩
    · cases hruns.post hrun with
      | opened _ _ _ hg => exact ⟨z, _, hg, rfl, rfl⟩
  obtain ⟨z, new, hg, hl, hw⟩ := hgains
  obtain ⟨t, -, hreleased, ht⟩ := hg.ledger
  refine ⟨t, by rw [hl]; exact hreleased, fun a ha hheld => ht a ha ?_⟩
  rw [← hw]
  exact hy.isOpen a (.inl hheld)

/-- What an operation releases, no object holds any more. -/
theorem Inv.releasesUnheld (h : Inv env x lost) {o : ObjectOp} (ho : o.Fits env.limit) :
    ReleasesUnheld (Objects.step env) Objects.ledger Objects.held x o := by
  intro r y hs
  cases o with
  | openOrCreate name size create => exact h.make_released ho hs
  | «open» name => exact h.make_released (fun hc => absurd hc (by simp)) hs
  -- moves only pass handles on
  | moveConstruct src =>
    obtain ⟨c, -, heq⟩ := Option.map_eq_some_iff.mp hs
    obtain ⟨-, rfl⟩ := Prod.mk.inj heq
    exact ⟨[], (List.append_nil _).symm, fun a ha => absurd ha List.not_mem_nil⟩
  | moveAssign dst src =>
    obtain ⟨c, -, heq⟩ := Option.map_eq_some_iff.mp hs
    obtain ⟨-, rfl⟩ := Prod.mk.inj heq
    exact ⟨[], (List.append_nil _).symm, fun a ha => absurd ha List.not_mem_nil⟩
  | destroy i =>
    obtain ⟨o, z, hlive, hrun, rfl⟩ := destroy_inv hs
    obtain ⟨-, hl, -⟩ :=
      (SharedMemory.runs_destroy_handles (h.sound i o hlive) h.roomy).post hrun
    -- what the destructor releases was held by the object that goes
    refine ⟨o.handles, by rw [hl]; rfl, fun a ha => ?_⟩
    exact h.accounts.not_mem (fun b => count_held_set _ hlive none b) ha

/-- Every factory returns. -/
theorem make_isSome {name : String} {size : Nat} {create : Bool} {creations : List String} :
    (x.make env (SharedMemory.openOrCreate name size create) creations).isSome := by
  obtain ⟨r, w, hworld, -⟩ :=
    @SharedMemory.runs_openOrCreate_created env name size create x.world
  obtain ⟨z, hrun⟩ := Logged.exists_run (x := ⟨x.world, x.ledger⟩) hworld
  unfold make
  rw [hrun]
  cases r <;> rfl

/-- **Operations are performed** exactly if the objects they are about are there. -/
theorem Inv.step_isSome_iff (h : Inv env x lost) (o : ObjectOp) :
    (x.step env o).isSome ↔ Present x o := by
  cases o with
  | openOrCreate name size create => exact iff_of_true make_isSome trivial
  | «open» name => exact iff_of_true make_isSome trivial
  | moveConstruct src =>
    simp only [Objects.step, Option.isSome_map]
    exact isSome_moveConstruct
  | moveAssign dst src =>
    simp only [Objects.step, Option.isSome_map]
    exact isSome_moveAssign
  -- the destructor itself does not fail
  | destroy i =>
    cases hlive : live x.cells i with
    | none => exact iff_of_false (by simp [Objects.step, hlive]) (by simp [Present, hlive])
    | some o =>
      obtain ⟨z, hstep, -⟩ := @step_destroy env x i o hlive (h.sound i o hlive).created
      exact iff_of_true (by simp [hstep]) (by simp [Present, hlive])

end Objects

open Objects

/-- **Handles.** In every run, from any world with room below the mappings for the objects there are
and those that are created, what is released is held by no object any more; every operation on
objects that are there is performed; and once all objects are destroyed, every descriptor was closed
as often as it was opened and every mapping unmapped as often as it was mapped, exactly if no
operation leaked. -/
theorem handles_released_iff {env : Env} {w : World} {ops : List ObjectOp} {x : Objects}
    (hw : w.Roomy env)
    (hr : Reaches (Objects.step env) (fun _ o => o.Fits env.limit) (Objects.start w) ops x) :
    Along (Objects.step env) (ReleasesUnheld (Objects.step env) Objects.ledger Objects.held)
        (Objects.start w) ops ∧
      (∀ o, (x.step env o).isSome ↔ Present x o) ∧
      ((∀ i, live x.cells i = none) →
        (x.ledger.Settled ↔
          Along (Objects.step env) (fun y o => ¬ Leaks env y o) (Objects.start w) ops)) := by
  obtain ⟨hunheld, lost, hx, hsettled⟩ := books_of_reaches (I := Inv env)
    (fun _ _ h => h.accounts) (fun _ _ _ _ _ h ho hs => h.step ho hs)
    (fun _ _ _ h ho => h.releasesUnheld ho) hr (inv_start hw)
  exact ⟨hunheld, hx.step_isSome_iff, fun hgone => hsettled (held_eq_nil hgone)⟩

/-- An object is moved, another one is assigned to what is left of it and then to itself, and a
third one cannot be opened. -/
def releasingRun : List ObjectOp :=
  [.openOrCreate "/queue" 320 true, .moveConstruct 0, .open "/queue", .moveAssign 0 2,
    .moveAssign 0 0, .open "/other", .destroy 2, .destroy 1, .destroy 0]

/-- Two objects on one name are moved about, and all their handles are released in the end. -/
theorem handles_released_iff_moving :
    ∃ x, World.fresh.Roomy Env.bump ∧
      Reaches (Objects.step Env.bump) (fun _ o => o.Fits Env.bump.limit)
        (Objects.start World.fresh) releasingRun x ∧
      x.ledger.acquired = [.descriptor 3, .mapping (2 ^ 40), .descriptor 4,
        .mapping (2 ^ 41 + 4096)] ∧ x.ledger.Settled := by
  have hends : (follow (Objects.step Env.bump) (Objects.start World.fresh) releasingRun).map
      (fun z => (z.cells, z.ledger.acquired)) = some ([none, none, none],
        [.descriptor 3, .mapping (2 ^ 40), .descriptor 4, .mapping (2 ^ 41 + 4096)]) := by
    decide +kernel
  have hfits : Along (Objects.step Env.bump) (fun _ o => o.Fits Env.bump.limit)
      (Objects.start World.fresh) releasingRun := by
    decide +kernel
  have hroomy : World.fresh.Roomy Env.bump := by decide
  obtain ⟨x, hf, hx⟩ := Option.map_eq_some_iff.mp hends
  obtain ⟨hcells, hacquired⟩ := Prod.mk.inj hx
  have hr := Reaches.of_follow hf hfits
  -- all cells are empty at the end
  have hgone : ∀ i, live x.cells i = none := by
    intro i
    rw [hcells]
    rcases i with _ | _ | _ | i <;> rfl
  exact ⟨x, hroomy, hr, hacquired,
    ((handles_released_iff hroomy hr).2.2 hgone).mpr (by decide +kernel)⟩

/-- Where there is no room, an object loses its mapping when a larger one is created. -/
example : (follow (Objects.step (.upwards 0)) (Objects.start World.fresh)
    [.openOrCreate "/queue" 320 true, .openOrCreate "/other" 8192 true]).map (fun x =>
      (x.held, x.world.process.mappings.map Mapping.addr)) =
    some ([.mapping 4096, .descriptor 3, .mapping 16384, .descriptor 4], [16384]) := by
  decide +kernel

/-- Two objects, of which one is assigned to the other. -/
def forgettingRun : List ObjectOp :=
  [.openOrCreate "/queue" 320 true, .openOrCreate "/other" 320 true, .moveAssign 0 1, .destroy 0,
    .destroy 1]

/-- The descriptor of the object that is assigned to is never closed. -/
theorem handle_lost : ¬ ∀ (env : Env) (w : World) (ops : List ObjectOp) (x : Objects),
    w.Roomy env →
    Reaches (Objects.step env) (fun _ o => o.Fits env.limit) (Objects.start w) ops x →
      (∀ i, live x.cells i = none) → x.ledger.Settled := by
  intro h
  have hends : (follow (Objects.step Env.bump) (Objects.start World.fresh) forgettingRun).map
      (fun z => (z.cells, z.ledger.acquired.count (.descriptor 3),
        z.ledger.released.count (.descriptor 3))) = some ([none, none], 1, 0) := by
    decide +kernel
  have hfits : Along (Objects.step Env.bump) (fun _ o => o.Fits Env.bump.limit)
      (Objects.start World.fresh) forgettingRun := by
    decide +kernel
  obtain ⟨x, hf, hx⟩ := Option.map_eq_some_iff.mp hends
  obtain ⟨hcells, hcounts⟩ := Prod.mk.inj hx
  obtain ⟨hacquired, hreleased⟩ := Prod.mk.inj hcounts
  -- both objects are gone, and the descriptor of the first one is still open
  have hgone : ∀ i, live x.cells i = none := by
    intro i
    rw [hcells]
    rcases i with _ | _ | i <;> rfl
  have hsettled := h Env.bump World.fresh forgettingRun x (by decide)
    (.of_follow hf hfits) hgone (.descriptor 3)
  rw [hacquired, hreleased] at hsettled
  exact absurd hsettled (by decide)

end PosixIpc
