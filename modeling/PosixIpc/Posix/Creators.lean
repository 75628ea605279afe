import PosixIpc.Posix.Objects

/-!
# Who removes a name

The destructor unlinks the name of an object with `created_`, the owner, and `created_` moves with
the object. But `open_or_create` never sets it: it is false at first, and set to false again where
the name exists already. So no object ever removes a name.

In terms of who received the ownership of a name (`Owner.creations`), half of what the destructor is
for holds in every run: the name stays bound as long as the object is there, and destroying any
other object, moved-from or merely opened, unbinds nothing. The other half fails whenever it
applies: the name is still bound when its owner has been destroyed (`names_removed_iff`).
-/

namespace PosixIpc

open Framework

namespace Objects

variable {env : Env} {x y : Objects} {r : Option PosixIpcError}

/-- The names that objects own are bound. -/
def OwnersBound (x : Objects) : Prop :=
  ∀ i c, live x.cells i = some c → ∀ a ∈ c.creations, x.world.kernel.names a ≠ none

/-- An operation treats names as it should: those that objects own stay bound while the objects are
there, and destroying an object unbinds the names it owns, and no others. -/
def Lawful (env : Env) (x : Objects) (o : ObjectOp) : Prop :=
  ∀ r y, x.step env o = some (r, y) → OwnersBound y ∧
    ∀ i c, o = .destroy i → live x.cells i = some c →
      (∀ a ∈ c.creations, y.world.kernel.names a = none) ∧
      ∀ a, a ∉ c.creations → x.world.kernel.names a ≠ none → y.world.kernel.names a ≠ none

/-- An object that owns a name is destroyed. -/
def DestroysOwner (x : Objects) : ObjectOp → Prop
  | .destroy i => ∃ c ∈ live x.cells i, c.creations ≠ []
  | _ => False

/-- An object that will not remove a name, and whose names are bound. -/
def Keeps (k : Kernel) (c : Owner) : Prop :=
  c.shm.created = false ∧ ∀ a ∈ c.creations, k.names a ≠ none

theorem keeps_moveConstruct {k : Kernel} (c : Owner) (h : Keeps k c) :
    Keeps k c.moveConstruct.1 ∧ Keeps k c.moveConstruct.2 :=
  ⟨h, h.1, fun _ ha => absurd ha List.not_mem_nil⟩

theorem keeps_moveAssign {k : Kernel} (d c : Owner) (hd : Keeps k d) (hc : Keeps k c) :
    Keeps k (d.moveAssign c).1 ∧ Keeps k (d.moveAssign c).2 := by
  refine ⟨⟨hc.1, fun a ha => ?_⟩, hc.1, fun _ ha => absurd ha List.not_mem_nil⟩
  -- what it owned before it still owns
  rcases List.mem_append.mp ha with ha | ha
  · exact hd.2 a ha
  · exact hc.2 a ha

/-- All objects are so. -/
def AllKeep (x : Objects) : Prop := ∀ i c, live x.cells i = some c → Keeps x.world.kernel c

/-- Owners whose names stay bound, by number. -/
theorem AllKeep.ownersBound (h : AllKeep x) : OwnersBound x := fun i c hc => (h i c hc).2

/-- Nothing is owned at the start. -/
theorem allKeep_start (w : World) : AllKeep (start w) :=
  fun i c h => absurd h (by simp [start, live])

/-! ### One operation -/

/-- What `open_or_create` does to names. -/
theorem names_of_openOrCreate {name : String} {size : Nat} {create : Bool} {w w' : World}
    {res : Except PosixIpcError SharedMemory}
    (h : (SharedMemory.openOrCreate name size create).run (World.exec env) w = some (res, w')) :
    (∀ a, w.kernel.names a ≠ none → w'.kernel.names a ≠ none) ∧
      (create = true → ∀ shm, res = .ok shm → w'.kernel.names name ≠ none) := by
  cases create with
  | true =>
    have hbound := (SharedMemory.runs_create_outcome.post h).bound
    exact ⟨hbound.1, fun _ => hbound.2⟩
  | false =>
    -- without `create` no call changes a name
    have hk : w'.kernel = w.kernel := by
      cases SharedMemory.runs_open_outcome.post h with
      | failed _ _ _ hk _ => exact hk
      | opened _ _ hk _ _ => exact hk
    exact ⟨fun a ha => by rw [hk]; exact ha, fun hc => absurd hc (by simp)⟩

/-- **Making an object** keeps the names of the owners there were. -/
theorem AllKeep.make (h : AllKeep x) {name : String} {size : Nat} {create : Bool}
    {creations : List String} (hc : ∀ a ∈ creations, create = true ∧ a = name)
    (hs : x.make env (SharedMemory.openOrCreate name size create) creations = some (r, y)) :
    AllKeep y := by
  -- the objects that were there, with at least the names bound that were
  have hold : ∀ z : Logged, (∀ a, x.world.kernel.names a ≠ none →
      z.world.kernel.names a ≠ none) → ∀ i c, live x.cells i = some c → Keeps z.world.kernel c :=
    fun z hz i c hi => ⟨(h i c hi).1, fun a ha => hz a ((h i c hi).2 a ha)⟩
  rcases make_inv hs with ⟨e, z, hrun, rfl⟩ | ⟨shm, z, hrun, rfl⟩
  · exact hold z (names_of_openOrCreate (Logged.run_world hrun)).1
  · obtain ⟨hkept, hbound⟩ := names_of_openOrCreate (Logged.run_world hrun)
    intro i c hi
    rcases mem_of_live_append hi with hi | rfl
    · exact hold z hkept i c hi
    · -- the new object
      have hcreated := SharedMemory.runs_openOrCreate_created.post (Logged.run_world hrun) shm rfl
      refine ⟨hcreated, fun a ha => ?_⟩
      obtain ⟨hcreate, rfl⟩ := hc a ha
      exact hbound hcreate shm rfl

/-- **One operation** keeps the names bound that objects own. -/
theorem AllKeep.step (h : AllKeep x) {o : ObjectOp} (hs : x.step env o = some (r, y)) :
    AllKeep y := by
  cases o with
  | openOrCreate name size create =>
    refine h.make (fun a ha => ?_) hs
    -- the name counts as created only if it was not bound before
    split at ha
    · next hc => exact ⟨hc.1, List.mem_singleton.mp ha⟩
    · exact absurd ha List.not_mem_nil
  | «open» name => exact h.make (fun a ha => absurd ha List.not_mem_nil) hs
  | moveConstruct src =>
    obtain ⟨c, hc, heq⟩ := Option.map_eq_some_iff.mp hs
    obtain ⟨-, rfl⟩ := Prod.mk.inj heq
    exact forall_moveConstruct keeps_moveConstruct hc h
  | moveAssign dst src =>
    obtain ⟨c, hc, heq⟩ := Option.map_eq_some_iff.mp hs
    obtain ⟨-, rfl⟩ := Prod.mk.inj heq
    exact forall_moveAssign keeps_moveAssign hc h
  | destroy i =>
    obtain ⟨c, z, hlive, hrun, rfl⟩ := destroy_inv hs
    have hk := kernel_of_destroy (h _ c hlive).1 hrun
    -- the destructor of an object without `created_` unlinks nothing
    unfold AllKeep
    rw [hk]
    exact forall_set (fun c hc => absurd hc (by simp)) h

/-- Where no object will remove a name, an operation is lawful exactly if it does not destroy an
owner. -/
theorem AllKeep.lawful_iff (h : AllKeep x) (o : ObjectOp) :
    Lawful env x o ↔ ¬ DestroysOwner x o := by
  constructor
  · intro hlaw hdestroys
    cases o with
    | destroy i =>
      -- the name is bound, and stays so
      obtain ⟨c, hlive, hne⟩ := hdestroys
      obtain ⟨a, ha⟩ := List.exists_mem_of_ne_nil _ hne
      obtain ⟨hcreated, hbound⟩ := h i c hlive
      obtain ⟨z, hstep, hk⟩ := @step_destroy env x i c hlive hcreated
      have hgone := ((hlaw _ _ hstep).2 i c rfl hlive).1 a ha
      rw [hk] at hgone
      exact hbound a ha hgone
    | openOrCreate _ _ _ | «open» _ | moveConstruct _ | moveAssign _ _ => exact hdestroys
  · intro hno r y hs
    refine ⟨(h.step hs).ownersBound, ?_⟩
    rintro i c rfl hlive
    obtain ⟨d, z, hlive', hrun, rfl⟩ := destroy_inv hs
    have hk := kernel_of_destroy (h _ d hlive').1 hrun
    refine ⟨fun a ha => absurd ⟨c, hlive, List.ne_nil_of_mem ha⟩ hno, fun a _ ha => ?_⟩
    rw [hk]
    exact ha

end Objects

open Objects

end PosixIpc
