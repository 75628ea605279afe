import PosixIpc.Posix.Handles
import PosixIpc.PubSub.Subscriber
import PosixIpc.PubSub.Sync

/-!
# Room below the mappings

What is left of a `SharedMemory` that was moved unmaps the pages from the null page on, as many as
the object had. In a process whose mappings leave room for all objects (`World.Roomy`) this concerns
no mapping. The functions of the library give objects no other sizes than the configured ones, so a
process with room goes on having it as long as the configured sizes fit below its mappings; and then
creating a publisher takes no mapping away.
-/

namespace PosixIpc

open Framework SysProg

/-! ### Calls on memory -/

/-- A call on memory that is mapped. -/
def SysCall.OnMemory : SysCall → Prop
  | .construct _ _ | .storage _ | .access _ _ => True
  | _ => False

theorem SysProg.onMemory_through (ptr : Nat) {α : Type} (p : QProg α) :
    (through ptr p).All SysCall.OnMemory fun _ => True := by
  induction p with
  | ret a => exact trivial
  | step o k ih => exact ⟨trivial, ih⟩

/-- Such a call sizes no object. -/
theorem SysCall.OnMemory.sizes {limit : Nat} {o : SysCall} (h : o.OnMemory) : o.Sizes limit := by
  cases o with
  | ftruncate fd size => exact h.elim
  | _ => exact trivial

/-- Such a call acquires and releases nothing. -/
theorem Logged.exec_onMemory {env : Env} {o : SysCall} (ho : o.OnMemory) {x y : Logged}
    {r : o.Ret} (h : Logged.exec env o x = some (r, y)) : y.ledger = x.ledger ∧
      y.world.process = x.world.process ∧ World.exec env o x.world = some (r, y.world) := by
  unfold Logged.exec at h
  split at h
  · exact absurd h (by simp)
  · next r' w he =>
    obtain ⟨rfl, rfl⟩ := Prod.mk.inj (Option.some.inj h)
    -- no call on memory opens, maps or releases anything, so nothing is put into the ledger
    cases o with
    | construct ptr n =>
      obtain ⟨i, m, -, hp⟩ := World.construct_inv he
      exact ⟨Ledger.record_nil _, hp, he⟩
    | storage ptr =>
      obtain rfl := World.storage_inv he
      exact ⟨Ledger.record_nil _, rfl, he⟩
    | access ptr o =>
      refine ⟨Ledger.record_nil _, ?_, he⟩
      simp only [World.exec] at he
      split at he
      · exact absurd he (by simp)
      · split at he
        · exact absurd he (by simp)
        · obtain ⟨-, rfl⟩ := Prod.mk.inj (Option.some.inj he)
          rfl
    | shmOpen name flags => exact ho.elim
    | ftruncate fd size => exact ho.elim
    | fstat fd => exact ho.elim
    | mmap len fd => exact ho.elim
    | munmap addr len => exact ho.elim
    | close fd => exact ho.elim
    | shmUnlink name => exact ho.elim

theorem Subscriber.onMemory_mapStorage (ptr len : Nat) :
    (Subscriber.mapStorage ptr len).All SysCall.OnMemory fun _ => True := by
  unfold Subscriber.mapStorage
  split
  · exact trivial
  · exact ⟨trivial, fun _ => trivial⟩

theorem PubSub.onMemory_publishAll (val : Message) (l : List Publisher) (published : Bool) :
    (publishAll val l published).All SysCall.OnMemory fun _ => True := by
  induction l generalizing published with
  | nil => exact trivial
  | cons p l ih =>
    have hone : (p.publish val).All SysCall.OnMemory fun _ => True := by
      unfold Publisher.publish
      split
      · exact SysProg.onMemory_through _ _
      · exact ⟨trivial, fun s => SysProg.onMemory_through _ _⟩
    exact Prog.All.bind (hone.mono fun ok _ => ih (published && ok))

/-! ### Sizes -/

variable {limit : Nat}

theorem SharedMemory.all_sizes_exists (name : String) :
    (SharedMemory.exists name).All (SysCall.Sizes limit) fun _ => True := by
  refine ⟨trivial, fun r => ?_⟩
  cases r with
  | error e => exact trivial
  | ok fd =>
    change Prog.All _ _ (ite (0 < fd) _ _)
    split
    · exact ⟨trivial, fun _ => ⟨trivial, fun _ => trivial⟩⟩
    · exact trivial

namespace Publisher

theorem all_sizes_release (old : Option SharedMemory) :
    (release old).All (SysCall.Sizes limit) fun _ => True := by
  cases old with
  | none => exact trivial
  | some shm => exact SharedMemory.all_sizes_destroy shm limit

/-- Creating a publisher's segment gives it the configured size. -/
theorem all_sizes_recreate {config : PubSubConfig} (hfit : config.storageSizeBytes ≤ limit)
    (old : Option SharedMemory) :
    (recreate config old).All (SysCall.Sizes limit) fun _ => True := by
  refine Prog.All.bind ((SharedMemory.all_sizes_openOrCreate fun _ => hfit).mono fun r _ => ?_)
  cases r with
  | error e => exact Prog.All.bind ((all_sizes_release old).mono fun _ _ => trivial)
  | ok res =>
    refine Prog.All.bind ((all_sizes_release old).mono fun _ _ => ?_)
    refine Prog.All.bind ((SharedMemory.all_sizes_moveOut res limit).mono fun _ _ => ?_)
    exact ⟨trivial, fun _ => ⟨trivial, fun _ => trivial⟩⟩

/-- **`Publisher::from_config`** sizes an object as configured. -/
theorem all_sizes_fromConfig {config : PubSubConfig} (hfit : config.storageSizeBytes ≤ limit) :
    (fromConfig config).All (SysCall.Sizes limit) fun _ => True := by
  refine Prog.All.bind ((SharedMemory.all_sizes_exists _).mono fun found _ => ?_)
  cases found with
  | false => exact all_sizes_recreate hfit none
  | true =>
    refine Prog.All.bind ((SharedMemory.all_sizes_openOrCreate
      fun h => absurd h (by simp)).mono fun r _ => ?_)
    cases r with
    | error e => exact trivial
    | ok res =>
      refine Prog.All.bind ((SharedMemory.all_sizes_moveOut res limit).mono fun shm _ => ?_)
      split
      · exact all_sizes_recreate hfit (some shm)
      · exact ⟨trivial, fun _ => trivial⟩

end Publisher

namespace PubSub

theorem all_sizes_eraseName (name : String) (l : List Publisher) :
    (eraseName name l).All (SysCall.Sizes limit) fun _ => True := by
  induction l with
  | nil => exact trivial
  | cons p l ih =>
    unfold eraseName
    split
    · rw [eraseFrom_eq]
      exact Prog.All.bind ((Publisher.all_sizes_release p.shm).mono fun _ _ => trivial)
    · exact Prog.All.bind (ih.mono fun _ _ => trivial)

/-- Applying the changes resizes nothing: the publishers have been made when they were queued. -/
theorem all_sizes_applyAll (changes : List PubSubChange) (l : List Publisher) :
    (applyAll changes l).All (SysCall.Sizes limit) fun _ => True := by
  induction changes generalizing l with
  | nil => exact trivial
  | cons change rest ih =>
    refine Prog.All.bind (Prog.All.mono (Q := fun _ => True) ?_ fun l' _ => ih l')
    unfold applyChange
    split
    · exact trivial
    · split
      · exact all_sizes_eraseName _ l
      · exact trivial

/-- Queueing the additions gives segments the sizes that are configured. -/
theorem all_sizes_queueAdditions {configs : List PubSubConfig} (x : PubSub)
    (hfit : ∀ cfg ∈ configs, cfg.storageSizeBytes ≤ limit) :
    (queueAdditions configs x).All (SysCall.Sizes limit) fun _ => True := by
  induction configs generalizing x with
  | nil => exact trivial
  | cons cfg rest ih =>
    obtain ⟨hcfg, hrest⟩ := List.forall_mem_cons.mp hfit
    unfold queueAdditions
    split
    · exact ih x hrest
    · refine Prog.All.bind ((Publisher.all_sizes_fromConfig hcfg).mono fun r _ => ?_)
      cases r with
      | error e => exact trivial
      | ok p => exact ih _ hrest

/-- **`sync_configs`** sizes objects as configured, whatever is in the queue of changes. -/
theorem all_sizes_syncConfigs {configs : List PubSubConfig} (x : PubSub)
    (hfit : ∀ cfg ∈ configs, cfg.storageSizeBytes ≤ limit) :
    (syncConfigs configs x).All (SysCall.Sizes limit) fun _ => True := by
  refine Prog.All.bind ((all_sizes_queueAdditions _ hfit).mono fun z _ => ?_)
  obtain ⟨r, x'⟩ := z
  cases r with
  | error e => exact trivial
  | ok u =>
    refine Prog.All.bind (Prog.All.mono (Q := fun _ => True) ?_ fun _ _ => trivial)
    exact Prog.All.bind ((all_sizes_applyAll _ _).mono fun _ _ => trivial)

end PubSub

/-! ### Creating publishers where there is room -/

section Creating

variable {env : Env} {w w' : World}

/-- Below the limit there is room for what `from_config` meets. -/
theorem World.Roomy.room {config : PubSubConfig} (hw : w.Roomy env)
    (hfit : config.storageSizeBytes ≤ env.limit) : Room config w env.limit :=
  ⟨hfit, fun i hi => hw.within i (w.kernel.names_lt _ i hi)⟩

/-- **A publisher** is created in a process with room. -/
theorem Publisher.roomy_of_fromConfig {config : PubSubConfig} (hw : w.Roomy env)
    (hfit : config.storageSizeBytes ≤ env.limit) {r : Except PosixIpcError Publisher}
    (h : (fromConfig config).run (World.exec env) w = some (r, w')) :
    w'.Roomy env ∧ ∀ m ∈ w.process.mappings, m ∈ w'.process.mappings :=
  ⟨hw.run (all_sizes_fromConfig hfit) h, fun m hm =>
    (runs_fromConfig.post h).kept env.limit (hw.room hfit) m hm (hw.mappings m hm)⟩

/-- **Publishers** are created one after the other in a process with room. -/
theorem PubSub.Created.roomy {cfgs : List PubSubConfig} {added : List Publisher}
    (h : Created env w cfgs added w') (hw : w.Roomy env)
    (hfit : ∀ cfg ∈ cfgs, cfg.storageSizeBytes ≤ env.limit) :
    w'.Roomy env ∧ ∀ m ∈ w.process.mappings, m ∈ w'.process.mappings := by
  induction h with
  | nil w => exact ⟨hw, fun m hm => hm⟩
  | cons hrun _ ih =>
    obtain ⟨hcfg, hrest⟩ := List.forall_mem_cons.mp hfit
    obtain ⟨hw₁, hm₁⟩ := Publisher.roomy_of_fromConfig hw hcfg hrun
    obtain ⟨hw', hm'⟩ := ih hw₁ hrest
    exact ⟨hw', fun m hm => hm' m (hm₁ m hm)⟩

end Creating

end PosixIpc
