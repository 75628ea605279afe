import PosixIpc.Framework.Ownership
import PosixIpc.Posix.Outcomes

/-!
# Descriptors and mappings

What the operations on shared memory do with the handles of the process. Every system call is
entered in a ledger (`Logged.exec`): a successful `shm_open` acquires a descriptor, a successful
`mmap` a mapping; `close` releases a descriptor, and `munmap` every mapping it takes pages from. A
mapping is known by the address it begins at.

`open_or_create` acquires the descriptor and the mapping of the object it returns, and with an error
it has given back what it acquired. The exception is `create` with size zero, which is refused when
the descriptor is open already (`LeavesOpen`).

The destructor of a moved-from object calls `munmap(nullptr, size)`. In a process whose mappings all
lie behind as many bytes as the objects have (`World.Roomy`) this releases nothing. Where a mapping
begins at a lower address than that, it loses pages, and its owner does not know.
-/

namespace PosixIpc

open Framework SysProg

/-! ### Handles -/

/-- What a process acquires and releases. -/
inductive Handle where
  | descriptor (fd : Nat)
  | mapping (addr : Nat)
  deriving DecidableEq, Repr

/-- The handle a descriptor stands for. -/
def Handle.ofFd : Int → List Handle
  | .ofNat fd => [.descriptor fd]
  | .negSucc _ => []

/-- What a call acquires. -/
def SysCall.acquires : (o : SysCall) → o.Ret → List Handle
  | .shmOpen _ _, .ok fd => [.descriptor fd]
  | .mmap _ _, .ok addr => [.mapping addr]
  | _, _ => []

/-- What a call releases. -/
def SysCall.releases (w : World) : SysCall → List Handle
  | .close fd => Handle.ofFd fd
  | .munmap addr len => (w.process.unmapped addr len).map fun m => .mapping m.addr
  | _ => []

/-- A handle is open. -/
def World.IsOpen (w : World) : Handle → Prop
  | .descriptor fd => w.process.file fd ≠ none
  | .mapping addr => ∃ m ∈ w.process.mappings, m.addr = addr

/-- A world, and the ledger of its process. -/
structure Logged where
  world : World
  ledger : Ledger Handle

namespace Logged

variable {env : Env} {x x₀ y : Logged} {fd i : Nat} {new : List Handle}

/-- Perform a call and enter it in the ledger. -/
def exec (env : Env) (o : SysCall) (x : Logged) : Option (o.Ret × Logged) :=
  match World.exec env o x.world with
  | none => none
  | some (r, w) => some (r, ⟨w, x.ledger.record (o.acquires r) (o.releases x.world)⟩)

/-- A call and its entry in the ledger. -/
theorem exec_eq {o : SysCall} {r : o.Ret} {w : World} (h : World.exec env o x.world = some (r, w)) :
    exec env o x = some (r, ⟨w, x.ledger.record (o.acquires r) (o.releases x.world)⟩) := by
  simp only [exec, h]

/-- The ledger is kept on the side: without it, a run is a run of the calls. -/
theorem run_world {α : Type} {p : SysProg α} {a : α} (h : p.run (exec env) x = some (a, y)) :
    p.run (World.exec env) x.world = some (a, y.world) := by
  refine Prog.run_project (fun o s r s' hs => ?_) h
  unfold exec at hs
  split at hs
  · exact absurd hs (by simp)
  · next r' w he =>
    obtain ⟨rfl, rfl⟩ := Prod.mk.inj (Option.some.inj hs)
    exact he

/-- Keeping the ledger ends no run. -/
theorem exists_run {α : Type} {p : SysProg α} {a : α} {w : World}
    (h : p.run (World.exec env) x.world = some (a, w)) :
    ∃ z, p.run (Logged.exec env) x = some (a, z) := by
  induction p generalizing x with
  | ret b =>
    obtain ⟨rfl, -⟩ := Prod.mk.inj (Option.some.inj h)
    exact ⟨x, rfl⟩
  | step o k ih =>
    obtain ⟨⟨r, w₁⟩, he, hk⟩ := Prog.of_run_step h
    obtain ⟨z, hz⟩ := ih r (x := ⟨w₁, x.ledger.record (o.acquires r) (o.releases x.world)⟩) hk
    exact ⟨z, (Prog.run_step (exec_eq he)).trans hz⟩

/-- From `x` to `y` the handles `new` were acquired, which were not open before; what else was
acquired was released again and is not open; the other handles are as they were, and the mappings
have all their pages. -/
structure Gains (x y : Logged) (new : List Handle) : Prop where
  ledger : ∃ t, (∀ h, y.ledger.acquired.count h =
      x.ledger.acquired.count h + new.count h + t.count h) ∧
    y.ledger.released = x.ledger.released ++ t ∧ ∀ h ∈ t, ¬ y.world.IsOpen h
  nodup : new.Nodup
  fresh : ∀ h ∈ new, ¬ x.world.IsOpen h
  isOpen : ∀ h, y.world.IsOpen h ↔ x.world.IsOpen h ∨ h ∈ new
  mappings : ∀ m ∈ x.world.process.mappings, m ∈ y.world.process.mappings

/-- Between `x₀` and `x`, a descriptor was opened. -/
structure Holding (x₀ x : Logged) (fd i : Nat) : Prop where
  ledger : x.ledger = x₀.ledger.record [.descriptor fd] []
  free : x₀.world.process.file fd = none
  files : ∀ n, x.world.process.file n = if n = fd then some (.shm i) else x₀.world.process.file n
  mappings : x.world.process.mappings = x₀.world.process.mappings

/-- The descriptor that is held leads to the segment. -/
theorem Holding.fileSeg (h : Holding x₀ x fd i) : x.world.process.fileSeg fd = some i :=
  Process.fileSeg_of_file ((h.files fd).trans (if_pos rfl))

theorem Holding.of_process_eq (h : Holding x₀ x fd i) (hl : y.ledger = x.ledger)
    (hp : y.world.process = x.world.process) : Holding x₀ y fd i :=
  ⟨hl.trans h.ledger, h.free, fun n => by rw [hp]; exact h.files n, by rw [hp]; exact h.mappings⟩

/-- Besides what was open at the start, exactly the descriptor is open. -/
theorem Holding.isOpen (h : Holding x₀ x fd i) (a : Handle) :
    x.world.IsOpen a ↔ x₀.world.IsOpen a ∨ a = .descriptor fd := by
  cases a with
  -- only the descriptors have changed
  | descriptor n =>
    simp only [World.IsOpen, h.files n, Handle.descriptor.injEq]
    by_cases hn : n = fd
    · simp [hn]
    · simp [hn]
  | mapping addr => simp [World.IsOpen, h.mappings]

/-- Nothing was acquired. -/
theorem Gains.nothing (hl : y.ledger = x.ledger) (hp : y.world.process = x.world.process) :
    Gains x y [] := by
  refine ⟨⟨[], fun h => by rw [hl]; rfl, by rw [hl, List.append_nil], by simp⟩, List.nodup_nil,
    by simp, fun h => ?_, fun m hm => by rw [hp]; exact hm⟩
  cases h with
  | descriptor n => simp [World.IsOpen, hp]
  | mapping addr => simp [World.IsOpen, hp]

/-- What is open depends on the process only. -/
theorem Gains.of_process_eq (h : Gains x₀ x new) (hl : y.ledger = x.ledger)
    (hp : y.world.process = x.world.process) : Gains x₀ y new := by
  -- which handles are open is told by the tables of the process
  have hopen : ∀ a, y.world.IsOpen a ↔ x.world.IsOpen a := by
    intro a
    cases a with
    | descriptor n => simp only [World.IsOpen, hp]
    | mapping addr => simp only [World.IsOpen, hp]
  obtain ⟨t, hacquired, hreleased, ht⟩ := h.ledger
  refine ⟨⟨t, ?_, ?_, fun a ha hy => ht a ha ((hopen a).mp hy)⟩, h.nodup, h.fresh,
    fun a => (hopen a).trans (h.isOpen a), fun m hm => ?_⟩
  · rw [hl]
    exact hacquired
  · rw [hl]
    exact hreleased
  · rw [hp]
    exact h.mappings m hm

/-- The descriptor stays open. -/
theorem Holding.gains (h : Holding x₀ x fd i) : Gains x₀ x [.descriptor fd] := by
  refine ⟨⟨[], fun a => ?_, by rw [h.ledger]; rfl, by simp⟩, List.nodup_singleton _, ?_, ?_,
    fun m hm => by rw [h.mappings]; exact hm⟩
  · rw [h.ledger, Ledger.acquired_record, List.count_append]
    rfl
  · intro a ha
    obtain rfl := List.mem_singleton.mp ha
    exact fun hopen => hopen h.free
  · intro a
    rw [h.isOpen a, List.mem_singleton]

/-- The descriptor is closed again. -/
theorem Holding.close (h : Holding x₀ x fd i) {calls : Nat} :
    Gains x₀ ⟨⟨x.world.kernel, x.world.process.closeFile fd, calls⟩,
      x.ledger.record [] [.descriptor fd]⟩ [] := by
  have hm : (x.world.process.closeFile fd).mappings = x₀.world.process.mappings :=
    (Process.mappings_closeFile _ _).trans h.mappings
  refine ⟨⟨[.descriptor fd], fun a => ?_, ?_, ?_⟩, List.nodup_nil, by simp, fun a => ?_,
    fun m hmem => by rw [hm]; exact hmem⟩
  · rw [h.ledger]
    simp
  · rw [h.ledger]
    simp
  · -- the one entry that is new is the descriptor, which is closed now
    intro a ha
    obtain rfl := List.mem_singleton.mp ha
    simp [World.IsOpen, Process.file_closeFile]
  · cases a with
    | descriptor n =>
      simp only [World.IsOpen, Process.file_closeFile, h.files n]
      -- it was free before it was opened, so the table is back where it was
      by_cases hn : n = fd
      · simp [hn, h.free]
      · simp [hn]
    | mapping addr => simp [World.IsOpen, hm]

/-- The segment is mapped. -/
theorem Holding.map (h : Holding x₀ x fd i) {m : Mapping} (hm : Placed env x.world m)
    {calls : Nat} :
    Gains x₀ ⟨⟨x.world.kernel, x.world.process.addMapping m hm.paged hm.apart, calls⟩,
      x.ledger.record [.mapping m.addr] []⟩ [.mapping m.addr, .descriptor fd] := by
  have hfresh : ∀ m' ∈ x₀.world.process.mappings, m'.addr ≠ m.addr := by
    intro m' hm' heq
    rw [← h.mappings] at hm'
    exact (hm.apart m' hm').addr_ne hm.paged (x.world.process.paged m' hm') heq.symm
  refine ⟨⟨[], fun a => ?_, ?_, by simp⟩, by simp, fun a ha => ?_, fun a => ?_,
    fun m' hm' => List.mem_cons_of_mem _ (by rw [h.mappings]; exact hm')⟩
  · rw [h.ledger]
    simp only [Ledger.acquired_record, List.count_append, List.count_cons, List.count_nil]
    omega
  · rw [h.ledger]
    simp
  · -- neither was open: the kernel places mappings where there is none
    rcases List.mem_cons.mp ha with rfl | ha
    · rintro ⟨m', hm', heq⟩
      exact hfresh m' hm' heq
    · obtain rfl := List.mem_singleton.mp ha
      exact fun hopen => hopen h.free
  · have hopen := h.isOpen a
    cases a with
    | descriptor n =>
      change x.world.process.file n ≠ none ↔ _
      simpa [World.IsOpen] using hopen
    | mapping b =>
      simp only [World.IsOpen, Process.addMapping, List.mem_cons, h.mappings, List.not_mem_nil,
        Handle.mapping.injEq, or_false, reduceCtorEq]
      constructor
      · rintro ⟨m', rfl | hmem, rfl⟩
        · exact .inr rfl
        · exact .inl ⟨m', hmem, rfl⟩
      · rintro (⟨m', hmem, rfl⟩ | rfl)
        · exact ⟨m', .inr hmem, rfl⟩
        · exact ⟨m, .inl rfl, rfl⟩

end Logged

/-! ### Opening -/

namespace SharedMemory

open Logged

variable {env : Env} {name : String} {size fd i : Nat} {create : Bool} {x x₀ : Logged}

/-- What an object holds: its mapping and its descriptor, in the order of the destructor. -/
def handles (shm : SharedMemory) : List Handle :=
  (if shm.shmPtr = 0 then [] else [.mapping shm.shmPtr]) ++ Handle.ofFd shm.shmFd

/-- The destructor will not remove a name, and unmap what the object holds, if that is anything: the
pointer is that of a mapping, and below the limit there is room for the size. -/
structure Sound (env : Env) (w : World) (shm : SharedMemory) : Prop where
  created : shm.created = false
  size_le : shm.size ≤ env.limit
  mapped : shm.shmPtr ≠ 0 → ∃ i, shm.mapping i ∈ w.process.mappings

/-- An object is sound as long as its mapping is there. -/
theorem Sound.of_mappings {w w' : World} {shm : SharedMemory} (h : shm.Sound env w)
    (hm : ∀ m ∈ w.process.mappings, m.addr = shm.shmPtr → m ∈ w'.process.mappings) :
    shm.Sound env w' := by
  refine ⟨h.created, h.size_le, fun hne => ?_⟩
  obtain ⟨i, hi⟩ := h.mapped hne
  exact ⟨i, hm _ hi rfl⟩

/-- An object's mapping is among its handles unless its address is null. -/
theorem mem_handles_mapping {shm : SharedMemory} (hne : shm.shmPtr ≠ 0) :
    Handle.mapping shm.shmPtr ∈ shm.handles :=
  List.mem_append_left _ (by rw [if_neg hne]; exact List.mem_singleton_self _)

/-- `open_or_create` with `create` opens the object and then refuses size zero. -/
def LeavesOpen (env : Env) (name : String) (size : Nat) (create : Bool) (w : World) : Prop :=
  create = true ∧ size = 0 ∧ env.fault w.calls = none ∧
    (w.kernel.names name = none ∨ env.fault (w.calls + 1) = none)

/-- The exits of `open_or_create`, as far as handles go. -/
inductive HandleOutcome (env : Env) (name : String) (size : Nat) (create : Bool) (x : Logged) :
    Except PosixIpcError SharedMemory → Logged → Prop where
  | failed {y : Logged} (e : PosixIpcError) (hno : ¬ LeavesOpen env name size create x.world)
      (h : Gains x y []) : HandleOutcome env name size create x (.error e) y
  | leaked {y : Logged} (e : PosixIpcError) (fd : Nat)
      (hyes : LeavesOpen env name size create x.world) (h : Gains x y [.descriptor fd]) :
      HandleOutcome env name size create x (.error e) y
  | opened {y : Logged} (shm : SharedMemory) (hno : ¬ LeavesOpen env name size create x.world)
      (hs : shm.Sound env y.world) (h : Gains x y shm.handles) :
      HandleOutcome env name size create x (.ok shm) y

/-- Closing the descriptor on the way out. -/
theorem runs_close_handles {err : PosixIpcError} (hno : ¬ LeavesOpen env name size create x₀.world)
    (h : Holding x₀ x fd i) :
    Runs (Logged.exec env) (SysProg.close fd >>= fun _ => .ret (.error err)) x
      (HandleOutcome env name size create x₀) :=
  Runs.step (exec_eq rfl) (Runs.ret (.failed err hno h.close))

/-- Unmapping the first bytes of the address space where no mapping begins. -/
theorem run_destroy_moved_handles {shm : SharedMemory} (hc : shm.created = false)
    (hroom : ∀ m ∈ x.world.process.mappings, shm.size ≤ m.addr) :
    shm.moveConstruct.2.destroy.run (Logged.exec env) x = some ((), x) := by
  obtain ⟨hunmap, hnone⟩ := Process.unmap_null hroom
  have hexec : Logged.exec env (.munmap 0 shm.size) x = some ((), x) := by
    unfold Logged.exec World.exec SysCall.releases
    simp only [hunmap, hnone]
    exact congrArg some (congrArg (Prod.mk ()) (congrArg (Logged.mk x.world)
      (Ledger.record_nil _)))
  unfold destroy munmap close moveConstruct
  simp only [Prog.step_bind, Prog.ret_bind, hc, Bool.false_eq_true, if_false]
  rw [Prog.run_step hexec]
  exact (Prog.run_step (exec_eq rfl)).trans (congrArg some (congrArg (Prod.mk ())
    (congrArg (Logged.mk x.world) (Ledger.record_nil _))))

/-- An object is moved out, and nothing else happens. -/
theorem run_moveOut_handles {shm : SharedMemory} (hc : shm.created = false)
    (hroom : ∀ m ∈ x.world.process.mappings, shm.size ≤ m.addr) :
    shm.moveOut.run (Logged.exec env) x = some (shm, x) := by
  unfold moveOut
  rw [Prog.run_bind, run_destroy_moved_handles hc hroom]
  rfl

/-- **The handles of the mapping**: the object returned has its own, or all of them are given
back. -/
theorem runs_mapped_handles {len : Nat} (hno : ¬ LeavesOpen env name size create x₀.world)
    (h : Holding x₀ x fd i) (hroom : x₀.world.Roomy env) (hlen : len ≤ env.limit) :
    Runs (Logged.exec env) (mapped name len fd) x (HandleOutcome env name size create x₀) := by
  unfold mapped mmap
  simp only [Prog.step_bind, Prog.ret_bind]
  rcases World.failing_cases env (World.mmap env len fd) x.world with ⟨e, hf, heq⟩ | ⟨hf, heq⟩
  · -- a failed call is entered as nothing
    exact Runs.step (exec_eq (congrArg some heq))
      (runs_close_handles hno (h.of_process_eq (Ledger.record_nil _) rfl))
  · rcases @World.mmap_cases env x.world len fd i h.fileSeg with
      ⟨-, hcall⟩ | ⟨addr, hplaced, hcall⟩
    · rw [hcall] at heq
      exact Runs.step (exec_eq (congrArg some heq))
        (runs_close_handles hno (h.of_process_eq (Ledger.record_nil _) rfl))
    · rw [hcall] at heq
      have hne : addr ≠ 0 := by
        have hlen := hplaced.paged.len_ne
        have hle := hplaced.len_le
        dsimp only at hlen hle
        omega
      have hhandles : handles ⟨name, len, fd, addr, false⟩ = [.mapping addr, .descriptor fd] := by
        simp [handles, Handle.ofFd, hne]
      -- the new mapping lies behind its own length, and the others from the limit on
      refine Runs.step (exec_eq (congrArg some heq)) (Runs.bind (Runs.of_run
        (run_moveOut_handles rfl (List.forall_mem_cons.mpr ⟨hplaced.len_le, fun m hm => ?_⟩))
        (Runs.ret (.opened _ hno ⟨rfl, hlen, fun _ => ⟨i, List.mem_cons_self⟩⟩ ?_))))
      · rw [h.mappings] at hm
        exact hlen.trans (hroom.mappings m hm)
      · rw [hhandles]
        exact h.map hplaced

/-- Once the object is open. -/
theorem runs_sized_handles (h : Holding x₀ x fd i) (hroom : x₀.world.Roomy env)
    (hsize : create = true → size ≤ env.limit)
    (hseg : create = false → (x.world.kernel.segments i).size ≤ env.limit)
    (hopen : create = true → env.fault x₀.world.calls = none ∧
      (x₀.world.kernel.names name = none ∨ env.fault (x₀.world.calls + 1) = none)) :
    Runs (Logged.exec env) (sized name size create fd) x
      (HandleOutcome env name size create x₀) := by
  unfold sized
  cases create with
  | true =>
    simp only [if_true]
    by_cases hz : size = 0
    · -- the way out that leaves the descriptor open
      rw [if_pos hz]
      exact Runs.ret (.leaked _ fd ⟨rfl, hz, hopen rfl⟩ h.gains)
    · rw [if_neg hz]
      have hno : ¬ LeavesOpen env name size true x₀.world := fun hl => hz hl.2.1
      unfold ftruncate
      simp only [Prog.step_bind, Prog.ret_bind]
      rcases World.failing_cases env (World.ftruncate fd size) x.world with
        ⟨e, -, heq⟩ | ⟨-, heq⟩
      · exact Runs.step (exec_eq (congrArg some heq))
          (runs_close_handles hno (h.of_process_eq (Ledger.record_nil _) rfl))
      · by_cases hlt : size < 2 ^ 63
        · rw [World.ftruncate_eq h.fileSeg hlt] at heq
          exact Runs.step (exec_eq (congrArg some heq))
            (runs_mapped_handles hno (h.of_process_eq (Ledger.record_nil _) rfl) hroom
              (hsize rfl))
        · rw [World.ftruncate_negative h.fileSeg hlt] at heq
          exact Runs.step (exec_eq (congrArg some heq))
            (runs_close_handles hno (h.of_process_eq (Ledger.record_nil _) rfl))
  | false =>
    -- without `create` the size is not looked at
    have hno : ¬ LeavesOpen env name size false x₀.world := fun hl => absurd hl.1 (by simp)
    unfold fstat
    simp only [Bool.false_eq_true, if_false, Prog.step_bind, Prog.ret_bind]
    rcases World.failing_cases env (World.fstat fd) x.world with ⟨e, -, heq⟩ | ⟨-, heq⟩
    · exact Runs.step (exec_eq (congrArg some heq))
        (runs_close_handles hno (h.of_process_eq (Ledger.record_nil _) rfl))
    · rw [World.fstat_eq h.fileSeg] at heq
      exact Runs.step (exec_eq (congrArg some heq))
        (runs_mapped_handles hno (h.of_process_eq (Ledger.record_nil _) rfl) hroom (hseg rfl))

/-- A descriptor that was just opened. -/
theorem holding_openFile (x : Logged) {l : Ledger Handle} (hl : l = x.ledger) {k : Kernel}
    {calls : Nat} :
    Holding x ⟨⟨k, (x.world.process.openFile i).2, calls⟩,
      l.record [.descriptor (x.world.process.openFile i).1] []⟩
      (x.world.process.openFile i).1 i :=
  ⟨by rw [hl], Process.file_openFile_fst _ _, Process.file_openFile _ _, rfl⟩

/-- **The handles of `open_or_create`** with `create`. -/
theorem runs_create_handles (hroom : x.world.Roomy env) (hsize : size ≤ env.limit) :
    Runs (Logged.exec env) (openOrCreate name size true) x
      (HandleOutcome env name size true x) := by
  unfold openOrCreate shmOpen
  simp only [Prog.step_bind, Prog.ret_bind]
  rcases World.failing_cases env (World.shmOpen name (openFlags true)) x.world with
    ⟨e, hf, heq⟩ | ⟨hf, heq⟩
  · refine Runs.step (exec_eq (congrArg some heq)) ?_
    simp only [if_neg (Env.ne_eexist_of_fault hf)]
    refine Runs.ret (.failed _ ?_ (.nothing (Ledger.record_nil _) rfl))
    -- nothing was opened, so nothing is left open
    rintro ⟨-, -, hn, -⟩
    exact absurd (hf.symm.trans hn) (by simp)
  · cases hb : x.world.kernel.names name with
    | none =>
      rw [World.shmOpen_create hb rfl] at heq
      exact Runs.step (exec_eq (congrArg some heq))
        (runs_sized_handles (holding_openFile x rfl) hroom (fun _ => hsize)
          (fun h => absurd h (by simp)) fun _ => ⟨hf, .inl hb⟩)
    | some i =>
      rw [World.shmOpen_excl hb rfl] at heq
      refine Runs.step (exec_eq (congrArg some heq)) ?_
      simp only [if_true]
      rcases World.failing_cases env (World.shmOpen name { openFlags true with excl := false })
        { x.world with calls := x.world.calls + 1 } with ⟨e, hf', heq'⟩ | ⟨hf', heq'⟩
      · refine Runs.step (exec_eq (congrArg some heq')) (Runs.ret (.failed _ ?_ ?_))
        · rintro ⟨-, -, -, hn | hn⟩
          · exact absurd (hb.symm.trans hn) (by simp)
          · exact absurd (hf'.symm.trans hn) (by simp)
        · exact .nothing ((Ledger.record_nil _).trans (Ledger.record_nil _)) rfl
      · rw [World.shmOpen_bound (w := { x.world with calls := x.world.calls + 1 }) hb rfl] at heq'
        exact Runs.step (exec_eq (congrArg some heq'))
          (runs_sized_handles (holding_openFile x (Ledger.record_nil _)) hroom (fun _ => hsize)
            (fun h => absurd h (by simp)) fun _ => ⟨hf, .inr hf'⟩)

/-- **The handles of `open_or_create`** without `create`, which is `open`. -/
theorem runs_open_handles (hroom : x.world.Roomy env) :
    Runs (Logged.exec env) (openOrCreate name size false) x
      (HandleOutcome env name size false x) := by
  -- only a call that creates can leave a descriptor open
  have hno : ¬ LeavesOpen env name size false x.world := fun hl => absurd hl.1 (by simp)
  unfold openOrCreate shmOpen
  simp only [Prog.step_bind, Prog.ret_bind]
  rcases World.failing_cases env (World.shmOpen name (openFlags false)) x.world with
    ⟨e, hf, heq⟩ | ⟨hf, heq⟩
  · refine Runs.step (exec_eq (congrArg some heq)) ?_
    simp only [if_neg (Env.ne_eexist_of_fault hf)]
    exact Runs.ret (.failed _ hno (.nothing (Ledger.record_nil _) rfl))
  · cases hb : x.world.kernel.names name with
    | none =>
      rw [World.shmOpen_missing hb rfl] at heq
      refine Runs.step (exec_eq (congrArg some heq)) ?_
      exact Runs.ret (.failed _ hno (.nothing (Ledger.record_nil _) rfl))
    | some i =>
      -- the mapping has the size of the segment, for which there is room
      rw [World.shmOpen_bound hb rfl] at heq
      exact Runs.step (exec_eq (congrArg some heq))
        (runs_sized_handles (holding_openFile x rfl) hroom (fun h => absurd h (by simp))
          (fun _ => hroom.within i (x.world.kernel.names_lt name i hb)) fun h => absurd h (by simp))

/-- **The handles of `open_or_create`.** -/
theorem runs_openOrCreate_handles (hroom : x.world.Roomy env)
    (hsize : create = true → size ≤ env.limit) :
    Runs (Logged.exec env) (openOrCreate name size create) x
      (HandleOutcome env name size create x) := by
  cases create with
  | true => exact runs_create_handles hroom (hsize rfl)
  | false => exact runs_open_handles hroom

/-- `open_or_create` returns, and the object it returns does not own the name. -/
theorem runs_openOrCreate_created {w : World} :
    Runs (World.exec env) (openOrCreate name size create) w fun r _ =>
      ∀ shm, r = .ok shm → shm.created = false := by
  cases create with
  | true =>
    refine runs_openOrCreate.mono fun r _ h shm hshm => ?_
    obtain ⟨i, ho, -⟩ := h.opened shm hshm
    exact ho.created
  | false =>
    refine runs_open.mono fun r _ h shm hshm => ?_
    obtain ⟨i, -, ho, -⟩ := h.opened shm hshm
    exact ho.created

theorem all_sizes_destroy (shm : SharedMemory) (limit : Nat) :
    shm.destroy.All (SysCall.Sizes limit) fun _ => True := by
  refine ⟨trivial, fun _ => ?_⟩
  change Prog.All _ _ (ite (shm.created = true) _ _)
  split
  · exact ⟨trivial, fun _ => ⟨trivial, fun _ => trivial⟩⟩
  · exact ⟨trivial, fun _ => trivial⟩

theorem all_sizes_moveOut (shm : SharedMemory) (limit : Nat) :
    shm.moveOut.All (SysCall.Sizes limit) fun _ => True :=
  ((all_sizes_destroy _ limit).mono fun _ _ => trivial).bind

/-- `open_or_create` gives an object no other size than the one it is asked for. -/
theorem all_sizes_openOrCreate {limit : Nat} (hsize : create = true → size ≤ limit) :
    (openOrCreate name size create).All (SysCall.Sizes limit) fun _ => True := by
  -- mapping resizes nothing
  have hmapped : ∀ len fd, (mapped name len fd).All (SysCall.Sizes limit) fun _ => True := by
    intro len fd
    refine ⟨trivial, fun r => ?_⟩
    cases r with
    | error e => exact ⟨trivial, fun _ => trivial⟩
    | ok ptr => exact ((all_sizes_moveOut _ limit).mono fun _ _ => trivial).bind
  have hsized : ∀ fd, (sized name size create fd).All (SysCall.Sizes limit) fun _ => True := by
    intro fd
    unfold sized
    split
    · next hc =>
      split
      · exact trivial
      · -- the only resize there is
        refine ⟨hsize hc, fun r => ?_⟩
        cases r with
        | error e => exact ⟨trivial, fun _ => trivial⟩
        | ok u => exact hmapped _ _
    · refine ⟨trivial, fun r => ?_⟩
      cases r with
      | error e => exact ⟨trivial, fun _ => trivial⟩
      | ok stSize => exact hmapped _ _
  refine ⟨trivial, fun r => ?_⟩
  cases r with
  | ok fd => exact hsized fd
  | error e =>
    change Prog.All _ _ (ite (e = .eexist) _ _)
    split
    · refine ⟨trivial, fun r => ?_⟩
      cases r with
      | ok fd => exact hsized fd
      | error e' => exact trivial
    · exact trivial

/-! ### Moving and destroying -/

/-- An object holds nothing exactly if its address is null and its descriptor negative. -/
theorem handles_eq_nil_iff (shm : SharedMemory) :
    shm.handles = [] ↔ ¬ (shm.shmPtr ≠ 0 ∨ 0 ≤ shm.shmFd) := by
  obtain ⟨name, size, fd, ptr, created⟩ := shm
  cases fd with
  | ofNat n => simp [handles, Handle.ofFd]
  | negSucc n =>
    by_cases hz : ptr = 0
    · simp [handles, Handle.ofFd, hz, Int.negSucc_not_nonneg]
    · simp [handles, hz]

/-- The call of the destructor releases the mapping of the object, and takes pages from no other
one. -/
theorem Sound.unmap {shm : SharedMemory} {w : World} (hs : shm.Sound env w)
    (hroom : w.Roomy env) :
    SysCall.releases w (.munmap shm.shmPtr shm.size) =
        (if shm.shmPtr = 0 then [] else [.mapping shm.shmPtr]) ∧
      ∀ m ∈ w.process.mappings, Handle.mapping m.addr ∉ shm.handles →
        m ∈ (w.process.unmap shm.shmPtr shm.size).mappings := by
  change (w.process.unmapped shm.shmPtr shm.size).map (fun m => Handle.mapping m.addr) = _ ∧ _
  by_cases hz : shm.shmPtr = 0
  · -- no mapping begins below the limit
    obtain ⟨hunmap, hnone⟩ := Process.unmap_null fun m hm =>
      hs.size_le.trans (hroom.mappings m hm)
    rw [hz, hunmap, hnone]
    exact ⟨rfl, fun m hm _ => hm⟩
  · obtain ⟨i, hi⟩ := hs.mapped hz
    have hself : w.process.unmapped shm.shmPtr shm.size = [shm.mapping i] :=
      Process.unmapped_self hi
    rw [hself, if_neg hz]
    refine ⟨rfl, fun m hm hnot => (Process.mem_unmap_self hi).mpr ⟨hm, ?_⟩⟩
    rintro rfl
    exact hnot (by simp [handles, hz])

/-- Closing a descriptor leaves the other handles open. -/
theorem isOpen_close {w : World} {fd : Int} {h : Handle}
    (hnot : h ∉ Handle.ofFd fd) (hopen : w.IsOpen h) :
    World.IsOpen { w with process := w.process.closeFile fd } h := by
  cases h with
  | descriptor n =>
    cases fd with
    -- a descriptor is another one, or no descriptor at all
    | ofNat m =>
      have hne : n ≠ m := by
        rintro rfl
        exact hnot (List.mem_singleton.mpr rfl)
      change (w.process.closeFile (m : Nat)).file n ≠ none
      rw [Process.file_closeFile, if_neg hne]
      exact hopen
    | negSucc m => exact hopen
  -- a mapping outlives the descriptor it was made with
  | mapping a =>
    obtain ⟨m, hm, haddr⟩ := hopen
    refine ⟨m, ?_, haddr⟩
    change m ∈ (w.process.closeFile fd).mappings
    rw [Process.mappings_closeFile]
    exact hm

/-- The destructor releases what the object holds, and nothing else. -/
theorem runs_destroy_handles {shm : SharedMemory} (hs : shm.Sound env x.world)
    (hroom : x.world.Roomy env) :
    Runs (Logged.exec env) shm.destroy x fun _ y => y.world.kernel = x.world.kernel ∧
      y.ledger = x.ledger.record [] shm.handles ∧
      (∀ h, x.world.IsOpen h → h ∉ shm.handles → y.world.IsOpen h) ∧
      ∀ m ∈ x.world.process.mappings, Handle.mapping m.addr ∉ shm.handles →
        m ∈ y.world.process.mappings := by
  obtain ⟨hreleases, hkept⟩ := hs.unmap hroom
  unfold destroy munmap close
  simp only [Prog.step_bind, Prog.ret_bind, hs.created, Bool.false_eq_true, if_false]
  refine Runs.step (exec_eq rfl) (Runs.step (exec_eq rfl) (Runs.ret ⟨rfl, ?_, ?_, ?_⟩))
  · -- what the two calls release is what the object holds
    rw [hreleases]
    exact Ledger.record_record _ _ _ _ _
  · intro h hopen hnot
    refine isOpen_close (fun hmem => hnot (List.mem_append_right _ hmem)) ?_
    cases h with
    | descriptor n => exact hopen
    | mapping a =>
      obtain ⟨m, hm, rfl⟩ := hopen
      exact ⟨m, hkept m hm hnot, rfl⟩
  · intro m hm hnot
    change m ∈ ((x.world.process.unmap _ _).closeFile _).mappings
    rw [Process.mappings_closeFile]
    exact hkept m hm hnot

end SharedMemory

end PosixIpc
