import Mathlib.Algebra.Order.BigOperators.Group.List
import Mathlib.Algebra.Order.Group.Nat
import PosixIpc.Posix.Specs

/-!
# Outcomes of the operations on shared memory

What `exists`, `open` and `open_or_create` do to the two tables, the names with their segments and
the descriptors of the process, as a function of the calls that fail. `Specs` says what they may
touch; here every exit is told apart.

* `Kernel.Same k k'`: the names, and the sizes and bytes of the segments there are, are the same.
  Segments may have come and gone meanwhile.
* `Process.SameFiles p p'`: the same files are open as the same descriptors.
* `OpenOutcome` and `CreateOutcome` are the exits of `open` and of `open_or_create` with `create`.
  Only the latter change the names and segments, and by the time `open_or_create` finds out that it
  cannot go on, it has bound the name or emptied the segment.
-/

namespace PosixIpc

open Framework SysProg

/-! ### Descriptors -/

namespace Process

variable {p p' : Process} {i n : Nat}

/-- The file open as a descriptor. -/
def file (p : Process) (n : Nat) : Option File := p.files[n]?.join

/-- The same files are open as the same descriptors. -/
def SameFiles (p p' : Process) : Prop := ∀ n, p'.file n = p.file n

theorem SameFiles.refl (p : Process) : SameFiles p p := fun _ => rfl

/-- The new descriptor, and the others as they were. -/
theorem join_allocate (f : File) (l : List (Option File)) (n : Nat) :
    (allocate f l).2[n]?.join = if n = (allocate f l).1 then some f else l[n]?.join := by
  -- by the recursion of `allocate`, past the descriptors in use
  induction l generalizing n with
  | nil => cases n <;> rfl
  | cons g rest ih =>
    cases g with
    | none => cases n <;> rfl
    | some g =>
      cases n with
      | zero => rfl
      | succ n =>
        simp only [allocate, List.getElem?_cons_succ, ih n, Nat.succ_inj]

/-- Descriptors are allocated where none is in use. -/
theorem join_allocate_fst (f : File) (l : List (Option File)) :
    l[(allocate f l).1]?.join = none := by
  induction l with
  | nil => rfl
  | cons g rest ih =>
    cases g with
    | none => rfl
    | some g => exact ih

/-- A descriptor leads to the segment whose file is open as it. -/
theorem fileSeg_of_file (h : p.file n = some (.shm i)) : p.fileSeg (n : Nat) = some i := by
  have hfile : p.files[n]? = some (some (.shm i)) := Option.join_eq_some_iff.mp h
  change p.fileSeg (.ofNat n) = some i
  simp only [fileSeg, hfile]

theorem file_openFile (p : Process) (i n : Nat) :
    (p.openFile i).2.file n = if n = (p.openFile i).1 then some (.shm i) else p.file n :=
  join_allocate (.shm i) p.files n

theorem file_openFile_fst (p : Process) (i : Nat) : p.file (p.openFile i).1 = none :=
  join_allocate_fst (.shm i) p.files

/-- The lowest free descriptor is 0 exactly if that one is free. -/
theorem openFile_fst_pos (h : p.file 0 ≠ none) : 0 < (p.openFile i).1 := by
  refine Nat.pos_of_ne_zero fun hz => h ?_
  rw [← hz]
  exact file_openFile_fst p i

/-- Descriptor 0 is given away first, if it is free. -/
theorem openFile_fst_zero (h : p.file 0 = none) : (p.openFile i).1 = 0 := by
  obtain ⟨files, mappings, nodup⟩ := p
  change (allocate (.shm i) files).1 = 0
  cases files with
  | nil => rfl
  | cons g rest =>
    cases g with
    | none => rfl
    | some g => exact absurd h (by simp [file])

theorem file_closeFile (p : Process) (m n : Nat) :
    (p.closeFile m).file n = if n = m then none else p.file n := by
  change (p.files.set m none)[n]?.join = if n = m then none else p.files[n]?.join
  by_cases h : n = m
  · subst h
    rw [if_pos rfl, List.getElem?_set_self']
    cases p.files[n]? <;> rfl
  · rw [if_neg h, List.getElem?_set_ne (Ne.symm h)]

/-- Closing what was just opened. -/
theorem SameFiles.close (h : ∀ n, p'.file n = (p.openFile i).2.file n) :
    SameFiles p (p'.closeFile ((p.openFile i).1 : Nat)) := by
  intro n
  rw [file_closeFile, h n, file_openFile]
  -- the descriptor was free, and all others are untouched
  split
  · next hn =>
    rw [hn]
    exact (file_openFile_fst p i).symm
  · rfl

end Process

/-! ### Names and segments -/

namespace Kernel

variable {k k' : Kernel} {name : String} {i : Nat}

/-- The names, and the sizes and bytes of the segments of `k`, are the same in `k'`. -/
structure Same (k k' : Kernel) : Prop where
  names : ∀ a, k'.names a = k.names a
  next : k.next ≤ k'.next
  size : ∀ i, i < k.next → (k'.segments i).size = (k.segments i).size
  bytes : ∀ i, i < k.next → ∀ j, j < (k.segments i).size →
    (k'.segments i).bytes j = (k.segments i).bytes j

theorem Same.of_eq (h : k' = k) : Same k k' := by
  subst h
  exact ⟨fun _ => rfl, le_refl _, fun _ _ => rfl, fun _ _ _ _ => rfl⟩

/-- A name that was not bound is bound. -/
theorem not_same_of_bound (hb : k.names name = none) (hb' : k'.names name = some i) :
    ¬ Same k k' := by
  intro h
  exact absurd ((h.names name).symm.trans hb') (by rw [hb]; simp)

/-- A probe that is cleaned up. -/
theorem same_unlink_create (hb : k.names name = none) : Same k ((k.create name).unlink name) := by
  refine ⟨fun a => ?_, Nat.le_succ _, fun i hi => ?_, fun i hi j _ => ?_⟩
  · -- bound and unbound again
    change (if shmObject a = shmObject name then none
      else if shmObject a = shmObject name then some k.next else k.names a) = k.names a
    split
    · next ha =>
      rw [k.names_congr ha]
      exact hb.symm
    · rfl
  · exact congrArg Segment.size (if_neg (Nat.ne_of_lt hi))
  · exact congrFun (congrArg Segment.bytes (if_neg (Nat.ne_of_lt hi))) j

/-- Emptying a segment changes nothing exactly if it was empty. -/
theorem same_truncate_zero_iff (h : Same k k') (hi : i < k.next) {hz : 0 < 2 ^ 63} :
    Same k (k'.truncate i 0 hz) ↔ (k.segments i).size = 0 := by
  have hself : (k'.truncate i 0 hz).segments i = (k'.segments i).resize 0 hz := if_pos rfl
  have hother : ∀ j, j ≠ i → (k'.truncate i 0 hz).segments j = k'.segments j := fun j hj => if_neg hj
  constructor
  · -- the segment is empty now, so it has to have been so before
    intro hs
    rw [← hs.size i hi, hself]
    rfl
  · intro hempty
    refine ⟨h.names, h.next, fun j hj => ?_, fun j hj b hb => ?_⟩
    · by_cases hji : j = i
      · rw [hji, hself]
        exact hempty.symm
      · rw [hother j hji]
        exact h.size j hj
    · by_cases hji : j = i
      · rw [hji, hempty] at hb
        exact absurd hb (Nat.not_lt_zero b)
      · rw [hother j hji]
        exact h.bytes j hj b hb

/-- Emptying a segment and giving it a size changes nothing exactly if it had this size and was all
zero. -/
theorem same_retruncate_iff (h : Same k k') (hi : i < k.next) {size : Nat} {hz : 0 < 2 ^ 63}
    {hlt : size < 2 ^ 63} :
    Same k ((k'.truncate i 0 hz).truncate i size hlt) ↔
      (k.segments i).size = size ∧ ∀ j, j < size → (k.segments i).bytes j = 0 := by
  have hself : ((k'.truncate i 0 hz).truncate i size hlt).segments i =
      ((k'.segments i).resize 0 hz).resize size hlt := by
    refine (if_pos rfl).trans ?_
    rw [show (k'.truncate i 0 hz).segments i = (k'.segments i).resize 0 hz from if_pos rfl]
  -- growing from nothing fills with zeros
  have hzero : ∀ b, (((k'.truncate i 0 hz).truncate i size hlt).segments i).bytes b = 0 := by
    intro b
    rw [hself]
    simp [Segment.resize]
  have hother : ∀ j, j ≠ i →
      ((k'.truncate i 0 hz).truncate i size hlt).segments j = k'.segments j :=
    fun j hj => (if_neg hj).trans (if_neg hj)
  constructor
  · intro hs
    have hsize : (k.segments i).size = size := by
      rw [← hs.size i hi, hself]
      rfl
    refine ⟨hsize, fun j hj => ?_⟩
    rw [← hs.bytes i hi j (by rw [hsize]; exact hj)]
    exact hzero j
  · rintro ⟨hsize, hbytes⟩
    refine ⟨h.names, h.next, fun j hj => ?_, fun j hj b hb => ?_⟩
    · by_cases hji : j = i
      · rw [hji, hself]
        exact hsize.symm
      · rw [hother j hji]
        exact h.size j hj
    · by_cases hji : j = i
      · rw [hji] at hb ⊢
        rw [hzero b, hbytes b (by rw [← hsize]; exact hb)]
      · rw [hother j hji]
        exact h.bytes j hj b hb

end Kernel

namespace SharedMemory

variable {env : Env} {name : String} {w : World} {i size : Nat}

/-! ### `exists` -/

/-- The probe fails for want of resources: the name is taken for absent. -/
theorem run_exists_fault {e : Errno} (hf : env.fault w.calls = some e) :
    (SharedMemory.exists name).run (World.exec env) w =
      some (false, { w with calls := w.calls + 1 }) := by
  have hcall : World.exec env (.shmOpen name { creat := true, excl := true }) w =
      some (.error e, { w with calls := w.calls + 1 }) := by
    simp only [World.exec, World.failing, hf]
  unfold SharedMemory.exists shmOpen
  rw [Prog.step_bind, Prog.run_step hcall]
  simp [Env.ne_eexist_of_fault hf]

/-- The probe of a bound name. -/
theorem run_exists_bound (hf : env.fault w.calls = none) (hb : w.kernel.names name = some i) :
    (SharedMemory.exists name).run (World.exec env) w =
      some (true, { w with calls := w.calls + 1 }) := by
  have hcall : World.exec env (.shmOpen name { creat := true, excl := true }) w =
      some (.error .eexist, { w with calls := w.calls + 1 }) := by
    simp only [World.exec, World.failing, hf]
    rw [World.shmOpen_excl hb rfl]
  unfold SharedMemory.exists shmOpen
  rw [Prog.step_bind, Prog.run_step hcall]
  rfl

/-- What the probe of a name that is not bound starts with. -/
theorem exec_probe (hf : env.fault w.calls = none) (hb : w.kernel.names name = none) :
    World.exec env (.shmOpen name { creat := true, excl := true }) w =
      some (.ok (w.process.openFile w.kernel.next).1,
        ⟨w.kernel.create name, (w.process.openFile w.kernel.next).2, w.calls + 1⟩) := by
  simp only [World.exec, World.failing, hf]
  rw [World.shmOpen_create hb rfl]

/-- The probe of a name that is not bound, with descriptor 0 in use: it is cleaned up. -/
theorem run_exists_absent (hf : env.fault w.calls = none) (hb : w.kernel.names name = none)
    (hzero : w.process.file 0 ≠ none) :
    (SharedMemory.exists name).run (World.exec env) w =
      some (false, ⟨(w.kernel.create name).unlink name,
        (w.process.openFile w.kernel.next).2.closeFile ((w.process.openFile w.kernel.next).1 : Nat),
        w.calls + 1⟩) := by
  unfold SharedMemory.exists shmOpen
  rw [Prog.step_bind, Prog.run_step (exec_probe hf hb)]
  simp only [Prog.ret_bind, if_pos (Process.openFile_fst_pos hzero)]
  rfl

/-- The probe of a name that is not bound, with descriptor 0 free: it gets this descriptor and is
taken for a failure. -/
theorem run_exists_leak (hf : env.fault w.calls = none) (hb : w.kernel.names name = none)
    (hzero : w.process.file 0 = none) :
    (SharedMemory.exists name).run (World.exec env) w =
      some (false, ⟨w.kernel.create name, (w.process.openFile w.kernel.next).2,
        w.calls + 1⟩) := by
  unfold SharedMemory.exists shmOpen
  rw [Prog.step_bind, Prog.run_step (exec_probe hf hb)]
  -- `fd > 0` is false
  simp only [Prog.ret_bind, Process.openFile_fst_zero hzero, Nat.lt_irrefl, if_false]
  rfl

/-! ### `open` -/

/-- The name is bound to a segment that is not empty, and none of the three calls fails. -/
def Openable (env : Env) (name : String) (w : World) : Prop :=
  ∃ i, w.kernel.names name = some i ∧ (w.kernel.segments i).size ≠ 0 ∧
    env.fault w.calls = none ∧ env.fault (w.calls + 1) = none ∧ env.fault (w.calls + 2) = none

/-- The exits of `mapped`. -/
inductive MapOutcome (env : Env) (size fd : Nat) (w : World) :
    Except PosixIpcError SharedMemory → World → Prop where
  | failed {w' : World} (e : PosixIpcError) (hno : size = 0 ∨ env.fault w.calls ≠ none)
      (hmsg : ∃ t, e.message = "name=" ++ t) (hk : w'.kernel = w.kernel)
      (hp : w'.process = w.process.closeFile fd) : MapOutcome env size fd w (.error e) w'
  | mapped {w' : World} (shm : SharedMemory) (hz : size ≠ 0) (hf : env.fault w.calls = none)
      (hfd : shm.shmFd = fd) (hk : w'.kernel = w.kernel) (hcalls : w'.calls = w.calls + 1)
      (hfiles : w'.process.files = w.process.files) : MapOutcome env size fd w (.ok shm) w'

/-- The exits of `open`. -/
inductive OpenOutcome (env : Env) (name : String) (w : World) :
    Except PosixIpcError SharedMemory → World → Prop where
  | failed {w' : World} (e : PosixIpcError) (hno : ¬ Openable env name w)
      (hmsg : ∃ t, e.message = "name=" ++ t) (hk : w'.kernel = w.kernel)
      (hfiles : w.process.SameFiles w'.process) : OpenOutcome env name w (.error e) w'
  | opened {w' : World} (shm : SharedMemory) (hyes : Openable env name w)
      (hk : w'.kernel = w.kernel) (hcalls : w'.calls = w.calls + 3)
      (hfiles : w.process.SameFiles (w'.process.closeFile shm.shmFd)) :
      OpenOutcome env name w (.ok shm) w'

/-- The errors of `shm_open` begin with the name, whatever else they say. -/
theorem message_openError (create : Bool) (separator : String) (e : Errno) :
    ∃ t, (openError name size create separator e).message = "name=" ++ t := by
  refine ⟨name ++ ", create=" ++ toString create ++ ", size=" ++ toString size ++ separator ++
    errnoText e, ?_⟩
  simp only [openError, String.append_assoc]

/-- The errors of the other calls begin with the name. -/
theorem message_callError (code : PosixIpcErrorCode) (e : Errno) :
    ∃ t, (callError code name e).message = "name=" ++ t := by
  refine ⟨name ++ ", " ++ errnoText e, ?_⟩
  simp only [callError, String.append_assoc]

/-- **The exits of the mapping.** It fails on an empty segment and where resources do, and closes
the descriptor then. -/
theorem runs_mapped_outcome {fd : Nat} (hfd : w.process.fileSeg fd = some i) :
    Runs (World.exec env) (mapped name size fd) w (MapOutcome env size fd w) := by
  unfold mapped mmap
  simp only [Prog.step_bind, Prog.ret_bind]
  rcases World.failing_cases env (World.mmap env size fd) w with ⟨e, hf, heq⟩ | ⟨hf, heq⟩
  · -- resources failed, which is the second reason there can be
    refine Runs.step (congrArg some heq) (runs_close (.failed _ (.inr ?_) (message_callError _ _)
      rfl rfl))
    rw [hf]
    simp
  · refine Runs.step (congrArg some heq) ?_
    rcases @World.mmap_cases env w size fd i hfd with ⟨hz, hcall⟩ | ⟨addr, hplaced, hcall⟩
    · rw [hcall]
      -- an empty segment cannot be mapped, which is the first
      exact runs_close (.failed _ (.inl hz) (message_callError _ _) rfl rfl)
    · rw [hcall]
      -- moving the object into the result concerns no file
      refine Runs.bind ((runs_moveOut rfl).mono fun shm w' h => Runs.ret ?_)
      obtain ⟨rfl, hk, hfiles, hcalls, -⟩ := h
      exact .mapped _ hplaced.paged.len_ne hf rfl hk hcalls hfiles

/-- **The exits of `open`**, which is `open_or_create` without `create`; the size is not used. -/
theorem runs_open_outcome :
    Runs (World.exec env) (openOrCreate name size false) w (OpenOutcome env name w) := by
  unfold openOrCreate shmOpen
  simp only [Prog.step_bind, Prog.ret_bind]
  rcases World.failing_cases env (World.shmOpen name (openFlags false)) w with
    ⟨e, hf, heq⟩ | ⟨hf, heq⟩
  · -- no `shm_open`
    refine Runs.step (congrArg some heq) ?_
    simp only [if_neg (Env.ne_eexist_of_fault hf)]
    refine Runs.ret (.failed _ ?_ (message_openError _ _ _) rfl (.refl _))
    rintro ⟨i, -, -, hn, -⟩
    exact absurd (hf.symm.trans hn) (by simp)
  · refine Runs.step (congrArg some heq) ?_
    cases hb : w.kernel.names name with
    -- `ENOENT`
    | none =>
      rw [World.shmOpen_missing hb rfl]
      refine Runs.ret (.failed _ ?_ (message_openError _ _ _) rfl (.refl _))
      rintro ⟨i, hi, -⟩
      exact absurd (hb.symm.trans hi) (by simp)
    | some i =>
      rw [World.shmOpen_bound hb rfl]
      have hbound : ∀ j, w.kernel.names name = some j → i = j :=
        fun j hj => Option.some.inj (hb.symm.trans hj)
      have hfd := Process.fileSeg_openFile w.process i
      -- the descriptor is open from here on, and every exit but one closes it
      unfold sized fstat
      simp only [Bool.false_eq_true, if_false, Prog.step_bind, Prog.ret_bind]
      rcases World.failing_cases env (World.fstat ((w.process.openFile i).1 : Nat))
        ⟨w.kernel, (w.process.openFile i).2, w.calls + 1⟩ with ⟨e, hf', heq'⟩ | ⟨hf', heq'⟩
      · refine Runs.step (congrArg some heq') (runs_close (.failed _ ?_ (message_callError _ _)
          rfl (.close fun _ => rfl)))
        rintro ⟨j, -, -, -, hn, -⟩
        exact absurd (hf'.symm.trans hn) (by simp)
      · refine Runs.step (congrArg some heq') ?_
        rw [World.fstat_eq hfd]
        refine (runs_mapped_outcome (w := ⟨w.kernel, (w.process.openFile i).2, w.calls + 2⟩)
          hfd).mono fun r w' h => ?_
        cases h with
        | failed e hno hmsg hk hp =>
          refine .failed e ?_ hmsg hk (by rw [hp]; exact .close fun _ => rfl)
          rintro ⟨j, hj, hz, -, -, hn⟩
          obtain rfl := hbound j hj
          exact hno.elim hz fun h => h hn
        -- the object keeps it
        | mapped shm hz hn hshm hk hcalls hfiles =>
          refine .opened shm ⟨i, hb, hz, hf, hf', hn⟩ hk hcalls ?_
          rw [hshm]
          exact .close fun n => congrArg (fun l => l[n]?.join) hfiles

/-! ### `open_or_create` -/

/-- A segment can be given this size, by a call that does not fail: the size is positive as an
`off_t`. -/
def Sizable (env : Env) (n size : Nat) : Prop :=
  0 < size ∧ size < 2 ^ 63 ∧ env.fault n = none

/-- The exits of `open_or_create` with `create` once the segment `i` is open. -/
inductive SizeOutcome (env : Env) (i size : Nat) (w : World) :
    Except PosixIpcError SharedMemory → World → Prop where
  | refused {w' : World} (e : PosixIpcError) (hno : ¬ Sizable env w.calls size)
      (hk : w'.kernel = w.kernel) : SizeOutcome env i size w (.error e) w'
  | unmapped {w' : World} (e : PosixIpcError) (hs : Sizable env w.calls size)
      (hf : env.fault (w.calls + 1) ≠ none)
      (hk : w'.kernel = w.kernel.truncate i size hs.2.1) : SizeOutcome env i size w (.error e) w'
  | completed {w' : World} (shm : SharedMemory) (hs : Sizable env w.calls size)
      (hf : env.fault (w.calls + 1) = none)
      (hk : w'.kernel = w.kernel.truncate i size hs.2.1) : SizeOutcome env i size w (.ok shm) w'

/-- The exits of `open_or_create` with `create`. -/
inductive CreateOutcome (env : Env) (name : String) (size : Nat) (w : World) :
    Except PosixIpcError SharedMemory → World → Prop where
  | refused {w' : World} (e : PosixIpcError) (hf : env.fault w.calls ≠ none)
      (hk : w'.kernel = w.kernel) : CreateOutcome env name size w (.error e) w'
  | created {r : Except PosixIpcError SharedMemory} {w' : World} (p : Process)
      (hf : env.fault w.calls = none) (hb : w.kernel.names name = none)
      (h : SizeOutcome env w.kernel.next size ⟨w.kernel.create name, p, w.calls + 1⟩ r w') :
      CreateOutcome env name size w r w'
  | locked {w' : World} (e : PosixIpcError) (i : Nat) (hf : env.fault w.calls = none)
      (hb : w.kernel.names name = some i) (hf' : env.fault (w.calls + 1) ≠ none)
      (hk : w'.kernel = w.kernel) : CreateOutcome env name size w (.error e) w'
  | emptied {r : Except PosixIpcError SharedMemory} {w' : World} (p : Process) (i : Nat)
      (hf : env.fault w.calls = none) (hb : w.kernel.names name = some i)
      (hf' : env.fault (w.calls + 1) = none)
      (h : SizeOutcome env i size ⟨w.kernel.truncate i 0 (by decide), p, w.calls + 2⟩ r w') :
      CreateOutcome env name size w r w'

/-- **The exits of `open_or_create`** with `create` once the segment is open: it has been given
its size unless the size was refused. -/
theorem runs_sized_outcome {fd : Nat} (hfd : w.process.fileSeg fd = some i) :
    Runs (World.exec env) (sized name size true fd) w (SizeOutcome env i size w) := by
  unfold sized ftruncate
  simp only [if_true]
  by_cases hz : size = 0
  · -- the size is looked at after the segment was opened
    rw [if_pos hz]
    exact Runs.ret (.refused _ (fun h => absurd hz (Nat.ne_of_gt h.1)) rfl)
  · rw [if_neg hz]
    simp only [Prog.step_bind, Prog.ret_bind]
    rcases World.failing_cases env (World.ftruncate fd size) w with ⟨e, hf, heq⟩ | ⟨hf, heq⟩
    · -- the resize itself failed
      refine Runs.step (congrArg some heq) (runs_close (.refused _ (fun h => ?_) rfl))
      exact absurd (hf.symm.trans h.2.2) (by simp)
    · refine Runs.step (congrArg some heq) ?_
      -- as an `off_t` the size may be negative
      by_cases hlt : size < 2 ^ 63
      · rw [World.ftruncate_eq hfd hlt]
        have hs : Sizable env w.calls size := ⟨Nat.pos_of_ne_zero hz, hlt, hf⟩
        refine (runs_mapped_outcome
          (w := ⟨w.kernel.truncate i size hlt, w.process, w.calls + 1⟩) hfd).mono fun r w' h => ?_
        cases h with
        | failed e hno _ hk _ => exact .unmapped e hs (hno.resolve_left hz) hk
        | mapped shm _ hn _ hk _ _ => exact .completed shm hs hn hk
      · rw [World.ftruncate_negative hfd hlt]
        exact runs_close (.refused _ (fun h => hlt h.2.1) rfl)

/-- **The exits of `open_or_create`** with `create`. -/
theorem runs_create_outcome :
    Runs (World.exec env) (openOrCreate name size true) w (CreateOutcome env name size w) := by
  unfold openOrCreate shmOpen
  simp only [Prog.step_bind, Prog.ret_bind]
  rcases World.failing_cases env (World.shmOpen name (openFlags true)) w with
    ⟨e, hf, heq⟩ | ⟨hf, heq⟩
  · refine Runs.step (congrArg some heq) ?_
    simp only [if_neg (Env.ne_eexist_of_fault hf)]
    exact Runs.ret (.refused _ (fun h => absurd (hf.symm.trans h) (by simp)) rfl)
  · refine Runs.step (congrArg some heq) ?_
    cases hb : w.kernel.names name with
    | none =>
      -- a new segment, empty so far
      rw [World.shmOpen_create hb rfl]
      exact (runs_sized_outcome (Process.fileSeg_openFile _ _)).mono
        fun r w' h => .created _ hf hb h
    | some i =>
      -- the name is bound: `O_EXCL` is dropped and the call made again
      rw [World.shmOpen_excl hb rfl]
      simp only [if_true]
      rcases World.failing_cases env (World.shmOpen name { openFlags true with excl := false })
        { w with calls := w.calls + 1 } with ⟨e, hf', heq'⟩ | ⟨hf', heq'⟩
      · refine Runs.step (congrArg some heq') (Runs.ret (.locked _ i hf hb (fun h => ?_) rfl))
        exact absurd (hf'.symm.trans h) (by simp)
      · -- the second attempt carries `O_TRUNC`
        refine Runs.step (congrArg some heq') ?_
        rw [World.shmOpen_bound (w := { w with calls := w.calls + 1 }) hb rfl]
        exact (runs_sized_outcome
          (w := ⟨w.kernel.truncate i 0 (by decide), (w.process.openFile i).2, w.calls + 1 + 1⟩)
          (Process.fileSeg_openFile _ _)).mono fun r w' h => .emptied _ i hf hb hf' h

/-- Once the segment is open, the names stay as they are. -/
theorem SizeOutcome.names {r : Except PosixIpcError SharedMemory} {w' : World}
    (h : SizeOutcome env i size w r w') : w'.kernel.names = w.kernel.names := by
  cases h with
  | refused e hno hk => rw [hk]
  | unmapped e hs hf hk => rw [hk]; rfl
  | completed shm hs hf hk => rw [hk]; rfl

/-- `open_or_create` unbinds no name, and returns an object with its name bound. -/
theorem CreateOutcome.bound {r : Except PosixIpcError SharedMemory} {w' : World}
    (h : CreateOutcome env name size w r w') :
    (∀ a, w.kernel.names a ≠ none → w'.kernel.names a ≠ none) ∧
      ∀ shm, r = .ok shm → w'.kernel.names name ≠ none := by
  cases h with
  | refused e hf hk => exact ⟨fun a ha => by rw [hk]; exact ha, fun shm h => absurd h (by simp)⟩
  | created p hf hb h =>
    -- one name more
    have hnames : ∀ a, w'.kernel.names a =
        if shmObject a = shmObject name then some w.kernel.next else w.kernel.names a :=
      congrFun h.names
    refine ⟨fun a ha => ?_, fun shm _ => ?_⟩
    · rw [hnames a]
      split
      · simp
      · exact ha
    · rw [hnames name, if_pos rfl]
      simp
  | locked e i hf hb hf' hk =>
    exact ⟨fun a ha => by rw [hk]; exact ha, fun shm h => absurd h (by simp)⟩
  | emptied p i hf hb hf' h =>
    have hnames : w'.kernel.names = w.kernel.names := h.names
    refine ⟨fun a ha => by rw [hnames]; exact ha, fun shm _ => ?_⟩
    rw [hnames, hb]
    simp

end SharedMemory

/-! ### A concrete world -/

/-- An environment in which nothing fails, and mappings are placed above all others, from `limit`
on. -/
def Env.upwards (limit : Nat) : Env where
  fault := fun _ => none
  fault_ne_eexist := fun _ => by simp
  limit := limit
  address := fun _ len used => pageCeil (max limit len + (used.map Mapping.stop).sum)
  address_page := fun _ _ _ => pageCeil_mod _
  address_free := by
    intro _ len used m hm hmeets
    have hmem : m.stop ∈ used.map Mapping.stop := List.mem_map_of_mem hm
    have hle := List.single_le_sum (fun n _ => Nat.zero_le n) _ hmem
    have hceil := le_pageCeil (max limit len + (used.map Mapping.stop).sum)
    have hlt := hmeets.2
    omega
  limit_le := fun _ len used => by
    have hceil := le_pageCeil (max limit len + (used.map Mapping.stop).sum)
    omega
  len_le := fun _ len used => by
    have hceil := le_pageCeil (max limit len + (used.map Mapping.stop).sum)
    omega

/-- Room for objects of up to a tebibyte. -/
def Env.bump : Env := .upwards (2 ^ 40)

theorem Env.bump_plentiful : Env.bump.Plentiful := fun _ => rfl

/-- No names at all. -/
def Kernel.none : Kernel where
  objects := fun _ => Option.none
  segments := fun _ => Segment.empty ""
  next := 0
  objects_lt := fun _ _ h => absurd h (by simp)
  objects_name := fun _ _ h => absurd h (by simp)

@[simp] theorem Kernel.names_none (name : String) : Kernel.none.names name = Option.none := rfl

/-- A process that has mapped nothing. -/
def Process.ofFiles (files : List (Option File)) : Process where
  files := files
  mappings := []
  paged := fun _ h => absurd h List.not_mem_nil
  apart := List.Pairwise.nil

/-- A process with the three standard files open. -/
def Process.standard : Process := .ofFiles [some .other, some .other, some .other]

def World.fresh : World := ⟨Kernel.none, Process.standard, 0⟩

end PosixIpc
