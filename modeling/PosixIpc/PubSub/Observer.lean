import PosixIpc.PubSub.Agreement

/-!
# Attaching a subscriber

What `Subscriber::from_config` leaves behind. It only looks at segments that are there: `open`
changes neither names nor segments, and gives back its descriptor on every way out but success. The
exception is the probe for a missing segment, which creates the name, and takes it back only if its
descriptor is positive. So a subscriber is a mere observer exactly if the segment is there or
descriptor 0 is in use (`attach_observes_iff`).
-/

namespace PosixIpc

open Framework

namespace Subscriber

variable {env : Env} {config : PubSubConfig} {w w₀ : World}

/-- An attempt to attach, of which `r` and `w'` are left, has only observed: the names and the
segments are the same; after a failure the same files are open; and a missing segment is reported
exactly if there was none. -/
structure Observed (config : PubSubConfig) (w : World) (r : Except PosixIpcError Subscriber)
    (w' : World) : Prop where
  kernel : w.kernel.Same w'.kernel
  files : ∀ e, r = .error e → w.process.SameFiles w'.process
  missing : r = .error (missingError config) ↔ w.kernel.names config.shmName = none

/-- `from_config` only observes. -/
def Observes (env : Env) (config : PubSubConfig) (w : World) : Prop :=
  Runs (World.exec env) (fromConfig config) w (Observed config w)

/-- Letting go of mappings is not seen. -/
theorem Observed.of_files_eq {r : Except PosixIpcError Subscriber} {w₁ w₂ : World}
    (h : Observed config w r w₁) (hk : w₂.kernel = w₁.kernel)
    (hf : w₂.process.files = w₁.process.files) : Observed config w r w₂ := by
  refine ⟨by rw [hk]; exact h.kernel, fun e he n => ?_, h.missing⟩
  unfold Process.file
  rw [hf]
  exact h.files e he n

/-! ### Errors -/

/-- The errors of `open` do not report a missing segment. -/
theorem ne_missingError_of_message {e : PosixIpcError} (h : ∃ t, e.message = "name=" ++ t) :
    e ≠ missingError config := by
  rintro rfl
  obtain ⟨t, ht⟩ := h
  -- the two texts begin with different letters
  have hchars := congrArg String.toList ht
  simp only [missingError, String.toList_append, String.append_assoc] at hchars
  exact absurd hchars (by simp)

theorem ne_missingError_of_code {e : PosixIpcError} (h : e.code ≠ .shmOpenFailed) :
    e ≠ missingError config := by
  rintro rfl
  exact h rfl

/-- Whatever it finds, `SPSCStorage::map` reports an error of the storage. -/
theorem code_of_mapStorage {ptr len : Nat} {e : PosixIpcError} {w' : World}
    (h : (mapStorage ptr len).run (World.exec env) w = some (.error e, w')) :
    e.code = .spscStorageError := by
  have hall : (mapStorage ptr len).All (fun _ => True)
      fun r => ∀ e, r = .error e → e.code = .spscStorageError := by
    unfold mapStorage SysProg.storage
    -- the header is read only if the mapping has room for one
    split
    · exact fun e he => SPSCStorage.code_of_map he
    · exact ⟨trivial, fun s e he => SPSCStorage.code_of_map he⟩
  exact (hall.of_run (I := fun _ => True) (fun _ _ _ _ _ _ _ => trivial) h trivial).1 e rfl

/-! ### The way through `from_config` -/

/-- The object goes, and with it the descriptor of the attempt. -/
theorem sameFiles_destroy {p q : Process} {fd : Int} {addr len : Nat}
    (h : p.SameFiles (q.closeFile fd)) : p.SameFiles ((q.unmap addr len).closeFile fd) := by
  cases fd with
  | ofNat n => exact h
  | negSucc n => exact h

/-- Once the object is open, the segment is only looked at. -/
theorem runs_onMemory {i : Nat} {shm : SharedMemory} (hb : w₀.kernel.names config.shmName = some i)
    (ho : Opened config.shmName i shm w) (hk : w.kernel = w₀.kernel)
    (hfiles : w₀.process.SameFiles (w.process.closeFile shm.shmFd)) :
    Runs (World.exec env) (onMemory config shm) w (Observed config w₀) := by
  have hbound : w₀.kernel.names config.shmName ≠ none := by
    rw [hb]
    simp
  -- a failure that is found out with the object open
  have hfail : ∀ e, e ≠ missingError config →
      Runs (World.exec env) (shm.destroy >>= fun _ => .ret (.error e)) w (Observed config w₀) := by
    intro e he
    refine Runs.bind (Runs.of_run (SharedMemory.run_destroy ho.created) (Runs.ret ⟨.of_eq hk,
      fun _ _ => sameFiles_destroy hfiles, fun h => ?_, fun h => absurd h hbound⟩))
    exact absurd (Except.error.inj h) he
  unfold onMemory
  by_cases hmatch : config.storageSizeBytes = shm.size
  · simp only [ne_eq, hmatch, not_true_eq_false, if_false]
    obtain ⟨r, w', hrun, rfl, -, -⟩ := @runs_mapStorage env w config.shmName i shm ho
    refine Runs.bind (Runs.of_run hrun ?_)
    cases r with
    | error e =>
      -- the header is refused
      exact hfail e (ne_missingError_of_code (by rw [code_of_mapStorage hrun]; decide))
    | ok s =>
      exact Runs.ret ⟨.of_eq hk, fun e h => absurd h (by simp), fun h => absurd h (by simp),
        fun h => absurd h hbound⟩
  · simp only [ne_eq, hmatch, not_false_eq_true, if_true]
    -- the sizes differ
    exact hfail _ (ne_missingError_of_code (by simp [mismatchError]))

/-- A segment that is there is only looked at. -/
theorem observes_of_bound {i : Nat} (hprobe : env.fault w.calls = none)
    (hb : w.kernel.names config.shmName = some i) : Observes env config w := by
  have hbound : w.kernel.names config.shmName ≠ none := by
    rw [hb]
    simp
  unfold Observes fromConfig
  refine Runs.bind (Runs.of_run (SharedMemory.run_exists_bound hprobe hb) ?_)
  refine Runs.bind ((SharedMemory.runs_open.and SharedMemory.runs_open_outcome).mono
    fun r w' h => ?_)
  obtain ⟨hopens, hout⟩ := h
  cases hout with
  | failed e _ hmsg hk hfiles =>
    refine Runs.ret ⟨.of_eq hk, fun _ _ => hfiles, fun h => ?_, fun h => absurd h hbound⟩
    exact absurd (Except.error.inj h) (ne_missingError_of_message hmsg)
  | opened shm _ hk _ hfiles =>
    obtain ⟨j, hj, ho, -, -⟩ := hopens.opened shm rfl
    -- what is left of the result is destroyed in the end, which concerns no file
    have hmem : Runs (World.exec env) (onMemory config shm) _ (Observed config w) :=
      runs_onMemory hj ho hk hfiles
    refine Runs.bind (hmem.mono fun r w₁ h₁ => ?_)
    refine Runs.bind ((SharedMemory.runs_destroy_moved ho.created).mono fun _ w₂ h₂ => Runs.ret ?_)
    obtain ⟨hk₂, hfiles₂, -, -⟩ := h₂
    exact h₁.of_files_eq hk₂ hfiles₂

/-- With descriptor 0 in use, the probe for a missing segment is cleaned up. -/
theorem observes_of_file_zero (hprobe : env.fault w.calls = none)
    (hb : w.kernel.names config.shmName = none) (hzero : w.process.file 0 ≠ none) :
    Observes env config w := by
  unfold Observes fromConfig
  refine Runs.bind (Runs.of_run (SharedMemory.run_exists_absent hprobe hb hzero) ?_)
  exact Runs.ret ⟨Kernel.same_unlink_create hb, fun _ _ => .close fun _ => rfl,
    fun _ => hb, fun _ => rfl⟩

/-- With descriptor 0 free, the probe for a missing segment leaves the name bound. -/
theorem not_observes (hprobe : env.fault w.calls = none)
    (hb : w.kernel.names config.shmName = none) (hzero : w.process.file 0 = none) :
    ¬ Observes env config w := by
  intro h
  -- the error is the right one, but the name is bound now
  have hrun : (fromConfig config).run (World.exec env) w = some (.error (missingError config),
      ⟨w.kernel.create config.shmName, (w.process.openFile w.kernel.next).2, w.calls + 1⟩) := by
    unfold fromConfig
    rw [Prog.run_bind, SharedMemory.run_exists_leak hprobe hb hzero]
    rfl
  exact Kernel.not_same_of_bound hb (SharedMemory.names_create _ _) (h.post hrun).kernel

end Subscriber

open Subscriber

/-- **Attaching only observes** exactly if the segment is there or descriptor 0 is in use, where the
probe does not fail for want of resources. -/
theorem attach_observes_iff {env : Env} {config : PubSubConfig} {w : World}
    (hprobe : env.fault w.calls = none) :
    Observes env config w ↔
      (∃ i, w.kernel.names config.shmName = some i) ∨ w.process.file 0 ≠ none := by
  constructor
  · intro h
    -- with the name unbound and descriptor 0 free the probe gets descriptor 0, which `exists` takes
    -- for a failure, and leaves the name bound
    by_contra hno
    obtain ⟨hunbound, hzero⟩ := not_or.mp hno
    have hb : w.kernel.names config.shmName = none := by
      rw [← Option.not_isSome_iff_eq_none, Option.isSome_iff_exists]
      exact hunbound
    exact not_observes hprobe hb (Classical.not_not.mp hzero) h
  · intro h
    cases hb : w.kernel.names config.shmName with
    | some i => exact observes_of_bound hprobe hb
    | none =>
      refine observes_of_file_zero hprobe hb (h.resolve_left ?_)
      rintro ⟨i, hi⟩
      exact absurd (hb.symm.trans hi) (by simp)

/-- The header of the segment left over is refused. -/
theorem attach_observes_leftover : Observes Env.bump config64 World.leftover :=
  (attach_observes_iff rfl).mpr (.inl ⟨0, by decide⟩)

/-- A process that has closed its standard input. -/
def Process.headless : Process := .ofFiles [none, some .other, some .other]

/-- A process without standard input looks for a segment that is not there: the name is bound
afterwards. -/
theorem attach_leaks : ¬ ∀ (env : Env) (config : PubSubConfig) (w : World),
    env.fault w.calls = none → Observes env config w := by
  intro h
  exact not_observes (w := ⟨Kernel.none, Process.headless, 0⟩) rfl rfl rfl
    (h Env.bump config64 ⟨Kernel.none, Process.headless, 0⟩ rfl)

end PosixIpc
