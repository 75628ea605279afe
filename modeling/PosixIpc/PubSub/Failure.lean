import PosixIpc.PubSub.Agreement

/-!
# What a failure leaves behind

`SharedMemory::open_or_create` and `Publisher::from_config`, when they return an error. `open` and
every exit before the first successful `shm_open` change nothing. After it, `open_or_create` has
bound the name or emptied the segment, and what it finds out then (that the size is zero or not an
`off_t`, that `ftruncate` or `mmap` fails) ends in an error that takes nothing of it back: the
descriptor is closed, at most.

So the names and segments are as they were exactly if nothing fails after that point, or if there
was nothing to lose, the segment being empty or all zero already (`Harmless`). A publisher adds its
probe, which may leave the name bound by itself (`HarmlessAttach`).
-/

namespace PosixIpc

open Framework SharedMemory

variable {env : Env} {name : String} {size n i : Nat} {k : Kernel} {config : PubSubConfig}
  {w w' : World} {α : Type}

/-- An error leaves the names and segments of `k` as they are. -/
def Spares (k : Kernel) (r : Except PosixIpcError α) (w' : World) : Prop :=
  ∀ e, r = .error e → k.Same w'.kernel

theorem spares_ok {a : α} : Spares k (.ok a) w' := fun _ h => absurd h (by simp)

theorem spares_error_iff {e : PosixIpcError} :
    Spares k (.error e : Except PosixIpcError α) w' ↔ k.Same w'.kernel :=
  ⟨fun h => h e rfl, fun h _ _ => h⟩

/-! ### `open_or_create` -/

/-- The `n`-th call and those after it, made by `open_or_create` to create `name`, do no harm if
they fail. -/
inductive Harmless (env : Env) (n : Nat) (k : Kernel) (name : String) (size : Nat) : Prop where
  /-- The first `shm_open` fails. -/
  | refused (hf : env.fault n ≠ none)
  /-- The name is not bound, and nothing fails. -/
  | created (hb : k.names name = none) (hs : Sizable env (n + 1) size)
      (hm : env.fault (n + 2) = none)
  /-- The name is bound, and the second `shm_open` fails. -/
  | locked (i : Nat) (hb : k.names name = some i) (hf : env.fault (n + 1) ≠ none)
  /-- The segment does not get its size, and was empty. -/
  | empty (i : Nat) (hb : k.names name = some i) (hs : ¬ Sizable env (n + 2) size)
      (hz : (k.segments i).size = 0)
  /-- The segment gets its size, which is the one it had, and was all zero. -/
  | blank (i : Nat) (hb : k.names name = some i) (hs : Sizable env (n + 2) size)
      (hsize : (k.segments i).size = size) (hz : ∀ j, j < size → (k.segments i).bytes j = 0)
  /-- The name is bound, and nothing fails. -/
  | completed (i : Nat) (hb : k.names name = some i) (hs : Sizable env (n + 2) size)
      (hm : env.fault (n + 3) = none)

theorem harmless_unbound_iff (hf : env.fault n = none) (hb : k.names name = none) :
    Harmless env n k name size ↔ Sizable env (n + 1) size ∧ env.fault (n + 2) = none := by
  have hno : ∀ i, k.names name ≠ some i := by
    intro i hi
    exact absurd (hb.symm.trans hi) (by simp)
  constructor
  · intro h
    -- the other reasons need the name to be bound
    cases h with
    | refused hf' => exact absurd hf hf'
    | created _ hs hm => exact ⟨hs, hm⟩
    | locked i hi _ => exact absurd hi (hno i)
    | empty i hi _ _ => exact absurd hi (hno i)
    | blank i hi _ _ _ => exact absurd hi (hno i)
    | completed i hi _ _ => exact absurd hi (hno i)
  · rintro ⟨hs, hm⟩
    exact .created hb hs hm

theorem harmless_bound_iff (hf : env.fault n = none) (hb : k.names name = some i)
    (hf' : env.fault (n + 1) = none) :
    Harmless env n k name size ↔
      (¬ Sizable env (n + 2) size ∧ (k.segments i).size = 0) ∨
      (Sizable env (n + 2) size ∧ (env.fault (n + 3) = none ∨
        (k.segments i).size = size ∧ ∀ j, j < size → (k.segments i).bytes j = 0)) := by
  constructor
  · intro h
    -- of the cases of harmlessness, the name's being bound leaves those of a second attempt
    cases h with
    | refused h => exact absurd hf h
    | created h _ _ => exact absurd (hb.symm.trans h) (by simp)
    | locked _ _ h => exact absurd hf' h
    | empty j hj hs hz =>
      obtain rfl := Option.some.inj (hb.symm.trans hj)
      exact .inl ⟨hs, hz⟩
    | blank j hj hs hsize hz =>
      obtain rfl := Option.some.inj (hb.symm.trans hj)
      exact .inr ⟨hs, .inr ⟨hsize, hz⟩⟩
    | completed _ _ hs hm => exact .inr ⟨hs, .inl hm⟩
  · -- each of the three is one of those cases
    rintro (⟨hs, hz⟩ | ⟨hs, hm | ⟨hsize, hz⟩⟩)
    · exact .empty i hb hs hz
    · exact .completed i hb hs hm
    · exact .blank i hb hs hsize hz

/-- **The exits of `open_or_create`** are spared exactly where the calls do no harm, also if names
and segments have only come and gone since `k`. -/
theorem SharedMemory.CreateOutcome.spares_iff {r : Except PosixIpcError SharedMemory}
    (h : CreateOutcome env name size w r w') (hk : k.Same w.kernel) :
    Spares k r w' ↔ Harmless env w.calls k name size := by
  cases h with
  | refused e hf hk' =>
    rw [spares_error_iff, hk']
    exact iff_of_true hk (.refused hf)
  | created p hf hb h =>
    have hb₀ : k.names name = none := (hk.names name).symm.trans hb
    rw [harmless_unbound_iff hf hb₀]
    -- the name is bound from here on
    cases h with
    | refused e hs hk' =>
      rw [spares_error_iff, hk']
      exact iff_of_false (Kernel.not_same_of_bound hb₀ (names_create _ _)) fun h => hs h.1
    | unmapped e hs hm hk' =>
      rw [spares_error_iff, hk']
      exact iff_of_false (Kernel.not_same_of_bound hb₀ (names_create _ _)) fun h => hm h.2
    | completed shm hs hm _ => exact iff_of_true spares_ok ⟨hs, hm⟩
  | locked e i hf hb hf' hk' =>
    rw [spares_error_iff, hk']
    exact iff_of_true hk (.locked i ((hk.names name).symm.trans hb) hf')
  | emptied p i hf hb hf' h =>
    have hb₀ : k.names name = some i := (hk.names name).symm.trans hb
    have hi := k.names_lt name i hb₀
    rw [harmless_bound_iff hf hb₀ hf']
    -- the segment has lost its bytes
    cases h with
    | refused e hs hk' =>
      rw [spares_error_iff, hk', Kernel.same_truncate_zero_iff hk hi]
      exact ⟨fun hz => .inl ⟨hs, hz⟩, fun h => (h.resolve_right fun h => hs h.1).2⟩
    | unmapped e hs hm hk' =>
      rw [spares_error_iff, hk', Kernel.same_retruncate_iff hk hi]
      constructor
      · intro hz
        exact .inr ⟨hs, .inr hz⟩
      · intro h
        exact (h.resolve_left fun h => h.1 hs).2.resolve_left hm
    | completed shm hs hm _ => exact iff_of_true spares_ok (.inr ⟨hs, .inl hm⟩)

/-- After a probe that was not cleaned up, an error cannot leave things as they were before. -/
theorem SharedMemory.CreateOutcome.spares_iff_of_leak {r : Except PosixIpcError SharedMemory}
    (h : CreateOutcome env name size w r w') (hk : k.names name = none)
    (hb : w.kernel.names name = some i) :
    Spares k r w' ↔ env.fault w.calls = none ∧ env.fault (w.calls + 1) = none ∧
      Sizable env (w.calls + 2) size ∧ env.fault (w.calls + 3) = none := by
  cases h with
  -- the probe has left its name bound, so only an object that is returned spares anything
  | refused e hf hk' =>
    rw [spares_error_iff, hk']
    exact iff_of_false (Kernel.not_same_of_bound hk hb) fun h => hf h.1
  | created p hf hb' h => exact absurd (hb'.symm.trans hb) (by simp)
  | locked e j hf _ hf' hk' =>
    rw [spares_error_iff, hk']
    exact iff_of_false (Kernel.not_same_of_bound hk hb) fun h => hf' h.2.1
  | emptied p j hf hb' hf' h =>
    cases h with
    | refused e hs hk' =>
      rw [spares_error_iff, hk']
      exact iff_of_false (Kernel.not_same_of_bound hk hb) fun h => hs h.2.2.1
    | unmapped e hs hm hk' =>
      rw [spares_error_iff, hk']
      exact iff_of_false (Kernel.not_same_of_bound hk hb) fun h => hm h.2.2.2
    | completed shm hs hm _ => exact iff_of_true spares_ok ⟨hf, hf', hs, hm⟩

/-- What `open_or_create` leaves from a world whose names and segments are those of `k`. -/
theorem runs_create_spares {u : World} (hk : k.Same u.kernel) :
    Runs (World.exec env) (openOrCreate name size true) u
      fun r w' => (Spares k r w' ↔ Harmless env u.calls k name size) :=
  runs_create_outcome.mono fun _ _ h => h.spares_iff hk

/-- Without `create`, nothing is ever changed. -/
theorem spares_openOrCreate_false :
    Runs (World.exec env) (openOrCreate name size false) w (Spares w.kernel) := by
  refine runs_open_outcome.mono fun r w' h => ?_
  cases h with
  | failed e _ _ hk _ => exact spares_error_iff.mpr (.of_eq hk)
  | opened shm _ _ _ _ => exact spares_ok

/-! ### `Publisher::from_config` -/

/-- A publisher that is not created does no harm. -/
inductive HarmlessAttach (env : Env) (config : PubSubConfig) (w : World) : Prop where
  /-- The probe fails, and the name is taken for absent. -/
  | unprobed (hf : env.fault w.calls ≠ none)
      (h : Harmless env (w.calls + 1) w.kernel config.shmName config.storageSizeBytes)
  /-- The name is not bound, and the probe is cleaned up. -/
  | absent (hf : env.fault w.calls = none) (hb : w.kernel.names config.shmName = none)
      (hzero : w.process.file 0 ≠ none)
      (h : Harmless env (w.calls + 1) w.kernel config.shmName config.storageSizeBytes)
  /-- The name is not bound, the probe gets descriptor 0, and nothing fails after it. -/
  | leaked (hf : env.fault w.calls = none) (hb : w.kernel.names config.shmName = none)
      (hzero : w.process.file 0 = none) (hf' : env.fault (w.calls + 1) = none)
      (hf'' : env.fault (w.calls + 2) = none)
      (hs : Sizable env (w.calls + 3) config.storageSizeBytes)
      (hm : env.fault (w.calls + 4) = none)
  /-- The segment is there and cannot be opened. -/
  | unopened (hf : env.fault w.calls = none) (hb : w.kernel.names config.shmName ≠ none)
      (ho : ¬ Openable env config.shmName { w with calls := w.calls + 1 })
  /-- The segment is there with the configured size. -/
  | fits (i : Nat) (hf : env.fault w.calls = none) (hb : w.kernel.names config.shmName = some i)
      (hsize : (w.kernel.segments i).size = config.storageSizeBytes)
  /-- The segment is there with another size. -/
  | replaced (hf : env.fault w.calls = none) (hb : w.kernel.names config.shmName ≠ none)
      (h : Harmless env (w.calls + 4) w.kernel config.shmName config.storageSizeBytes)

namespace Publisher

/-- Once the segment is created, a publisher is returned. -/
theorem all_onCreated (old : Option SharedMemory) (res : SharedMemory) :
    (release old >>= fun _ => res.moveOut >>= fun shm =>
      SysProg.construct shm.shmPtr shm.size >>= fun _ =>
        onStorage config shm).All (fun _ => True) fun r => ∃ p, r = .ok p := by
  refine (Prog.All.of_forall _ (fun _ => trivial) fun _ => ?_).bind
  refine (Prog.All.of_forall _ (fun _ => trivial) fun shm => ?_).bind
  exact ⟨trivial, fun _ => ⟨trivial, fun _ => ⟨_, rfl⟩⟩⟩

/-- The second half of `from_config` fails with `open_or_create`, and leaves what that leaves. -/
theorem spares_recreate {old : Option SharedMemory} {H : Prop} {u : World}
    (hF : Frame config.shmName u w) (hK : ∀ n, Room config u n → KeepsAbove n u w)
    (hb : ∀ j, u.kernel.names config.shmName = some j → w.kernel.names config.shmName = some j)
    (hold : ∀ shm, old = some shm → Old config u w shm)
    (h : Runs (World.exec env) (openOrCreate config.shmName config.storageSizeBytes true) w
      fun r w' => (Spares k r w' ↔ H)) :
    Runs (World.exec env) (recreate config old) w fun r w' => (Spares k r w' ↔ H) := by
  obtain ⟨r, w', hrun, -⟩ := @runs_recreate env config w u old hF hK hb hold
  refine ⟨r, w', hrun, ?_⟩
  -- the outcome of `open_or_create` decides how the rest goes
  obtain ⟨r₁, w₁, hcreate, hspares⟩ := h
  unfold recreate at hrun
  rw [Prog.run_bind, hcreate, Option.bind_some] at hrun
  cases r₁ with
  | error e =>
    -- only the old object goes
    have hpost := (Runs.bind ((@runs_release env w₁ old fun shm hs => (hold shm hs).created).mono
      fun _ w₂ h₂ => Runs.ret (Q := fun (r : Except PosixIpcError Publisher) (w' : World) =>
        r = .error e ∧ w'.kernel = w₁.kernel) ⟨rfl, h₂.1⟩)).post hrun
    obtain ⟨rfl, hk⟩ := hpost
    rw [spares_error_iff, hk, ← hspares, spares_error_iff]
  | ok shm =>
    obtain ⟨p, rfl⟩ := ((all_onCreated old shm).of_run (I := fun _ => True)
      (fun _ _ _ _ _ _ _ => trivial) hrun trivial).1
    exact iff_of_true spares_ok (hspares.mp spares_ok)

/-- The probe fails. -/
theorem spares_fromConfig_unprobed {e : Errno} (hf : env.fault w.calls = some e) :
    Runs (World.exec env) (fromConfig config) w
      fun r w' => (Spares w.kernel r w' ↔ HarmlessAttach env config w) := by
  unfold fromConfig
  -- taken for absent, whether or not the name is bound
  refine Runs.bind (Runs.of_run (run_exists_fault hf) ?_)
  refine (spares_recreate (.refl _ _) (fun _ _ => .refl _ _) (fun j hj => hj)
    (fun shm hs => absurd hs (by simp))
    (runs_create_spares (u := { w with calls := w.calls + 1 }) (.of_eq rfl))).mono
    fun r w' h => h.trans ⟨.unprobed (by simp [hf]), fun h => ?_⟩
  cases h with
  | unprobed _ h => exact h
  | absent hf' | leaked hf' | unopened hf' | fits _ hf' | replaced hf' =>
    exact absurd (hf.symm.trans hf') (by simp)

/-- There is no segment, and the probe is cleaned up. -/
theorem spares_fromConfig_absent (hf : env.fault w.calls = none)
    (hb : w.kernel.names config.shmName = none) (hzero : w.process.file 0 ≠ none) :
    Runs (World.exec env) (fromConfig config) w
      fun r w' => (Spares w.kernel r w' ↔ HarmlessAttach env config w) := by
  unfold fromConfig
  -- the probe is cleaned up, and what is created then is judged as without it
  refine Runs.bind (Runs.of_run (run_exists_absent hf hb hzero) ?_)
  refine (spares_recreate (.refl _ _) (fun _ _ => .refl _ _) (fun j hj => hj)
    (fun shm hs => absurd hs (by simp))
    (runs_create_spares (Kernel.same_unlink_create hb))).mono
    fun r w' h => h.trans ⟨.absent hf hb hzero, fun h => ?_⟩
  -- the other cases are of other answers of the probe
  cases h with
  | unprobed hf' _ => exact absurd hf hf'
  | absent _ _ _ h => exact h
  | leaked _ _ hz => exact absurd hz hzero
  | unopened _ hb' => exact absurd hb hb'
  | fits i _ hb' => exact absurd (hb.symm.trans hb') (by simp)
  | replaced _ hb' => exact absurd hb hb'

/-- There is no segment, and the probe stays. -/
theorem spares_fromConfig_leaked (hf : env.fault w.calls = none)
    (hb : w.kernel.names config.shmName = none) (hzero : w.process.file 0 = none) :
    Runs (World.exec env) (fromConfig config) w
      fun r w' => (Spares w.kernel r w' ↔ HarmlessAttach env config w) := by
  unfold fromConfig
  refine Runs.bind (Runs.of_run (run_exists_leak hf hb hzero) ?_)
  refine (spares_recreate (.refl _ _) (fun _ _ => .refl _ _) (fun j hj => hj)
    (fun shm hs => absurd hs (by simp))
    -- the name is bound by the probe itself, so any error comes too late
    (runs_create_outcome.mono fun _ _ h => h.spares_iff_of_leak hb (names_create _ _))).mono
    fun r w' h => h.trans ⟨fun h => .leaked hf hb hzero h.1 h.2.1 h.2.2.1 h.2.2.2, fun h => ?_⟩
  cases h with
  | unprobed hf' _ => exact absurd hf hf'
  | absent _ _ hz => exact absurd hzero hz
  | leaked _ _ _ h₁ h₂ hs hm => exact ⟨h₁, h₂, hs, hm⟩
  | unopened _ hb' => exact absurd hb hb'
  | fits i _ hb' => exact absurd (hb.symm.trans hb') (by simp)
  | replaced _ hb' => exact absurd hb hb'

/-- There is a segment. -/
theorem spares_fromConfig_bound (hf : env.fault w.calls = none)
    (hb : w.kernel.names config.shmName = some i) :
    Runs (World.exec env) (fromConfig config) w
      fun r w' => (Spares w.kernel r w' ↔ HarmlessAttach env config w) := by
  have hbound : w.kernel.names config.shmName ≠ none := by
    rw [hb]
    simp
  unfold fromConfig
  refine Runs.bind (Runs.of_run (run_exists_bound hf hb) ?_)
  refine Runs.bind ((runs_open.and runs_open_outcome).mono fun r w₁ h => ?_)
  obtain ⟨hopens, hout⟩ := h
  cases hout with
  | failed e hno _ hk _ =>
    exact Runs.ret (iff_of_true (spares_error_iff.mpr (.of_eq hk)) (.unopened hf hbound hno))
  | opened shm hyes hk hcalls _ =>
    obtain ⟨j, hj, ho, hsize, hplaced⟩ := hopens.opened shm rfl
    obtain rfl := Option.some.inj (hb.symm.trans hj)
    change shm.size = (w.kernel.segments i).size at hsize
    refine Runs.bind ((runs_moveOut ho.created).mono fun shm' w₂ h₂ => ?_)
    obtain ⟨rfl, hk₂, -, hcalls₂, hkept₂⟩ := h₂
    have ho₂ := ho.of_keepsAbove hk₂ hkept₂
    by_cases hmatch : config.storageSizeBytes = shm'.size
    · -- `onStorage` does not fail
      simp only [ne_eq, hmatch, not_true_eq_false, if_false]
      refine (runs_onStorage ho₂ hmatch.symm).mono fun r w' h => ?_
      obtain ⟨-, p, rfl, -⟩ := h
      exact iff_of_true spares_ok (.fits i hf hb (hsize.symm.trans hmatch.symm))
    · -- the object with the other size stays open meanwhile
      simp only [ne_eq, hmatch, not_false_eq_true, if_true]
      have hk' : w₂.kernel = w.kernel := hk₂.trans hk
      refine (spares_recreate (u := w) (.of_kernel_eq hk') (fun n hn => ?_)
        (fun j hj => by rw [hk']; exact hj) (fun s hs => ?_)
        (runs_create_spares (.of_eq hk'))).mono fun r w' h => h.trans ?_
      · refine (hopens.kept n hn.2).trans (hkept₂.mono ?_)
        rw [hsize]
        exact hn.2 i hb
      · obtain rfl := Option.some.inj hs
        exact old_of_placed ho₂ hplaced rfl
      · rw [hcalls₂, hcalls]
        refine ⟨.replaced hf hbound, fun h => ?_⟩
        cases h with
        | unprobed hf' _ => exact absurd hf hf'
        | absent _ hb' => exact absurd hb' hbound
        | leaked _ hb' => exact absurd hb' hbound
        | unopened _ _ ho' => exact absurd hyes ho'
        | fits j _ hj hs =>
          obtain rfl := Option.some.inj (hb.symm.trans hj)
          exact absurd (hs.symm.trans hsize.symm) hmatch
        | replaced _ _ h => exact h

end Publisher

/-- **A failure destroys nothing** exactly where the calls made after the name was bound or the
segment emptied do not fail, or there was nothing to lose: for `open_or_create` with any arguments,
and for `Publisher::from_config`. -/
theorem failure_spares_iff (env : Env) (w : World) :
    (∀ name size create,
      Runs (World.exec env) (openOrCreate name size create) w (Spares w.kernel) ↔
        (create = true → Harmless env w.calls w.kernel name size)) ∧
    ∀ config, Runs (World.exec env) (Publisher.fromConfig config) w (Spares w.kernel) ↔
      HarmlessAttach env config w := by
  constructor
  · -- without `create` nothing is ever changed
    intro name size create
    cases create with
    | false => exact iff_of_true spares_openOrCreate_false fun h => absurd h (by simp)
    | true => exact (runs_create_spares (.of_eq rfl)).iff_of.trans (by simp)
  · intro config
    refine Runs.iff_of ?_
    -- by what the probe will find: no answer, a segment, or nothing, and then by the descriptor
    -- it gets
    cases hf : env.fault w.calls with
    | some e => exact Publisher.spares_fromConfig_unprobed hf
    | none =>
      cases hb : w.kernel.names config.shmName with
      | some i => exact Publisher.spares_fromConfig_bound hf hb
      | none =>
        by_cases hzero : w.process.file 0 = none
        · exact Publisher.spares_fromConfig_leaked hf hb hzero
        · exact Publisher.spares_fromConfig_absent hf hb hzero

/-- Creating with size zero: the segment that was there has lost its 320 bytes when the error is
returned. -/
theorem failure_empties : ¬ ∀ (env : Env) (w : World) (name : String) (size : Nat) (create : Bool),
    Runs (World.exec env) (openOrCreate name size create) w (Spares w.kernel) := by
  intro h
  have hspares := h Env.bump World.leftover "/queue" 0 true
  have hb : World.leftover.kernel.names "/queue" = some 0 := rfl
  have hharmless := (runs_create_spares (.of_eq rfl)).iff_of.mp hspares
  -- neither was the segment empty, nor is zero a size
  rw [harmless_bound_iff rfl hb rfl] at hharmless
  rcases hharmless with ⟨-, hz⟩ | ⟨hs, -⟩
  · exact absurd hz (by decide)
  · exact absurd hs.1 (Nat.lt_irrefl 0)

end PosixIpc
