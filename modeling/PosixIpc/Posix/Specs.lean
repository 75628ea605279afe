import Mathlib.Data.List.Basic
import Mathlib.Data.List.Nodup
import Mathlib.Data.List.Pairwise
import PosixIpc.Framework.Triple
import PosixIpc.Posix.SharedMemory

/-!
# What the operations on shared memory do

For every environment, what `open_or_create`, `open`, `exists` and the destructor leave behind,
whether they succeed or not. Three relations carry the specifications.

* `Frame name w w'`: at most the object `name` stands for and segments created as it are touched.
  `Frame` is transitive, so specifications compose.
* `KeepsAbove n w w'`: no mapping is lost that lies beyond the first `n` bytes of the address space.
  The size of the object that is opened is enough for `n`: what is unmapped is what the destructors of
  moved-from objects unmap from the null page on.
* `Opened name i shm w`: `shm` is open and mapped, on segment `i`, to which `name` is bound.

Where resources are plentiful, the specifications also say when the operation succeeds.
-/

namespace PosixIpc

open Framework SysProg

/-! ### Tables -/

namespace Process

/-- The descriptor a file is given leads to it, at the first free place or at the end of the
table. -/
theorem getElem?_allocate (f : File) (l : List (Option File)) :
    (allocate f l).2[(allocate f l).1]? = some (some f) := by
  induction l with
  | nil => rfl
  | cons g rest ih =>
    cases g with
    | none => rfl
    | some g => exact ih

/-- A file that was just opened. -/
theorem fileSeg_openFile (p : Process) (i : Nat) :
    (p.openFile i).2.fileSeg ((p.openFile i).1 : Nat) = some i := by
  have hget : (p.openFile i).2.files[(p.openFile i).1]? = some (some (.shm i)) :=
    getElem?_allocate (.shm i) p.files
  change (p.openFile i).2.fileSeg (.ofNat (p.openFile i).1) = some i
  simp only [fileSeg, hget]

/-- Opening a file touches no mapping. -/
theorem mappings_openFile (p : Process) (i : Nat) : (p.openFile i).2.mappings = p.mappings := rfl

/-- Closing a descriptor touches no mapping: a mapping outlives the file it was made from. -/
theorem mappings_closeFile (p : Process) (fd : Int) : (p.closeFile fd).mappings = p.mappings := by
  cases fd <;> rfl

/-- The mapping of the start of a segment is found at its address. -/
theorem mappingAt_eq (p : Process) {m : Mapping} (h : m ∈ p.mappings) (h₀ : m.offset = 0) :
    p.mappingAt m.addr = some m := by
  obtain ⟨files, l, hpaged, hapart⟩ := p
  change l.find? (fun m' => m'.addr = m.addr ∧ m'.offset = 0) = some m
  change m ∈ l at h
  induction l with
  | nil => exact absurd h List.not_mem_nil
  | cons m' l ih =>
    obtain ⟨hm', hpaged'⟩ := List.forall_mem_cons.mp hpaged
    obtain ⟨ha, hapart'⟩ := List.pairwise_cons.mp hapart
    rcases List.mem_cons.mp h with rfl | hl
    · simp [h₀]
    · -- another mapping at the head is at another address
      have hne := (ha m hl).addr_ne hm' (hpaged' m hl)
      rw [List.find?_cons_of_neg (by simpa using fun heq => absurd heq hne)]
      exact ih hpaged' hapart' hl

instance : Std.Symm Mapping.Apart := ⟨fun _ _ h => h.symm⟩

/-- Two mappings of a process are apart, or one. -/
theorem apart_of_ne (p : Process) {m m' : Mapping} (h : m ∈ p.mappings) (h' : m' ∈ p.mappings)
    (hne : m ≠ m') : m.Apart m' :=
  p.apart.forall h h' hne

/-- The address decides the mapping, since two that share an address meet. -/
theorem eq_of_addr_eq (p : Process) {m m' : Mapping} (h : m ∈ p.mappings) (h' : m' ∈ p.mappings)
    (haddr : m.addr = m'.addr) : m = m' := by
  by_contra hne
  exact (p.apart_of_ne h h' hne).addr_ne (p.paged m h) (p.paged m' h') haddr

/-- No mapping stands twice in the list. -/
theorem nodup_mappings (p : Process) : p.mappings.Nodup := by
  refine p.apart.imp_of_mem fun hm hm' ha => ?_
  rintro rfl
  exact ha.addr_ne (p.paged _ hm) (p.paged _ hm') rfl

section Unmap

variable {p : Process} {m n : Mapping} {addr len : Nat}

/-- A mapping without a page in the range stays. -/
theorem mem_unmap (h : m ∈ p.mappings) (hno : ¬ m.Meets addr (addr + pageCeil len)) :
    m ∈ (p.unmap addr len).mappings := by
  unfold unmap
  split
  · refine List.mem_flatMap.mpr ⟨m, h, ?_⟩
    rw [Mapping.without_of_not_meets hno]
    exact List.mem_singleton_self m
  · exact h

/-- What is there afterwards is pages of what was there. -/
theorem of_mem_unmap (h : n ∈ (p.unmap addr len).mappings) : ∃ m ∈ p.mappings, n.Within m := by
  unfold unmap at h
  change n ∈ ite _ _ _ at h
  split at h
  · next hu =>
    obtain ⟨m, hm, hn⟩ := List.mem_flatMap.mp h
    exact ⟨m, hm, (Mapping.mem_without (p.paged m hm) hu.1 (mod_add_pageCeil hu.1 len) hn).2.1⟩
  · exact ⟨n, h, le_refl _, le_refl _⟩

/-- Unmapping a whole mapping removes it, and no other one. -/
theorem mem_unmap_self (h : m ∈ p.mappings) :
    n ∈ (p.unmap m.addr m.len).mappings ↔ n ∈ p.mappings ∧ n ≠ m := by
  have hm := p.paged m h
  -- mappings do not overlap, so the range of `m` misses the others and they stay whole
  have hother : ∀ m' ∈ p.mappings, m' ≠ m → m'.without m.addr m.stop = [m'] :=
    fun m' hm' hne => Mapping.without_of_not_meets (p.apart_of_ne hm' h hne)
  have hmem : n ∈ (p.unmap m.addr m.len).mappings ↔
      n ∈ p.mappings.flatMap fun m' => m'.without m.addr m.stop := by
    change n ∈ ite _ _ _ ↔ _
    rw [if_pos (show Unmappable m.addr m.len from ⟨hm.addr_mod, hm.len_ne⟩)]
    exact Iff.rfl
  rw [hmem, List.mem_flatMap]
  constructor
  · rintro ⟨m', hm', hn⟩
    by_cases heq : m' = m
    · rw [heq, Mapping.without_self hm] at hn
      exact absurd hn List.not_mem_nil
    · rw [hother m' hm' heq] at hn
      rw [List.mem_singleton.mp hn]
      exact ⟨hm', heq⟩
  · rintro ⟨hn, hne⟩
    refine ⟨n, hn, ?_⟩
    rw [hother n hn hne]
    exact List.mem_singleton_self n

/-- It takes pages from this mapping alone. -/
theorem unmapped_self (h : m ∈ p.mappings) : p.unmapped m.addr m.len = [m] := by
  have hm := p.paged m h
  -- of all mappings `m` alone meets its range
  have honly : ∀ m' ∈ p.mappings, decide (m'.Meets m.addr m.stop) = (m' == m) := by
    intro m' hm'
    rw [Bool.eq_iff_iff, decide_eq_true_iff, beq_iff_eq]
    constructor
    · intro hmeets
      by_contra hne
      exact p.apart_of_ne hm' h hne hmeets
    · rintro rfl
      exact ⟨hm.addr_lt_stop, hm.addr_lt_stop⟩
  unfold unmapped
  rw [if_pos (show Unmappable m.addr m.len from ⟨hm.addr_mod, hm.len_ne⟩)]
  change p.mappings.filter (fun m' => m'.Meets m.addr m.stop) = [m]
  rw [List.filter_congr honly, List.filter_beq, List.count_eq_one_of_mem p.nodup_mappings h]
  rfl

/-- Unmapping pages of no mapping changes nothing. -/
theorem unmap_eq_self (h : ∀ m ∈ p.mappings, ¬ m.Meets addr (addr + pageCeil len)) :
    p.unmap addr len = p ∧ p.unmapped addr len = [] := by
  refine ⟨Process.ext rfl ?_, ?_⟩
  · change ite _ _ _ = _
    split
    · have hsame : p.mappings.flatMap (fun m => m.without addr (addr + pageCeil len)) =
          p.mappings.flatMap fun m => [m] :=
        List.flatMap_congr fun m hm => Mapping.without_of_not_meets (h m hm)
      rw [hsame, List.flatMap_singleton']
    · rfl
  · unfold unmapped
    split
    · exact List.filter_eq_nil_iff.mpr fun m hm => by simpa using h m hm
    · rfl

/-- A mapping that begins behind `len` bytes has none of the pages that hold the first `len` bytes
of the address space. -/
theorem not_meets_null (h : m ∈ p.mappings) (hle : len ≤ m.addr) :
    ¬ m.Meets 0 (0 + pageCeil len) := by
  intro hmeets
  have hpage := pageCeil_le (p.paged m h).addr_mod hle
  have hlt := hmeets.1
  omega

/-- Where no mapping begins below `len`, unmapping from the null page on does nothing. -/
theorem unmap_null (h : ∀ m ∈ p.mappings, len ≤ m.addr) :
    p.unmap 0 len = p ∧ p.unmapped 0 len = [] :=
  unmap_eq_self fun m hm => not_meets_null hm (h m hm)

end Unmap

end Process

/-! ### Calls -/

namespace World

/-- A call that can fail for want of resources fails for that, and changes nothing, or it is
performed. -/
theorem failing_cases {α : Type} (env : Env) (call : World → Except Errno α × World) (w : World) :
    (∃ e, env.fault w.calls = some e ∧
        failing env call w = (.error e, { w with calls := w.calls + 1 })) ∨
      (env.fault w.calls = none ∧
        failing env call w = ((call w).1, { (call w).2 with calls := w.calls + 1 })) := by
  unfold failing
  cases hf : env.fault w.calls with
  | some e => exact .inl ⟨e, rfl, rfl⟩
  | none => exact .inr ⟨rfl, rfl⟩

section Equations

variable {w : World} {name : String} {flags : OpenFlags} {i size : Nat} {fd : Int}

/-- `shm_open` without `O_EXCL` on a bound name. -/
theorem shmOpen_bound (hb : w.kernel.names name = some i)
    (hx : (flags.creat && flags.excl) = false) :
    shmOpen name flags w = (.ok (w.process.openFile i).1,
      { w with kernel := if flags.trunc then w.kernel.truncate i 0 (by decide) else w.kernel,
               process := (w.process.openFile i).2 }) := by
  unfold shmOpen
  rw [hb]
  exact if_neg (by rw [hx]; simp)

/-- `shm_open` with `O_CREAT` on a name that is not bound. -/
theorem shmOpen_create (hb : w.kernel.names name = none) (hc : flags.creat = true) :
    shmOpen name flags w = (.ok (w.process.openFile w.kernel.next).1,
      { w with kernel := w.kernel.create name,
               process := (w.process.openFile w.kernel.next).2 }) := by
  unfold shmOpen
  rw [hb]
  exact if_pos hc

/-- Exclusive creation of a bound name. -/
theorem shmOpen_excl (hb : w.kernel.names name = some i)
    (hx : (flags.creat && flags.excl) = true) : shmOpen name flags w = (.error .eexist, w) := by
  unfold shmOpen
  rw [hb]
  exact if_pos hx

/-- Opening a name that is not bound. -/
theorem shmOpen_missing (hb : w.kernel.names name = none) (hc : flags.creat = false) :
    shmOpen name flags w = (.error .enoent, w) := by
  unfold shmOpen
  rw [hb]
  exact if_neg (by rw [hc]; simp)

/-- `ftruncate` on an open segment resizes it. -/
theorem ftruncate_eq (hfd : w.process.fileSeg fd = some i) (hlt : size < 2 ^ 63) :
    ftruncate fd size w = (.ok (), { w with kernel := w.kernel.truncate i size hlt }) := by
  unfold ftruncate
  rw [hfd]
  exact dif_pos hlt

/-- `ftruncate` refuses a size whose `off_t` is negative, and the segment stays as it was. -/
theorem ftruncate_negative (hfd : w.process.fileSeg fd = some i) (hlt : ¬ size < 2 ^ 63) :
    ftruncate fd size w = (.error .einval, w) := by
  unfold ftruncate
  rw [hfd]
  exact dif_neg hlt

/-- `fstat` on an open segment reads the size of the whole segment. -/
theorem fstat_eq (hfd : w.process.fileSeg fd = some i) :
    fstat fd w = (.ok (w.kernel.segments i).size, w) := by
  unfold fstat
  rw [hfd]

end Equations

/-- The header of a mapped segment that is not empty can be accessed. -/
theorem segAt_eq {w : World} {m : Mapping} (h : m ∈ w.process.mappings) (h₀ : m.offset = 0)
    (hsize : (w.kernel.segments m.seg).size ≠ 0) : w.segAt m.addr = some m.seg := by
  have hlen := (w.process.paged m h).len_ne
  unfold segAt
  rw [w.process.mappingAt_eq h h₀]
  -- a page at least is mapped, of the segment and of its backing
  refine if_pos (le_min ?_ ?_)
  · change 256 ≤ (m.len + 4096 - 1) / 4096 * 4096
    omega
  · change 256 ≤ ((w.kernel.segments m.seg).size + 4096 - 1) / 4096 * 4096
    omega

end World

/-! ### Frames -/

/-- At most the object `name` stands for, and segments created as it, are touched. -/
structure Frame (name : String) (w w' : World) : Prop where
  names : ∀ a, shmObject a ≠ shmObject name → w'.kernel.names a = w.kernel.names a
  next : w.kernel.next ≤ w'.kernel.next
  segName : ∀ i, i < w.kernel.next → (w'.kernel.segments i).name = (w.kernel.segments i).name
  segments : ∀ i, i < w.kernel.next → (w.kernel.segments i).name ≠ shmObject name →
    w'.kernel.segments i = w.kernel.segments i

namespace Frame

variable {name : String} {w w' w'' : World}

theorem refl (name : String) (w : World) : Frame name w w :=
  ⟨fun _ _ => rfl, le_refl _, fun _ _ => rfl, fun _ _ _ => rfl⟩

theorem trans (h : Frame name w w') (h' : Frame name w' w'') : Frame name w w'' := by
  refine ⟨fun a ha => (h'.names a ha).trans (h.names a ha), h.next.trans h'.next, ?_, ?_⟩
  · intro i hi
    rw [h'.segName i (lt_of_lt_of_le hi h.next), h.segName i hi]
  · -- a segment keeps its name, so it is not touched by the second step either
    intro i hi hne
    rw [h'.segments i (lt_of_lt_of_le hi h.next) (by rw [h.segName i hi]; exact hne),
      h.segments i hi hne]

/-- Only the process is touched. -/
theorem of_kernel_eq (hk : w'.kernel = w.kernel) : Frame name w w' :=
  ⟨fun a _ => by rw [hk], by rw [hk], fun i _ => by rw [hk], fun i _ _ => by rw [hk]⟩

/-- A name is bound to a new segment. -/
theorem create (hk : w'.kernel = w.kernel.create name) : Frame name w w' := by
  refine ⟨fun a ha => ?_, ?_, fun i hi => ?_, fun i hi _ => ?_⟩
  · -- the other names are bound as before, and the new index was free
    rw [hk]
    exact if_neg ha
  · rw [hk]
    exact Nat.le_succ _
  · rw [hk]
    exact congrArg Segment.name (if_neg (Nat.ne_of_lt hi))
  · rw [hk]
    exact if_neg (Nat.ne_of_lt hi)

/-- A segment created as the object of the name is changed. -/
theorem update {i : Nat} {s : Segment} {h : s.name = (w.kernel.segments i).name}
    (hname : (w.kernel.segments i).name = shmObject name)
    (hk : w'.kernel = w.kernel.update i s h) : Frame name w w' := by
  refine ⟨fun a _ => by rw [hk]; rfl, by rw [hk]; exact le_refl _, fun j _ => ?_, fun j _ hne => ?_⟩
  · rw [hk]
    change (if j = i then s else w.kernel.segments j).name = _
    split
    · next hji => rw [hji, h]
    · rfl
  · rw [hk]
    refine if_neg ?_
    rintro rfl
    exact hne hname

theorem truncate {i size : Nat} {hlt : size < 2 ^ 63}
    (hname : (w.kernel.segments i).name = shmObject name)
    (hk : w'.kernel = w.kernel.truncate i size hlt) : Frame name w w' :=
  update (s := (w.kernel.segments i).resize size hlt) (h := rfl) hname hk

theorem setBytes {i : Nat} {m : Mem} (hname : (w.kernel.segments i).name = shmObject name)
    (hk : w'.kernel = w.kernel.setBytes i m) : Frame name w w' :=
  update (s := { w.kernel.segments i with bytes := m }) (h := rfl) hname hk

theorem unlink (hk : w'.kernel = w.kernel.unlink name) : Frame name w w' := by
  refine ⟨fun a ha => ?_, by rw [hk]; exact le_refl _, fun i _ => by rw [hk]; rfl,
    fun i _ _ => by rw [hk]; rfl⟩
  rw [hk]
  exact if_neg ha

end Frame

/-! ### Mappings -/

/-- The mappings beyond the first `n` bytes of the address space are kept. -/
def KeepsAbove (n : Nat) (w w' : World) : Prop :=
  ∀ m ∈ w.process.mappings, n ≤ m.addr → m ∈ w'.process.mappings

namespace KeepsAbove

variable {n n' : Nat} {w w' w'' : World}

theorem of_mappings_eq (hm : w'.process.mappings = w.process.mappings) : KeepsAbove n w w' := by
  intro m h _
  rw [hm]
  exact h

theorem refl (n : Nat) (w : World) : KeepsAbove n w w := of_mappings_eq rfl

theorem trans (h : KeepsAbove n w w') (h' : KeepsAbove n w' w'') : KeepsAbove n w w'' :=
  fun m hm hle => h' m (h m hm hle) hle

theorem mono (h : KeepsAbove n w w') (hle : n ≤ n') : KeepsAbove n' w w' :=
  fun m hm hm' => h m hm (hle.trans hm')

/-- Unmapping the pages that hold the first `n` bytes. -/
theorem unmap (hm : w'.process.mappings = (w.process.unmap 0 n).mappings) : KeepsAbove n w w' := by
  intro m h hle
  rw [hm]
  exact Process.mem_unmap h (Process.not_meets_null h hle)

end KeepsAbove

/-- A mapping as `mmap` places it. -/
structure Placed (env : Env) (w : World) (m : Mapping) : Prop where
  paged : m.Paged
  apart : ∀ m' ∈ w.process.mappings, m.Apart m'
  limit_le : env.limit ≤ m.addr
  len_le : m.len ≤ m.addr

theorem Placed.of_mappings_eq {env : Env} {w w' : World} {m : Mapping} (h : Placed env w m)
    (hm : w.process.mappings = w'.process.mappings) : Placed env w' m :=
  ⟨h.paged, by rw [← hm]; exact h.apart, h.limit_le, h.len_le⟩

/-- The mapping of an object on segment `i`. -/
abbrev SharedMemory.mapping (shm : SharedMemory) (i : Nat) : Mapping := ⟨shm.shmPtr, shm.size, i, 0⟩

/-- `shm` is open and mapped, on the segment `i` the name is bound to. -/
structure Opened (name : String) (i : Nat) (shm : SharedMemory) (w : World) : Prop where
  created : shm.created = false
  mapping : shm.mapping i ∈ w.process.mappings
  above : shm.size ≤ shm.shmPtr
  size_eq : (w.kernel.segments i).size = shm.size
  bound : w.kernel.names name = some i

namespace Opened

variable {name : String} {i : Nat} {shm : SharedMemory} {w : World}

/-- An open object maps at least one byte, for `mmap` refuses an empty length. -/
theorem size_ne (ho : Opened name i shm w) : shm.size ≠ 0 :=
  (w.process.paged _ ho.mapping).len_ne

/-- An open object's address is no null pointer, the one the destructor looks for. -/
theorem ptr_ne (ho : Opened name i shm w) : shm.shmPtr ≠ 0 := by
  have hne := ho.size_ne
  have habove := ho.above
  omega

/-- The object stays open where its mapping is kept. -/
theorem of_keepsAbove {w' : World} (ho : Opened name i shm w) (hk : w'.kernel = w.kernel)
    (hm : KeepsAbove shm.size w w') : Opened name i shm w' := by
  refine ⟨ho.created, hm _ ho.mapping ho.above, ho.above, ?_, ?_⟩
  · rw [hk]
    exact ho.size_eq
  · rw [hk]
    exact ho.bound

/-- The segment behind the pointer of an open object. -/
theorem segAt_eq (ho : Opened name i shm w) : w.segAt shm.shmPtr = some i :=
  World.segAt_eq ho.mapping rfl (by rw [ho.size_eq]; exact ho.size_ne)

/-- A page starts on a cache line. -/
theorem ptr_aligned (ho : Opened name i shm w) : shm.shmPtr % spscCacheLineSize = 0 := by
  have hpage := (w.process.paged _ ho.mapping).addr_mod
  change shm.shmPtr % 4096 = 0 at hpage
  change shm.shmPtr % 64 = 0
  omega

end Opened

/-! ### Inversion of single calls

What a call can have done, whatever its outcome. -/

namespace World

variable {env : Env} {w w' : World}

/-- `shm_open` failed, opened the segment the name is bound to, or bound the name to a new one. -/
theorem shmOpen_inv {name : String} {flags : OpenFlags} {r : Except Errno Nat}
    (h : exec env (.shmOpen name flags) w = some (r, w')) :
    (∃ e, r = .error e ∧ w'.kernel = w.kernel ∧ w'.process = w.process) ∨
      (∃ i, (flags.creat && flags.excl) = false ∧ w.kernel.names name = some i ∧
        r = .ok (w.process.openFile i).1 ∧
        w'.kernel = (if flags.trunc then w.kernel.truncate i 0 (by decide) else w.kernel) ∧
        w'.process = (w.process.openFile i).2) ∨
      (flags.creat = true ∧ w.kernel.names name = none ∧
        r = .ok (w.process.openFile w.kernel.next).1 ∧ w'.kernel = w.kernel.create name ∧
        w'.process = (w.process.openFile w.kernel.next).2) := by
  have hcall := Option.some.inj h
  rcases failing_cases env (shmOpen name flags) w with ⟨e, -, heq⟩ | ⟨-, heq⟩
  · obtain ⟨rfl, rfl⟩ := Prod.mk.inj (hcall.symm.trans heq)
    exact .inl ⟨e, rfl, rfl, rfl⟩
  · obtain ⟨rfl, rfl⟩ := Prod.mk.inj (hcall.symm.trans heq)
    cases hb : w.kernel.names name with
    | some i =>
      -- a bound name refuses exclusive creation
      cases hx : flags.creat && flags.excl with
      | true =>
        rw [shmOpen_excl hb hx]
        exact .inl ⟨.eexist, rfl, rfl, rfl⟩
      | false =>
        rw [shmOpen_bound hb hx]
        exact .inr (.inl ⟨i, rfl, rfl, rfl, rfl, rfl⟩)
    | none =>
      -- a name that is not bound is only created with `O_CREAT`
      cases hc : flags.creat with
      | true =>
        rw [shmOpen_create hb hc]
        exact .inr (.inr ⟨rfl, rfl, rfl, rfl, rfl⟩)
      | false =>
        rw [shmOpen_missing hb hc]
        exact .inl ⟨.enoent, rfl, rfl, rfl⟩

/-- **`ftruncate`**, inverted: it fails and changes nothing, or it resizes the open segment and
nothing else. -/
theorem ftruncate_inv {fd : Int} {size i : Nat} {r : Except Errno Unit}
    (hfd : w.process.fileSeg fd = some i) (h : exec env (.ftruncate fd size) w = some (r, w')) :
    (∃ e, r = .error e ∧ w'.kernel = w.kernel ∧ w'.process = w.process) ∨
      (∃ hlt, r = .ok () ∧ w'.kernel = w.kernel.truncate i size hlt ∧
        w'.process = w.process) := by
  have hcall := Option.some.inj h
  rcases failing_cases env (ftruncate fd size) w with ⟨e, -, heq⟩ | ⟨-, heq⟩
  · obtain ⟨rfl, rfl⟩ := Prod.mk.inj (hcall.symm.trans heq)
    exact .inl ⟨e, rfl, rfl, rfl⟩
  · obtain ⟨rfl, rfl⟩ := Prod.mk.inj (hcall.symm.trans heq)
    -- `off_t` is signed
    by_cases hlt : size < 2 ^ 63
    · rw [ftruncate_eq hfd hlt]
      exact .inr ⟨hlt, rfl, rfl, rfl⟩
    · rw [ftruncate_negative hfd hlt]
      exact .inl ⟨.einval, rfl, rfl, rfl⟩

/-- **`fstat`**, inverted: it changes nothing, and a size it answers is that of the open segment.
-/
theorem fstat_inv {fd : Int} {i : Nat} {r : Except Errno Nat}
    (hfd : w.process.fileSeg fd = some i) (h : exec env (.fstat fd) w = some (r, w')) :
    ((∃ e, r = .error e) ∨ r = .ok (w.kernel.segments i).size) ∧ w'.kernel = w.kernel ∧
      w'.process = w.process := by
  have hcall := Option.some.inj h
  rcases failing_cases env (fstat fd) w with ⟨e, -, heq⟩ | ⟨-, heq⟩
  · obtain ⟨rfl, rfl⟩ := Prod.mk.inj (hcall.symm.trans heq)
    exact ⟨.inl ⟨e, rfl⟩, rfl, rfl⟩
  · obtain ⟨rfl, rfl⟩ := Prod.mk.inj (hcall.symm.trans heq)
    rw [fstat_eq hfd]
    exact ⟨.inr rfl, rfl, rfl⟩

/-- Constructing a storage stores bytes of one segment, and nothing else. -/
theorem construct_inv {ptr n : Nat} {r : Unit}
    (h : exec env (.construct ptr n) w = some (r, w')) :
    ∃ i m, w'.kernel = w.kernel.setBytes i m ∧ w'.process = w.process := by
  simp only [exec] at h
  split at h
  · exact absurd h (by simp)
  · obtain ⟨-, rfl⟩ := Prod.mk.inj (Option.some.inj h)
    exact ⟨_, _, rfl, rfl⟩

/-- Reading the record of a storage changes nothing. -/
theorem storage_inv {ptr : Nat} {r : SPSCStorage}
    (h : exec env (.storage ptr) w = some (r, w')) : w' = w := by
  simp only [exec] at h
  split at h
  · exact absurd h (by simp)
  · exact (Prod.mk.inj (Option.some.inj h)).2.symm

/-- `mmap` on an open segment. -/
theorem mmap_cases (env : Env) {w : World} {len fd i : Nat} (hfd : w.process.fileSeg fd = some i) :
    (len = 0 ∧ mmap env len fd w = (.error .einval, w)) ∨
      ∃ (addr : Nat) (h : Placed env w ⟨addr, len, i, 0⟩), mmap env len fd w =
        (.ok addr, { w with process := w.process.addMapping ⟨addr, len, i, 0⟩ h.paged h.apart }) := by
  unfold mmap
  rw [hfd]
  by_cases hz : len = 0
  · exact .inl ⟨hz, dif_pos hz⟩
  · refine .inr ⟨env.address w.calls len w.process.mappings, ⟨⟨env.address_page _ _ _, hz⟩,
      env.apart_address _ _ _ _, env.limit_le _ _ _, env.len_le _ _ _⟩, dif_neg hz⟩

/-- `mmap` failed, or added a mapping of a segment on pages not in use. -/
theorem mmap_inv {len fd i : Nat} {r : Except Errno Nat} (hfd : w.process.fileSeg fd = some i)
    (h : exec env (.mmap len fd) w = some (r, w')) :
    (∃ e, r = .error e ∧ w'.kernel = w.kernel ∧ w'.process = w.process) ∨
      (∃ addr, Placed env w ⟨addr, len, i, 0⟩ ∧ r = .ok addr ∧ w'.kernel = w.kernel ∧
        w'.process.mappings = ⟨addr, len, i, 0⟩ :: w.process.mappings) := by
  have hcall := Option.some.inj h
  rcases failing_cases env (mmap env len fd) w with ⟨e, -, heq⟩ | ⟨-, heq⟩
  · obtain ⟨rfl, rfl⟩ := Prod.mk.inj (hcall.symm.trans heq)
    exact .inl ⟨e, rfl, rfl, rfl⟩
  · obtain ⟨rfl, rfl⟩ := Prod.mk.inj (hcall.symm.trans heq)
    rcases mmap_cases env hfd with ⟨-, hcall'⟩ | ⟨addr, hplaced, hcall'⟩
    · rw [hcall']
      exact .inl ⟨.einval, rfl, rfl, rfl⟩
    · rw [hcall']
      exact .inr ⟨addr, hplaced, rfl, rfl, rfl⟩

end World

namespace SharedMemory

variable {env : Env} {name : String} {w : World} {size : Nat}

/-! ### The destructor and moves -/

/-- The destructor of an object that does not own the name. -/
theorem run_destroy {shm : SharedMemory} (hc : shm.created = false) :
    shm.destroy.run (World.exec env) w = some ((),
      { w with process := (w.process.unmap shm.shmPtr shm.size).closeFile shm.shmFd }) := by
  unfold destroy munmap close
  simp only [Prog.step_bind, Prog.ret_bind, hc, Bool.false_eq_true, if_false]
  rfl

/-- **The destructor** of an object that was not created by it. -/
theorem runs_destroy {shm : SharedMemory} (hc : shm.created = false) :
    Runs (World.exec env) shm.destroy w fun _ w' => w'.kernel = w.kernel ∧
      ∀ m ∈ w.process.mappings, ¬ m.Meets shm.shmPtr (shm.shmPtr + pageCeil shm.size) →
        m ∈ w'.process.mappings := by
  refine Runs.of_run (run_destroy hc) ⟨rfl, fun m hm hno => ?_⟩
  change m ∈ ((w.process.unmap _ _).closeFile _).mappings
  rw [Process.mappings_closeFile]
  exact Process.mem_unmap hm hno

/-- What is left of an object that was moved is not there any more: the pages from the null page on
are. -/
theorem runs_destroy_moved {shm : SharedMemory} (hc : shm.created = false) :
    Runs (World.exec env) shm.moveConstruct.2.destroy w fun _ w' => w'.kernel = w.kernel ∧
      w'.process.files = w.process.files ∧ w'.calls = w.calls ∧ KeepsAbove shm.size w w' :=
  Runs.of_run (@run_destroy _ _ shm.moveConstruct.2 hc) ⟨rfl, rfl, rfl, .unmap rfl⟩

/-- What is apart from the mapping of an object is kept by its destructor. -/
theorem not_meets_of_apart {shm : SharedMemory} {i : Nat} {m : Mapping}
    (h : m.Apart (shm.mapping i)) : ¬ m.Meets shm.shmPtr (shm.shmPtr + pageCeil shm.size) := h

/-- **Moving an object out.** -/
theorem runs_moveOut {shm : SharedMemory} (hc : shm.created = false) :
    Runs (World.exec env) shm.moveOut w fun shm' w' => shm' = shm ∧ w'.kernel = w.kernel ∧
      w'.process.files = w.process.files ∧ w'.calls = w.calls ∧ KeepsAbove shm.size w w' :=
  Runs.bind ((runs_destroy_moved hc).mono fun _ _ h => Runs.ret ⟨rfl, h⟩)

/-! ### Mapping and sizing an open object -/

/-- What `mapped` does with a segment of `size` bytes. -/
structure Maps (env : Env) (name : String) (i size : Nat) (w : World)
    (r : Except PosixIpcError SharedMemory) (w' : World) : Prop where
  kernel : w'.kernel = w.kernel
  kept : KeepsAbove size w w'
  succeeds : env.Plentiful → size ≠ 0 → ∃ shm, r = .ok shm
  opened : ∀ shm, r = .ok shm →
    Opened name i shm w' ∧ shm.size = size ∧ Placed env w (shm.mapping i)

/-- Closing the descriptor on the way out. -/
theorem runs_close {fd : Int} {err : PosixIpcError}
    {Q : Except PosixIpcError SharedMemory → World → Prop}
    (h : Q (.error err) { w with process := w.process.closeFile fd }) :
    Runs (World.exec env) (close fd >>= fun _ => .ret (.error err)) w Q :=
  Runs.step rfl (Runs.ret h)

/-- An attempt to map that failed. -/
theorem Maps.failed {i : Nat} {w₁ : World} {fd : Int} {err : PosixIpcError}
    (hk : w₁.kernel = w.kernel) (hm : w₁.process.mappings = w.process.mappings)
    (hno : env.Plentiful → size ≠ 0 → False) :
    Maps env name i size w (.error err) { w₁ with process := w₁.process.closeFile fd } := by
  refine ⟨hk, .of_mappings_eq ?_, fun hp hne => (hno hp hne).elim, fun shm h => absurd h (by simp)⟩
  change (w₁.process.closeFile fd).mappings = _
  rw [Process.mappings_closeFile, hm]

/-- **The mapping.** -/
theorem runs_mapped {fd i : Nat} (hfd : w.process.fileSeg fd = some i)
    (hb : w.kernel.names name = some i) (hs : (w.kernel.segments i).size = size) :
    Runs (World.exec env) (mapped name size fd) w (Maps env name i size w) := by
  unfold mapped mmap
  simp only [Prog.step_bind, Prog.ret_bind]
  rcases World.failing_cases env (World.mmap env size fd) w with ⟨e, hf, heq⟩ | ⟨hf, heq⟩
  · -- `mmap` fails for want of resources
    refine Runs.step (congrArg some heq) (runs_close (.failed rfl rfl fun hp _ => ?_))
    exact absurd hf hp.fault_ne
  · refine Runs.step (congrArg some heq) ?_
    rcases World.mmap_cases env hfd with ⟨hz, hcall⟩ | ⟨addr, hplaced, hcall⟩
    · -- an empty mapping is refused
      rw [hcall]
      exact runs_close (.failed rfl rfl fun _ hnz => hnz hz)
    · rw [hcall]
      -- the object is moved, and the destructor of what is left does not reach the new mapping
      refine Runs.bind ((runs_moveOut rfl).mono fun shm' w' h => Runs.ret ?_)
      obtain ⟨rfl, hk, -, -, hkept⟩ := h
      refine ⟨hk, fun m hm => hkept m (List.mem_cons_of_mem _ hm), fun _ _ => ⟨_, rfl⟩, ?_⟩
      intro shm hshm
      obtain rfl := Except.ok.inj hshm
      refine ⟨⟨rfl, hkept _ List.mem_cons_self hplaced.len_le, hplaced.len_le, ?_, ?_⟩, rfl,
        hplaced⟩
      · rw [hk]
        exact hs
      · rw [hk]
        exact hb

/-- Opening an existing object: the kernel is only looked at. -/
theorem runs_sized_open {fd i : Nat} (hfd : w.process.fileSeg fd = some i)
    (hb : w.kernel.names name = some i) :
    Runs (World.exec env) (sized name size false fd) w
      (Maps env name i (w.kernel.segments i).size w) := by
  unfold sized fstat
  simp only [Bool.false_eq_true, if_false, Prog.step_bind, Prog.ret_bind]
  rcases World.failing_cases env (World.fstat fd) w with ⟨e, hf, heq⟩ | ⟨hf, heq⟩
  · refine Runs.step (congrArg some heq) (runs_close (.failed rfl rfl fun hp _ => ?_))
    exact absurd hf hp.fault_ne
  · refine Runs.step (congrArg some heq) ?_
    rw [World.fstat_eq hfd]
    -- the counter of calls is all that `fstat` changes
    refine (runs_mapped (w := { w with calls := w.calls + 1 }) hfd hb rfl).mono fun _ _ h => ?_
    refine ⟨h.kernel, h.kept, h.succeeds, fun shm hshm => ?_⟩
    obtain ⟨ho, hsize, hplaced⟩ := h.opened shm hshm
    exact ⟨ho, hsize, hplaced.of_mappings_eq rfl⟩

/-- What `open_or_create` does when it may create. If the name is bound already, it stays bound to
the same segment. -/
structure Creates (env : Env) (name : String) (size : Nat) (w : World)
    (r : Except PosixIpcError SharedMemory) (w' : World) : Prop where
  frame : Frame name w w'
  kept : KeepsAbove size w w'
  succeeds : env.Plentiful → 0 < size → size < 2 ^ 63 → ∃ shm, r = .ok shm
  opened : ∀ shm, r = .ok shm → ∃ i, Opened name i shm w' ∧ shm.size = size ∧ size < 2 ^ 63 ∧
    Placed env w (shm.mapping i) ∧ ∀ j, w.kernel.names name = some j → i = j

/-- An attempt to create that failed after touching at most the name. -/
theorem Creates.failed {w₁ : World} {err : PosixIpcError} (hF : Frame name w w₁)
    (hm : w₁.process.mappings = w.process.mappings)
    (hno : env.Plentiful → 0 < size → size < 2 ^ 63 → False) :
    Creates env name size w (.error err) w₁ :=
  ⟨hF, .of_mappings_eq hm, fun hp hpos hlt => (hno hp hpos hlt).elim,
    fun shm h => absurd h (by simp)⟩

/-- A first step that touches at most the name. -/
theorem Creates.after {w₁ w' : World} {r : Except PosixIpcError SharedMemory}
    (h : Creates env name size w₁ r w') (hF : Frame name w w₁)
    (hm : w₁.process.mappings = w.process.mappings)
    (hb : ∀ j, w.kernel.names name = some j → w₁.kernel.names name = some j) :
    Creates env name size w r w' := by
  refine ⟨hF.trans h.frame, (KeepsAbove.of_mappings_eq hm).trans h.kept, h.succeeds,
    fun shm hshm => ?_⟩
  obtain ⟨i, ho, hsize, hlt, hplaced, hsame⟩ := h.opened shm hshm
  exact ⟨i, ho, hsize, hlt, hplaced.of_mappings_eq hm, fun j hj => hsame j (hb j hj)⟩

/-- The rest of `open_or_create` with `create`, once the descriptor is there: the segment is
resized and mapped, or the descriptor is closed. -/
theorem runs_sized_create {fd i : Nat} (hfd : w.process.fileSeg fd = some i)
    (hb : w.kernel.names name = some i) :
    Runs (World.exec env) (sized name size true fd) w (Creates env name size w) := by
  have hname := w.kernel.names_name name i hb
  unfold sized ftruncate
  simp only [if_true]
  by_cases hz : size = 0
  · -- the descriptor stays open here
    rw [if_pos hz]
    exact Runs.ret (.failed (.refl _ _) rfl fun _ hpos _ => absurd hz (by omega))
  · rw [if_neg hz]
    simp only [Prog.step_bind, Prog.ret_bind]
    rcases World.failing_cases env (World.ftruncate fd size) w with ⟨e, hf, heq⟩ | ⟨hf, heq⟩
    · refine Runs.step (congrArg some heq) (runs_close (.failed (.of_kernel_eq rfl)
        (Process.mappings_closeFile _ _) fun hp _ _ => ?_))
      exact absurd hf hp.fault_ne
    · refine Runs.step (congrArg some heq) ?_
      by_cases hlt : size < 2 ^ 63
      · rw [World.ftruncate_eq hfd hlt]
        -- the segment has the size asked for, whatever it had before
        have hsize : ((w.kernel.truncate i size hlt).segments i).size = size :=
          congrArg Segment.size (if_pos rfl)
        have hF : Frame name w
            { kernel := w.kernel.truncate i size hlt, process := w.process,
              calls := w.calls + 1 } :=
          .truncate hname rfl
        refine (runs_mapped (w := ⟨w.kernel.truncate i size hlt, w.process, w.calls + 1⟩) hfd hb
          hsize).mono fun r w' h => ?_
        refine ⟨hF.trans (.of_kernel_eq h.kernel), h.kept,
          fun hp hpos _ => h.succeeds hp (by omega), fun shm hshm => ?_⟩
        obtain ⟨ho, hs, hplaced⟩ := h.opened shm hshm
        exact ⟨i, ho, hs, hlt, hplaced.of_mappings_eq rfl,
          fun j hj => Option.some.inj (hb.symm.trans hj)⟩
      · rw [World.ftruncate_negative hfd hlt]
        exact runs_close (.failed (.of_kernel_eq rfl) (Process.mappings_closeFile _ _)
          fun _ _ h => hlt h)

/-! ### `open_or_create` and `open` -/

/-- A created name is bound to the segment of the next number. -/
theorem names_create (k : Kernel) (name : String) : (k.create name).names name = some k.next :=
  if_pos rfl

/-- **`open_or_create` with `create`.** -/
theorem runs_openOrCreate :
    Runs (World.exec env) (openOrCreate name size true) w (Creates env name size w) := by
  unfold openOrCreate shmOpen
  simp only [Prog.step_bind, Prog.ret_bind]
  rcases World.failing_cases env (World.shmOpen name (openFlags true)) w with
    ⟨e, hf, heq⟩ | ⟨hf, heq⟩
  · refine Runs.step (congrArg some heq) ?_
    simp only [if_neg (Env.ne_eexist_of_fault hf)]
    refine Runs.ret (.failed (.of_kernel_eq rfl) rfl fun hp _ _ => ?_)
    exact absurd hf hp.fault_ne
  · refine Runs.step (congrArg some heq) ?_
    cases hb : w.kernel.names name with
    | none =>
      -- a new segment
      rw [World.shmOpen_create hb rfl]
      refine (runs_sized_create (Process.fileSeg_openFile _ _) (names_create _ _)).mono
        fun r w' h => h.after (.create rfl) rfl fun j hj => ?_
      exact absurd (hb.symm.trans hj) (by simp)
    | some i =>
      -- the name is taken: once more, without `O_EXCL`
      rw [World.shmOpen_excl hb rfl]
      simp only [if_true]
      rcases World.failing_cases env (World.shmOpen name { openFlags true with excl := false })
        { w with calls := w.calls + 1 } with ⟨e, hf', heq'⟩ | ⟨hf', heq'⟩
      · refine Runs.step (congrArg some heq')
          (Runs.ret (.failed (.of_kernel_eq rfl) rfl fun hp _ _ => ?_))
        exact absurd hf' hp.fault_ne
      · refine Runs.step (congrArg some heq') ?_
        rw [World.shmOpen_bound (w := { w with calls := w.calls + 1 }) hb rfl]
        -- the second attempt carries `O_TRUNC`: the segment loses its bytes
        have hF : Frame name w ⟨w.kernel.truncate i 0 (by decide), (w.process.openFile i).2,
            w.calls + 1 + 1⟩ :=
          .truncate (w.kernel.names_name name i hb) rfl
        exact (runs_sized_create
          (w := ⟨w.kernel.truncate i 0 (by decide), (w.process.openFile i).2, w.calls + 1 + 1⟩)
          (Process.fileSeg_openFile _ _) hb).mono fun r w' h => h.after hF rfl fun j hj => hj

/-- What `open` does. -/
structure Opens (env : Env) (name : String) (w : World) (r : Except PosixIpcError SharedMemory)
    (w' : World) : Prop where
  kernel : w'.kernel = w.kernel
  kept : ∀ n, (∀ i, w.kernel.names name = some i → (w.kernel.segments i).size ≤ n) →
    KeepsAbove n w w'
  succeeds : env.Plentiful → ∀ i, w.kernel.names name = some i → (w.kernel.segments i).size ≠ 0 →
    ∃ shm, r = .ok shm
  opened : ∀ shm, r = .ok shm → ∃ i, w.kernel.names name = some i ∧ Opened name i shm w' ∧
    shm.size = (w.kernel.segments i).size ∧ Placed env w (shm.mapping i)

/-- **`open`**, which is `open_or_create` without `create`; the size is not used. -/
theorem runs_open :
    Runs (World.exec env) (openOrCreate name size false) w (Opens env name w) := by
  unfold openOrCreate shmOpen
  simp only [Prog.step_bind, Prog.ret_bind]
  rcases World.failing_cases env (World.shmOpen name (openFlags false)) w with
    ⟨e, hf, heq⟩ | ⟨hf, heq⟩
  · refine Runs.step (congrArg some heq) ?_
    simp only [if_neg (Env.ne_eexist_of_fault hf)]
    refine Runs.ret ⟨rfl, fun n _ => .of_mappings_eq rfl, fun hp => ?_,
      fun shm h => absurd h (by simp)⟩
    exact absurd hf hp.fault_ne
  · refine Runs.step (congrArg some heq) ?_
    cases hb : w.kernel.names name with
    | none =>
      -- no such name
      rw [World.shmOpen_missing hb rfl]
      refine Runs.ret ⟨rfl, fun n _ => .of_mappings_eq rfl, fun _ i hi => ?_,
        fun shm h => absurd h (by simp)⟩
      exact absurd (hb.symm.trans hi) (by simp)
    | some i =>
      rw [World.shmOpen_bound hb rfl]
      refine (runs_sized_open (w := ⟨w.kernel, (w.process.openFile i).2, w.calls + 1⟩)
        (Process.fileSeg_openFile _ _) hb).mono fun r w' h => ?_
      refine ⟨h.kernel, fun n hn => h.kept.mono (hn i hb), fun hp j hj hne => ?_,
        fun shm hshm => ?_⟩
      · obtain rfl := Option.some.inj (hb.symm.trans hj)
        exact h.succeeds hp hne
      · obtain ⟨ho, hs, hplaced⟩ := h.opened shm hshm
        exact ⟨i, hb, ho, hs, hplaced.of_mappings_eq rfl⟩

/-! ### `exists` -/

/-- What `exists` does: a bound name is reported and nothing changes. -/
structure Probes (env : Env) (name : String) (w : World) (b : Bool) (w' : World) : Prop where
  frame : Frame name w w'
  mappings : w'.process.mappings = w.process.mappings
  bound : ∀ i, w.kernel.names name = some i → w'.kernel = w.kernel
  reported : b = true → ∃ i, w.kernel.names name = some i
  found : env.Plentiful → ∀ i, w.kernel.names name = some i → b = true

/-- **`exists`.** -/
theorem runs_exists :
    Runs (World.exec env) (SharedMemory.exists name) w (Probes env name w) := by
  unfold SharedMemory.exists shmOpen
  simp only [Prog.step_bind, Prog.ret_bind]
  rcases World.failing_cases env (World.shmOpen name { creat := true, excl := true }) w with
    ⟨e, hf, heq⟩ | ⟨hf, heq⟩
  · refine Runs.step (congrArg some heq) ?_
    have hne := Env.ne_eexist_of_fault hf
    refine Runs.ret ⟨.of_kernel_eq rfl, rfl, fun _ _ => rfl,
      fun hb => absurd hb (by simpa using hne), fun hp => ?_⟩
    exact absurd hf hp.fault_ne
  · refine Runs.step (congrArg some heq) ?_
    cases hb : w.kernel.names name with
    | some i =>
      rw [World.shmOpen_excl hb rfl]
      exact Runs.ret ⟨.of_kernel_eq rfl, rfl, fun _ _ => rfl,
        fun _ => ⟨i, hb⟩, fun _ _ _ => by simp⟩
    | none =>
      rw [World.shmOpen_create hb rfl]
      have hnone : ∀ i, w.kernel.names name ≠ some i := by
        intro i hi
        exact absurd (hb.symm.trans hi) (by simp)
      have hcreate : Frame name w ⟨w.kernel.create name,
          (w.process.openFile w.kernel.next).2, w.calls + 1⟩ := .create rfl
      -- the probe is only cleaned up if its descriptor is positive
      by_cases hfd : 0 < (w.process.openFile w.kernel.next).1
      · simp only [if_pos hfd]
        refine Runs.step rfl (Runs.step rfl (Runs.ret ⟨hcreate.trans (.unlink rfl), ?_,
          fun i hi => absurd hi (hnone i), fun h => absurd h (by simp),
          fun _ i hi => absurd hi (hnone i)⟩))
        exact Process.mappings_closeFile _ _
      · simp only [if_neg hfd]
        exact Runs.ret ⟨hcreate, rfl, fun i hi => absurd hi (hnone i),
          fun h => absurd h (by simp), fun _ i hi => absurd hi (hnone i)⟩

end SharedMemory

/-! ### Room below the limit -/

/-- The objects have no more than `limit` bytes. -/
def Kernel.Within (limit : Nat) (k : Kernel) : Prop :=
  ∀ i, i < k.next → (k.segments i).size ≤ limit

instance (limit : Nat) (k : Kernel) : Decidable (k.Within limit) :=
  inferInstanceAs (Decidable (∀ i, i < k.next → (k.segments i).size ≤ limit))

/-- The objects have no more bytes than the environment leaves free below the mappings. -/
structure World.Roomy (env : Env) (w : World) : Prop where
  within : w.kernel.Within env.limit
  mappings : ∀ m ∈ w.process.mappings, env.limit ≤ m.addr

instance (env : Env) (w : World) : Decidable (w.Roomy env) :=
  decidable_of_iff (w.kernel.Within env.limit ∧ ∀ m ∈ w.process.mappings, env.limit ≤ m.addr)
    ⟨fun h => ⟨h.1, h.2⟩, fun h => ⟨h.1, h.2⟩⟩

/-- The call gives no object more than `limit` bytes. -/
def SysCall.Sizes (limit : Nat) : SysCall → Prop
  | .ftruncate _ size => size ≤ limit
  | _ => True

namespace Kernel.Within

variable {limit : Nat} {k : Kernel} {i : Nat}

theorem update (h : k.Within limit) {s : Segment} {hs : s.name = (k.segments i).name}
    (hsize : s.size ≤ limit) : (k.update i s hs).Within limit := by
  intro j hj
  change (if j = i then s else k.segments j).size ≤ limit
  split
  · exact hsize
  · exact h j hj

theorem create (h : k.Within limit) (name : String) : (k.create name).Within limit := by
  intro j hj
  change (if j = k.next then Segment.empty (shmObject name) else k.segments j).size ≤ limit
  split
  · exact Nat.zero_le limit
  · next hne => exact h j (lt_of_le_of_ne (Nat.lt_succ_iff.mp hj) hne)

theorem truncate (h : k.Within limit) {size : Nat} {hlt : size < 2 ^ 63} (hsize : size ≤ limit) :
    (k.truncate i size hlt).Within limit :=
  h.update hsize

/-- Storing bytes changes no size, also of a number that stands for no segment. -/
theorem setBytes (h : k.Within limit) (m : Mem) : (k.setBytes i m).Within limit := by
  intro j hj
  change (if j = i then { k.segments i with bytes := m } else k.segments j).size ≤ limit
  split
  · next hji =>
    rw [hji] at hj
    exact h i hj
  · exact h j hj

end Kernel.Within

namespace World

variable {env : Env} {w w' : World}

/-- What holds after a refusal and after the call itself holds after a call that may be refused.
-/
theorem failing_inv {α : Type} {call : World → Except Errno α × World} {P : World → Prop}
    (hfail : P { w with calls := w.calls + 1 })
    (hcall : P { (call w).2 with calls := w.calls + 1 }) : P (failing env call w).2 := by
  rcases failing_cases env call w with ⟨e, -, heq⟩ | ⟨-, heq⟩
  · rw [heq]
    exact hfail
  · rw [heq]
    exact hcall

/-- **A call** that gives no object too large a size leaves room where there was. -/
theorem Roomy.exec (hw : w.Roomy env) {o : SysCall} (ho : o.Sizes env.limit) {r : o.Ret}
    (h : World.exec env o w = some (r, w')) : w'.Roomy env := by
  cases o with
  | shmOpen name flags =>
    rcases shmOpen_inv h with ⟨e, -, hk, hp⟩ | ⟨i, -, -, -, hk, hp⟩ | ⟨-, -, -, hk, hp⟩
    · exact ⟨by rw [hk]; exact hw.within, by rw [hp]; exact hw.mappings⟩
    · refine ⟨?_, by rw [hp]; exact hw.mappings⟩
      rw [hk]
      split
      · exact hw.within.truncate (Nat.zero_le _)
      · exact hw.within
    · exact ⟨by rw [hk]; exact hw.within.create name, by rw [hp]; exact hw.mappings⟩
  | ftruncate fd size =>
    obtain ⟨-, rfl⟩ := Prod.mk.inj (Option.some.inj h)
    refine failing_inv ⟨hw.within, hw.mappings⟩ ?_
    unfold ftruncate
    split
    · exact ⟨hw.within, hw.mappings⟩
    · split
      · exact ⟨hw.within.truncate ho, hw.mappings⟩
      · exact ⟨hw.within, hw.mappings⟩
  | fstat fd =>
    obtain ⟨-, rfl⟩ := Prod.mk.inj (Option.some.inj h)
    refine failing_inv ⟨hw.within, hw.mappings⟩ ?_
    unfold fstat
    split
    · exact ⟨hw.within, hw.mappings⟩
    · exact ⟨hw.within, hw.mappings⟩
  | mmap len fd =>
    obtain ⟨-, rfl⟩ := Prod.mk.inj (Option.some.inj h)
    refine failing_inv ⟨hw.within, hw.mappings⟩ ?_
    unfold mmap
    split
    · exact ⟨hw.within, hw.mappings⟩
    · split
      · exact ⟨hw.within, hw.mappings⟩
      · -- the new mapping is placed from the limit on
        exact ⟨hw.within, List.forall_mem_cons.mpr ⟨env.limit_le _ _ _, hw.mappings⟩⟩
  | munmap addr len =>
    obtain ⟨-, rfl⟩ := Prod.mk.inj (Option.some.inj h)
    refine ⟨hw.within, fun n hn => ?_⟩
    obtain ⟨m, hm, hwithin⟩ := Process.of_mem_unmap hn
    exact (hw.mappings m hm).trans hwithin.addr_le
  | close fd =>
    obtain ⟨-, rfl⟩ := Prod.mk.inj (Option.some.inj h)
    refine ⟨hw.within, fun m hm => hw.mappings m ?_⟩
    change m ∈ (w.process.closeFile fd).mappings at hm
    rw [Process.mappings_closeFile] at hm
    exact hm
  | shmUnlink name =>
    obtain ⟨-, rfl⟩ := Prod.mk.inj (Option.some.inj h)
    exact ⟨hw.within, hw.mappings⟩
  | construct ptr n =>
    obtain ⟨i, m, hk, hp⟩ := construct_inv h
    exact ⟨by rw [hk]; exact hw.within.setBytes m, by rw [hp]; exact hw.mappings⟩
  | storage ptr =>
    rw [storage_inv h]
    exact hw
  | access ptr o =>
    simp only [World.exec] at h
    split at h
    · exact absurd h (by simp)
    · split at h
      · exact absurd h (by simp)
      · obtain ⟨-, rfl⟩ := Prod.mk.inj (Option.some.inj h)
        exact ⟨hw.within.setBytes _, hw.mappings⟩

/-- **A program**, likewise. -/
theorem Roomy.run (hw : w.Roomy env) {α : Type} {p : SysProg α} {V : α → Prop}
    (hp : p.All (SysCall.Sizes env.limit) V) {a : α} (h : p.run (World.exec env) w = some (a, w')) :
    w'.Roomy env :=
  (hp.of_run (I := fun w => w.Roomy env) (fun _ ho _ _ _ he hs => hs.exec ho he) h hw).2

end World

end PosixIpc
