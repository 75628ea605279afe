import PosixIpc.Spsc.Queue

/-!
# Shared memory objects of the operating system

The part of POSIX the library rests on: a table of names, the segments they are bound to, and for
each process its open files and its mappings. A `World` is what one process sees, the kernel and its
own tables; several processes are several worlds with one kernel.

A name is passed as a C string, and slashes in front of it do not count: `/queue`, `queue` and
`//queue` stand for one object (`shmObject`). The table of the kernel is one of objects, and what a
name is bound to (`Kernel.names`) is what its object is bound to.

A segment remembers the object it was created as, and an object leads to a segment created as it
(`Kernel.objects_name`): the kernel starts from such a table, and the library neither links nor
renames the files behind the objects. Numbers of segments are not used again.

What the standard leaves open is the environment's choice (`Env`): which calls fail for want of
resources, and where a mapping is placed. A call that fails changes nothing.

`munmap` unmaps every page from the address to the end of the length, whatever mappings they belong
to. The library also calls it with a null pointer and the length of an object, so the pages from the
null page on matter. `Env` assumes that a mapping is placed behind as many pages as it has itself,
as in an address space that is not nearly full, and names an address, `limit`, below which it places
nothing.

Memory is accessed through pointers. An access to a page that is not mapped, or behind the last page
of the segment, ends the process; `World.exec` has no answer then.
-/

namespace PosixIpc

open Framework

/-! ### Errors of the system calls -/

/-- The error numbers the calls can leave in `errno`. -/
inductive Errno where
  | enoent
  | ebadf
  | enomem
  | eacces
  | eexist
  | einval
  | enfile
  | emfile
  | enospc
  deriving DecidableEq, Repr

namespace Errno

/-- The number. -/
def code : Errno → Nat
  | .enoent => 2
  | .ebadf => 9
  | .enomem => 12
  | .eacces => 13
  | .eexist => 17
  | .einval => 22
  | .enfile => 23
  | .emfile => 24
  | .enospc => 28

/-- `strerror`. -/
def strerror : Errno → String
  | .enoent => "No such file or directory"
  | .ebadf => "Bad file descriptor"
  | .enomem => "Cannot allocate memory"
  | .eacces => "Permission denied"
  | .eexist => "File exists"
  | .einval => "Invalid argument"
  | .enfile => "Too many open files in system"
  | .emfile => "Too many open files"
  | .enospc => "No space left on device"

end Errno

/-! ### The state -/

/-- The object a name stands for: the characters before the first null, without the slashes in
front. -/
def shmObject (name : String) : String :=
  String.ofList ((name.toList.takeWhile fun c => c.toNat ≠ 0).dropWhile fun c => c = '/')

/-- A shared memory object. Its size is an `off_t`; its bytes are those of its pages. -/
structure Segment where
  name : String
  size : Nat
  size_lt : size < 2 ^ 63
  bytes : Mem

/-- The objects and the segments. Segments from `next` on have not been created yet. -/
structure Kernel where
  objects : String → Option Nat
  segments : Nat → Segment
  next : Nat
  objects_lt : ∀ a i, objects a = some i → i < next
  objects_name : ∀ a i, objects a = some i → (segments i).name = a

/-- The segment a name is bound to, if there is one. -/
def Kernel.names (k : Kernel) (name : String) : Option Nat := k.objects (shmObject name)

/-- An open file. -/
inductive File where
  | other
  | shm (seg : Nat)
  deriving DecidableEq, Repr

/-- Bytes per page. -/
def pageSize : Nat := 4096

/-- The length of the pages that `n` bytes take up: pages are mapped as a whole. -/
def pageCeil (n : Nat) : Nat := (n + pageSize - 1) / pageSize * pageSize

/-- The last page is used in part. -/
theorem le_pageCeil (n : Nat) : n ≤ pageCeil n := by
  unfold pageCeil pageSize
  omega

/-- A whole number of pages. -/
theorem pageCeil_mod (n : Nat) : pageCeil n % pageSize = 0 := by
  unfold pageCeil pageSize
  omega

/-- Pages end at page boundaries. -/
theorem mod_add_pageCeil {a : Nat} (ha : a % pageSize = 0) (n : Nat) :
    (a + pageCeil n) % pageSize = 0 := by
  unfold pageSize at ha ⊢
  unfold pageCeil pageSize
  omega

/-- A length that fits below a page takes up no more than the pages below it. -/
theorem pageCeil_le {n a : Nat} (ha : a % pageSize = 0) (h : n ≤ a) : pageCeil n ≤ a := by
  unfold pageSize at ha
  unfold pageCeil pageSize
  omega

/-- A mapping of a segment into the address space. What is mapped starts at the offset, which is not
0 if pages in front of the mapping were unmapped. -/
structure Mapping where
  addr : Nat
  len : Nat
  seg : Nat
  offset : Nat := 0
  deriving DecidableEq, Repr

namespace Mapping

/-- The address behind the last page. -/
def stop (m : Mapping) : Nat := m.addr + pageCeil m.len

/-- The mapping starts on a page and has one at least. -/
structure Paged (m : Mapping) : Prop where
  addr_mod : m.addr % pageSize = 0
  len_ne : m.len ≠ 0

/-- The mapping has a page in `[lo, hi)`. -/
def Meets (m : Mapping) (lo hi : Nat) : Prop := m.addr < hi ∧ lo < m.stop

instance (m : Mapping) (lo hi : Nat) : Decidable (m.Meets lo hi) :=
  inferInstanceAs (Decidable (_ ∧ _))

/-- The mappings have no page in common. -/
def Apart (m m' : Mapping) : Prop := ¬ m.Meets m'.addr m'.stop

instance (m m' : Mapping) : Decidable (m.Apart m') := inferInstanceAs (Decidable (¬ _))

/-- The bytes that can be accessed through a mapping: whole pages, as far as the mapping and the
segment reach. -/
def window (m : Mapping) (s : Segment) : Nat := min (pageCeil m.len) (pageCeil s.size)

/-- What is left of a mapping without its pages in `[lo, hi)`: those before, and those behind. -/
def without (m : Mapping) (lo hi : Nat) : List Mapping :=
  if m.Meets lo hi then
    (if m.addr < lo then [{ m with len := lo - m.addr }] else []) ++
      if hi < m.stop then
        [{ m with addr := hi, len := m.addr + m.len - hi, offset := m.offset + (hi - m.addr) }]
      else []
  else [m]

/-- A mapping has a page. -/
theorem Paged.addr_lt_stop {m : Mapping} (h : m.Paged) : m.addr < m.stop := by
  have hlen := h.len_ne
  have hle := le_pageCeil m.len
  unfold stop
  omega

/-- Two mappings are apart if one ends where the other starts, or before. -/
theorem apart_iff {m m' : Mapping} : m.Apart m' ↔ m'.stop ≤ m.addr ∨ m.stop ≤ m'.addr := by
  unfold Apart Meets
  omega

theorem Apart.symm {m m' : Mapping} (h : m.Apart m') : m'.Apart m :=
  apart_iff.mpr (apart_iff.mp h).symm

/-- Mappings that are apart start at different addresses. -/
theorem Apart.addr_ne {m m' : Mapping} (h : m.Apart m') (hm : m.Paged) (hm' : m'.Paged) :
    m.addr ≠ m'.addr := by
  have hlt := hm.addr_lt_stop
  have hlt' := hm'.addr_lt_stop
  rcases apart_iff.mp h with h | h
  · omega
  · omega

/-- Some of the pages of a mapping. -/
structure Within (n m : Mapping) : Prop where
  addr_le : m.addr ≤ n.addr
  stop_le : n.stop ≤ m.stop

/-- Pieces of mappings that are apart are apart. -/
theorem Apart.mono {m m' n n' : Mapping} (h : m.Apart m') (hn : n.Within m) (hn' : n'.Within m') :
    n.Apart n' := by
  have haddr := hn.addr_le
  have hstop := hn.stop_le
  have haddr' := hn'.addr_le
  have hstop' := hn'.stop_le
  rw [apart_iff] at h ⊢
  omega

section Without

variable {m n : Mapping} {lo hi : Nat}

/-- What meets none of the pages stays whole. -/
theorem without_of_not_meets (h : ¬ m.Meets lo hi) : m.without lo hi = [m] := if_neg h

/-- Unmapping all of its pages leaves nothing of a mapping. -/
theorem without_self (hm : m.Paged) : m.without m.addr m.stop = [] := by
  have hmeets : m.Meets m.addr m.stop := ⟨hm.addr_lt_stop, hm.addr_lt_stop⟩
  unfold without
  rw [if_pos hmeets, if_neg (Nat.lt_irrefl _), if_neg (Nat.lt_irrefl _)]
  rfl

/-- What is left is pages of the mapping, and none of those that were unmapped. -/
theorem mem_without (hm : m.Paged) (hlo : lo % pageSize = 0) (hhi : hi % pageSize = 0)
    (h : n ∈ m.without lo hi) : n.Paged ∧ n.Within m ∧ ¬ n.Meets lo hi := by
  have hmod := hm.addr_mod
  have hlen := hm.len_ne
  unfold pageSize at hmod hlo hhi
  unfold without at h
  split at h
  · next hmeets =>
    unfold Meets stop pageCeil pageSize at hmeets
    rcases List.mem_append.mp h with h | h
    · -- the pages before
      split at h
      · next hlt =>
        obtain rfl := List.mem_singleton.mp h
        refine ⟨⟨hmod, ?_⟩, ⟨le_refl _, ?_⟩, ?_⟩
        · change lo - m.addr ≠ 0
          omega
        · change m.addr + (lo - m.addr + 4096 - 1) / 4096 * 4096 ≤
            m.addr + (m.len + 4096 - 1) / 4096 * 4096
          omega
        · change ¬ (m.addr < hi ∧ lo < m.addr + (lo - m.addr + 4096 - 1) / 4096 * 4096)
          omega
      · exact absurd h List.not_mem_nil
    · -- the pages behind
      split at h
      · next hlt =>
        unfold stop pageCeil pageSize at hlt
        obtain rfl := List.mem_singleton.mp h
        refine ⟨⟨hhi, ?_⟩, ⟨?_, ?_⟩, ?_⟩
        · change m.addr + m.len - hi ≠ 0
          omega
        · change m.addr ≤ hi
          omega
        · change hi + (m.addr + m.len - hi + 4096 - 1) / 4096 * 4096 ≤
            m.addr + (m.len + 4096 - 1) / 4096 * 4096
          omega
        · exact fun hno => absurd hno.1 (Nat.lt_irrefl hi)
      · exact absurd h List.not_mem_nil
  · next hno =>
    obtain rfl := List.mem_singleton.mp h
    exact ⟨hm, ⟨le_refl _, le_refl _⟩, hno⟩

/-- What is left of a mapping on the two sides of a range is apart. -/
theorem pairwise_without (hlo : lo % pageSize = 0) (hm : m.Paged) (hlt : lo < hi) :
    (m.without lo hi).Pairwise Apart := by
  have hmod := hm.addr_mod
  unfold pageSize at hmod hlo
  unfold without
  split
  · refine List.pairwise_append.mpr ⟨?_, ?_, fun a ha b hb => ?_⟩
    · split
      · exact List.pairwise_singleton _ _
      · exact List.Pairwise.nil
    · split
      · exact List.pairwise_singleton _ _
      · exact List.Pairwise.nil
    · -- the pages before end where those behind have not begun
      split at ha
      · next hbefore =>
        split at hb
        · obtain rfl := List.mem_singleton.mp ha
          obtain rfl := List.mem_singleton.mp hb
          refine apart_iff.mpr (.inr ?_)
          change m.addr + (lo - m.addr + 4096 - 1) / 4096 * 4096 ≤ hi
          omega
        · exact absurd hb List.not_mem_nil
      · exact absurd ha List.not_mem_nil
  · exact List.pairwise_singleton _ _

end Without

end Mapping

/-- The tables of a process: open files by descriptor, and mappings without pages in common. -/
@[ext]
structure Process where
  files : List (Option File)
  mappings : List Mapping
  paged : ∀ m ∈ mappings, m.Paged
  apart : mappings.Pairwise Mapping.Apart

/-- What a process sees, and how many calls it has made that can fail for want of resources. -/
structure World where
  kernel : Kernel
  process : Process
  calls : Nat

/-- The choices of the environment. Failing for want of resources is never reported as `EEXIST`;
a mapping is placed on pages that are not in use, from the limit on, and behind as many bytes as it
has itself. -/
structure Env where
  fault : Nat → Option Errno
  fault_ne_eexist : ∀ n, fault n ≠ some .eexist
  limit : Nat
  /-- Where the mapping of `len` bytes goes, given those in use. -/
  address : (n len : Nat) → (used : List Mapping) → Nat
  address_page : ∀ n len used, address n len used % pageSize = 0
  address_free : ∀ n len (used : List Mapping), ∀ m ∈ used,
    ¬ m.Meets (address n len used) (address n len used + pageCeil len)
  limit_le : ∀ n len used, limit ≤ address n len used
  len_le : ∀ n len used, len ≤ address n len used

/-- Nothing fails for want of resources. -/
def Env.Plentiful (env : Env) : Prop := ∀ n, env.fault n = none

theorem Env.Plentiful.fault_ne {env : Env} (h : env.Plentiful) {n : Nat} {e : Errno} :
    env.fault n ≠ some e := by
  rw [h n]
  simp

/-- A mapping at the address chosen for it is apart from those in use. -/
theorem Env.apart_address (env : Env) (n len seg : Nat) (used : List Mapping) :
    ∀ m ∈ used, Mapping.Apart ⟨env.address n len used, len, seg, 0⟩ m :=
  fun m hm => Mapping.Apart.symm (env.address_free n len used m hm)

/-- The kernel does not report `EEXIST` for want of resources, so the retry of `open_or_create`
is reserved for names that are bound. -/
theorem Env.ne_eexist_of_fault {env : Env} {n : Nat} {e : Errno} (h : env.fault n = some e) :
    e ≠ .eexist := by
  rintro rfl
  exact env.fault_ne_eexist n h

/-! ### The kernel -/

namespace Segment

/-- A segment without bytes. -/
def empty (name : String) : Segment := ⟨name, 0, by decide, fun _ => 0⟩

/-- A segment cut or extended to `size` bytes. What is cut off and what is added reads as zero. -/
def resize (s : Segment) (size : Nat) (h : size < 2 ^ 63) : Segment where
  name := s.name
  size := size
  size_lt := h
  bytes := fun i => if i < s.size ∧ i < size then s.bytes i else 0

end Segment

namespace Kernel

/-- Names are bound to segments that are there. -/
theorem names_lt (k : Kernel) (name : String) (i : Nat) (h : k.names name = some i) : i < k.next :=
  k.objects_lt (shmObject name) i h

/-- A bound name leads to a segment created as the object it stands for. -/
theorem names_name (k : Kernel) (name : String) (i : Nat) (h : k.names name = some i) :
    (k.segments i).name = shmObject name :=
  k.objects_name (shmObject name) i h

/-- Names that stand for one object are bound to the same segment. -/
theorem names_congr (k : Kernel) {a name : String} (h : shmObject a = shmObject name) :
    k.names a = k.names name :=
  congrArg k.objects h

/-- Bind the object `name` stands for to a new segment. -/
def create (k : Kernel) (name : String) : Kernel where
  objects := fun a => if a = shmObject name then some k.next else k.objects a
  segments := fun i => if i = k.next then Segment.empty (shmObject name) else k.segments i
  next := k.next + 1
  objects_lt := by
    intro a i h
    split at h
    · obtain rfl := Option.some.inj h
      exact Nat.lt_succ_self _
    · exact Nat.lt_succ_of_lt (k.objects_lt a i h)
  objects_name := by
    intro a i h
    split at h
    · next ha =>
      obtain rfl := Option.some.inj h
      rw [if_pos rfl]
      exact ha.symm
    · have hlt := k.objects_lt a i h
      rw [if_neg (Nat.ne_of_lt hlt)]
      exact k.objects_name a i h

/-- Unbind the object `name` stands for. The segment stays for whoever has it open or mapped. -/
def unlink (k : Kernel) (name : String) : Kernel where
  objects := fun a => if a = shmObject name then none else k.objects a
  segments := k.segments
  next := k.next
  objects_lt := by
    intro a i h
    split at h
    · exact absurd h (by simp)
    · exact k.objects_lt a i h
  objects_name := by
    intro a i h
    split at h
    · exact absurd h (by simp)
    · exact k.objects_name a i h

/-- Change a segment, but not the object it was created as. -/
def update (k : Kernel) (i : Nat) (s : Segment) (h : s.name = (k.segments i).name) : Kernel where
  objects := k.objects
  segments := fun j => if j = i then s else k.segments j
  next := k.next
  objects_lt := k.objects_lt
  objects_name := by
    intro a j hj
    split
    · next hji =>
      rw [h, ← hji]
      exact k.objects_name a j hj
    · exact k.objects_name a j hj

/-- Resize a segment. -/
def truncate (k : Kernel) (i size : Nat) (h : size < 2 ^ 63) : Kernel :=
  k.update i ((k.segments i).resize size h) rfl

/-- Store the bytes of a segment. -/
def setBytes (k : Kernel) (i : Nat) (m : Mem) : Kernel :=
  k.update i { k.segments i with bytes := m } rfl

end Kernel

/-! ### Tables of a process -/

namespace Process

/-- The lowest free descriptor, and the table with it in use. -/
def allocate (f : File) : List (Option File) → Nat × List (Option File)
  | [] => (0, [some f])
  | none :: rest => (0, some f :: rest)
  | some g :: rest => ((allocate f rest).1 + 1, some g :: (allocate f rest).2)

/-- The segment open as `fd`. -/
def fileSeg (p : Process) (fd : Int) : Option Nat :=
  match fd with
  | .ofNat n =>
    match p.files[n]? with
    | some (some (.shm i)) => some i
    | _ => none
  | .negSucc _ => none

/-- Open a file. -/
def openFile (p : Process) (i : Nat) : Nat × Process :=
  let (fd, files) := allocate (.shm i) p.files
  (fd, { p with files := files })

/-- Close a descriptor. -/
def closeFile (p : Process) (fd : Int) : Process :=
  match fd with
  | .ofNat n => { p with files := p.files.set n none }
  | .negSucc _ => p

/-- The mapping of the start of a segment at an address. -/
def mappingAt (p : Process) (addr : Nat) : Option Mapping :=
  p.mappings.find? fun m => m.addr = addr ∧ m.offset = 0

/-- Add a mapping on pages that are not in use. -/
def addMapping (p : Process) (m : Mapping) (hm : m.Paged) (h : ∀ m' ∈ p.mappings, m.Apart m') :
    Process where
  files := p.files
  mappings := m :: p.mappings
  paged := List.forall_mem_cons.mpr ⟨hm, p.paged⟩
  apart := List.pairwise_cons.mpr ⟨h, p.apart⟩

/-- The range of a `munmap` is not refused: it starts on a page and is not empty. -/
def Unmappable (addr len : Nat) : Prop := addr % pageSize = 0 ∧ len ≠ 0

instance (addr len : Nat) : Decidable (Unmappable addr len) := inferInstanceAs (Decidable (_ ∧ _))

/-- Remove the pages of a range, whatever mappings they belong to. -/
def unmap (p : Process) (addr len : Nat) : Process where
  files := p.files
  mappings :=
    if Unmappable addr len then
      p.mappings.flatMap fun m => m.without addr (addr + pageCeil len)
    else p.mappings
  paged := by
    split
    · next h =>
      intro n hn
      obtain ⟨m, hm, hn⟩ := List.mem_flatMap.mp hn
      exact (Mapping.mem_without (p.paged m hm) h.1 (mod_add_pageCeil h.1 len) hn).1
    · exact p.paged
  apart := by
    split
    · next h =>
      have hhi := mod_add_pageCeil h.1 len
      have hle := le_pageCeil len
      have hne := h.2
      refine List.pairwise_flatMap.mpr ⟨fun m hm => ?_,
        p.apart.imp_of_mem fun hm hm' ha n hn n' hn' => ?_⟩
      · exact Mapping.pairwise_without h.1 (p.paged m hm) (by omega)
      · exact ha.mono (Mapping.mem_without (p.paged _ hm) h.1 hhi hn).2.1
          (Mapping.mem_without (p.paged _ hm') h.1 hhi hn').2.1
    · exact p.apart

/-- The mappings a `munmap` takes pages from. -/
def unmapped (p : Process) (addr len : Nat) : List Mapping :=
  if Unmappable addr len then p.mappings.filter fun m => m.Meets addr (addr + pageCeil len) else []

end Process

/-! ### System calls -/

/-- The flags of `shm_open` beside `O_RDWR`. -/
structure OpenFlags where
  creat : Bool := false
  excl : Bool := false
  trunc : Bool := false
  deriving DecidableEq, Repr

/-- What a process does outside its own memory: system calls, and accesses to the storage at a
pointer into a mapping. -/
inductive SysCall where
  | shmOpen (name : String) (flags : OpenFlags)
  | ftruncate (fd : Int) (size : Nat)
  | fstat (fd : Int)
  | mmap (len : Nat) (fd : Int)
  | munmap (addr len : Nat)
  | close (fd : Int)
  | shmUnlink (name : String)
  /-- `new (ptr) SPSCStorage(storageSize)`. -/
  | construct (ptr storageSize : Nat)
  /-- Read the storage at `ptr`. -/
  | storage (ptr : Nat)
  /-- One step of a queue operation on the storage at `ptr`. -/
  | access (ptr : Nat) (o : MemOp)

/-- What a call returns: a value or `errno`, where the source looks at it. -/
@[reducible] def SysCall.Ret : SysCall → Type
  | .shmOpen _ _ => Except Errno Nat
  | .ftruncate _ _ => Except Errno Unit
  | .fstat _ => Except Errno Nat
  | .mmap _ _ => Except Errno Nat
  | .storage _ => SPSCStorage
  | .access _ o => o.Ret
  | _ => Unit

namespace World

variable (env : Env)

/-- `shm_open`, apart from failing for want of resources. -/
def shmOpen (name : String) (flags : OpenFlags) (w : World) : Except Errno Nat × World :=
  match w.kernel.names name with
  | some i =>
    if flags.creat && flags.excl then (.error .eexist, w)
    else
      let k := if flags.trunc then w.kernel.truncate i 0 (by decide) else w.kernel
      let (fd, p) := w.process.openFile i
      (.ok fd, { w with kernel := k, process := p })
  | none =>
    if flags.creat then
      let (fd, p) := w.process.openFile w.kernel.next
      (.ok fd, { w with kernel := w.kernel.create name, process := p })
    else (.error .enoent, w)

/-- `ftruncate`. The size arrives as an `off_t`, of which the upper half is negative. -/
def ftruncate (fd : Int) (size : Nat) (w : World) : Except Errno Unit × World :=
  match w.process.fileSeg fd with
  | none => (.error .ebadf, w)
  | some i =>
    if h : size < 2 ^ 63 then (.ok (), { w with kernel := w.kernel.truncate i size h })
    else (.error .einval, w)

/-- `fstat`, of which the source reads `st_size`. -/
def fstat (fd : Int) (w : World) : Except Errno Nat × World :=
  match w.process.fileSeg fd with
  | none => (.error .ebadf, w)
  | some i => (.ok (w.kernel.segments i).size, w)

/-- `mmap` with `NULL`, shared, from offset 0. -/
def mmap (len : Nat) (fd : Int) (w : World) : Except Errno Nat × World :=
  match w.process.fileSeg fd with
  | none => (.error .ebadf, w)
  | some i =>
    if h : len = 0 then (.error .einval, w)
    else
      let used := w.process.mappings
      let addr := env.address w.calls len used
      (.ok addr, { w with process :=
        (w.process.addMapping ⟨addr, len, i, 0⟩ ⟨env.address_page w.calls len used, h⟩
          (env.apart_address w.calls len i used)) })

/-- The segment behind a pointer, if the header of a storage can be accessed there. -/
def segAt (w : World) (ptr : Nat) : Option Nat :=
  match w.process.mappingAt ptr with
  | none => none
  | some m =>
    if SPSCStorage.bufferOffset ≤ m.window (w.kernel.segments m.seg) then some m.seg else none

/-- A call that can fail for want of resources. -/
def failing {α : Type} (call : World → Except Errno α × World) (w : World) :
    Except Errno α × World :=
  match env.fault w.calls with
  | some e => (.error e, { w with calls := w.calls + 1 })
  | none => ((call w).1, { (call w).2 with calls := w.calls + 1 })

/-- Perform a call. There is no answer if the process is ended by a signal. -/
def exec : (o : SysCall) → World → Option (o.Ret × World)
  | .shmOpen name flags, w => some (failing env (shmOpen name flags) w)
  | .ftruncate fd size, w => some (failing env (ftruncate fd size) w)
  | .fstat fd, w => some (failing env (fstat fd) w)
  | .mmap len fd, w => some (failing env (mmap env len fd) w)
  | .munmap addr len, w => some ((), { w with process := w.process.unmap addr len })
  | .close fd, w => some ((), { w with process := w.process.closeFile fd })
  | .shmUnlink name, w => some ((), { w with kernel := w.kernel.unlink name })
  | .construct ptr n, w =>
    match w.segAt ptr with
    | none => none
    | some i =>
      let m := (w.kernel.segments i).bytes
      let s := SPSCStorage.construct n (SPSCStorage.ofBytes m).buffer
      some ((), { w with kernel := w.kernel.setBytes i (s.toBytes m) })
  | .storage ptr, w =>
    match w.segAt ptr with
    | none => none
    | some i => some (SPSCStorage.ofBytes (w.kernel.segments i).bytes, w)
  | .access ptr o, w =>
    match w.process.mappingAt ptr with
    | none => none
    | some m =>
      let g := w.kernel.segments m.seg
      match SPSCStorage.exec (m.window g) o (SPSCStorage.ofBytes g.bytes) with
      | none => none
      | some (r, s) => some (r, { w with kernel := w.kernel.setBytes m.seg (s.toBytes g.bytes) })

end World

/-! ### Programs over the calls -/

/-- Programs over the system calls. -/
abbrev SysProg := Prog SysCall.Ret

namespace SysProg

def shmOpen (name : String) (flags : OpenFlags) : SysProg (Except Errno Nat) :=
  .step (.shmOpen name flags) .ret

def ftruncate (fd : Int) (size : Nat) : SysProg (Except Errno Unit) :=
  .step (.ftruncate fd size) .ret

def fstat (fd : Int) : SysProg (Except Errno Nat) := .step (.fstat fd) .ret

def mmap (len : Nat) (fd : Int) : SysProg (Except Errno Nat) := .step (.mmap len fd) .ret

def munmap (addr len : Nat) : SysProg Unit := .step (.munmap addr len) .ret

def close (fd : Int) : SysProg Unit := .step (.close fd) .ret

def shmUnlink (name : String) : SysProg Unit := .step (.shmUnlink name) .ret

def construct (ptr storageSize : Nat) : SysProg Unit := .step (.construct ptr storageSize) .ret

def storage (ptr : Nat) : SysProg SPSCStorage := .step (.storage ptr) .ret

/-- A queue operation on the storage behind a pointer. -/
def through (ptr : Nat) {α : Type} : QProg α → SysProg α
  | .ret a => .ret a
  | .step o k => .step (.access ptr o) fun r => through ptr (k r)

end SysProg

end PosixIpc
