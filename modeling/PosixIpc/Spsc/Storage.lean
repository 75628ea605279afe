import PosixIpc.Errors
import PosixIpc.Framework.Memory

/-!
# The storage of a queue

`SPSCStorage` (`SPSCStorage.hpp`): the header of the shared region and the bytes behind it. The
model keeps the header fields as a record and the ring buffer as a byte memory, whose offset `0`
is `BUFFER_OFFSET` bytes into the region.

A region of shared memory is raw bytes. `SPSCStorage.ofBytes` reads a region through the fixed
layout of the header, `SPSCStorage.toBytes` writes a storage back over a region, and
`ofBytes_toBytes` is the round trip.

The constructor leaves the buffer as it finds it, so every definition that constructs a storage
takes the previous contents of the memory as a parameter.
-/

namespace PosixIpc

open Framework

/-- Bytes per cache line. -/
def spscCacheLineSize : Nat := 64

/-- The magic number `'S' 'P' 'S' 'C'`. -/
def spscMagic : Nat := 0x53505343

/-- The version of the memory layout. -/
def spscAbiVersion : Nat := 1

/-- The largest size an object can have (`PTRDIFF_MAX`). -/
def ptrdiffMax : Nat := 2 ^ 63 - 1

/-- The storage of a queue: header fields and ring buffer. -/
structure SPSCStorage where
  magic : Nat
  abiVersion : Nat
  storageSize : Nat
  readIx : Nat
  writeIx : Nat
  msgCount : Nat
  buffer : Mem

namespace SPSCStorage

/-- Offset of the ring buffer in the region. -/
def bufferOffset : Nat := 4 * spscCacheLineSize

/-- The constructor, run on a region whose buffer part holds `raw`. -/
def construct (storageSize : Nat) (raw : Mem) : SPSCStorage where
  magic := spscMagic
  abiVersion := spscAbiVersion
  storageSize := storageSize
  readIx := 0
  writeIx := 0
  msgCount := 0
  buffer := raw

/-- `buffer_size()`: an unsigned subtraction. -/
def bufferSize (s : SPSCStorage) : Nat := subW s.storageSize bufferOffset

/-- Whether `operator new` finds `n` bytes. No allocation exceeds `PTRDIFF_MAX`; below that, the
answer is the environment's. -/
def operatorNew (available : Nat → Bool) (n : Nat) : Bool :=
  decide (n ≤ ptrdiffMax) && available n

/-- `SPSCStorage::create`: allocate a storage in heap memory that holds `raw`. -/
def create (available : Nat → Bool) (raw : Mem) (storageSize : Nat) :
    Except PosixIpcError SPSCStorage :=
  if storageSize ≤ bufferOffset then
    .error ⟨.spscStorageError,
      "SPSCStorage requires a memory region greater than " ++ toString bufferOffset ++
        " bytes, requested size of " ++ toString storageSize ++ " bytes is too small."⟩
  else if operatorNew available storageSize = false then
    .error ⟨.spscStorageError, "Allocating " ++ toString storageSize ++ " bytes failed"⟩
  else
    .ok (construct storageSize raw)

/-- `SPSCStorage::map`: accept the storage found at address `ptr` in a mapping of `len` bytes. -/
def map (ptr len : Nat) (s : SPSCStorage) : Except PosixIpcError SPSCStorage :=
  if ptr = 0 then
    .error ⟨.spscStorageError, "SPSCStorage mapping pointer is null"⟩
  else if len < bufferOffset then
    .error ⟨.spscStorageError, "Mapping smaller than SPSCStorage header"⟩
  else if ptr % spscCacheLineSize ≠ 0 then
    .error ⟨.spscStorageError, "SPSCStorage mapping memory address not 64-byte aligned"⟩
  else if s.magic ≠ spscMagic then
    .error ⟨.spscStorageError, "SPSCStorage bad SPSC_MAGIC"⟩
  else if s.abiVersion ≠ spscAbiVersion then
    .error ⟨.spscStorageError, "SPSCStorage ABI version mismatch"⟩
  else if s.storageSize ≠ len then
    .error ⟨.spscStorageError, "SPSCStorage buffer vs. stored size mismatch: " ++ toString len ++
      " != " ++ toString s.storageSize⟩
  else
    .ok s

/-! ### What the factories promise -/

/-- A created storage is a constructed one of an allocatable size above the header. -/
theorem create_eq_ok {available : Nat → Bool} {raw : Mem} {n : Nat} {s : SPSCStorage}
    (h : create available raw n = .ok s) :
    s = construct n raw ∧ 256 < n ∧ n < 2 ^ 63 := by
  unfold create at h
  split at h
  · exact absurd h (by simp)
  · next hlow =>
    split at h
    · exact absurd h (by simp)
    · next hnew =>
      -- `operator new` refuses what exceeds `PTRDIFF_MAX`
      have hhigh : n ≤ ptrdiffMax := by
        by_contra hc
        exact hnew (by simp [operatorNew, hc])
      refine ⟨(Except.ok.inj h).symm, ?_, ?_⟩
      · exact Nat.lt_of_not_le hlow
      · unfold ptrdiffMax at hhigh; omega

/-- An allocatable size above the header is created if the memory is there. -/
theorem create_of_available {available : Nat → Bool} (raw : Mem) {n : Nat} (hlow : 256 < n)
    (hhigh : n < 2 ^ 63) (hav : available n = true) :
    create available raw n = .ok (construct n raw) := by
  have hoff : ¬ n ≤ bufferOffset := by
    change ¬ n ≤ 256
    omega
  have hnew : operatorNew available n = true := by
    have hmax : n ≤ ptrdiffMax := by unfold ptrdiffMax; omega
    simp [operatorNew, hmax, hav]
  unfold create
  rw [if_neg hoff, if_neg (by simp [hnew])]

/-- The checks of `map` on an aligned, non-null mapping, as one condition. -/
theorem map_eq_ok_iff {ptr len : Nat} {s t : SPSCStorage} (hptr : ptr ≠ 0)
    (halign : ptr % spscCacheLineSize = 0) :
    map ptr len s = .ok t ↔
      t = s ∧ 256 ≤ len ∧ s.magic = spscMagic ∧ s.abiVersion = spscAbiVersion ∧
        s.storageSize = len := by
  have hoff : bufferOffset = 256 := rfl
  unfold map
  rw [if_neg hptr, hoff]
  -- the checks in the order in which they are made
  by_cases hlen : len < 256
  · rw [if_pos hlen]
    exact ⟨fun h => absurd h (by simp), fun h => absurd h.2.1 (by omega)⟩
  · rw [if_neg hlen, if_neg (by simpa using halign)]
    by_cases hm : s.magic = spscMagic
    · by_cases ha : s.abiVersion = spscAbiVersion
      · by_cases hs : s.storageSize = len
        · rw [if_neg (by simpa using hm), if_neg (by simpa using ha), if_neg (by simpa using hs)]
          refine ⟨fun h => ⟨(Except.ok.inj h).symm, by omega, hm, ha, hs⟩, fun h => ?_⟩
          rw [h.1]
        · rw [if_neg (by simpa using hm), if_neg (by simpa using ha), if_pos hs]
          exact ⟨fun h => absurd h (by simp), fun h => absurd h.2.2.2.2 hs⟩
      · rw [if_neg (by simpa using hm), if_pos ha]
        exact ⟨fun h => absurd h (by simp), fun h => absurd h.2.2.2.1 ha⟩
    · rw [if_pos hm]
      exact ⟨fun h => absurd h (by simp), fun h => absurd h.2.2.1 hm⟩

/-- `map` checks the storage and does not touch it. -/
theorem eq_of_map {ptr len : Nat} {s t : SPSCStorage} (h : map ptr len s = .ok t) : t = s := by
  by_cases hptr : ptr = 0
  · rw [map, if_pos hptr] at h
    exact absurd h (by simp)
  by_cases halign : ptr % spscCacheLineSize = 0
  · exact ((map_eq_ok_iff hptr halign).mp h).1
  · rw [map, if_neg hptr] at h
    split at h <;> exact absurd h (by simp)

/-- Every error of `map` has the code of a storage error. -/
theorem code_of_map {ptr len : Nat} {s : SPSCStorage} {e : PosixIpcError}
    (h : map ptr len s = .error e) : e.code = .spscStorageError := by
  unfold map at h
  grind

/-! ### The layout of a region -/

/-- A region of memory read through the layout of the header. -/
def ofBytes (m : Mem) : SPSCStorage where
  magic := ofLE (m.read 0 4)
  abiVersion := ofLE (m.read 4 4)
  storageSize := m.readWord 8
  readIx := m.readWord 64
  writeIx := m.readWord 128
  msgCount := m.readWord 192
  buffer := fun i => m (bufferOffset + i)

/-- The header fields written over a region. -/
def headerBytes (s : SPSCStorage) (m : Mem) : Mem :=
  (((((m.write 0 (toLE 4 s.magic)).write 4 (toLE 4 s.abiVersion)).write 8
    (toLE 8 s.storageSize)).write 64 (toLE 8 s.readIx)).write 128
    (toLE 8 s.writeIx)).write 192 (toLE 8 s.msgCount)

/-- A storage written over a region: header fields and buffer, with the padding left alone. -/
def toBytes (s : SPSCStorage) (m : Mem) : Mem := fun i =>
  if i < bufferOffset then s.headerBytes m i else s.buffer (i - bufferOffset)

/-- Every header field is a value of its machine type. -/
structure InRange (s : SPSCStorage) : Prop where
  magic_lt : s.magic < 2 ^ 32
  abiVersion_lt : s.abiVersion < 2 ^ 32
  storageSize_lt : s.storageSize < 2 ^ 64
  readIx_lt : s.readIx < 2 ^ 64
  writeIx_lt : s.writeIx < 2 ^ 64
  msgCount_lt : s.msgCount < 2 ^ 64

theorem inRange_ofBytes (m : Mem) : (ofBytes m).InRange := by
  have h4 : ∀ off, ofLE (m.read off 4) < 2 ^ 32 := by
    intro off
    have h := ofLE_lt (m.read off 4)
    rw [Mem.length_read] at h
    exact h
  exact ⟨h4 0, h4 4, m.readWord_lt 8, m.readWord_lt 64, m.readWord_lt 128, m.readWord_lt 192⟩

theorem inRange_construct {n : Nat} (h : n < 2 ^ 64) (raw : Mem) : (construct n raw).InRange :=
  ⟨show spscMagic < 2 ^ 32 by decide, show spscAbiVersion < 2 ^ 32 by decide, h,
    show 0 < 2 ^ 64 by decide, show 0 < 2 ^ 64 by decide, show 0 < 2 ^ 64 by decide⟩

private theorem ofLE_read_write_toLE_four (m : Mem) (off : Nat) {n : Nat} (h : n < 2 ^ 32) :
    ofLE ((m.write off (toLE 4 n)).read off 4) = n := by
  have hread := Mem.read_write_same m off (toLE 4 n)
  rw [length_toLE] at hread
  rw [hread, ofLE_toLE]
  exact Nat.mod_eq_of_lt h

/-- **Round trip of the layout.** A storage written over any region reads back as it was. -/
theorem ofBytes_toBytes {s : SPSCStorage} (h : s.InRange) (m : Mem) :
    ofBytes (s.toBytes m) = s := by
  have hhead : Mem.Agree (s.toBytes m) (s.headerBytes m) 0 256 := by
    intro i _ hi
    exact if_pos hi
  have hbuf : (fun i => s.toBytes m (bufferOffset + i)) = s.buffer := by
    funext i
    simp [toBytes]
  -- each field is the last write that overlaps it
  have hmagic : ofLE ((s.headerBytes m).read 0 4) = s.magic := by
    unfold headerBytes
    rw [Mem.read_write_of_disjoint (by simp), Mem.read_write_of_disjoint (by simp),
      Mem.read_write_of_disjoint (by simp), Mem.read_write_of_disjoint (by simp),
      Mem.read_write_of_disjoint (by simp)]
    exact ofLE_read_write_toLE_four _ _ h.magic_lt
  have habi : ofLE ((s.headerBytes m).read 4 4) = s.abiVersion := by
    unfold headerBytes
    rw [Mem.read_write_of_disjoint (by simp), Mem.read_write_of_disjoint (by simp),
      Mem.read_write_of_disjoint (by simp), Mem.read_write_of_disjoint (by simp)]
    exact ofLE_read_write_toLE_four _ _ h.abiVersion_lt
  have hsize : (s.headerBytes m).readWord 8 = s.storageSize := by
    unfold headerBytes
    rw [Mem.readWord_write_of_disjoint (by simp), Mem.readWord_write_of_disjoint (by simp),
      Mem.readWord_write_of_disjoint (by simp)]
    exact Mem.readWord_write_toLE _ _ h.storageSize_lt
  have hread : (s.headerBytes m).readWord 64 = s.readIx := by
    unfold headerBytes
    rw [Mem.readWord_write_of_disjoint (by simp), Mem.readWord_write_of_disjoint (by simp)]
    exact Mem.readWord_write_toLE _ _ h.readIx_lt
  have hwrite : (s.headerBytes m).readWord 128 = s.writeIx := by
    unfold headerBytes
    rw [Mem.readWord_write_of_disjoint (by simp)]
    exact Mem.readWord_write_toLE _ _ h.writeIx_lt
  have hcount : (s.headerBytes m).readWord 192 = s.msgCount :=
    Mem.readWord_write_toLE _ _ h.msgCount_lt
  unfold ofBytes
  rw [hhead.read (by omega) (by omega), hhead.read (by omega) (by omega),
    hhead.readWord (by omega) (by omega), hhead.readWord (by omega) (by omega),
    hhead.readWord (by omega) (by omega), hhead.readWord (by omega) (by omega),
    hbuf, hmagic, habi, hsize, hread, hwrite, hcount]

end SPSCStorage

end PosixIpc
