import Mathlib.Data.Nat.Bitwise
import Mathlib.Tactic.Common

/-!
# Machine words and byte memory

Unsigned 64-bit arithmetic is kept on `Nat` with its reduction modulo `2 ^ 64` written out, so
that "this computation does not wrap" is an equation between a machine operation and the
arithmetic one (`addW_eq`, `subW_eq`, `and_complW_seven`).

A byte memory is a function from offsets to bytes. Reads and writes are of runs of bytes; the
frame rules are `read_write_of_disjoint` (a write misses a run it does not overlap) and
`read_write_same` (a run reads back as written). An 8-byte word is stored least significant byte
first; `readWord_write_toLE` is its round trip.

`Agree m m' a b` says that two memories coincide on `[a, b)`. Everything that is read inside the
range is then the same in both (`Agree.read`, `Agree.readWord`), which is how facts about one
region survive writes to another one.
-/

namespace Framework

/-! ### Unsigned 64-bit arithmetic -/

/-- Addition of unsigned 64-bit integers. -/
def addW (a b : Nat) : Nat := (a + b) % 2 ^ 64

/-- Subtraction of unsigned 64-bit integers. -/
def subW (a b : Nat) : Nat := (2 ^ 64 + a - b) % 2 ^ 64

/-- Bitwise complement of an unsigned 64-bit integer. -/
def complW (a : Nat) : Nat := 2 ^ 64 - 1 - a

/-- A sum below the wrap. -/
theorem addW_eq {a b : Nat} (h : a + b < 2 ^ 64) : addW a b = a + b := by
  unfold addW; omega

/-- A difference that does not wrap. -/
theorem subW_eq {a b : Nat} (h : b ≤ a) (ha : a < 2 ^ 64) : subW a b = a - b := by
  unfold subW; omega

theorem addW_lt (a b : Nat) : addW a b < 2 ^ 64 := Nat.mod_lt _ (by decide)

theorem subW_lt (a b : Nat) : subW a b < 2 ^ 64 := Nat.mod_lt _ (by decide)

/-- Clearing the three low bits rounds down to a multiple of 8. -/
theorem and_complW_seven {x : Nat} (hx : x < 2 ^ 64) : x &&& complW 7 = x / 8 * 8 := by
  have hmask : complW 7 = (2 ^ 61 - 1) <<< 3 := by decide
  have hround : x / 8 * 8 = (x >>> 3) <<< 3 := by
    rw [Nat.shiftRight_eq_div_pow, Nat.shiftLeft_eq]
  rw [hmask, hround]
  refine Nat.eq_of_testBit_eq fun i => ?_
  rw [Nat.testBit_and, Nat.testBit_shiftLeft, Nat.testBit_shiftLeft, Nat.testBit_shiftRight,
    Nat.testBit_two_pow_sub_one]
  by_cases hi : 3 ≤ i
  · by_cases hi' : i - 3 < 61
    · simp [hi, hi', show 3 + (i - 3) = i by omega]
    · -- above the word there are no bits left to mask
      have hbit : x.testBit i = false :=
        Nat.testBit_eq_false_of_lt (lt_of_lt_of_le hx (Nat.pow_le_pow_right (by decide) (by omega)))
      simp [hi, hi', show 3 + (i - 3) = i by omega, hbit]
  · simp [hi]

/-! ### Little-endian words -/

/-- The value of a run of bytes, least significant byte first. -/
def ofLE : List UInt8 → Nat
  | [] => 0
  | b :: bs => b.toNat + 256 * ofLE bs

/-- The `k` low bytes of a number, least significant byte first. -/
def toLE : Nat → Nat → List UInt8
  | 0, _ => []
  | k + 1, n => UInt8.ofNat n :: toLE k (n / 256)

@[simp] theorem length_toLE (k n : Nat) : (toLE k n).length = k := by
  induction k generalizing n with
  | zero => rfl
  | succ k ih => rw [toLE, List.length_cons, ih]

/-- Reading back what was stored, as far as it fits. -/
theorem ofLE_toLE (k n : Nat) : ofLE (toLE k n) = n % 256 ^ k := by
  induction k generalizing n with
  | zero => rw [toLE, ofLE, Nat.pow_zero, Nat.mod_one]
  | succ k ih =>
    have hlow : (UInt8.ofNat n).toNat = n % 256 := rfl
    rw [toLE, ofLE, ih, hlow, Nat.pow_succ, Nat.mul_comm (256 ^ k), Nat.mod_mul]

theorem ofLE_lt (bs : List UInt8) : ofLE bs < 256 ^ bs.length := by
  induction bs with
  | nil => exact Nat.one_pos
  | cons b bs ih =>
    have hb : b.toNat < 256 := b.toNat_lt
    rw [ofLE, List.length_cons, Nat.pow_succ]
    omega

/-- Zero bytes are the number zero. -/
@[simp] theorem ofLE_replicate_zero (k : Nat) : ofLE (List.replicate k 0) = 0 := by
  induction k with
  | zero => rfl
  | succ k ih => rw [List.replicate_succ, ofLE, ih]; rfl

/-! ### Byte memory -/

/-- A byte memory. -/
abbrev Mem := Nat → UInt8

namespace Mem

/-- The `n` bytes from offset `off` on. -/
def read (m : Mem) (off : Nat) : Nat → List UInt8
  | 0 => []
  | n + 1 => m off :: read m (off + 1) n

/-- Overwrite the bytes from offset `off` on with `bs`. -/
def write (m : Mem) (off : Nat) (bs : List UInt8) : Mem := fun i =>
  if off ≤ i ∧ i < off + bs.length then bs.getD (i - off) 0 else m i

/-- The 8-byte word at offset `off`. -/
def readWord (m : Mem) (off : Nat) : Nat := ofLE (m.read off 8)

/-- Two memories coincide on `[a, b)`. -/
def Agree (m m' : Mem) (a b : Nat) : Prop := ∀ i, a ≤ i → i < b → m i = m' i

@[simp] theorem length_read (m : Mem) (off n : Nat) : (m.read off n).length = n := by
  induction n generalizing off with
  | zero => rfl
  | succ n ih => rw [read, List.length_cons, ih]

theorem readWord_lt (m : Mem) (off : Nat) : m.readWord off < 2 ^ 64 := by
  have h := ofLE_lt (m.read off 8)
  rw [length_read] at h
  exact h

/-! Coinciding memories read the same. -/

theorem Agree.trans {m m' m'' : Mem} {a b : Nat} (h : Agree m m' a b) (h' : Agree m' m'' a b) :
    Agree m m'' a b :=
  fun i ha hb => (h i ha hb).trans (h' i ha hb)

theorem Agree.mono {m m' : Mem} {a b a' b' : Nat} (h : Agree m m' a b) (ha : a ≤ a')
    (hb : b' ≤ b) : Agree m m' a' b' :=
  fun i hai hib => h i (by omega) (by omega)

/-- Reading within a range on which two memories agree gives the same bytes. -/
theorem Agree.read {m m' : Mem} {a b off n : Nat} (h : Agree m m' a b) (ha : a ≤ off)
    (hb : off + n ≤ b) : m.read off n = m'.read off n := by
  induction n generalizing off with
  | zero => rfl
  | succ n ih => rw [Mem.read, Mem.read, h off ha (by omega), ih (by omega) (by omega)]

/-- Reading a word within a range on which two memories agree gives the same word. -/
theorem Agree.readWord {m m' : Mem} {a b off : Nat} (h : Agree m m' a b) (ha : a ≤ off)
    (hb : off + 8 ≤ b) : m.readWord off = m'.readWord off := by
  unfold Mem.readWord
  rw [h.read ha hb]

/-! The frame of a write. -/

/-- A write leaves alone what it does not overlap. -/
theorem agree_write {m : Mem} {off a b : Nat} {bs : List UInt8}
    (h : b ≤ off ∨ off + bs.length ≤ a) : Agree m (m.write off bs) a b := by
  intro i ha hb
  rw [write, if_neg (by omega)]

/-- **Frame.** A write leaves the bytes outside its range alone. -/
theorem read_write_of_disjoint {m : Mem} {off off' n : Nat} {bs : List UInt8}
    (h : off' + n ≤ off ∨ off + bs.length ≤ off') :
    (m.write off bs).read off' n = m.read off' n :=
  ((agree_write h).read (le_refl _) (le_refl _)).symm

/-- Reading inside a write reads the written bytes. -/
theorem read_write_inside {m : Mem} {off : Nat} {bs : List UInt8} {k n : Nat}
    (h : k + n ≤ bs.length) : (m.write off bs).read (off + k) n = (bs.drop k).take n := by
  induction n generalizing k with
  | zero => rw [read, List.take_zero]
  | succ n ih =>
    have hk : k < bs.length := by omega
    have hhead : m.write off bs (off + k) = bs[k] := by
      rw [write, if_pos (by omega), Nat.add_sub_cancel_left, List.getD_eq_getElem _ _ hk]
    rw [read, hhead, List.drop_eq_getElem_cons hk, List.take_succ_cons, Nat.add_assoc,
      ih (by omega)]

/-- What was written is read back. -/
theorem read_write_same (m : Mem) (off : Nat) (bs : List UInt8) :
    (m.write off bs).read off bs.length = bs := by
  have h := @read_write_inside m off bs 0 bs.length (by omega)
  rw [Nat.add_zero] at h
  rw [h, List.drop_zero, List.take_length]

/-- A write leaves the words outside its range alone. -/
theorem readWord_write_of_disjoint {m : Mem} {off off' : Nat} {bs : List UInt8}
    (h : off' + 8 ≤ off ∨ off + bs.length ≤ off') :
    (m.write off bs).readWord off' = m.readWord off' := by
  unfold readWord
  rw [read_write_of_disjoint h]

/-- **Round trip of a stored word.** -/
theorem readWord_write_toLE (m : Mem) (off : Nat) {n : Nat} (h : n < 2 ^ 64) :
    (m.write off (toLE 8 n)).readWord off = n := by
  have hread := read_write_same m off (toLE 8 n)
  rw [length_toLE] at hread
  unfold readWord
  rw [hread, ofLE_toLE]
  exact Nat.mod_eq_of_lt h

/-- A sentinel is read back as a size of zero. -/
theorem readWord_write_zero (m : Mem) (off : Nat) :
    (m.write off (List.replicate 8 0)).readWord off = 0 := by
  have hread := read_write_same m off (List.replicate 8 0)
  rw [List.length_replicate] at hread
  unfold readWord
  rw [hread, ofLE_replicate_zero]

end Mem

end Framework
