import Mathlib.Data.List.Basic
import Mathlib.Tactic.Common

/-!
# Windows of a circular array

An array of `n` elements is used in a circle, from a read index to a write index. `Circular.dist` is
the number of elements in between; as both indices are positions of the array, there are never more
than `n - 1`, and equal indices are those of an empty window. `Circular.Holds` says that a list is
in the window. Writing behind the window and moving the write index on appends an element
(`Holds.append`); moving the read index on removes the first one (`Holds.tail`).
-/

namespace Framework

namespace Circular

variable {α : Type} {n r w k : Nat}

/-- The position behind position `i`. -/
def next (n i : Nat) : Nat := if i + 1 = n then 0 else i + 1

/-- The position `k` places behind position `r`. -/
def place (n r k : Nat) : Nat := if r + k < n then r + k else r + k - n

/-- How many places the write index is ahead of the read index. -/
def dist (n r w : Nat) : Nat := if r ≤ w then w - r else w + n - r

theorem next_lt (hw : w < n) : next n w < n := by
  unfold next
  split <;> omega

/-- The window starts at its first index. -/
theorem place_zero (hr : r < n) : place n r 0 = r := by
  unfold place
  rw [if_pos (by omega)]
  rfl

/-- The window ends at its last index. -/
theorem place_dist (hr : r < n) (hw : w < n) : place n r (dist n r w) = w := by
  unfold place dist
  split <;> split <;> omega

/-- The places of a window are not the one behind it. -/
theorem place_ne (hr : r < n) (hk : k < dist n r w) : place n r k ≠ w := by
  unfold place
  unfold dist at hk
  split at hk <;> split <;> omega

/-- A window that starts one later has its places one earlier. -/
theorem place_next (hk : k + 1 < n) : place n (next n r) k = place n r (k + 1) := by
  unfold place next
  split <;> split <;> split <;> omega

theorem dist_lt (hr : r < n) (hw : w < n) : dist n r w < n := by
  unfold dist
  split <;> omega

/-- **Empty** windows. -/
theorem dist_eq_zero_iff (hr : r < n) : dist n r w = 0 ↔ r = w := by
  unfold dist
  split <;> omega

/-- **Full** windows. -/
theorem next_eq_iff (hr : r < n) (hw : w < n) : next n w = r ↔ dist n r w + 1 = n := by
  unfold next dist
  split <;> split <;> omega

/-- No window is larger than a full one. -/
theorem dist_le_dist_next (hr : r < n) (hw : w < n) : dist n r w ≤ dist n (next n w) w := by
  have hfull := (next_eq_iff (next_lt hw) hw).mp rfl
  have hlt := dist_lt hr hw
  omega

/-- Moving the end of the window on makes it longer by one, if there is room. -/
theorem dist_next_write (hr : r < n) (hw : w < n) (hroom : dist n r w + 1 < n) :
    dist n r (next n w) = dist n r w + 1 := by
  unfold next
  unfold dist at hroom ⊢
  split at hroom <;> split <;> split <;> omega

/-- Moving the start of the window on makes it shorter by one, if it is not empty. -/
theorem dist_next_read (hr : r < n) (hw : w < n) (hpos : 0 < dist n r w) :
    dist n (next n r) w + 1 = dist n r w := by
  unfold next
  unfold dist at hpos ⊢
  split at hpos <;> split <;> split <;> omega

/-- The list `l` is in the window from `r` to `w`. -/
structure Holds (get : Nat → Option α) (n r w : Nat) (l : List α) : Prop where
  read_lt : r < n
  write_lt : w < n
  length_eq : l.length = dist n r w
  get_eq : ∀ k, k < l.length → get (place n r k) = l[k]?

namespace Holds

variable {get get' : Nat → Option α} {l : List α} {a : α}

theorem length_lt (h : Holds get n r w l) : l.length < n := by
  rw [h.length_eq]
  exact dist_lt h.read_lt h.write_lt

/-- The window does not change if something else does. -/
theorem congr (h : Holds get n r w l) (hget : ∀ i, i ≠ w → get' i = get i) :
    Holds get' n r w l := by
  refine ⟨h.read_lt, h.write_lt, h.length_eq, fun k hk => ?_⟩
  rw [hget _ (place_ne h.read_lt (by rw [← h.length_eq]; exact hk))]
  exact h.get_eq k hk

/-- **One more** element. -/
theorem append (h : Holds get n r w l) (hroom : dist n r w + 1 < n) (ha : get w = some a) :
    Holds get n r (next n w) (l ++ [a]) := by
  refine ⟨h.read_lt, next_lt h.write_lt, ?_, fun k hk => ?_⟩
  · rw [dist_next_write h.read_lt h.write_lt hroom, List.length_append, h.length_eq]
    rfl
  · rw [List.length_append, List.length_singleton] at hk
    by_cases hlast : k < l.length
    · rw [List.getElem?_append_left hlast]
      exact h.get_eq k hlast
    · have heq : k = l.length := by omega
      subst heq
      rw [List.getElem?_concat_length, h.length_eq, place_dist h.read_lt h.write_lt]
      exact ha

/-- **The first** element. -/
theorem get_read (h : Holds get n r w (a :: l)) : get r = some a := by
  have hfirst := h.get_eq 0 (Nat.succ_pos _)
  rw [place_zero h.read_lt] at hfirst
  exact hfirst

/-- **One less** element. -/
theorem tail (h : Holds get n r w (a :: l)) : Holds get n (next n r) w l := by
  have hlen := h.length_eq
  have hlt := h.length_lt
  rw [List.length_cons] at hlen hlt
  refine ⟨next_lt h.read_lt, h.write_lt, ?_, fun k hk => ?_⟩
  · have hdist := dist_next_read h.read_lt h.write_lt (by omega)
    omega
  · rw [place_next (by omega), h.get_eq (k + 1) (by rw [List.length_cons]; omega)]
    exact List.getElem?_cons_succ

/-- A window is empty exactly if its ends coincide. -/
theorem eq_nil_iff (h : Holds get n r w l) : l = [] ↔ r = w := by
  rw [← dist_eq_zero_iff h.read_lt, ← h.length_eq]
  exact List.length_eq_zero_iff.symm

end Holds

end Circular

end Framework
