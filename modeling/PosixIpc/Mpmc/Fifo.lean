import Mathlib.Data.List.Perm.Basic
import Mathlib.Data.List.Nodup
import PosixIpc.Mpmc.Tickets

/-!
# Values come out in the order of their places

Every step of every thread keeps the invariant (`Pool.Inv.step`), and no thread is ever at a point
from which it has no step: where an object is constructed there is none, and where one is moved from
or destroyed there is one (`Pool.Inv.advance_isSome`).

`mpmc_fifo` is what this comes to in a run. The values leave the queue by the places they entered it
by, each once; and when all calls have returned, what is in the queue is what entered it last, which
is what `size` counts and the destructor destroys.
-/

namespace PosixIpc.Mpmc

open Framework

variable {T τ : Type}

/-! ### Words -/

/-- The turn of a place, doubled, is no wrapped word: there were too few steps for that. -/
theorem mulW_turn {q : Queue T} {k : Nat} (hk : k < 2 ^ 63) :
    mulW (q.turn k) 2 = 2 * (k / q.capacity) := by
  have hle : k / q.capacity ≤ k := Nat.div_le_self k q.capacity
  unfold mulW Queue.turn
  rw [Nat.mul_comm]
  exact Nat.mod_eq_of_lt (by omega)

/-- The turns of a push and of a pop are no wrapped words either. -/
theorem addW_turn {q : Queue T} {k i : Nat} (hk : 2 * k + i < 2 ^ 64) :
    addW (mulW (q.turn k) 2) i = 2 * (k / q.capacity) + i := by
  have hle : k / q.capacity ≤ k := Nat.div_le_self k q.capacity
  rw [mulW_turn (by omega)]
  exact addW_eq (by omega)

namespace Pool

variable {x y : Pool τ T} {n k : Nat} {a : τ} {v : T} {tries : Bool}

/-! ### The object in a slot -/

/-- A ticket for a push was issued, so its place lies behind the head. -/
theorem Inv.lt_head (h : x.Inv n) {b : Bool} (ha : (x.point a).hold x.queue.capacity =
    some ⟨k % x.queue.capacity, 2 * (k / x.queue.capacity), b⟩) : k < x.queue.head :=
  (issued_push_iff x.queue.capacity_pos).mp (h.turns.valid a _ ha)

/-- A ticket for a pop was issued, so its place lies behind the tail. -/
theorem Inv.lt_tail (h : x.Inv n) {b : Bool} (ha : (x.point a).hold x.queue.capacity =
    some ⟨k % x.queue.capacity, 2 * (k / x.queue.capacity) + 1, b⟩) : k < x.queue.tail :=
  (issued_pop_iff x.queue.capacity_pos).mp (h.turns.valid a _ ha)

/-- A place whose value has been put into its slot has a value. -/
theorem Inv.exists_pushed (h : x.Inv n)
    (hturn : 2 * (k / x.queue.capacity) < (x.queue.slot k).turn) :
    ∃ v, x.pushed[k]? = some v := by
  have hlt : k < x.queue.head :=
    (issued_push_iff x.queue.capacity_pos).mp (h.turns.passed _ _ hturn)
  rw [h.head_eq] at hlt
  exact ⟨_, List.getElem?_eq_getElem hlt⟩

/-- A producer about to construct finds its slot empty. -/
theorem Inv.storage_construct (h : x.Inv n) (ha : x.point a = .construct k v tries) :
    (x.queue.slot k).storage = none := by
  have hfits := h.fits a
  rw [ha] at hfits
  have hhold : (x.point a).hold x.queue.capacity =
      some ⟨k % x.queue.capacity, 2 * (k / x.queue.capacity), false⟩ := by
    rw [ha]
    rfl
  have hvalue := h.turns.value_of_turn hhold hfits.2
  rw [content_even] at hvalue
  exact hvalue

/-- At an odd turn, a consumer that has not destroyed the object finds the value of its place. -/
theorem Inv.storage_pop (h : x.Inv n) (ha : (x.point a).hold x.queue.capacity =
      some ⟨k % x.queue.capacity, 2 * (k / x.queue.capacity) + 1, false⟩)
    (hturn : (x.queue.slot k).turn = 2 * (k / x.queue.capacity) + 1) :
    ∃ v, (x.queue.slot k).storage = some v ∧ x.pushed[k]? = some v := by
  obtain ⟨v, hv⟩ := h.exists_pushed (k := k) (by omega)
  have hvalue := h.turns.value_of_turn ha hturn
  rw [content_pop, hv] at hvalue
  exact ⟨v, hvalue, hv⟩

/-- A consumer about to move the value out finds the value of its place. -/
theorem Inv.storage_move (h : x.Inv n) (ha : x.point a = .move k tries) :
    ∃ v, (x.queue.slot k).storage = some v ∧ x.pushed[k]? = some v := by
  have hfits := h.fits a
  rw [ha] at hfits
  exact h.storage_pop (a := a) (by rw [ha]; rfl) hfits

/-- A consumer about to destroy the object finds it still there. -/
theorem Inv.storage_destroy (h : x.Inv n) (ha : x.point a = .destroy k v tries) :
    ∃ v, (x.queue.slot k).storage = some v ∧ x.pushed[k]? = some v := by
  have hfits := h.fits a
  rw [ha] at hfits
  exact h.storage_pop (a := a) (by rw [ha]; rfl) hfits.2

/-- **No thread is stuck.** -/
theorem Inv.advance_isSome (h : x.Inv n) (ha : x.point a ≠ .idle) :
    (x.queue.advance (x.point a)).isSome := by
  cases hp : x.point a with
  | idle => exact absurd hp ha
  | construct k v tries => simp only [Queue.advance, h.storage_construct hp, Option.isSome_some]
  | move k tries =>
    obtain ⟨v, hv, -⟩ := h.storage_move hp
    simp only [Queue.advance, hv, Option.isSome_some]
  | destroy k v tries =>
    obtain ⟨u, hu, -⟩ := h.storage_destroy hp
    simp only [Queue.advance, hu, Option.isSome_some]
  -- the other points ask nothing of the slot, so either branch of theirs goes on
  | awaitEmpty k v => simp only [Queue.advance]; split <;> rfl
  | checkEmpty k v => simp only [Queue.advance]; split <;> rfl
  | casHead k v => simp only [Queue.advance]; split <;> rfl
  | reloadHead k v => simp only [Queue.advance]; split <;> rfl
  | awaitFull k => simp only [Queue.advance]; split <;> rfl
  | checkFull k => simp only [Queue.advance]; split <;> rfl
  | casTail k => simp only [Queue.advance]; split <;> rfl
  | reloadTail k => simp only [Queue.advance]; split <;> rfl
  | emplace v => rfl
  | publish k tries => rfl
  | tryEmplace v => rfl
  | pop => rfl
  | release k v tries => rfl
  | tryPop => rfl

/-- The place that is taken next has the value for which it is taken. -/
theorem Inv.getElem_head (h : x.Inv n) (v : T) : (x.pushed ++ [v])[x.queue.head]? = some v := by
  rw [h.head_eq]
  exact List.getElem?_concat_length

/-! ### Steps -/

section Steps

variable [DecidableEq τ] {r : Option (Return T)} {q : Queue T} {p : Point T}

/-- From a point without a ticket to another one. -/
theorem Inv.goto_none (h : x.Inv n) (ha : (x.point a).hold x.queue.capacity = none)
    (hp : p.hold x.queue.capacity = none) (hfits : Fits x.queue x.pushed p) :
    Inv ⟨x.queue, Function.update x.point a p, x.pushed, x.popped⟩ (n + 1) :=
  h.goto (hp.trans ha.symm)
    (fun i => iff_of_false (not_awaits_of_none hp i) (not_awaits_of_none ha i)) hfits

/-- `emplace` takes the place at the head, whoever else is in the slot, and enters its value in
the record. -/
theorem Inv.step_emplace (h : x.Inv n) (hn : n < 2 ^ 63) (ha : x.point a = .emplace v)
    (hadv : x.queue.advance (.emplace v) = some (r, q, p)) :
    Inv ⟨q, Function.update x.point a p, x.pushed ++ [v], x.popped⟩ (n + 1) := by
  have hhead := h.head_le
  simp only [Queue.advance, addW_eq (show x.queue.head + 1 < 2 ^ 64 by omega), Option.some.injEq,
    Prod.mk.injEq] at hadv
  obtain ⟨-, rfl, rfl⟩ := hadv
  exact h.reserve (by rw [ha]; rfl) rfl (h.getElem_head v)

/-- Before an `emplace` goes on, its slot has come to its turn. -/
theorem Inv.step_awaitEmpty (h : x.Inv n) (hn : n < 2 ^ 63) (ha : x.point a = .awaitEmpty k v)
    (hadv : x.queue.advance (.awaitEmpty k v) = some (r, q, p)) :
    Inv ⟨q, Function.update x.point a p, x.pushed, x.popped⟩ (n + 1) := by
  have hfits := h.fits a
  rw [ha] at hfits
  have hlt : k < x.queue.head := h.lt_head (a := a) (by rw [ha]; rfl)
  have hhead := h.head_le
  simp only [Queue.advance] at hadv
  split at hadv
  · -- one more round
    simp only [Option.some.injEq, Prod.mk.injEq] at hadv
    obtain ⟨-, rfl, rfl⟩ := hadv
    exact h.goto (by rw [ha]) (fun i => by rw [ha]) hfits
  · next hturn =>
    simp only [Option.some.injEq, Prod.mk.injEq] at hadv
    obtain ⟨-, rfl, rfl⟩ := hadv
    rw [not_not, mulW_turn (by omega)] at hturn
    refine h.goto (by rw [ha]; rfl) (fun i => ?_) ⟨hfits, hturn.symm⟩
    rw [ha]
    exact iff_of_false (not_awaits_of_even (c := x.queue.capacity) rfl i)
      (not_awaits_of_even (c := x.queue.capacity) rfl i)

/-- The object is constructed in the slot; the turn waits for the store that publishes it. -/
theorem Inv.step_construct (h : x.Inv n) (ha : x.point a = .construct k v tries)
    (hadv : x.queue.advance (.construct k v tries) = some (r, q, p)) :
    Inv ⟨q, Function.update x.point a p, x.pushed, x.popped⟩ (n + 1) := by
  have hfits := h.fits a
  rw [ha] at hfits
  simp only [Queue.advance, h.storage_construct ha, Option.some.injEq, Prod.mk.injEq] at hadv
  obtain ⟨-, rfl, rfl⟩ := hadv
  have hwork := h.work (a := a) (p := .publish k tries) (by rw [ha]; rfl) hfits.2 rfl
    (by rw [ha]; exact not_awaits_of_even (c := x.queue.capacity) rfl) fun q => trivial
  -- what is to be there at the next turn is the value of the place
  rw [content_pop, hfits.1] at hwork
  exact hwork

/-- The producer hands its slot to the turn after it. -/
theorem Inv.step_publish (h : x.Inv n) (hn : n < 2 ^ 63) (ha : x.point a = .publish k tries)
    (hadv : x.queue.advance (.publish k tries) = some (r, q, p)) :
    Inv ⟨q, Function.update x.point a p, x.pushed, x.popped⟩ (n + 1) := by
  have hlt : k < x.queue.head := h.lt_head (a := a) (by rw [ha]; rfl)
  have hhead := h.head_le
  simp only [Queue.advance, addW_turn (show 2 * k + 1 < 2 ^ 64 by omega), Option.some.injEq,
    Prod.mk.injEq] at hadv
  obtain ⟨-, rfl, rfl⟩ := hadv
  -- the ticket is given back with the store, and the thread returns
  exact h.finish (by rw [ha]; rfl)

/-- `try_emplace` starts with a look at the head, which takes no ticket. -/
theorem Inv.step_tryEmplace (h : x.Inv n) (ha : x.point a = .tryEmplace v)
    (hadv : x.queue.advance (.tryEmplace v) = some (r, q, p)) :
    Inv ⟨q, Function.update x.point a p, x.pushed, x.popped⟩ (n + 1) := by
  simp only [Queue.advance, Option.some.injEq, Prod.mk.injEq] at hadv
  obtain ⟨-, rfl, rfl⟩ := hadv
  exact h.goto_none (by rw [ha]; rfl) rfl (Nat.le_refl x.queue.head)

/-- `try_emplace` looks at the turn of the slot at the place it has read. -/
theorem Inv.step_checkEmpty (h : x.Inv n) (hn : n < 2 ^ 63) (ha : x.point a = .checkEmpty k v)
    (hadv : x.queue.advance (.checkEmpty k v) = some (r, q, p)) :
    Inv ⟨q, Function.update x.point a p, x.pushed, x.popped⟩ (n + 1) := by
  have hfits := h.fits a
  rw [ha] at hfits
  change k ≤ x.queue.head at hfits
  have hhead := h.head_le
  simp only [Queue.advance] at hadv
  split at hadv
  · next hturn =>
    -- the turn of an empty slot: it is enough that it is not behind this one
    simp only [Option.some.injEq, Prod.mk.injEq] at hadv
    obtain ⟨-, rfl, rfl⟩ := hadv
    rw [mulW_turn (by omega)] at hturn
    exact h.goto_none (by rw [ha]; rfl) rfl ⟨hfits, hturn.le⟩
  · -- the slot is taken, and the head will be loaded again
    simp only [Option.some.injEq, Prod.mk.injEq] at hadv
    obtain ⟨-, rfl, rfl⟩ := hadv
    exact h.goto_none (by rw [ha]; rfl) rfl hfits

/-- The exchange takes the place in whose slot there was nothing when it was looked at. -/
theorem Inv.step_casHead (h : x.Inv n) (hn : n < 2 ^ 63) (ha : x.point a = .casHead k v)
    (hadv : x.queue.advance (.casHead k v) = some (r, q, p)) :
    Inv ⟨q, Function.update x.point a p, x.pushed ++ x.queue.reserves (.casHead k v), x.popped⟩
      (n + 1) := by
  have hfits := h.fits a
  rw [ha] at hfits
  have hhead := h.head_le
  simp only [Queue.advance] at hadv
  split at hadv
  · next heq =>
    subst heq
    simp only [addW_eq (show x.queue.head + 1 < 2 ^ 64 by omega), Option.some.injEq,
      Prod.mk.injEq] at hadv
    obtain ⟨-, rfl, rfl⟩ := hadv
    simp only [Queue.reserves, if_true]
    refine h.reserve (by rw [ha]; rfl) rfl ⟨h.getElem_head v, Nat.le_antisymm ?_ hfits.2⟩
    -- the turn has not passed, as the place was free until now
    by_contra hlt
    exact Nat.lt_irrefl _ ((issued_push_iff x.queue.capacity_pos).mp
      (h.turns.passed _ _ (Nat.lt_of_not_le hlt)))
  · next hne =>
    simp only [Option.some.injEq, Prod.mk.injEq] at hadv
    obtain ⟨-, rfl, rfl⟩ := hadv
    simp only [Queue.reserves, if_neg hne, List.append_nil]
    exact h.goto_none (by rw [ha]; rfl) rfl (Nat.le_refl x.queue.head)

/-- The second load of the head: the call is refused, or it tries the place the head has come to.
-/
theorem Inv.step_reloadHead (h : x.Inv n) (ha : x.point a = .reloadHead k v)
    (hadv : x.queue.advance (.reloadHead k v) = some (r, q, p)) :
    Inv ⟨q, Function.update x.point a p, x.pushed, x.popped⟩ (n + 1) := by
  simp only [Queue.advance] at hadv
  split at hadv
  · -- the head has not moved, so the refusal stands
    simp only [Option.some.injEq, Prod.mk.injEq] at hadv
    obtain ⟨-, rfl, rfl⟩ := hadv
    exact h.goto_none (by rw [ha]; rfl) rfl trivial
  · simp only [Option.some.injEq, Prod.mk.injEq] at hadv
    obtain ⟨-, rfl, rfl⟩ := hadv
    exact h.goto_none (by rw [ha]; rfl) rfl (Nat.le_refl x.queue.head)

/-- The places that are awaited by a consumer that has just taken one. -/
theorem awaits_tail_iff (tries : Bool) (hp : p = .awaitFull k ∨ p = .move k tries) (i : Nat) :
    p.Awaits i ↔ i = k := by
  constructor
  · rintro (hi | ⟨t, hi⟩)
    · rcases hp with rfl | rfl
      · exact (Point.awaitFull.inj hi).symm
      · exact absurd hi (by simp)
    · rcases hp with rfl | rfl
      · exact absurd hi (by simp)
      · exact (Point.move.inj hi).1.symm
  · rintro rfl
    rcases hp with rfl | rfl
    · exact .inl rfl
    · exact .inr ⟨tries, rfl⟩

/-- `pop` takes the place at the tail, and from then on its value is awaited. -/
theorem Inv.step_pop (h : x.Inv n) (hn : n < 2 ^ 63) (ha : x.point a = .pop)
    (hadv : x.queue.advance (.pop : Point T) = some (r, q, p)) :
    Inv ⟨q, Function.update x.point a p, x.pushed, x.popped⟩ (n + 1) := by
  have htail := h.tail_le
  simp only [Queue.advance, addW_eq (show x.queue.tail + 1 < 2 ^ 64 by omega), Option.some.injEq,
    Prod.mk.injEq] at hadv
  obtain ⟨-, rfl, rfl⟩ := hadv
  exact h.reserveTail (by rw [ha]; rfl) (awaits_tail_iff false (.inl rfl)) trivial

/-- Before a `pop` goes on, its slot has come to its turn. -/
theorem Inv.step_awaitFull (h : x.Inv n) (hn : n < 2 ^ 63) (ha : x.point a = .awaitFull k)
    (hadv : x.queue.advance (.awaitFull k : Point T) = some (r, q, p)) :
    Inv ⟨q, Function.update x.point a p, x.pushed, x.popped⟩ (n + 1) := by
  have hlt : k < x.queue.tail := h.lt_tail (a := a) (by rw [ha]; rfl)
  have htail := h.tail_le
  simp only [Queue.advance] at hadv
  split at hadv
  · -- one more round
    simp only [Option.some.injEq, Prod.mk.injEq] at hadv
    obtain ⟨-, rfl, rfl⟩ := hadv
    exact h.goto (by rw [ha]) (fun i => by rw [ha]) trivial
  · next hturn =>
    simp only [Option.some.injEq, Prod.mk.injEq] at hadv
    obtain ⟨-, rfl, rfl⟩ := hadv
    -- the place is awaited as before, now by a consumer that moves the value out
    rw [not_not, addW_turn (by omega)] at hturn
    refine h.goto (by rw [ha]; rfl) (fun i => ?_) hturn.symm
    rw [ha, awaits_tail_iff false (.inr rfl), awaits_tail_iff false (.inl rfl)]

/-- The value moves out of the slot into the record of what was taken. -/
theorem Inv.step_move (h : x.Inv n) (ha : x.point a = .move k tries)
    (hadv : x.queue.advance (.move k tries : Point T) = some (r, q, p)) :
    Inv ⟨q, Function.update x.point a p, x.pushed,
      x.popped ++ x.queue.takes a (.move k tries)⟩ (n + 1) := by
  obtain ⟨v, hv, hpushed⟩ := h.storage_move ha
  simp only [Queue.advance, hv, Option.some.injEq, Prod.mk.injEq] at hadv
  obtain ⟨-, rfl, rfl⟩ := hadv
  simp only [Queue.takes, hv]
  exact h.take ha hpushed

/-- The object that was moved from is destroyed, and the slot is empty for the next turn. -/
theorem Inv.step_destroy (h : x.Inv n) (ha : x.point a = .destroy k v tries)
    (hadv : x.queue.advance (.destroy k v tries) = some (r, q, p)) :
    Inv ⟨q, Function.update x.point a p, x.pushed, x.popped⟩ (n + 1) := by
  have hfits := h.fits a
  rw [ha] at hfits
  obtain ⟨u, hu, -⟩ := h.storage_destroy ha
  simp only [Queue.advance, hu, Option.some.injEq, Prod.mk.injEq] at hadv
  obtain ⟨-, rfl, rfl⟩ := hadv
  -- its value has left with the step before, so nothing is awaited any more
  have hnot : ∀ i, ¬ Point.Awaits (.destroy k v tries : Point T) i := by
    rintro i (hi | ⟨t, hi⟩)
    · exact absurd hi (by simp)
    · exact absurd hi (by simp)
  have hwork := h.work (a := a) (p := .release k v tries) (by rw [ha]; rfl) hfits.2 rfl
    (by rw [ha]; exact hnot) fun q => hfits.1
  -- the turn after that is even again
  rw [show 2 * (k / x.queue.capacity) + 1 + 1 = 2 * (k / x.queue.capacity + 1) by omega,
    content_even] at hwork
  exact hwork

/-- The consumer hands its slot to the next round of the producers. -/
theorem Inv.step_release (h : x.Inv n) (hn : n < 2 ^ 63) (ha : x.point a = .release k v tries)
    (hadv : x.queue.advance (.release k v tries) = some (r, q, p)) :
    Inv ⟨q, Function.update x.point a p, x.pushed, x.popped⟩ (n + 1) := by
  have hlt : k < x.queue.tail := h.lt_tail (a := a) (by rw [ha]; rfl)
  have htail := h.tail_le
  simp only [Queue.advance, addW_turn (show 2 * k + 2 < 2 ^ 64 by omega), Option.some.injEq,
    Prod.mk.injEq] at hadv
  obtain ⟨-, rfl, rfl⟩ := hadv
  exact h.finish (by rw [ha]; rfl)

/-- `try_pop` starts with a look at the tail, which takes no ticket. -/
theorem Inv.step_tryPop (h : x.Inv n) (ha : x.point a = .tryPop)
    (hadv : x.queue.advance (.tryPop : Point T) = some (r, q, p)) :
    Inv ⟨q, Function.update x.point a p, x.pushed, x.popped⟩ (n + 1) := by
  simp only [Queue.advance, Option.some.injEq, Prod.mk.injEq] at hadv
  obtain ⟨-, rfl, rfl⟩ := hadv
  exact h.goto_none (by rw [ha]; rfl) rfl (Nat.le_refl x.queue.tail)

/-- `try_pop` looks at the turn of the slot at the place it has read. -/
theorem Inv.step_checkFull (h : x.Inv n) (hn : n < 2 ^ 63) (ha : x.point a = .checkFull k)
    (hadv : x.queue.advance (.checkFull k : Point T) = some (r, q, p)) :
    Inv ⟨q, Function.update x.point a p, x.pushed, x.popped⟩ (n + 1) := by
  have hfits := h.fits a
  rw [ha] at hfits
  change k ≤ x.queue.tail at hfits
  have htail := h.tail_le
  simp only [Queue.advance] at hadv
  split at hadv
  · next hturn =>
    -- the turn of a full slot: it is enough that it is not behind this one
    simp only [Option.some.injEq, Prod.mk.injEq] at hadv
    obtain ⟨-, rfl, rfl⟩ := hadv
    rw [addW_turn (by omega)] at hturn
    exact h.goto_none (by rw [ha]; rfl) rfl ⟨hfits, hturn.le⟩
  · -- the slot is not full yet, and the tail will be loaded again
    simp only [Option.some.injEq, Prod.mk.injEq] at hadv
    obtain ⟨-, rfl, rfl⟩ := hadv
    exact h.goto_none (by rw [ha]; rfl) rfl hfits

/-- The exchange takes the place in whose slot there was a value when it was looked at. -/
theorem Inv.step_casTail (h : x.Inv n) (hn : n < 2 ^ 63) (ha : x.point a = .casTail k)
    (hadv : x.queue.advance (.casTail k : Point T) = some (r, q, p)) :
    Inv ⟨q, Function.update x.point a p, x.pushed, x.popped⟩ (n + 1) := by
  have hfits := h.fits a
  rw [ha] at hfits
  have htail := h.tail_le
  simp only [Queue.advance] at hadv
  split at hadv
  · next heq =>
    subst heq
    simp only [addW_eq (show x.queue.tail + 1 < 2 ^ 64 by omega), Option.some.injEq,
      Prod.mk.injEq] at hadv
    obtain ⟨-, rfl, rfl⟩ := hadv
    refine h.reserveTail (by rw [ha]; rfl) (awaits_tail_iff true (.inr rfl))
      (Nat.le_antisymm ?_ hfits.2)
    -- as for the head, the turn has not passed, since the place was free until now
    by_contra hlt
    exact Nat.lt_irrefl _ ((issued_pop_iff x.queue.capacity_pos).mp
      (h.turns.passed _ _ (Nat.lt_of_not_le hlt)))
  · simp only [Option.some.injEq, Prod.mk.injEq] at hadv
    obtain ⟨-, rfl, rfl⟩ := hadv
    exact h.goto_none (by rw [ha]; rfl) rfl (Nat.le_refl x.queue.tail)

/-- The second load of the tail: the call is refused, or it tries the place the tail has come to.
-/
theorem Inv.step_reloadTail (h : x.Inv n) (ha : x.point a = .reloadTail k)
    (hadv : x.queue.advance (.reloadTail k : Point T) = some (r, q, p)) :
    Inv ⟨q, Function.update x.point a p, x.pushed, x.popped⟩ (n + 1) := by
  simp only [Queue.advance] at hadv
  split at hadv
  · -- the tail has not moved, so the refusal stands
    simp only [Option.some.injEq, Prod.mk.injEq] at hadv
    obtain ⟨-, rfl, rfl⟩ := hadv
    exact h.goto_none (by rw [ha]; rfl) rfl trivial
  · simp only [Option.some.injEq, Prod.mk.injEq] at hadv
    obtain ⟨-, rfl, rfl⟩ := hadv
    exact h.goto_none (by rw [ha]; rfl) rfl (Nat.le_refl x.queue.tail)

/-- **One step of one thread.** -/
theorem Inv.advance (h : x.Inv n) (hn : n < 2 ^ 63)
    (hadv : x.queue.advance (x.point a) = some (r, q, p)) :
    Inv ⟨q, Function.update x.point a p, x.pushed ++ x.queue.reserves (x.point a),
      x.popped ++ x.queue.takes a (x.point a)⟩ (n + 1) := by
  -- only taking a place and moving a value out are entered in the record
  have hrecord : x.queue.reserves (x.point a) = [] → x.queue.takes a (x.point a) = [] →
      Inv ⟨q, Function.update x.point a p, x.pushed, x.popped⟩ (n + 1) →
      Inv ⟨q, Function.update x.point a p, x.pushed ++ x.queue.reserves (x.point a),
        x.popped ++ x.queue.takes a (x.point a)⟩ (n + 1) := by
    intro hr ht hinv
    rw [hr, ht, List.append_nil, List.append_nil]
    exact hinv
  cases hp : x.point a with
  | idle =>
    rw [hp] at hadv
    exact absurd hadv (by simp [Queue.advance])
  | emplace v =>
    rw [hp] at hadv
    simp only [Queue.reserves, Queue.takes, List.append_nil]
    exact h.step_emplace hn hp hadv
  | casHead k v =>
    rw [hp] at hadv
    simp only [Queue.takes, List.append_nil]
    exact h.step_casHead hn hp hadv
  | move k tries =>
    rw [hp] at hadv
    simp only [Queue.reserves, List.append_nil]
    exact h.step_move hp hadv
  -- the other steps leave the record alone
  | awaitEmpty k v =>
    rw [hp] at hadv hrecord
    exact hrecord rfl rfl (h.step_awaitEmpty hn hp hadv)
  | construct k v tries =>
    rw [hp] at hadv hrecord
    exact hrecord rfl rfl (h.step_construct hp hadv)
  | publish k tries =>
    rw [hp] at hadv hrecord
    exact hrecord rfl rfl (h.step_publish hn hp hadv)
  | tryEmplace v =>
    rw [hp] at hadv hrecord
    exact hrecord rfl rfl (h.step_tryEmplace hp hadv)
  | checkEmpty k v =>
    rw [hp] at hadv hrecord
    exact hrecord rfl rfl (h.step_checkEmpty hn hp hadv)
  | reloadHead k v =>
    rw [hp] at hadv hrecord
    exact hrecord rfl rfl (h.step_reloadHead hp hadv)
  | pop =>
    rw [hp] at hadv hrecord
    exact hrecord rfl rfl (h.step_pop hn hp hadv)
  | awaitFull k =>
    rw [hp] at hadv hrecord
    exact hrecord rfl rfl (h.step_awaitFull hn hp hadv)
  | destroy k v tries =>
    rw [hp] at hadv hrecord
    exact hrecord rfl rfl (h.step_destroy hp hadv)
  | release k v tries =>
    rw [hp] at hadv hrecord
    exact hrecord rfl rfl (h.step_release hn hp hadv)
  | tryPop =>
    rw [hp] at hadv hrecord
    exact hrecord rfl rfl (h.step_tryPop hp hadv)
  | checkFull k =>
    rw [hp] at hadv hrecord
    exact hrecord rfl rfl (h.step_checkFull hn hp hadv)
  | casTail k =>
    rw [hp] at hadv hrecord
    exact hrecord rfl rfl (h.step_casTail hn hp hadv)
  | reloadTail k =>
    rw [hp] at hadv hrecord
    exact hrecord rfl rfl (h.step_reloadTail hp hadv)

/-- What a step of a thread has done to the pool. -/
theorem step_inv (hs : x.step (.step a) = some (r, y)) :
    ∃ q p, x.queue.advance (x.point a) = some (r, q, p) ∧
      y = ⟨q, Function.update x.point a p, x.pushed ++ x.queue.reserves (x.point a),
        x.popped ++ x.queue.takes a (x.point a)⟩ := by
  simp only [Pool.step] at hs
  split at hs
  · exact absurd hs (by simp)
  · next r' q p hadv =>
    obtain ⟨rfl, rfl⟩ := Prod.mk.inj (Option.some.inj hs)
    exact ⟨q, p, hadv, rfl⟩

/-- **One action.** -/
theorem Inv.step (h : x.Inv n) (hn : n < 2 ^ 63) {o : Action τ T}
    (hs : x.step o = some (r, y)) : y.Inv (n + 1) := by
  cases o with
  | call a c =>
    simp only [Pool.step] at hs
    split at hs
    · next hidle =>
      obtain ⟨-, rfl⟩ := Prod.mk.inj (Option.some.inj hs)
      -- the call puts its thread at its first point, which holds no ticket
      refine h.goto_none (by rw [hidle]; rfl) ?_ ?_
      · cases c <;> rfl
      · cases c <;> exact trivial
    · exact absurd hs (by simp)
  | step a =>
    obtain ⟨q, p, hadv, rfl⟩ := step_inv hs
    exact h.advance hn hadv

/-- **A whole run.** -/
theorem Inv.reaches {os : List (Action τ T)} (h : x.Inv n) (hn : n + os.length ≤ 2 ^ 63)
    (hr : Reaches Pool.step (fun _ _ => True) x os y) : y.Inv (n + os.length) := by
  induction hr generalizing n with
  | refl x => exact h
  | @cons x y z o os r _ hs _ ih =>
    rw [List.length_cons] at hn ⊢
    rw [← Nat.succ_add_eq_add_succ]
    exact ih (h.step (by omega) hs) (by omega)

end Steps

/-! ### Who works on a slot -/

/-- Whoever works on a slot holds the ticket for the turn it has come to. -/
theorem Inv.hold_of_worksOn (h : x.Inv n) {j : Nat}
    (ha : (x.point a).worksOn x.queue.capacity = some j) :
    ∃ hd, (x.point a).hold x.queue.capacity = some hd ∧ hd.slot = j ∧
      hd.turn = (x.queue.slots hd.slot).turn := by
  have hfits := h.fits a
  cases hp : x.point a with
  | construct k v tries =>
    rw [hp] at ha hfits
    exact ⟨_, rfl, Option.some.inj ha, hfits.2.symm⟩
  | publish k tries =>
    have hin := h.turns.inTurn a ⟨k % x.queue.capacity, 2 * (k / x.queue.capacity), true⟩
      (by simp only [Pool.turns, hp, Point.hold]) rfl
    rw [hp] at ha
    exact ⟨_, rfl, Option.some.inj ha, hin.1⟩
  | move k tries =>
    rw [hp] at ha hfits
    exact ⟨_, rfl, Option.some.inj ha, hfits.symm⟩
  | destroy k v tries =>
    rw [hp] at ha hfits
    exact ⟨_, rfl, Option.some.inj ha, hfits.2.symm⟩
  | release k v tries =>
    have hin := h.turns.inTurn a ⟨k % x.queue.capacity, 2 * (k / x.queue.capacity) + 1, true⟩
      (by simp only [Pool.turns, hp, Point.hold]) rfl
    rw [hp] at ha
    exact ⟨_, rfl, Option.some.inj ha, hin.1⟩
  -- at the other points a thread holds no slot, or waits for it
  | idle => rw [hp] at ha; exact absurd ha (by simp [Point.worksOn])
  | emplace v => rw [hp] at ha; exact absurd ha (by simp [Point.worksOn])
  | awaitEmpty k v => rw [hp] at ha; exact absurd ha (by simp [Point.worksOn])
  | tryEmplace v => rw [hp] at ha; exact absurd ha (by simp [Point.worksOn])
  | checkEmpty k v => rw [hp] at ha; exact absurd ha (by simp [Point.worksOn])
  | casHead k v => rw [hp] at ha; exact absurd ha (by simp [Point.worksOn])
  | reloadHead k v => rw [hp] at ha; exact absurd ha (by simp [Point.worksOn])
  | pop => rw [hp] at ha; exact absurd ha (by simp [Point.worksOn])
  | awaitFull k => rw [hp] at ha; exact absurd ha (by simp [Point.worksOn])
  | tryPop => rw [hp] at ha; exact absurd ha (by simp [Point.worksOn])
  | checkFull k => rw [hp] at ha; exact absurd ha (by simp [Point.worksOn])
  | casTail k => rw [hp] at ha; exact absurd ha (by simp [Point.worksOn])
  | reloadTail k => rw [hp] at ha; exact absurd ha (by simp [Point.worksOn])

/-- **Exclusion.** Two threads that worked on one slot would hold the ticket of one turn. -/
theorem Inv.worksOn_unique (h : x.Inv n) {b : τ} {j : Nat}
    (ha : (x.point a).worksOn x.queue.capacity = some j)
    (hb : (x.point b).worksOn x.queue.capacity = some j) : a = b := by
  obtain ⟨h₁, hold₁, hslot₁, hturn₁⟩ := h.hold_of_worksOn ha
  obtain ⟨h₂, hold₂, hslot₂, hturn₂⟩ := h.hold_of_worksOn hb
  exact h.turns.exclusive hold₁ hold₂ (hslot₁.trans hslot₂.symm) hturn₁ hturn₂

/-! ### A queue at rest -/

/-- All turns that were issued have passed, and no others. -/
theorem Inv.issued_iff_of_rest (h : x.Inv n) (hrest : ∀ a, x.point a = .idle) (j m : Nat) :
    Issued x.queue.capacity x.queue.head x.queue.tail j m ↔ m < (x.queue.slots j).turn := by
  constructor
  · intro hi
    by_contra hle
    -- a turn that was issued and has not passed is held by somebody, but all threads are idle
    obtain ⟨a, hd, ha, -⟩ := h.turns.held j m hi (Nat.le_of_not_lt hle)
    change (x.point a).hold x.queue.capacity = some hd at ha
    rw [hrest a] at ha
    exact absurd ha (by simp [Point.hold])
  · exact h.turns.passed j m

/-- At rest, the places behind the head are those whose slot has passed their push. -/
theorem Inv.lt_head_iff_of_rest (h : x.Inv n) (hrest : ∀ a, x.point a = .idle) :
    k < x.queue.head ↔ 2 * (k / x.queue.capacity) < (x.queue.slot k).turn :=
  (issued_push_iff x.queue.capacity_pos).symm.trans (h.issued_iff_of_rest hrest _ _)

/-- At rest, the places behind the tail are those whose slot has passed their pop. -/
theorem Inv.lt_tail_iff_of_rest (h : x.Inv n) (hrest : ∀ a, x.point a = .idle) :
    k < x.queue.tail ↔ 2 * (k / x.queue.capacity) + 1 < (x.queue.slot k).turn :=
  (issued_pop_iff x.queue.capacity_pos).symm.trans (h.issued_iff_of_rest hrest _ _)

/-- At rest, a slot stores what its turn says, since nobody works on it. -/
theorem Inv.storage_of_rest (h : x.Inv n) (hrest : ∀ a, x.point a = .idle) (j : Nat) :
    (x.queue.slots j).storage =
      content x.queue.capacity x.pushed j (x.queue.slots j).turn := by
  refine h.turns.value j fun a hd ha => ?_
  change (x.point a).hold x.queue.capacity = some hd at ha
  rw [hrest a] at ha
  exact absurd ha (by simp [Point.hold])

/-- At rest, no consumer has run ahead of the producers: a turn for a pop follows one for a push.
-/
theorem Inv.tail_le_head (h : x.Inv n) (hrest : ∀ a, x.point a = .idle) :
    x.queue.tail ≤ x.queue.head := by
  by_contra hlt
  have hpop := (h.lt_tail_iff_of_rest hrest).mp (Nat.lt_of_not_le hlt)
  exact Nat.lt_irrefl _ ((h.lt_head_iff_of_rest hrest).mpr (Nat.lt_of_succ_lt hpop))

/-- The values in the slots at odd turns. -/
theorem Inv.destructSlots_of_rest (h : x.Inv n) (hrest : ∀ a, x.point a = .idle) (i : Nat)
    (hi : i ≤ x.queue.capacity) : x.queue.destructSlots i =
      some (((List.range i).filter fun j => (x.queue.slots j).turn % 2 = 1).flatMap fun j =>
        x.pushed[(x.queue.slots j).turn / 2 * x.queue.capacity + j]?.toList) := by
  induction i with
  | zero => rfl
  | succ i ih =>
    rw [Queue.destructSlots, ih (Nat.le_of_succ_le hi), List.range_succ, List.filter_append,
      List.flatMap_append]
    have hstorage := h.storage_of_rest hrest i
    by_cases hodd : (x.queue.slots i).turn % 2 = 1
    · -- the value was put there in the turn before
      have hissued := (h.issued_iff_of_rest hrest i ((x.queue.slots i).turn - 1)).mpr (by omega)
      have hlt := hissued.2
      rw [if_pos (by omega), show ((x.queue.slots i).turn - 1) / 2 = (x.queue.slots i).turn / 2 by
        omega, h.head_eq] at hlt
      unfold content at hstorage
      rw [if_neg (by omega), List.getElem?_eq_getElem hlt] at hstorage
      simp [Slot.destruct, hodd, hstorage, List.getElem?_eq_getElem hlt]
    · -- an empty slot has nothing to destroy
      simp [Slot.destruct, hodd]

/-- The places whose values are in the slots. -/
theorem Inv.places_of_rest (h : x.Inv n) (hrest : ∀ a, x.point a = .idle) :
    (((List.range x.queue.capacity).filter fun j => (x.queue.slots j).turn % 2 = 1).map fun j =>
      (x.queue.slots j).turn / 2 * x.queue.capacity + j).Perm
        (List.range' x.queue.tail (x.queue.head - x.queue.tail)) := by
  have hle := h.tail_le_head hrest
  rw [List.perm_ext_iff_of_nodup ?_ List.nodup_range']
  · intro k
    rw [List.mem_range'_1, List.mem_map]
    constructor
    · -- a full slot's place has been pushed and not popped
      rintro ⟨j, hj, heq⟩
      simp only [List.mem_filter, List.mem_range, decide_eq_true_eq] at hj
      obtain ⟨hr, rfl⟩ := (eq_place_iff hj.1).mp heq
      have hturn : (x.queue.slot k).turn = 2 * (k / x.queue.capacity) + 1 := by
        rw [← hr]
        unfold Queue.slot Queue.idx
        omega
      have hhead := (h.lt_head_iff_of_rest (k := k) hrest).mpr (by omega)
      have htail := mt (h.lt_tail_iff_of_rest (k := k) hrest).mp (by omega)
      omega
    · -- a place that was pushed and not popped has a full slot at its own turn
      rintro ⟨htail, hhead⟩
      have hlt := (h.lt_head_iff_of_rest (k := k) hrest).mp (by omega)
      have hge := mt (h.lt_tail_iff_of_rest (k := k) hrest).mpr (by omega)
      have hturn : (x.queue.slots (k % x.queue.capacity)).turn =
          2 * (k / x.queue.capacity) + 1 := by
        unfold Queue.slot Queue.idx at hlt hge
        omega
      refine ⟨k % x.queue.capacity, ?_, ?_⟩
      · simp only [List.mem_filter, List.mem_range, decide_eq_true_eq]
        exact ⟨Nat.mod_lt k x.queue.capacity_pos, by omega⟩
      · rw [hturn, two_mul_succ_div_two, place_eq]
  · -- a slot is told by the place
    refine List.Nodup.map_on (fun j hj j' hj' heq => ?_) (List.nodup_range.filter _)
    simp only [List.mem_filter, List.mem_range] at hj hj'
    obtain ⟨-, hmod⟩ := (eq_place_iff hj.1).mp heq
    obtain ⟨-, hmod'⟩ := (eq_place_iff hj'.1).mp rfl
    exact hmod.trans hmod'.symm

/-- The values behind a position of a list. -/
theorem flatMap_range'_eq_drop (l : List T) {t : Nat} (ht : t ≤ l.length) :
    ((List.range' t (l.length - t)).flatMap fun k => l[k]?.toList) = l.drop t := by
  -- by induction on the number of values behind the position
  induction hd : l.length - t generalizing t with
  | zero =>
    have heq : t = l.length := by omega
    rw [heq, List.drop_length]
    rfl
  | succ d ih =>
    have hlt : t < l.length := by omega
    rw [List.range'_succ, List.flatMap_cons, ih (by omega) (by omega),
      List.getElem?_eq_getElem hlt, List.drop_eq_getElem_cons hlt]
    rfl

/-- **The destructor** of a queue at rest destroys the values that have not left. -/
theorem Inv.destruct_of_rest (h : x.Inv n) (hrest : ∀ a, x.point a = .idle) :
    ∃ l, x.queue.destruct = some l ∧ l.Perm (x.pushed.drop x.queue.tail) := by
  refine ⟨_, h.destructSlots_of_rest hrest _ (Nat.le_refl _), ?_⟩
  have hle := h.tail_le_head hrest
  have hplaces := (h.places_of_rest hrest).flatMap_right fun k => x.pushed[k]?.toList
  rw [List.flatMap_map] at hplaces
  rw [h.head_eq] at hle hplaces
  rw [flatMap_range'_eq_drop _ hle] at hplaces
  exact hplaces

/-- `size` is a signed difference; so few steps cannot have wrapped either index. -/
theorem Inv.size_eq (h : x.Inv n) (hn : n < 2 ^ 63) :
    x.queue.size = (x.queue.head : Int) - x.queue.tail := by
  have hhead := h.head_le
  have htail := h.tail_le
  unfold Queue.size subW
  rw [Int.bmod_def]
  split
  · omega
  · omega

end Pool

/-- **First in, first out.** Any number of threads call `emplace`, `try_emplace`, `pop` and
`try_pop` on a queue that was constructed with some capacity, and their steps are taken in any
order; there are fewer than `2 ^ 63` of them. No thread in a call is ever stuck, and at most one
thread works on a slot. The values leave the queue by the places they entered it by, each place at
most once, and a thread that takes out several does so in the order of their places. When all calls
have returned, the values that have not left are those that entered last; `size` is their number,
`empty` tells whether there are any, and the destructor destroys exactly them. -/
theorem mpmc_fifo [DecidableEq τ] {capacity : Nat} {q : Queue T}
    (hq : Queue.create capacity = .ok q) {os : List (Action τ T)} (hlen : os.length < 2 ^ 63)
    {x : Pool τ T} (hr : Reaches Pool.step (fun _ _ => True) (Pool.start q) os x) :
    (∀ a, x.point a ≠ .idle → (x.step (.step a)).isSome) ∧
    (∀ a b j, (x.point a).worksOn x.queue.capacity = some j →
      (x.point b).worksOn x.queue.capacity = some j → a = b) ∧
    (∀ e ∈ x.popped, x.pushed[e.place]? = some e.value) ∧
    (x.popped.map Taken.place).Nodup ∧
    x.popped.Pairwise (fun e e' => e.thread = e'.thread → e.place < e'.place) ∧
    ((∀ a, x.point a = .idle) →
      (x.popped.map Taken.place).Perm (List.range x.queue.tail) ∧
      ∃ l, x.queue.destruct = some l ∧ l.Perm (x.pushed.drop x.queue.tail) ∧
        x.queue.size = l.length ∧ (x.queue.empty = true ↔ l = []) ∧
        ∀ j, (x.queue.slots j).storage.isSome → (x.queue.slots j).turn % 2 = 1) := by
  have hinv := (Pool.inv_start hq).reaches (by omega) hr
  rw [Nat.zero_add] at hinv
  -- the parts that hold at any time come from the invariant, the last from the pool at rest
  refine ⟨fun a ha => ?_, fun a b j => hinv.worksOn_unique, hinv.popped_eq, hinv.popped_nodup,
    hinv.popped_order, fun hrest => ?_⟩
  · obtain ⟨⟨r, q', p⟩, hadv⟩ := Option.isSome_iff_exists.mp (hinv.advance_isSome ha)
    simp only [Pool.step, hadv, Option.isSome_some]
  · obtain ⟨l, hl, hperm⟩ := hinv.destruct_of_rest hrest
    have hle := hinv.tail_le_head hrest
    have hsize : x.queue.size = l.length := by
      rw [hinv.size_eq hlen, hperm.length_eq, List.length_drop, ← hinv.head_eq]
      omega
    refine ⟨?_, l, hl, hperm, hsize, ?_, fun j hj => ?_⟩
    · -- at rest nothing is awaited, so the places taken are all places below the tail
      rw [List.perm_ext_iff_of_nodup hinv.popped_nodup List.nodup_range]
      intro k
      rw [hinv.popped_iff, List.mem_range]
      refine and_iff_left fun a => ?_
      rw [hrest a]
      exact Pool.not_awaits_of_none (c := x.queue.capacity) rfl k
    · unfold Queue.empty
      rw [hsize, decide_eq_true_iff, ← List.length_eq_zero_iff]
      omega
    · by_contra hodd
      -- at an even turn there is nothing in the slot
      rw [hinv.storage_of_rest hrest] at hj
      unfold content at hj
      rw [if_pos (by omega)] at hj
      exact absurd hj (by simp)

/-- A consumer waits for a value that is put in meanwhile; then another value is put in. -/
def exchangingRun : List (Action Bool Nat) :=
  [[.call true .pop, .call false (.emplace 1)], .replicate 2 (.step true),
    .replicate 4 (.step false), .replicate 4 (.step true), [.call false (.tryEmplace 2)],
    .replicate 5 (.step false)].flatten

/-- A consumer that waits before there is anything to take gets the value that is put in
meanwhile; the second value stays for the destructor. -/
theorem mpmc_fifo_exchanging : ∃ (q : Queue Nat) (x : Pool Bool Nat),
    Queue.create 2 = .ok q ∧
    Reaches Pool.step (fun _ _ => True) (Pool.start q) exchangingRun x ∧
    x.popped = [⟨true, 0, 1⟩] ∧
    ∃ l, x.queue.destruct = some l ∧ l.Perm [2] ∧ x.queue.size = l.length := by
  obtain ⟨q, hq⟩ : ∃ q : Queue Nat, Queue.create 2 = .ok q := ⟨_, rfl⟩
  have hrun : (follow Pool.step (Pool.start q : Pool Bool Nat) exchangingRun).map
      (fun z => (decide (∀ a, z.point a = .idle), z.pushed, z.popped, z.queue.tail)) =
        some (true, [1, 2], [⟨true, 0, 1⟩], 1) := by
    obtain rfl := Except.ok.inj hq
    decide +kernel
  obtain ⟨x, hx, hobs⟩ := Option.map_eq_some_iff.mp hrun
  simp only [Prod.mk.injEq] at hobs
  obtain ⟨hidle, hpushed, hpopped, htail⟩ := hobs
  have hr : Reaches Pool.step (fun _ _ => True) (Pool.start q) exchangingRun x :=
    .of_follow hx (along_of_forall (fun _ _ => trivial) _)
  obtain ⟨-, l, hl, hperm, hsize, -⟩ :=
    (mpmc_fifo hq (by decide) hr).2.2.2.2.2 (of_decide_eq_true hidle)
  rw [hpushed, htail] at hperm
  exact ⟨q, x, hq, hr, hpopped, l, hl, hperm, hsize⟩

end PosixIpc.Mpmc
