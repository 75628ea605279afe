import PosixIpc.Mpmc.Fifo

/-!
# Waiting and refusing

Two results about when the queue does not do what it is asked to.

`mpmc_no_deadlock`: if every thread that is in a call only spins, the producers among them wait for
places that are not in the queue yet for want of capacity, and the consumers for values that nobody
has put in. So there are not both.

`mpmc_refusal`: `try_emplace` answers false only if, when it looked, all places before it were taken
and the one a whole round before had not been given back; `try_pop` answers false only if, when it
looked, the value at the front had not been put in. The two loads of the index tell that it did not
move in between, as it only ever grows (`Pool.Inv.queue_le`).
-/

namespace PosixIpc.Mpmc

open Framework

variable {T τ : Type}

namespace Pool

variable {x y : Pool τ T} {n k : Nat} {a : τ} {v : T}

/-- A step of the thread changes nothing. -/
def Spins (x : Pool τ T) (a : τ) : Prop :=
  x.queue.advance (x.point a) = some (none, x.queue, x.point a)

/-- What spins is one of the two loops that wait for a slot. -/
theorem Spins.awaits (h : x.Spins a) :
    (∃ k v, x.point a = .awaitEmpty k v) ∨ ∃ k, x.point a = .awaitFull k := by
  unfold Spins at h
  cases hp : x.point a with
  | awaitEmpty k v => exact .inl ⟨k, v, rfl⟩
  | awaitFull k => exact .inr ⟨k, rfl⟩
  -- at any other point the step is not taken in vain: the thread has returned or goes on
  | idle => rw [hp] at h; exact absurd h (by simp [Queue.advance])
  | emplace v => rw [hp] at h; exact absurd h (by simp [Queue.advance])
  | construct k v t => rw [hp] at h; simp only [Queue.advance] at h; split at h <;> simp at h
  | publish k t => rw [hp] at h; exact absurd h (by simp [Queue.advance])
  | tryEmplace v => rw [hp] at h; exact absurd h (by simp [Queue.advance])
  | checkEmpty k v => rw [hp] at h; simp only [Queue.advance] at h; split at h <;> simp at h
  | casHead k v => rw [hp] at h; simp only [Queue.advance] at h; split at h <;> simp at h
  | reloadHead k v => rw [hp] at h; simp only [Queue.advance] at h; split at h <;> simp at h
  | pop => rw [hp] at h; exact absurd h (by simp [Queue.advance])
  | move k t => rw [hp] at h; simp only [Queue.advance] at h; split at h <;> simp at h
  | destroy k v t => rw [hp] at h; simp only [Queue.advance] at h; split at h <;> simp at h
  | release k v t => rw [hp] at h; exact absurd h (by simp [Queue.advance])
  | tryPop => rw [hp] at h; exact absurd h (by simp [Queue.advance])
  | checkFull k => rw [hp] at h; simp only [Queue.advance] at h; split at h <;> simp at h
  | casTail k => rw [hp] at h; simp only [Queue.advance] at h; split at h <;> simp at h
  | reloadTail k => rw [hp] at h; simp only [Queue.advance] at h; split at h <;> simp at h

/-- A thread whose turn has come does not spin. -/
theorem Inv.not_spins (h : x.Inv n) (hn : n < 2 ^ 63) {hd : Hold Nat}
    (ha : (x.point a).hold x.queue.capacity = some hd)
    (hturn : (x.queue.slots hd.slot).turn = hd.turn) : ¬ x.Spins a := by
  have hhead := h.head_le
  have htail := h.tail_le
  intro hspins
  unfold Spins at hspins
  cases hp : x.point a with
  -- the two loops, whose condition is that the turn has not come
  | awaitEmpty k v =>
    have hlt : k < x.queue.head := h.lt_head (a := a) (by rw [hp]; rfl)
    rw [hp] at ha hspins
    obtain rfl := Option.some.inj ha
    have heq : mulW (x.queue.turn k) 2 = (x.queue.slot k).turn := by
      rw [mulW_turn (by omega)]
      exact hturn.symm
    simp [Queue.advance, heq] at hspins
  | awaitFull k =>
    have hlt : k < x.queue.tail := h.lt_tail (a := a) (by rw [hp]; rfl)
    rw [hp] at ha hspins
    obtain rfl := Option.some.inj ha
    have heq : addW (mulW (x.queue.turn k) 2) 1 = (x.queue.slot k).turn := by
      rw [addW_turn (by omega)]
      exact hturn.symm
    simp [Queue.advance, heq] at hspins
  -- behind the loops nobody waits
  | construct k v tries =>
    rw [hp] at hspins
    simp [Queue.advance, h.storage_construct hp] at hspins
  | publish k tries =>
    rw [hp] at hspins
    simp [Queue.advance] at hspins
  | move k tries =>
    obtain ⟨v, hv, -⟩ := h.storage_move hp
    rw [hp] at hspins
    simp [Queue.advance, hv] at hspins
  | destroy k v tries =>
    obtain ⟨u, hu, -⟩ := h.storage_destroy hp
    rw [hp] at hspins
    simp [Queue.advance, hu] at hspins
  | release k v tries =>
    rw [hp] at hspins
    simp [Queue.advance] at hspins
  -- without a ticket the thread does not hold a turn
  | idle => rw [hp] at ha; exact absurd ha (by simp [Point.hold])
  | emplace v => rw [hp] at ha; exact absurd ha (by simp [Point.hold])
  | tryEmplace v => rw [hp] at ha; exact absurd ha (by simp [Point.hold])
  | checkEmpty k v => rw [hp] at ha; exact absurd ha (by simp [Point.hold])
  | casHead k v => rw [hp] at ha; exact absurd ha (by simp [Point.hold])
  | reloadHead k v => rw [hp] at ha; exact absurd ha (by simp [Point.hold])
  | pop => rw [hp] at ha; exact absurd ha (by simp [Point.hold])
  | tryPop => rw [hp] at ha; exact absurd ha (by simp [Point.hold])
  | checkFull k => rw [hp] at ha; exact absurd ha (by simp [Point.hold])
  | casTail k => rw [hp] at ha; exact absurd ha (by simp [Point.hold])
  | reloadTail k => rw [hp] at ha; exact absurd ha (by simp [Point.hold])

/-- If nobody gets on, nobody has a ticket for the turn a slot has come to. -/
theorem Inv.not_issued_turn (h : x.Inv n) (hn : n < 2 ^ 63)
    (hstuck : ∀ a, x.point a = .idle ∨ x.Spins a) (j : Nat) :
    ¬ Issued x.queue.capacity x.queue.head x.queue.tail j (x.queue.slots j).turn := by
  intro hi
  obtain ⟨a, hd, ha, rfl, hturn⟩ := h.turns.held j _ hi (Nat.le_refl _)
  rcases hstuck a with hidle | hspins
  · change (x.point a).hold x.queue.capacity = some hd at ha
    rw [hidle] at ha
    exact absurd ha (by simp [Point.hold])
  · exact h.not_spins hn ha hturn.symm hspins

/-- A place of an earlier round of the same slot. -/
theorem place_le_of_lt {c r : Nat} (hr : r < k / c) : r * c + k % c + c ≤ k := by
  calc r * c + k % c + c = (r + 1) * c + k % c := by rw [Nat.succ_mul]; omega
    _ ≤ k / c * c + k % c := Nat.add_le_add_right (Nat.mul_le_mul_right c hr) _
    _ = k := place_eq k c

/-- **A producer that waits** while nobody gets on has a place that is not free. -/
theorem Inv.le_of_stuck_push (h : x.Inv n) (hn : n < 2 ^ 63)
    (hstuck : ∀ a, x.point a = .idle ∨ x.Spins a) (ha : x.point a = .awaitEmpty k v) :
    x.queue.tail + x.queue.capacity ≤ k := by
  have hhold : (x.point a).hold x.queue.capacity =
      some ⟨k % x.queue.capacity, 2 * (k / x.queue.capacity), false⟩ := by
    rw [ha]
    rfl
  have hlt : k < x.queue.head := h.lt_head hhold
  have hnot := h.not_issued_turn hn hstuck (k % x.queue.capacity)
  have hdue : (x.queue.slots (k % x.queue.capacity)).turn ≤ 2 * (k / x.queue.capacity) :=
    h.turns.due a _ hhold
  have hne : (x.queue.slots (k % x.queue.capacity)).turn ≠ 2 * (k / x.queue.capacity) := by
    intro heq
    rw [heq, issued_push_iff x.queue.capacity_pos] at hnot
    exact hnot hlt
  generalize (x.queue.slots (k % x.queue.capacity)).turn = t at hnot hdue hne
  unfold Issued at hnot
  have hplace := @place_le_of_lt k x.queue.capacity (t / 2) (by omega)
  by_cases heven : t % 2 = 0
  · -- it is the turn of a producer, whose place is before this one
    rw [if_pos heven] at hnot
    exact absurd ⟨Nat.mod_lt k x.queue.capacity_pos, by omega⟩ hnot
  · -- it is the turn of a consumer that has not come
    rw [if_neg heven] at hnot
    have hge : ¬ t / 2 * x.queue.capacity + k % x.queue.capacity < x.queue.tail :=
      fun hlt' => hnot ⟨Nat.mod_lt k x.queue.capacity_pos, hlt'⟩
    omega

/-- **A consumer that waits** while nobody gets on has a place that nobody has put a value in. -/
theorem Inv.le_of_stuck_pop (h : x.Inv n) (hn : n < 2 ^ 63)
    (hstuck : ∀ a, x.point a = .idle ∨ x.Spins a) (ha : x.point a = .awaitFull k) :
    x.queue.head ≤ k := by
  have hhold : (x.point a).hold x.queue.capacity =
      some ⟨k % x.queue.capacity, 2 * (k / x.queue.capacity) + 1, false⟩ := by
    rw [ha]
    rfl
  have hlt : k < x.queue.tail := h.lt_tail hhold
  have hnot := h.not_issued_turn hn hstuck (k % x.queue.capacity)
  have hdue : (x.queue.slots (k % x.queue.capacity)).turn ≤ 2 * (k / x.queue.capacity) + 1 :=
    h.turns.due a _ hhold
  have hle : (x.queue.slots (k % x.queue.capacity)).turn / 2 * x.queue.capacity +
      k % x.queue.capacity ≤ k := by
    calc _ ≤ k / x.queue.capacity * x.queue.capacity + k % x.queue.capacity :=
          Nat.add_le_add_right (Nat.mul_le_mul_right _ (by omega)) _
      _ = k := place_eq k _
  generalize (x.queue.slots (k % x.queue.capacity)).turn = t at hnot hdue hle
  unfold Issued at hnot
  by_cases heven : t % 2 = 0
  · rw [if_pos heven] at hnot
    have hge : ¬ t / 2 * x.queue.capacity + k % x.queue.capacity < x.queue.head :=
      fun hlt' => hnot ⟨Nat.mod_lt k x.queue.capacity_pos, hlt'⟩
    omega
  · -- the turn of a consumer, whose place is this one or before it
    rw [if_neg heven] at hnot
    exact absurd ⟨Nat.mod_lt k x.queue.capacity_pos, by omega⟩ hnot

end Pool

/-- **No deadlock.** In every state reached in fewer than `2 ^ 63` steps, if no thread that is in a
call gets on, then each of them waits in `emplace` for a place a whole capacity or more behind what
the consumers have taken, or in `pop` for a place behind what the producers have taken. There are
not both: one call of the other side lets a thread go on. -/
theorem mpmc_no_deadlock [DecidableEq τ] {capacity : Nat} {q : Queue T}
    (hq : Queue.create capacity = .ok q) {os : List (Action τ T)} (hlen : os.length < 2 ^ 63)
    {x : Pool τ T} (hr : Reaches Pool.step (fun _ _ => True) (Pool.start q) os x)
    (hstuck : ∀ a, x.point a = .idle ∨ x.Spins a) :
    (∀ a, x.point a = .idle ∨
      (∃ k v, x.point a = .awaitEmpty k v ∧ x.queue.tail + x.queue.capacity ≤ k ∧
        k < x.queue.head) ∨
      ∃ k, x.point a = .awaitFull k ∧ x.queue.head ≤ k ∧ k < x.queue.tail) ∧
    ∀ a b k v k', x.point a = .awaitEmpty k v → x.point b ≠ .awaitFull k' := by
  have hinv := (Pool.inv_start hq).reaches (by omega) hr
  rw [Nat.zero_add] at hinv
  -- by the ticket invariant, the turn before the one that is waited for has not been given back
  have hpush : ∀ a k v, x.point a = .awaitEmpty k v →
      x.queue.tail + x.queue.capacity ≤ k ∧ k < x.queue.head := fun a k v ha =>
    ⟨hinv.le_of_stuck_push hlen hstuck ha, hinv.lt_head (a := a) (by rw [ha]; rfl)⟩
  have hpop : ∀ a k, x.point a = .awaitFull k → x.queue.head ≤ k ∧ k < x.queue.tail := fun a k ha =>
    ⟨hinv.le_of_stuck_pop hlen hstuck ha, hinv.lt_tail (a := a) (by rw [ha]; rfl)⟩
  constructor
  · intro a
    refine (hstuck a).imp_right fun hspins => ?_
    rcases hspins.awaits with ⟨k, v, ha⟩ | ⟨k, ha⟩
    · exact .inl ⟨k, v, ha, hpush a k v ha⟩
    · exact .inr ⟨k, ha, hpop a k ha⟩
  · -- the two kinds of waiting exclude each other: their bounds contradict
    intro a b k v k' ha hb
    obtain ⟨h₁, h₂⟩ := hpush a k v ha
    obtain ⟨h₃, h₄⟩ := hpop b k' hb
    omega

/-- Two consumers wait at an empty queue. -/
def waitingRun : List (Action Bool Nat) :=
  [.call true .pop, .call false .pop, .step true, .step false, .step false]

/-- Two consumers wait, and no producer does. -/
theorem mpmc_no_deadlock_waiting : ∃ (q : Queue Nat) (x : Pool Bool Nat),
    Queue.create 2 = .ok q ∧ Reaches Pool.step (fun _ _ => True) (Pool.start q) waitingRun x ∧
    (∀ a, x.point a = .idle ∨ x.Spins a) ∧ ∀ a k v, x.point a ≠ .awaitEmpty k v := by
  obtain ⟨q, hq⟩ : ∃ q : Queue Nat, Queue.create 2 = .ok q := ⟨_, rfl⟩
  have hrun : (follow Pool.step (Pool.start q : Pool Bool Nat) waitingRun).map
      (fun z => (z.point true, z.point false, (z.queue.slots 0).turn, (z.queue.slots 1).turn,
        z.queue.capacity)) =
        some (.awaitFull 0, .awaitFull 1, 0, 0, 2) := by
    obtain rfl := Except.ok.inj hq
    decide +kernel
  obtain ⟨x, hx, hobs⟩ := Option.map_eq_some_iff.mp hrun
  simp only [Prod.mk.injEq] at hobs
  obtain ⟨htrue, hfalse, hturn, hturn', hcap⟩ := hobs
  have hr : Reaches Pool.step (fun _ _ => True) (Pool.start q) waitingRun x :=
    .of_follow hx (along_of_forall (fun _ _ => trivial) _)
  have hstuck : ∀ a, x.point a = .idle ∨ x.Spins a := by
    -- the turn of neither slot is the one that is waited for
    intro a
    right
    cases a
    · simp [Pool.Spins, hfalse, Queue.advance, Queue.slot, Queue.idx, Queue.turn, hcap, hturn',
        addW, mulW]
    · simp [Pool.Spins, htrue, Queue.advance, Queue.slot, Queue.idx, Queue.turn, hcap, hturn,
        addW, mulW]
  refine ⟨q, x, hq, hr, hstuck, fun a k v ha => ?_⟩
  exact (mpmc_no_deadlock hq (by decide) hr hstuck).2 a true k v 0 ha htrue

/-! ### Refusing -/

/-- The indices only move on. -/
theorem Queue.advance_indices {q q' : Queue T} {p p' : Point T} {r : Option (Return T)}
    (h : q.advance p = some (r, q', p')) : (q'.head = q.head ∨ q'.head = addW q.head 1) ∧
      (q'.tail = q.tail ∨ q'.tail = addW q.tail 1) := by
  cases p <;> simp only [Queue.advance] at h <;> grind [Queue.setTurn, Queue.setStorage]

/-- A place is told by its slot and its round. -/
theorem eq_of_place {c i : Nat} {k : Nat} (hmod : k % c = i % c) (hdiv : k / c = i / c) : k = i := by
  rw [← place_eq k c, hmod, hdiv, place_eq]

/-- The thread is putting a value in at a place. -/
def Point.PutsIn (p : Point T) (k : Nat) : Prop :=
  (∃ v, p = .awaitEmpty k v) ∨ (∃ v t, p = .construct k v t) ∨ ∃ t, p = .publish k t

/-- The thread has moved a value out of a place, and has not given the slot back. -/
def Point.GivesBack (p : Point T) (k : Nat) : Prop :=
  ∃ v t, p = .destroy k v t ∨ p = .release k v t

/-- Who holds the ticket for a push is the one that puts the value of its place in. -/
theorem Point.putsIn_of_hold {c i : Nat} {p : Point T} {hd : Hold Nat} (h : p.hold c = some hd)
    (hslot : hd.slot = i % c) (hturn : hd.turn = 2 * (i / c)) : p.PutsIn i := by
  cases p with
  | awaitEmpty k v =>
    obtain rfl := Option.some.inj h
    obtain rfl := eq_of_place hslot (Nat.eq_of_mul_eq_mul_left (by decide) hturn)
    exact .inl ⟨v, rfl⟩
  | construct k v t =>
    obtain rfl := Option.some.inj h
    obtain rfl := eq_of_place hslot (Nat.eq_of_mul_eq_mul_left (by decide) hturn)
    exact .inr (.inl ⟨v, t, rfl⟩)
  | publish k t =>
    obtain rfl := Option.some.inj h
    obtain rfl := eq_of_place hslot (Nat.eq_of_mul_eq_mul_left (by decide) hturn)
    exact .inr (.inr ⟨t, rfl⟩)
  -- the tickets of consumers are for odd turns
  | awaitFull k => obtain rfl := Option.some.inj h; dsimp only at hturn; omega
  | move k t => obtain rfl := Option.some.inj h; dsimp only at hturn; omega
  | destroy k v t => obtain rfl := Option.some.inj h; dsimp only at hturn; omega
  | release k v t => obtain rfl := Option.some.inj h; dsimp only at hturn; omega
  | idle => exact absurd h (by simp [Point.hold])
  | emplace v => exact absurd h (by simp [Point.hold])
  | tryEmplace v => exact absurd h (by simp [Point.hold])
  | checkEmpty k v => exact absurd h (by simp [Point.hold])
  | casHead k v => exact absurd h (by simp [Point.hold])
  | reloadHead k v => exact absurd h (by simp [Point.hold])
  | pop => exact absurd h (by simp [Point.hold])
  | tryPop => exact absurd h (by simp [Point.hold])
  | checkFull k => exact absurd h (by simp [Point.hold])
  | casTail k => exact absurd h (by simp [Point.hold])
  | reloadTail k => exact absurd h (by simp [Point.hold])

/-- Who holds the ticket for a pop awaits the value of its place, or has taken it and gives the
slot back. -/
theorem Point.awaits_or_givesBack_of_hold {c i : Nat} {p : Point T} {hd : Hold Nat}
    (h : p.hold c = some hd) (hslot : hd.slot = i % c) (hturn : hd.turn = 2 * (i / c) + 1) :
    p.Awaits i ∨ p.GivesBack i := by
  cases p with
  -- the thread has a ticket for this turn, so its place is the one that is asked for
  | awaitFull k =>
    obtain rfl := Option.some.inj h
    obtain rfl := eq_of_place hslot (by dsimp only at hturn; omega)
    exact .inl (.inl rfl)
  | move k t =>
    obtain rfl := Option.some.inj h
    obtain rfl := eq_of_place hslot (by dsimp only at hturn; omega)
    exact .inl (.inr ⟨t, rfl⟩)
  | destroy k v t =>
    obtain rfl := Option.some.inj h
    obtain rfl := eq_of_place hslot (by dsimp only at hturn; omega)
    exact .inr ⟨v, t, .inl rfl⟩
  | release k v t =>
    obtain rfl := Option.some.inj h
    obtain rfl := eq_of_place hslot (by dsimp only at hturn; omega)
    exact .inr ⟨v, t, .inr rfl⟩
  -- a ticket of a producer is for an even turn
  | awaitEmpty k v => obtain rfl := Option.some.inj h; dsimp only at hturn; omega
  | construct k v t => obtain rfl := Option.some.inj h; dsimp only at hturn; omega
  | publish k t => obtain rfl := Option.some.inj h; dsimp only at hturn; omega
  -- a thread without a ticket holds nothing
  | idle => exact absurd h (by simp [Point.hold])
  | emplace v => exact absurd h (by simp [Point.hold])
  | tryEmplace v => exact absurd h (by simp [Point.hold])
  | checkEmpty k v => exact absurd h (by simp [Point.hold])
  | casHead k v => exact absurd h (by simp [Point.hold])
  | reloadHead k v => exact absurd h (by simp [Point.hold])
  | pop => exact absurd h (by simp [Point.hold])
  | tryPop => exact absurd h (by simp [Point.hold])
  | checkFull k => exact absurd h (by simp [Point.hold])
  | casTail k => exact absurd h (by simp [Point.hold])
  | reloadTail k => exact absurd h (by simp [Point.hold])

namespace Pool

variable {x y z : Pool τ T} {n k : Nat} {a : τ} {v : T} {r : Option (Return T)}

/-- A slot that is still used by a place: the value has not been moved out, or whoever has done so
has not given the slot back. -/
theorem Inv.in_use (h : x.Inv n)
    (hturn : (x.queue.slot k).turn ≤ 2 * (k / x.queue.capacity) + 1) :
    k ∉ x.popped.map Taken.place ∨ ∃ b, (x.point b).GivesBack k := by
  by_cases hk : k ∈ x.popped.map Taken.place
  · obtain ⟨hlt, hnone⟩ := (h.popped_iff k).mp hk
    obtain ⟨b, hd, hb, hslot, hd'⟩ :=
      h.turns.held _ _ ((issued_pop_iff x.queue.capacity_pos).mpr hlt) hturn
    rcases Point.awaits_or_givesBack_of_hold hb hslot hd' with hawaits | hgives
    · exact absurd hawaits (hnone b)
    · exact .inr ⟨b, hgives⟩
  · exact .inl hk

/-- A place whose value is not there: nobody has taken the place, or someone is putting it in. -/
theorem Inv.not_there (h : x.Inv n)
    (hturn : (x.queue.slot k).turn ≤ 2 * (k / x.queue.capacity)) :
    x.queue.head ≤ k ∨ ∃ b, (x.point b).PutsIn k := by
  rcases Nat.lt_or_ge k x.queue.head with hlt | hge
  · obtain ⟨b, hd, hb, hslot, hd'⟩ :=
      h.turns.held _ _ ((issued_push_iff x.queue.capacity_pos).mpr hlt) hturn
    exact .inr ⟨b, Point.putsIn_of_hold hb hslot hd'⟩
  · exact .inl hge

/-- The slot of the next place for a producer, if its turn has not come. -/
theorem Inv.full (h : x.Inv n) (hhead : x.queue.head = k)
    (hne : 2 * (k / x.queue.capacity) ≠ (x.queue.slot k).turn) :
    x.queue.capacity ≤ k ∧ (k - x.queue.capacity ∉ x.popped.map Taken.place ∨
      ∃ b, (x.point b).GivesBack (k - x.queue.capacity)) := by
  have hle : (x.queue.slot k).turn ≤ 2 * (k / x.queue.capacity) := by
    by_contra hlt
    have hissued := (issued_push_iff x.queue.capacity_pos).mp
      (h.turns.passed (k % x.queue.capacity) _ (Nat.lt_of_not_le hlt))
    omega
  have hcap : x.queue.capacity ≤ k := by
    by_contra hlt
    rw [Nat.div_eq_of_lt (Nat.lt_of_not_le hlt)] at hle hne
    omega
  refine ⟨hcap, h.in_use ?_⟩
  -- the place a round before is in the same slot
  have hslot : x.queue.slot (k - x.queue.capacity) = x.queue.slot k := by
    unfold Queue.slot Queue.idx
    rw [← Nat.mod_eq_sub_mod hcap]
  have hdiv : k / x.queue.capacity = (k - x.queue.capacity) / x.queue.capacity + 1 :=
    Nat.div_eq_sub_div x.queue.capacity_pos hcap
  rw [hslot]
  omega

section Runs

variable [DecidableEq τ] {os : List (Action τ T)}

/-- The queue's indices never move back. -/
theorem Inv.queue_le_step (h : x.Inv n) (hn : n < 2 ^ 63) {o : Action τ T}
    (hs : x.step o = some (r, y)) :
    x.queue.head ≤ y.queue.head ∧ x.queue.tail ≤ y.queue.tail := by
  cases o with
  | call a c =>
    simp only [Pool.step] at hs
    split at hs
    · obtain ⟨-, rfl⟩ := Prod.mk.inj (Option.some.inj hs)
      exact ⟨Nat.le_refl _, Nat.le_refl _⟩
    · exact absurd hs (by simp)
  | step a =>
    obtain ⟨q, p, hadv, rfl⟩ := step_inv hs
    have hhead := h.head_le
    have htail := h.tail_le
    obtain ⟨h₁, h₂⟩ := Queue.advance_indices hadv
    -- with so few steps the indices do not wrap
    rw [addW_eq (by omega)] at h₁ h₂
    change x.queue.head ≤ q.head ∧ x.queue.tail ≤ q.tail
    omega

/-- **The indices only grow.** -/
theorem Inv.queue_le {P : Pool τ T → Action τ T → Prop} (h : x.Inv n)
    (hn : n + os.length ≤ 2 ^ 63) (hr : Reaches Pool.step P x os y) :
    x.queue.head ≤ y.queue.head ∧ x.queue.tail ≤ y.queue.tail := by
  induction hr generalizing n with
  | refl x => exact ⟨Nat.le_refl _, Nat.le_refl _⟩
  | @cons x y z o os r _ hs _ ih =>
    rw [List.length_cons] at hn
    obtain ⟨h₁, h₂⟩ := h.queue_le_step (by omega) hs
    obtain ⟨h₃, h₄⟩ := ih (h.step (by omega) hs) (by omega)
    exact ⟨Nat.le_trans h₁ h₃, Nat.le_trans h₂ h₄⟩

/-- A thread in a call stays where it is while the others take steps. -/
theorem point_of_reaches (hr : Reaches Pool.step (fun _ o => o ≠ .step a) x os y)
    (ha : x.point a ≠ .idle) : y.point a = x.point a := by
  -- by induction on the steps of the others, which move other threads only
  induction hr with
  | refl x => rfl
  | @cons x y z o os r ho hs _ ih =>
    have hsame : y.point a = x.point a := by
      cases o with
      | call b c =>
        simp only [Pool.step] at hs
        split at hs
        · -- a thread in a call is not the one that begins one
          next hidle =>
          obtain ⟨-, rfl⟩ := Prod.mk.inj (Option.some.inj hs)
          exact Function.update_of_ne (fun hab => ha (by rw [hab]; exact hidle)) _ _
        · exact absurd hs (by simp)
      | step b =>
        obtain ⟨q, p, -, rfl⟩ := step_inv hs
        exact Function.update_of_ne (fun hab => ho (by rw [hab])) _ _
    rw [← hsame]
    exact ih (by rw [hsame]; exact ha)

/-- A step of a thread, by what it does to the queue and where it leads. -/
theorem advance_of_step (hs : x.step (.step a) = some (r, y)) :
    x.queue.advance (x.point a) = some (r, y.queue, y.point a) := by
  obtain ⟨q, p, hadv, rfl⟩ := step_inv hs
  change _ = some (r, q, Function.update x.point a p a)
  rw [hadv, Function.update_self]

/-- A `try_emplace` that looked at a slot and then answered false: it had found another turn, and
the index is where it was. -/
theorem refusal_push {x' : Pool τ T} (ha : x.point a = .checkEmpty k v)
    (hfirst : x.step (.step a) = some (r, x'))
    (hmid : Reaches Pool.step (fun _ o => o ≠ .step a) x' os y)
    (hlast : y.step (.step a) = some (some (.tryEmplaced false), z)) :
    mulW (x.queue.turn k) 2 ≠ (x.queue.slot k).turn ∧ x'.queue = x.queue ∧ y.queue.head = k := by
  have hadv := advance_of_step hfirst
  have hadv' := advance_of_step hlast
  rw [ha] at hadv
  simp only [Queue.advance] at hadv
  split at hadv
  · simp only [Option.some.injEq, Prod.mk.injEq] at hadv
    obtain ⟨-, -, hpoint⟩ := hadv
    -- the next step is the exchange, which does not return
    rw [point_of_reaches hmid (by rw [← hpoint]; simp), ← hpoint] at hadv'
    simp only [Queue.advance] at hadv'
    split at hadv' <;> exact absurd hadv' (by simp)
  · next hne =>
    simp only [Option.some.injEq, Prod.mk.injEq] at hadv
    obtain ⟨-, hqueue, hpoint⟩ := hadv
    rw [point_of_reaches hmid (by rw [← hpoint]; simp), ← hpoint] at hadv'
    simp only [Queue.advance] at hadv'
    split at hadv'
    · next heq => exact ⟨hne, hqueue.symm, heq⟩
    · exact absurd hadv' (by simp)

/-- A `try_pop` that looked at a slot and then answered false. -/
theorem refusal_pop {x' : Pool τ T} (ha : x.point a = .checkFull k)
    (hfirst : x.step (.step a) = some (r, x'))
    (hmid : Reaches Pool.step (fun _ o => o ≠ .step a) x' os y)
    (hlast : y.step (.step a) = some (some (.tryPopped none), z)) :
    addW (mulW (x.queue.turn k) 2) 1 ≠ (x.queue.slot k).turn ∧ x'.queue = x.queue ∧
      y.queue.tail = k := by
  have hadv := advance_of_step hfirst
  have hadv' := advance_of_step hlast
  rw [ha] at hadv
  simp only [Queue.advance] at hadv
  split at hadv
  · -- the slot was full: then the thread goes on to the exchange, and is not refused by its next
    -- step
    simp only [Option.some.injEq, Prod.mk.injEq] at hadv
    obtain ⟨-, -, hpoint⟩ := hadv
    rw [point_of_reaches hmid (by rw [← hpoint]; simp), ← hpoint] at hadv'
    simp only [Queue.advance] at hadv'
    split at hadv' <;> exact absurd hadv' (by simp)
  · -- the slot was not full, and the tail is where it was
    next hne =>
    simp only [Option.some.injEq, Prod.mk.injEq] at hadv
    obtain ⟨-, hqueue, hpoint⟩ := hadv
    rw [point_of_reaches hmid (by rw [← hpoint]; simp), ← hpoint] at hadv'
    simp only [Queue.advance] at hadv'
    split at hadv'
    · next heq => exact ⟨hne, hqueue.symm, heq⟩
    · exact absurd hadv' (by simp)

end Runs

end Pool

/-- **Refusals.** In a run of fewer than `2 ^ 63` steps, a thread in `try_emplace` or `try_pop`
looks at the slot of a place, the others take steps, and at its own next step the call answers
false. Then, when it looked, the place was the next one; for `try_emplace`, the slot was still in
use by the place a whole capacity before, and for `try_pop`, nobody had taken the place to put a
value in or someone was still putting it in. -/
theorem mpmc_refusal [DecidableEq τ] {capacity : Nat} {q : Queue T}
    (hq : Queue.create capacity = .ok q) {before mid : List (Action τ T)} {x x' y z : Pool τ T}
    {a : τ} {r : Option (Return T)} (hlen : before.length + mid.length + 1 < 2 ^ 63)
    (hx : Reaches Pool.step (fun _ _ => True) (Pool.start q) before x)
    (hfirst : x.step (.step a) = some (r, x'))
    (hmid : Reaches Pool.step (fun _ o => o ≠ .step a) x' mid y) :
    (∀ k v, x.point a = .checkEmpty k v →
      y.step (.step a) = some (some (.tryEmplaced false), z) →
      x.queue.head = k ∧ x.queue.capacity ≤ k ∧
        (k - x.queue.capacity ∉ x.popped.map Taken.place ∨
          ∃ b, (x.point b).GivesBack (k - x.queue.capacity))) ∧
    (∀ k, x.point a = .checkFull k → y.step (.step a) = some (some (.tryPopped none), z) →
      x.queue.tail = k ∧ (x.queue.head ≤ k ∨ ∃ b, (x.point b).PutsIn k)) := by
  have hinv := (Pool.inv_start hq).reaches (by omega) hx
  rw [Nat.zero_add] at hinv
  have hinv' := hinv.step (by omega) hfirst
  have hfits := hinv.fits a
  obtain ⟨hheads, htails⟩ := hinv'.queue_le (by omega) hmid
  have hhead := hinv.head_le
  have htail := hinv.tail_le
  constructor
  · intro k v ha hlast
    obtain ⟨hne, hsame, hy⟩ := Pool.refusal_push ha hfirst hmid hlast
    rw [ha] at hfits
    change k ≤ x.queue.head at hfits
    rw [hsame, hy] at hheads
    have heq : x.queue.head = k := Nat.le_antisymm hheads hfits
    rw [mulW_turn (by omega)] at hne
    exact ⟨heq, hinv.full heq hne⟩
  · intro k ha hlast
    obtain ⟨hne, hsame, hy⟩ := Pool.refusal_pop ha hfirst hmid hlast
    rw [ha] at hfits
    change k ≤ x.queue.tail at hfits
    rw [hsame, hy] at htails
    have heq : x.queue.tail = k := Nat.le_antisymm htails hfits
    rw [addW_turn (by omega)] at hne
    refine ⟨heq, hinv.not_there ?_⟩
    by_contra hlt
    -- the turn has not passed, as the place is free
    have hissued := mt (hinv.turns.passed (k % x.queue.capacity) (2 * (k / x.queue.capacity) + 1))
      (fun hi => by
        have := (issued_pop_iff x.queue.capacity_pos).mp hi
        omega)
    change ¬ _ < (x.queue.slot k).turn at hissued
    omega

/-- The queue of capacity 1 is full, and the thread has loaded the index. -/
def fillingRun : List (Action Bool Nat) :=
  [[.call true (.emplace 1)], .replicate 4 (.step true),
    [.call false (.tryEmplace 2), .step false]].flatten

/-- The other thread is about to take the value out when the call answers false. -/
theorem mpmc_refusal_full : ∃ (q : Queue Nat) (x x' y z : Pool Bool Nat)
    (r : Option (Return Nat)), Queue.create 1 = .ok q ∧
    Reaches Pool.step (fun _ _ => True) (Pool.start q) fillingRun x ∧
    x.step (.step false) = some (r, x') ∧
    Reaches Pool.step (fun _ o => o ≠ .step false) x' [.call true .pop, .step true] y ∧
    y.step (.step false) = some (some (.tryEmplaced false), z) ∧
    (1 - x.queue.capacity ∉ x.popped.map Taken.place ∨
      ∃ b, (x.point b).GivesBack (1 - x.queue.capacity)) := by
  obtain ⟨q, hq⟩ : ∃ q : Queue Nat, Queue.create 1 = .ok q := ⟨_, rfl⟩
  have hrun : ((follow Pool.step (Pool.start q : Pool Bool Nat) fillingRun).bind fun x =>
      (x.step (.step false)).bind fun w =>
        (follow Pool.step w.2 [.call true .pop, .step true]).bind fun y =>
          (y.step (.step false)).map fun u => (x.point false, u.1)) =
        some (.checkEmpty 1 2, some (.tryEmplaced false)) := by
    obtain rfl := Except.ok.inj hq
    decide +kernel
  obtain ⟨x, hx, hrun⟩ := Option.bind_eq_some_iff.mp hrun
  obtain ⟨⟨r, x'⟩, hfirst, hrun⟩ := Option.bind_eq_some_iff.mp hrun
  obtain ⟨y, hy, hrun⟩ := Option.bind_eq_some_iff.mp hrun
  obtain ⟨⟨r', z⟩, hlast, hobs⟩ := Option.map_eq_some_iff.mp hrun
  obtain ⟨hpoint, rfl⟩ := Prod.mk.inj hobs
  have hr : Reaches Pool.step (fun _ _ => True) (Pool.start q) fillingRun x :=
    .of_follow hx (along_of_forall (fun _ _ => trivial) _)
  have hmid : Reaches Pool.step (fun _ o => o ≠ .step false) x' [.call true .pop, .step true] y :=
    .of_follow hy (along_of_forall (by simp) _)
  exact ⟨q, x, x', y, z, r, hq, hr, hfirst, hmid, hlast,
    ((mpmc_refusal hq (by decide) hr hfirst hmid).1 1 2 hpoint hlast).2.2⟩

end PosixIpc.Mpmc
