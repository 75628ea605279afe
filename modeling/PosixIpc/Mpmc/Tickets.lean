import PosixIpc.Framework.Turns
import PosixIpc.Mpmc.Queue

/-!
# The queue as slots that are used in turns

A place in the queue is a ticket for a turn of a slot, twice: place `k` is in slot `k % capacity`,
and its value is put there in turn `2 * (k / capacity)` and taken out in the turn after that. So the
even turns of a slot are for the producers and the odd ones for the consumers, and the tickets that
have been issued are told by `head_` and `tail_` (`Issued`). At an odd turn the slot contains the
value of its place, and at an even one nothing (`content`).

`Pool.Inv` is the invariant of the pool: that of slots that are used in turns, what a thread knows
where it is (`Fits`), and that the values moved out are those of their places, each moved out once.
It holds as long as the words do not overflow, for which there is a bound on the number of steps.
-/

namespace PosixIpc.Mpmc

open Framework

variable {T τ : Type}

/-! ### Tickets -/

/-- The tickets that have been issued: for an even turn of a slot to a producer, for an odd one to a
consumer. -/
def Issued (capacity head tail : Nat) (j m : Nat) : Prop :=
  j < capacity ∧ m / 2 * capacity + j < if m % 2 = 0 then head else tail

/-- What a slot contains at a turn. -/
def content (capacity : Nat) (pushed : List T) (j m : Nat) : Option T :=
  if m % 2 = 0 then none else pushed[m / 2 * capacity + j]?

section Arithmetic

variable {c k head tail : Nat} {pushed : List T}

theorem two_mul_div_two (r : Nat) : 2 * r / 2 = r := Nat.mul_div_cancel_left r (by decide)

theorem two_mul_succ_div_two (r : Nat) : (2 * r + 1) / 2 = r := by omega

/-- A place is told by its round and its slot. -/
theorem eq_place_iff {r j : Nat} (hj : j < c) : r * c + j = k ↔ r = k / c ∧ j = k % c := by
  constructor
  · rintro rfl
    have hc : 0 < c := Nat.lt_of_le_of_lt (Nat.zero_le j) hj
    constructor
    · rw [Nat.add_comm, Nat.add_mul_div_right _ _ hc, Nat.div_eq_of_lt hj, Nat.zero_add]
    · rw [Nat.add_comm, Nat.add_mul_mod_self_right, Nat.mod_eq_of_lt hj]
  · rintro ⟨rfl, rfl⟩
    rw [Nat.mul_comm]
    exact Nat.div_add_mod k c

theorem place_eq (k c : Nat) : k / c * c + k % c = k := by
  rw [Nat.mul_comm]
  exact Nat.div_add_mod k c

/-- The ticket for a push is issued once the head has passed its place. -/
theorem issued_push_iff (hc : 0 < c) : Issued c head tail (k % c) (2 * (k / c)) ↔ k < head := by
  unfold Issued
  rw [if_pos (Nat.mul_mod_right 2 _), two_mul_div_two, place_eq]
  exact and_iff_right (Nat.mod_lt k hc)

/-- The ticket for a pop is issued once the tail has passed its place. -/
theorem issued_pop_iff (hc : 0 < c) :
    Issued c head tail (k % c) (2 * (k / c) + 1) ↔ k < tail := by
  unfold Issued
  rw [if_neg (by omega), two_mul_succ_div_two, place_eq]
  exact and_iff_right (Nat.mod_lt k hc)

/-- The next place for a producer. -/
theorem issued_succ_head (hc : 0 < c) (j m : Nat) : Issued c (head + 1) tail j m ↔
    Issued c head tail j m ∨ (j = head % c ∧ m = 2 * (head / c)) := by
  constructor
  · rintro ⟨hj, hlt⟩
    -- the new ticket is for an even turn, since a producer takes it
    by_cases hm : m % 2 = 0
    · rw [if_pos hm] at hlt
      rcases Nat.lt_succ_iff_lt_or_eq.mp hlt with hlt | heq
      · exact .inl ⟨hj, by rw [if_pos hm]; exact hlt⟩
      · obtain ⟨hr, hj'⟩ := (eq_place_iff hj).mp heq
        exact .inr ⟨hj', by omega⟩
    · rw [if_neg hm] at hlt
      exact .inl ⟨hj, by rw [if_neg hm]; exact hlt⟩
  · rintro (⟨hj, hlt⟩ | ⟨rfl, rfl⟩)
    · refine ⟨hj, Nat.lt_of_lt_of_le hlt ?_⟩
      split
      · exact Nat.le_succ head
      · exact Nat.le_refl tail
    · exact (issued_push_iff hc).mpr (Nat.lt_succ_self head)

/-- The next place for a consumer. -/
theorem issued_succ_tail (hc : 0 < c) (j m : Nat) : Issued c head (tail + 1) j m ↔
    Issued c head tail j m ∨ (j = tail % c ∧ m = 2 * (tail / c) + 1) := by
  constructor
  · rintro ⟨hj, hlt⟩
    -- the new ticket is for an odd turn, since a consumer takes it
    by_cases hm : m % 2 = 0
    · rw [if_pos hm] at hlt
      exact .inl ⟨hj, by rw [if_pos hm]; exact hlt⟩
    · rw [if_neg hm] at hlt
      rcases Nat.lt_succ_iff_lt_or_eq.mp hlt with hlt | heq
      · exact .inl ⟨hj, by rw [if_neg hm]; exact hlt⟩
      · obtain ⟨hr, hj'⟩ := (eq_place_iff hj).mp heq
        exact .inr ⟨hj', by omega⟩
  · rintro (⟨hj, hlt⟩ | ⟨rfl, rfl⟩)
    · refine ⟨hj, Nat.lt_of_lt_of_le hlt ?_⟩
      split
      · exact Nat.le_refl head
      · exact Nat.le_succ tail
    · exact (issued_pop_iff hc).mpr (Nat.lt_succ_self tail)

@[simp] theorem content_even (j r : Nat) : content c pushed j (2 * r) = none :=
  if_pos (Nat.mul_mod_right 2 r)

@[simp] theorem content_zero (j : Nat) : content c pushed j 0 = none := rfl

/-- At an odd turn a slot holds the value of the place whose push came before. -/
theorem content_pop (k : Nat) : content c pushed (k % c) (2 * (k / c) + 1) = pushed[k]? := by
  unfold content
  rw [if_neg (by omega), two_mul_succ_div_two, place_eq]

/-- One more place does not change what is left by the turns before. -/
theorem content_append (hhead : head = pushed.length) (v : T) {j m : Nat}
    (hi : Issued c head tail j m) :
    content c (pushed ++ [v]) j (m + 1) = content c pushed j (m + 1) := by
  unfold content
  by_cases hm : (m + 1) % 2 = 0
  · rw [if_pos hm, if_pos hm]
  · have hlt := hi.2
    -- only values are looked up, and theirs is a place behind the head
    rw [if_pos (by omega)] at hlt
    rw [if_neg hm, if_neg hm, show (m + 1) / 2 = m / 2 by omega]
    exact List.getElem?_append_left (by rw [← hhead]; exact hlt)

end Arithmetic

/-! ### The threads -/

/-- The ticket of a thread. -/
def Point.hold (capacity : Nat) : Point T → Option (Hold Nat)
  | .awaitEmpty k _ | .construct k _ _ => some ⟨k % capacity, 2 * (k / capacity), false⟩
  | .publish k _ => some ⟨k % capacity, 2 * (k / capacity), true⟩
  | .awaitFull k | .move k _ | .destroy k _ _ =>
    some ⟨k % capacity, 2 * (k / capacity) + 1, false⟩
  | .release k _ _ => some ⟨k % capacity, 2 * (k / capacity) + 1, true⟩
  | _ => none

/-- The slot a thread works on, its turn having come. -/
def Point.worksOn (capacity : Nat) : Point T → Option Nat
  | .construct k _ _ | .publish k _ | .move k _ | .destroy k _ _ | .release k _ _ =>
    some (k % capacity)
  | _ => none

/-- The thread has a place to take a value out of, and has not done so. -/
def Point.Awaits (p : Point T) (k : Nat) : Prop := p = .awaitFull k ∨ ∃ tries, p = .move k tries

/-- What a thread knows. -/
def Fits (q : Queue T) (pushed : List T) : Point T → Prop
  | .awaitEmpty k v => pushed[k]? = some v
  | .construct k v _ => pushed[k]? = some v ∧ (q.slot k).turn = 2 * (k / q.capacity)
  | .checkEmpty k _ | .reloadHead k _ => k ≤ q.head
  | .casHead k _ => k ≤ q.head ∧ 2 * (k / q.capacity) ≤ (q.slot k).turn
  | .move k _ => (q.slot k).turn = 2 * (k / q.capacity) + 1
  | .destroy k v _ => pushed[k]? = some v ∧ (q.slot k).turn = 2 * (k / q.capacity) + 1
  | .release k v _ => pushed[k]? = some v
  | .checkFull k | .reloadTail k => k ≤ q.tail
  | .casTail k => k ≤ q.tail ∧ 2 * (k / q.capacity) + 1 ≤ (q.slot k).turn
  | _ => True

/-- What a thread knows stays true as the queue moves on, if its own turn does not pass. -/
theorem Fits.mono {q q' : Queue T} {pushed pushed' : List T} {p : Point T}
    (h : Fits q pushed p) (hcap : q'.capacity = q.capacity) (hhead : q.head ≤ q'.head)
    (htail : q.tail ≤ q'.tail)
    (hpushed : ∀ (k : Nat) (v : T), pushed[k]? = some v → pushed'[k]? = some v)
    (hturn : ∀ j, (q.slots j).turn ≤ (q'.slots j).turn)
    (hown : ∀ h, p.hold q.capacity = some h → (q.slots h.slot).turn = h.turn →
      (q'.slots h.slot).turn = h.turn) : Fits q' pushed' p := by
  have hslot : ∀ k, q'.slot k = q'.slots (k % q.capacity) := by
    intro k
    unfold Queue.slot Queue.idx
    rw [hcap]
  -- by the point the thread is at; only holders of a ticket know of a turn, and it is theirs
  cases p with
  | awaitEmpty k v => exact hpushed k v h
  | construct k v tries =>
    refine ⟨hpushed k v h.1, ?_⟩
    rw [hslot, hcap]
    exact hown _ rfl h.2
  | checkEmpty k v => exact Nat.le_trans h hhead
  | reloadHead k v => exact Nat.le_trans h hhead
  | casHead k v =>
    refine ⟨Nat.le_trans h.1 hhead, ?_⟩
    rw [hslot, hcap]
    exact Nat.le_trans h.2 (hturn _)
  | move k tries =>
    change (q'.slot k).turn = _
    rw [hslot, hcap]
    exact hown _ rfl h
  | destroy k v tries =>
    refine ⟨hpushed k v h.1, ?_⟩
    rw [hslot, hcap]
    exact hown _ rfl h.2
  | release k v tries => exact hpushed k v h
  | checkFull k => exact Nat.le_trans h htail
  | reloadTail k => exact Nat.le_trans h htail
  | casTail k =>
    refine ⟨Nat.le_trans h.1 htail, ?_⟩
    rw [hslot, hcap]
    exact Nat.le_trans h.2 (hturn _)
  | idle => exact trivial
  | emplace v => exact trivial
  | publish k tries => exact trivial
  | tryEmplace v => exact trivial
  | pop => exact trivial
  | awaitFull k => exact trivial
  | tryPop => exact trivial

namespace Pool

/-- The slots and the tickets. -/
def turns (x : Pool τ T) : Turns Nat τ (Option T) where
  turn j := (x.queue.slots j).turn
  value j := (x.queue.slots j).storage
  hold a := (x.point a).hold x.queue.capacity

/-- After `n` steps. -/
structure Inv (x : Pool τ T) (n : Nat) : Prop where
  head_eq : x.queue.head = x.pushed.length
  head_le : x.queue.head ≤ n
  tail_le : x.queue.tail ≤ n
  turns : Turns.Inv (Issued x.queue.capacity x.queue.head x.queue.tail)
    (content x.queue.capacity x.pushed) x.turns
  fits : ∀ a, Fits x.queue x.pushed (x.point a)
  popped_eq : ∀ e ∈ x.popped, x.pushed[e.place]? = some e.value
  popped_iff : ∀ k, k ∈ x.popped.map Taken.place ↔
    k < x.queue.tail ∧ ∀ a, ¬ (x.point a).Awaits k
  popped_nodup : (x.popped.map Taken.place).Nodup
  /-- A consumer awaits a place behind those it was at before. -/
  popped_lt : ∀ a k, (x.point a).Awaits k → ∀ e ∈ x.popped, e.thread = a → e.place < k
  popped_order : x.popped.Pairwise fun e e' => e.thread = e'.thread → e.place < e'.place

/-- A new pool: no ticket is issued and all slots are empty. -/
theorem inv_start {capacity : Nat} {q : Queue T} (hq : Queue.create capacity = .ok q) :
    (start q : Pool τ T).Inv 0 := by
  unfold Queue.create at hq
  split at hq
  · exact absurd hq (by simp)
  · obtain rfl := Except.ok.inj hq
    refine ⟨rfl, Nat.le_refl 0, Nat.le_refl 0, ?_, fun a => trivial, by simp [start], ?_,
      List.nodup_nil, by simp [start], List.Pairwise.nil⟩
    · -- no ticket is out and no turn has passed
      constructor
      case unique => intro a b h h' ha; exact absurd ha (by simp [turns, start, Point.hold])
      case valid => intro a h ha; exact absurd ha (by simp [turns, start, Point.hold])
      case due => intro a h ha; exact absurd ha (by simp [turns, start, Point.hold])
      case held =>
        rintro j m ⟨-, hlt⟩
        exact absurd hlt (by simp [start])
      case passed => intro j m hlt; exact absurd hlt (Nat.not_lt_zero m)
      case inTurn => intro a h ha; exact absurd ha (by simp [turns, start, Point.hold])
      case value => intro j _; rfl
    · intro k
      simp [start]

/-! ### Steps -/

section Steps

variable [DecidableEq τ] {x : Pool τ T} {n k m : Nat} {a : τ} {p : Point T} {v : T}

/-- A thread that awaits a place holds the ticket for its pop. -/
theorem hold_of_awaits {c : Nat} (h : p.Awaits k) :
    p.hold c = some ⟨k % c, 2 * (k / c) + 1, false⟩ := by
  rcases h with rfl | ⟨tries, rfl⟩
  · rfl
  · rfl

/-- A thread without a ticket awaits nothing. -/
theorem not_awaits_of_none {c : Nat} (h : p.hold c = none) (i : Nat) : ¬ p.Awaits i := by
  intro hi
  rw [hold_of_awaits hi] at h
  exact absurd h (by simp)

/-- A thread that has done its work awaits nothing. -/
theorem not_awaits_of_worked {c j : Nat} (h : p.hold c = some ⟨j, m, true⟩) (i : Nat) :
    ¬ p.Awaits i := by
  intro hi
  rw [hold_of_awaits hi] at h
  exact absurd (congrArg Hold.worked (Option.some.inj h)) (by simp)

/-- A producer awaits nothing. -/
theorem not_awaits_of_even {c j r : Nat} (h : p.hold c = some ⟨j, 2 * r, false⟩) (i : Nat) :
    ¬ p.Awaits i := by
  intro hi
  rw [hold_of_awaits hi] at h
  have hturn : 2 * (i / c) + 1 = 2 * r := congrArg Hold.turn (Option.some.inj h)
  omega

/-- The tickets, when one thread moves to another point. -/
theorem hold_update (x : Pool τ T) (a : τ) (p : Point T) (c : Nat) :
    (fun b => (Function.update x.point a p b).hold c) =
      Function.update (fun b => (x.point b).hold c) a (p.hold c) := by
  ext1 b
  by_cases hb : b = a
  · subst hb
    rw [Function.update_self, Function.update_self]
  · rw [Function.update_of_ne hb, Function.update_of_ne hb]

/-- What the other threads know, and what this one does. -/
theorem fits_update {q : Queue T} {pushed : List T} (hp : Fits q pushed p)
    (hothers : ∀ b, b ≠ a → Fits q pushed (x.point b)) (b : τ) :
    Fits q pushed (Function.update x.point a p b) := by
  by_cases hb : b = a
  · subst hb
    rw [Function.update_self]
    exact hp
  · rw [Function.update_of_ne hb]
    exact hothers b hb

/-- Who awaits a place, if nothing changes for this thread. -/
theorem awaits_update (h : ∀ i, p.Awaits i ↔ (x.point a).Awaits i) (i : Nat) :
    (∀ b, ¬ (Function.update x.point a p b).Awaits i) ↔ ∀ b, ¬ (x.point b).Awaits i := by
  refine forall_congr' fun b => not_congr ?_
  by_cases hb : b = a
  · subst hb
    rw [Function.update_self]
    exact h i
  · rw [Function.update_of_ne hb]

/-- A step that changes nothing about who awaits what keeps the order in which places are taken.
-/
theorem Inv.popped_lt_update (h : x.Inv n) (hawaits : ∀ i, p.Awaits i ↔ (x.point a).Awaits i)
    (b : τ) (i : Nat) (hb : (Function.update x.point a p b).Awaits i) :
    ∀ e ∈ x.popped, e.thread = b → e.place < i := by
  by_cases hba : b = a
  · subst hba
    rw [Function.update_self, hawaits] at hb
    exact h.popped_lt b i hb
  · rw [Function.update_of_ne hba] at hb
    exact h.popped_lt b i hb

/-- **Going on**, without a change to the queue. -/
theorem Inv.goto (h : x.Inv n)
    (hhold : p.hold x.queue.capacity = (x.point a).hold x.queue.capacity)
    (hawaits : ∀ i, p.Awaits i ↔ (x.point a).Awaits i) (hp : Fits x.queue x.pushed p) :
    Inv { x with point := Function.update x.point a p } (n + 1) := by
  have hturns : Pool.turns { x with point := Function.update x.point a p } = x.turns := by
    unfold Pool.turns
    simp only [hold_update, hhold, Function.update_eq_self]
  refine ⟨h.head_eq, Nat.le_succ_of_le h.head_le, Nat.le_succ_of_le h.tail_le, ?_,
    fits_update hp fun b _ => h.fits b, h.popped_eq, fun i => ?_, h.popped_nodup,
    h.popped_lt_update hawaits, h.popped_order⟩
  · rw [hturns]
    exact h.turns
  · rw [awaits_update hawaits]
    exact h.popped_iff i

/-- **A producer takes the next place.** -/
theorem Inv.reserve (h : x.Inv n) (hnone : (x.point a).hold x.queue.capacity = none)
    (hhold : p.hold x.queue.capacity =
      some ⟨x.queue.head % x.queue.capacity, 2 * (x.queue.head / x.queue.capacity), false⟩)
    (hp : Fits { x.queue with head := x.queue.head + 1 } (x.pushed ++ [v]) p) :
    Inv ⟨{ x.queue with head := x.queue.head + 1 }, Function.update x.point a p, x.pushed ++ [v],
      x.popped⟩ (n + 1) := by
  -- the values that were pushed keep their places
  have hpushed : ∀ (i : Nat) (u : T), x.pushed[i]? = some u → (x.pushed ++ [v])[i]? = some u := by
    intro i u hi
    rw [List.getElem?_append_left (List.getElem?_eq_some_iff.mp hi).1]
    exact hi
  -- a producer awaits nothing, before or after
  have hawaits : ∀ i, p.Awaits i ↔ (x.point a).Awaits i := fun i =>
    iff_of_false (not_awaits_of_even hhold i) (not_awaits_of_none hnone i)
  refine ⟨?_, Nat.succ_le_succ h.head_le, Nat.le_succ_of_le h.tail_le, ?_, fits_update hp ?_,
    fun i hi => hpushed _ _ (h.popped_eq i hi), fun i => ?_, h.popped_nodup,
    h.popped_lt_update hawaits, h.popped_order⟩
  · rw [List.length_append, ← h.head_eq]
    rfl
  · -- the ticket that is issued is the next place's
    have hissue : Turns.Inv _ (content x.queue.capacity (x.pushed ++ [v])) _ :=
      h.turns.issue (a := a) hnone
      (fun hi => Nat.lt_irrefl _ ((issued_push_iff x.queue.capacity_pos).mp hi))
      (issued_succ_head x.queue.capacity_pos) (fun j => rfl)
      (fun j m hi => content_append h.head_eq v hi)
    rw [← hhold] at hissue
    unfold Pool.turns
    simp only [hold_update]
    exact hissue
  · -- the other threads know of the head only that it does not move back
    intro b _
    exact (h.fits b).mono rfl (Nat.le_succ _) (Nat.le_refl _) hpushed (fun j => Nat.le_refl _)
      fun _ _ hturn => hturn
  · rw [awaits_update hawaits]
    exact h.popped_iff i

/-- **A consumer takes the next place.** -/
theorem Inv.reserveTail (h : x.Inv n) (hnone : (x.point a).hold x.queue.capacity = none)
    (hawaits : ∀ i, p.Awaits i ↔ i = x.queue.tail)
    (hp : Fits { x.queue with tail := x.queue.tail + 1 } x.pushed p) :
    Inv ⟨{ x.queue with tail := x.queue.tail + 1 }, Function.update x.point a p, x.pushed,
      x.popped⟩ (n + 1) := by
  refine ⟨h.head_eq, Nat.le_succ_of_le h.head_le, Nat.succ_le_succ h.tail_le, ?_,
    fits_update hp ?_, h.popped_eq, fun i => ?_, h.popped_nodup, fun b i hb e he hthread => ?_,
    h.popped_order⟩
  · have hissue := h.turns.issue (a := a) hnone
      (fun hi => Nat.lt_irrefl _ ((issued_pop_iff x.queue.capacity_pos).mp hi))
      (issued_succ_tail x.queue.capacity_pos) (fun j => rfl) (fun j m _ => rfl)
    rw [← hold_of_awaits ((hawaits _).mpr rfl)] at hissue
    unfold Pool.turns
    simp only [hold_update]
    exact hissue
  · intro b _
    exact (h.fits b).mono rfl (Nat.le_refl _) (Nat.le_succ _) (fun _ _ hi => hi)
      (fun j => Nat.le_refl _) fun _ _ hturn => hturn
  · have hold : ∀ i, ¬ (x.point a).Awaits i := not_awaits_of_none hnone
    rw [h.popped_iff i]
    constructor
    · rintro ⟨hlt, hothers⟩
      refine ⟨Nat.lt_succ_of_lt hlt, fun b => ?_⟩
      by_cases hb : b = a
      · subst hb
        change ¬ (Function.update x.point b p b).Awaits i
        rw [Function.update_self, hawaits]
        exact Nat.ne_of_lt hlt
      · change ¬ (Function.update x.point a p b).Awaits i
        rw [Function.update_of_ne hb]
        exact hothers b
    · rintro ⟨hlt, hall⟩
      -- the new place is awaited
      have hne : i ≠ x.queue.tail := by
        have ha := hall a
        change ¬ (Function.update x.point a p a).Awaits i at ha
        rw [Function.update_self, hawaits] at ha
        exact ha
      refine ⟨Nat.lt_of_le_of_ne (Nat.lt_succ_iff.mp hlt) hne, fun b => ?_⟩
      by_cases hb : b = a
      · subst hb
        exact hold i
      · have hb' := hall b
        change ¬ (Function.update x.point a p b).Awaits i at hb'
        rw [Function.update_of_ne hb] at hb'
        exact hb'
  · by_cases hba : b = a
    · subst hba
      change (Function.update x.point b p b).Awaits i at hb
      rw [Function.update_self, hawaits] at hb
      rw [hb]
      exact ((h.popped_iff e.place).mp (List.mem_map_of_mem he)).1
    · change (Function.update x.point a p b).Awaits i at hb
      rw [Function.update_of_ne hba] at hb
      exact h.popped_lt b i hb e he hthread

/-- **A thread works on its slot**, in its turn. -/
theorem Inv.work (h : x.Inv n)
    (ha : (x.point a).hold x.queue.capacity = some ⟨k % x.queue.capacity, m, false⟩)
    (hm : (x.queue.slot k).turn = m)
    (hhold : p.hold x.queue.capacity = some ⟨k % x.queue.capacity, m, true⟩)
    (hawaits : ∀ i, ¬ (x.point a).Awaits i) (hp : ∀ q, Fits q x.pushed p) :
    Inv ⟨x.queue.setStorage k (content x.queue.capacity x.pushed (k % x.queue.capacity) (m + 1)),
      Function.update x.point a p, x.pushed, x.popped⟩ (n + 1) := by
  generalize hs : content x.queue.capacity x.pushed (k % x.queue.capacity) (m + 1) = s
  -- storing a value passes no turn
  have hturn : ∀ j, ((x.queue.setStorage k s).slots j).turn = (x.queue.slots j).turn := by
    intro j
    by_cases hj : j = x.queue.idx k
    · subst hj
      simp [Queue.setStorage, Queue.slot]
    · simp [Queue.setStorage, hj]
  -- and it changes one slot
  have hvalue : (fun j => ((x.queue.setStorage k s).slots j).storage) =
      Function.update (fun j => (x.queue.slots j).storage) (x.queue.idx k) s := by
    ext1 j
    by_cases hj : j = x.queue.idx k
    · subst hj
      simp [Queue.setStorage]
    · simp [Queue.setStorage, hj]
  -- a thread that has done its work awaits nothing, and it awaited nothing before
  have hsame : ∀ i, p.Awaits i ↔ (x.point a).Awaits i := fun i =>
    iff_of_false (not_awaits_of_worked hhold i) (hawaits i)
  refine ⟨h.head_eq, Nat.le_succ_of_le h.head_le, Nat.le_succ_of_le h.tail_le, ?_,
    fits_update (hp _) ?_, h.popped_eq, fun i => ?_, h.popped_nodup, h.popped_lt_update hsame,
    h.popped_order⟩
  · have hwork := h.turns.work (a := a) ha hm
    rw [hs, ← hhold] at hwork
    unfold Pool.turns
    simp only [hturn, hvalue]
    change Turns.Inv _ _ ⟨_, _, fun b => (Function.update x.point a p b).hold x.queue.capacity⟩
    rw [hold_update]
    exact hwork
  · -- the other threads know about turns only, and these have not changed
    intro b _
    refine (h.fits b).mono rfl (Nat.le_refl _) (Nat.le_refl _) (fun _ _ hi => hi)
      (fun j => (hturn j).ge) fun h' _ hturn' => ?_
    rw [hturn]
    exact hturn'
  · rw [awaits_update hsame]
    exact h.popped_iff i

/-- **A thread passes the turn on**, and returns. -/
theorem Inv.finish (h : x.Inv n)
    (ha : (x.point a).hold x.queue.capacity = some ⟨k % x.queue.capacity, m, true⟩) :
    Inv ⟨x.queue.setTurn k (m + 1), Function.update x.point a .idle, x.pushed, x.popped⟩
      (n + 1) := by
  have hm : (x.queue.slot k).turn = m := (h.turns.inTurn a _ ha rfl).1.symm
  have hvalue : ∀ j, ((x.queue.setTurn k (m + 1)).slots j).storage =
      (x.queue.slots j).storage := by
    intro j
    by_cases hj : j = x.queue.idx k
    · subst hj
      simp [Queue.setTurn, Queue.slot]
    · simp [Queue.setTurn, hj]
  have hturn : (fun j => ((x.queue.setTurn k (m + 1)).slots j).turn) =
      Function.update (fun j => (x.queue.slots j).turn) (x.queue.idx k) (m + 1) := by
    ext1 j
    by_cases hj : j = x.queue.idx k
    · subst hj
      simp [Queue.setTurn]
    · simp [Queue.setTurn, hj]
  have hturn' : ∀ j, ((x.queue.setTurn k (m + 1)).slots j).turn =
      if j = x.queue.idx k then m + 1 else (x.queue.slots j).turn := by
    intro j
    rw [congrFun hturn j, Function.update_apply]
  have hsame : ∀ i, Point.Awaits (.idle : Point T) i ↔ (x.point a).Awaits i := fun i =>
    iff_of_false (not_awaits_of_none (c := x.queue.capacity) rfl i) (not_awaits_of_worked ha i)
  refine ⟨h.head_eq, Nat.le_succ_of_le h.head_le, Nat.le_succ_of_le h.tail_le, ?_,
    fits_update trivial ?_, h.popped_eq, fun i => ?_, h.popped_nodup, h.popped_lt_update hsame,
    h.popped_order⟩
  · have hfinish := h.turns.finish (a := a) ha
    unfold Pool.turns
    simp only [hturn, hvalue]
    change Turns.Inv _ _ ⟨_, _, fun b => (Function.update x.point a .idle b).hold x.queue.capacity⟩
    rw [hold_update]
    exact hfinish
  · intro b hb
    refine (h.fits b).mono rfl (Nat.le_refl _) (Nat.le_refl _) (fun _ _ hi => hi) (fun j => ?_)
      fun h' hh' hin => ?_
    · rw [hturn']
      split
      · next hj =>
        subst hj
        change (x.queue.slot k).turn ≤ m + 1
        rw [hm]
        exact Nat.le_succ m
      · exact Nat.le_refl _
    · rw [hturn', if_neg]
      · exact hin
      · -- otherwise it would be the turn of two threads
        intro hslot
        exact hb (h.turns.exclusive hh' ha hslot hin.symm hm.symm)
  · rw [awaits_update hsame]
    exact h.popped_iff i

/-- **A consumer moves the value out.** -/
theorem Inv.take (h : x.Inv n) {tries : Bool} (ha : x.point a = .move k tries)
    (hv : x.pushed[k]? = some v) :
    Inv ⟨x.queue, Function.update x.point a (.destroy k v tries), x.pushed, x.popped ++ [⟨a, k, v⟩]⟩
      (n + 1) := by
  have hawait : (x.point a).Awaits k := .inr ⟨tries, ha⟩
  have hholds := hold_of_awaits (c := x.queue.capacity) hawait
  have hlt : k < x.queue.tail :=
    (issued_pop_iff x.queue.capacity_pos).mp (h.turns.valid a _ hholds)
  have hnot : ∀ i, ¬ Point.Awaits (.destroy k v tries : Point T) i := by
    rintro i (hi | ⟨t, hi⟩)
    · exact absurd hi (by simp)
    · exact absurd hi (by simp)
  -- nobody else awaits this place, and this thread awaits no other one
  have honly : ∀ i, (∀ b, ¬ (Function.update x.point a (.destroy k v tries) b).Awaits i) ↔
      i = k ∨ ∀ b, ¬ (x.point b).Awaits i := by
    intro i
    constructor
    · intro hall
      by_cases hik : i = k
      · exact .inl hik
      · refine .inr fun b hb => ?_
        by_cases hba : b = a
        · subst hba
          rcases hb with hb | ⟨t, hb⟩
          · exact absurd (ha.symm.trans hb) (by simp)
          · exact hik (Point.move.inj (hb.symm.trans ha)).1
        · have hb' := hall b
          rw [Function.update_of_ne hba] at hb'
          exact hb' hb
    · intro hor b
      by_cases hba : b = a
      · subst hba
        rw [Function.update_self]
        exact hnot i
      · rw [Function.update_of_ne hba]
        rcases hor with rfl | hall
        · intro hb
          exact hba (h.turns.unique b a _ _ (hold_of_awaits hb) hholds rfl rfl)
        · exact hall b
  have hnew : k ∉ x.popped.map Taken.place := by
    rw [h.popped_iff]
    exact fun hk => hk.2 a hawait
  refine ⟨h.head_eq, Nat.le_succ_of_le h.head_le, Nat.le_succ_of_le h.tail_le, ?_,
    fits_update ⟨hv, ?_⟩ fun b _ => h.fits b, ?_, fun i => ?_, ?_, ?_, ?_⟩
  · have hturns : Pool.turns ⟨x.queue, Function.update x.point a (.destroy k v tries), x.pushed,
        x.popped ++ [⟨a, k, v⟩]⟩ = x.turns := by
      unfold Pool.turns
      simp only [hold_update]
      rw [show Point.hold x.queue.capacity (.destroy k v tries) =
        (x.point a).hold x.queue.capacity from hholds.symm, Function.update_eq_self]
    rw [hturns]
    exact h.turns
  · have hfits := h.fits a
    rw [ha] at hfits
    exact hfits
  · intro i hi
    rcases List.mem_append.mp hi with hi | hi
    · exact h.popped_eq i hi
    · obtain rfl := List.mem_singleton.mp hi
      exact hv
  · rw [honly, List.map_append, List.mem_append, h.popped_iff i]
    constructor
    · rintro (⟨hi, hall⟩ | hi)
      · exact ⟨hi, .inr hall⟩
      · obtain rfl := List.mem_singleton.mp hi
        exact ⟨hlt, .inl rfl⟩
    · rintro ⟨hi, rfl | hall⟩
      · exact .inr (List.mem_singleton.mpr rfl)
      · exact .inl ⟨hi, hall⟩
  · rw [List.map_append, List.nodup_append]
    refine ⟨h.popped_nodup, by simp, ?_⟩
    intro i hi i' hi' heq
    obtain rfl := List.mem_singleton.mp hi'
    subst heq
    exact hnew hi
  · intro b i hb e he hthread
    change (Function.update x.point a (.destroy k v tries) b).Awaits i at hb
    by_cases hba : b = a
    · subst hba
      rw [Function.update_self] at hb
      exact absurd hb (hnot i)
    · rw [Function.update_of_ne hba] at hb
      rcases List.mem_append.mp he with he | he
      · exact h.popped_lt b i hb e he hthread
      · obtain rfl := List.mem_singleton.mp he
        exact absurd hthread.symm hba
  · rw [List.pairwise_append]
    refine ⟨h.popped_order, List.pairwise_singleton _ _, fun e he e' he' hthread => ?_⟩
    obtain rfl := List.mem_singleton.mp he'
    exact h.popped_lt a k hawait e he hthread

end Steps

end Pool

end PosixIpc.Mpmc
