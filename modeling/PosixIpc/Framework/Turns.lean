import Mathlib.Logic.Function.Basic

/-!
# Slots that are used in turns

Every slot has a counter of turns. A thread obtains a ticket for one turn of a slot, waits until the
counter has come to its turn, works on the slot, and moves the counter on. A ticket is issued once.

`Turns.Inv` is what holds whatever the order of these steps. Its parameters are which tickets have
been issued, and what a slot is to contain at each of its turns. The tickets that are held are the
ones that are issued and whose turn has not passed; and a slot contains what it should at the turn
it has come to or, once the thread whose turn it is has worked, what it should at the next one.

The three steps have a rule each: `Inv.issue`, `Inv.work` and `Inv.finish`. A thread whose turn has
come finds what the one before it has left (`Inv.value_of_turn`), and is alone with the slot
(`Inv.exclusive`).
-/

namespace Framework

variable {J τ V : Type}

/-- A ticket that is held: for which turn of which slot, and whether the work is done. -/
structure Hold (J : Type) where
  slot : J
  turn : Nat
  worked : Bool

/-- The slots, and the tickets of the threads. -/
structure Turns (J τ V : Type) where
  turn : J → Nat
  value : J → V
  hold : τ → Option (Hold J)

namespace Turns

structure Inv (issued : J → Nat → Prop) (content : J → Nat → V) (x : Turns J τ V) : Prop where
  /-- No ticket is held twice. -/
  unique : ∀ a b h h', x.hold a = some h → x.hold b = some h' → h.slot = h'.slot →
    h.turn = h'.turn → a = b
  valid : ∀ a h, x.hold a = some h → issued h.slot h.turn
  /-- The turn of a ticket that is held has not passed. -/
  due : ∀ a h, x.hold a = some h → x.turn h.slot ≤ h.turn
  /-- A ticket whose turn has not passed is held. -/
  held : ∀ j m, issued j m → x.turn j ≤ m → ∃ a h, x.hold a = some h ∧ h.slot = j ∧ h.turn = m
  passed : ∀ j m, m < x.turn j → issued j m
  inTurn : ∀ a h, x.hold a = some h → h.worked = true →
    h.turn = x.turn h.slot ∧ x.value h.slot = content h.slot (h.turn + 1)
  value : ∀ j, (∀ a h, x.hold a = some h → h.slot = j → h.worked = false) →
    x.value j = content j (x.turn j)

variable {issued issued' : J → Nat → Prop} {content content' : J → Nat → V} {x : Turns J τ V}
  {a b : τ} {j : J} {m : Nat}

/-- A thread whose turn has come, and that has not worked yet, finds what the turn before has left.
-/
theorem Inv.value_of_turn (h : Inv issued content x) (ha : x.hold a = some ⟨j, m, false⟩)
    (hm : x.turn j = m) : x.value j = content j m := by
  rw [← hm]
  refine h.value j fun b h' hb hslot => ?_
  by_contra hworked
  -- whoever has worked on the slot has this very ticket
  obtain ⟨hturn, -⟩ := h.inTurn b h' hb (by simpa using hworked)
  have hab : a = b := by
    refine h.unique a b _ h' ha hb hslot.symm ?_
    rw [hturn, hslot, hm]
  subst hab
  obtain rfl := Option.some.inj (ha.symm.trans hb)
  exact hworked rfl

/-- **Exclusion.** Two threads whose turn has come on the same slot are one. -/
theorem Inv.exclusive (h : Inv issued content x) {h₁ h₂ : Hold J} (ha : x.hold a = some h₁)
    (hb : x.hold b = some h₂) (hslot : h₁.slot = h₂.slot) (h₁turn : h₁.turn = x.turn h₁.slot)
    (h₂turn : h₂.turn = x.turn h₂.slot) : a = b :=
  h.unique a b h₁ h₂ ha hb hslot (by rw [h₁turn, h₂turn, hslot])

/-- What is to be found in a slot is not changed by what is to be left there later. -/
theorem Inv.content_eq (h : Inv issued content x) (hzero : ∀ j, content' j 0 = content j 0)
    (hcontent : ∀ j m, issued j m → content' j (m + 1) = content j (m + 1)) (j : J) :
    content' j (x.turn j) = content j (x.turn j) := by
  cases hturn : x.turn j with
  | zero => exact hzero j
  | succ m => exact hcontent j m (h.passed j m (by rw [hturn]; exact Nat.lt_succ_self m))

section Steps

variable [DecidableEq τ]

/-- **A ticket is issued** to a thread that holds none. -/
theorem Inv.issue (h : Inv issued content x) (ha : x.hold a = none) (hnew : ¬ issued j m)
    (hissued : ∀ j' m', issued' j' m' ↔ issued j' m' ∨ (j' = j ∧ m' = m))
    (hzero : ∀ j, content' j 0 = content j 0)
    (hcontent : ∀ j m, issued j m → content' j (m + 1) = content j (m + 1)) :
    Inv issued' content' { x with hold := Function.update x.hold a (some ⟨j, m, false⟩) } := by
  have hdue : x.turn j ≤ m := by
    by_contra hlt
    exact hnew (h.passed j m (Nat.lt_of_not_le hlt))
  -- who holds what afterwards
  have hhold : ∀ b h', Function.update x.hold a (some ⟨j, m, false⟩) b = some h' →
      (b = a ∧ h' = ⟨j, m, false⟩) ∨ (b ≠ a ∧ x.hold b = some h') := by
    intro b h' hb
    by_cases hba : b = a
    · subst hba
      rw [Function.update_self] at hb
      exact .inl ⟨rfl, (Option.some.inj hb).symm⟩
    · rw [Function.update_of_ne hba] at hb
      exact .inr ⟨hba, hb⟩
  constructor
  case unique =>
    intro b c h₁ h₂ hb hc hslot hturn
    rcases hhold b h₁ hb with ⟨rfl, rfl⟩ | ⟨-, hb⟩
    · rcases hhold c h₂ hc with ⟨rfl, -⟩ | ⟨-, hc⟩
      · rfl
      · -- the other ticket was issued before
        have hold := h.valid c h₂ hc
        rw [← hslot, ← hturn] at hold
        exact absurd hold hnew
    · rcases hhold c h₂ hc with ⟨-, rfl⟩ | ⟨-, hc⟩
      · have hold := h.valid b h₁ hb
        rw [hslot, hturn] at hold
        exact absurd hold hnew
      · exact h.unique b c h₁ h₂ hb hc hslot hturn
  case valid =>
    intro b h' hb
    rcases hhold b h' hb with ⟨-, rfl⟩ | ⟨-, hb⟩
    · exact (hissued _ _).mpr (.inr ⟨rfl, rfl⟩)
    · exact (hissued _ _).mpr (.inl (h.valid b h' hb))
  case due =>
    intro b h' hb
    rcases hhold b h' hb with ⟨-, rfl⟩ | ⟨-, hb⟩
    · exact hdue
    · exact h.due b h' hb
  case held =>
    intro j' m' hi hle
    rcases (hissued j' m').mp hi with hi | ⟨rfl, rfl⟩
    · obtain ⟨b, h', hb, hslot, hturn⟩ := h.held j' m' hi hle
      have hba : b ≠ a := by
        rintro rfl
        exact absurd (hb.symm.trans ha) (by simp)
      refine ⟨b, h', ?_, hslot, hturn⟩
      change Function.update x.hold a _ b = some h'
      rw [Function.update_of_ne hba]
      exact hb
    · exact ⟨a, ⟨j', m', false⟩, Function.update_self .., rfl, rfl⟩
  case passed =>
    intro j' m' hlt
    exact (hissued _ _).mpr (.inl (h.passed j' m' hlt))
  case inTurn =>
    intro b h' hb hworked
    rcases hhold b h' hb with ⟨-, rfl⟩ | ⟨-, hb⟩
    · exact absurd hworked (by simp)
    · obtain ⟨hturn, hvalue⟩ := h.inTurn b h' hb hworked
      refine ⟨hturn, ?_⟩
      rw [hcontent _ _ (h.valid b h' hb)]
      exact hvalue
  case value =>
    intro j' hnone
    change x.value j' = content' j' (x.turn j')
    rw [h.content_eq hzero hcontent]
    refine h.value j' fun b h' hb hslot => hnone b h' ?_ hslot
    have hba : b ≠ a := by
      rintro rfl
      exact absurd (hb.symm.trans ha) (by simp)
    change Function.update x.hold a _ b = some h'
    rw [Function.update_of_ne hba]
    exact hb

variable [DecidableEq J]

/-- **A thread works** on the slot in its turn. -/
theorem Inv.work (h : Inv issued content x) (ha : x.hold a = some ⟨j, m, false⟩)
    (hm : x.turn j = m) :
    Inv issued content { x with
      value := Function.update x.value j (content j (m + 1))
      hold := Function.update x.hold a (some ⟨j, m, true⟩) } := by
  -- the ticket is the same as before
  have hhold : ∀ b h', Function.update x.hold a (some ⟨j, m, true⟩) b = some h' →
      ∃ h₀, x.hold b = some h₀ ∧ h₀.slot = h'.slot ∧ h₀.turn = h'.turn ∧
        ((b = a ∧ h' = ⟨j, m, true⟩) ∨ (b ≠ a ∧ h₀ = h')) := by
    intro b h' hb
    by_cases hba : b = a
    · subst hba
      rw [Function.update_self] at hb
      obtain rfl := Option.some.inj hb
      exact ⟨_, ha, rfl, rfl, .inl ⟨rfl, rfl⟩⟩
    · rw [Function.update_of_ne hba] at hb
      exact ⟨h', hb, rfl, rfl, .inr ⟨hba, rfl⟩⟩
  constructor
  case unique =>
    intro b c h₁ h₂ hb hc hslot hturn
    obtain ⟨h₁', hb', hs₁, ht₁, -⟩ := hhold b h₁ hb
    obtain ⟨h₂', hc', hs₂, ht₂, -⟩ := hhold c h₂ hc
    exact h.unique b c h₁' h₂' hb' hc' (by rw [hs₁, hs₂, hslot]) (by rw [ht₁, ht₂, hturn])
  case valid =>
    intro b h' hb
    obtain ⟨h₀, hb', hs, ht, -⟩ := hhold b h' hb
    rw [← hs, ← ht]
    exact h.valid b h₀ hb'
  case due =>
    intro b h' hb
    obtain ⟨h₀, hb', hs, ht, -⟩ := hhold b h' hb
    rw [← hs, ← ht]
    exact h.due b h₀ hb'
  case held =>
    intro j' m' hi hle
    obtain ⟨b, h', hb, hslot, hturn⟩ := h.held j' m' hi hle
    by_cases hba : b = a
    · subst hba
      obtain rfl := Option.some.inj (ha.symm.trans hb)
      exact ⟨b, ⟨j, m, true⟩, Function.update_self .., hslot, hturn⟩
    · refine ⟨b, h', ?_, hslot, hturn⟩
      change Function.update x.hold a _ b = some h'
      rw [Function.update_of_ne hba]
      exact hb
  case passed => exact h.passed
  case inTurn =>
    intro b h' hb hworked
    obtain ⟨h₀, hb', hs, ht, ⟨rfl, rfl⟩ | ⟨hba, rfl⟩⟩ := hhold b h' hb
    · exact ⟨hm.symm, Function.update_self ..⟩
    · obtain ⟨hturn, hvalue⟩ := h.inTurn b h₀ hb' hworked
      refine ⟨hturn, ?_⟩
      -- it is another slot, as this one is in the hands of `a`
      have hne : h₀.slot ≠ j := by
        intro hslot
        exact hba (h.exclusive hb' ha hslot hturn hm.symm)
      change Function.update x.value j _ h₀.slot = _
      rw [Function.update_of_ne hne]
      exact hvalue
  case value =>
    intro j' hnone
    by_cases hj : j' = j
    · subst hj
      -- `a` has worked on it
      exact absurd (hnone a ⟨j', m, true⟩ (Function.update_self ..) rfl) (by simp)
    · change Function.update x.value j _ j' = _
      rw [Function.update_of_ne hj]
      refine h.value j' fun b h' hb hslot => ?_
      have hba : b ≠ a := by
        rintro rfl
        obtain rfl := Option.some.inj (ha.symm.trans hb)
        exact hj hslot.symm
      refine hnone b h' ?_ hslot
      change Function.update x.hold a _ b = some h'
      rw [Function.update_of_ne hba]
      exact hb

/-- **A thread moves the counter on**, after its work. -/
theorem Inv.finish (h : Inv issued content x) (ha : x.hold a = some ⟨j, m, true⟩) :
    Inv issued content { x with
      turn := Function.update x.turn j (m + 1)
      hold := Function.update x.hold a none } := by
  obtain ⟨hm, hvalue⟩ := h.inTurn a _ ha rfl
  change m = x.turn j at hm
  change x.value j = content j (m + 1) at hvalue
  have hhold : ∀ b h', Function.update x.hold a none b = some h' →
      b ≠ a ∧ x.hold b = some h' := by
    intro b h' hb
    by_cases hba : b = a
    · subst hba
      rw [Function.update_self] at hb
      exact absurd hb (by simp)
    · rw [Function.update_of_ne hba] at hb
      exact ⟨hba, hb⟩
  -- nobody else has this ticket, so the other ones for the slot are for later turns
  have hlater : ∀ b h', b ≠ a → x.hold b = some h' → h'.slot = j → m + 1 ≤ h'.turn := by
    intro b h' hba hb hslot
    have hle := h.due b h' hb
    rw [hslot, ← hm] at hle
    refine Nat.succ_le_of_lt (Nat.lt_of_le_of_ne hle fun heq => hba ?_)
    exact h.unique b a h' _ hb ha hslot heq.symm
  constructor
  case unique =>
    intro b c h₁ h₂ hb hc hslot hturn
    exact h.unique b c h₁ h₂ (hhold b h₁ hb).2 (hhold c h₂ hc).2 hslot hturn
  case valid =>
    intro b h' hb
    exact h.valid b h' (hhold b h' hb).2
  case due =>
    intro b h' hb
    obtain ⟨hba, hb⟩ := hhold b h' hb
    change Function.update x.turn j (m + 1) h'.slot ≤ h'.turn
    by_cases hslot : h'.slot = j
    · rw [hslot, Function.update_self]
      exact hlater b h' hba hb hslot
    · rw [Function.update_of_ne hslot]
      exact h.due b h' hb
  case held =>
    intro j' m' hi hle
    change Function.update x.turn j (m + 1) j' ≤ m' at hle
    -- the ticket is not the one that is given up
    have hle' : x.turn j' ≤ m' ∧ ¬ (j' = j ∧ m' = m) := by
      by_cases hj : j' = j
      · subst hj
        rw [Function.update_self] at hle
        exact ⟨by omega, fun heq => by omega⟩
      · rw [Function.update_of_ne hj] at hle
        exact ⟨hle, fun heq => hj heq.1⟩
    obtain ⟨b, h', hb, hslot, hturn⟩ := h.held j' m' hi hle'.1
    have hba : b ≠ a := by
      rintro rfl
      obtain rfl := Option.some.inj (ha.symm.trans hb)
      exact hle'.2 ⟨hslot.symm, hturn.symm⟩
    refine ⟨b, h', ?_, hslot, hturn⟩
    change Function.update x.hold a _ b = some h'
    rw [Function.update_of_ne hba]
    exact hb
  case passed =>
    intro j' m' hlt
    change m' < Function.update x.turn j (m + 1) j' at hlt
    by_cases hj : j' = j
    · subst hj
      rw [Function.update_self] at hlt
      rcases Nat.lt_succ_iff_lt_or_eq.mp hlt with hlt | rfl
      · exact h.passed j' m' (by rw [← hm]; exact hlt)
      · exact h.valid a _ ha
    · rw [Function.update_of_ne hj] at hlt
      exact h.passed j' m' hlt
  case inTurn =>
    intro b h' hb hworked
    obtain ⟨hba, hb⟩ := hhold b h' hb
    obtain ⟨hturn, hvalue'⟩ := h.inTurn b h' hb hworked
    have hne : h'.slot ≠ j := by
      intro hslot
      exact hba (h.exclusive hb ha hslot hturn hm)
    refine ⟨?_, hvalue'⟩
    change h'.turn = Function.update x.turn j (m + 1) h'.slot
    rw [Function.update_of_ne hne]
    exact hturn
  case value =>
    intro j' hnone
    change x.value j' = content j' (Function.update x.turn j (m + 1) j')
    by_cases hj : j' = j
    · subst hj
      rw [Function.update_self]
      exact hvalue
    · rw [Function.update_of_ne hj]
      refine h.value j' fun b h' hb hslot => ?_
      have hba : b ≠ a := by
        rintro rfl
        obtain rfl := Option.some.inj (ha.symm.trans hb)
        exact hj hslot.symm
      refine hnone b h' ?_ hslot
      change Function.update x.hold a _ b = some h'
      rw [Function.update_of_ne hba]
      exact hb

end Steps

end Turns

end Framework
