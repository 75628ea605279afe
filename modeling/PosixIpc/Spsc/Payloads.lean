import PosixIpc.Framework.Ownership

/-!
# Ownership of message payloads

`Message` (`Message.hpp`) as an object: a pointer, a size, and a flag that says whether the
destructor deletes what the pointer points to. A move takes over all three fields and resets the
pointer of the source, but not its flag; with a null pointer the destructor does nothing.

The move assignment takes over the fields as well, and does not look at what the target points to.
So a buffer that a message owns is released exactly once unless another message is assigned to its
owner, and then it is never released (`payloads_released_iff`). Whatever is released was handed to
`Message::owns`, and no message owns it any more.
-/

namespace PosixIpc

open Framework

/-- A `Message` object. Buffers are identified by their addresses. -/
structure MessageObject where
  payload : Option Nat
  size : Nat
  ownsPayload : Bool
  deriving DecidableEq, Repr

namespace MessageObject

/-- `Message::owns`. -/
def owns (payload : Option Nat) (size : Nat) : MessageObject := ⟨payload, size, true⟩

/-- `Message::borrows`. -/
def borrows (payload : Option Nat) (size : Nat) : MessageObject := ⟨payload, size, false⟩

/-- The move constructor: the new object, and what is left of the other one. -/
def moveConstruct (other : MessageObject) : MessageObject × MessageObject :=
  (⟨other.payload, other.size, other.ownsPayload⟩, { other with payload := none })

/-- The move assignment from another object. -/
def moveAssign (this other : MessageObject) : MessageObject × MessageObject :=
  ({ this with payload := other.payload, size := other.size, ownsPayload := other.ownsPayload },
    { other with payload := none })

/-- What the destructor deletes. This is the buffer the message refers to as its owner. -/
def owned (msg : MessageObject) : List Nat :=
  if msg.ownsPayload then msg.payload.toList else []

theorem owned_moved (msg : MessageObject) : owned { msg with payload := none } = [] := by
  simp [owned]

theorem moves : Moves owned moveConstruct moveAssign where
  construct_target _ := rfl
  construct_source := owned_moved
  assign_target _ _ := rfl
  assign_source _ := owned_moved

theorem owned_eq_nil_iff (msg : MessageObject) :
    msg.owned = [] ↔ ¬ (msg.ownsPayload = true ∧ msg.payload ≠ none) := by
  obtain ⟨payload, size, ownsPayload⟩ := msg
  cases payload <;> cases ownsPayload <;> simp [owned]

end MessageObject

/-- The messages of a program, and the buffers handed to `Message::owns` and deleted by messages. -/
structure Messages where
  cells : List (Option MessageObject)
  ledger : Ledger Nat
  deriving DecidableEq, Repr

/-- What a program does with messages. -/
inductive MessageOp where
  | owns (payload : Option Nat) (size : Nat)
  | borrows (payload : Option Nat) (size : Nat)
  | moveConstruct (src : Nat)
  | moveAssign (dst src : Nat)
  | destroy (i : Nat)
  deriving DecidableEq, Repr

namespace Messages

/-- No messages yet. -/
def start : Messages := ⟨[], ⟨[], []⟩⟩

/-- One operation. Only a message that is there can be moved, assigned to or destroyed. -/
def step (x : Messages) : MessageOp → Option (Unit × Messages)
  | .owns payload size =>
    some ((), ⟨x.cells ++ [some (.owns payload size)], x.ledger.record payload.toList []⟩)
  | .borrows payload size => some ((), ⟨x.cells ++ [some (.borrows payload size)], x.ledger⟩)
  | .moveConstruct src =>
    (moveConstruct MessageObject.moveConstruct x.cells src).map fun c => ((), { x with cells := c })
  | .moveAssign dst src =>
    (moveAssign MessageObject.moveAssign x.cells dst src).map fun c => ((), { x with cells := c })
  | .destroy i =>
    (live x.cells i).map fun msg => ((), ⟨x.cells.set i none, x.ledger.record [] msg.owned⟩)

/-- The buffers that messages own. -/
def held (x : Messages) : List Nat := Framework.held MessageObject.owned x.cells

/-- A buffer handed over is fresh: it is not one that was handed over before and is still
allocated. -/
def Fresh (x : Messages) : MessageOp → Prop
  | .owns (some b) _ => x.ledger.acquired.count b = x.ledger.released.count b
  | _ => True

/-- The messages an operation is about are there. -/
def Present (x : Messages) : MessageOp → Prop
  | .owns _ _ | .borrows _ _ => True
  | .moveConstruct i | .destroy i => (live x.cells i).isSome
  | .moveAssign dst src => (live x.cells dst).isSome ∧ (live x.cells src).isSome

/-- Another message is assigned to one that owns a buffer. -/
def Overwrites (x : Messages) : MessageOp → Prop
  | .moveAssign dst src => dst ≠ src ∧
      ∃ msg ∈ live x.cells dst, msg.ownsPayload = true ∧ msg.payload ≠ none
  | _ => False

instance (x : Messages) (o : MessageOp) : Decidable (Fresh x o) :=
  match o with
  | .owns (some b) _ =>
    inferInstanceAs (Decidable (x.ledger.acquired.count b = x.ledger.released.count b))
  | .owns none _ | .borrows _ _ | .moveConstruct _ | .moveAssign _ _ | .destroy _ => isTrue trivial

instance (x : Messages) (o : MessageOp) : Decidable (Overwrites x o) :=
  match o with
  | .moveAssign dst src => inferInstanceAs (Decidable (dst ≠ src ∧
      ∃ msg ∈ live x.cells dst, msg.ownsPayload = true ∧ msg.payload ≠ none))
  | .owns _ _ | .borrows _ _ | .moveConstruct _ | .destroy _ => isFalse fun h => h

/-- The books are in order. -/
def Accounts (x : Messages) (lost : List Nat) : Prop := x.ledger.Accounts x.held lost

variable {x y : Messages} {o : MessageOp} {r : Unit} {lost : List Nat}

/-- **One operation** keeps the books, and loses something exactly if it overwrites an owner. -/
theorem Accounts.step (h : x.Accounts lost) (ho : Fresh x o) (hs : x.step o = some (r, y)) :
    ∃ l, y.Accounts (lost ++ l) ∧ (l = [] ↔ ¬ Overwrites x o) := by
  cases o with
  | owns payload size =>
    obtain ⟨-, rfl⟩ := Prod.mk.inj (Option.some.inj hs)
    refine ⟨[], ?_, iff_of_true rfl fun h => h⟩
    -- no message owns the buffer, and it is not lost
    have hfresh : ∀ b ∈ payload.toList, b ∉ x.held ∧ b ∉ lost := by
      intro b hb
      obtain rfl : payload = some b := Option.mem_toList.mp hb
      exact h.fresh ho
    have hnodup : payload.toList.Nodup := by
      cases payload <;> simp
    unfold Accounts held
    rw [List.append_nil, held_append_some]
    refine Ledger.Accounts.gain (t := []) h (fun b => ?_) rfl hnodup hfresh
    rw [Ledger.acquired_record, List.count_append, List.count_nil, Nat.add_zero]
    rfl
  | borrows payload size =>
    obtain ⟨-, rfl⟩ := Prod.mk.inj (Option.some.inj hs)
    refine ⟨[], ?_, iff_of_true rfl fun h => h⟩
    rw [List.append_nil]
    -- a message that borrows holds nothing
    refine h.congr fun b => ?_
    exact congrArg (List.count b) ((held_append_some _ _ _).trans (List.append_nil _))
  | moveConstruct src =>
    obtain ⟨c, hc, heq⟩ := Option.map_eq_some_iff.mp hs
    obtain ⟨-, rfl⟩ := Prod.mk.inj heq
    refine ⟨[], ?_, iff_of_true rfl fun h => h⟩
    rw [List.append_nil]
    exact h.congr (count_moveConstruct MessageObject.moves hc)
  | moveAssign dst src =>
    obtain ⟨c, hc, heq⟩ := Option.map_eq_some_iff.mp hs
    obtain ⟨-, rfl⟩ := Prod.mk.inj heq
    exact ⟨_, h.lose (count_moveAssign MessageObject.moves hc),
      overwritten_eq_nil_iff MessageObject.owned_eq_nil_iff dst src⟩
  | destroy i =>
    obtain ⟨msg, hmsg, heq⟩ := Option.map_eq_some_iff.mp hs
    obtain ⟨-, rfl⟩ := Prod.mk.inj heq
    refine ⟨[], ?_, iff_of_true rfl fun h => h⟩
    rw [List.append_nil]
    exact h.release fun b => count_held_set _ hmsg none b

/-- What an operation releases, no message owns any more. -/
theorem Accounts.releasesUnheld (h : x.Accounts lost) :
    ReleasesUnheld Messages.step Messages.ledger Messages.held x o := by
  intro r y hs
  -- only `destroy` deletes anything: what the message there owns, which no other message does
  cases o with
  | owns payload size =>
    obtain ⟨-, rfl⟩ := Prod.mk.inj (Option.some.inj hs)
    exact ⟨[], rfl, fun b hb => absurd hb List.not_mem_nil⟩
  | borrows payload size =>
    obtain ⟨-, rfl⟩ := Prod.mk.inj (Option.some.inj hs)
    exact ⟨[], (List.append_nil _).symm, fun b hb => absurd hb List.not_mem_nil⟩
  | moveConstruct src =>
    obtain ⟨c, -, heq⟩ := Option.map_eq_some_iff.mp hs
    obtain ⟨-, rfl⟩ := Prod.mk.inj heq
    exact ⟨[], (List.append_nil _).symm, fun b hb => absurd hb List.not_mem_nil⟩
  | moveAssign dst src =>
    obtain ⟨c, -, heq⟩ := Option.map_eq_some_iff.mp hs
    obtain ⟨-, rfl⟩ := Prod.mk.inj heq
    exact ⟨[], (List.append_nil _).symm, fun b hb => absurd hb List.not_mem_nil⟩
  | destroy i =>
    obtain ⟨msg, hmsg, heq⟩ := Option.map_eq_some_iff.mp hs
    obtain ⟨-, rfl⟩ := Prod.mk.inj heq
    exact ⟨msg.owned, rfl, fun b hb => h.not_mem (fun b => count_held_set _ hmsg none b) hb⟩

/-- **Operations are performed** exactly if the messages they are about are there. -/
theorem step_isSome_iff (x : Messages) (o : MessageOp) : (x.step o).isSome ↔ Present x o := by
  cases o with
  | owns payload size => exact iff_of_true rfl trivial
  | borrows payload size => exact iff_of_true rfl trivial
  | moveConstruct src =>
    simp only [step, Option.isSome_map]
    exact isSome_moveConstruct
  | moveAssign dst src =>
    simp only [step, Option.isSome_map]
    exact isSome_moveAssign
  | destroy i =>
    simp only [step, Option.isSome_map]
    exact Iff.rfl

end Messages

open Messages

/-- **Payloads.** In every run, what is released is owned by no message any more, and it was handed
to `Message::owns` before; every operation on messages that are there is performed. Once all
messages are destroyed, every buffer was released as often as it was handed over exactly if no
message was assigned to another one that owned a buffer. -/
theorem payloads_released_iff {ops : List MessageOp} {x : Messages}
    (hr : Reaches Messages.step Fresh Messages.start ops x) :
    Along Messages.step (ReleasesUnheld Messages.step Messages.ledger Messages.held)
        Messages.start ops ∧
      (∀ b, x.ledger.released.count b ≤ x.ledger.acquired.count b) ∧
      (∀ o, (x.step o).isSome ↔ Present x o) ∧
      ((∀ i, live x.cells i = none) →
        (x.ledger.Settled ↔
          Along Messages.step (fun y o => ¬ Overwrites y o) Messages.start ops)) := by
  obtain ⟨hunheld, lost, hx, hsettled⟩ := books_of_reaches (I := Messages.Accounts)
    (fun _ _ h => h) (fun _ _ _ _ _ h ho hs => h.step ho hs) (fun _ _ _ h _ => h.releasesUnheld) hr
    Ledger.accounts_empty
  exact ⟨hunheld, hx.released_le, x.step_isSome_iff, fun hgone => hsettled (held_eq_nil hgone)⟩

/-- A buffer is moved to another message and back, beside a message that borrows it, and one of the
messages is assigned to itself. -/
def movingRun : List MessageOp :=
  [.owns (some 64) 8, .borrows (some 64) 8, .moveConstruct 0, .moveAssign 2 2, .moveAssign 0 2,
    .destroy 2, .destroy 1, .destroy 0]

theorem payloads_released_iff_moving :
    ∃ x, Reaches Messages.step Fresh Messages.start movingRun x ∧ x.ledger.acquired = [64] ∧
      x.ledger.Settled := by
  have hf : follow Messages.step Messages.start movingRun =
      some ⟨[none, none, none], ⟨[64], [64]⟩⟩ := by
    decide
  have hr : Reaches Messages.step Fresh Messages.start movingRun
      ⟨[none, none, none], ⟨[64], [64]⟩⟩ := .of_follow hf (by decide)
  have hgone : ∀ i, live [none, none, (none : Option MessageObject)] i = none := by
    intro i
    rcases i with _ | _ | _ | i <;> rfl
  exact ⟨_, hr, rfl, ((payloads_released_iff hr).2.2.2 hgone).mpr (by decide)⟩

/-- Two messages with a buffer each, of which one is assigned to the other. -/
def overwritingRun : List MessageOp :=
  [.owns (some 64) 8, .owns (some 128) 8, .moveAssign 0 1, .destroy 0, .destroy 1]

/-- The buffer of the message that is assigned to is never released. -/
theorem payload_lost : ¬ ∀ (ops : List MessageOp) (x : Messages),
    Reaches Messages.step Fresh Messages.start ops x → (∀ i, live x.cells i = none) →
      x.ledger.Settled := by
  intro h
  -- only the second buffer has been released
  have hf : follow Messages.step Messages.start overwritingRun =
      some ⟨[none, none], ⟨[64, 128], [128]⟩⟩ := by
    decide
  have hgone : ∀ i, live [none, (none : Option MessageObject)] i = none := by
    intro i
    rcases i with _ | _ | i <;> rfl
  have hsettled := h overwritingRun ⟨[none, none], ⟨[64, 128], [128]⟩⟩
    (.of_follow hf (by decide)) hgone
  exact absurd (hsettled 64) (by decide)

end PosixIpc
