import Mathlib.Logic.Function.Basic
import PosixIpc.Framework.Memory
import PosixIpc.Framework.Run

/-!
# The queue for several producers and consumers

`mpmc::Queue` (`examples/mpmc.hpp`), with its slots, its constructor and destructor, and a `Pool` of
threads that call `emplace`, `try_emplace`, `pop` and `try_pop` on it. `push` and `try_push` are
`emplace` and `try_emplace`.

A thread is at one of the points of these functions: before the call of a function on an atomic
variable, or before an object in a slot is constructed, moved from or destroyed. `Queue.advance`
takes a thread from one point to the next, in one step on the shared queue; the loops that wait for
a slot are one step a round. Constructing an object over one that is alive, and moving from or
destroying one that is not, have no answer. An object that has been moved from is alive until it is
destroyed, and its value is not looked at any more.

A `Pool` also keeps a record, which the code does not have, of the values in the order in which
their places in the queue were taken, and of the values that were moved out.
-/

namespace PosixIpc.Mpmc

open Framework

variable {T τ : Type}

/-- Multiplication of 64-bit words. -/
def mulW (a b : Nat) : Nat := a * b % 2 ^ 64

/-- A slot: whose turn it is, and the object in it, if there is one. -/
structure Slot (T : Type) where
  turn : Nat := 0
  storage : Option T := none

/-- `~Slot`: the objects it destroys. -/
def Slot.destruct (s : Slot T) : Option (List T) :=
  if s.turn % 2 = 1 then s.storage.map fun v => [v] else some []

structure Queue (T : Type) where
  capacity : Nat
  capacity_pos : 0 < capacity
  slots : Nat → Slot T
  head : Nat
  tail : Nat

namespace Queue

/-- The constructor, where the slots can be allocated. It asks for `capacity_ + 1` of them, a sum
that wraps for `capacity = 2 ^ 64 - 1`: no queue is returned then. -/
def create (capacity : Nat) : Except String (Queue T) :=
  if h : capacity < 1 then .error "capacity < 1"
  else .ok ⟨capacity, Nat.le_of_not_lt h, fun _ => {}, 0, 0⟩

/-- The destructor, for the first `n` slots. -/
def destructSlots (q : Queue T) : Nat → Option (List T)
  | 0 => some []
  | n + 1 => do
    let l ← q.destructSlots n
    let l' ← (q.slots n).destruct
    return l ++ l'

/-- `~Queue`: the objects it destroys. -/
def destruct (q : Queue T) : Option (List T) := q.destructSlots q.capacity

def idx (q : Queue T) (i : Nat) : Nat := i % q.capacity

def turn (q : Queue T) (i : Nat) : Nat := i / q.capacity

/-- `size()`, a signed difference. -/
def size (q : Queue T) : Int := Int.bmod (subW q.head q.tail) (2 ^ 64)

/-- `empty()`. -/
def empty (q : Queue T) : Bool := q.size ≤ 0

/-- The slot for a place in the queue. -/
def slot (q : Queue T) (i : Nat) : Slot T := q.slots (q.idx i)

def setTurn (q : Queue T) (i : Nat) (turn : Nat) : Queue T :=
  { q with slots := Function.update q.slots (q.idx i) { q.slot i with turn := turn } }

def setStorage (q : Queue T) (i : Nat) (storage : Option T) : Queue T :=
  { q with slots := Function.update q.slots (q.idx i) { q.slot i with storage := storage } }

end Queue

/-- Where a thread is. The flag tells `try_emplace` and `try_pop` from `emplace` and `pop` where
they go on alike. -/
inductive Point (T : Type) where
  | idle
  -- `emplace`
  | emplace (v : T)
  | awaitEmpty (head : Nat) (v : T)
  | construct (head : Nat) (v : T) (tries : Bool)
  | publish (head : Nat) (tries : Bool)
  -- `try_emplace`
  | tryEmplace (v : T)
  | checkEmpty (head : Nat) (v : T)
  | casHead (head : Nat) (v : T)
  | reloadHead (prevHead : Nat) (v : T)
  -- `pop`
  | pop
  | awaitFull (tail : Nat)
  | move (tail : Nat) (tries : Bool)
  | destroy (tail : Nat) (v : T) (tries : Bool)
  | release (tail : Nat) (v : T) (tries : Bool)
  -- `try_pop`
  | tryPop
  | checkFull (tail : Nat)
  | casTail (tail : Nat)
  | reloadTail (prevTail : Nat)
  deriving DecidableEq

/-- What a call returns. -/
inductive Return (T : Type) where
  | emplaced
  | tryEmplaced (ok : Bool)
  | popped (v : T)
  | tryPopped (v : Option T)
  deriving DecidableEq

/-- A value that was moved out: by which thread, and of which place in the queue. -/
structure Taken (τ T : Type) where
  thread : τ
  place : Nat
  value : T
  deriving DecidableEq

namespace Queue

/-- One step of a thread. -/
def advance (q : Queue T) : Point T → Option (Option (Return T) × Queue T × Point T)
  | .idle => none
  | .emplace v => some (none, { q with head := addW q.head 1 }, .awaitEmpty q.head v)
  | .awaitEmpty head v =>
    if mulW (q.turn head) 2 ≠ (q.slot head).turn then some (none, q, .awaitEmpty head v)
    else some (none, q, .construct head v false)
  | .construct head v tries =>
    match (q.slot head).storage with
    | none => some (none, q.setStorage head (some v), .publish head tries)
    | some _ => none
  | .publish head tries =>
    some (some (if tries then .tryEmplaced true else .emplaced),
      q.setTurn head (addW (mulW (q.turn head) 2) 1), .idle)
  | .tryEmplace v => some (none, q, .checkEmpty q.head v)
  | .checkEmpty head v =>
    if mulW (q.turn head) 2 = (q.slot head).turn then some (none, q, .casHead head v)
    else some (none, q, .reloadHead head v)
  | .casHead head v =>
    if q.head = head then some (none, { q with head := addW head 1 }, .construct head v true)
    else some (none, q, .checkEmpty q.head v)
  | .reloadHead prevHead v =>
    if q.head = prevHead then some (some (.tryEmplaced false), q, .idle)
    else some (none, q, .checkEmpty q.head v)
  | .pop => some (none, { q with tail := addW q.tail 1 }, .awaitFull q.tail)
  | .awaitFull tail =>
    if addW (mulW (q.turn tail) 2) 1 ≠ (q.slot tail).turn then some (none, q, .awaitFull tail)
    else some (none, q, .move tail false)
  | .move tail tries =>
    match (q.slot tail).storage with
    | some v => some (none, q, .destroy tail v tries)
    | none => none
  | .destroy tail v tries =>
    match (q.slot tail).storage with
    | some _ => some (none, q.setStorage tail none, .release tail v tries)
    | none => none
  | .release tail v tries =>
    some (some (if tries then .tryPopped (some v) else .popped v),
      q.setTurn tail (addW (mulW (q.turn tail) 2) 2), .idle)
  | .tryPop => some (none, q, .checkFull q.tail)
  | .checkFull tail =>
    if addW (mulW (q.turn tail) 2) 1 = (q.slot tail).turn then some (none, q, .casTail tail)
    else some (none, q, .reloadTail tail)
  | .casTail tail =>
    if q.tail = tail then some (none, { q with tail := addW tail 1 }, .move tail true)
    else some (none, q, .checkFull q.tail)
  | .reloadTail prevTail =>
    if q.tail = prevTail then some (some (.tryPopped none), q, .idle)
    else some (none, q, .checkFull q.tail)

/-- The value for which a step takes a place in the queue. -/
def reserves (q : Queue T) : Point T → List T
  | .emplace v => [v]
  | .casHead head v => if q.head = head then [v] else []
  | _ => []

/-- The value a step of thread `a` moves out. -/
def takes (q : Queue T) (a : τ) : Point T → List (Taken τ T)
  | .move tail _ => (q.slot tail).storage.toList.map fun v => ⟨a, tail, v⟩
  | _ => []

end Queue

/-! ### Threads -/

/-- A call. -/
inductive Call (T : Type) where
  | emplace (v : T)
  | tryEmplace (v : T)
  | pop
  | tryPop

/-- Where a call begins. -/
def Call.entry : Call T → Point T
  | .emplace v => .emplace v
  | .tryEmplace v => .tryEmplace v
  | .pop => .pop
  | .tryPop => .tryPop

inductive Action (τ T : Type) where
  /-- A thread that is in no call begins one. -/
  | call (a : τ) (c : Call T)
  /-- A thread takes a step. -/
  | step (a : τ)

/-- A queue and the threads on it, with the record of the values. -/
structure Pool (τ T : Type) where
  queue : Queue T
  point : τ → Point T
  pushed : List T
  popped : List (Taken τ T)

namespace Pool

/-- No thread is in a call yet. -/
def start (q : Queue T) : Pool τ T := ⟨q, fun _ => .idle, [], []⟩

def step [DecidableEq τ] (x : Pool τ T) : Action τ T → Option (Option (Return T) × Pool τ T)
  | .call a c =>
    match x.point a with
    | .idle => some (none, { x with point := Function.update x.point a c.entry })
    | _ => none
  | .step a =>
    match x.queue.advance (x.point a) with
    | none => none
    | some (r, q, p) =>
      some (r, ⟨q, Function.update x.point a p, x.pushed ++ x.queue.reserves (x.point a),
        x.popped ++ x.queue.takes a (x.point a)⟩)

end Pool

end PosixIpc.Mpmc
