import Mathlib.Data.Nat.Bitwise
import PosixIpc.Framework.Circular
import PosixIpc.Framework.Fifo
import PosixIpc.Framework.Parallel

/-!
# Ring buffers

The ring buffers of `examples/SPSC.cpp`. `ringbuffer0` and `ringbuffer1` differ in the placement of
their indices only. `ringbuffer2` and `ringbuffer3` remember the last value they have seen of the
other side's index, and load that index again only if the remembered one says that the buffer is
full, or empty; `ringbuffer3` has 64-bit indices and elements.

`push` and `pop` are programs over the accesses to the members: loads and stores of the indices, and
reads and writes of the elements. An access to an element that is not there has no answer. The
constructors leave elements of any value, zeros or what was in the memory; all indices are 0.

A producer and a consumer share a buffer (`Duo`). The record of the events of the queue, which the
code does not have, is kept where the calls take effect: a `push` at its store of the write index,
or at the load of the read index that it gives up on; a `pop` at its store of the read index, or at
the load of the write index that it gives up on.
-/

namespace PosixIpc

open Framework

variable {T : Type}

/-- The members of a ring buffer. -/
structure RingBuffer (T : Type) where
  data : List T
  readIdx : Nat := 0
  writeIdx : Nat := 0
  readIdxCached : Nat := 0
  writeIdxCached : Nat := 0

namespace RingBuffer

/-- The indices. -/
inductive Index where
  | readIdx
  | writeIdx
  | readIdxCached
  | writeIdxCached
  deriving DecidableEq

/-- The accesses to the members. -/
inductive Access (T : Type) where
  | load (m : Index)
  | store (m : Index) (idx : Nat)
  | get (idx : Nat)
  | set (idx : Nat) (val : T)

@[reducible] def Access.Ret : Access T → Type
  | .load _ => Nat
  | .store _ _ => Unit
  | .get _ => T
  | .set _ _ => Unit

def load (b : RingBuffer T) : Index → Nat
  | .readIdx => b.readIdx
  | .writeIdx => b.writeIdx
  | .readIdxCached => b.readIdxCached
  | .writeIdxCached => b.writeIdxCached

def store (b : RingBuffer T) (idx : Nat) : Index → RingBuffer T
  | .readIdx => { b with readIdx := idx }
  | .writeIdx => { b with writeIdx := idx }
  | .readIdxCached => { b with readIdxCached := idx }
  | .writeIdxCached => { b with writeIdxCached := idx }

/-- One access. -/
def exec : (o : Access T) → RingBuffer T → Option (o.Ret × RingBuffer T)
  | .load m, b => some (b.load m, b)
  | .store m idx, b => some ((), b.store idx m)
  | .get idx, b => b.data[idx]?.map fun val => (val, b)
  | .set idx val, b =>
    if idx < b.data.length then some ((), { b with data := b.data.set idx val }) else none

/-! ### The functions -/

/-- The index behind another one, in words of `width` bits. -/
def nextIdx (width capacity idx : Nat) : Nat :=
  let next := (idx + 1) % 2 ^ width
  if next = capacity then 0 else next

theorem nextIdx_eq {width n idx : Nat} (hidx : idx < n) (hn : n < 2 ^ width) :
    nextIdx width n idx = Circular.next n idx := by
  unfold nextIdx Circular.next
  rw [Nat.mod_eq_of_lt (Nat.lt_of_le_of_lt hidx hn)]

/-- `data_[writeIdx] = val; writeIdx_.store(nextWriteIdx); return true`. -/
def pushAt (writeIdx nextWriteIdx : Nat) (val : T) : Prog (@Access.Ret T) Bool :=
  .step (.set writeIdx val) fun _ => .step (.store .writeIdx nextWriteIdx) fun _ => .ret true

/-- `val = data_[readIdx]`, and the read index moves on. -/
def popAt (width capacity readIdx : Nat) : Prog (@Access.Ret T) (Option T) :=
  .step (.get readIdx) fun val =>
    .step (.store .readIdx (nextIdx width capacity readIdx)) fun _ => .ret (some val)

/-- `push` of `ringbuffer0` and `ringbuffer1`. -/
def push (width capacity : Nat) (val : T) : Prog (@Access.Ret T) Bool :=
  .step (.load .writeIdx) fun writeIdx =>
    .step (.load .readIdx) fun readIdx =>
      if nextIdx width capacity writeIdx = readIdx then .ret false
      else pushAt writeIdx (nextIdx width capacity writeIdx) val

/-- `pop` of `ringbuffer0` and `ringbuffer1`. -/
def pop (width capacity : Nat) : Prog (@Access.Ret T) (Option T) :=
  .step (.load .readIdx) fun readIdx =>
    .step (.load .writeIdx) fun writeIdx =>
      if readIdx = writeIdx then .ret none else popAt width capacity readIdx

/-- `push` of `ringbuffer2` and `ringbuffer3`. -/
def pushCached (width capacity : Nat) (val : T) : Prog (@Access.Ret T) Bool :=
  .step (.load .writeIdx) fun writeIdx =>
    .step (.load .readIdxCached) fun cached =>
      if nextIdx width capacity writeIdx = cached then
        .step (.load .readIdx) fun readIdx =>
          .step (.store .readIdxCached readIdx) fun _ =>
            .step (.load .readIdxCached) fun cached' =>
              if nextIdx width capacity writeIdx = cached' then .ret false
              else pushAt writeIdx (nextIdx width capacity writeIdx) val
      else pushAt writeIdx (nextIdx width capacity writeIdx) val

/-- `pop` of `ringbuffer2` and `ringbuffer3`. -/
def popCached (width capacity : Nat) : Prog (@Access.Ret T) (Option T) :=
  .step (.load .readIdx) fun readIdx =>
    .step (.load .writeIdxCached) fun cached =>
      if readIdx = cached then
        .step (.load .writeIdx) fun writeIdx =>
          .step (.store .writeIdxCached writeIdx) fun _ =>
            .step (.load .writeIdxCached) fun cached' =>
              if readIdx = cached' then .ret none else popAt width capacity readIdx
      else popAt width capacity readIdx

/-- The buffers without a lock. -/
inductive Kind where
  | ringbuffer0
  | ringbuffer1
  | ringbuffer2
  | ringbuffer3
  deriving DecidableEq

namespace Kind

/-- The bits of an index. -/
def width : Kind → Nat
  | .ringbuffer0 | .ringbuffer1 | .ringbuffer2 => 32
  | .ringbuffer3 => 64

/-- The indices of the other side are remembered. -/
def Caches : Kind → Prop
  | .ringbuffer0 | .ringbuffer1 => False
  | .ringbuffer2 | .ringbuffer3 => True

def push (kind : Kind) (capacity : Nat) (val : T) : Prog (@Access.Ret T) Bool :=
  match kind with
  | .ringbuffer0 => RingBuffer.push 32 capacity val
  | .ringbuffer1 => RingBuffer.push 32 capacity val
  | .ringbuffer2 => RingBuffer.pushCached 32 capacity val
  | .ringbuffer3 => RingBuffer.pushCached 64 capacity val

def pop (kind : Kind) (capacity : Nat) : Prog (@Access.Ret T) (Option T) :=
  match kind with
  | .ringbuffer0 => RingBuffer.pop 32 capacity
  | .ringbuffer1 => RingBuffer.pop 32 capacity
  | .ringbuffer2 => RingBuffer.popCached 32 capacity
  | .ringbuffer3 => RingBuffer.popCached 64 capacity

end Kind

/-! ### A producer and a consumer -/

inductive Party where
  | producer
  | consumer
  deriving DecidableEq

inductive Call (T : Type) where
  | push (val : T)
  | pop
  deriving DecidableEq

/-- What the calls return. -/
inductive Answer (T : Type) where
  | pushed (ok : Bool)
  | popped (val : Option T)
  deriving DecidableEq

namespace Call

/-- The producer pushes, the consumer pops. -/
def Fits : Party → Call T → Prop
  | .producer, .push _ => True
  | .consumer, .pop => True
  | _, _ => False

/-- A call with its answer, as an event on a queue. -/
def event : Call T → Answer T → Fifo.Event T
  | .push val, .pushed true => .accept val
  | .push _, _ => .refuse
  | .pop, .popped (some val) => .pop val
  | .pop, _ => .peek none

def body (kind : Kind) (capacity : Nat) : Call T → Prog (@Access.Ret T) (Answer T)
  | .push val => kind.push capacity val >>= fun ok => .ret (.pushed ok)
  | .pop => kind.pop capacity >>= fun val => .ret (.popped val)

/-- The event of a call that takes effect with an access. -/
def commits (width capacity : Nat) (b : RingBuffer T) : Call T → Access T → List (Fifo.Event T)
  | .push val, .store .writeIdx _ => [.accept val]
  | .push _, .load .readIdx =>
    if nextIdx width capacity b.writeIdx = b.readIdx then [.refuse] else []
  | .pop, .store .readIdx _ => b.data[b.readIdx]?.toList.map .pop
  | .pop, .load .writeIdx => if b.readIdx = b.writeIdx then [.peek none] else []
  | _, _ => []

end Call

/-- A buffer with the record of the events. -/
structure Traced (T : Type) where
  buffer : RingBuffer T
  log : List (Party × Fifo.Event T)

namespace Traced

def exec (width capacity : Nat) (i : Party) (c : Call T) (o : Access T) (x : Traced T) :
    Option (o.Ret × Traced T) :=
  (RingBuffer.exec o x.buffer).map fun z =>
    (z.1, ⟨z.2, x.log ++ (c.commits width capacity x.buffer o).map fun e => (i, e)⟩)

/-- The events of a party. -/
def own (i : Party) (x : Traced T) : List (Fifo.Event T) :=
  (x.log.filter fun e => e.1 = i).map Prod.snd

/-- All events, in order. -/
def events (x : Traced T) : List (Fifo.Event T) := x.log.map Prod.snd

end Traced

/-- A producer and a consumer with a buffer. -/
abbrev Duo (T : Type) := Gang (@Access.Ret T) Party (Call T) (Answer T) (Traced T)

namespace Duo

/-- The constructors, with elements of some value. -/
def start (data : List T) : Duo T := Gang.start ⟨{ data := data }, []⟩

/-- The next step of one of the two. -/
def step (kind : Kind) (capacity : Nat) :
    Duo T → TeamAction Party (Call T) → Option (Unit × Duo T) :=
  Gang.step (Traced.exec kind.width capacity) fun _ => Call.body kind capacity

end Duo

end RingBuffer

end PosixIpc
