import PosixIpc.Framework.Prog
import PosixIpc.Spsc.Storage

/-!
# The queue operations, step by step

`SPSCQueue` (`SPSCQueue.hpp`) with its messages (`Message.hpp`). Every operation is a program over
the atomic steps a thread takes on the shared storage: one step for each load, store, `fetch_add`
and `fetch_sub` of a header field, one for each `memcpy` and `memset` of the buffer, one for each
`assert`. `SPSCStorage.exec` is the effect of a step on a storage that lives in a region of `len`
bytes; a step that would leave the region, or an assertion that fails, is a fault.

The same programs are run without interruption (`Prog.run`) where whole operations are concerned
and are interleaved step by step where two parties run at the same time.

`dequeue_begin` is a `goto` loop: `dequeueBeginRound` is one pass over its body, which answers
`none` when it jumps back, and `dequeueBegin` goes round a bounded number of times.
`run_dequeueBegin_fuel` shows that two rounds decide the outcome: without interference, a loop that
has not ended after two rounds never ends.
-/

namespace PosixIpc

open Framework

/-! ### Messages -/

/-- A message to be written: its payload bytes. -/
structure Message where
  payload : List UInt8
  deriving DecidableEq, Repr

namespace Message

/-- The field `size`, which is also `payload_size()`. -/
def size (msg : Message) : Nat := msg.payload.length

/-- `total_size()`: header and payload. -/
def totalSize (msg : Message) : Nat := addW 8 msg.size

@[simp] theorem size_mk (p : List UInt8) : (Message.mk p).size = p.length := rfl

theorem totalSize_mk (p : List UInt8) : (Message.mk p).totalSize = addW 8 p.length := rfl

end Message

/-- A message as found in the buffer. `payload` is the offset of the payload in the buffer, or
`none` for the null pointer. -/
structure MessageView where
  payload : Option Nat := none
  size : Nat := 0
  index : Nat := 0
  deriving DecidableEq, Repr

namespace MessageView

def empty (v : MessageView) : Bool := v.size = 0

/-- `total_size()`: header and payload. -/
def totalSize (v : MessageView) : Nat := addW 8 v.size

/-- The payload bytes a view shows in a buffer (`as_span`, `copy_payload_to`). -/
def bytes (v : MessageView) (buffer : Mem) : List UInt8 :=
  match v.payload with
  | none => []
  | some off => buffer.read off v.size

end MessageView

/-! ### Atomic steps on a storage -/

/-- The shared counters of the header. -/
inductive Cell where
  | readIx
  | writeIx
  | msgCount
  deriving DecidableEq, Repr

/-- Offset of a counter in the region. -/
def Cell.offset : Cell → Nat
  | .readIx => 64
  | .writeIx => 128
  | .msgCount => 192

/-- One step of a thread on the storage. Buffer positions are offsets into the buffer. -/
inductive MemOp where
  | load (c : Cell)
  | store (c : Cell) (v : Nat)
  | fetchAdd (c : Cell) (n : Nat)
  | fetchSub (c : Cell) (n : Nat)
  | memcpyTo (dst : Nat) (src : List UInt8)
  | memcpySizeFrom (src : Nat)
  | memset (dst : Nat) (c : UInt8) (n : Nat)
  | assert (b : Bool)
  deriving DecidableEq

/-- What a step returns to the thread. -/
@[reducible] def MemOp.Ret : MemOp → Type
  | .load _ => Nat
  | .memcpySizeFrom _ => Nat
  | _ => Unit

/-- The bytes of the region a step touches lie inside a region of `len` bytes. -/
def MemOp.InBounds (len : Nat) : MemOp → Prop
  | .load c | .store c _ | .fetchAdd c _ | .fetchSub c _ => c.offset + 8 ≤ len
  | .memcpyTo dst src => SPSCStorage.bufferOffset + dst + src.length ≤ len
  | .memcpySizeFrom src => SPSCStorage.bufferOffset + src + 8 ≤ len
  | .memset dst _ n => SPSCStorage.bufferOffset + dst + n ≤ len
  | .assert _ => True

instance (len : Nat) : (o : MemOp) → Decidable (o.InBounds len)
  | .load c | .store c _ | .fetchAdd c _ | .fetchSub c _ =>
    inferInstanceAs (Decidable (c.offset + 8 ≤ len))
  | .memcpyTo dst src => inferInstanceAs (Decidable (_ + dst + src.length ≤ len))
  | .memcpySizeFrom src => inferInstanceAs (Decidable (_ + src + 8 ≤ len))
  | .memset dst _ n => inferInstanceAs (Decidable (_ + dst + n ≤ len))
  | .assert _ => inferInstanceAs (Decidable True)

namespace SPSCStorage

/-- The value of a counter. -/
def get (s : SPSCStorage) : Cell → Nat
  | .readIx => s.readIx
  | .writeIx => s.writeIx
  | .msgCount => s.msgCount

/-- Overwrite a counter. -/
def set (s : SPSCStorage) (c : Cell) (v : Nat) : SPSCStorage :=
  match c with
  | .readIx => { s with readIx := v }
  | .writeIx => { s with writeIx := v }
  | .msgCount => { s with msgCount := v }

/-- The effect of a step that stays in bounds. -/
def effect : (o : MemOp) → SPSCStorage → o.Ret × SPSCStorage
  | .load c, s => (s.get c, s)
  | .store c v, s => ((), s.set c v)
  | .fetchAdd c n, s => ((), s.set c (addW (s.get c) n))
  | .fetchSub c n, s => ((), s.set c (subW (s.get c) n))
  | .memcpyTo dst src, s => ((), { s with buffer := s.buffer.write dst src })
  | .memcpySizeFrom src, s => (s.buffer.readWord src, s)
  | .memset dst c n, s => ((), { s with buffer := s.buffer.write dst (List.replicate n c) })
  | .assert _, s => ((), s)

/-- A step on a storage in a region of `len` bytes. Leaving the region and failing an assertion
are faults. -/
def exec (len : Nat) (o : MemOp) (s : SPSCStorage) : Option (o.Ret × SPSCStorage) :=
  if o.InBounds len ∧ o ≠ .assert false then some (effect o s) else none

end SPSCStorage

/-! ### Programs over the steps -/

/-- Programs over the steps on a storage. -/
abbrev QProg := Prog MemOp.Ret

namespace QProg

def load (c : Cell) : QProg Nat := .step (.load c) .ret

def store (c : Cell) (v : Nat) : QProg Unit := .step (.store c v) .ret

def fetchAdd (c : Cell) (n : Nat) : QProg Unit := .step (.fetchAdd c n) .ret

def fetchSub (c : Cell) (n : Nat) : QProg Unit := .step (.fetchSub c n) .ret

def memcpyTo (dst : Nat) (src : List UInt8) : QProg Unit := .step (.memcpyTo dst src) .ret

def memcpySizeFrom (src : Nat) : QProg Nat := .step (.memcpySizeFrom src) .ret

def memset (dst : Nat) (c : UInt8) (n : Nat) : QProg Unit := .step (.memset dst c n) .ret

def assert (b : Bool) : QProg Unit := .step (.assert b) .ret

end QProg

/-! ### The queue -/

/-- A party's handle on a queue. The storage and buffer pointers are the storage the operations
run on. -/
structure SPSCQueue where
  maxMessageSize : Nat
  bufferSize : Nat
  deriving DecidableEq, Repr

namespace SPSCQueue

open QProg

/-- The next index after writing `size` bytes at `currentIndex`, aligned to 8 bytes. -/
def nextIndex (currentIndex size : Nat) : Nat :=
  let align := 8
  let ix := addW currentIndex size
  subW (addW ix align) 1 &&& complW (subW align 1)

/-- The largest message, header included. -/
def calcMaxMessageSize (storage : SPSCStorage) : Nat := storage.bufferSize / 2

/-- The constructor. -/
def construct (storage : SPSCStorage) : SPSCQueue where
  maxMessageSize := calcMaxMessageSize storage
  bufferSize := storage.bufferSize

/-- `SPSCQueue::create`. -/
def create (storage : SPSCStorage) : Except PosixIpcError SPSCQueue :=
  let minRequired := nextIndex 0 (8 + 8)
  if storage.bufferSize % 8 ≠ 0 then
    .error ⟨.spscStorageError, "SPSCStorage buffer size must be divisible by 8, got value " ++
      toString storage.bufferSize ++ "."⟩
  else if storage.bufferSize < minRequired then
    .error ⟨.spscStorageError, "SPSCQueue buffer too small"⟩
  else
    .ok (construct storage)

def maxPayloadSize (q : SPSCQueue) : Nat := subW q.maxMessageSize 8

/-- `is_empty()`. -/
def isEmpty : QProg Bool := do
  let readIx ← load .readIx
  let writeIx ← load .writeIx
  return readIx = writeIx

/-- `can_dequeue()`. -/
def canDequeue : QProg Bool := do
  let readIx ← load .readIx
  let writeIx ← load .writeIx
  return readIx ≠ writeIx

/-- `size()`. -/
def size : QProg Nat := load .msgCount

/-- The end of `enqueue`: update the writer head, then the message counter. -/
def publishAt (nextWriteIx : Nat) : QProg Bool := do
  store .writeIx nextWriteIx
  fetchAdd .msgCount 1
  return true

/-- `enqueue`. -/
def enqueue (q : SPSCQueue) (msg : Message) : QProg Bool := do
  assert (0 < msg.size)
  assert (msg.size ≤ q.maxPayloadSize)
  let totalSize := msg.totalSize
  let readIx ← load .readIx
  let writeIx ← load .writeIx
  let nextWriteIx := nextIndex writeIx totalSize
  -- check if we would cross the end of the buffer
  if nextWriteIx < q.bufferSize then
    -- check if we would cross the reader
    if writeIx < readIx ∧ readIx ≤ nextWriteIx then
      return false
    else
      memcpyTo (writeIx + 8) msg.payload
      memcpyTo writeIx (toLE 8 msg.size)
      publishAt nextWriteIx
  else
    let sentinelEnd := addW writeIx 8
    if writeIx < readIx ∧ readIx ≤ sentinelEnd then
      return false
    else
      let nextWriteIx := nextIndex 0 totalSize
      if readIx ≤ nextWriteIx then
        return false
      else
        memcpyTo 8 msg.payload
        memcpyTo 0 (toLE 8 msg.size)
        -- the zero-size sentinel that tells the reader to wrap
        memset writeIx 0 8
        publishAt nextWriteIx

/-- One pass over the body of `dequeue_begin`; `none` is the jump back to the start. -/
def dequeueBeginRound : QProg (Option MessageView) := do
  let readIx ← load .readIx
  let writeIx ← load .writeIx
  if readIx = writeIx then
    return some {}
  else
    let messageSize ← memcpySizeFrom readIx
    if messageSize = 0 then
      store .readIx 0
      return none
    else
      return some { payload := some (readIx + 8), size := messageSize, index := readIx }

/-- `dequeue_begin`, for at most `fuel` passes. -/
def dequeueBegin (fuel : Nat) : QProg (Option MessageView) :=
  Prog.iterate dequeueBeginRound fuel

/-- `dequeue_commit`. -/
def dequeueCommit (message : MessageView) : QProg Unit := do
  store .readIx (nextIndex message.index message.totalSize)
  fetchSub .msgCount 1

end SPSCQueue

end PosixIpc
