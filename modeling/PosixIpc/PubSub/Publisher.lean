import PosixIpc.Posix.SharedMemory
import PosixIpc.Spsc.Queue

/-!
# Publishers

`PubSubConfig`, `QueueFullPolicy` and `Publisher` (`pubsub/PubSubConfig.hpp`, `pubsub/enums.hpp`,
`pubsub/Publisher.hpp`). A publisher owns its shared memory and its queue through pointers that are
null in a moved-from object. `last_drop_time` and `drop_count` are left out: nothing reads or writes
them.

`Publisher::from_config` opens the segment if there is one of the configured size, and otherwise
creates it; `recreate` is the latter half, with the object that was opened and did not fit.
-/

namespace PosixIpc

open Framework SysProg

/-- What to do with a message for a full queue. -/
inductive QueueFullPolicy where
  | dropNewest
  deriving DecidableEq, Repr

/-- The configuration of one subscription. The size is a `uint64_t`. -/
structure PubSubConfig where
  shmName : String
  storageSizeBytes : Nat
  storageSizeBytes_lt : storageSizeBytes < 2 ^ 64 := by decide
  queueFullPolicy : QueueFullPolicy := .dropNewest
  logMessageDrop : Bool := true
  deriving DecidableEq

/-- The shared memory object a configuration is about. -/
def PubSubConfig.object (config : PubSubConfig) : String := shmObject config.shmName

/-- A queue object: the address of its storage, and what it has computed from it. -/
structure QueueAt where
  storage : Nat
  handle : SPSCQueue
  deriving DecidableEq, Repr

/-- A publisher. -/
structure Publisher where
  config : PubSubConfig
  shm : Option SharedMemory
  queue : Option QueueAt
  deriving DecidableEq

namespace Publisher

/-- The end of `from_config`: a queue on the storage at the start of the mapping. -/
def onStorage (config : PubSubConfig) (shm : SharedMemory) :
    SysProg (Except PosixIpcError Publisher) := do
  let s ← storage shm.shmPtr
  return .ok { config, shm := some shm, queue := some ⟨shm.shmPtr, SPSCQueue.construct s⟩ }

/-- Destroy what a pointer owns. -/
def release : Option SharedMemory → SysProg Unit
  | none => .ret ()
  | some shm => shm.destroy

/-- Create the segment anew. The object that was open before goes when its pointer is assigned or
the function returns; the result of `open_or_create` goes, moved from, after that. -/
def recreate (config : PubSubConfig) (old : Option SharedMemory) :
    SysProg (Except PosixIpcError Publisher) := do
  match ← SharedMemory.openOrCreate config.shmName config.storageSizeBytes true with
  | .error e =>
    release old
    return .error e
  | .ok res =>
    release old
    let shm ← res.moveOut
    construct shm.shmPtr shm.size
    onStorage config shm

/-- `Publisher::from_config`. -/
def fromConfig (config : PubSubConfig) : SysProg (Except PosixIpcError Publisher) := do
  if ← SharedMemory.exists config.shmName then
    match ← SharedMemory.open config.shmName with
    | .error e => return .error e
    | .ok res =>
      let shm ← res.moveOut
      if config.storageSizeBytes ≠ shm.size then recreate config (some shm)
      else onStorage config shm
  else
    recreate config none

/-- The move assignment: the object assigned to lets go of its own memory first, and the other one
keeps its configuration but no memory and no queue. -/
def moveAssign (dst src : Publisher) : Publisher × Publisher × Option SharedMemory :=
  ({ config := src.config, shm := src.shm, queue := src.queue },
   { config := src.config, shm := none, queue := none }, dst.shm)

end Publisher

end PosixIpc
