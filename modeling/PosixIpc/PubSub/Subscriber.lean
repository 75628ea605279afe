import PosixIpc.PubSub.Publisher

/-!
# Subscribers

`Subscriber` (`pubsub/Subscriber.hpp`). `Subscriber::from_config` never creates the segment: it has
to be there, to be of the configured size and to pass the checks of `SPSCStorage::map`.
-/

namespace PosixIpc

open Framework SysProg

/-- A subscriber. -/
structure Subscriber where
  config : PubSubConfig
  shm : SharedMemory
  queue : QueueAt
  deriving DecidableEq

namespace Subscriber

/-- `SPSCStorage::map` on a mapping. The header is read only after the checks on the pointer and
the length. -/
def mapStorage (ptr len : Nat) : SysProg (Except PosixIpcError SPSCStorage) :=
  if ptr = 0 ∨ len < SPSCStorage.bufferOffset ∨ ptr % spscCacheLineSize ≠ 0 then
    .ret (SPSCStorage.map ptr len (SPSCStorage.construct len fun _ => 0))
  else do
    let s ← storage ptr
    return SPSCStorage.map ptr len s

/-- The segment is not there. -/
def missingError (config : PubSubConfig) : PosixIpcError :=
  ⟨.shmOpenFailed, "Cannot create PubSub subscriber, shared memory [" ++ config.shmName ++
    "] does not exist."⟩

/-- The segment has another size. -/
def mismatchError (config : PubSubConfig) (size : Nat) : PosixIpcError :=
  ⟨.pubsubShmSizeMismatch, "Shared memory [" ++ config.shmName ++ "] size mismatch, expected " ++
    toString config.storageSizeBytes ++ ", got " ++ toString size ++ "."⟩

/-- The end of `from_config`: check the size and the header. -/
def onMemory (config : PubSubConfig) (shm : SharedMemory) :
    SysProg (Except PosixIpcError Subscriber) := do
  if config.storageSizeBytes ≠ shm.size then
    shm.destroy
    return .error (mismatchError config shm.size)
  else
    match ← mapStorage shm.shmPtr shm.size with
    | .error e =>
      shm.destroy
      return .error e
    | .ok s => return .ok { config, shm, queue := ⟨shm.shmPtr, SPSCQueue.construct s⟩ }

/-- `Subscriber::from_config`. The result of `open` is destroyed, moved from, when the function
returns. -/
def fromConfig (config : PubSubConfig) : SysProg (Except PosixIpcError Subscriber) := do
  if ← SharedMemory.exists config.shmName then
    match ← SharedMemory.open config.shmName with
    | .error e => return .error e
    | .ok res =>
      let r ← onMemory config res.moveConstruct.1
      res.moveConstruct.2.destroy
      return r
  else
    return .error (missingError config)

/-- `dequeue_begin`; two rounds decide. -/
def dequeueBegin (s : Subscriber) : SysProg (Option MessageView) :=
  through s.queue.storage (SPSCQueue.dequeueBegin 2)

/-- `dequeue_commit`. -/
def dequeueCommit (s : Subscriber) (message : MessageView) : SysProg Unit :=
  through s.queue.storage (SPSCQueue.dequeueCommit message)

def isEmpty (s : Subscriber) : SysProg Bool := through s.queue.storage SPSCQueue.isEmpty

def canDequeue (s : Subscriber) : SysProg Bool := through s.queue.storage SPSCQueue.canDequeue

/-- The destructor: the queue object holds no handle. -/
def destroy (s : Subscriber) : SysProg Unit := s.shm.destroy

end Subscriber

end PosixIpc
