import PosixIpc.Posix.Kernel

/-!
# Shared memory objects

`SharedMemory` (`SharedMemory.hpp`) as programs over the system calls, with their error paths:
`open_or_create`, `open`, `exists` and the destructor. `open_or_create` is cut at its two natural
joints, the choice of the size (`sized`) and the mapping (`mapped`).

`exists` finds out whether a name is bound by creating it exclusively and unlinking it again. Its
test for success is `shm_fd > 0`, so a probe that gets descriptor 0 is taken for a failure whose
`errno` is not `EEXIST`: it answers `false` as well, but leaves the name bound.

Objects are moved on their way to the caller, and what they leave behind is destroyed (`moveOut`).
The move sets descriptor and pointer to -1 and null, but leaves the size: the destructor then calls
`munmap(nullptr, size)`, which unmaps the pages from the null page on, should there be any mappings
there.
-/

namespace PosixIpc

open Framework SysProg

/-- A shared memory object, open and mapped. -/
structure SharedMemory where
  shmName : String
  size : Nat
  shmFd : Int
  shmPtr : Nat
  created : Bool
  deriving DecidableEq, Repr

namespace SharedMemory

/-- The end of the messages about a failed call. -/
def errnoText (e : Errno) : String :=
  "strerror=" ++ e.strerror ++ ", errno=" ++ toString e.code

/-- `shm_open` failed. The two messages differ in the separator before `strerror`. -/
def openError (name : String) (size : Nat) (create : Bool) (separator : String) (e : Errno) :
    PosixIpcError :=
  ⟨.shmOpenFailed, "name=" ++ name ++ ", create=" ++ toString create ++ ", size=" ++
    toString size ++ separator ++ errnoText e⟩

/-- The size to create is zero. -/
def sizeError (name : String) (size : Nat) : PosixIpcError :=
  ⟨.shmOpenFailed, "Shared memory [" ++ name ++ "] size parameter must be greater than 0, got " ++
    toString size ++ "."⟩

/-- A call on the open descriptor failed. -/
def callError (code : PosixIpcErrorCode) (name : String) (e : Errno) : PosixIpcError :=
  ⟨code, "name=" ++ name ++ ", " ++ errnoText e⟩

/-! ### Moving and destroying -/

/-- The move constructor: the new object, and what is left of the other one. A string that was moved
from is empty. -/
def moveConstruct (other : SharedMemory) : SharedMemory × SharedMemory :=
  (⟨other.shmName, other.size, other.shmFd, other.shmPtr, other.created⟩,
    { other with shmName := "", shmFd := -1, shmPtr := 0 })

/-- The move assignment from another object. -/
def moveAssign (this other : SharedMemory) : SharedMemory × SharedMemory :=
  ({ this with shmName := other.shmName, size := other.size, shmFd := other.shmFd,
               shmPtr := other.shmPtr, created := other.created },
    { other with shmName := "", shmFd := -1, shmPtr := 0 })

/-- The destructor. -/
def destroy (shm : SharedMemory) : SysProg Unit := do
  munmap shm.shmPtr shm.size
  if shm.created then
    shmUnlink shm.shmName
    close shm.shmFd
  else
    close shm.shmFd

/-- Move an object out of a place that is destroyed afterwards. -/
def moveOut (shm : SharedMemory) : SysProg SharedMemory := do
  shm.moveConstruct.2.destroy
  return shm.moveConstruct.1

/-! ### Opening -/

/-- The last part of `open_or_create`: map `size` bytes. The object is moved into the result. -/
def mapped (name : String) (size : Nat) (fd : Nat) :
    SysProg (Except PosixIpcError SharedMemory) := do
  match ← mmap size fd with
  | .error e =>
    close fd
    return .error (callError .shmMmapFailed name e)
  | .ok ptr =>
    let shm ← moveOut { shmName := name, size, shmFd := fd, shmPtr := ptr, created := false }
    return .ok shm

/-- The middle part of `open_or_create`: give a new object its size, or look up the size of an
existing one. -/
def sized (name : String) (size : Nat) (create : Bool) (fd : Nat) :
    SysProg (Except PosixIpcError SharedMemory) := do
  if create then
    if size = 0 then
      return .error (sizeError name size)
    else
      match ← ftruncate fd size with
      | .error e =>
        close fd
        return .error (callError .shmTruncateFailed name e)
      | .ok _ => mapped name size fd
  else
    match ← fstat fd with
    | .error e =>
      close fd
      return .error (callError .shmFstatFailed name e)
    | .ok stSize => mapped name stSize fd

/-- The flags of the first `shm_open`. -/
def openFlags (create : Bool) : OpenFlags :=
  if create then { creat := true, excl := true, trunc := true } else {}

/-- `open_or_create`. -/
def openOrCreate (name : String) (size : Nat) (create : Bool) :
    SysProg (Except PosixIpcError SharedMemory) := do
  match ← shmOpen name (openFlags create) with
  | .ok fd => sized name size create fd
  | .error e =>
    if e = .eexist then
      -- open it without `O_EXCL`, it exists already
      match ← shmOpen name { openFlags create with excl := false } with
      | .ok fd => sized name size create fd
      | .error e' => return .error (openError name size create ": " e')
    else
      return .error (openError name size create ", " e)

/-- `open`. -/
def «open» (name : String) : SysProg (Except PosixIpcError SharedMemory) :=
  openOrCreate name 0 false

/-- `exists`. -/
def «exists» (name : String) : SysProg Bool := do
  match ← shmOpen name { creat := true, excl := true } with
  | .ok fd =>
    if 0 < fd then
      close fd
      shmUnlink name
      return false
    else
      -- `errno` is still zero
      return false
  | .error e => return e = .eexist

end SharedMemory

end PosixIpc
