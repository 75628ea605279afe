import PosixIpc.PubSub.Publisher

/-!
# The set of publishers

`PubSub` (`pubsub/PubSub.hpp`): `sync_configs`, `publish` and the changes between them. A sync first
queues the removals, then creates a publisher for each new configuration and queues its addition,
and applies the queue at the end. If a publisher cannot be created it returns at once; what was
queued so far stays in the queue.

The lock is left out: one thread calls these functions here, and they hold it from the first
statement to the last.

Erasing from the vector moves every publisher behind the erased one a place forward, through the
hand-written move assignment, and destroys the last object. `eraseFrom_eq` is what this comes to:
the memory of the erased publisher is released, and the others are where they were, less one.
-/

namespace PosixIpc

open Framework SysProg

/-- A change that has been decided on. -/
structure PubSubChange where
  addition : Option Publisher := none
  removal : Option String := none

/-- The publishers and the changes that are pending. -/
structure PubSub where
  publishers : List Publisher := []
  changeQueue : List PubSubChange := []

/-- `Publisher::publish`. -/
def Publisher.publish (p : Publisher) (val : Message) : SysProg Bool :=
  match p.queue with
  | some q => through q.storage (q.handle.enqueue val)
  | none =>
    -- moved from: the queue is looked for behind the null pointer
    .step (.storage 0) fun s => through 0 ((SPSCQueue.construct s).enqueue val)

/-- `Publisher::is_empty`. -/
def Publisher.isEmpty (p : Publisher) : SysProg Bool :=
  match p.queue with
  | some q => through q.storage SPSCQueue.isEmpty
  | none => through 0 SPSCQueue.isEmpty

namespace PubSub

/-- The end of `vector::erase`: `dst` is assigned to from the next object, and so on to the last
one, which is destroyed. -/
def eraseFrom (dst : Publisher) : List Publisher → SysProg (List Publisher)
  | [] => do
    Publisher.release dst.shm
    return []
  | src :: rest => do
    let (dst', src', old) := dst.moveAssign src
    Publisher.release old
    let rest' ← eraseFrom src' rest
    return dst' :: rest'

/-- `find_if` on the name and `erase`. -/
def eraseName (name : String) : List Publisher → SysProg (List Publisher)
  | [] => return []
  | p :: rest =>
    if p.config.shmName = name then eraseFrom p rest
    else do
      let rest' ← eraseName name rest
      return p :: rest'

/-- `apply_change`. -/
def applyChange (change : PubSubChange) (publishers : List Publisher) :
    SysProg (List Publisher) :=
  match change.addition with
  | some p => return publishers ++ [p]
  | none =>
    match change.removal with
    | some name => eraseName name publishers
    | none => return publishers

/-- The loop of `apply_changes`. -/
def applyAll : List PubSubChange → List Publisher → SysProg (List Publisher)
  | [], publishers => return publishers
  | change :: rest, publishers => do
    let publishers' ← applyChange change publishers
    applyAll rest publishers'

/-- `apply_changes`. -/
def applyChanges (x : PubSub) : SysProg PubSub := do
  let publishers ← applyAll x.changeQueue x.publishers
  return { publishers, changeQueue := [] }

/-- Whether a publisher's name is among the configurations. -/
def isConfigured (configs : List PubSubConfig) (p : Publisher) : Bool :=
  configs.any fun cfg => p.config.shmName = cfg.shmName

/-- Whether there is a publisher for a configuration. -/
def isPublished (publishers : List Publisher) (cfg : PubSubConfig) : Bool :=
  publishers.any fun p => p.config.shmName = cfg.shmName

/-- The removals of the first loop of `sync_configs`. -/
def removals (configs : List PubSubConfig) : List Publisher → List PubSubChange
  | [] => []
  | p :: rest =>
    if isConfigured configs p then removals configs rest
    else { removal := some p.config.shmName } :: removals configs rest

/-- The first loop of `sync_configs`. -/
def queueRemovals (configs : List PubSubConfig) (x : PubSub) : PubSub :=
  { x with changeQueue := x.changeQueue ++ removals configs x.publishers }

/-- The second loop of `sync_configs`. -/
def queueAdditions : List PubSubConfig → PubSub → SysProg (Except PosixIpcError Unit × PubSub)
  | [], x => return (.ok (), x)
  | cfg :: rest, x => do
    if isPublished x.publishers cfg then queueAdditions rest x
    else
      match ← Publisher.fromConfig cfg with
      | .error e => return (.error e, x)
      | .ok p =>
        queueAdditions rest { x with changeQueue := x.changeQueue ++ [{ addition := some p }] }

/-- `sync_configs`. -/
def syncConfigs (configs : List PubSubConfig) (x : PubSub) :
    SysProg (Except PosixIpcError Unit × PubSub) := do
  match ← queueAdditions configs (x.queueRemovals configs) with
  | (.error e, x') => return (.error e, x')
  | (.ok _, x') =>
    let x'' ← applyChanges x'
    return (.ok (), x'')

/-- The loop of `publish`. -/
def publishAll (val : Message) : List Publisher → Bool → SysProg Bool
  | [], published => return published
  | p :: rest, published => do
    let ok ← p.publish val -- drops messages if queue is full
    publishAll val rest (published && ok)

/-- `publish`. -/
def publish (x : PubSub) (val : Message) : SysProg Bool := publishAll val x.publishers true

/-- The publishers among the changes that are pending. -/
def pending (x : PubSub) : List Publisher := x.changeQueue.filterMap PubSubChange.addition

/-- The names of the publishers. -/
def names (x : PubSub) : List String := x.publishers.map fun p => p.config.shmName

/-- The shared memory objects the names of the publishers stand for. -/
def objects (x : PubSub) : List String := x.publishers.map fun p => p.config.object

/-! ### Erasing -/

/-- **Erasing** releases the memory of the erased publisher, and that of no other one. -/
theorem eraseFrom_eq (p : Publisher) (rest : List Publisher) :
    eraseFrom p rest = (Publisher.release p.shm >>= fun _ => .ret rest) := by
  induction rest generalizing p with
  | nil => rfl
  | cons src rest ih =>
    -- the object assigned from has no memory left to release
    have hmoved : eraseFrom { config := src.config, shm := none, queue := none } rest =
        .ret rest := ih _
    change (Publisher.release p.shm >>= fun _ =>
      eraseFrom { config := src.config, shm := none, queue := none } rest >>= fun rest' =>
        .ret (src :: rest')) = _
    rw [hmoved]
    rfl

end PubSub

end PosixIpc
