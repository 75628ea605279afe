/-!
# Error codes and errors

`PosixIpcErrorCode` and `PosixIpcError` (`errors.hpp`). The source location an error carries is
left out: no function of the library reads it.
-/

namespace PosixIpc

/-- Error codes of the library. -/
inductive PosixIpcErrorCode where
  | success
  | shmOpenFailed
  | shmFstatFailed
  | shmTruncateFailed
  | shmMmapFailed
  | shmUnlinkFailed
  | threadSetAffinityFailed
  | threadSetNameFailed
  | pubsubInvalidQueueFullPolicy
  | pubsubShmSizeMismatch
  | spscStorageError
  deriving DecidableEq, Repr

/-- The error of `std::expected` results. -/
structure PosixIpcError where
  code : PosixIpcErrorCode
  message : String
  deriving DecidableEq, Repr

end PosixIpc
