/-!
# `Status`

The kernel's error-reporting type (`uapi/status.h`).
-/

namespace Bongos

/-- `Status`: `STATUS_OK` or one of the error codes. -/
inductive Status where
  | ok
  | errInvalid
  | errNotFound
  | errNoMemory
  | errUnsupported
  deriving DecidableEq

end Bongos
