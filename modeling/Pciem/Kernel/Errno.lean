namespace Pciem.Kernel

/-- The error codes that the modelled functions return, negated, to their callers. -/
inductive Errno
  | enomem
  | enodev
  | einval
  | enotsupp
  | efault
  | ebusy
  | enoent
  | enospc
  | eacces
  | eagain
  | enxio
  | ealready
  deriving DecidableEq

end Pciem.Kernel
