/-!
# `Kernel.Errno` — error numbers and limits

The constants of `types.h`, and `PID_MAX`, that more than one part of the kernel uses. A system call returns its error number negated,
so that a result is an error exactly when it is negative; the layers below return it the same way.

Limits and numbers that only one module needs stand in that module.
-/

namespace MyUnix

/-- `PATH_MAX`: the room for a path, its zero included. -/
def pathMax : Nat := 4096

/-- `NAME_MAX`: the longest name of a directory entry, without its zero. -/
def nameMax : Nat := 255

/-- `PID_MAX`: pids are below it. -/
def pidMax : Nat := 65536

/-- `ESRCH`. -/
def esrch : Int := 3

/-- `EINTR`. -/
def eintr : Int := 4

/-- `E2BIG`. -/
def e2big : Int := 7

/-- `ENOEXEC`. -/
def enoexec : Int := 8

/-- `EBADF`. -/
def ebadf : Int := 9

/-- `ENOMEM`. -/
def enomem : Int := 12

/-- `EFAULT`. -/
def efault : Int := 14

/-- `ENOTDIR`. -/
def enotdir : Int := 20

/-- `EISDIR`. -/
def eisdir : Int := 21

/-- `EINVAL`. -/
def einval : Int := 22

/-- `EMFILE`. -/
def emfile : Int := 24

/-- `ENOTTY`. -/
def enotty : Int := 25

/-- `ENOSPC`. -/
def enospc : Int := 28

/-- `EPIPE`. -/
def epipe : Int := 32

end MyUnix
