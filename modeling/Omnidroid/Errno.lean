/-
The errors of system calls (`omni-linux/src/errno.rs`): Linux's numbers.
-/
import Mathlib.Data.Nat.Notation

namespace Omnidroid

structure Errno where
  code : ℕ
deriving DecidableEq, Repr

def EPERM : Errno := ⟨1⟩
def ENOENT : Errno := ⟨2⟩
def EINTR : Errno := ⟨4⟩
def EIO : Errno := ⟨5⟩
def EAGAIN : Errno := ⟨11⟩
def ENOMEM : Errno := ⟨12⟩
def EFAULT : Errno := ⟨14⟩
def EBUSY : Errno := ⟨16⟩
def EEXIST : Errno := ⟨17⟩
def EINVAL : Errno := ⟨22⟩
def EPIPE : Errno := ⟨32⟩
def EDEADLK : Errno := ⟨35⟩
def ENOSYS : Errno := ⟨38⟩
def ETIMEDOUT : Errno := ⟨110⟩

end Omnidroid
