import Mathlib.Init

/-!
# Error numbers

Those of `errno.h` that the modelled calls return.
-/

namespace MiniOS

def enoent : Int := 2

def enoexec : Int := 8

def ebadf : Int := 9

def enomem : Int := 12

def eacces : Int := 13

def efault : Int := 14

def eexist : Int := 17

def einval : Int := 22

def enfile : Int := 23

def emfile : Int := 24

def enospc : Int := 28

def ebadp : Int := 35

def enothing : Int := 36

def emproc : Int := 37

def error : Int := 99

end MiniOS
