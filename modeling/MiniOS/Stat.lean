import Mathlib.Init

/-!
# File types

Those of `sys/stat.h` that the modelled calls look at.
-/

namespace MiniOS

def sIfmt : Nat := 0o170000

def sIfreg : Nat := 0o100000

def sIfdir : Nat := 0o40000

def sIsdir (mode : Nat) : Bool := mode &&& sIfmt = sIfdir

end MiniOS
