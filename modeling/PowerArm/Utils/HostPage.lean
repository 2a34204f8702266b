import Mathlib

/-!
# The host's page

`FEXCore::HostPage`: a power of two, and the rounding of 64-bit addresses to it.
-/

namespace PowerArm

structure HostPage where
  shift : Nat
  shift_le : shift ≤ 64

namespace HostPage
variable (page : HostPage)

def size : Nat := 2 ^ page.shift

def alignDown (value : Nat) : Nat := value / page.size * page.size

def alignUp (value : Nat) : Nat := page.alignDown ((value + page.size - 1) % 2 ^ 64)

theorem size_pos : 0 < page.size := Nat.two_pow_pos _

end HostPage

def page64K : HostPage := ⟨16, by decide⟩

end PowerArm
