import MultiPython.Mpz.Mpn

/-!
# Big integers

The `mpz` functions of `py/mpz.c`: a sign and an array of digits. A destination that a function
only overwrites in part is an argument of it, since what stays in the destination is part of the
result.
-/

namespace MultiPython.Mpz

open Logic

structure MpzT where
  /-- `neg`. -/
  neg : Bool
  /-- `dig`, the first `len` of them. -/
  dig : List Nat
deriving DecidableEq, Repr

variable (config : MpzConfig)

/-- The integer that a big integer stands for. -/
def MpzT.value (z : MpzT) : Int :=
  if z.neg then -(Nat.ofDigits config.digBase z.dig : Nat) else (Nat.ofDigits config.digBase z.dig : Nat)

/-- The one form in which an integer is meant to be kept. -/
structure Canonical (z : MpzT) : Prop where
  digits : AreDigits config.digBase z.dig
  normal : Normal z.dig
  sign : z.neg = true → z.dig ≠ []

end MultiPython.Mpz
