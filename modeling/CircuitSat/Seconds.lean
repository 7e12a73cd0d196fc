/-! # Durations in seconds

A time bound is a binary64 number of seconds, held as its 64-bit pattern. It is stored, compared and
turned into whole nanoseconds, all of it in exact integer arithmetic.
-/

namespace CircuitSat

/-- A binary64 number, as its bit pattern. -/
structure Seconds where
  bits : UInt64
deriving DecidableEq, Repr

namespace Seconds

def signBit (seconds : Seconds) : Bool := (1 <<< 63) ≤ seconds.bits.toNat

def exponent (seconds : Seconds) : Nat := (seconds.bits.toNat >>> 52) % 2048

def fraction (seconds : Seconds) : Nat := seconds.bits.toNat % (1 <<< 52)

def isFinite (seconds : Seconds) : Bool := seconds.exponent < 2047

def isNaN (seconds : Seconds) : Bool := !seconds.isFinite && seconds.fraction ≠ 0

/-- Either zero, whatever its sign. -/
def isZero (seconds : Seconds) : Bool := seconds.exponent = 0 && seconds.fraction = 0

/-- Numeric equality: not-a-number differs from itself, and both zeros are equal. -/
instance : BEq Seconds where
  beq left right :=
    !left.isNaN && !right.isNaN && (left.bits = right.bits || left.isZero && right.isZero)

/-- Whether the number can bound anything: it is finite and not below zero. -/
def isBound (seconds : Seconds) : Bool :=
  seconds.isFinite && (!seconds.signBit || seconds.isZero)

/-- The magnitude is `significand * 2 ^ (scale - 1075)`. -/
def significand (seconds : Seconds) : Nat :=
  if seconds.exponent = 0 then seconds.fraction else (1 <<< 52) + seconds.fraction

def scale (seconds : Seconds) : Nat := max seconds.exponent 1

/-- The quotient rounded to the nearest integer, a half to the even neighbour. -/
def divideToEven (numerator denominator : Nat) : Nat :=
  let quotient := numerator / denominator
  let remainder := numerator % denominator
  if denominator < 2 * remainder || denominator = 2 * remainder && quotient % 2 = 1 then
    quotient + 1
  else
    quotient

/-- The nearest number of nanoseconds; none if the whole seconds do not fit into 64 bits. -/
def nanoseconds? (seconds : Seconds) : Option Nat :=
  if !seconds.isBound then none
  else
    let scaled := seconds.significand * 1000000000
    let nanoseconds :=
      if seconds.scale < 1075 then divideToEven scaled (1 <<< (1075 - seconds.scale))
      else scaled <<< (seconds.scale - 1075)
    if nanoseconds / 1000000000 < UInt64.size then some nanoseconds else none

end Seconds

end CircuitSat
