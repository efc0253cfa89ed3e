import Mathlib.Tactic.Common

/-!
# Argument directions and specifications

`ArgDirection` is an enumeration over `uint8_t`: besides its three enumerators it can hold every
other byte, which is what a cast from a report's integer gives it.
-/

namespace Ephippion

structure ArgDirection where
  val : BitVec 8
  deriving DecidableEq, Repr

namespace ArgDirection

def inbound : ArgDirection := ⟨1⟩
def outbound : ArgDirection := ⟨2⟩
def both : ArgDirection := ⟨inbound.val ||| outbound.val⟩

end ArgDirection

def toInt (ad : ArgDirection) : BitVec 32 := ad.val.setWidth 32

def isInbound (ad : ArgDirection) : Bool := toInt ad &&& toInt .inbound != 0

def isOutbound (ad : ArgDirection) : Bool := toInt ad &&& toInt .outbound != 0

def isOnlyOutbound (ad : ArgDirection) : Bool :=
  toInt ad &&& toInt .outbound != 0 && !(toInt ad &&& toInt .inbound != 0)

theorem isOnlyOutbound_eq (ad : ArgDirection) :
    isOnlyOutbound ad = (isOutbound ad && !isInbound ad) := rfl

structure ArgSpec where
  name : String
  direction : ArgDirection
  iteratorDependent : Bool
  deriving DecidableEq, Repr

/-- What a parameter without a specification gets. -/
def ArgSpec.default : ArgSpec := ⟨"", .inbound, false⟩

end Ephippion
