import TapeMachine.Numeral.Integer

/-!
# Written integers

The one way in which this library writes an integer: decimal digits without leading zeros, and a
minus sign in front of a negative one. Display tokens, tape lines and log lines all use it.

Writing has the limit of reading: an integer with more than `Numeral.maxDigits` digits is refused.
`Numeral.ofInt?` is for integers of any size. Cells, counts and positions are far below the limit,
and so is every integer that was read from a text, so `Numeral.ofInt` writes those.
-/

namespace TapeMachine

namespace Numeral

/-- The decimal digits of an integer, with a minus sign if it is negative. -/
def ofInt (n : Int) : String :=
  if n < 0 then "-" ++ n.natAbs.repr else n.natAbs.repr

/-- An integer has no more digits than may be written; the sign does not count. -/
def Writable (n : Int) : Prop :=
  (Nat.toDigits 10 n.natAbs).length ≤ maxDigits

instance (n : Int) : Decidable (Writable n) :=
  inferInstanceAs (Decidable (_ ≤ _))

/-- Writes an integer of any size. -/
def ofInt? (n : Int) : Option String :=
  if Writable n then some (ofInt n) else none

end Numeral

end TapeMachine
