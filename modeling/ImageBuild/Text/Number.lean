/-!
# `ImageBuild.Text.Number`: reading whole numbers

Numbers as archive fields and records spell them: digits of a base after an optional `+`, and
below `2 ^ 64`.
-/

set_option autoImplicit false

namespace ImageBuild.Text

/-- The first number that no 64-bit word holds, `2 ^ 64`. -/
def wordLimit : Nat := 0x10000000000000000

/-- The first number that no 64-bit word with sign holds, `2 ^ 63`. -/
def signedLimit : Nat := 0x8000000000000000

/-- Whether a 64-bit word with sign holds the number. -/
def isSigned (n : Int) : Bool := decide (-(signedLimit : Int) ≤ n ∧ n < signedLimit)

/-- The value of a digit. -/
def digitValue (base : Nat) (c : Char) : Option Nat :=
  if '0' ≤ c && c ≤ '9' && c.toNat - 48 < base then some (c.toNat - 48) else none

/-- The number that digits spell, after the digits that `n` stands for. -/
def readDigits (base : Nat) : (n : Nat) → List Char → Option Nat
  | n, [] => some n
  | n, c :: cs =>
    match digitValue base c with
    | some d => if base * n + d < wordLimit then readDigits base (base * n + d) cs else none
    | none => none

/-- The number below `2 ^ 64` that a text spells in a base up to ten. -/
def readWord (base : Nat) (cs : List Char) : Option Nat :=
  let digits := match cs with
    | '+' :: rest => rest
    | _ => cs
  if digits.isEmpty then none else readDigits base 0 digits

end ImageBuild.Text
