/-!
# `ImageBuild.Text.Seconds`: milliseconds as seconds with one decimal

A number of milliseconds is divided by 1000 in binary floating point of 53 bits, and the exact
value of the quotient is then rounded to one decimal. Ties go to the even neighbour both times,
so 250 is `0.2` and 750 is `0.8`, and 350 is `0.3` because its quotient lies below 0.35.
-/

set_option autoImplicit false

namespace ImageBuild.Text

/-- The whole number nearest to a quotient; of two equally near ones the even one. -/
def roundEven (n d : Nat) : Nat :=
  let q := n / d
  let r := n % d
  if 2 * r < d then q
  else if d < 2 * r then q + 1
  else q + q % 2

/-- How many bits a floating-point number has. -/
def precision : Nat := 53

/-- The nearest number with at most `precision` significant bits. -/
def roundToPrecision (n : Nat) : Nat :=
  let extra := n.log2 + 1 - precision
  roundEven n (1 <<< extra) <<< extra

/-- The quotient of a positive number and 1000 as `m / 2 ^ s`, rounded to `precision` bits. -/
def thousandth (n : Nat) : Nat × Nat :=
  let s := 62 - n.log2
  let s := if 1000 <<< precision ≤ n <<< s then s - 1 else s
  (roundEven (n <<< s) 1000, s)

/-- Milliseconds as seconds with one decimal. -/
def secondsText (millis : Nat) : String :=
  let (m, s) := thousandth (roundToPrecision millis)
  let tenths := if millis = 0 then 0 else roundEven (10 * m) (1 <<< s)
  toString (tenths / 10) ++ "." ++ toString (tenths % 10)

example : secondsText 250 = "0.2" ∧ secondsText 350 = "0.3" ∧ secondsText 1250 = "1.2" := by
  decide +kernel

end ImageBuild.Text
