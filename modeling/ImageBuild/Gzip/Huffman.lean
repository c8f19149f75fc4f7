/-!
# `ImageBuild.Gzip.Huffman`: canonical prefix codes

A canonical code is given by the code length of each symbol: codes of one length are consecutive
numbers in symbol order, and the first of a length follows the last of the length before it. A
decoder needs only how many codes each length has and the symbols in that order.
-/

set_option autoImplicit false

namespace ImageBuild.Gzip

/-- The longest code. -/
def maxCodeLength : Nat := 15

/-- A canonical prefix code. -/
structure HuffmanCode where
  /-- How many symbols have a code of each length from 1 on. -/
  counts : List Nat
  /-- The symbols, by code length and then by number. -/
  symbols : Array Nat
  deriving Repr

namespace HuffmanCode

/-- The symbols whose code has this length. -/
def symbolsOfLength (lengths : List Nat) (length : Nat) : List Nat :=
  lengths.zipIdx.filterMap fun entry => if entry.1 = length then some entry.2 else none

/-- The part of all codes of full length that a code takes up, in units of the shortest. -/
def coverage (counts : List Nat) : Nat := counts.foldl (fun sum n => 2 * sum + n) 0

/-- The longest length that some symbol has; `0` if there is none. -/
def longest (lengths : List Nat) : Nat := lengths.foldl max 0

/-- Whether no bits are left over: every sequence of bits begins with a code. -/
def isComplete (counts : List Nat) : Bool := coverage counts == 1 <<< maxCodeLength

/-- Whether at most one symbol has a code, and that is a single bit. -/
def isTrivial (lengths : List Nat) : Bool := decide (lengths.foldl (· + ·) 0 ≤ 1)

/-- The code with these lengths, `0` for a symbol without one. Codes that collide or leave a gap
are refused, except that a trivial one may leave a gap if it `mayLeaveGap`. Decoding looks at one
bit at least. -/
def ofLengths? (mayLeaveGap : Bool) (lengths : List Nat) : Option HuffmanCode :=
  let groups := (List.range maxCodeLength).map fun n => symbolsOfLength lengths (n + 1)
  let counts := groups.map List.length
  if isComplete counts || mayLeaveGap && isTrivial lengths then
    some ⟨counts.take (max 1 (longest lengths)), groups.flatten.toArray⟩
  else none

/-- The code of the literals and lengths that a block may use without describing it. -/
def fixedLiteral : HuffmanCode :=
  (ofLengths? false (List.replicate 144 8 ++ List.replicate 112 9 ++ List.replicate 24 7 ++
    List.replicate 8 8)).getD ⟨[], #[]⟩

/-- The code of the distances that goes with it. -/
def fixedDistance : HuffmanCode := (ofLengths? false (List.replicate 32 5)).getD ⟨[], #[]⟩

end HuffmanCode
end ImageBuild.Gzip
