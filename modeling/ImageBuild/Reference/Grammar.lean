/-!
# `ImageBuild.Reference.Grammar`: the parts of image references

Recognisers for the parts of `domain/path:tag@digest`, over lists of characters. All classes are
ASCII: no other letter or digit is ever accepted.

* a path is components with `/` between them; a component is runs of lower-case letters and digits
  joined by one `.`, one or two `_`, or any number of `-`;
* a tag is 1 to 128 letters, digits, `_`, `.`, `-`, and starts with none of the last two;
* a digest is an algorithm, `:` and at least 32 hexadecimal digits;
* a domain is host components joined by `.`, or an address in brackets, and perhaps `:` and a
  number.
-/

set_option autoImplicit false

namespace ImageBuild.Reference.Grammar

def isDigit (c : Char) : Bool := '0' ≤ c && c ≤ '9'

def isLower (c : Char) : Bool := 'a' ≤ c && c ≤ 'z'

def isUpper (c : Char) : Bool := 'A' ≤ c && c ≤ 'Z'

def isLetter (c : Char) : Bool := isLower c || isUpper c

def isAlnum (c : Char) : Bool := isLetter c || isDigit c

def isLowerAlnum (c : Char) : Bool := isLower c || isDigit c

def isHex (c : Char) : Bool := isDigit c || ('a' ≤ c && c ≤ 'f') || ('A' ≤ c && c ≤ 'F')

def isLowerHex (c : Char) : Bool := isDigit c || ('a' ≤ c && c ≤ 'f')

/-- The characters that join the runs of a path component. -/
def isJoiner (c : Char) : Bool := c == '.' || c == '_' || c == '-'

/-- What may stand between two runs. -/
def isSeparator (cs : List Char) : Bool :=
  cs == ['.'] || cs == ['_'] || cs == ['_', '_'] || (!cs.isEmpty && cs.all (· == '-'))

/-- What is left once a run was taken off the front is shorter. -/
theorem length_dropWhile_lt {α : Type} (p : α → Bool) (xs : List α)
    (h : (xs.takeWhile p).isEmpty = false) : (xs.dropWhile p).length < xs.length := by
  have hlength := congrArg List.length (List.takeWhile_append_dropWhile (p := p) (l := xs))
  have hpos := List.length_pos_iff.mpr (List.isEmpty_eq_false_iff.mp h)
  rw [List.length_append] at hlength
  omega

/-- Whether the characters are one component of a path. -/
def isPathComponent (cs : List Char) : Bool :=
  if _h : (cs.takeWhile isLowerAlnum).isEmpty then false
  else
    let rest := cs.dropWhile isLowerAlnum
    rest.isEmpty ||
      (isSeparator (rest.takeWhile isJoiner) && isPathComponent (rest.dropWhile isJoiner))
  termination_by cs.length
  decreasing_by
    have hrun := length_dropWhile_lt isLowerAlnum cs (by simpa using _h)
    have hjoiner := (cs.dropWhile isLowerAlnum).dropWhile_sublist isJoiner |>.length_le
    omega

/-- Whether the characters are a path. -/
def isPath (cs : List Char) : Bool := (cs.splitOn '/').all isPathComponent

def isTagStart (c : Char) : Bool := isAlnum c || c == '_'

def isTagChar (c : Char) : Bool := isTagStart c || c == '.' || c == '-'

/-- The longest tag. -/
def tagLimit : Nat := 128

/-- Whether the characters are a tag. -/
def isTag : List Char → Bool
  | [] => false
  | c :: rest => isTagStart c && rest.all isTagChar && rest.length < tagLimit

/-- The characters that join the parts of an algorithm's name. -/
def isAlgorithmJoiner (c : Char) : Bool := c == '-' || c == '_' || c == '+' || c == '.'

/-- Whether the characters are one part of an algorithm's name. -/
def isAlgorithmPart : List Char → Bool
  | [] => false
  | c :: rest => isLetter c && rest.all isAlnum

/-- Whether the characters name a digest algorithm. -/
def isAlgorithm (cs : List Char) : Bool := (cs.splitOnP isAlgorithmJoiner).all isAlgorithmPart

/-- The fewest hexadecimal digits of a digest. -/
def digestFloor : Nat := 32

/-- Whether the characters are a digest. -/
def isDigest (cs : List Char) : Bool :=
  match cs.dropWhile (· != ':') with
  | _ :: hex => isAlgorithm (cs.takeWhile (· != ':')) && hex.all isHex && digestFloor ≤ hex.length
  | [] => false

/-- Whether the characters are one component of a host name. -/
def isHostComponent (cs : List Char) : Bool :=
  cs.all (fun c => isAlnum c || c == '-') &&
    (cs.head?.map isAlnum).getD false && (cs.getLast?.map isAlnum).getD false

/-- Whether the characters are nothing, or `:` and a number. -/
def isPortSuffix : List Char → Bool
  | [] => true
  | c :: digits => c == ':' && !digits.isEmpty && digits.all isDigit

/-- Whether the characters are a domain. -/
def isDomain : List Char → Bool
  | '[' :: rest =>
    let address := rest.takeWhile (· != ']')
    match rest.dropWhile (· != ']') with
    | _ :: rest =>
      !address.isEmpty && address.all (fun c => isHex c || c == ':') && isPortSuffix rest
    | [] => false
  | cs =>
    ((cs.takeWhile (· != ':')).splitOn '.').all isHostComponent &&
      isPortSuffix (cs.dropWhile (· != ':'))

/-- Whether the characters are an image id: 64 lower-case hexadecimal digits. -/
def isIdentifier (cs : List Char) : Bool := cs.length == 64 && cs.all isLowerHex

end ImageBuild.Reference.Grammar
