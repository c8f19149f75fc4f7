import ImageBuild.Reference.Grammar

/-!
# `ImageBuild.Reference.Basic`: image references

A reference names an image: `domain/path`, and a tag or digest if it has one. Short names are
expanded against the default registry, so `myapp` becomes `docker.io/library/myapp`.
`Reference.parse` reads a name as people type it, `display` writes the full form and `familiar`
the short one.
-/

set_option autoImplicit false

namespace ImageBuild

/-- A fully qualified image reference. -/
structure Reference where
  domain : String
  path : String
  tag : Option String
  digest : Option String
  deriving DecidableEq, Repr

namespace Reference

/-- The registry of names without a domain. -/
def defaultDomain : List Char := "docker.io".toList

/-- An older name of that registry. -/
def legacyDomain : List Char := "index.docker.io".toList

/-- The name space of images without one in the default registry. -/
def officialSpace : List Char := "library".toList

def localhost : List Char := "localhost".toList

/-- The tag of references that have neither tag nor digest. -/
def defaultTag : String := "latest"

/-- The longest domain and path together, with the slash. -/
def nameLimit : Nat := 255

/-- What is wrong with a reference. -/
inductive Defect
  | reservedIdentifier
  | upperCase
  | badDomain
  | badRemainder
  | tooLong
  deriving DecidableEq, Repr

/-- The defect in words. -/
def Defect.reason : Defect → String
  | .reservedIdentifier => "64-byte hexadecimal strings are reserved for image ids"
  | .upperCase => "repository name must be lowercase"
  | .badDomain => "invalid registry domain"
  | .badRemainder => "invalid repository name or tag"
  | .tooLong => "repository name must not be more than 255 characters"

/-! ### Writing -/

/-- Tag and digest as they follow the name. -/
def suffix (r : Reference) : List Char :=
  (match r.tag with
    | some tag => ':' :: tag.toList
    | none => []) ++
  match r.digest with
  | some digest => '@' :: digest.toList
  | none => []

/-- Domain and path. -/
def nameChars (r : Reference) : List Char := r.domain.toList ++ '/' :: r.path.toList

/-- Domain and path. -/
def name (r : Reference) : String := String.ofList r.nameChars

/-- The full form. -/
def display (r : Reference) : String := String.ofList (r.nameChars ++ r.suffix)

/-- The path of the default registry as people type it: without the official name space, unless
more than one component follows that. -/
def familiarPath (path : List Char) : List Char :=
  let first := path.takeWhile (· != '/')
  match path.dropWhile (· != '/') with
  | _ :: rest => if first = officialSpace && !rest.contains '/' then rest else path
  | [] => path

/-- The short form. -/
def familiar (r : Reference) : String :=
  let short :=
    if r.domain.toList = defaultDomain then familiarPath r.path.toList else r.nameChars
  String.ofList (short ++ r.suffix)

/-! ### Reading -/

/-- Whether what stands before the first slash is a domain and not a part of the path. -/
def looksLikeDomain (first : List Char) : Bool :=
  first.any (fun c => c == '.' || c == ':') || first == localhost || first.any Grammar.isUpper

/-- Domain and remainder of a name, with the default registry filled in. -/
def splitDomain (value : List Char) : List Char × List Char :=
  let first := value.takeWhile (· != '/')
  let (domain, remainder) :=
    match value.dropWhile (· != '/') with
    | _ :: rest => if looksLikeDomain first then (first, rest) else (defaultDomain, value)
    | [] => (defaultDomain, value)
  let domain := if domain = legacyDomain then defaultDomain else domain
  if domain = defaultDomain && !remainder.contains '/' then
    (domain, officialSpace ++ '/' :: remainder)
  else (domain, remainder)

/-- Whether a character ends the path. -/
def endsPath (c : Char) : Bool := c == ':' || c == '@'

/-- Path, tag and digest of a remainder. -/
def splitRemainder (cs : List Char) : List Char × Option (List Char) × Option (List Char) :=
  let path := cs.takeWhile fun c => !endsPath c
  match cs.dropWhile fun c => !endsPath c with
  | ':' :: rest =>
    match rest.dropWhile (· != '@') with
    | _ :: digest => (path, some (rest.takeWhile (· != '@')), some digest)
    | [] => (path, some rest, none)
  | _ :: digest => (path, none, some digest)
  | [] => (path, none, none)

/-- Whether the parts of a remainder are what they should be. -/
def validRemainder (parts : List Char × Option (List Char) × Option (List Char)) : Bool :=
  Grammar.isPath parts.1 && (parts.2.1.map Grammar.isTag).getD true &&
    (parts.2.2.map Grammar.isDigest).getD true

/-- Reads a reference and fills in the registry. No tag is added. -/
def parse (value : String) : Except Defect Reference :=
  let cs := value.toList
  if Grammar.isIdentifier cs then .error .reservedIdentifier
  else
    let (domain, remainder) := splitDomain cs
    if (remainder.takeWhile fun c => !endsPath c).any Grammar.isUpper then .error .upperCase
    else if !Grammar.isDomain domain then .error .badDomain
    else
      let parts := splitRemainder remainder
      if !validRemainder parts then .error .badRemainder
      else if nameLimit < domain.length + 1 + parts.1.length then .error .tooLong
      else
        .ok {
          domain := String.ofList domain
          path := String.ofList parts.1
          tag := parts.2.1.map String.ofList
          digest := parts.2.2.map String.ofList }

/-- The reference with the default tag, unless it has a tag or a digest. -/
def withDefaultTag (r : Reference) : Reference :=
  if r.tag.isNone && r.digest.isNone then { r with tag := some defaultTag } else r

/-- Reads a reference and fills in registry and tag. -/
def parseTagged (value : String) : Except Defect Reference := (parse value).map withDefaultTag

end Reference
end ImageBuild
