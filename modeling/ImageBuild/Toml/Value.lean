/-!
# `ImageBuild.Toml.Value`: values of settings

What a settings file or an environment variable may hold. Floats and times are kept as they are
spelled, for nobody calculates with them.
-/

set_option autoImplicit false

namespace ImageBuild.Toml

/-- A value. -/
inductive Value
  | text (s : String)
  | integer (n : Int)
  | float (literal : String)
  | boolean (b : Bool)
  | dateTime (literal : String)
  | array (items : List Value)
  /-- Entries in the order of the text. -/
  | table (entries : List (String × Value))
  deriving Repr, Inhabited

/-- Entries by their keys. -/
abbrev Entries := List (String × Value)

end ImageBuild.Toml
