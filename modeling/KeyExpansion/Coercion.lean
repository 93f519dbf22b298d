-- SUMMARY: Coercions: what kind an expanded value is turned into.
import KeyExpansion.Kind

/-! # Coercions -/

namespace KeyExpansion

/-- What is done to a value that was found. Coercions of the user have a name,
    and what they do is given where keys are expanded. -/
inductive Coercion where
  | identity
  | str
  | path
  | int
  | float
  | sectioned
  | code
  | list
  | map
  | custom (name : String)
deriving Repr, DecidableEq

namespace Coercion

/-- The kind of the result, if it is always the same. -/
def target? : Coercion → Option Kind
  | .identity | .custom _ => none
  | .str => some .str
  | .path => some .path
  | .int => some .int
  | .float => some .float
  | .sectioned => some .sectioned
  | .code => some .code
  | .list => some .list
  | .map => some .map

/-- The name with a capital, as debugging output shows it. -/
def label (c : Coercion) : String :=
  match c.target?, c with
  | some kind, _ => kind.label
  | none, .custom _ => "Custom"
  | none, _ => "Identity"

def name (c : Coercion) : String :=
  match c.target?, c with
  | some kind, _ => kind.name
  | none, .custom _ => "custom"
  | none, _ => "identity"

end Coercion

end KeyExpansion
