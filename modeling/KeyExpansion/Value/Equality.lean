-- SUMMARY: When two values are equal.
import KeyExpansion.Value.Basic

/-! # Equality of values

Floats compare as numbers, so that NaN equals nothing. Paths compare by their
components, maps without regard to order, and keys, sectioned texts and code by
their text. -/

namespace KeyExpansion.Value

mutual

def same : Value → Value → Bool
  | .null, .null => true
  | .bool a, .bool b => a == b
  | .int a, .int b => a == b
  | .float a, .float b => a == b
  | .str a, .str b => a == b
  | .path a, .path b => a.sameComponents b
  | .list a, .list b => sameItems a b
  | .map a, .map b => a.length == b.length && sameEntries a b
  | .key a, .key b => a.same b
  | .sectioned a, .sectioned b => a.same b
  | .code a, .code b => a.reference.same b.reference
  | _, _ => false

def sameItems : List Value → List Value → Bool
  | [], [] => true
  | a :: as, b :: bs => same a b && sameItems as bs
  | _, _ => false

/-- Does the second map have every entry of the first? -/
def sameEntries : List (String × Value) → List (String × Value) → Bool
  | [], _ => true
  | (name, a) :: entries, other =>
    (match other.lookup name with
      | some b => same a b
      | none => false)
      && sameEntries entries other

end

end KeyExpansion.Value
