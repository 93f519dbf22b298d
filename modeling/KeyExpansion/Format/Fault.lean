-- SUMMARY: The ways in which a format can be malformed.
import KeyExpansion.Text.Quoted

/-! # Format faults -/

namespace KeyExpansion.Format

inductive Fault where
  | wideWidth
  | noPrecision
  | widePrecision
  | unexpected (c : Char)
deriving Repr, DecidableEq

/-- The wording of a fault. -/
def Fault.reason : Fault → String
  | .wideWidth => "width is too large"
  | .noPrecision => "precision has no digits"
  | .widePrecision => "precision is too large"
  | .unexpected c => "unexpected " ++ Text.quotedChar c

end KeyExpansion.Format
