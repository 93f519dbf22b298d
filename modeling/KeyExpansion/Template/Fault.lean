-- SUMMARY: The ways in which a template can be malformed.

/-! # Template faults -/

namespace KeyExpansion.Template

inductive Fault where
  | nestedField
  | unclosedField
  | emptyName
  | strayClose
  | strayBrace
  | moreSlots
deriving Repr, DecidableEq

/-- The wording of a fault. -/
def Fault.reason : Fault → String
  | .nestedField => "nested fields are not supported"
  | .unclosedField => "unclosed '\x7b'"
  | .emptyName => "empty key name"
  | .strayClose => "single '\x7d' encountered"
  | .strayBrace => "stray brace in template"
  | .moreSlots => "more slots than values"

end KeyExpansion.Template
