-- SUMMARY: Which values satisfy a constraint.
import KeyExpansion.Value.Basic

/-! # Constraints -/

namespace KeyExpansion.Constraint

def name : Constraint → String
  | .any => "any"
  | .is kind => kind.name
  | .oneOf kinds => " | ".intercalate (kinds.map Kind.name)
  | .listOf inner => "list[" ++ inner.name ++ "]"
  | .mapOf inner => "map[" ++ inner.name ++ "]"

def accepts : Constraint → Value → Bool
  | .any, _ => true
  | .is kind, v => v.kind == kind
  | .oneOf kinds, v => kinds.contains v.kind
  | .listOf inner, .list items => items.all inner.accepts
  | .mapOf inner, .map entries => entries.all fun entry => inner.accepts entry.2
  | _, _ => false

end KeyExpansion.Constraint
