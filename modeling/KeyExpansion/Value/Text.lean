-- SUMMARY: The text of a value.
import KeyExpansion.Decimal.Text
import KeyExpansion.Value.Basic

/-! # Text of values -/

namespace KeyExpansion.Value

mutual

/-- The text that stands for a value in messages and templates. -/
def display : Value → String
  | .null => "None"
  | .bool b => toString b
  | .int i => toString i.toInt
  | .float x => Decimal.plain x
  | .str s => s
  | .path p => p.text
  | .list items => "[" ++ ", ".intercalate (displayItems items) ++ "]"
  | .map entries => inBraces (", ".intercalate (displayEntries entries))
  | .key k => k.wrapped
  | .sectioned s => s.toString
  | .code c => c.toString

def displayItems : List Value → List String
  | [] => []
  | v :: vs => display v :: displayItems vs

def displayEntries : List (String × Value) → List String
  | [] => []
  | (name, v) :: entries => (name ++ ": " ++ display v) :: displayEntries entries

end

end KeyExpansion.Value
