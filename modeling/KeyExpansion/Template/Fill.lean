-- SUMMARY: Filling the slots of a template with values.
import KeyExpansion.Template.Fault

/-! # Filling slots

Slots are empty braces and take the values in order. Doubled braces are literal
ones. The values themselves are never read as template text. -/

namespace KeyExpansion.Template

def fillSlots : List Char → List (List Char) → Except Fault (List Char)
  | [], _ => .ok []
  | '{' :: '{' :: cs, values => ('{' :: ·) <$> fillSlots cs values
  | '}' :: '}' :: cs, values => ('}' :: ·) <$> fillSlots cs values
  | '{' :: '}' :: cs, value :: values => (value ++ ·) <$> fillSlots cs values
  | '{' :: '}' :: _, [] => .error .moreSlots
  | '{' :: _, _ => .error .strayBrace
  | '}' :: _, _ => .error .strayBrace
  | c :: cs, values => (c :: ·) <$> fillSlots cs values

/-- The text with its slots filled. -/
def fill (slots : String) (values : List String) : Except Fault String :=
  String.ofList <$> fillSlots slots.toList (values.map String.toList)

end KeyExpansion.Template
