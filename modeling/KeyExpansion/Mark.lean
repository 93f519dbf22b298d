-- SUMMARY: The marks of keys.

/-! # Marks -/

namespace KeyExpansion

/-- What a key is for. -/
inductive Mark where
  | free
  | path
  | indirect
  | str
  | code
  | args
  | kwargs
  | postbox
  | null
  | multi
deriving Repr, DecidableEq

namespace Mark

/-- Every mark in the order of declaration. -/
def all : List Mark :=
  [.free, .path, .indirect, .str, .code, .args, .kwargs, .postbox, .null, .multi]

def name : Mark → String
  | .free => "free"
  | .path => "path"
  | .indirect => "indirect"
  | .str => "str"
  | .code => "code"
  | .args => "args"
  | .kwargs => "kwargs"
  | .postbox => "postbox"
  | .null => "null"
  | .multi => "multi"

/-- The name with a capital, as debugging output shows it. -/
def label (m : Mark) : String :=
  m.name.capitalize

/-- Marks are read without regard to the case of ASCII letters. -/
def parse? (text : String) : Option Mark :=
  all.find? fun m => m.name.toList == text.toList.map Char.toLower

/-- Marks that only ever describe a whole template. -/
def isTemplateOnly (m : Mark) : Bool :=
  m == .null || m == .multi

end Mark

end KeyExpansion
