-- SUMMARY: Families of keys and the conversion letters of fields.
import KeyExpansion.Coercion
import KeyExpansion.Mark
import KeyExpansion.Text.Quoted

/-! # Families

A family gives keys of one mark their coercion and their conduct. There is at
most one family for single keys of a mark and one for templates. -/

namespace KeyExpansion

/-- How the keys of a family behave while they are expanded. -/
inductive Conduct where
  | standard
  | path
  | indirect
  | args
  | kwargs
deriving Repr, DecidableEq

structure Family where
  name : String
  mark : Mark
  multi : Bool := false
  coercion : Coercion := .identity
  conduct : Conduct := .standard
deriving Repr, DecidableEq

namespace Family

def free : Family := { name := "SingleDKey", mark := .free }

def multiKey : Family := { name := "MultiDKey", mark := .multi, multi := true }

def null : Family := { name := "NonDKey", mark := .null }

/-- Every family in the order of names, those of single keys first. -/
def all : List Family :=
  [{ name := "ArgsDKey", mark := .args, coercion := .list, conduct := .args },
   { name := "ImportDKey", mark := .code, coercion := .code },
   { name := "IndirectDKey", mark := .indirect, conduct := .indirect },
   { name := "KwargsDKey", mark := .kwargs, coercion := .map, conduct := .kwargs },
   null,
   { name := "PathDKey", mark := .path, coercion := .path, conduct := .path },
   free,
   { name := "StrDKey", mark := .str, coercion := .str },
   multiKey,
   { name := "PathMultiDKey", mark := .path, multi := true, coercion := .path, conduct := .path }]

/-- The family registered for a mark. -/
def registered? (mark : Mark) (multi : Bool) : Option Family :=
  all.find? fun f => f.mark == mark && f.multi == multi

/-- The family of single keys of a mark, or the general one. -/
def single (mark : Mark) : Family :=
  (registered? mark false).getD free

/-- The family of templates of a mark, or the general one. -/
def template (mark : Mark) : Family :=
  (registered? mark true).getD multiKey

/-- What debugging output shows. -/
def describe (f : Family) : String :=
  "KeyClass \x7b name: " ++ Text.quoted f.name ++ ", mark: " ++ f.mark.label ++ ", multi: "
    ++ toString f.multi ++ ", ctor: " ++ f.coercion.label ++ ", .. \x7d"

end Family

/-- What a conversion letter asks for. -/
structure Conversion where
  coercion : Coercion
  /-- The mark of a single key built with the letter. -/
  mark : Option Mark := none
deriving Repr, DecidableEq

namespace Conversion

/-- Every conversion letter in order. -/
def all : List (Char × Conversion) :=
  [('S', { coercion := .sectioned }),
   ('c', { coercion := .code, mark := some .code }),
   ('f', { coercion := .float }),
   ('i', { coercion := .int }),
   ('p', { coercion := .path, mark := some .path }),
   ('s', { coercion := .str, mark := some .str })]

def find? (letter : Char) : Option Conversion :=
  all.lookup letter

end Conversion

end KeyExpansion
