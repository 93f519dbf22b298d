-- SUMMARY: One step of indirection: the keys that a key points at.
import KeyExpansion.Expansion.Expand

/-! # Redirection

The indirect name is asked for before the direct one. A list names several keys,
of which the first counts unless all are wanted. A miss leaves the key itself. -/

namespace KeyExpansion

/-- The values that name keys in what was found. -/
def Value.referents (multi : Bool) : Value → List Value
  | .list items => if multi then items else items.take 1
  | v => [v]

/-- The key that a referent names. -/
def Value.referent : Value → Except Error Key
  | .key k => .ok k
  | v => Key.ofReference v.display

/-- The keys that a key points at, unexpanded. -/
def Key.redirect (registry : Registry) (k : Key) (sources : List Source) (multi : Bool) :
    Expand (List Key) := do
  match ← liftM (Sources.findFirst (sources ++ registry.sources) [k.indirect, k.direct]) with
  | none => return [k]
  | some v => liftM ((v.referents multi).mapM Value.referent)

end KeyExpansion
