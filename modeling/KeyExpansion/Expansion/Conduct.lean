-- SUMMARY: What families do differently while their keys are expanded.
import KeyExpansion.Expansion.Basic
import KeyExpansion.Value.Constraint

/-! # Conduct

A family decides where its keys look, what they fall back to when nobody says,
and what is done to the final value. -/

namespace KeyExpansion

/-- A name to look up. -/
structure Target where
  name : String
  /-- Does a hit name another key? -/
  lift : Bool
deriving Repr, DecidableEq

/-- Where a key looks. -/
inductive Plan where
  /-- Ask the sources for these names in order. -/
  | targets (targets : List Target)
  /-- The value is known already, or there is none. -/
  | resolved (found : Option Found)

namespace Conduct

/-- The direct name, then the indirect one. Keys for parameters take them whole. -/
def plan (c : Conduct) (k : Key) (sources : List Source) : Plan :=
  match c with
  | .args => .resolved ((Sources.params? sources).map fun p => Found.ofLiteral (.list p.args))
  | .kwargs => .resolved ((Sources.params? sources).map fun p => Found.ofLiteral (.map p.named))
  | _ => .targets [⟨k.direct, false⟩, ⟨k.indirect, true⟩]

/-- What a key falls back to when neither the call nor the key says. -/
def fallback? (c : Conduct) (k : Key) : Option Value :=
  match c with
  | .indirect => some (.key k)
  | .args => some (.list [])
  | .kwargs => some (.map [])
  | .standard | .path => none

/-- The final value. -/
def finalize (c : Conduct) (env : Surroundings) (v : Value) : Except Error Value :=
  match c, v with
  | .path, .path p => .path <$> env.resolve p
  | .path, .str s => .path <$> env.resolve ⟨s⟩
  | _, _ => .ok v

end Conduct

/-- Does the final value satisfy the constraint of the key? -/
def Key.verify (k : Key) (v : Value) : Except Error Unit :=
  match k.check with
  | some check =>
    if check.accepts v then .ok () else .error (.typeMismatch k.text check.name v.kind)
  | none => .ok ()

end KeyExpansion
