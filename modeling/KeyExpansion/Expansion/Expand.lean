-- SUMMARY: Expanding keys: look up, follow, coerce, finalize, check.
import KeyExpansion.Expansion.Coerce
import KeyExpansion.Expansion.Conduct
import KeyExpansion.Format.Apply
import KeyExpansion.Registry
import KeyExpansion.Template.Fill

/-! # Expansion

A key is looked up, and if what is found names another key that one is expanded in
turn. A miss is no error: it gives way to the fallback of the call, then that of the
key, then that of its family. Expansions nest at most `nestingLimit` deep, and a key
that leads back to itself without a budget is an error. -/

namespace KeyExpansion

/-- How deep expansions may nest. -/
def nestingLimit : Nat := 200

structure Context where
  env : Surroundings
  sources : List Source

/-- Expands the key that another key leads to. -/
abbrev Next := Key → Budget → Expand (Option Value)

/-- A hit on an indirect name refers to the key that it names. -/
def Found.lift (f : Found) : Found :=
  let named :=
    match f.value with
    | .key k => some k
    | .str s => (Key.ofReference s).toOption.filter (!·.isNull)
    | _ => none
  match named with
  | some k => { f with value := .key k, fallback := some (.key k), lifted := true }
  | none => f

/-- The key that a value names, if it is one or is written like one. -/
def Value.reference? : Value → Option Key
  | .key k => some k
  | .str s =>
    if s.toList.contains '{' then (Key.ofText s).toOption.filter (!·.isNull) else none
  | _ => none

namespace Key

/-- Ask the sources for names in order. -/
def lookupTargets (ctx : Context) (budget : Budget) : List Target → Expand (Option Found)
  | [] => pure none
  | target :: targets => do
    match ← liftM (Sources.find target.name ctx.sources) with
    | some v =>
      let found : Found := { value := v, budget }
      return some (if target.lift then found.lift else found)
    | none => lookupTargets ctx budget targets

/-- Where the plan of the key leads. -/
def lookup (ctx : Context) (k : Key) (budget : Budget) : Expand (Option Found) :=
  match k.family.conduct.plan k ctx.sources with
  | .targets targets => lookupTargets ctx budget targets
  | .resolved found => pure found

/-- Follow what was found for a key. `chain` holds the texts of the keys that are being
    expanded, outermost first. -/
def follow (next : Next) (chain : List String) (k : Key) (f : Found) : Expand (Option Found) :=
  if f.literal then pure (some f)
  else
    match f.value.reference? with
    | none => pure (some f.finish)
    | some other =>
      let budget := f.budget.spend
      if budget == some 0 then pure (some f.finish)
      else if other.same k then pure (some { f.finish with value := .str other.text })
      else if budget.isNone && chain.contains other.text then
        throw (.recursion other.text (chain ++ [other.text]))
      else do
        match ← next other (budget.within other) with
        | some v => return some { f.finish with value := v }
        | none => return f.fallback.map fun v => { value := v, budget, literal := true }

/-- The texts of the keys of a template, or `none` if one of them is missing. -/
def renderAll (next : Next) (budget : Budget) : List Key → Expand (Option (List String))
  | [] => pure (some [])
  | k :: ks => do
    match ← next k (budget.within k) with
    | none => return none
    | some v =>
      match Format.parse k.format with
      | .error fault => throw (.malformedFormat k.format fault)
      | .ok format =>
        let rest ← renderAll next budget ks
        return rest.map (format.apply v :: ·)

/-- The value of a template. One key alone keeps its value, everything else is text. -/
def expandParts (next : Next) (parts : Parts) (budget : Budget) : Expand (Option Found) :=
  match parts.subkeys, parts.hasLiteral with
  | [k], false => do
    let v ← next k (budget.within k)
    return v.map fun v => { value := v, budget, literal := true, convert := some false }
  | subkeys, _ => do
    match ← renderAll next budget subkeys with
    | none => return none
    | some texts =>
      match Template.fill parts.slots texts with
      | .ok text => return some { value := .str text, budget, literal := true }
      | .error fault => throw (.malformedTemplate parts.slots fault)

/-- Coerce, finalize and check what was found. -/
def settle (env : Surroundings) (k : Key) (f : Found) : Expand (Option Value) := do
  match ← k.coerce env f with
  | none => return none
  | some f =>
    if f.value.isKey then return some f.value
    else
      let v ← liftM (k.family.conduct.finalize env f.value)
      liftM (k.verify v)
      return some v

/-- What a key leads to before it is settled. -/
def find (ctx : Context) (next : Next) (chain : List String) (k : Key) (budget : Budget) :
    Expand (Option Found) :=
  match k.parts with
  | some parts => expandParts next parts budget
  | none => do
    match ← k.lookup ctx budget with
    | some f => follow next chain k f
    | none => return none

/-- What a key falls back to. -/
def lastResort (k : Key) (fallback : Option Value) : Option Value :=
  (fallback.or k.fallback?).or (k.family.conduct.fallback? k)

/-- Expand a key with `left` levels of nesting left. -/
def expandWithin (ctx : Context) : (left : Nat) → (chain : List String) → Key → Option Value →
    Budget → Expand (Option Value)
  | left, chain, k, fallback, budget =>
    if k.isNull then pure (some (.str k.text))
    else if budget == some 0 then pure (some (.key k))
    else
      match left with
      | 0 => throw (.recursionLimit k.text nestingLimit)
      | left + 1 => do
        let chain := chain ++ [k.text]
        let next : Next := fun other budget => expandWithin ctx left chain other none budget
        match ← find ctx next chain k budget with
        | none => return k.lastResort fallback
        | some f =>
          let v ← settle ctx.env k f
          return v.or (k.lastResort fallback)

/-- Expand a key against sources, then those registered. A limit given here wins over
    that of the key. -/
def expand (env : Surroundings) (registry : Registry) (k : Key) (sources : List Source)
    (fallback : Option Value := none) (limit : Option Int := none) : Expand (Option Value) :=
  let budget :=
    match limit with
    | some limit => Budget.ofLimit limit
    | none => k.budget
  expandWithin ⟨env, sources ++ registry.sources⟩ nestingLimit [] k fallback budget

end Key

end KeyExpansion
