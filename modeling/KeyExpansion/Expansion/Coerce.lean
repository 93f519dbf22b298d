-- SUMMARY: Turning a found value into the kind that a key asks for.
import KeyExpansion.Decimal.Read
import KeyExpansion.Expansion.Basic
import KeyExpansion.Value.Text

/-! # Coercing

A conversion letter of the key wins over its coercion. Keys that are still to be
expanded are left alone. -/

namespace KeyExpansion

namespace Coercion

/-- Does the value need no coercion? -/
def accepts (c : Coercion) (v : Value) : Bool :=
  match c.target? with
  | some kind => v.kind == kind
  | none => c == .identity

/-- The error of a value that cannot be turned into a kind. -/
def refuse (key : String) (v : Value) (kind : Kind) : Error :=
  .conversion key v.display kind

def toInt (key : String) (v : Value) : Except Error Value :=
  let refused := .error (refuse key v .int)
  match v with
  | .int i => .ok (.int i)
  | .bool b => .ok (.int (if b then 1 else 0))
  | .float x => if Decimal.isFinite x then .ok (.int (Decimal.truncate x)) else refused
  | .str s =>
    match Decimal.readInt64? (Text.trim s.toList) with
    | some i => .ok (.int i)
    | none => refused
  | _ => refused

def toFloat (key : String) (v : Value) : Except Error Value :=
  let refused := .error (refuse key v .float)
  match v with
  | .float x => .ok (.float x)
  | .int i => .ok (.float (Decimal.ofInt i.toInt))
  | .str s =>
    match Decimal.readFloat? (Text.trim s.toList) with
    | some x => .ok (.float x)
    | none => refused
  | _ => refused

def toPath (env : Surroundings) (key : String) (v : Value) : Except Error Value :=
  match v with
  | .path p => .path <$> env.resolve p
  | .str s => .path <$> env.resolve ⟨s⟩
  | _ => .error (refuse key v .path)

def toStr (v : Value) : Value :=
  .str v.display

def toList (v : Value) : Value :=
  match v with
  | .list items => .list items
  | .null => .list []
  | _ => .list [v]

def toMap (key : String) (v : Value) : Except Error Value :=
  match v with
  | .map entries => .ok (.map entries)
  | .null => .ok (.map [])
  | _ => .error (refuse key v .map)

def toSectioned (fresh : Uuid) (v : Value) : Except Error Value :=
  match v with
  | .sectioned s => .ok (.sectioned s)
  | _ => .sectioned <$> Sectioned.parse Scheme.basic fresh v.display.toList

def toCode (env : Surroundings) (fresh : Uuid) (key : String) (v : Value) : Except Error Value :=
  match v with
  | .code c => .ok (.code c)
  | .str s => do
    let reference ← CodeRef.parse fresh s
    let code ← env.code.load reference
    return .code code
  | _ => .error (refuse key v .code)

/-- Coerce a value on behalf of a key. -/
def apply (env : Surroundings) (c : Coercion) (key : String) (v : Value) : Expand Value :=
  match c with
  | .identity => pure v
  | .str => pure (toStr v)
  | .path => liftM (toPath env key v)
  | .int => liftM (toInt key v)
  | .float => liftM (toFloat key v)
  | .sectioned => do
    let fresh ← Expand.fresh
    liftM (toSectioned fresh v)
  | .code => do
    let fresh ← Expand.fresh
    liftM (toCode env fresh key v)
  | .list => pure (toList v)
  | .map => liftM (toMap key v)
  | .custom name => liftM (env.custom name v)

end Coercion

/-- Coerce a found value. An unknown conversion letter makes a miss. -/
def Key.coerce (env : Surroundings) (k : Key) (f : Found) : Expand (Option Found) :=
  if f.value.isKey then pure (some f)
  else
    match k.conversion with
    | some letter =>
      match Conversion.find? letter with
      | none => pure none
      | some conversion => do
        let v ← conversion.coercion.apply env k.text f.value
        return some { f with value := v }
    | none =>
      if f.convert == some false || k.coercion.accepts f.value then pure (some f)
      else do
        let v ← k.coercion.apply env k.text f.value
        return some { f with value := v }

end KeyExpansion
