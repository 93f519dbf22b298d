-- SUMMARY: Sources that names are looked up in, and the memory that lookups change.
import KeyExpansion.Uuid
import KeyExpansion.Value.Entries
import KeyExpansion.Value.Basic

/-! # Sources

Sources are asked in order and the first answer counts. All but stacks answer a
name always the same. A stack gives up its top value at every question, whatever the
name, so what is left on the stacks is memory that lookups change. -/

namespace KeyExpansion

/-- Parameters by position and by name. -/
structure Params where
  args : List Value := []
  named : List (String × Value) := []

/-- Anything that names can be looked up in. -/
inductive Source where
  /-- Answers that asking does not change, and parameters if there are any. -/
  | steady (answer : String → Option Value) (given : Option Params := none)
  /-- The stack at a place in memory. -/
  | stack (slot : Nat)

namespace Source

/-- Values by name. -/
def table (entries : List (String × Value)) : Source :=
  .steady (Entries.get? entries)

/-- Parameters answer to their names. -/
def params (given : Params) : Source :=
  .steady (Entries.get? given.named) (some given)

instance : Inhabited Source := ⟨table []⟩

end Source

structure Memory where
  /-- The stacks, each from the top. -/
  piles : List (List Value) := []
  /-- The seed of the next fresh uuid. -/
  seed : Nat := 0

instance : Inhabited Memory := ⟨{}⟩

namespace Memory

/-- Take the top value of a stack. -/
def pop (slot : Nat) (m : Memory) : Option Value × Memory :=
  match m.piles[slot]? with
  | some (top :: rest) => (some top, { m with piles := m.piles.set slot rest })
  | _ => (none, m)

/-- Put a new stack into memory and tell its place. -/
def newStack (values : List Value) (m : Memory) : Nat × Memory :=
  (m.piles.length, { m with piles := m.piles ++ [values] })

/-- Take a fresh uuid. -/
def fresh (m : Memory) : Uuid × Memory :=
  (Uuid.ofSeed m.seed, { m with seed := m.seed + 1 })

end Memory

namespace Source

/-- The value under a name. -/
def lookup (name : String) : Source → StateM Memory (Option Value)
  | .steady answer _ => pure (answer name)
  | .stack slot => modifyGet (Memory.pop slot)

def params? : Source → Option Params
  | .steady _ given => given
  | .stack _ => none

/-- The map that a value is, as a source. Other values hold no names. -/
def ofValue : Value → Source
  | .map entries => table entries
  | _ => table []

end Source

namespace Sources

/-- The first value under a name. -/
def find (name : String) : List Source → StateM Memory (Option Value)
  | [] => pure none
  | source :: sources => do
    match ← source.lookup name with
    | some v => pure (some v)
    | none => find name sources

/-- The first value under one of several names, tried in order. -/
def findFirst (sources : List Source) : List String → StateM Memory (Option Value)
  | [] => pure none
  | name :: names => do
    match ← find name sources with
    | some v => pure (some v)
    | none => findFirst sources names

/-- The first parameters there are. -/
def params? (sources : List Source) : Option Params :=
  sources.findSome? Source.params?

end Sources

end KeyExpansion
