-- SUMMARY: What expansion works with: surroundings, budgets, values on their way.
import KeyExpansion.Error
import KeyExpansion.Key.Make
import KeyExpansion.Source

/-! # Expansion basics

Expanding may fail with an error, and what it took from stacks stays taken even
then. A budget is how many references may still be followed. -/

namespace KeyExpansion

/-- What an expansion may ask of the world. -/
structure Surroundings where
  resolve : Path → Except Error Path
  custom : String → Value → Except Error Value
  code : CodeTable

/-- A computation that may fail and keeps its memory. -/
abbrev Expand := ExceptT Error (StateM Memory)

namespace Expand

def fresh : Expand Uuid :=
  modifyGet Memory.fresh

/-- Run from a memory. -/
def runFrom {α : Type} (memory : Memory) (x : Expand α) : Except Error α × Memory :=
  StateT.run (ExceptT.run x) memory

end Expand

/-- How many references may be followed; `none` is as many as there are. -/
abbrev Budget := Option Nat

namespace Budget

def ofLimit (limit : Int) : Budget :=
  if limit < 0 then none else some limit.toNat

/-- The budget after one reference. -/
def spend (b : Budget) : Budget :=
  b.map (· - 1)

end Budget

/-- The budget that a key brings with it. -/
def Key.budget (k : Key) : Budget :=
  k.limit.bind Budget.ofLimit

/-- The budget of a key that another key leads to. -/
def Budget.within (outer : Budget) (k : Key) : Budget :=
  outer.or k.budget

/-- A value on its way through an expansion. -/
structure Found where
  value : Value
  budget : Budget := none
  /-- What counts if following the value finds nothing. -/
  fallback : Option Value := none
  /-- Was the value found under the indirect name? -/
  lifted : Bool := false
  /-- Is nothing left to follow? -/
  literal : Bool := false
  /-- `some false` leaves the value as it is. -/
  convert : Option Bool := none

namespace Found

/-- A value with nothing left to follow. -/
def ofLiteral (v : Value) : Found where
  value := v
  budget := some 0
  literal := true

def finish (f : Found) : Found :=
  { f with literal := true }

end Found

end KeyExpansion
