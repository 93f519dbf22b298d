-- SUMMARY: Layers merged into one table of values.
import KeyExpansion.Layer.Basic

/-! # Merged layers

Layers are merged in order. A later layer changes the values of names that are there
and adds others behind them; the last limit set counts. -/

namespace KeyExpansion

structure Merged where
  /-- The values in the order in which their names were first given. -/
  values : List (String × Value) := []
  limit : Option Int := none
  /-- The files that were merged. -/
  paths : List Path := []

instance : Inhabited Merged := ⟨{}⟩

namespace Merged

/-- Put a layer on top. -/
def add (m : Merged) (layer : Layer) : Merged where
  values := Entries.merge m.values layer.named
  limit := layer.limit?.or m.limit
  paths := m.paths ++ layer.path.toList

def ofLayers (layers : List Layer) : Merged :=
  layers.foldl add {}

def lookup? (m : Merged) (name : String) : Option Value :=
  Entries.get? m.values name

/-- The merged values as one source. -/
def source (m : Merged) : Source :=
  .table m.values

end Merged

end KeyExpansion
