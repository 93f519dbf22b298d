-- SUMMARY: Sources registered for every expansion, and leases on them.
import KeyExpansion.Source

/-! # Registered sources

Registered sources are asked after those of a call, in the order of
registration. A source may be registered more than once; taking it out takes out
all its registrations. A lease registers a source and takes it out when it ends. -/

namespace KeyExpansion

/-- A source with a number that tells it from all others. -/
structure Shared where
  id : Nat
  source : Source

structure Registry where
  shared : List Shared := []

instance : Inhabited Registry := ⟨{}⟩

namespace Registry

def sources (r : Registry) : List Source :=
  r.shared.map Shared.source

def has (r : Registry) (s : Shared) : Bool :=
  r.shared.any (·.id == s.id)

def register (r : Registry) (s : Shared) : Registry :=
  ⟨r.shared ++ [s]⟩

def unregister (r : Registry) (s : Shared) : Registry :=
  ⟨r.shared.filter (·.id != s.id)⟩

end Registry

/-- A source that is registered until the lease ends. -/
structure Lease where
  shared : Shared

namespace Lease

def start (r : Registry) (s : Shared) : Lease × Registry :=
  (⟨s⟩, r.register s)

def stop (r : Registry) (lease : Lease) : Registry :=
  r.unregister lease.shared

end Lease

end KeyExpansion
