/-!
# Event latches

A latch remembers that an event was signalled, not how often.
-/
namespace TwoWire

structure Latch where
  raised : Bool := false
  deriving DecidableEq

namespace Latch

def signal (_ : Latch) : Latch := ⟨true⟩

/-- Consume the event, if one is remembered. -/
def take (l : Latch) : Bool × Latch := (l.raised, ⟨false⟩)

/-- Signalling any number of times is consumed by a single take. -/
theorem take_signal (l : Latch) : l.signal.take = (true, ⟨false⟩) := rfl

end Latch
end TwoWire
