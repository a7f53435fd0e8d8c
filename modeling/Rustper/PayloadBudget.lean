import Rustper.RouterLinks
import Rustper.SourceBudget
import Mathlib.Algebra.Order.BigOperators.Group.Finset

/-!
The payload that the whole topology holds for a source. Sinks share a batch with the
task that sent it, so whatever their number the budget of the source bounds it: an
envelope that a sink has not settled belongs to a batch in flight.
-/
namespace Rustper.Source

end Rustper.Source

namespace Rustper.Router

open TransitionSystem

variable {n : ℕ} {wiring : Wiring n} {s s' : State n}

/-- The size of a dispatched batch. -/
def payload (s : State n) (k : ℕ) : ℕ :=
  s.source.dispatched[k]?.elim 0 (fun d => d.batch.bytes)

/-- After the step the sizes of the batches in flight add up to a `usize`. -/
def Representable (wiring : Wiring n) (s : State n) (a : Action n) : Prop :=
  ∀ s' ∈ step wiring s a, Source.inFlightSum s'.source ≤ MachineInt.usizeMax

instance (wiring : Wiring n) (s : State n) (a : Action n) : Decidable (Representable wiring s a) :=
  inferInstanceAs (Decidable (∀ s' ∈ step wiring s a,
    Source.inFlightSum s'.source ≤ MachineInt.usizeMax))

end Rustper.Router
