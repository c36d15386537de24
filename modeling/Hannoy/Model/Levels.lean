import Hannoy.Model.Hnsw
import Hannoy.Model.Spaces

/-!
# Drawing levels (`hnsw.rs:93-119`)

A builder draws the level of an item with the probabilities of an exponential distribution, cut off
where they get too small. The probabilities are over any floating operations (`LevelMath`).

* `getDefaultProbas`: the loop that collects them. It has no bound in the source; here it runs on
  fuel, and is `none` when the fuel is used up.
* `Sampler` is what the builder uses of the crate `rand`; `Schedule.Drawn` says that the levels of a
  build come from it.
-/

namespace Hannoy

variable {R G : Type}

/-- The operations on floats of `get_default_probas`. -/
structure LevelMath (R : Type) extends Arithmetic R where
  one : R
  /-- `-1.0`. -/
  minusOne : R
  /-- `f32::EPSILON`. -/
  epsilon : R
  /-- `1e-09`. -/
  threshold : R
  ofUsize : Nat → R
  div : R → R → R
  exp : R → R
  ln : R → R
  lt : R → R → Bool

namespace HnswBuilder

variable (A : LevelMath R) (M : Nat)

/-- `level_factor`. -/
def levelFactor : R := A.div A.one (A.ln (A.add (A.ofUsize M) A.epsilon))

/-- The probability of a level: `exp(-λL) * (1 - exp(-λ))`. -/
def proba (level : Nat) : R :=
  A.mul (A.exp (A.mul (A.ofUsize level) (A.div A.minusOne (levelFactor A M))))
    (A.sub A.one (A.exp (A.div A.minusOne (levelFactor A M))))

/-- The loop of `get_default_probas` (`hnsw.rs:98-109`). -/
def probasLoop : Nat → Nat → List R → Option (List R)
  | 0, _, _ => none
  | fuel + 1, level, assignProbas =>
    if A.lt (proba A M level) A.threshold then some assignProbas
    else probasLoop fuel (level + 1) (assignProbas ++ [proba A M level])

/-- `get_default_probas` (`hnsw.rs:94-111`). -/
def getDefaultProbas (fuel : Nat) : Option (List R) := probasLoop A M fuel 0 []

end HnswBuilder

/-- What `get_random_level` uses of the crate `rand`: the index that a `WeightedIndex` over the
weights draws from a state of the generator, and nothing when it refuses the weights. -/
structure Sampler (R G : Type) where
  sample : List R → G → Option Nat

/-- What is promised: there is an index to draw when there is a weight and none is negative or all
of them zero. -/
structure Sampler.Faithful [Zero R] [LE R] [LT R] (S : Sampler R G) : Prop where
  draws : ∀ (weights : List R) (rng : G), (∀ w ∈ weights, 0 ≤ w) → (∃ w ∈ weights, 0 < w) →
    ∃ i < weights.length, S.sample weights rng = some i

/-- `get_random_level` (`hnsw.rs:114-120`): `None` is the panic of `unwrap`. -/
def HnswBuilder.getRandomLevel (S : Sampler R G) (assignProbas : List R) (rng : G) : Option Nat :=
  S.sample assignProbas rng

/-- The levels of a build are drawn, each from some state of the generator. -/
def Schedule.Drawn (A : LevelMath R) (S : Sampler R G) (M : Nat) (schedule : Schedule) : Prop :=
  ∃ fuel assignProbas, HnswBuilder.getDefaultProbas A M fuel = some assignProbas ∧
    ∀ x, ∃ rng, HnswBuilder.getRandomLevel S assignProbas rng = some (schedule.level x)

end Hannoy
