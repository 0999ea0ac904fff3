import Pancake.Steady
import Pancake.Lib.Doubles

/-!
# `create_replicas` in `double`s

The program divides in `double`s, and `ceil` sees the error: a quotient a bit
over five gives six replicas. Which replicas there are matters to everything
after, the weights only to the sampling. So the replicas made with any
arithmetic are put down to those made exactly of other numbers, and what is
known of these carries over.
-/

namespace Pancake

open Doubles

namespace Proxy

/-! ## The arithmetic of the program -/

/-- `ceil(pi/alpha_)`, of a `double` quotient. -/
def roundedCount (alpha p : ℚ) : Nat := ⌈toDouble (p / alpha)⌉₊

/-- `r_i * (alpha_-pi/r_i)/(1/delta_ - 1)`, one operation after another. -/
def roundedWeight (alpha delta p : ℚ) : ℚ :=
  let r : ℚ := roundedCount alpha p
  toDouble (toDouble (r * toDouble (alpha - toDouble (p / r)))
    / toDouble (toDouble (1 / delta) - 1))

/-- `(alpha_ / (1 / delta_ - 1)) * dummy_r_i`, one operation after another. -/
def roundedDummyWeight (alpha delta : ℚ) (dummyR : Nat) : ℚ :=
  toDouble (toDouble (alpha / toDouble (toDouble (1 / delta) - 1)) * dummyR)

/-- In `double`s. -/
def ReplicaArithmetic.doubles : ReplicaArithmetic :=
  ⟨roundedCount, roundedWeight, roundedDummyWeight⟩

/-- `25/30` by `1/6` is a bit over five. -/
example : roundedCount (toDouble (1 / 6)) (toDouble (25 / 30)) = 6 := by decide +kernel

/-! ## The same replicas from other numbers -/

variable {A : ReplicaArithmetic}

/-- Every key has the replicas counted for it. -/
theorem Created.map_replicas {st st' : Proxy} {values : Nat → Str} (h : Created st values st')
    (hlen : st.realDistribution.items.length = st.realDistribution.probabilities.length)
    (hkeys : (st.realDistribution.items ++ [st.dummyKey]).Nodup) :
    st.realDistribution.items.map st'.replicas
      = st.realDistribution.probabilities.map (replicaCount st.alpha) := by
  have hnd : ((st.allBlocks values).map Block.key).Nodup :=
    (allBlocks_keys_sublist values hlen).nodup hkeys
  have hitems := pairs_map_fst hlen
  have hprobabilities : st.realDistribution.pairs.map Prod.snd
      = st.realDistribution.probabilities := by
    rw [Distribution.pairs, List.map_snd_zip hlen.ge]
  rw [← hitems, ← hprobabilities, List.map_map, List.map_map]
  apply List.map_congr_left
  intro pair hpair
  have hmem : (pair.1, pair.2) ∈ st.realDistribution.pairs := hpair
  obtain ⟨b, hb, hkey, hcount⟩ := exists_keyBlock st.alpha values hmem 0
  show st'.replicas pair.1 = replicaCount st.alpha pair.2
  rw [← hkey, h.replicas_eq hnd (List.mem_append_left _ hb), hcount]

/-- The dummy key gets the replicas that the others leave of `2n`. -/
theorem Created.sum_replicas {st st' : Proxy} {values : Nat → Str} (h : Created st values st')
    (hlen : st.realDistribution.items.length = st.realDistribution.probabilities.length)
    (hkeys : (st.realDistribution.items ++ [st.dummyKey]).Nodup)
    (hfits : (st.realDistribution.probabilities.map (replicaCount st.alpha)).sum
      ≤ 2 * st.realDistribution.items.length) :
    (st.realDistribution.items.map st'.replicas).sum + st.dummyCount values
      = 2 * st.realDistribution.items.length := by
  rw [h.map_replicas hlen hkeys, dummyCount, sum_count_keyBlocks hlen, sizeSub, if_pos hfits]
  omega

end Proxy

end Pancake
