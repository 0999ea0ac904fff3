import Mathlib.Data.Nat.Choose.Basic
import Pancake.LabelSequences

/-!
# How many operations some slots take

Each slot of a security batch tosses the coin of its own. As long as the queue
does not run out, the number of operations that some slots take off it is
binomial, whoever arrives meanwhile; and the first operation is still in the
queue after `n` slots with the `n`-th power of the odds against a real access.
-/

namespace Pancake

namespace Proxy

/-- How likely a slot is a real access. -/
def realShare (st : Proxy) : ℚ := st.isTrueDistribution.prob (· = true)

/-- How likely `n` slots leave `promises` promises in the batch. -/
def leaves (st : Proxy) (n : Nat) (q : OpQueue) (b : Batch) (promises : Nat) : ℚ :=
  (st.securitySlots n q b).prob fun s => s.2.promises.length = promises

/-- The coin is a coin. -/
theorem expect_isTrueDistribution (st : Proxy) (f : Bool → ℚ) :
    st.isTrueDistribution.expect f = st.realShare * f true + (1 - st.realShare) * f false := by
  rw [realShare, isTrueDistribution]
  cases divide 1 (2 * st.pMax * st.keyToFrequency.keys.card) <;>
    simp [prob, Sampler.prob, Sampler.expect]

/-- A draw has some outcome. -/
theorem expect_sample_const {d : Distribution} (h : d.probabilities.sum ≠ 0) (c : ℚ) :
    d.sample.expect (fun _ => c) = c := by
  rw [Distribution.sample, Sampler.expect]
  simp only [Sampler.expect_done]
  rw [← Finset.sum_mul, Sampler.sum_getD, mul_comm, mul_div_assoc, div_self h, mul_one]

/-- Promises stay. -/
theorem leaves_eq_zero {st : Proxy} {promises : Nat} (n : Nat) : ∀ (q : OpQueue) (b : Batch),
    promises < b.promises.length → st.leaves n q b promises = 0 := by
  induction n with
  | zero =>
      intro q b hlt
      exact if_neg (show ¬ b.promises.length = promises by omega)
  | succ n ih =>
      intro q b hlt
      rw [leaves, securitySlots, Sampler.prob, Sampler.expect_bind]
      refine Sampler.expect_zero (fun s => ?_) _
      refine ih s.1 (b.push s.2) ?_
      rw [Batch.push, List.length_append]
      omega

/-- **A slot** with an operation in the queue takes it, or draws a fake key. -/
theorem leaves_succ (st : Proxy) (n : Nat) {q : OpQueue} {p : Queued} {rest : List Queued}
    (hq : q.pending = p :: rest) (b : Batch) (promises : Nat) :
    st.leaves (n + 1) q b promises =
      st.realShare * st.leaves n { q.look with pending := rest ++ q.arrivals 0 }
        (b.push ⟨p.1, some p.2⟩) promises +
      (1 - st.realShare) * st.fakeDistribution.sample.expect fun key =>
        st.leaves n q (b.push ⟨⟨key, []⟩, none⟩) promises := by
  have hlook : q.look.pending = p :: (rest ++ q.arrivals 0) := by
    rw [OpQueue.look, hq, List.cons_append]
  rw [leaves, securitySlots, Sampler.prob, Sampler.expect_bind, securitySlot, Sampler.expect_bind,
    expect_isTrueDistribution]
  simp only [if_true, Bool.false_eq_true, if_false, hlook, Sampler.expect_map]
  rfl

/-- **The number taken is binomial**: as long as more operations are waiting,
`n` slots take exactly `k` off the queue as `n` tosses of the coin show `k` real
accesses. -/
theorem takes_binomial {st : Proxy} (hfake : st.fakeDistribution.probabilities.sum ≠ 0) (n : Nat) :
    ∀ (q : OpQueue) (b : Batch) (k : Nat), k < q.pending.length →
      (st.securitySlots n q b).prob (fun s => s.2.promises.length = b.promises.length + k)
        = n.choose k * st.realShare ^ k * (1 - st.realShare) ^ (n - k) := by
  induction n with
  | zero =>
      intro q b k _
      show (if b.promises.length = b.promises.length + k then (1 : ℚ) else 0) = _
      cases k with
      | zero => simp
      | succ k => simp
  | succ n ih =>
      intro q b k hk
      obtain ⟨p, rest, hq⟩ := List.exists_cons_of_length_pos (Nat.zero_lt_of_lt hk)
      have hstep := leaves_succ st n hq b (b.promises.length + k)
      have hfakes : ∀ key, st.leaves n q (b.push ⟨⟨key, []⟩, none⟩) (b.promises.length + k)
          = n.choose k * st.realShare ^ k * (1 - st.realShare) ^ (n - k) := by
        intro key
        have hlength : (b.push ⟨⟨key, []⟩, none⟩).promises.length = b.promises.length := by
          simp [Batch.push]
        rw [leaves, ← ih q (b.push ⟨⟨key, []⟩, none⟩) k hk, hlength]
      simp only [hfakes, expect_sample_const hfake] at hstep
      rw [leaves] at hstep
      rw [hstep]
      have hlength : (b.push ⟨p.1, some p.2⟩).promises.length = b.promises.length + 1 := by
        simp [Batch.push]
      cases k with
      | zero =>
          rw [leaves_eq_zero n _ _ (by rw [hlength]; omega)]
          simp
          ring
      | succ k =>
          have hrest : k < (rest ++ q.arrivals 0).length := by
            rw [hq, List.length_cons] at hk
            rw [List.length_append]
            omega
          have htaken := ih { q.look with pending := rest ++ q.arrivals 0 }
            (b.push ⟨p.1, some p.2⟩) k hrest
          rw [hlength, Nat.add_assoc, Nat.add_comm 1 k] at htaken
          rw [leaves, htaken, Nat.choose_succ_succ, Nat.succ_sub_succ]
          push_cast
          rcases Nat.lt_or_ge n (k + 1) with hlt | hle
          · rw [Nat.choose_eq_zero_of_lt hlt]
            push_cast
            ring
          · rw [show n - k = n - (k + 1) + 1 by omega]
            ring

/-- One key; the coin is fair. -/
def fairCoin : Proxy :=
  { blank with
    pMax := 1
    keyToFrequency := UnorderedMap.touch ∅ ['k']
    fakeDistribution := { items := [['k']], probabilities := [1] } }

/-- Of two waiting operations, three slots take one with probability 3/8. -/
theorem takes_binomial_fairCoin :
    (fairCoin.securitySlots 3 { pending := [(⟨['k'], []⟩, 0), (⟨['k'], []⟩, 1)] } ⟨[], [], []⟩).prob
      (fun s => s.2.promises.length = 1) = 3 / 8 := by
  have hshare : fairCoin.realShare = 1 / 2 := by
    have hcard : fairCoin.keyToFrequency.keys.card = 1 := by decide +kernel
    rw [realShare, isTrueDistribution, hcard]
    norm_num [fairCoin, divide, prob, Sampler.prob, Sampler.expect, Sampler.clamp]
  have hfake : fairCoin.fakeDistribution.probabilities.sum ≠ 0 := by norm_num [fairCoin]
  have htakes := takes_binomial hfake 3
    { pending := [(⟨['k'], []⟩, 0), (⟨['k'], []⟩, 1)] } ⟨[], [], []⟩ 1 (by decide)
  rw [hshare] at htakes
  refine htakes.trans ?_
  norm_num [Nat.choose]

end Proxy

end Pancake
