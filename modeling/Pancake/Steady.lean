import Pancake.UniformAccess

/-!
# The invariant of any run

What every state between `init` and a distribution update has, whatever the
labels of its batches were: every live replica can be read, every pending
value encrypted, and both distributions only draw keys that have a replica.
It is all a call needs in order to return.
-/

namespace Pancake

open LazyReplicas

namespace Proxy

/-- The distribution draws something, and only keys that have a replica. -/
structure Draws (st : Proxy) (d : Distribution) : Prop where
  total : 0 < d.probabilities.sum
  live : ∀ i, 0 < d.probabilities.getD i 0 → 0 < st.replicas (d.items.getD i [])

/-- The state of a proxy whose distribution does not change. -/
structure Steady (st : Proxy) : Prop extends Sound st where
  real : st.Draws st.realDistribution
  fake : st.Draws st.fakeDistribution

theorem Draws.frame {st st' : Proxy} {d : Distribution} (h : st.Draws d) (hf : Frame st st') :
    st'.Draws d :=
  ⟨h.total, by rw [hf.replicas]; exact h.live⟩

/-- **The step**: from a steady state a call returns in a steady state. -/
theorem Steady.executeBatchWith {st : Proxy} (h : st.Steady) {b : Batch}
    (hb : b.WellFormed st.encryptionEngine) {ids : List Nat}
    (hids : List.Forall₂ (fun op id => id < st.replicas op.key) b.operations ids) :
    ∃ st' fulfilled, st.executeBatchWith b ids = .ok (st', fulfilled) ∧
      Executed st b ids st' fulfilled ∧ st'.Steady := by
  obtain ⟨st', fulfilled, hrun, hx, hsound⟩ := h.toSound.executeBatchWith hb hids
  have hreal : st'.realDistribution = st.realDistribution := by rw [hx.frame.rest]
  have hfake : st'.fakeDistribution = st.fakeDistribution := by rw [hx.frame.rest]
  refine ⟨st', fulfilled, hrun, hx, { hsound with real := ?_, fake := ?_ }⟩
  · rw [hreal]
    exact h.real.frame hx.frame
  · rw [hfake]
    exact h.fake.frame hx.frame

/-! ## After `create_replicas` -/

theorem count_pos_of_mem_keyBlocks {alpha : ℚ} {values : Nat → Str} {items : List (Str × ℚ)}
    (index : Nat) (hp : ∀ item ∈ items, 0 < replicaCount alpha item.2) :
    ∀ b ∈ keyBlocks alpha values index items, 0 < b.count := by
  induction items generalizing index with
  | nil => intro b hb; simp [keyBlocks] at hb
  | cons item items ih =>
      intro b hb
      rw [keyBlocks, List.mem_cons] at hb
      rcases hb with rfl | hb
      · exact hp item (by simp)
      · exact ih (index + 1) (fun item hitem => hp item (List.mem_cons_of_mem _ hitem)) b hb

section Created

variable {st st' : Proxy} {values : Nat → Str} (h : Created st values st') (hfresh : st.Fresh)
include h hfresh

/-- A key with a block has replicas, if no count is zero. -/
theorem Created.replicas_pos_of_mem
    (hcounts : ∀ p ∈ st.realDistribution.probabilities, 0 < replicaCount st.alpha p) {k : Str}
    (hk : k ∈ (st.allBlocks values).map Block.key) : 0 < st'.replicas k := by
  obtain ⟨n, hn⟩ := Finmap.mem_iff.mp (mem_insertCounts (m := ∅) (.inr hk))
  rw [Proxy.replicas, h.counts, hfresh.counts, UnorderedMap.at_, hn]
  rcases lookup_insertCounts_cases hn with hc | ⟨b, hb, -, rfl⟩
  · simp at hc
  · rw [allBlocks, List.mem_append] at hb
    rcases hb with hb | hb
    · exact count_pos_of_mem_keyBlocks 0 (fun item hitem =>
        hcounts _ (List.of_mem_zip hitem).2) b hb
    · rw [dummyBlocks] at hb
      split_ifs at hb with hd
      · cases hb
      · rw [List.mem_singleton.mp hb]
        exact Nat.pos_of_ne_zero hd

theorem Created.replicas_pos {delta : ℚ}
    (ha : CallerArguments st.realDistribution st.alpha delta) {k : Str}
    (hk : k ∈ st.realDistribution.items ++ [st.dummyKey]) : 0 < st'.replicas k := by
  have hd : 1 ≤ st.dummyCount values := (dummyCount_eq ha values).2.1
  refine h.replicas_pos_of_mem hfresh (fun p hp => ha.one_le_replicaCount hp) ?_
  rw [allBlocks, dummyBlocks, if_neg (by omega), List.map_append, keyBlocks_map_key,
    pairs_map_fst ha.lengths]
  exact hk

/-- **Initially**: `create_replicas` leaves a steady state. -/
theorem Created.steady (ha : CallerArguments st.realDistribution st.alpha st.delta)
    (hv : ∀ i, st.encryptionEngine.RoundTrips (values i)) : st'.Steady := by
  have hdraws : ∀ d : Distribution, d.items.length = d.probabilities.length →
      d.probabilities.sum = 1 → (∀ k ∈ d.items, k ∈ st.realDistribution.items ++ [st.dummyKey]) →
      st'.Draws d := by
    intro d hlen hsum hkeys
    refine ⟨by rw [hsum]; exact one_pos, fun i hi => h.replicas_pos hfresh ha (hkeys _ ?_)⟩
    exact possible_sample hlen ⟨i, hi, rfl⟩
  have hreal : st'.realDistribution = st.realDistribution := by rw [h.rest]
  have hfake : st'.fakeDistribution = { items := st.realDistribution.items ++ [st.dummyKey]
                                        probabilities := st.fakeWeights values } := by rw [h.rest]
  refine { h.sound hfresh hv with real := ?_, fake := ?_ }
  · rw [hreal]
    exact hdraws _ ha.lengths ha.normalised fun k hk => List.mem_append_left _ hk
  · rw [hfake]
    refine hdraws _ ?_ (fakeWeights_sum ha values).2 fun k hk => hk
    rw [fakeWeights_eq ha]
    simp [ha.lengths]

end Created

end Proxy

end Pancake
