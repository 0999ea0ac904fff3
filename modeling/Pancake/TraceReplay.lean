import Pancake.Lib.Periods
import Pancake.AsyncClient
import Pancake.TraceLoader

/-!
# Replaying the trace

`run_benchmark` submits one batch of the trace after another until its time is
up. It takes the index of the next batch modulo the number of keys of the one
it has submitted, where the number of batches is meant, so how far it gets into
the trace depends on the sizes of the batches.

`clock` is what `elapsed` is found to be at the end of each turn, as far as
turns are looked at. The index is a natural number: to leave an `int` it would
have to pass `2 ^ 31` batches, each with more keys than its place. The latencies
measured are left out.
-/

open Periods

namespace Pancake

/-- A batch without values is got, another one is put. -/
def submit (batch : List Str × List Str) : ClientCall :=
  if batch.2 = [] then .getBatch batch.1 else .putBatch batch.1 batch.2

/-- The keys a call names. -/
def ClientCall.keys : ClientCall → List Str
  | .get key => [key]
  | .put key _ => [key]
  | .getBatch keys => keys
  | .putBatch keys _ => keys

theorem keys_submit (batch : List Str × List Str) : (submit batch).keys = batch.1 := by
  rw [submit]
  split <;> rfl

namespace Trace

/-- `trace[i]` -/
def batchAt (trace : Trace) (i : Nat) : Except Fault (List Str × List Str) :=
  match (trace)[i]? with
  | none => .error .indexOutOfBounds
  | some batch => .ok batch

/-- `(i+1)%keys_values_pair.first.size()` -/
def nextIndex (i : Nat) (batch : List Str × List Str) : Except Fault Nat :=
  if batch.1.length = 0 then .error .divisionByZero else .ok ((i + 1) % batch.1.length)

/-- The loop of `run_benchmark`: the calls made, and `i`. -/
def replay (trace : Trace) (runTime : Int) :
    List Int → Int → Nat → Except Fault (List ClientCall × Nat)
  | [], _, i => .ok ([], i)
  | reading :: clock, elapsed, i =>
      if elapsed < runTime * 1000000 then do
        let batch ← trace.batchAt i
        let next ← nextIndex i batch
        let (calls, last) ← replay trace runTime clock reading next
        .ok (submit batch :: calls, last)
      else .ok ([], i)

/-- `run_benchmark` -/
def runBenchmark (trace : Trace) (runTime : Int) (clock : List Int) :
    Except Fault (List ClientCall × Nat) :=
  trace.replay runTime clock 0 0

/-- However long the benchmark runs, its index is one of the trace, and it has
submitted the batches of the trace in order, over and over. -/
def Covered (trace : Trace) : Prop :=
  ∀ runTime clock, ∃ calls i, trace.runBenchmark runTime clock = .ok (calls, i) ∧
    i < trace.length ∧
    calls = (List.range calls.length).map fun k => submit (trace.getD (k % trace.length) ([], []))

/-- The number of keys of a batch. -/
def size (trace : Trace) (j : Nat) : Nat := (trace.getD j ([], [])).1.length

/-- Some batch of the trace is the first with no more keys than batches up to
it; and the batches of the trace repeat every greatest common divisor of their
number and the largest multiple of that size that is no larger than that place. -/
def TurnsRound (trace : Trace) : Prop :=
  ∃ last < trace.length, (∀ j < last, j + 1 < trace.size j) ∧ trace.size last ≤ last + 1 ∧
    ∀ j < trace.length, trace.getD j ([], []) = trace.getD
      (j % trace.length.gcd (trace.size last * ((last + 1) / trace.size last))) ([], [])

theorem size_pos (trace : Trace) (hb : ∀ batch ∈ trace, batch.1 ≠ []) :
    ∀ j < trace.length, 0 < trace.size j := by
  intro j hj
  rw [size, List.getD_eq_getElem?_getD, List.getElem?_eq_getElem hj, Option.getD_some]
  exact List.length_pos_iff.mpr (hb _ (List.getElem_mem hj))

/-! ## The calls of a run -/

theorem submit_injective : Function.Injective submit := by
  rintro ⟨keys, values⟩ ⟨keys', values'⟩ h
  simp only [submit] at h
  split at h <;> split at h <;> simp_all

/-- The index after `j`. -/
def next (trace : Trace) (j : Nat) : Nat := (j + 1) % trace.size j

/-- The turns the loop takes. -/
def turns (runTime : Int) : List Int → Int → Nat
  | [], _ => 0
  | reading :: clock, elapsed =>
      if elapsed < runTime * 1000000 then turns runTime clock reading + 1 else 0

theorem turns_replicate (m : Nat) : turns 1 (List.replicate m 0) 0 = m := by
  induction m with
  | zero => rfl
  | succ m ih =>
      rw [List.replicate_succ, turns, ih]
      rfl

variable {trace : Trace}

theorem batchAt_eq (i : Nat) :
    trace.batchAt i =
      if i < trace.length then .ok (trace.getD i ([], [])) else .error .indexOutOfBounds := by
  rw [batchAt]
  split
  · rename_i h
    rw [if_neg (not_lt.mpr (List.getElem?_eq_none_iff.mp h))]
  · rename_i h
    obtain ⟨hlt, rfl⟩ := List.getElem?_eq_some_iff.mp h
    rw [if_pos hlt, List.getD_eq_getElem?_getD, List.getElem?_eq_getElem hlt, Option.getD_some]

/-- **The loop** returns exactly if every index it uses is in the trace, and
then it has submitted the batches at these. -/
theorem replay_eq_ok (hb : ∀ j < trace.length, 0 < trace.size j) {runTime elapsed : Int}
    {clock : List Int} {i last : Nat} {calls : List ClientCall} :
    trace.replay runTime clock elapsed i = .ok (calls, last) ↔
      (∀ m < turns runTime clock elapsed, trace.next^[m] i < trace.length) ∧
      calls = (List.range (turns runTime clock elapsed)).map
        (fun m => submit (trace.getD (trace.next^[m] i) ([], []))) ∧
      last = trace.next^[turns runTime clock elapsed] i := by
  induction clock generalizing elapsed i calls with
  | nil => simp [replay, turns, eq_comm]
  | cons reading clock ih =>
      rw [replay, turns]
      by_cases hrun : elapsed < runTime * 1000000
      · rw [if_pos hrun, if_pos hrun, batchAt_eq]
        by_cases hi : i < trace.length
        · have hnext : nextIndex i (trace.getD i ([], [])) = .ok (trace.next i) :=
            if_neg (hb i hi).ne'
          rw [if_pos hi, ok_bind, hnext, ok_bind, bind_eq_ok, List.range_succ_eq_map, List.map_cons,
            List.map_map, Function.iterate_succ_apply]
          constructor
          · rintro ⟨⟨calls', last'⟩, hrest, he⟩
            obtain ⟨rfl, rfl⟩ := Prod.mk.inj (Except.ok.inj he)
            obtain ⟨hin, rfl, rfl⟩ := ih.mp hrest
            refine ⟨fun m hm => ?_, rfl, rfl⟩
            cases m with
            | zero => exact hi
            | succ m => exact hin m (by omega)
          · rintro ⟨hin, rfl, rfl⟩
            have hrest := ih.mpr ⟨fun m hm => hin (m + 1) (by omega), rfl, rfl⟩
            exact ⟨_, hrest, rfl⟩
        · rw [if_neg hi, error_bind]
          refine iff_of_false (by simp) fun h => hi (h.1 0 (Nat.succ_pos _))
      · rw [if_neg hrun, if_neg hrun]
        simp [eq_comm]

/-- What the trace's being covered says of the places of the walk. -/
theorem covered_iff_walk (hb : ∀ j < trace.length, 0 < trace.size j) :
    trace.Covered ↔ ∀ k, walk trace.next k < trace.length ∧
      trace.getD (walk trace.next k) ([], []) = trace.getD (k % trace.length) ([], []) := by
  constructor
  · intro h k
    obtain ⟨calls, i, hrun, hi, hcalls⟩ := h 1 (List.replicate (k + 1) 0)
    obtain ⟨hin, rfl, -⟩ := (replay_eq_ok hb).mp hrun
    rw [turns_replicate] at hin hcalls
    refine ⟨hin k (Nat.lt_succ_self k), submit_injective ?_⟩
    have hk := congrArg (·[k]?) hcalls
    simpa [walk] using hk
  · intro h runTime clock
    refine ⟨_, _, (replay_eq_ok hb).mpr ⟨fun m _ => (h m).1, rfl, rfl⟩, (h _).1, ?_⟩
    rw [List.length_map, List.length_range]
    exact List.map_congr_left fun k _ => congrArg submit (h k).2

/-- The walk turns back at the first batch with no more keys than batches up
to it. -/
theorem turnsBack_next {last : Nat} (hpos : 0 < trace.size last)
    (hup : ∀ j < last, j + 1 < trace.size j) (hlast : trace.size last ≤ last + 1) :
    TurnsBack trace.next last ((last + 1) % trace.size last) where
  up j hj := Nat.mod_eq_of_lt (hup j hj)
  turn := rfl
  le := by
    have := Nat.mod_lt (last + 1) hpos
    omega

/-- The index turns round inside the trace whenever the batches let it, and the
batches agree with where it turns. -/
theorem covered_iff_turnsRound (hpos : ∀ j < trace.length, 0 < trace.size j) :
    trace.Covered ↔ trace.TurnsRound := by
  have hround : ∀ last, last + 1 - (last + 1) % trace.size last
      = trace.size last * ((last + 1) / trace.size last) := by
    intro last
    have := Nat.div_add_mod (last + 1) (trace.size last)
    omega
  rw [covered_iff_walk hpos]
  constructor
  · intro h
    have hturn : ∃ j, j < trace.length ∧ trace.size j ≤ j + 1 := by
      by_contra hc
      push Not at hc
      -- else the walk goes straight out of the trace
      have hout := walk_of_up (fun j hj => Nat.mod_eq_of_lt (hc j hj)) (le_refl trace.length)
      have hin := (h trace.length).1
      rw [show walk trace.next trace.length = trace.length from hout] at hin
      exact lt_irrefl _ hin
    obtain ⟨hlast, hle⟩ := Nat.find_spec hturn
    have hup : ∀ j < Nat.find hturn, j + 1 < trace.size j := by
      intro j hj
      by_contra hc
      exact Nat.find_min hturn hj ⟨by omega, by omega⟩
    refine ⟨Nat.find hturn, hlast, hup, hle, ?_⟩
    rw [← hround]
    exact ((turnsBack_next (hpos _ hlast) hup hle).reads_iff hlast _).mp fun k => (h k).2
  · rintro ⟨last, hlast, hup, hle, hrepeats⟩ k
    rw [← hround] at hrepeats
    have hback := turnsBack_next (hpos _ hlast) hup hle
    exact ⟨lt_of_le_of_lt (hback.walk_le k) hlast, (hback.reads_iff hlast _).mpr hrepeats k⟩

/-- When no two batches are equal, only a walk to the last one and back to the
first covers the trace. -/
theorem turnsRound_iff_of_nodup (hne : trace ≠ []) (hpos : ∀ j < trace.length, 0 < trace.size j)
    (hnd : trace.Nodup) :
    trace.TurnsRound ↔ (∀ j < trace.length - 1, j + 1 < trace.size j) ∧
      trace.size (trace.length - 1) ≤ trace.length ∧
      trace.size (trace.length - 1) ∣ trace.length := by
  have hlen : 0 < trace.length := List.length_pos_iff.mpr hne
  constructor
  · rintro ⟨last, hlast, hup, hle, hrepeats⟩
    generalize hround : trace.size last * ((last + 1) / trace.size last) = round at hrepeats
    have hroundPos : 0 < round := by
      rw [← hround]
      exact Nat.mul_pos (hpos last hlast) (Nat.div_pos hle (hpos last hlast))
    have hroundLe : round ≤ last + 1 := hround ▸ Nat.mul_div_le _ _
    have hgcd : ¬ trace.length.gcd round < trace.length := by
      intro hlt
      -- a shorter period would repeat the first batch
      have hsame := hrepeats _ hlt
      rw [Nat.mod_self, List.getD_eq_getElem?_getD, List.getD_eq_getElem?_getD,
        List.getElem?_eq_getElem hlt, List.getElem?_eq_getElem hlen, Option.getD_some,
        Option.getD_some] at hsame
      have hzero := hnd.getElem_inj_iff.mp hsame
      have := Nat.gcd_pos_of_pos_left round hlen
      omega
    have hdvd : trace.length ∣ round := by
      have heq : trace.length.gcd round = trace.length :=
        le_antisymm (Nat.gcd_le_left _ hlen) (not_lt.mp hgcd)
      rw [← heq]
      exact Nat.gcd_dvd_right _ _
    have hge := Nat.le_of_dvd hroundPos hdvd
    obtain rfl : last = trace.length - 1 := by omega
    refine ⟨hup, by omega, (trace.length - 1 + 1) / trace.size (trace.length - 1), ?_⟩
    rw [hround]
    omega
  · rintro ⟨hup, hle, hdvd⟩
    have hlast : trace.length - 1 + 1 = trace.length := by omega
    refine ⟨trace.length - 1, by omega, hup, by omega, fun j hj => ?_⟩
    rw [hlast, Nat.mul_div_cancel' hdvd, Nat.gcd_self, Nat.mod_eq_of_lt hj]

/-! ## Whole rounds -/

/-- The first batches, round after round. -/
theorem map_range_rounds {A : Type} (f : Nat → A) (n m : Nat) :
    (List.range (m * n)).map (fun k => f (k % n))
      = (List.replicate m ((List.range n).map f)).flatten := by
  induction m with
  | zero => simp
  | succ m ih =>
      rw [Nat.succ_mul, List.range_add, List.map_append, ih, List.replicate_succ',
        List.flatten_append, List.flatten_singleton, List.map_map]
      congr 1
      apply List.map_congr_left
      intro j hj
      have hlt := List.mem_range.mp hj
      show f ((m * n + j) % n) = f j
      rw [Nat.mul_comm, Nat.mul_add_mod, Nat.mod_eq_of_lt hlt]

theorem map_range_getD (trace : Trace) :
    (List.range trace.length).map (fun j => trace.getD j ([], [])) = trace := by
  apply List.ext_getElem (by simp)
  intro j hj hj'
  simp [hj']

/-- The keys the batches name, in order. -/
def keys (trace : Trace) : List Str := trace.flatMap Prod.fst

/-- A run of whole rounds submits the trace that many times. -/
theorem Covered.rounds (h : trace.Covered) (hpos : ∀ j < trace.length, 0 < trace.size j)
    {runTime : Int} {clock : List Int} {m : Nat} (hm : turns runTime clock 0 = m * trace.length) :
    ∃ i, trace.runBenchmark runTime clock =
      .ok ((List.replicate m (trace.map submit)).flatten, i) := by
  obtain ⟨calls, i, hrun, -, hcalls⟩ := h runTime clock
  have hlength : calls.length = m * trace.length := by
    rw [((replay_eq_ok hpos).mp hrun).2.1, List.length_map, List.length_range, hm]
  have hrounds := map_range_rounds (fun j => submit (trace.getD j ([], []))) trace.length m
  have hone : (List.range trace.length).map (fun j => submit (trace.getD j ([], [])))
      = trace.map submit := by
    conv_rhs => rw [← trace.map_range_getD, List.map_map]
    rfl
  rw [hlength, hrounds, hone] at hcalls
  exact ⟨i, by rw [hrun, hcalls]⟩

/-- The keys named in `m` rounds. -/
theorem flatMap_rounds (trace : Trace) (m : Nat) :
    (List.replicate m (trace.map submit)).flatten.flatMap ClientCall.keys
      = (List.replicate m trace.keys).flatten := by
  have hone : (trace.map submit).flatMap ClientCall.keys = trace.keys := by
    rw [List.flatMap_map, keys]
    simp only [keys_submit]
  induction m with
  | zero => rfl
  | succ m ih =>
      rw [List.replicate_succ, List.flatten_cons, List.flatMap_append, ih, hone,
        List.replicate_succ, List.flatten_cons]

theorem count_rounds (trace : Trace) (m : Nat) (key : Str) :
    ((List.replicate m trace.keys).flatten).count key = m * trace.keys.count key := by
  rw [List.count_flatten, List.map_replicate, List.sum_replicate, smul_eq_mul]

/-- **The trace is covered** by a run of any length exactly if the index turns
round inside it and the batches agree with where it turns. Then any run of
whole rounds names each key in proportion. -/
theorem covered_iff {trace : Trace} (hb : ∀ batch ∈ trace, batch.1 ≠ []) :
    (trace.Covered ↔ trace.TurnsRound) ∧
    (trace.Covered → ∀ runTime clock m, turns runTime clock 0 = m * trace.length →
      ∃ calls i, trace.runBenchmark runTime clock = .ok (calls, i) ∧
        ∀ key, (calls.flatMap ClientCall.keys).count key = m * trace.keys.count key) := by
  have hpos := trace.size_pos hb
  refine ⟨covered_iff_turnsRound hpos, fun h runTime clock m hm => ?_⟩
  obtain ⟨i, hrun⟩ := h.rounds hpos hm
  refine ⟨_, i, hrun, fun key => ?_⟩
  rw [flatMap_rounds, count_rounds]

/-- Two batches of two keys: the index goes to the second and back. -/
theorem covered_iff_twoPairs :
    Covered [([['a'], ['b']], []), ([['c'], ['d']], [['v'], ['w']])] ∧
    ∃ calls i, runBenchmark [([['a'], ['b']], []), ([['c'], ['d']], [['v'], ['w']])] 1 [0, 0]
      = .ok (calls, i) ∧ (calls.flatMap ClientCall.keys).count ['d'] = 1 * 1 := by
  obtain ⟨hiff, hrounds⟩ := @covered_iff
    [([['a'], ['b']], []), ([['c'], ['d']], [['v'], ['w']])] (by simp)
  have hcovered := hiff.mpr ⟨1, by decide, by decide, by decide, by decide⟩
  obtain ⟨calls, i, hrun, hcount⟩ := hrounds hcovered 1 [0, 0] 1 (by decide)
  exact ⟨hcovered, calls, i, hrun, hcount ['d']⟩

/-- **The failing traces**: of three batches of two keys the third is never
submitted, and of one batch of two keys there is no second. -/
theorem trace_cut_short :
    runBenchmark [([['a'], ['b']], []), ([['c'], ['d']], []), ([['e'], ['f']], [])] 1 [0, 0, 0]
      = .ok ([.getBatch [['a'], ['b']], .getBatch [['c'], ['d']], .getBatch [['a'], ['b']]], 1) ∧
    runBenchmark [([['a'], ['b']], [])] 1 [0, 0] = .error .indexOutOfBounds ∧
    ¬ Covered [([['a'], ['b']], []), ([['c'], ['d']], []), ([['e'], ['f']], [])] ∧
    ¬ Covered [([['a'], ['b']], [])] := by
  have hshort : runBenchmark [([['a'], ['b']], []), ([['c'], ['d']], []), ([['e'], ['f']], [])] 1
      [0, 0, 0] = .ok ([.getBatch [['a'], ['b']], .getBatch [['c'], ['d']],
        .getBatch [['a'], ['b']]], 1) := by decide
  have hout : runBenchmark [([['a'], ['b']], [])] 1 [0, 0] = .error .indexOutOfBounds := by decide
  refine ⟨hshort, hout, fun h => ?_, fun h => ?_⟩
  · obtain ⟨calls, i, hrun, -, hcalls⟩ := h 1 [0, 0, 0]
    obtain ⟨rfl, rfl⟩ := Prod.mk.inj (Except.ok.inj (hshort.symm.trans hrun))
    revert hcalls
    decide
  · obtain ⟨calls, i, hrun, -⟩ := h 1 [0, 0]
    cases hout.symm.trans hrun

/-! ## The trace the proxy was initialised with -/

theorem Paired.count_keys (h : trace.Paired) (key : Str) : trace.keys.count key =
    trace.getBatches.flatten.count key + (trace.putBatches.flatten.map Prod.fst).count key := by
  induction trace with
  | nil => rfl
  | cons batch trace ih =>
      have hrest := ih fun x hx => h x (List.mem_cons_of_mem _ hx)
      have hkeys : keys (batch :: trace) = batch.1 ++ keys trace := List.flatMap_cons
      rw [hkeys, List.count_append, hrest]
      by_cases hget : batch.2 = []
      · simp [getBatches, putBatches, hget, Nat.add_assoc]
      · have hzip : (batch.1.zip batch.2).map Prod.fst = batch.1 :=
          List.map_fst_zip ((h batch List.mem_cons_self).resolve_left hget).le
        simp [getBatches, putBatches, hget, hzip, Nat.add_left_comm]

end Trace

theorem timesNamed_eq (ops : List Operation) (key : Str) : timesNamed ops key =
    (keysGot ops).count key + ((pairsPut ops).map Prod.fst).count key := by
  induction ops with
  | nil => rfl
  | cons op ops ih =>
      have hcons : timesNamed (op :: ops) key
          = timesNamed ops key + if op.key == key then 1 else 0 := List.count_cons
      rw [hcons, ih]
      by_cases hget : op.value = []
      · simp [keysGot, pairsPut, hget, List.count_cons, Nat.add_right_comm]
      · simp [keysGot, pairsPut, hget, List.count_cons, Nat.add_assoc]

/-- What a loader makes of a workload names the keys as often as it does. -/
theorem keys_perm {ops : List Operation} {b : Nat} {trace : Trace}
    (hgets : Chunked b (keysGot ops) trace.getBatches)
    (hputs : Chunked b (pairsPut ops) trace.putBatches) (h : trace.Paired) :
    trace.keys.Perm (ops.map Operation.key) := by
  rw [List.perm_iff_count]
  intro key
  rw [h.count_keys, hgets.flatten, hputs.flatten]
  exact (timesNamed_eq ops key).symm

/-- The batches of a loaded trace are not empty. -/
theorem batches_ne_nil {ops : List Operation} {b : Nat} {trace : Trace}
    (hgets : Chunked b (keysGot ops) trace.getBatches)
    (hputs : Chunked b (pairsPut ops) trace.putBatches) : ∀ batch ∈ trace, batch.1 ≠ [] := by
  intro batch hbatch hempty
  by_cases hget : batch.2 = []
  · have hmem : batch.1 ∈ trace.getBatches := by
      refine List.mem_map_of_mem (List.mem_filter.mpr ⟨hbatch, ?_⟩)
      simpa using hget
    have hsize := (hgets.size _ hmem).1
    simp [hempty] at hsize
  · have hmem : batch.1.zip batch.2 ∈ trace.putBatches := by
      refine List.mem_map.mpr ⟨batch, List.mem_filter.mpr ⟨hbatch, ?_⟩, rfl⟩
      simpa using hget
    have hsize := (hputs.size _ hmem).1
    simp [hempty] at hsize

/-- **The workload replayed**: if the benchmark's trace turns round, a run of
whole rounds names every key in the proportion that the proxy, which was
initialised from the same file, takes it to have. -/
theorem replayed_in_proportion (order : IterationOrder CInt) {ops : List Operation} {b : Nat}
    {text : Str} (hne : ops ≠ []) (hlen : ops.length < 2 ^ 31) (hops : ∀ op ∈ ops, op.Recordable)
    (hb : 1 ≤ b) (htext : Records text ops) :
    ∃ trace dist, loadFrequenciesFromTrace order b (some text) = .ok (trace, dist) ∧
      loadTrace b (some text) = .ok trace ∧
      (trace.TurnsRound → ∀ runTime clock m, Trace.turns runTime clock 0 = m * trace.length →
        ∃ calls i, trace.runBenchmark runTime clock = .ok (calls, i) ∧
          ∀ pair ∈ dist.pairs, ((calls.flatMap ClientCall.keys).count pair.1 : ℚ)
            = pair.2 * (calls.flatMap ClientCall.keys).length) := by
  obtain ⟨trace, dist, hload, hload', hgets, hputs, hpaired, hshares⟩ :=
    exists_loaded order hlen hops hb htext
  have hperm := keys_perm hgets hputs hpaired
  refine ⟨trace, dist, hload, hload', fun hturns runTime clock m hm => ?_⟩
  have hpos := trace.size_pos (batches_ne_nil hgets hputs)
  obtain ⟨i, hrun⟩ := ((Trace.covered_iff_turnsRound hpos).mpr hturns).rounds hpos hm
  refine ⟨_, i, hrun, fun pair hpair => ?_⟩
  rw [Distribution.pairs, hshares.probabilities, ← List.map_prod_left_eq_zip] at hpair
  obtain ⟨key, -, rfl⟩ := List.mem_map.mp hpair
  have hcount : trace.keys.count key = timesNamed ops key := hperm.count_eq key
  have hlength : (List.replicate m trace.keys).flatten.length = m * ops.length := by
    rw [List.length_flatten, List.map_replicate, List.sum_replicate, smul_eq_mul, hperm.length_eq,
      List.length_map]
  have hcast : (ops.length : ℚ) ≠ 0 :=
    Nat.cast_ne_zero.mpr fun hc => hne (List.length_eq_zero_iff.mp hc)
  rw [Trace.flatMap_rounds, Trace.count_rounds, hcount, hlength]
  push_cast
  field_simp

end Pancake
