import Mathlib.Data.Char
import Mathlib.Data.Finset.Sort
import Mathlib.Data.List.Lex
import Pancake.Lib.Chunks
import Pancake.FrequencySmoothing
import Pancake.Queue

/-!
# The trace loaders

The server and the benchmark read the same workload file, one operation a
line: the benchmark for the batches to send, the server for the frequencies of
the keys. Both split the lines by hand, gather gets and puts in two buffers
that they put aside when they are full, and count the keys.

`b` is `client_batch_size`, and the file is its characters, or nothing if it
cannot be opened.
-/

namespace Pancake

/-! ## Lines -/

/-- The lines `std::getline` extracts until it finds none. -/
def getlines : Str → List Str
  | [] => []
  | '\n' :: text => [] :: getlines text
  | c :: text => match getlines text with
    | [] => [[c]]
    | line :: lines => (c :: line) :: lines

/-- `s.find(" ")`, with nothing for `npos`. -/
def findSpace (s : Str) : Option Nat := s.findIdx? (· = ' ')

/-- `s.substr(0, s.find(" "))`: all of it if there is no space. -/
def beforeSpace (s : Str) : Str :=
  match findSpace s with
  | none => s
  | some i => s.take i

/-- `s.substr(s.find(" ")+1)`: `npos + 1` is zero. -/
def afterSpace (s : Str) : Str :=
  match findSpace s with
  | none => s.drop 0
  | some i => s.drop (i + 1)

/-- The key and the value of a line: what follows its first space, cut at the
next one if there is one. -/
def splitLine (line : Str) : Str × Str :=
  let key := afterSpace line
  if findSpace key ≠ none then (beforeSpace key, afterSpace key) else (key, [])

/-! ## Batches and frequencies -/

/-- `trace_vector`: batches of keys, with the values to put, or with no values
if they are to be got. -/
abbrev Trace := List (List Str × List Str)

/-- The locals of the loaders. -/
structure TraceLoop where
  trace : Trace := []
  getKeys : List Str := []
  putKeys : List Str := []
  putValues : List Str := []
  keyToFrequency : UnorderedMap CInt := ∅
  frequencySum : CInt := 0

namespace TraceLoop

/-- A get: its key is gathered, and the batch put aside if it is full. -/
def addGet (b : Nat) (s : TraceLoop) (key : Str) : TraceLoop :=
  let getKeys := s.getKeys ++ [key]
  if getKeys.length = b then { s with trace := s.trace ++ [(getKeys, [])], getKeys := [] }
  else { s with getKeys := getKeys }

/-- A put. -/
def addPut (b : Nat) (s : TraceLoop) (key value : Str) : TraceLoop :=
  let putKeys := s.putKeys ++ [key]
  let putValues := s.putValues ++ [value]
  if putKeys.length = b then
    { s with trace := s.trace ++ [(putKeys, putValues)], putKeys := [], putValues := [] }
  else { s with putKeys := putKeys, putValues := putValues }

/-- The key counts once more. -/
def countKey (s : TraceLoop) (key : Str) : TraceLoop :=
  { s with
    keyToFrequency :=
      if key ∉ s.keyToFrequency then s.keyToFrequency.insert key 1
      else s.keyToFrequency.insert key (UnorderedMap.at_ s.keyToFrequency key + 1)
    frequencySum := s.frequencySum + 1 }

/-- The body of the loop over the lines. -/
def loadLine (b : Nat) (s : TraceLoop) (line : Str) : Except Fault TraceLoop := do
  let (key, value) := splitLine line
  let s := if value = [] then s.addGet b key else s.addPut b key value
  let _ ← assert (key ≠ ['P', 'U', 'T'])
  let _ ← assert (key ≠ ['G', 'E', 'T'])
  .ok (s.countKey key)

/-- The batches, those that did not fill up last. -/
def batches (s : TraceLoop) : Trace :=
  let trace := if 0 < s.getKeys.length then s.trace ++ [(s.getKeys, [])] else s.trace
  if 0 < s.putKeys.length then trace ++ [(s.putKeys, s.putValues)] else trace

end TraceLoop

/-- An order in which an `unordered_map` is iterated: any, with each entry once. -/
structure IterationOrder (V : Type) where
  entries : UnorderedMap V → List (Str × V)
  nodup : ∀ m, ((entries m).map Prod.fst).Nodup
  mem_entries : ∀ m k v, (k, v) ∈ entries m ↔ m.lookup k = some v

/-- The order of the keys. -/
def IterationOrder.byKey {V : Type} [Inhabited V] : IterationOrder V where
  entries m := m.keys.sort.map fun key => (key, UnorderedMap.at_ m key)
  nodup m := by
    rw [List.map_map]
    simp [Function.comp_def]
  mem_entries m k v := by
    simp only [List.mem_map, Finset.mem_sort, Finmap.mem_keys, Prod.mk.injEq]
    constructor
    · rintro ⟨key, hkey, rfl, rfl⟩
      obtain ⟨v, hv⟩ := Finmap.mem_iff.mp hkey
      rw [UnorderedMap.at_, hv, Option.getD_some]
    · intro hv
      refine ⟨k, Finmap.mem_of_lookup_eq_some hv, rfl, ?_⟩
      rw [UnorderedMap.at_, hv, Option.getD_some]

/-- The loop over `key_to_frequency`, and the distribution made from it. -/
def TraceLoop.distribution (order : IterationOrder CInt) (s : TraceLoop) : Distribution where
  items := (order.entries s.keyToFrequency).map Prod.fst
  probabilities := (order.entries s.keyToFrequency).map fun pair =>
    (pair.2.toInt : ℚ) / (s.frequencySum.toInt : ℚ)

/-- What both loaders make of the file. The loops of `load_frequencies_from_trace`
in the server and of `load_trace` in the benchmark are the same statements in
the same order, and have this one body here. -/
def readTrace (b : Nat) (workload : Option Str) : Except Fault TraceLoop :=
  (getlines (workload.getD [])).foldlM (TraceLoop.loadLine b) {}

/-- `load_frequencies_from_trace` -/
def loadFrequenciesFromTrace (order : IterationOrder CInt) (b : Nat) (workload : Option Str) :
    Except Fault (Trace × Distribution) :=
  (readTrace b workload).map fun s => (s.batches, s.distribution order)

/-- `load_trace`, which counts the keys as well and leaves the counts. -/
def loadTrace (b : Nat) (workload : Option Str) : Except Fault Trace :=
  (readTrace b workload).map TraceLoop.batches

/-! ## Workload files -/

/-- The line of an operation. -/
def Operation.line (op : Operation) : Str :=
  if op.value = [] then ['G', 'E', 'T'] ++ ' ' :: op.key
  else ['P', 'U', 'T'] ++ ' ' :: (op.key ++ ' ' :: op.value)

/-- What can be written in a workload file: a key without spaces that is no
name of an operation, and no newlines. -/
structure Operation.Recordable (op : Operation) : Prop where
  key_ne : op.key ≠ []
  space : ' ' ∉ op.key
  newline : '\n' ∉ op.key
  put : op.key ≠ ['P', 'U', 'T']
  get : op.key ≠ ['G', 'E', 'T']
  value : '\n' ∉ op.value

/-- The lines, each with its newline. -/
def unlines (lines : List Str) : Str := (lines.map (· ++ ['\n'])).flatten

/-- A file with these operations, one a line. The last newline may be missing. -/
def Records (text : Str) (ops : List Operation) : Prop :=
  text = unlines (ops.map Operation.line) ∨ text = (unlines (ops.map Operation.line)).dropLast

theorem getlines_cons {c : Char} (hc : c ≠ '\n') (text : Str) :
    getlines (c :: text) = match getlines text with
      | [] => [[c]]
      | line :: lines => (c :: line) :: lines := by
  rw [getlines]
  exact hc

theorem getlines_append {line : Str} (h : '\n' ∉ line) (text : Str) :
    getlines (line ++ '\n' :: text) = line :: getlines text := by
  induction line with
  | nil => rfl
  | cons c line ih =>
      rw [List.mem_cons, not_or] at h
      rw [List.cons_append, getlines_cons (Ne.symm h.1), ih h.2]

theorem getlines_last {line : Str} (h : '\n' ∉ line) (hne : line ≠ []) :
    getlines line = [line] := by
  induction line with
  | nil => exact absurd rfl hne
  | cons c line ih =>
      rw [List.mem_cons, not_or] at h
      rw [getlines_cons (Ne.symm h.1)]
      by_cases hline : line = []
      · rw [hline, getlines]
      · rw [ih h.2 hline]

theorem unlines_cons (line : Str) (lines : List Str) :
    unlines (line :: lines) = line ++ '\n' :: unlines lines := by
  simp [unlines]

/-- Reading the lines back. -/
theorem getlines_unlines {lines : List Str} (h : ∀ line ∈ lines, '\n' ∉ line) :
    getlines (unlines lines) = lines := by
  induction lines with
  | nil => rfl
  | cons line lines ih =>
      rw [List.forall_mem_cons] at h
      rw [unlines_cons, getlines_append h.1, ih h.2]

/-- The last newline makes no difference after a line that is not empty. -/
theorem getlines_dropLast {lines : List Str} (h : ∀ line ∈ lines, '\n' ∉ line ∧ line ≠ []) :
    getlines (unlines lines).dropLast = lines := by
  induction lines with
  | nil => rfl
  | cons line lines ih =>
      rw [List.forall_mem_cons] at h
      obtain ⟨⟨hline, hne⟩, hlines⟩ := h
      rw [unlines_cons]
      cases lines with
      | nil =>
          rw [show unlines [] = [] from rfl, List.dropLast_concat, getlines_last hline hne]
      | cons line' lines =>
          have hrest : unlines (line' :: lines) ≠ [] := by simp [unlines_cons]
          rw [List.dropLast_append_of_ne_nil (by simp), List.dropLast_cons_of_ne_nil hrest,
            getlines_append hline, ih hlines]

/-! ## Splitting a line -/

theorem findSpace_append {word : Str} (h : ' ' ∉ word) (rest : Str) :
    findSpace (word ++ ' ' :: rest) = some word.length := by
  induction word with
  | nil => rfl
  | cons c word ih =>
      rw [List.mem_cons, not_or] at h
      have := ih h.2
      rw [findSpace] at this ⊢
      rw [List.cons_append, List.findIdx?_cons, this]
      simp [Ne.symm h.1]

theorem findSpace_eq_none {word : Str} (h : ' ' ∉ word) : findSpace word = none := by
  rw [findSpace, List.findIdx?_eq_none_iff]
  intro c hc
  rw [decide_eq_false_iff_not]
  exact fun he => h (he ▸ hc)

theorem beforeSpace_append {word : Str} (h : ' ' ∉ word) (rest : Str) :
    beforeSpace (word ++ ' ' :: rest) = word := by
  rw [beforeSpace, findSpace_append h]
  exact List.take_left

theorem afterSpace_append {word : Str} (h : ' ' ∉ word) (rest : Str) :
    afterSpace (word ++ ' ' :: rest) = rest := by
  rw [afterSpace, findSpace_append h]
  show (word ++ ' ' :: rest).drop (word.length + 1) = rest
  rw [← List.singleton_append, ← List.append_assoc]
  exact List.drop_left' (by simp)

/-- **The line of an operation** splits into its key and its value. -/
theorem splitLine_line {op : Operation} (h : op.Recordable) :
    splitLine op.line = (op.key, op.value) := by
  rw [Operation.line]
  split
  · rename_i hget
    rw [splitLine, afterSpace_append (by decide), if_neg (by simp [findSpace_eq_none h.space]),
      hget]
  · rw [splitLine, afterSpace_append (by decide), if_pos (by simp [findSpace_append h.space]),
      beforeSpace_append h.space, afterSpace_append h.space]

theorem line_noNewline {op : Operation} (h : op.Recordable) : '\n' ∉ op.line ∧ op.line ≠ [] := by
  rw [Operation.line]
  split
  · simp [h.newline]
  · simp [h.newline, h.value]

/-- **The lines of a file** are those of its operations. -/
theorem Records.getlines {text : Str} {ops : List Operation} (h : Records text ops)
    (hops : ∀ op ∈ ops, op.Recordable) : getlines text = ops.map Operation.line := by
  have hlines : ∀ line ∈ ops.map Operation.line, '\n' ∉ line ∧ line ≠ [] := by
    intro line hline
    obtain ⟨op, hop, rfl⟩ := List.mem_map.mp hline
    exact line_noNewline (hops op hop)
  rcases h with rfl | rfl
  · exact getlines_unlines fun line hline => (hlines line hline).1
  · exact getlines_dropLast hlines

/-! ## What the loop gathers -/

/-- The keys of the gets. -/
def keysGot (ops : List Operation) : List Str :=
  (ops.filter fun op => op.value = []).map Operation.key

/-- The keys and values of the puts. -/
def pairsPut (ops : List Operation) : List (Str × Str) :=
  (ops.filter fun op => op.value ≠ []).map fun op => (op.key, op.value)

/-- How often the operations name a key. -/
def timesNamed (ops : List Operation) (key : Str) : Nat := (ops.map Operation.key).count key

namespace Trace

/-- The batches of gets. -/
def getBatches (trace : Trace) : List (List Str) :=
  (trace.filter fun batch => batch.2 = []).map Prod.fst

/-- The batches of puts, each key with its value. -/
def putBatches (trace : Trace) : List (List (Str × Str)) :=
  (trace.filter fun batch => batch.2 ≠ []).map fun batch => batch.1.zip batch.2

/-- A batch with values has as many as it has keys. -/
def Paired (trace : Trace) : Prop := ∀ batch ∈ trace, batch.2 = [] ∨ batch.1.length = batch.2.length

theorem getBatches_append (trace trace' : Trace) :
    getBatches (trace ++ trace') = trace.getBatches ++ trace'.getBatches := by
  simp [getBatches]

theorem putBatches_append (trace trace' : Trace) :
    putBatches (trace ++ trace') = trace.putBatches ++ trace'.putBatches := by
  simp [putBatches]

theorem Paired.snoc {trace : Trace} (h : trace.Paired) {batch : List Str × List Str}
    (hb : batch.2 = [] ∨ batch.1.length = batch.2.length) : Paired (trace ++ [batch]) := by
  intro x hx
  rcases List.mem_append.mp hx with hx | hx
  · exact h x hx
  · rw [List.mem_singleton.mp hx]
    exact hb

end Trace

theorem timesNamed_snoc (ops : List Operation) (op : Operation) (key : Str) :
    timesNamed (ops ++ [op]) key = timesNamed ops key + if op.key = key then 1 else 0 := by
  simp [timesNamed, List.count_singleton]

theorem timesNamed_pos {ops : List Operation} {key : Str} :
    0 < timesNamed ops key ↔ ∃ op ∈ ops, op.key = key := by
  rw [timesNamed, List.count_pos_iff, List.mem_map]

theorem timesNamed_le (ops : List Operation) (key : Str) : timesNamed ops key ≤ ops.length :=
  List.count_le_length.trans_eq (List.length_map _)

namespace TraceLoop

/-- What the loop has gathered of the operations `done`. -/
structure Gathered (b : Nat) (done : List Operation) (s : TraceLoop) : Prop where
  gets : Filling b (keysGot done) s.trace.getBatches s.getKeys
  puts : Filling b (pairsPut done) s.trace.putBatches (s.putKeys.zip s.putValues)
  lengths : s.putKeys.length = s.putValues.length
  paired : s.trace.Paired

/-- What it has counted. -/
structure Counted (done : List Operation) (s : TraceLoop) : Prop where
  frequency : ∀ key, s.keyToFrequency.lookup key =
    if timesNamed done key = 0 then none else some (BitVec.ofNat 32 (timesNamed done key))
  sum : s.frequencySum = BitVec.ofNat 32 done.length

variable {b : Nat} {done : List Operation} {s : TraceLoop} {op : Operation}

theorem Gathered.addGet (h : s.Gathered b done) (hop : op.value = []) :
    (s.addGet b op.key).Gathered b (done ++ [op]) := by
  have hgot : keysGot (done ++ [op]) = keysGot done ++ [op.key] := by simp [keysGot, hop]
  have hput : pairsPut (done ++ [op]) = pairsPut done := by simp [pairsPut, hop]
  rw [TraceLoop.addGet]
  split
  · rename_i hfull
    rw [List.length_append, List.length_singleton] at hfull
    refine ⟨?_, ?_, h.lengths, ?_⟩
    · rw [hgot, Trace.getBatches_append]
      exact h.gets.flush op.key hfull
    · rw [hput, Trace.putBatches_append]
      simpa [Trace.putBatches] using h.puts
    · exact h.paired.snoc (.inl rfl)
  · rename_i hnot
    rw [List.length_append, List.length_singleton] at hnot
    refine ⟨?_, ?_, h.lengths, h.paired⟩
    · rw [hgot]
      exact h.gets.push op.key hnot
    · rw [hput]
      exact h.puts

theorem Gathered.addPut (h : s.Gathered b done) (hop : op.value ≠ []) :
    (s.addPut b op.key op.value).Gathered b (done ++ [op]) := by
  have hgot : keysGot (done ++ [op]) = keysGot done := by simp [keysGot, hop]
  have hput : pairsPut (done ++ [op]) = pairsPut done ++ [(op.key, op.value)] := by
    simp [pairsPut, hop]
  have hzip : (s.putKeys ++ [op.key]).zip (s.putValues ++ [op.value])
      = s.putKeys.zip s.putValues ++ [(op.key, op.value)] := List.zip_append h.lengths
  have hlen : (s.putKeys.zip s.putValues).length = s.putKeys.length := by
    rw [List.length_zip, h.lengths, Nat.min_self]
  have hlengths : (s.putKeys ++ [op.key]).length = (s.putValues ++ [op.value]).length := by
    simp [h.lengths]
  rw [TraceLoop.addPut]
  split
  · rename_i hfull
    rw [List.length_append, List.length_singleton] at hfull
    refine ⟨?_, ?_, rfl, ?_⟩
    · rw [hgot, Trace.getBatches_append]
      simpa [Trace.getBatches] using h.gets
    · rw [hput, Trace.putBatches_append]
      have hflush := h.puts.flush (op.key, op.value) (by rw [hlen, hfull])
      rw [← hzip] at hflush
      simpa [Trace.putBatches] using hflush
    · exact h.paired.snoc (.inr hlengths)
  · rename_i hnot
    rw [List.length_append, List.length_singleton] at hnot
    refine ⟨?_, ?_, hlengths, h.paired⟩
    · rw [hgot]
      exact h.gets
    · rw [hput, hzip]
      exact h.puts.push _ (by rw [hlen]; exact hnot)

theorem Gathered.countKey (h : s.Gathered b done) (key : Str) : (s.countKey key).Gathered b done :=
  ⟨h.gets, h.puts, h.lengths, h.paired⟩

theorem Counted.countKey (h : s.Counted done) (op : Operation) :
    (s.countKey op.key).Counted (done ++ [op]) where
  frequency key := by
    have hfrequency := h.frequency op.key
    rw [timesNamed_snoc, TraceLoop.countKey]
    by_cases hkey : op.key = key
    · subst hkey
      rw [if_pos rfl, if_neg (Nat.succ_ne_zero _)]
      by_cases hzero : timesNamed done op.key = 0
      · rw [if_pos hzero] at hfrequency
        show (if op.key ∉ s.keyToFrequency then _ else _ : UnorderedMap CInt).lookup op.key = _
        rw [if_pos (Finmap.lookup_eq_none.mp hfrequency), Finmap.lookup_insert, hzero]
        rfl
      · rw [if_neg hzero] at hfrequency
        show (if op.key ∉ s.keyToFrequency then _ else _ : UnorderedMap CInt).lookup op.key = _
        rw [if_neg (not_not.mpr (Finmap.mem_of_lookup_eq_some hfrequency)), Finmap.lookup_insert,
          UnorderedMap.at_, hfrequency, BitVec.ofNat_add]
        rfl
    · rw [if_neg hkey, Nat.add_zero, ← h.frequency key]
      show (if op.key ∉ s.keyToFrequency then _ else _ : UnorderedMap CInt).lookup key = _
      split <;> exact Finmap.lookup_insert_of_ne _ (Ne.symm hkey)
  sum := by
    show s.frequencySum + 1 = _
    rw [h.sum, List.length_append, List.length_singleton, BitVec.ofNat_add]
    rfl

/-- Gathering counts nothing. -/
theorem Counted.addGet (h : s.Counted done) (key : Str) : (s.addGet b key).Counted done := by
  rw [TraceLoop.addGet]
  split <;> exact ⟨h.frequency, h.sum⟩

theorem Counted.addPut (h : s.Counted done) (key value : Str) :
    (s.addPut b key value).Counted done := by
  rw [TraceLoop.addPut]
  split <;> exact ⟨h.frequency, h.sum⟩

/-- **One line** of the file. -/
theorem loadLine_line (hg : s.Gathered b done) (hc : s.Counted done) (hop : op.Recordable) :
    ∃ s', s.loadLine b op.line = .ok s' ∧ s'.Gathered b (done ++ [op]) ∧
      s'.Counted (done ++ [op]) := by
  rw [loadLine, splitLine_line hop]
  by_cases hget : op.value = []
  · refine ⟨(s.addGet b op.key).countKey op.key, ?_, (hg.addGet hget).countKey _, ?_⟩
    · simp [hget, assert, hop.put, hop.get]
    · exact (hc.addGet _).countKey op
  · refine ⟨(s.addPut b op.key op.value).countKey op.key, ?_, (hg.addPut hget).countKey _, ?_⟩
    · simp [hget, assert, hop.put, hop.get]
    · exact (hc.addPut _ _).countKey op

/-- **The loop** over the lines. -/
theorem foldlM_loadLine {ops : List Operation} (hops : ∀ op ∈ ops, op.Recordable)
    (hg : s.Gathered b done) (hc : s.Counted done) :
    ∃ s', (ops.map Operation.line).foldlM (loadLine b) s = .ok s' ∧ s'.Gathered b (done ++ ops) ∧
      s'.Counted (done ++ ops) := by
  induction ops generalizing done s with
  | nil => exact ⟨s, rfl, by rwa [List.append_nil], by rwa [List.append_nil]⟩
  | cons op ops ih =>
      rw [List.forall_mem_cons] at hops
      obtain ⟨s₁, hline, hg₁, hc₁⟩ := loadLine_line hg hc hops.1
      obtain ⟨s', hrest, hg', hc'⟩ := ih hops.2 hg₁ hc₁
      rw [List.append_assoc, List.singleton_append] at hg' hc'
      refine ⟨s', ?_, hg', hc'⟩
      rw [List.map_cons, List.foldlM_cons, hline, ok_bind, hrest]

/-- The buffers that did not fill up, as batches. -/
theorem batches_eq (s : TraceLoop) : s.batches = s.trace ++
    ((if s.getKeys = [] then [] else [(s.getKeys, [])]) ++
      if s.putKeys = [] then [] else [(s.putKeys, s.putValues)]) := by
  rw [batches]
  by_cases hg : s.getKeys = [] <;> by_cases hp : s.putKeys = [] <;>
    simp [hg, hp, List.length_pos_iff]

/-- Keys to put come with as many values. -/
theorem Gathered.putKeys_eq_nil (h : s.Gathered b done) :
    (s.putValues = [] ↔ s.putKeys = []) ∧ (s.putKeys.zip s.putValues = [] ↔ s.putKeys = []) := by
  have hvalues : s.putValues = [] ↔ s.putKeys = [] := by
    rw [← List.length_eq_zero_iff, ← h.lengths, List.length_eq_zero_iff]
  exact ⟨hvalues, by rw [List.zip_eq_nil_iff, hvalues, or_self]⟩

theorem Gathered.getBatches_batches (h : s.Gathered b done) : s.batches.getBatches =
    if s.getKeys = [] then s.trace.getBatches else s.trace.getBatches ++ [s.getKeys] := by
  have hputs : Trace.getBatches (if s.putKeys = [] then [] else [(s.putKeys, s.putValues)])
      = [] := by
    split
    · rfl
    · rename_i hp
      simp [Trace.getBatches, h.putKeys_eq_nil.1, hp]
  rw [batches_eq, Trace.getBatches_append, Trace.getBatches_append, hputs, List.append_nil]
  split
  · exact List.append_nil _
  · rfl

theorem Gathered.putBatches_batches (h : s.Gathered b done) : s.batches.putBatches =
    if s.putKeys.zip s.putValues = [] then s.trace.putBatches
    else s.trace.putBatches ++ [s.putKeys.zip s.putValues] := by
  have hgets : Trace.putBatches (if s.getKeys = [] then [] else [(s.getKeys, [])]) = [] := by
    split <;> rfl
  rw [batches_eq, Trace.putBatches_append, Trace.putBatches_append, hgets, List.nil_append]
  simp only [h.putKeys_eq_nil.2]
  split
  · exact List.append_nil _
  · rename_i hp
    simp [Trace.putBatches, h.putKeys_eq_nil.1, hp]

theorem Gathered.paired_batches (h : s.Gathered b done) : s.batches.Paired := by
  intro batch hbatch
  rw [batches_eq, List.mem_append, List.mem_append] at hbatch
  rcases hbatch with hbatch | hbatch | hbatch
  · exact h.paired batch hbatch
  · split at hbatch
    · cases hbatch
    · rw [List.mem_singleton.mp hbatch]
      exact .inl rfl
  · split at hbatch
    · cases hbatch
    · rw [List.mem_singleton.mp hbatch]
      exact .inr h.lengths

/-- **The batches** at the end. -/
theorem Gathered.batches (h : s.Gathered b done) :
    Chunked b (keysGot done) s.batches.getBatches ∧
      Chunked b (pairsPut done) s.batches.putBatches ∧ s.batches.Paired := by
  refine ⟨?_, ?_, h.paired_batches⟩
  · rw [h.getBatches_batches]
    exact h.gets.chunked
  · rw [h.putBatches_batches]
    exact h.puts.chunked

end TraceLoop

/-! ## The distribution -/

/-- `alpha` in `main`, computed exactly. -/
def Distribution.alpha (dist : Distribution) : ℚ := 1 / dist.items.length

/-- `delta` in `main`, computed exactly. -/
def Distribution.delta (dist : Distribution) : ℚ :=
  1 / (2 * dist.items.length) * 1 / dist.alpha

/-- Each key once, with its share of the operations. -/
structure Shares (ops : List Operation) (dist : Distribution) : Prop where
  items : dist.items.Nodup
  mem_items : ∀ key, key ∈ dist.items ↔ ∃ op ∈ ops, op.key = key
  probabilities : dist.probabilities =
    dist.items.map fun key => (timesNamed ops key : ℚ) / ops.length

namespace Shares

variable {ops : List Operation} {dist : Distribution} (h : Shares ops dist)

include h

theorem length_eq : dist.items.length = dist.probabilities.length := by
  rw [h.probabilities, List.length_map]

theorem pos : ∀ p ∈ dist.probabilities, 0 < p := by
  intro p hp
  rw [h.probabilities] at hp
  obtain ⟨key, hkey, rfl⟩ := List.mem_map.mp hp
  have htimes := timesNamed_pos.mpr ((h.mem_items key).mp hkey)
  have hlength := lt_of_lt_of_le htimes (timesNamed_le ops key)
  positivity

theorem sum_eq_one (hne : ops ≠ []) : dist.probabilities.sum = 1 := by
  have hcount : (dist.items.map (timesNamed ops)).sum = ops.length := by
    rw [← List.length_map Operation.key]
    exact sum_count_of_nodup h.items fun key => by rw [h.mem_items, List.mem_map]
  have hlength : (ops.length : ℚ) ≠ 0 :=
    Nat.cast_ne_zero.mpr fun hc => hne (List.length_eq_zero_iff.mp hc)
  calc dist.probabilities.sum
      = (dist.items.map fun key => (timesNamed ops key : ℚ) * (ops.length : ℚ)⁻¹).sum := by
        rw [h.probabilities]
        simp only [div_eq_mul_inv]
    _ = ((dist.items.map (timesNamed ops)).sum : ℕ) * (ops.length : ℚ)⁻¹ := by
        rw [List.sum_map_mul_right, Nat.cast_list_sum, List.map_map]
        rfl
    _ = 1 := by rw [hcount, mul_inv_cancel₀ hlength]

/-- **What `create_replicas` needs**: the arguments `main` passes are legal. -/
theorem callerArguments (hne : ops ≠ []) : CallerArguments dist dist.alpha dist.delta where
  lengths := h.length_eq
  keys := h.items
  positive := h.pos
  normalised := h.sum_eq_one hne
  alphaBound := le_rfl
  deltaEq := by
    rw [Distribution.delta]
    ring

end Shares

/-- **The distribution** of what is counted. -/
theorem TraceLoop.Counted.shares {ops : List Operation} {s : TraceLoop} (h : s.Counted ops)
    (hlen : ops.length < 2 ^ 31) (order : IterationOrder CInt) :
    Shares ops (s.distribution order) where
  items := order.nodup _
  mem_items key := by
    rw [← timesNamed_pos, TraceLoop.distribution, List.mem_map]
    constructor
    · rintro ⟨⟨key', count⟩, hpair, rfl⟩
      have hlookup := (order.mem_entries _ _ _).mp hpair
      rw [h.frequency] at hlookup
      split at hlookup
      · cases hlookup
      · rename_i hne
        exact Nat.pos_of_ne_zero hne
    · intro hpos
      have hlookup := (h.frequency key).trans (if_neg hpos.ne')
      exact ⟨_, (order.mem_entries _ _ _).mpr hlookup, rfl⟩
  probabilities := by
    rw [TraceLoop.distribution, List.map_map]
    apply List.map_congr_left
    rintro ⟨key, count⟩ hpair
    have hlookup := (order.mem_entries _ _ _).mp hpair
    rw [h.frequency] at hlookup
    split at hlookup
    · cases hlookup
    · obtain rfl := Option.some.inj hlookup
      have hcount := toInt_counter.mpr (lt_of_le_of_lt (timesNamed_le ops key) hlen)
      have hsum := toInt_counter.mpr hlen
      simp [h.sum, hcount, hsum]

/-! ## The loaders -/

theorem readTrace_records {ops : List Operation} {b : Nat} {text : Str}
    (hops : ∀ op ∈ ops, op.Recordable) (hb : 1 ≤ b) (htext : Records text ops) :
    ∃ s, readTrace b (some text) = .ok s ∧ s.Gathered b ops ∧ s.Counted ops := by
  have hg : TraceLoop.Gathered b [] {} := ⟨.nil hb, .nil hb, rfl, by simp [Trace.Paired]⟩
  have hc : TraceLoop.Counted [] {} := ⟨fun key => rfl, rfl⟩
  rw [readTrace, Option.getD_some, htext.getlines hops]
  simpa using TraceLoop.foldlM_loadLine hops hg hc

/-- Both loaders return what the file's operations are gathered to. -/
theorem exists_loaded (order : IterationOrder CInt) {ops : List Operation} {b : Nat} {text : Str}
    (hlen : ops.length < 2 ^ 31) (hops : ∀ op ∈ ops, op.Recordable) (hb : 1 ≤ b)
    (htext : Records text ops) :
    ∃ trace dist, loadFrequenciesFromTrace order b (some text) = .ok (trace, dist) ∧
      loadTrace b (some text) = .ok trace ∧
      Chunked b (keysGot ops) trace.getBatches ∧ Chunked b (pairsPut ops) trace.putBatches ∧
      trace.Paired ∧ Shares ops dist := by
  obtain ⟨s, hread, hg, hc⟩ := readTrace_records hops hb htext
  obtain ⟨hgets, hputs, hpaired⟩ := hg.batches
  refine ⟨s.batches, s.distribution order, ?_, ?_, hgets, hputs, hpaired, hc.shares hlen order⟩
  · rw [loadFrequenciesFromTrace, hread]
    rfl
  · rw [loadTrace, hread]
    rfl

/-- **The loaders recover the workload**: the gets and the puts in batches of
`b`, in their order, from both loaders; and a distribution with each key once
and its share of the operations, with which `create_replicas` can start. -/
theorem trace_recovered (order : IterationOrder CInt) {ops : List Operation} {b : Nat} {text : Str}
    (hne : ops ≠ []) (hlen : ops.length < 2 ^ 31) (hops : ∀ op ∈ ops, op.Recordable) (hb : 1 ≤ b)
    (htext : Records text ops) :
    ∃ trace dist, loadFrequenciesFromTrace order b (some text) = .ok (trace, dist) ∧
      loadTrace b (some text) = .ok trace ∧
      Chunked b (keysGot ops) trace.getBatches ∧ Chunked b (pairsPut ops) trace.putBatches ∧
      trace.Paired ∧ Shares ops dist ∧ (∀ p ∈ dist.probabilities, 0 < p) ∧
      dist.probabilities.sum = 1 ∧ CallerArguments dist dist.alpha dist.delta := by
  obtain ⟨trace, dist, hload, hload', hgets, hputs, hpaired, hshares⟩ :=
    exists_loaded order hlen hops hb htext
  exact ⟨trace, dist, hload, hload', hgets, hputs, hpaired, hshares, hshares.pos,
    hshares.sum_eq_one hne, hshares.callerArguments hne⟩

/-- Two gets of `a`, and a put of `b` between them. -/
def twoGetsOnePut : List Operation := [⟨['a'], []⟩, ⟨['b'], ['x', ' ', 'y']⟩, ⟨['a'], []⟩]

/-- That workload in batches of two, from a file that ends without a newline. -/
theorem trace_recovered_twoGetsOnePut : ∃ trace dist,
    loadFrequenciesFromTrace .byKey 2 (some "GET a\nPUT b x y\nGET a".toList) = .ok (trace, dist) ∧
    Chunked 2 [['a'], ['a']] trace.getBatches ∧
    Chunked 2 [(['b'], ['x', ' ', 'y'])] trace.putBatches ∧
    CallerArguments dist dist.alpha dist.delta := by
  have htext : Records "GET a\nPUT b x y\nGET a".toList twoGetsOnePut := .inr rfl
  have hops : ∀ op ∈ twoGetsOnePut, op.Recordable := by
    simp only [twoGetsOnePut, List.forall_mem_cons, List.not_mem_nil, false_imp_iff, implies_true,
      and_true]
    exact ⟨⟨by simp, by decide, by decide, by decide, by decide, by decide⟩,
      ⟨by simp, by decide, by decide, by decide, by decide, by decide⟩,
      ⟨by simp, by decide, by decide, by decide, by decide, by decide⟩⟩
  have hne : twoGetsOnePut ≠ [] := by simp [twoGetsOnePut]
  have hb : 1 ≤ 2 := by decide
  obtain ⟨trace, dist, hload, -, hgets, hputs, -, -, -, -, hargs⟩ :=
    trace_recovered .byKey hne (by decide) hops hb htext
  exact ⟨trace, dist, hload, hgets, hputs, hargs⟩

end Pancake
