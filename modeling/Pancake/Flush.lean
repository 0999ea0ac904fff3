import Pancake.ReplicaPresence

/-!
# `flush`

`flush` takes one operation from every queue that has any and answers it by
itself: it reads what storage holds under the client's key, writes that back,
and sets the promise to it. The replicas, the update cache and the encryption
engine play no part.
-/

namespace Pancake

/-- A call of the storage interface for a single key. -/
inductive StorageCall where
  | get (key : Str)
  | put (key value : Str)

/-- The storage key a call goes to. -/
def StorageCall.key : StorageCall → Str
  | get key => key
  | put key _ => key

/-- An operation answered by `flush`, with the proxy before it was popped and
after its promise was set. -/
structure Flushed where
  before : Proxy
  operation : Operation
  promise : Promise
  value : Str
  after : Proxy

/-- What a call of `flush` has done when it returns or throws. -/
structure FlushRun where
  proxy : Proxy
  queues : List OpQueue
  popped : List Queued := []
  calls : List StorageCall := []
  answered : List Flushed := []
  outcome : Except Fault Unit := .ok ()

namespace Proxy

/-- `flush`: a key that storage does not have makes `get` throw, after the
operation has left its queue. -/
def flush (st : Proxy) : List OpQueue → FlushRun
  | [] => { proxy := st, queues := [] }
  | q :: queues =>
      match q.look.pending with
      | [] =>
          let rest := st.flush queues
          { rest with queues := q.look :: rest.queues }
      | (operation, promise) :: pending =>
          let q := { q.look with pending := pending }
          match st.storage.get operation.key with
          | .error e =>
              { proxy := st
                queues := q :: queues
                popped := [(operation, promise)]
                calls := [.get operation.key]
                outcome := .error e }
          | .ok (readResult, storage) =>
              let st' := { st with storage := storage.put operation.key readResult }
              let rest := st'.flush queues
              { rest with
                queues := q :: rest.queues
                popped := (operation, promise) :: rest.popped
                calls := .get operation.key :: .put operation.key readResult :: rest.calls
                answered := ⟨st, operation, promise, readResult, st'⟩ :: rest.answered }

/-- What storage holds, decrypted. -/
def plainContents (st : Proxy) (label : Str) : Option (Except Fault Str) :=
  (st.storage.contents.lookup label).map st.encryptionEngine.decrypt

end Proxy

/-- `execute_batch`, with the operation alone in its batch and some replica
drawn for it, sets the promise to the same value and leaves the same update
cache and the same plaintexts. -/
def Flushed.LikeBatch (f : Flushed) : Prop :=
  ∃ id st, f.before.Executes
      ⟨{ operations := [f.operation], isTrues := [true], promises := [f.promise] }, [id],
        [(f.promise, f.value)]⟩ st ∧
    st.updateCache = f.after.updateCache ∧ st.plainContents = f.after.plainContents

namespace Proxy

/-- `flush` does for the operations it pops what `execute_batch` would have
done, and goes to storage with labels, never with the clients' keys. -/
structure FlushAgrees (st : Proxy) (queues : List OpQueue) : Prop where
  answered : ∀ f ∈ (st.flush queues).answered, f.LikeBatch
  labelled : ∀ call ∈ (st.flush queues).calls,
    ∃ name ∈ st.replicaToLabel, call.key = toString (UnorderedMap.at_ st.replicaToLabel name)
  unkeyed : ∀ call ∈ (st.flush queues).calls, ∀ p ∈ (st.flush queues).popped,
    call.key ≠ p.1.key

/-! ## What `flush` does -/

/-- Storage is read under the key of whatever is popped. -/
theorem get_mem_flush_calls {st : Proxy} {queues : List OpQueue} {p : Queued}
    (h : p ∈ (st.flush queues).popped) : .get p.1.key ∈ (st.flush queues).calls := by
  induction queues generalizing st with
  | nil => simp [flush] at h
  | cons q queues ih =>
      rw [flush] at h ⊢
      cases hq : q.look.pending with
      | nil =>
          simp only [hq] at h ⊢
          exact ih h
      | cons head pending =>
          obtain ⟨operation, promise⟩ := head
          cases hget : st.storage.get operation.key with
          | error e =>
              simp only [hq, hget, List.mem_singleton] at h ⊢
              rw [h]
          | ok r =>
              simp only [hq, hget, List.mem_cons] at h ⊢
              rcases h with rfl | h
              · exact .inl rfl
              · exact .inr (.inr (ih h))

/-- Nothing is popped exactly when every queue is empty. -/
theorem flush_popped_eq_nil (st : Proxy) {queues : List OpQueue} :
    (st.flush queues).popped = [] ↔ ∀ q ∈ queues, q.look.pending = [] := by
  induction queues generalizing st with
  | nil => simp [flush]
  | cons q queues ih =>
      rw [flush]
      cases hq : q.look.pending with
      | nil =>
          simp only [hq, List.forall_mem_cons, true_and]
          exact ih st
      | cons head pending =>
          obtain ⟨operation, promise⟩ := head
          cases hget : st.storage.get operation.key <;> simp [hq, hget]

/-- Then storage is left alone and nobody is answered. -/
theorem flush_of_popped_eq_nil {st : Proxy} {queues : List OpQueue}
    (h : (st.flush queues).popped = []) :
    (st.flush queues).calls = [] ∧ (st.flush queues).answered = [] := by
  induction queues with
  | nil => exact ⟨rfl, rfl⟩
  | cons q queues ih =>
      rw [flush] at h ⊢
      cases hq : q.look.pending with
      | nil =>
          simp only [hq] at h ⊢
          exact ih h
      | cons head pending =>
          obtain ⟨operation, promise⟩ := head
          cases hget : st.storage.get operation.key <;> simp [hq, hget] at h

/-- What `flush` answers with is what storage holds under the client's key,
and it leaves the update cache and the contents of storage as they were: a
put is forgotten. -/
theorem flush_keeps (st : Proxy) {queues : List OpQueue} :
    (st.flush queues).proxy.updateCache = st.updateCache ∧
    (st.flush queues).proxy.storage.contents = st.storage.contents ∧
    ∀ f ∈ (st.flush queues).answered,
      st.storage.contents.lookup f.operation.key = some f.value := by
  induction queues generalizing st with
  | nil => simp [flush]
  | cons q queues ih =>
      rw [flush]
      cases hq : q.look.pending with
      | nil =>
          exact ih st
      | cons head pending =>
          obtain ⟨operation, promise⟩ := head
          cases hl : st.storage.contents.lookup operation.key with
          | none => simp [Server.get, hl]
          | some value =>
              -- the value read is the one written back
              have hsame : st.storage.contents.insert operation.key value
                  = st.storage.contents := by
                apply Finmap.ext_lookup
                intro key
                by_cases hk : key = operation.key
                · rw [hk, Finmap.lookup_insert, hl]
                · exact Finmap.lookup_insert_of_ne _ hk
              simp only [Server.get, hl, Server.put, Server.putBatch, Server.insertAll, hsame,
                List.forall_mem_cons]
              obtain ⟨hcache, hcontents, hvalues⟩ := ih
                { st with storage :=
                  { contents := st.storage.contents
                    requests := st.storage.requests ++ [.getBatch [operation.key] [value]] ++
                      [.putBatch [operation.key] [value]] } }
              exact ⟨hcache, hcontents, trivial, hvalues⟩

/-- **`flush` agrees with `execute_batch`** exactly when it finds every queue
empty. -/
theorem flushAgrees_iff (st : Proxy) (queues : List OpQueue) :
    st.FlushAgrees queues ↔ ∀ q ∈ queues, q.look.pending = [] := by
  rw [← flush_popped_eq_nil st]
  constructor
  · intro h
    cases hp : (st.flush queues).popped with
    | nil => rfl
    | cons p rest =>
        have hmem : p ∈ (st.flush queues).popped := by rw [hp]; simp
        exact absurd rfl (h.unkeyed _ (get_mem_flush_calls hmem) p hmem)
  · intro h
    obtain ⟨hcalls, hanswered⟩ := flush_of_popped_eq_nil h
    constructor
    · rw [hanswered]
      intro f hf
      cases hf
    · rw [hcalls]
      intro call hcall
      cases hcall
    · rw [hcalls]
      intro call hcall
      cases hcall

/-! ## A put that is lost

Two keys, the numbers 1 and 2. Their labels are 0 and 1, so that storage has
something under the first key: the second one's value. -/

def oneTwo : Distribution where
  items := [['1'], ['2']]
  probabilities := [1 / 2, 1 / 2]

theorem oneTwo_arguments : CallerArguments oneTwo (1 / 2) (1 / 2) where
  lengths := rfl
  keys := by decide
  positive := by simp [oneTwo]
  normalised := by norm_num [oneTwo]
  alphaBound := by norm_num [oneTwo]
  deltaEq := by norm_num [oneTwo]

/-- A put of `x` for the first key. -/
def putOne : Operation := ⟨['1'], ['x']⟩

def putOneQueue : OpQueue := { pending := [(putOne, 0)] }

/-- The ciphertext of `b`. -/
def cipherOfB : Str := 'b' :: List.replicate 15 (Char.ofNat 15)

/-- The put flushed, then a get, beside the put as `execute_batch` serves it. -/
def putOneRun : Except Fault (Proxy × Proxy × List (Promise × Str) × List (Promise × Str)) := do
  let st ← blank.init oneTwo (1 / 2) (1 / 2) firstStrings
  let (st', get) ← (st.flush [putOneQueue]).proxy.executeBatchWith (getOnly ['1']) [0]
  let (_, put) ← st.executeBatchWith ⟨[putOne], [true], [0]⟩ [0]
  .ok (st, st', get, put)

/-- **The failing queues**: the client that put `x` is answered with the
ciphertext of the second key's value, `b`, and a later get returns `a`, what
the first key had before. `execute_batch` would have answered `x`. -/
theorem flush_forgets_put :
    CallerArguments oneTwo (1 / 2) (1 / 2) ∧
    ∃ st st', blank.init oneTwo (1 / 2) (1 / 2) firstStrings = .ok st ∧
      (st.flush [putOneQueue]).outcome = .ok () ∧
      (st.flush [putOneQueue]).answered.map (·.value) = [cipherOfB] ∧
      (st.flush [putOneQueue]).proxy.Executes ⟨getOnly ['1'], [0], [(0, ['a'])]⟩ st' ∧
      (∀ f ∈ (st.flush [putOneQueue]).answered, ¬ f.LikeBatch) ∧
      ¬ st.FlushAgrees [putOneQueue] := by
  refine ⟨oneTwo_arguments, ?_⟩
  obtain ⟨r, hrun, hmiss, hcount, hread, hget, hput, hmiss', hcount'⟩ :
      ∃ r, putOneRun = .ok r ∧
        r.1.missingNewReplicas.lookup ['1'] = none ∧ r.1.replicas ['1'] = 1 ∧
        r.1.storage.contents.lookup ['1'] = some cipherOfB ∧
        r.2.2.1 = [(0, ['a'])] ∧ r.2.2.2 = [(0, ['x'])] ∧
        (r.1.flush [putOneQueue]).proxy.missingNewReplicas.lookup ['1'] = none ∧
        (r.1.flush [putOneQueue]).proxy.replicas ['1'] = 1 :=
    exists_ok_of_decide (by decide +kernel)
  simp only [putOneRun, bind_eq_ok] at hrun
  obtain ⟨st, hinit, ⟨st', get⟩, hexecGet, ⟨stPut, put⟩, hexecPut, hr⟩ := hrun
  cases hr
  cases hget
  cases hput
  have hanswered : (st.flush [putOneQueue]).answered = [⟨st, putOne, 0, cipherOfB,
      (st.flush [putOneQueue]).proxy⟩] := by
    simp [flush, putOneQueue, OpQueue.look, Server.get, putOne, hread]
  have hdisagree : ∀ f ∈ (st.flush [putOneQueue]).answered, ¬ f.LikeBatch := by
    rw [hanswered]
    intro f hf hlike
    rw [List.mem_singleton.mp hf] at hlike
    obtain ⟨id, stPut', hx, -⟩ := hlike
    -- the key has one replica
    have hid : id = 0 := by
      have hdrawn := samples_of_chooseReplicas hx.drawn
      simp only [List.forall₂_cons, List.Forall₂.nil, and_true] at hdrawn
      obtain ⟨real, hsamples⟩ := hdrawn
      have hlt := UpdateCache.lt_of_possible_sampleAReplica hsamples
      rw [putOne, hcount] at hlt
      omega
    subst hid
    have hreturns := hx.returns.symm.trans hexecPut
    simp only [Except.ok.injEq, Prod.mk.injEq, List.cons.injEq, and_true, true_and] at hreturns
    exact absurd hreturns.2 (by decide)
  refine ⟨st, st', hinit, ?_, ?_, ⟨possible_chooseReplicas_single ?_, hexecGet⟩, hdisagree, ?_⟩
  · simp [flush, putOneQueue, OpQueue.look, Server.get, putOne, hread]
  · rw [hanswered]
    rfl
  · exact (UpdateCache.possible_sampleAReplica_of_none hmiss').mpr (by rw [hcount']; norm_num)
  · intro h
    exact hdisagree _ (by rw [hanswered]; exact List.mem_singleton_self _)
      (h.answered _ (by rw [hanswered]; exact List.mem_singleton_self _))

end Proxy

end Pancake
