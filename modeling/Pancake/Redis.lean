import Pancake.Lib.Fanout
import Pancake.Storage

/-!
# The sharded Redis storage

`redis` spreads the keys over its servers by hash. A batch is regrouped by
server, each server is sent one command, and the replies are read from a
queue; the loop that reads them has the size of that queue for its bound and
pops it, so it stops halfway. The hash function and the order in which an
`unordered_map` is walked are parameters.
-/

namespace Pancake

open Fanout

/-- What the storage clients throw. -/
inductive StorageFault where
  | runtimeError (message : Str)
  | invalidReply
  deriving DecidableEq

/-- `cpp_redis::reply` -/
inductive Reply where
  | error (message : Str)
  | null
  | string (value : Str)
  | array (replies : List Reply)

namespace Reply

def isError : Reply → Bool
  | error _ => true
  | _ => false

def asString : Reply → Except StorageFault Str
  | string value => .ok value
  | _ => .error .invalidReply

end Reply

/-- A Redis server. One that refuses writes, because it is read-only or out
of memory, answers them with an error. -/
structure RedisServer where
  contents : UnorderedMap Str := ∅
  writeError : Option Str := none

namespace RedisServer

/-- `GET` -/
def get (s : RedisServer) (key : Str) : Reply :=
  match s.contents.lookup key with
  | some value => .string value
  | none => .null

/-- `MGET`: the values in the order of the keys. -/
def mget (s : RedisServer) (keys : List Str) : Reply := .array (keys.map s.get)

/-- `MSET`: all the pairs, in order, or none. -/
def mset (s : RedisServer) (pairs : List (Str × Str)) : Reply × RedisServer :=
  match s.writeError with
  | some message => (.error message, s)
  | none => (.string ['O', 'K'],
      { s with contents := pairs.foldl (fun m pair => m.insert pair.1 pair.2) s.contents })

/-- `SET` -/
def set (s : RedisServer) (key value : Str) : Reply × RedisServer := s.mset [(key, value)]

end RedisServer

/-- `redis`: one client for each server, of which there is at least one. -/
structure Redis where
  hash : Str → Nat
  order : WalkOrder Nat
  clients : List RedisServer
  connected : clients ≠ []

namespace Redis

/-- `std::hash<std::string>{}(key) % clients.size()` -/
def shard (c : Redis) (key : Str) : Nat := c.hash key % c.clients.length

/-- `clients[id]` -/
def client (c : Redis) (id : Nat) : RedisServer := c.clients.getD id {}

/-- What a command has left of the server of a client. -/
def withClient (c : Redis) (id : Nat) (server : RedisServer) : Redis :=
  { c with clients := c.clients.set id server, connected := by simpa using c.connected }

/-! ## The calls -/

/-- `redis::get` -/
def get (c : Redis) (key : Str) : Except StorageFault Str :=
  match (c.client (c.shard key)).get key with
  | .error message => .error (.runtimeError message)
  | reply => reply.asString

/-- The end of `redis::put`. -/
def checkReply : Reply → Except StorageFault Unit
  | .error message => .error (.runtimeError message)
  | _ => .ok ()

/-- `redis::put`, with the storage it leaves. -/
def put (c : Redis) (key value : Str) : Except StorageFault Unit × Redis :=
  let id := c.shard key
  let (reply, server) := (c.client id).set key value
  (checkReply reply, c.withClient id server)

/-- One nested reply of `redis::get_batch`. -/
def pushReply (returnVector : List Str) (nestedReply : Reply) : Except StorageFault (List Str) :=
  match nestedReply with
  | .error message => .error (.runtimeError message)
  | reply => do
      let value ← reply.asString
      .ok (returnVector ++ [value])

/-- The loop of `redis::get_batch` over the futures, which it pops. -/
def readReplies : Nat → List Reply → List Str → Except StorageFault (List Str)
  | _, [], returnVector => .ok returnVector
  | i, reply :: futures, returnVector =>
      if i < futures.length + 1 then
        match reply with
        | .error message => .error (.runtimeError message)
        | .array replyArray => do
            let returnVector ← replyArray.foldlM pushReply returnVector
            readReplies (i + 1) futures returnVector
        | _ => .error .invalidReply
      else .ok returnVector

/-- `redis::get_batch` -/
def getBatch (c : Redis) (keys : List Str) : Except StorageFault (List Str) :=
  let keyVectors := gather c.shard keys
  let futures := (c.order.walk (keys.map c.shard)).map fun id =>
    (c.client id).mget ((keyVectors.lookup id).getD [])
  readReplies 0 futures []

/-- The loop of `redis::put_batch` over the futures, with the replies it
looked at. -/
def checkReplies : Nat → List Reply → List Reply × Except StorageFault Unit
  | _, [] => ([], .ok ())
  | i, reply :: futures =>
      if i < futures.length + 1 then
        match checkReply reply with
        | .error e => ([reply], .error e)
        | .ok _ =>
            let (examined, outcome) := checkReplies (i + 1) futures
            (reply :: examined, outcome)
      else ([], .ok ())

/-- The commands of `redis::put_batch`, one for each server in `ids`. -/
def msetAll (keyValueVectorPairs : Nat → List (Str × Str)) : Redis → List Nat → List Reply × Redis
  | c, [] => ([], c)
  | c, id :: ids =>
      let (reply, server) := (c.client id).mset (keyValueVectorPairs id)
      let (futures, c) := msetAll keyValueVectorPairs (c.withClient id server) ids
      (reply :: futures, c)

/-- A `redis::put_batch` call: the replies of the servers it contacted, those
it looked at, how it ended, and the storage it left. -/
structure PutBatch where
  replies : List Reply
  examined : List Reply
  outcome : Except StorageFault Unit
  storage : Redis

/-- `redis::put_batch`, on as many values as keys. -/
def putBatch (c : Redis) (keys values : List Str) : PutBatch :=
  let pairs := gather (fun pair : Str × Str => c.shard pair.1) (keys.zip values)
  let ids := c.order.walk (keys.map c.shard)
  let (futures, storage) := msetAll (fun id => (pairs.lookup id).getD []) c ids
  let (examined, outcome) := checkReplies 0 futures
  ⟨futures, examined, outcome, storage⟩

end Redis

/-- A server behind an `ssdb::Client`. One that refuses writes answers them
with an error code. -/
structure SsdbServer where
  contents : UnorderedMap Str := ∅
  writeError : Option Str := none

namespace SsdbServer

/-- `get`: the value, or the code of the status. -/
def get (s : SsdbServer) (key : Str) : Except Str Str :=
  match s.contents.lookup key with
  | some value => .ok value
  | none => .error ['n', 'o', 't', '_', 'f', 'o', 'u', 'n', 'd']

/-- `set`: whether it is done, or the code of the status, and the server after
it. -/
def set (s : SsdbServer) (key value : Str) : Except Str Unit × SsdbServer :=
  match s.writeError with
  | some code => (.error code, s)
  | none => (.ok (), { s with contents := s.contents.insert key value })

end SsdbServer

/-- `rocksdb`: one client for each server, of which there is at least one. -/
structure Rocksdb where
  hash : Str → Nat
  clients : List SsdbServer
  connected : clients ≠ []

namespace Rocksdb

/-- `std::hash<std::string>{}(key) % clients.size()` -/
def shard (c : Rocksdb) (key : Str) : Nat := c.hash key % c.clients.length

/-- `clients[idx]` -/
def client (c : Rocksdb) (idx : Nat) : SsdbServer := c.clients.getD idx {}

/-- What a command has left of the server of a client. -/
def withClient (c : Rocksdb) (idx : Nat) (server : SsdbServer) : Rocksdb :=
  { c with clients := c.clients.set idx server, connected := by simpa using c.connected }

/-- `rocksdb::get` -/
def get (c : Rocksdb) (key : Str) : Except StorageFault Str :=
  ((c.client (c.shard key)).get key).mapError .runtimeError

/-- `rocksdb::put`, with the storage it leaves. -/
def put (c : Rocksdb) (key value : Str) : Except StorageFault Unit × Rocksdb :=
  let idx := c.shard key
  let (status, server) := (c.client idx).set key value
  (status.mapError .runtimeError, c.withClient idx server)

/-- `rocksdb::get_batch` -/
def getBatch (c : Rocksdb) (keys : List Str) : Except StorageFault (List Str) :=
  keys.foldlM (fun returnVector key => do
    let value ← c.get key
    .ok (returnVector ++ [value])) []

/-- The loop of `rocksdb::put_batch`: a put that throws ends it. -/
def putEach : Rocksdb → List (Str × Str) → Except StorageFault Unit × Rocksdb
  | c, [] => (.ok (), c)
  | c, (key, value) :: pairs =>
      match c.put key value with
      | (.ok _, c) => putEach c pairs
      | (.error e, c) => (.error e, c)

/-- `rocksdb::put_batch`, on as many values as keys, with the storage it
leaves. -/
def putBatch (c : Rocksdb) (keys values : List Str) : Except StorageFault Unit × Rocksdb :=
  c.putEach (keys.zip values)

end Rocksdb

namespace Redis

/-- `rocksdb` over the same contents. -/
def asRocksdb (c : Redis) : Rocksdb where
  hash := c.hash
  clients := c.clients.map fun s => ⟨s.contents, s.writeError⟩
  connected := by simpa using c.connected

/-! ## Batch reads -/

/-- The batch read returns what single reads of its keys return, in order, and
what `rocksdb::get_batch` returns. -/
def BatchAgrees (c : Redis) (keys : List Str) : Prop :=
  ∃ values, c.getBatch keys = .ok values ∧
    List.Forall₂ (fun key value => c.get key = .ok value) keys values ∧
    c.asRocksdb.getBatch keys = .ok values

/-- The keys all belong to one server. -/
def OneShard (c : Redis) (keys : List Str) : Prop :=
  ∀ key ∈ keys, ∀ key' ∈ keys, c.shard key = c.shard key'

/-- The value of a key at its server. -/
def valueOf (c : Redis) (key : Str) : Str :=
  UnorderedMap.at_ (c.client (c.shard key)).contents key

section Reads

variable {c : Redis} {keys : List Str}

theorem get_eq_ok {key value : Str} :
    c.get key = .ok value ↔ (c.client (c.shard key)).contents.lookup key = some value := by
  unfold get RedisServer.get
  cases (c.client (c.shard key)).contents.lookup key with
  | none => simp [Reply.asString]
  | some v => simp [Reply.asString]

theorem foldlM_pushReply (values returnVector : List Str) :
    (values.map Reply.string).foldlM pushReply returnVector = .ok (returnVector ++ values) := by
  induction values generalizing returnVector with
  | nil =>
      rw [List.append_nil]
      rfl
  | cons value values ih =>
      rw [List.map_cons, List.foldlM_cons]
      show (values.map Reply.string).foldlM pushReply (returnVector ++ [value]) = _
      rw [ih, List.append_assoc, List.singleton_append]

/-- Replies without errors: the loop returns the values of those it pops. -/
theorem readReplies_strings (i : Nat) (groups : List (List Str)) (returnVector : List Str) :
    readReplies i (groups.map fun values => .array (values.map .string)) returnVector
      = .ok (returnVector ++ (popped i groups).flatten) := by
  induction groups generalizing i returnVector with
  | nil => simp [readReplies, popped]
  | cons values groups ih =>
      rw [List.map_cons, readReplies, popped, List.length_map]
      by_cases hi : i < groups.length + 1
      · rw [if_pos hi, if_pos hi, foldlM_pushReply]
        show readReplies (i + 1) _ (returnVector ++ values) = _
        rw [ih, List.flatten_cons, List.append_assoc]
      · rw [if_neg hi, if_neg hi, List.flatten_nil, List.append_nil]

/-- **`redis::get_batch`** on present keys returns the values of half the
servers. -/
theorem getBatch_eq (h : ∀ key ∈ keys, ∃ value, c.get key = .ok value) :
    c.getBatch keys = .ok ((popped 0 (c.order.walk (keys.map c.shard))).flatMap fun id =>
      (keys.filter fun key => c.shard key = id).map c.valueOf) := by
  have hfutures : ((c.order.walk (keys.map c.shard)).map fun id =>
      (c.client id).mget (((gather c.shard keys).lookup id).getD []))
      = ((c.order.walk (keys.map c.shard)).map fun id =>
        (keys.filter fun key => c.shard key = id).map c.valueOf).map
          fun values => Reply.array (values.map .string) := by
    rw [List.map_map]
    apply List.map_congr_left
    intro id _
    rw [getD_lookup_gather, RedisServer.mget, Function.comp_apply, List.map_map]
    congr 1
    apply List.map_congr_left
    intro key hkey
    obtain ⟨hmem, hid⟩ := List.mem_filter.mp hkey
    obtain ⟨value, hvalue⟩ := h key hmem
    obtain rfl : c.shard key = id := by simpa using hid
    rw [get_eq_ok] at hvalue
    simp [RedisServer.get, valueOf, UnorderedMap.at_, hvalue]
  simp only [getBatch, hfutures, readReplies_strings, List.nil_append]
  rw [popped_map, List.flatMap_def]

/-- **`rocksdb::get_batch`** over the same contents. -/
theorem getBatch_asRocksdb (h : ∀ key ∈ keys, ∃ value, c.get key = .ok value) :
    c.asRocksdb.getBatch keys = .ok (keys.map c.valueOf) := by
  have hget : ∀ key ∈ keys, c.asRocksdb.get key = .ok (c.valueOf key) := by
    intro key hkey
    obtain ⟨value, hvalue⟩ := h key hkey
    rw [get_eq_ok] at hvalue
    have hcontents : (c.asRocksdb.client (c.asRocksdb.shard key)).contents
        = (c.client (c.shard key)).contents := by
      simp only [asRocksdb, Rocksdb.client, Rocksdb.shard, List.length_map, client, shard,
        List.getD_eq_getElem?_getD, List.getElem?_map]
      cases c.clients[c.hash key % c.clients.length]? with
      | none => rfl
      | some server => rfl
    rw [Rocksdb.get, SsdbServer.get, hcontents, hvalue, valueOf, UnorderedMap.at_, hvalue]
    rfl
  have hloop : ∀ returnVector, keys.foldlM (fun returnVector key => do
      let value ← c.asRocksdb.get key
      Except.ok (returnVector ++ [value])) returnVector
        = (.ok (returnVector ++ keys.map c.valueOf) : Except StorageFault (List Str)) := by
    clear h
    induction keys with
    | nil =>
        intro returnVector
        rw [List.map_nil, List.append_nil]
        rfl
    | cons key keys ih =>
        intro returnVector
        rw [List.foldlM_cons, hget key (by simp)]
        show keys.foldlM _ (returnVector ++ [c.valueOf key]) = _
        rw [ih fun k hk => hget k (by simp [hk])]
        simp
  exact hloop []

theorem forall₂_valueOf (h : ∀ key ∈ keys, ∃ value, c.get key = .ok value) :
    List.Forall₂ (fun key value => c.get key = .ok value) keys (keys.map c.valueOf) := by
  rw [List.forall₂_map_right_iff, List.forall₂_same]
  intro key hkey
  obtain ⟨value, hvalue⟩ := h key hkey
  rw [hvalue, valueOf, UnorderedMap.at_, get_eq_ok.mp hvalue]
  rfl

/-- The servers contacted: one at most exactly when the keys belong to one. -/
theorem length_walk_le_one : (c.order.walk (keys.map c.shard)).length ≤ 1 ↔ c.OneShard keys := by
  have hnd := c.order.nodup (keys.map c.shard)
  have hmem := c.order.mem (keys.map c.shard)
  generalize c.order.walk (keys.map c.shard) = ids at hnd hmem
  constructor
  · intro hlen key hkey key' hkey'
    have hid := (hmem _).mpr (List.mem_map_of_mem hkey)
    have hid' := (hmem _).mpr (List.mem_map_of_mem hkey')
    cases ids with
    | nil => cases hid
    | cons id ids =>
        obtain rfl : ids = [] := List.eq_nil_of_length_eq_zero (by simpa using hlen)
        rw [List.mem_singleton] at hid hid'
        rw [hid, hid']
  · intro hone
    match ids, hnd, hmem with
    | [], _, _ => exact Nat.zero_le _
    | [_], _, _ => exact le_rfl
    | id :: id' :: ids, hnd, hmem =>
        obtain ⟨key, hkey, rfl⟩ := List.mem_map.mp ((hmem id).mp (by simp))
        obtain ⟨key', hkey', rfl⟩ := List.mem_map.mp ((hmem id').mp (by simp))
        rw [hone key hkey key' hkey', List.nodup_cons] at hnd
        exact absurd (by simp) hnd.1

/-- With one server, its group is the whole batch. -/
theorem groups_of_oneShard (hone : c.OneShard keys) :
    ((c.order.walk (keys.map c.shard)).flatMap fun id =>
      (keys.filter fun key => c.shard key = id).map c.valueOf) = keys.map c.valueOf := by
  have hlen := length_walk_le_one.mpr hone
  have hmem := c.order.mem (keys.map c.shard)
  generalize c.order.walk (keys.map c.shard) = ids at hlen hmem
  cases keys with
  | nil =>
      cases ids with
      | nil => rfl
      | cons id ids => exact absurd ((hmem id).mp (by simp)) List.not_mem_nil
  | cons key keys =>
      have hid := (hmem _).mpr (List.mem_map_of_mem (List.mem_cons_self (a := key) (l := keys)))
      obtain ⟨id, rfl⟩ : ∃ id, ids = [id] := by
        cases ids with
        | nil => cases hid
        | cons id ids =>
            obtain rfl : ids = [] := List.eq_nil_of_length_eq_zero (by simpa using hlen)
            exact ⟨id, rfl⟩
      rw [List.mem_singleton] at hid
      rw [List.flatMap_singleton, List.filter_eq_self.mpr]
      intro k hk
      rw [decide_eq_true_iff, ← hid]
      exact hone k hk key (by simp)

/-- With two, half of them are not all of them. -/
theorem length_popped_groups (hone : ¬ c.OneShard keys) :
    ((popped 0 (c.order.walk (keys.map c.shard))).flatMap fun id =>
      (keys.filter fun key => c.shard key = id).map c.valueOf).length < keys.length := by
  have hlen : ¬ (c.order.walk (keys.map c.shard)).length ≤ 1 := fun hle =>
    hone (length_walk_le_one.mp hle)
  have hnd := c.order.nodup (keys.map c.shard)
  have hmem := c.order.mem (keys.map c.shard)
  rw [popped_eq_take]
  generalize c.order.walk (keys.map c.shard) = ids at hlen hnd hmem
  rw [← List.take_append_drop ((ids.length - 0 + 1) / 2) ids] at hnd
  -- the first server that is left out
  obtain ⟨id, hid⟩ : ∃ id, id ∈ ids.drop ((ids.length - 0 + 1) / 2) := by
    apply List.exists_mem_of_length_pos
    rw [List.length_drop]
    omega
  obtain ⟨key, hkey, rfl⟩ := List.mem_map.mp ((hmem id).mp (List.mem_of_mem_drop hid))
  rw [List.length_flatMap]
  simp only [List.length_map]
  apply sum_length_groups_lt c.shard keys hnd _ hkey hid
  intro x hx
  rw [List.take_append_drop]
  exact (hmem _).mpr (List.mem_map_of_mem hx)

/-- **Batch reads agree with single reads** exactly when all keys belong to
one server: whatever the servers hold, the hash function and the order in
which the servers are asked. -/
theorem batchAgrees_iff (h : ∀ key ∈ keys, ∃ value, c.get key = .ok value) :
    c.BatchAgrees keys ↔ c.OneShard keys := by
  constructor
  · intro hagrees
    obtain ⟨values, hbatch, hsingle, -⟩ := hagrees
    by_contra hone
    have hless := length_popped_groups hone
    rw [getBatch_eq h, Except.ok.injEq] at hbatch
    rw [hbatch, hsingle.length_eq] at hless
    exact lt_irrefl _ hless
  · intro hone
    refine ⟨keys.map c.valueOf, ?_, forall₂_valueOf h, getBatch_asRocksdb h⟩
    rw [getBatch_eq h, (popped_eq_self_iff _).mpr (length_walk_le_one.mpr hone),
      groups_of_oneShard hone]

end Reads

/-- Two servers, told apart by the first character of the key. -/
def twoServers : Redis where
  hash key := (key.headD 'a').toNat
  order := .latest
  clients := [{}, {}]
  connected := by simp

/-- Two keys at one server, and one at the other. -/
def threeKeys : Redis :=
  (((twoServers.put ['a'] ['1']).2.put ['b'] ['2']).2.put ['c'] ['3']).2

/-- The keys of one server, one of them twice. -/
theorem batchAgrees_iff_threeKeys : threeKeys.BatchAgrees [['a'], ['c'], ['a']] := by
  have hpresent : ∀ key ∈ [['a'], ['c'], ['a']], ∃ value, threeKeys.get key = .ok value := by
    intro key hkey
    simp only [List.mem_cons, List.not_mem_nil, or_false] at hkey
    rcases hkey with rfl | rfl | rfl
    · exact ⟨['1'], by decide +kernel⟩
    · exact ⟨['3'], by decide +kernel⟩
    · exact ⟨['1'], by decide +kernel⟩
  exact (batchAgrees_iff hpresent).mpr (by unfold OneShard; decide +kernel)

/-- **The failing read**: of two keys at two servers, only the first one's
value is returned. -/
theorem getBatch_incomplete :
    threeKeys.get ['a'] = .ok ['1'] ∧ threeKeys.get ['b'] = .ok ['2'] ∧
    threeKeys.asRocksdb.getBatch [['a'], ['b']] = .ok [['1'], ['2']] ∧
    threeKeys.getBatch [['a'], ['b']] = .ok [['1']] ∧
    ¬ threeKeys.BatchAgrees [['a'], ['b']] := by
  have hbatch : threeKeys.getBatch [['a'], ['b']] = .ok [['1']] := by decide +kernel
  refine ⟨by decide +kernel, by decide +kernel, by decide +kernel, hbatch, ?_⟩
  intro h
  obtain ⟨values, hvalues, hsingle, -⟩ := h
  rw [hbatch, Except.ok.injEq] at hvalues
  have hlen := hsingle.length_eq
  rw [← hvalues] at hlen
  cases hlen

/-! ## Batch writes -/

/-- `put` on the pairs in order. -/
def putAll (c : Redis) (pairs : List (Str × Str)) : Redis :=
  pairs.foldl (fun c pair => (c.put pair.1 pair.2).2) c

/-- The batch write changes the storage as single writes do, fails exactly
when a server answered with an error, and returns only after a look at every
answer. -/
structure ReportsFailures (c : Redis) (keys values : List Str) : Prop where
  storage : (c.putBatch keys values).storage = c.putAll (keys.zip values)
  throws : (∃ e, (c.putBatch keys values).outcome = .error e) ↔
    ∃ reply ∈ (c.putBatch keys values).replies, reply.isError
  examined : (c.putBatch keys values).outcome = .ok () →
    (c.putBatch keys values).examined = (c.putBatch keys values).replies

/-- One of the servers whose replies the loop looks at refuses writes. -/
def EarlyError (c : Redis) (keys : List Str) : Prop :=
  ∃ id ∈ popped 0 (c.order.walk (keys.map c.shard)), (c.client id).writeError ≠ none

section Writes

variable {c : Redis} {keys values : List Str}

@[simp] theorem shard_withClient (c : Redis) (id : Nat) (server : RedisServer) (key : Str) :
    (c.withClient id server).shard key = c.shard key := by
  simp [shard, withClient]

/-- Writing pairs one at a time is writing them all. -/
theorem mset_append (s : RedisServer) (pairs : List (Str × Str)) (pair : Str × Str) :
    (s.mset (pairs ++ [pair])).2 = ((s.mset pairs).2.set pair.1 pair.2).2 := by
  unfold RedisServer.set RedisServer.mset
  cases h : s.writeError with
  | none => simp [List.foldl_append]
  | some message => simp [h]

theorem ext {c c' : Redis} (hhash : c'.hash = c.hash) (horder : c'.order = c.order)
    (hclients : c'.clients = c.clients) : c' = c := by
  cases c
  cases c'
  cases hhash
  cases horder
  cases hclients
  rfl

theorem mset_nil (s : RedisServer) : (s.mset []).2 = s := by
  unfold RedisServer.mset
  split
  · rfl
  · rfl

theorem getElem?_withClient (c : Redis) (id i : Nat) (server : RedisServer) :
    (c.withClient id server).clients[i]? = c.clients[i]?.map fun old =>
      if i = id then server else old := by
  show (c.clients.set id server)[i]? = _
  rw [List.getElem?_set]
  by_cases hi : id = i
  · subst hi
    by_cases hlt : id < c.clients.length <;> simp [hlt]
  · rw [if_neg hi]
    simp [Ne.symm hi]

theorem client_eq {id : Nat} {server : RedisServer} (h : c.clients[id]? = some server) :
    c.client id = server := by
  rw [client, List.getD_eq_getElem?_getD, h]
  rfl

theorem put_snd (c : Redis) (key value : Str) : (c.put key value).2
    = c.withClient (c.shard key) ((c.client (c.shard key)).set key value).2 := rfl

theorem msetAll_cons (pairs : Nat → List (Str × Str)) (c : Redis) (id : Nat) (ids : List Nat) :
    let rest := msetAll pairs (c.withClient id ((c.client id).mset (pairs id)).2) ids
    msetAll pairs c (id :: ids) = (((c.client id).mset (pairs id)).1 :: rest.1, rest.2) := rfl

/-- Single writes change the servers only. -/
theorem putAll_frame (pairs : List (Str × Str)) : (c.putAll pairs).hash = c.hash ∧
    (c.putAll pairs).order = c.order ∧ (c.putAll pairs).shard = c.shard := by
  unfold putAll
  induction pairs generalizing c with
  | nil => exact ⟨rfl, rfl, rfl⟩
  | cons pair pairs ih =>
      obtain ⟨hhash, horder, hshard⟩ := ih (c := (c.put pair.1 pair.2).2)
      refine ⟨hhash, horder, hshard.trans ?_⟩
      funext key
      exact shard_withClient _ _ _ _

/-- The servers after single writes: each has been written its own pairs. -/
theorem getElem?_putAll (pairs : List (Str × Str)) (i : Nat) :
    (c.putAll pairs).clients[i]? = c.clients[i]?.map fun server =>
      (server.mset (pairs.filter fun pair => c.shard pair.1 = i)).2 := by
  induction pairs using List.reverseRecOn with
  | nil =>
      simp only [putAll, List.foldl_nil, List.filter_nil, mset_nil]
      simp
  | append_singleton pairs pair ih =>
      have hput : c.putAll (pairs ++ [pair]) = ((c.putAll pairs).put pair.1 pair.2).2 := by
        rw [putAll, List.foldl_append]
        rfl
      rw [hput, put_snd, getElem?_withClient, (putAll_frame pairs).2.2, List.filter_append, ih]
      cases hserver : c.clients[i]? with
      | none => rfl
      | some server =>
          rw [hserver, Option.map_some] at ih
          rw [Option.map_some, Option.map_some, Option.map_some]
          by_cases hi : i = c.shard pair.1
          · subst hi
            rw [if_pos rfl, client_eq ih, ← mset_append]
            simp
          · rw [if_neg hi]
            simp [Ne.symm hi]

/-- The commands of a batch write, one for each server, do not meet. -/
theorem msetAll_spec (pairs : Nat → List (Str × Str)) {ids : List Nat} (hnd : ids.Nodup) :
    (msetAll pairs c ids).1 = ids.map (fun id => ((c.client id).mset (pairs id)).1) ∧
    (msetAll pairs c ids).2.hash = c.hash ∧ (msetAll pairs c ids).2.order = c.order ∧
    ∀ i : Nat, (msetAll pairs c ids).2.clients[i]? = c.clients[i]?.map fun server =>
      if i ∈ ids then (server.mset (pairs i)).2 else server := by
  induction ids generalizing c with
  | nil =>
      refine ⟨rfl, rfl, rfl, ?_⟩
      intro i
      simp [msetAll]
  | cons id ids ih =>
      rw [List.nodup_cons] at hnd
      obtain ⟨hreplies, hhash, horder, hclients⟩ :=
        ih (c := c.withClient id ((c.client id).mset (pairs id)).2) hnd.2
      rw [msetAll_cons]
      refine ⟨?_, hhash, horder, ?_⟩
      · dsimp only
        rw [hreplies, List.map_cons]
        congr 1
        apply List.map_congr_left
        intro id' hid'
        have hne : id' ≠ id := fun hc => hnd.1 (hc ▸ hid')
        simp only [client, List.getD_eq_getElem?_getD, getElem?_withClient, if_neg hne]
        simp
      · intro i
        rw [hclients, getElem?_withClient]
        cases hserver : c.clients[i]? with
        | none => rfl
        | some server =>
            rw [Option.map_some, Option.map_some, Option.map_some]
            by_cases hi : i = id
            · subst hi
              rw [if_pos rfl, if_neg hnd.1, client_eq hserver]
              simp
            · rw [if_neg hi]
              simp [hi]

/-- **The storage** after a batch write is that after the single writes. -/
theorem putBatch_storage (c : Redis) (keys values : List Str) :
    (c.putBatch keys values).storage = c.putAll (keys.zip values) := by
  obtain ⟨-, hhash, horder, hclients⟩ := msetAll_spec (c := c) (fun id =>
    ((gather (fun pair : Str × Str => c.shard pair.1) (keys.zip values)).lookup id).getD [])
    (c.order.nodup (keys.map c.shard))
  obtain ⟨hhash', horder', -⟩ := putAll_frame (c := c) (keys.zip values)
  apply ext
  · exact hhash.trans hhash'.symm
  · exact horder.trans horder'.symm
  · apply List.ext_getElem?
    intro i
    rw [getElem?_putAll]
    refine (hclients i).trans ?_
    congr 1
    funext server
    rw [getD_lookup_gather]
    by_cases hi : i ∈ c.order.walk (keys.map c.shard)
    · rw [if_pos hi]
    · -- a server that is not contacted has no pairs
      rw [if_neg hi, List.filter_eq_nil_iff.mpr, mset_nil]
      intro pair hpair hc
      apply hi
      apply (c.order.mem _ _).mpr
      rw [decide_eq_true_iff] at hc
      rw [← hc]
      exact List.mem_map_of_mem (List.of_mem_zip hpair).1

/-- The replies: an error from each server that refuses writes. -/
theorem putBatch_replies (c : Redis) (keys values : List Str) :
    (c.putBatch keys values).replies = (c.order.walk (keys.map c.shard)).map fun id =>
      ((c.client id).mset ((keys.zip values).filter fun pair => c.shard pair.1 = id)).1 := by
  refine (msetAll_spec (c := c) (fun id =>
    ((gather (fun pair : Str × Str => c.shard pair.1) (keys.zip values)).lookup id).getD [])
    (c.order.nodup (keys.map c.shard))).1.trans ?_
  apply List.map_congr_left
  intro id _
  rw [getD_lookup_gather]

theorem isError_mset (s : RedisServer) (pairs : List (Str × Str)) :
    (s.mset pairs).1.isError = true ↔ s.writeError ≠ none := by
  unfold RedisServer.mset
  cases s.writeError with
  | none => simp [Reply.isError]
  | some message => simp [Reply.isError]

/-- The loop looks at what it pops, up to the first error. -/
theorem checkReplies_spec (i : Nat) (futures : List Reply) :
    ((∃ e, (checkReplies i futures).2 = .error e) ↔
      ∃ reply ∈ popped i futures, reply.isError = true) ∧
    ((checkReplies i futures).2 = .ok () → (checkReplies i futures).1 = popped i futures) := by
  induction futures generalizing i with
  | nil => simp [checkReplies, popped]
  | cons reply futures ih =>
      obtain ⟨hthrows, hexamined⟩ := ih (i + 1)
      rw [checkReplies, popped]
      by_cases hi : i < futures.length + 1
      · rw [if_pos hi, if_pos hi]
        cases reply with
        | error message => simp [checkReply, Reply.isError]
        | null | string _ | array _ =>
            simp only [checkReply, List.mem_cons, exists_eq_or_imp, Reply.isError,
              Bool.false_eq_true, false_or]
            refine ⟨hthrows, ?_⟩
            intro hok
            rw [hexamined hok]
      · rw [if_neg hi, if_neg hi]
        simp

theorem earlyError_iff (values : List Str) : c.EarlyError keys ↔
    ∃ reply ∈ popped 0 (c.putBatch keys values).replies, reply.isError = true := by
  rw [putBatch_replies, popped_map]
  constructor
  · intro h
    obtain ⟨id, hid, herror⟩ := h
    exact ⟨_, List.mem_map_of_mem hid, (isError_mset _ _).mpr herror⟩
  · intro h
    obtain ⟨reply, hreply, herror⟩ := h
    obtain ⟨id, hid, rfl⟩ := List.mem_map.mp hreply
    exact ⟨id, hid, (isError_mset _ _).mp herror⟩

/-- **Batch writes report failures** exactly when one server at most is
contacted, or the loop comes to an error in the first half of the replies. -/
theorem reportsFailures_iff (c : Redis) (keys values : List Str) :
    c.ReportsFailures keys values ↔ c.OneShard keys ∨ c.EarlyError keys := by
  obtain ⟨hthrows, hexamined⟩ := checkReplies_spec 0 (c.putBatch keys values).replies
  have hone : popped 0 (c.putBatch keys values).replies = (c.putBatch keys values).replies ↔
      c.OneShard keys := by
    rw [popped_eq_self_iff, putBatch_replies, List.length_map, length_walk_le_one]
  constructor
  · intro h
    by_cases hearly : c.EarlyError keys
    · exact .inr hearly
    · left
      have hok : (c.putBatch keys values).outcome = .ok () := by
        cases ho : (c.putBatch keys values).outcome with
        | ok u => rfl
        | error e => exact absurd ((earlyError_iff values).mpr (hthrows.mp ⟨e, ho⟩)) hearly
      rw [← hone, ← hexamined hok]
      exact h.examined hok
  · intro h
    refine ⟨putBatch_storage c keys values, ?_, ?_⟩
    · rcases h with h | h
      · rw [← hone.mpr h]
        exact hthrows
      · have herror := (earlyError_iff values).mp h
        refine ⟨fun _ => ?_, fun _ => hthrows.mpr herror⟩
        obtain ⟨reply, hreply, he⟩ := herror
        rw [popped_eq_take] at hreply
        exact ⟨reply, List.mem_of_mem_take hreply, he⟩
    · intro hok
      rcases h with h | h
      · rw [← hone.mpr h]
        exact hexamined hok
      · obtain ⟨e, he⟩ := hthrows.mpr ((earlyError_iff values).mp h)
        exact absurd (hok.symm.trans he) (by simp)

end Writes

/-- The server of the key `b` is read-only. -/
def readOnlyServer : Redis :=
  { twoServers with
    clients := [{ writeError := some ['R', 'E', 'A', 'D', 'O', 'N', 'L', 'Y'] }, {}]
    connected := by simp }

/-- **The failing write**: the call returns, though the second reply, which it
never looks at, is an error. -/
theorem putBatch_swallows_error :
    (readOnlyServer.putBatch [['a'], ['b']] [['1'], ['2']]).outcome = .ok () ∧
    (readOnlyServer.putBatch [['a'], ['b']] [['1'], ['2']]).examined.map Reply.isError = [false] ∧
    (readOnlyServer.putBatch [['a'], ['b']] [['1'], ['2']]).replies.map Reply.isError
      = [false, true] ∧
    ¬ readOnlyServer.ReportsFailures [['a'], ['b']] [['1'], ['2']] := by
  have hok : (readOnlyServer.putBatch [['a'], ['b']] [['1'], ['2']]).outcome = .ok () := by
    decide +kernel
  have hreplies : (readOnlyServer.putBatch [['a'], ['b']] [['1'], ['2']]).replies.map
      Reply.isError = [false, true] := by
    decide +kernel
  refine ⟨hok, by decide +kernel, hreplies, ?_⟩
  intro h
  have herror : ∃ reply ∈ (readOnlyServer.putBatch [['a'], ['b']] [['1'], ['2']]).replies,
      reply.isError = true := by
    rw [← List.mem_map, hreplies]
    simp
  obtain ⟨e, he⟩ := h.throws.mpr herror
  rw [hok] at he
  cases he

end Redis

end Pancake
