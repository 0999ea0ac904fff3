import Pancake.Batching
import Pancake.Redistribution
import Pancake.StorageInterface

/-!
# `rocksdb` and `redis` behind the interface

Two clusters are held against the map of the proxy. Over `rocksdb` the proxy
runs as over the map as long as the servers accept the writes. Over `redis` it
does as long as every batch, besides, stays on one server; no other batch comes
back.
-/

namespace Pancake

open Fanout

/-! ## `rocksdb` -/

namespace Rocksdb

/-- `rocksdb::put_batch` as `execute_batch` sees it. -/
def interface : StorageInterface Rocksdb where
  getBatch := getBatch
  putBatch c keys values :=
    let (outcome, storage) := c.putBatch keys values
    outcome.map fun _ => storage

/-- The servers of all the labels accept writes. -/
def Accepts (c : Rocksdb) (labels : List Str) : Prop :=
  ∀ label ∈ labels, (c.client (c.shard label)).writeError = none

theorem accepts_cons {c : Rocksdb} {label : Str} {labels : List Str} :
    c.Accepts (label :: labels) ↔ c.Accepts [label] ∧ c.Accepts labels := by
  simp [Accepts]

/-- Every label's server has what the map has under it. -/
structure Holds (Serves : List Str → Prop) (c : Rocksdb) (m : UnorderedMap Str) : Prop where
  lookup (label : Str) : (c.client (c.shard label)).contents.lookup label = m.lookup label
  serves (labels : List Str) : c.Accepts labels ↔ Serves labels

/-- A server that accepts a write. -/
theorem put_of_accepts {c : Rocksdb} {key : Str} (h : c.Accepts [key]) (value : Str) :
    c.put key value = (.ok (), c.withClient (c.shard key)
      { contents := (c.client (c.shard key)).contents.insert key value }) := by
  have hnone := h key (List.mem_singleton_self key)
  rw [put, SsdbServer.set, hnone]
  rfl

/-- A server that refuses writes has its code thrown. -/
theorem put_throws {c : Rocksdb} {key : Str} (h : ¬ c.Accepts [key]) (value : Str) :
    ∃ code, c.put key value = (.error (.runtimeError code), c.withClient (c.shard key)
      (c.client (c.shard key))) := by
  cases herror : (c.client (c.shard key)).writeError with
  | none => exact absurd (fun label hlabel => by rwa [List.mem_singleton.mp hlabel]) h
  | some code =>
      refine ⟨code, ?_⟩
      rw [put, SsdbServer.set, herror]
      rfl

section Holds

variable {Serves : List Str → Prop} {c c' : Rocksdb} {m : UnorderedMap Str}

theorem client_withClient (c : Rocksdb) (key label : Str) (server : SsdbServer) :
    (c.withClient (c.shard key) server).client
        ((c.withClient (c.shard key) server).shard label)
      = if c.shard label = c.shard key then server else c.client (c.shard label) := by
  have hshard : (c.withClient (c.shard key) server).shard label = c.shard label := by
    rw [shard, withClient, List.length_set]
    rfl
  have hlt : c.shard key < c.clients.length :=
    Nat.mod_lt _ (List.length_pos_iff.mpr c.connected)
  rw [hshard, client, withClient, List.getD_eq_getElem?_getD, List.getElem?_set]
  by_cases hsame : c.shard label = c.shard key
  · rw [if_pos hsame, if_pos hsame.symm, if_pos hlt, Option.getD_some]
  · rw [if_neg hsame, if_neg (Ne.symm hsame), ← List.getD_eq_getElem?_getD]
    rfl

/-- A write goes to the server that is read. -/
theorem Holds.put (h : c.Holds Serves m) {key : Str} (hkey : c.Accepts [key]) (value : Str) :
    ∃ c', c.put key value = (.ok (), c') ∧ c'.Holds Serves (m.insert key value) := by
  refine ⟨_, put_of_accepts hkey value, ?_, ?_⟩
  · intro label
    rw [client_withClient]
    by_cases hlabel : label = key
    · subst hlabel
      rw [if_pos rfl, Finmap.lookup_insert, Finmap.lookup_insert]
    · rw [Finmap.lookup_insert_of_ne _ hlabel, ← h.lookup label]
      by_cases hsame : c.shard label = c.shard key
      · rw [if_pos hsame, Finmap.lookup_insert_of_ne _ hlabel, hsame]
      · rw [if_neg hsame]
  · intro labels
    rw [← h.serves]
    have herror : ∀ label, (if c.shard label = c.shard key then
        { contents := (c.client (c.shard key)).contents.insert key value }
          else c.client (c.shard label)).writeError = (c.client (c.shard label)).writeError := by
      intro label
      by_cases hsame : c.shard label = c.shard key
      · rw [if_pos hsame, hsame, hkey key (List.mem_singleton_self key)]
      · rw [if_neg hsame]
    simp only [Accepts, client_withClient, herror]

/-- **The loop of `put_batch`** comes to its end exactly when every server it
writes to accepts, and then has written all. -/
theorem Holds.putEach (h : c.Holds Serves m) (pairs : List (Str × Str)) :
    (c.Accepts (pairs.map Prod.fst) → ∃ c', c.putEach pairs = (.ok (), c')) ∧
    ∀ c' : Rocksdb, c.putEach pairs = (.ok (), c') → c.Accepts (pairs.map Prod.fst) ∧
      c'.Holds Serves (pairs.foldl (fun m pair => m.insert pair.1 pair.2) m) := by
  induction pairs generalizing c m with
  | nil =>
      refine ⟨fun _ => ⟨c, rfl⟩, ?_⟩
      intro c' hc'
      cases hc'
      exact ⟨fun label hlabel => absurd hlabel List.not_mem_nil, h⟩
  | cons pair pairs ih =>
      obtain ⟨key, value⟩ := pair
      rw [List.map_cons, accepts_cons, Rocksdb.putEach, List.foldl_cons]
      by_cases hkey : c.Accepts [key]
      · obtain ⟨c₁, hput, hholds⟩ := h.put hkey value
        obtain ⟨hreturns, hwrites⟩ := ih hholds
        -- the writes leave who accepts as it was
        have hsame : c₁.Accepts (pairs.map Prod.fst) ↔ c.Accepts (pairs.map Prod.fst) :=
          (hholds.serves _).trans (h.serves _).symm
        rw [hput]
        refine ⟨fun hall => hreturns (hsame.mpr hall.2), ?_⟩
        intro c' hc'
        obtain ⟨hall, hc'⟩ := hwrites c' hc'
        exact ⟨⟨hkey, hsame.mp hall⟩, hc'⟩
      · obtain ⟨code, hput⟩ := put_throws hkey value
        rw [hput]
        refine ⟨fun hall => absurd hall.1 hkey, ?_⟩
        intro c' hc'
        cases hc'

theorem Holds.putBatch (h : c.Holds Serves m) {keys values : List Str}
    (hlength : values.length = keys.length) :
    (c.Accepts keys → ∃ c', interface.putBatch c keys values = .ok c') ∧
    ∀ c', interface.putBatch c keys values = .ok c' →
      c.Accepts keys ∧ c'.Holds Serves (Server.insertAll m keys values) := by
  obtain ⟨hreturns, hwrites⟩ := h.putEach (keys.zip values)
  rw [List.map_fst_zip hlength.ge] at hreturns hwrites
  constructor
  · intro hkeys
    obtain ⟨c', hc'⟩ := hreturns hkeys
    refine ⟨c', ?_⟩
    simp only [interface, Rocksdb.putBatch, hc']
    rfl
  · intro c' hc'
    cases hput : c.putEach (keys.zip values) with
    | mk outcome storage =>
        simp only [interface, Rocksdb.putBatch, hput] at hc'
        cases outcome with
        | error e => cases hc'
        | ok u =>
            cases hc'
            rw [Server.insertAll_eq_foldl]
            exact hwrites _ hput

/-- A single server with the whole map would answer the same. -/
theorem Holds.get (h : c.Holds Serves m) (key : Str) :
    c.get key = (SsdbServer.get { contents := m } key).mapError .runtimeError := by
  rw [Rocksdb.get, SsdbServer.get, h.lookup]
  rfl

/-- The loop of `get_batch` gathers what is in the map. -/
theorem Holds.getBatch (h : c.Holds Serves m) (keys values : List Str) :
    c.getBatch keys = .ok values ↔ Server.readAll m keys = .ok values := by
  suffices hloop : ∀ returnVector out, keys.foldlM (fun returnVector key => do
      let value ← c.get key
      Except.ok (returnVector ++ [value])) returnVector = (.ok out : Except StorageFault _) ↔
        ∃ values, Server.readAll m keys = .ok values ∧ out = returnVector ++ values by
    rw [Rocksdb.getBatch, hloop]
    simp
  clear values
  induction keys with
  | nil =>
      intro returnVector out
      constructor
      · intro hout
        cases hout
        exact ⟨[], rfl, (List.append_nil _).symm⟩
      · intro hout
        obtain ⟨values, hvalues, rfl⟩ := hout
        cases hvalues
        rw [List.append_nil]
        rfl
  | cons key keys ih =>
      intro returnVector out
      have hget := h.get key
      rw [SsdbServer.get] at hget
      rw [List.foldlM_cons, Server.readAll]
      cases hvalue : m.lookup key with
      | none =>
          rw [hvalue] at hget
          rw [hget]
          constructor
          · intro hout
            cases hout
          · intro hout
            obtain ⟨values, hvalues, -⟩ := hout
            cases hvalues
      | some value =>
          rw [hvalue] at hget
          rw [hget]
          refine (ih (returnVector ++ [value]) out).trans ?_
          constructor
          · intro hout
            obtain ⟨values, hvalues, rfl⟩ := hout
            exact ⟨value :: values, bind_eq_ok.mpr ⟨values, hvalues, rfl⟩, by simp⟩
          · intro hout
            obtain ⟨values, hvalues, rfl⟩ := hout
            obtain ⟨rest, hrest, hvalues⟩ := bind_eq_ok.mp hvalues
            cases hvalues
            exact ⟨rest, hrest, by simp⟩

end Holds

theorem backs (Serves : List Str → Prop) : interface.Backs Serves (Holds Serves) where
  reads h hget _ := (h.getBatch _ _).mp hget
  writes {c c' m keys responses values} h _ _ hlength hput := by
    obtain ⟨haccepts, hholds⟩ := (h.putBatch hlength).2 c' hput
    exact ⟨(h.serves keys).mp haccepts, hholds⟩
  answers h _ hread := (h.getBatch _ _).mpr hread
  accepts {c m keys values} h hserves hlength :=
    (h.putBatch hlength).1 ((h.serves keys).mpr hserves)

end Rocksdb

/-- **Over `rocksdb`** the proxy has the runs it has over the map the servers
hold together in which the servers of all labels accept writes: no other call
returns. -/
theorem rocksdb_runs {st : Proxy} {c : Rocksdb}
    (h : ∀ label, (c.client (c.shard label)).contents.lookup label
      = st.storage.contents.lookup label) (calls : List Call) :
    (∀ d', Run (Deployed.Executes Rocksdb.interface) ⟨st, c⟩ calls d' →
      ∃ st', Run (Deployed.Served c.Accepts) st calls st' ∧
        Deployed.Represents (Rocksdb.Holds c.Accepts) st' d') ∧
    (∀ st', Run (Deployed.Served c.Accepts) st calls st' →
      ∃ d', Run (Deployed.Executes Rocksdb.interface) ⟨st, c⟩ calls d' ∧
        Deployed.Represents (Rocksdb.Holds c.Accepts) st' d') := by
  have hrep : Deployed.Represents (Rocksdb.Holds c.Accepts) st ⟨st, c⟩ :=
    ⟨rfl, h, fun _ => Iff.rfl⟩
  exact hrep.runs (Rocksdb.backs c.Accepts) calls

/-- Two servers, of which the second refuses writes; the stored value of
`oneReplica` on the first. -/
def twoRocksdbs : Rocksdb where
  hash key := (key.headD 'a').toNat
  clients := [⟨(∅ : UnorderedMap Str).insert ['0'] (Evp.padding.encrypt [] [] ['o']), none⟩,
    ⟨∅, some ['e', 'r', 'r', 'o', 'r']⟩]
  connected := by simp

/-- A get of the stored value. -/
def getStored : Call := ⟨Proxy.getOnly ['k'], [0], [(0, ['o'])]⟩

theorem oneReplica_executes : ∃ st', Proxy.oneReplica.Executes getStored st' := by
  obtain ⟨⟨st', fulfilled⟩, hreturns, hfulfilled⟩ :
      ∃ r, Proxy.oneReplica.executeBatchWith (Proxy.getOnly ['k']) [0] = .ok r ∧
        r.2 = [(0, ['o'])] :=
    exists_ok_of_decide (by decide +kernel)
  cases hfulfilled
  refine ⟨st', ⟨Proxy.possible_chooseReplicas_single ?_, hreturns⟩⟩
  exact (UpdateCache.possible_sampleAReplica_of_none rfl).mpr (by decide +kernel)

theorem oneReplica_batchLabels :
    Proxy.oneReplica.batchLabels (Proxy.getOnly ['k']) [0] = [['0']] := by
  decide +kernel

theorem rocksdb_runs_getStored : ∃ st' d',
    Run (Deployed.Served twoRocksdbs.Accepts) Proxy.oneReplica [getStored] st' ∧
    Run (Deployed.Executes Rocksdb.interface) ⟨Proxy.oneReplica, twoRocksdbs⟩ [getStored] d' ∧
    Deployed.Represents (Rocksdb.Holds twoRocksdbs.Accepts) st' d' := by
  have hholds : ∀ label, (twoRocksdbs.client (twoRocksdbs.shard label)).contents.lookup label
      = Proxy.oneReplica.storage.contents.lookup label := by
    intro label
    by_cases hlabel : label = ['0']
    · subst hlabel
      decide +kernel
    · have hstored : Proxy.oneReplica.storage.contents.lookup label = none :=
        Finmap.lookup_insert_of_ne _ hlabel
      rw [hstored, Rocksdb.client]
      generalize twoRocksdbs.shard label = id
      rcases id with _ | _ | id
      · exact Finmap.lookup_insert_of_ne _ hlabel
      · rfl
      · rfl
  have haccepts : twoRocksdbs.Accepts (Proxy.oneReplica.batchLabels (Proxy.getOnly ['k']) [0]) := by
    rw [oneReplica_batchLabels]
    intro label hlabel
    rw [List.mem_singleton.mp hlabel]
    decide +kernel
  obtain ⟨st', hx⟩ := oneReplica_executes
  have hrun : Run (Deployed.Served twoRocksdbs.Accepts) Proxy.oneReplica [getStored] st' :=
    .single ⟨hx, haccepts⟩
  obtain ⟨d', hrun', h⟩ := (rocksdb_runs hholds [getStored]).2 st' hrun
  exact ⟨st', d', hrun, hrun', h⟩

/-! ## `redis` -/

namespace Redis

/-- `redis::put_batch` as `execute_batch` sees it. -/
def interface : StorageInterface Redis where
  getBatch := getBatch
  putBatch c keys values :=
    let call := c.putBatch keys values
    call.outcome.map fun _ => call.storage

/-- All labels belong to one server, which accepts writes. -/
structure Accepts (c : Redis) (labels : List Str) : Prop where
  oneShard : c.OneShard labels
  writable : ∀ label ∈ labels, (c.client (c.shard label)).writeError = none

/-- Every label's server has what the map has under it. -/
structure Holds (Serves : List Str → Prop) (c : Redis) (m : UnorderedMap Str) : Prop where
  lookup (label : Str) : (c.client (c.shard label)).contents.lookup label = m.lookup label
  serves (labels : List Str) : c.Accepts labels ↔ Serves labels

section Reads

variable {c : Redis} {m : UnorderedMap Str} {keys values : List Str}

/-- The nested replies are strings, or the loop throws. -/
theorem foldlM_pushReply_eq_ok (replies : List Reply) : ∀ {returnVector out : List Str},
    replies.foldlM pushReply returnVector = .ok out →
      ∃ values : List Str, replies = values.map .string ∧ out = returnVector ++ values := by
  induction replies with
  | nil =>
      intro returnVector out h
      cases h
      exact ⟨[], rfl, (List.append_nil _).symm⟩
  | cons reply replies ih =>
      intro returnVector out h
      rw [List.foldlM_cons] at h
      cases reply with
      | error _ | null | array _ => cases h
      | string value =>
          obtain ⟨values, rfl, rfl⟩ := @ih (returnVector ++ [value]) _ h
          exact ⟨value :: values, rfl, by simp⟩

/-- The loop over the futures reads strings off those it pops. -/
theorem readReplies_eq_ok (groups : List (List Reply)) : ∀ {i : Nat} {returnVector out : List Str},
    readReplies i (groups.map .array) returnVector = .ok out →
      ∃ values : List (List Str), popped i groups = values.map (List.map .string) ∧
        out = returnVector ++ values.flatten := by
  induction groups with
  | nil =>
      intro i returnVector out h
      cases h
      exact ⟨[], rfl, (List.append_nil _).symm⟩
  | cons replies groups ih =>
      intro i returnVector out h
      rw [List.map_cons, readReplies, List.length_map] at h
      rw [popped]
      by_cases hi : i < groups.length + 1
      · rw [if_pos hi] at h ⊢
        cases hreplies : replies.foldlM pushReply returnVector with
        | error e =>
            simp only [hreplies] at h
            cases h
        | ok returned =>
            simp only [hreplies] at h
            obtain ⟨values, rfl, rfl⟩ := foldlM_pushReply_eq_ok replies hreplies
            obtain ⟨rest, hrest, rfl⟩ := ih h
            exact ⟨values :: rest, by rw [hrest]; rfl, by simp⟩
      · rw [if_neg hi] at h ⊢
        cases h
        exact ⟨[], rfl, (List.append_nil _).symm⟩

/-- What each server contacted is asked for. -/
theorem getBatch_eq_readReplies (c : Redis) (keys : List Str) : c.getBatch keys =
    readReplies 0 (((c.order.walk (keys.map c.shard)).map fun id =>
      (keys.filter fun key => c.shard key = id).map (c.client id).get).map .array) [] := by
  rw [getBatch, List.map_map]
  congr 1
  apply List.map_congr_left
  intro id _
  rw [getD_lookup_gather]
  rfl

/-- **A batch read that comes back whole** has asked one server, and every key
was there. -/
theorem getBatch_whole (h : c.getBatch keys = .ok values) (hlength : keys.length ≤ values.length) :
    c.OneShard keys ∧ ∀ key ∈ keys, ∃ value, c.get key = .ok value := by
  rw [getBatch_eq_readReplies] at h
  obtain ⟨groups, hgroups, rfl⟩ := readReplies_eq_ok _ h
  rw [popped_map] at hgroups
  have hone : c.OneShard keys := by
    by_contra hone
    have hless := length_popped_groups hone
    have hsum : groups.flatten.length = ((popped 0 (c.order.walk (keys.map c.shard))).flatMap
        fun id => (keys.filter fun key => c.shard key = id).map c.valueOf).length := by
      have hlengths := congrArg (fun gs => (gs.map List.length).sum) hgroups
      simp only [List.map_map] at hlengths
      rw [List.length_flatMap, List.length_flatten]
      simp only [List.length_map]
      simpa [Function.comp_def] using hlengths.symm
    rw [List.nil_append, hsum] at hlength
    omega
  refine ⟨hone, ?_⟩
  intro key hkey
  have hid := (c.order.mem _ _).mpr (List.mem_map_of_mem (f := c.shard) hkey)
  rw [(popped_eq_self_iff _).mpr (length_walk_le_one.mpr hone)] at hgroups
  have hgroup := List.mem_map_of_mem (f := fun id =>
    (keys.filter fun key => c.shard key = id).map (c.client id).get) hid
  rw [hgroups] at hgroup
  obtain ⟨strings, -, hstrings⟩ := List.mem_map.mp hgroup
  have hreply : (c.client (c.shard key)).get key ∈ strings.map Reply.string := by
    rw [hstrings]
    exact List.mem_map_of_mem (List.mem_filter.mpr ⟨hkey, by simp⟩)
  obtain ⟨value, -, hvalue⟩ := List.mem_map.mp hreply
  exact ⟨value, by rw [get, ← hvalue]; rfl⟩

theorem Holds.get {Serves : List Str → Prop} (h : c.Holds Serves m) (key value : Str) :
    c.get key = .ok value ↔ m.lookup key = some value := by
  rw [get_eq_ok, h.lookup]

/-- With one server asked, its reply is the whole batch. -/
theorem getBatch_of_oneShard (hone : c.OneShard keys)
    (h : ∀ key ∈ keys, ∃ value, c.get key = .ok value) :
    c.getBatch keys = .ok (keys.map c.valueOf) := by
  rw [getBatch_eq h, (popped_eq_self_iff _).mpr (length_walk_le_one.mpr hone),
    groups_of_oneShard hone]

theorem Holds.readAll {Serves : List Str → Prop} (h : c.Holds Serves m)
    (hkeys : ∀ key ∈ keys, ∃ value, c.get key = .ok value) :
    Server.readAll m keys = .ok (keys.map c.valueOf) := by
  have hpresent : ∀ key ∈ keys, ∃ value, m.lookup key = some value := by
    intro key hkey
    obtain ⟨value, hvalue⟩ := hkeys key hkey
    exact ⟨value, (h.get key value).mp hvalue⟩
  rw [Server.readAll_eq_ok hpresent]
  congr 1
  apply List.map_congr_left
  intro key _
  rw [valueOf, UnorderedMap.at_, UnorderedMap.at_, h.lookup]

end Reads

section Writes

variable {c : Redis} {m : UnorderedMap Str} {keys values : List Str}

theorem shard_lt (c : Redis) (key : Str) : c.shard key < c.clients.length :=
  Nat.mod_lt _ (List.length_pos_iff.mpr c.connected)

/-- The servers after single writes. -/
theorem client_putAll (c : Redis) (pairs : List (Str × Str)) (key : Str) :
    (c.putAll pairs).client (c.shard key)
      = ((c.client (c.shard key)).mset
          (pairs.filter fun pair => c.shard pair.1 = c.shard key)).2 := by
  have hclient := List.getElem?_eq_getElem (c.shard_lt key)
  rw [client_eq hclient]
  apply client_eq
  rw [getElem?_putAll, hclient, Option.map_some]

theorem writeError_mset (s : RedisServer) (pairs : List (Str × Str)) :
    (s.mset pairs).2.writeError = s.writeError := by
  unfold RedisServer.mset
  cases h : s.writeError with
  | none => rfl
  | some message => exact h

/-- Writes change neither where the labels are nor who accepts them. -/
theorem accepts_putAll (c : Redis) (pairs : List (Str × Str)) (labels : List Str) :
    (c.putAll pairs).Accepts labels ↔ c.Accepts labels := by
  have hshard := (putAll_frame (c := c) pairs).2.2
  have herror : ∀ label, ((c.putAll pairs).client ((c.putAll pairs).shard label)).writeError
      = (c.client (c.shard label)).writeError := by
    intro label
    rw [hshard, client_putAll, writeError_mset]
  constructor
  · intro h
    refine ⟨?_, fun label hlabel => herror label ▸ h.writable label hlabel⟩
    intro label hlabel label' hlabel'
    rw [← hshard]
    exact h.oneShard label hlabel label' hlabel'
  · intro h
    refine ⟨?_, fun label hlabel => (herror label).trans (h.writable label hlabel)⟩
    intro label hlabel label' hlabel'
    rw [hshard]
    exact h.oneShard label hlabel label' hlabel'

/-- A label's value is that of the pairs with its key. -/
theorem lookup_foldl_filter (pairs : List (Str × Str)) (p : Str × Str → Bool) {label : Str}
    (hp : ∀ pair ∈ pairs, pair.1 = label → p pair = true) : ∀ {m m' : UnorderedMap Str},
    m'.lookup label = m.lookup label →
      ((pairs.filter p).foldl (fun m pair => m.insert pair.1 pair.2) m').lookup label
        = (pairs.foldl (fun m pair => m.insert pair.1 pair.2) m).lookup label := by
  induction pairs with
  | nil => intro m m' h; exact h
  | cons pair pairs ih =>
      intro m m' h
      have hrest : ∀ pair ∈ pairs, pair.1 = label → p pair = true := fun pair hpair =>
        hp pair (List.mem_cons_of_mem _ hpair)
      by_cases hkeep : p pair = true
      · rw [List.filter_cons_of_pos hkeep, List.foldl_cons, List.foldl_cons]
        apply ih hrest
        by_cases hlabel : label = pair.1
        · rw [hlabel, Finmap.lookup_insert, Finmap.lookup_insert]
        · rw [Finmap.lookup_insert_of_ne _ hlabel, Finmap.lookup_insert_of_ne _ hlabel, h]
      · rw [List.filter_cons_of_neg hkeep, List.foldl_cons]
        apply ih hrest
        have hlabel : label ≠ pair.1 := fun hc => hkeep (hp pair (by simp) hc.symm)
        rw [Finmap.lookup_insert_of_ne _ hlabel, h]

theorem Holds.putAll {Serves : List Str → Prop} (h : c.Holds Serves m)
    (hkeys : ∀ key ∈ keys, (c.client (c.shard key)).writeError = none) (values : List Str) :
    (c.putAll (keys.zip values)).Holds Serves (Server.insertAll m keys values) := by
  refine ⟨?_, fun labels => (accepts_putAll c _ labels).trans (h.serves labels)⟩
  intro label
  rw [(putAll_frame _).2.2, client_putAll, Server.insertAll_eq_foldl]
  -- a server that refuses writes is sent none
  have hwritten : ((c.client (c.shard label)).mset
      ((keys.zip values).filter fun pair => c.shard pair.1 = c.shard label)).2.contents
        = ((keys.zip values).filter fun pair => c.shard pair.1 = c.shard label).foldl
          (fun m pair => m.insert pair.1 pair.2) (c.client (c.shard label)).contents := by
    unfold RedisServer.mset
    cases herror : (c.client (c.shard label)).writeError with
    | none => rfl
    | some message =>
        rw [List.filter_eq_nil_iff.mpr]
        · rfl
        · intro pair hpair hsame
          have hnone := hkeys pair.1 (List.of_mem_zip hpair).1
          rw [of_decide_eq_true hsame, herror] at hnone
          cases hnone
  rw [hwritten]
  apply lookup_foldl_filter
  · intro pair _ hpair
    rw [hpair]
    exact decide_eq_true rfl
  · exact h.lookup label

/-- **A batch write** to one server returns exactly when it accepts writes. -/
theorem putBatch_returns (hone : c.OneShard keys) (values : List Str) :
    (c.putBatch keys values).outcome = .ok () ↔
      ∀ key ∈ keys, (c.client (c.shard key)).writeError = none := by
  have hthrows := (checkReplies_spec 0 (c.putBatch keys values).replies).1.trans
    (earlyError_iff values).symm
  rw [EarlyError, (popped_eq_self_iff _).mpr (length_walk_le_one.mpr hone)] at hthrows
  constructor
  · intro hok key hkey
    by_contra herror
    obtain ⟨e, he⟩ := hthrows.mpr
      ⟨c.shard key, (c.order.mem _ _).mpr (List.mem_map_of_mem hkey), herror⟩
    cases he.symm.trans hok
  · intro hnone
    cases hout : (c.putBatch keys values).outcome with
    | ok u => rfl
    | error e =>
        obtain ⟨id, hid, herror⟩ := hthrows.mp ⟨e, hout⟩
        obtain ⟨key, hkey, rfl⟩ := List.mem_map.mp ((c.order.mem _ _).mp hid)
        exact absurd (hnone key hkey) herror

end Writes

theorem backs (Serves : List Str → Prop) : interface.Backs Serves (Holds Serves) where
  reads {c m keys values} h hget hlength := by
    obtain ⟨hone, hkeys⟩ := getBatch_whole hget hlength
    obtain rfl : keys.map c.valueOf = values :=
      Except.ok.inj ((getBatch_of_oneShard hone hkeys).symm.trans hget)
    exact h.readAll hkeys
  writes {c c' m keys responses values} h hget hlength _ hput := by
    obtain ⟨hone, -⟩ := getBatch_whole hget hlength
    cases hout : (c.putBatch keys values).outcome with
    | error e =>
        simp only [interface, hout] at hput
        cases hput
    | ok u =>
        simp only [interface, hout] at hput
        obtain rfl : (c.putBatch keys values).storage = c' := Except.ok.inj hput
        have hwritable := (putBatch_returns hone values).mp hout
        rw [putBatch_storage]
        exact ⟨(h.serves keys).mp ⟨hone, hwritable⟩, h.putAll hwritable values⟩
  answers {c m keys values} h hserves hread := by
    have hone := ((h.serves keys).mpr hserves).oneShard
    have hkeys : ∀ key ∈ keys, ∃ value, c.get key = .ok value := by
      intro key hkey
      obtain ⟨value, hvalue⟩ := Server.mem_of_readAll hread key hkey
      exact ⟨value, (h.get key value).mpr hvalue⟩
    obtain rfl : keys.map c.valueOf = values :=
      Except.ok.inj ((h.readAll hkeys).symm.trans hread)
    exact getBatch_of_oneShard hone hkeys
  accepts {c m keys values} h hserves _ := by
    obtain ⟨hone, hwritable⟩ := (h.serves keys).mpr hserves
    refine ⟨(c.putBatch keys values).storage, ?_⟩
    simp only [interface, (putBatch_returns hone values).mpr hwritable]
    rfl

end Redis

/-- **Over `redis`** the proxy has the runs it has over the map the servers
hold together in which all labels of a call belong to one server that accepts
writes: no other call returns. -/
theorem redis_runs {st : Proxy} {c : Redis}
    (h : ∀ label, (c.client (c.shard label)).contents.lookup label
      = st.storage.contents.lookup label) (calls : List Call) :
    (∀ d', Run (Deployed.Executes Redis.interface) ⟨st, c⟩ calls d' →
      ∃ st', Run (Deployed.Served c.Accepts) st calls st' ∧
        Deployed.Represents (Redis.Holds c.Accepts) st' d') ∧
    (∀ st', Run (Deployed.Served c.Accepts) st calls st' →
      ∃ d', Run (Deployed.Executes Redis.interface) ⟨st, c⟩ calls d' ∧
        Deployed.Represents (Redis.Holds c.Accepts) st' d') := by
  have hrep : Deployed.Represents (Redis.Holds c.Accepts) st ⟨st, c⟩ :=
    ⟨rfl, h, fun _ => Iff.rfl⟩
  exact hrep.runs (Redis.backs c.Accepts) calls

/-- Two servers, the stored value of `oneReplica` on one of them. -/
def storedValue : Redis :=
  (Redis.twoServers.put ['0'] (Evp.padding.encrypt [] [] ['o'])).2

theorem redis_runs_getStored : ∃ st' d',
    Run (Deployed.Served storedValue.Accepts) Proxy.oneReplica [getStored] st' ∧
    Run (Deployed.Executes Redis.interface) ⟨Proxy.oneReplica, storedValue⟩ [getStored] d' ∧
    Deployed.Represents (Redis.Holds storedValue.Accepts) st' d' := by
  have hempty : Redis.twoServers.Holds Redis.twoServers.Accepts ∅ := by
    refine ⟨?_, fun _ => Iff.rfl⟩
    intro label
    rw [Redis.client]
    generalize Redis.twoServers.shard label = id
    rcases id with _ | _ | id <;> rfl
  have hwritable : ∀ key ∈ [['0']],
      (Redis.twoServers.client (Redis.twoServers.shard key)).writeError = none := by
    decide +kernel
  have hstored := hempty.putAll hwritable [Evp.padding.encrypt [] [] ['o']]
  have hholds : ∀ label, (storedValue.client (storedValue.shard label)).contents.lookup label
      = Proxy.oneReplica.storage.contents.lookup label := hstored.lookup
  have haccepts : storedValue.Accepts (Proxy.oneReplica.batchLabels (Proxy.getOnly ['k']) [0]) := by
    rw [oneReplica_batchLabels]
    refine ⟨?_, ?_⟩
    · intro label hlabel label' hlabel'
      rw [List.mem_singleton.mp hlabel, List.mem_singleton.mp hlabel']
    · intro label hlabel
      rw [List.mem_singleton.mp hlabel]
      decide +kernel
  obtain ⟨st', hx⟩ := oneReplica_executes
  have hrun : Run (Deployed.Served storedValue.Accepts) Proxy.oneReplica [getStored] st' :=
    .single ⟨hx, haccepts⟩
  obtain ⟨d', hrun', h⟩ := (redis_runs hholds [getStored]).2 st' hrun
  exact ⟨st', d', hrun, hrun', h⟩

end Pancake
