import Mathlib.Data.List.TakeWhile
import Pancake.ReadYourWrites

/-!
# Values through storage

A value passes the encryption engine's fixed buffer, its assertion and its
cut at a zero byte, and the empty string that marks a get and a cache miss.
With the cipher correct, the values that come through are exactly the
`Storable` ones.
-/

namespace Pancake

open LazyReplicas

/-! ## The engine over a correct cipher -/

namespace Evp

/-- AES-256-CBC with PKCS#7 padding, under any key and IV: blocks of sixteen
bytes, the last one padded, and decryption inverts encryption. -/
structure Padded (evp : Evp) : Prop where
  length : ∀ key iv x, (evp.encrypt key iv x).length = 16 * (x.length / 16 + 1)
  inverts : ∀ key iv x, evp.decrypt key iv (evp.encrypt key iv x) = some x

theorem padded_padding : padding.Padded where
  length key iv x := by
    simp only [padding, List.length_append, List.length_replicate]
    omega
  inverts key iv x := by
    have hcode : ∀ n ≤ 16, (Char.ofNat n).toNat = n := by decide
    simp only [padding]
    rw [List.getLast?_append, List.getLast?_replicate, if_neg (by omega), Option.some_or,
      Option.map_some, hcode _ (by omega), List.length_append, List.length_replicate, Nat.add_sub_cancel,
      List.take_left]

end Evp

namespace EncryptionEngine

/-- Not empty, short enough for the padded text to fit in the buffer, and
without a zero byte. -/
def Storable (v : Str) : Prop := 0 < v.length ∧ v.length < bufferSize ∧ Char.ofNat 0 ∉ v

instance (v : Str) : Decidable (Storable v) :=
  inferInstanceAs (Decidable (_ ∧ _ ∧ _))

section Padded

variable {e : EncryptionEngine} (h : e.evp.Padded) {v : Str}
include h

/-- The padded text fits in the buffer exactly below its size. -/
theorem length_encrypt_le :
    (e.evp.encrypt e.encryptionString e.ivString v).length ≤ bufferSize ↔
      v.length < bufferSize := by
  rw [h.length]
  show 16 * (v.length / 16 + 1) ≤ 4096 ↔ v.length < 4096
  omega

theorem encrypt_of_lt (hv : v.length < bufferSize) :
    e.encrypt v = .ok (e.evp.encrypt e.encryptionString e.ivString v) := by
  have hfit := (length_encrypt_le h).mpr hv
  have hpos : (e.evp.encrypt e.encryptionString e.ivString v).length ≠ 0 := by
    rw [h.length]
    omega
  rw [encrypt, if_neg (by omega), if_neg hpos]

theorem encrypt_of_le (hv : bufferSize ≤ v.length) : e.encrypt v = .error .bufferOverflow := by
  have hlong : ¬ (e.evp.encrypt e.encryptionString e.ivString v).length ≤ bufferSize := by
    rw [length_encrypt_le h]
    omega
  rw [encrypt, if_pos (by omega)]

/-- What is read back of a value that could be written. -/
theorem decrypt_encrypt (hv : v.length < bufferSize) :
    e.decrypt (e.evp.encrypt e.encryptionString e.ivString v)
      = if v.length = 0 then .error .assertionFailed
        else .ok (v.takeWhile (· ≠ Char.ofNat 0)) := by
  rw [decrypt, h.inverts]
  dsimp only
  rw [if_neg (by omega)]

/-- **The engine's round trip.** -/
theorem roundTrips_iff : e.RoundTrips v ↔ Storable v := by
  constructor
  · intro hr
    obtain ⟨c, henc, hdec⟩ := hr
    have hlt : v.length < bufferSize := by
      by_contra hlong
      rw [encrypt_of_le h (by omega)] at henc
      cases henc
    rw [encrypt_of_lt h hlt, Except.ok.injEq] at henc
    rw [← henc, decrypt_encrypt h hlt] at hdec
    split at hdec
    · cases hdec
    · rename_i hpos
      rw [Except.ok.injEq, List.takeWhile_eq_self_iff] at hdec
      refine ⟨by omega, hlt, ?_⟩
      intro hzero
      simpa using hdec _ hzero
  · intro hs
    obtain ⟨hpos, hlt, hzero⟩ := hs
    refine ⟨_, encrypt_of_lt h hlt, ?_⟩
    rw [decrypt_encrypt h hlt, if_neg (by omega), List.takeWhile_eq_self_iff.mpr]
    intro c hc
    rw [decide_eq_true_iff]
    intro hc'
    exact hzero (hc' ▸ hc)

end Padded

end EncryptionEngine

open EncryptionEngine (Storable bufferSize)

/-! ## A put and then a get -/

/-- One operation of a client. -/
def Batch.one (key v : Str) : Batch :=
  { operations := [⟨key, v⟩], isTrues := [true], promises := [0] }

namespace Proxy

/-- Whatever replicas are drawn, a put and then a get return, and the get is
answered with the value put. -/
def PutThenGet (st : Proxy) (key v : Str) : Prop :=
  ∀ r, (st.executeBatch (.one key v)).Possible r → ∃ st₁ done, r = .ok (st₁, done) ∧
    ∀ r₁, (st₁.executeBatch (.one key [])).Possible r₁ → ∃ st₂, r₁ = .ok (st₂, [(0, v)])

/-- The value comes through storage unchanged. -/
structure Survives (st : Proxy) (key v : Str) : Prop where
  fits : (st.encryptionEngine.evp.encrypt st.encryptionEngine.encryptionString
    st.encryptionEngine.ivString v).length ≤ bufferSize
  roundTrips : st.encryptionEngine.RoundTrips v
  served : st.PutThenGet key v

/-- A call of any operations whose puts are storable. -/
structure StorableCall (st : Proxy) (c : Call) (st' : Proxy) : Prop extends
    st.Executes c st' where
  truesLength : c.batch.isTrues.length = c.batch.operations.length
  promisesLength : c.batch.isTrues.count true ≤ c.batch.promises.length
  puts : ∀ op ∈ c.batch.operations, op.value ≠ [] → Storable op.value

section Sound

variable {st st' : Proxy} {key v : Str} {id : Nat} {done : List (Promise × Str)}

/-- A sound state serves one operation, whatever replica is drawn. -/
theorem Sound.one (h : st.Sound) (hk : 0 < st.replicas key)
    (hv : v ≠ [] → st.encryptionEngine.RoundTrips v) {r : Except Fault (Proxy × _)}
    (hr : (st.executeBatch (.one key v)).Possible r) :
    ∃ id st' done, r = .ok (st', done) ∧ id < st.replicas key ∧
      Executed st (.one key v) [id] st' done ∧ st'.Sound := by
  rw [executeBatch, Sampler.possible_map] at hr
  obtain ⟨drawn, hdrawn, hr⟩ := hr
  obtain ⟨ids, rfl⟩ := chooseReplicas_ok h.noMissing rfl (by
    intro op hop
    obtain rfl := List.mem_singleton.mp hop
    exact hk) hdrawn
  have hids := (possible_chooseReplicas h.noMissing rfl).mp hdrawn
  obtain ⟨id, rfl⟩ : ∃ id, ids = [id] := List.length_eq_one_iff.mp hids.length_eq.symm
  have hwf : (Batch.one key v).WellFormed st.encryptionEngine := by
    refine ⟨rfl, by simp [Batch.one], ?_⟩
    intro op hop
    obtain rfl := List.mem_singleton.mp hop
    exact hv
  obtain ⟨st', done, hrun, hx, hsound⟩ := h.executeBatchWith hwf hids
  refine ⟨id, st', done, ?_, ?_, hx, hsound⟩
  · rw [← hr]
    exact hrun
  · exact (List.forall₂_cons.mp hids).1

/-- The put writes its value at the replica drawn, and leaves it waiting at
the others. -/
theorem Executed.put (h : Executed st (.one key v) [id] st' done) (hv : v ≠ [])
    (hid : id < st.replicas key) :
    st'.plain (st'.labelOf key id) = v ∧ ∀ i, i < st.replicas key → i ≠ id →
      st'.updateCache.waiting key i = some v := by
  have hwrite : (accessOf st.labelOf ⟨key, v⟩ true id).write = some v := if_neg hv
  constructor
  · rw [h.plain, h.frame.labelOf]
    have hvalue : st.batchValues (.one key v) [id] = [v] := by
      show [value st.replicas st.updateCache.waiting (accessOf st.labelOf ⟨key, v⟩ true id) _] = _
      rw [value, Waiting.delivered_of_write hwrite hid, Option.getD_some]
    rw [hvalue]
    exact Function.update_self _ _ _
  · intro i hi hne
    rw [h.waiting]
    show st.updateCache.waiting.after st.replicas (accessOf st.labelOf ⟨key, v⟩ true id) key i = _
    rw [Waiting.after_apply, if_neg (by rintro ⟨-, rfl⟩; exact hne rfl),
      Waiting.written_of_write hwrite, Waiting.put_apply]
    exact (if_pos rfl).trans (if_pos hi)

/-- The get is answered with what waits at its replica, or is stored there. -/
theorem Executed.get (h : Executed st (.one key []) [id] st' done) :
    done = [(0, (st.updateCache.waiting key id).getD (st.plain (st.labelOf key id)))] := by
  rw [h.fulfilled]
  show [(0, value st.replicas st.updateCache.waiting
    (accessOf st.labelOf ⟨key, []⟩ true id) _)] = _
  rw [value, Waiting.delivered_of_read rfl]
  rfl

/-- **A put and then a get**, from a sound state. -/
theorem Sound.putThenGet (h : st.Sound) (hk : 0 < st.replicas key) (hv : v ≠ [])
    (hr : st.encryptionEngine.RoundTrips v) : st.PutThenGet key v := by
  intro r hput
  obtain ⟨id, st₁, done, rfl, hid, hx, hsound⟩ := h.one hk (fun _ => hr) hput
  refine ⟨st₁, done, rfl, ?_⟩
  intro r₁ hget
  have hk₁ : 0 < st₁.replicas key := by
    rw [hx.frame.replicas]
    exact hk
  obtain ⟨id₁, st₂, done₁, rfl, hid₁, hx₁, -⟩ := hsound.one hk₁ (fun hc => absurd rfl hc) hget
  obtain ⟨hstored, hwaits⟩ := hx.put hv hid
  refine ⟨st₂, ?_⟩
  rw [hx₁.get]
  by_cases hsame : id₁ = id
  · -- the replica that the put wrote to: nothing waits there any more
    subst hsame
    have hnone : st₁.updateCache.waiting key id₁ = none := by
      rw [hx.waiting]
      exact (Waiting.after_apply _ _ _ _ _).trans (if_pos ⟨rfl, rfl⟩)
    rw [hnone, Option.getD_none, hstored]
  · rw [hx.frame.replicas] at hid₁
    rw [hwaits id₁ hid₁ hsame, Option.getD_some]

/-- **The step**: a call of storable puts returns in a sound state. -/
theorem Sound.storableCall {c : Call} (h : st.Sound) (hevp : st.encryptionEngine.evp.Padded)
    (hc : st.StorableCall c st') : st'.Sound ∧ st'.encryptionEngine = st.encryptionEngine := by
  have hwf : c.batch.WellFormed st.encryptionEngine := by
    refine ⟨hc.truesLength, hc.promisesLength, ?_⟩
    intro op hop hne
    exact (EncryptionEngine.roundTrips_iff hevp).mpr (hc.puts op hop hne)
  have hids := (possible_chooseReplicas h.noMissing hc.truesLength).mp hc.drawn
  obtain ⟨st₁, done, hrun, hx, hsound⟩ := h.executeBatchWith hwf hids
  rw [hc.returns] at hrun
  cases hrun
  exact ⟨hsound, hx.frame.engine⟩

/-- **The run.** -/
theorem Sound.storableRun {calls : List Call} (h : st.Sound)
    (hevp : st.encryptionEngine.evp.Padded) (hr : Run StorableCall st calls st') :
    st'.Sound ∧ st'.encryptionEngine = st.encryptionEngine := by
  refine hr.invariant (I := fun _ st' => st'.Sound ∧ st'.encryptionEngine = st.encryptionEngine)
    ⟨h, rfl⟩ ?_
  intro _ st₁ c st₂ _ hI hstep
  obtain ⟨hsound, hengine⟩ := hI
  obtain ⟨hsound', hengine'⟩ := hsound.storableCall (hengine ▸ hevp) hstep
  exact ⟨hsound', hengine'.trans hengine⟩

end Sound

/-- **Values survive storage** exactly when they are storable: in every state
reached from `init` by calls whose puts were storable, at every key that has
a replica. -/
theorem survives_iff {st₀ st st' : Proxy} {dist : Distribution} {alpha delta : ℚ}
    {values : Nat → Str} {calls : List Call} (hevp : st₀.encryptionEngine.evp.Padded)
    (hfresh : st₀.Fresh) (hvalues : ∀ i, Storable (values i))
    (hinit : st₀.init dist alpha delta values = .ok st) (hrun : Run StorableCall st calls st')
    {key : Str} (hk : 0 < st'.replicas key) (v : Str) : st'.Survives key v ↔ Storable v := by
  have hv : ∀ i, st₀.encryptionEngine.RoundTrips (values i) := by
    intro i
    exact (EncryptionEngine.roundTrips_iff hevp).mpr (hvalues i)
  have hc := created_of_init (fun i => (hv i).encrypts) hinit
  have hengine : st.encryptionEngine = st₀.encryptionEngine := hc.engine
  obtain ⟨hsound, hengine'⟩ :=
    (hc.sound (hfresh.takeArguments _ _ _) hv).storableRun (hengine ▸ hevp) hrun
  have hevp' : st'.encryptionEngine.evp.Padded := by
    rw [hengine', hengine]
    exact hevp
  constructor
  · intro h
    exact (EncryptionEngine.roundTrips_iff hevp').mp h.roundTrips
  · intro hs
    have hr := (EncryptionEngine.roundTrips_iff hevp').mpr hs
    refine ⟨(EncryptionEngine.length_encrypt_le hevp').mpr hs.2.1, hr, ?_⟩
    exact hsound.putThenGet hk (List.ne_nil_of_length_pos hs.1) hr

/-- A put of `v`, and then any storable value. -/
theorem survives_iff_word : ∃ st st' done, blank.init singleKey 1 (1 / 2) firstStrings = .ok st ∧
    Run StorableCall st [⟨.one ['k'] ['v'], [0], done⟩] st' ∧
    st'.Survives ['k'] ['w', 'o', 'r', 'd'] := by
  have hvalues : ∀ i, Storable (firstStrings i) := by
    intro i
    exact (EncryptionEngine.roundTrips_iff Evp.padded_padding).mp (firstStrings_roundTrips i)
  obtain ⟨st, hinit, hcreated⟩ := @init_created blank singleKey 1 (1 / 2) firstStrings
    fun i => (firstStrings_roundTrips i).encrypts
  have hfresh : blank.Fresh := ⟨rfl, rfl, rfl, rfl⟩
  obtain ⟨hcons, hengine, hk⟩ := blank_consistent hinit
  have hwf : (Batch.one ['k'] ['v']).WellFormed st.encryptionEngine := by
    refine ⟨rfl, by decide, ?_⟩
    intro op hop _
    obtain rfl := List.mem_singleton.mp hop
    rw [hengine]
    exact (EncryptionEngine.roundTrips_iff Evp.padded_padding).mpr (by decide)
  have hids : List.Forall₂ (fun (op : Operation) id => id < st.replicas op.key)
      (Batch.one ['k'] ['v']).operations [0] := by simp [Batch.one, hk]
  obtain ⟨st', done, hrun, hx, -⟩ := hcons.toSound.executeBatchWith hwf hids
  have hcall : st.StorableCall ⟨.one ['k'] ['v'], [0], done⟩ st' := by
    refine ⟨⟨(possible_chooseReplicas hcons.noMissing rfl).mpr hids, hrun⟩, rfl, le_rfl, ?_⟩
    intro op hop _
    obtain rfl := List.mem_singleton.mp hop
    decide
  have hk' : 0 < st'.replicas ['k'] := by
    rw [hx.frame.replicas, hk]
    exact one_pos
  refine ⟨st, st', done, hinit, .single hcall, ?_⟩
  exact (survives_iff Evp.padded_padding hfresh hvalues hinit (.single hcall) hk' _).mpr (by decide)

/-- A zero byte in the middle. -/
def zeroInside : Str := ['a', Char.ofNat 0, 'b']

/-- **The failing values**: a value of the buffer's size overflows it, the
empty one trips the assertion when it is read back, and one with a zero byte
is returned cut. -/
theorem values_lost :
    blank.encryptionEngine.encrypt (List.replicate 4096 'x') = .error .bufferOverflow ∧
    blank.encryptionEngine.encrypt [] >>= blank.encryptionEngine.decrypt
      = .error .assertionFailed ∧
    ∃ st, blank.init singleKey 1 (1 / 2) firstStrings = .ok st ∧ 0 < st.replicas ['k'] ∧
      (∃ r, st.executeBatchWith (.one ['k'] zeroInside) [0] = .ok r ∧
        (r.1.executeBatchWith (.one ['k'] []) [0]).map Prod.snd = .ok [(0, ['a'])]) ∧
      ¬ st.Survives ['k'] (List.replicate 4096 'x') ∧ ¬ st.Survives ['k'] [] ∧
      ¬ st.Survives ['k'] zeroInside := by
  have hlong : blank.encryptionEngine.encrypt (List.replicate 4096 'x')
      = .error .bufferOverflow := by
    apply EncryptionEngine.encrypt_of_le Evp.padded_padding
    rw [List.length_replicate]
    exact le_rfl
  obtain ⟨⟨st, r, r'⟩, hrun, hdone⟩ := exists_ok_of_decide (x := do
    let st ← blank.init singleKey 1 (1 / 2) firstStrings
    let r ← st.executeBatchWith (.one ['k'] zeroInside) [0]
    let r' ← r.1.executeBatchWith (.one ['k'] []) [0]
    .ok (st, r, r')) (P := fun r => r.2.2.2 = [(0, ['a'])]) (by decide +kernel)
  simp only [bind_eq_ok] at hrun
  obtain ⟨st, hinit, r, hput, r', hget, h⟩ := hrun
  cases h
  obtain ⟨-, hengine, hk⟩ := blank_consistent hinit
  have hlost : ∀ v, ¬ Storable v → ¬ st.Survives ['k'] v := by
    intro v hv h
    apply hv
    have hr := h.roundTrips
    rw [hengine] at hr
    exact (EncryptionEngine.roundTrips_iff Evp.padded_padding).mp hr
  refine ⟨hlong, by decide +kernel, st, hinit, by omega, ⟨r, hput, ?_⟩, ?_, ?_, ?_⟩
  · rw [hget]
    exact congrArg Except.ok hdone
  · apply hlost
    intro hs
    have hlt := hs.2.1
    rw [List.length_replicate] at hlt
    exact lt_irrefl _ hlt
  · apply hlost
    decide
  · apply hlost
    decide

end Proxy

end Pancake
