import Pancake.Basic

/-!
# Storage and encryption

The storage server is a map from labels to ciphertexts that also keeps the
requests it has served: what an observer of the server sees. The encryption
engine wraps OpenSSL's EVP calls, which are a parameter (`Evp`): the engine
has one key and one IV, both drawn when it is constructed, and uses them for
every call.
-/

namespace Pancake

/-! ## The encryption engine -/

/-- The EVP AES-256-CBC calls. Decryption fails on a bad ciphertext, and the
engine then aborts. -/
structure Evp where
  encrypt (key iv plainText : Str) : Str
  decrypt (key iv cipherText : Str) : Option Str

/-- PKCS#7 padding around the identity cipher: output lengths and inversion
are those of the real calls. -/
def Evp.padding : Evp where
  encrypt _ _ plainText :=
    let n := 16 - plainText.length % 16
    plainText ++ List.replicate n (Char.ofNat n)
  decrypt _ _ cipherText :=
    cipherText.getLast?.map fun c => cipherText.take (cipherText.length - c.toNat)

/-- `encryption_engine` -/
structure EncryptionEngine where
  evp : Evp
  encryptionString : Str
  ivString : Str

namespace EncryptionEngine

/-- The size of the buffers the engine hands to EVP. -/
def bufferSize : Nat := 4096

def encrypt (e : EncryptionEngine) (plainText : Str) : Except Fault Str :=
  let cipherText := e.evp.encrypt e.encryptionString e.ivString plainText
  if bufferSize < cipherText.length then .error .bufferOverflow
  else if cipherText.length = 0 then .error .assertionFailed
  else .ok cipherText

/-- The plaintext is cut at its first zero byte. -/
def decrypt (e : EncryptionEngine) (cipherText : Str) : Except Fault Str :=
  match e.evp.decrypt e.encryptionString e.ivString cipherText with
  | none => .error .cipherAborted
  | some text =>
      if bufferSize < text.length then .error .bufferOverflow
      else if text.length = 0 then .error .assertionFailed
      else .ok (text.takeWhile (· ≠ Char.ofNat 0))

/-- `decrypt(encrypt(x)) = x`, both calls returning. -/
def RoundTrips (e : EncryptionEngine) (x : Str) : Prop :=
  ∃ c, e.encrypt x = .ok c ∧ e.decrypt c = .ok x

theorem RoundTrips.encrypts {e : EncryptionEngine} {x : Str} (h : e.RoundTrips x) :
    ∃ c, e.encrypt x = .ok c := by
  obtain ⟨c, henc, -⟩ := h
  exact ⟨c, henc⟩

/-- Two plaintexts that round-trip have equal ciphertexts only if equal. -/
theorem encrypt_injective_of_roundTrips {e : EncryptionEngine} {x y c : Str}
    (hx : e.RoundTrips x) (hy : e.RoundTrips y) (hcx : e.encrypt x = .ok c)
    (hcy : e.encrypt y = .ok c) : x = y := by
  obtain ⟨c₁, h₁, d₁⟩ := hx
  obtain ⟨c₂, h₂, d₂⟩ := hy
  rw [hcx] at h₁
  rw [hcy] at h₂
  cases h₁
  cases h₂
  rw [d₁] at d₂
  exact Except.ok.inj d₂

end EncryptionEngine

/-! ## The storage server -/

/-- One request as the server sees it, with the ciphertexts it read or wrote. -/
inductive Request where
  | getBatch (labels ciphers : List Str)
  | putBatch (labels ciphers : List Str)
  deriving DecidableEq, Repr

namespace Request

def labels : Request → List Str
  | getBatch ls _ => ls
  | putBatch ls _ => ls

def ciphers : Request → List Str
  | getBatch _ cs => cs
  | putBatch _ cs => cs

end Request

/-- The server behind `storage_interface`: its contents and the requests it
has served, oldest first. -/
structure Server where
  contents : UnorderedMap Str := ∅
  requests : List Request := []

namespace Server

/-- Write pairs in order: a label that occurs twice keeps its last value. -/
def insertAll (m : UnorderedMap Str) : List Str → List Str → UnorderedMap Str
  | k :: ks, v :: vs => insertAll (m.insert k v) ks vs
  | _, _ => m

/-- Read every key, or fail on the first that is absent. -/
def readAll (m : UnorderedMap Str) : List Str → Except Fault (List Str)
  | [] => .ok []
  | k :: ks =>
      match m.lookup k with
      | none => .error .storageMiss
      | some v => do
          let vs ← readAll m ks
          .ok (v :: vs)

/-- `get_batch` -/
def getBatch (s : Server) (keys : List Str) : Except Fault (List Str × Server) := do
  let values ← readAll s.contents keys
  .ok (values, { s with requests := s.requests ++ [.getBatch keys values] })

/-- `put_batch` -/
def putBatch (s : Server) (keys values : List Str) : Server :=
  { contents := insertAll s.contents keys values
    requests := s.requests ++ [.putBatch keys values] }

/-- `get`, recorded as a batch of one. -/
def get (s : Server) (key : Str) : Except Fault (Str × Server) :=
  match s.contents.lookup key with
  | none => .error .storageMiss
  | some value =>
      .ok (value, { s with requests := s.requests ++ [.getBatch [key] [value]] })

/-- `put`, recorded as a batch of one. -/
def put (s : Server) (key value : Str) : Server := s.putBatch [key] [value]

@[simp] theorem putBatch_requests (s : Server) (keys values : List Str) :
    (s.putBatch keys values).requests = s.requests ++ [.putBatch keys values] := rfl

@[simp] theorem putBatch_contents (s : Server) (keys values : List Str) :
    (s.putBatch keys values).contents = insertAll s.contents keys values := rfl

theorem lookup_insertAll_of_notMem {m : UnorderedMap Str} {ks vs : List Str} {l : Str}
    (h : l ∉ ks) : (insertAll m ks vs).lookup l = m.lookup l := by
  induction ks generalizing m vs with
  | nil => rfl
  | cons k ks ih =>
      cases vs with
      | nil => rfl
      | cons v vs =>
          simp only [List.mem_cons, not_or] at h
          rw [insertAll, ih h.2, Finmap.lookup_insert_of_ne _ h.1]

/-- Every key is present: the read returns one value per key, in order. -/
theorem readAll_eq_ok {m : UnorderedMap Str} {ks : List Str}
    (h : ∀ k ∈ ks, ∃ v, m.lookup k = some v) :
    readAll m ks = .ok (ks.map (UnorderedMap.at_ m)) := by
  induction ks with
  | nil => rfl
  | cons k ks ih =>
      obtain ⟨v, hv⟩ := h k (by simp)
      rw [readAll, hv, ih fun k' hk' => h k' (by simp [hk'])]
      simp [UnorderedMap.at_, hv]

end Server

end Pancake
