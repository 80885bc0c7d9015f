import Libparc.Algol.BufferCursor
import Libparc.Algol.HashCodeTableMap

/-! # parc_InMemoryVerifier

The verifier keeps copies of keys in a table by their key ids. VerifyDigest
checks the algorithms of the key, the suite and the signature, and then leaves
the rest to OpenSSL, which is given raw pointers and lengths. What OpenSSL makes
of the bytes is left open: its functions are parameters.

The pointers are the start of the array for the DER encoded key and the digest,
and the array's offset for the signature. None of them is where the bytes of the
buffer start that remain, unless the buffer begins at the start of its array. -/
namespace Libparc.InMemoryVerifier
open Buffer HashCode HashCodeTable LinearAddressingHashTable Exec Option

/-! ## Algorithms -/

inductive PARCSigningAlgorithm where
  | unknown
  | rsa
  | dsa
  | hmac
  | null
  deriving DecidableEq, Repr

def PARCSigningAlgorithm.toInt : PARCSigningAlgorithm → Int
  | .unknown => -1
  | .rsa => 1
  | .dsa => 2
  | .hmac => 3
  | .null => 4

/-- The unknown algorithm has no name; the C library prints NULL like this. -/
def parcSigningAlgorithmToString : PARCSigningAlgorithm → String
  | .null => "PARCSigningAlgortihm_NULL"
  | .rsa => "PARCSigningAlgorithm_RSA"
  | .dsa => "PARCSigningAlgorithm_DSA"
  | .hmac => "PARCSigningAlgorithm_HMAC"
  | .unknown => "(null)"

inductive PARCCryptoHashType where
  | sha256
  | sha512
  | crc32c
  | null
  deriving DecidableEq, Repr

def parcCryptoHashTypeToString : PARCCryptoHashType → String
  | .sha256 => "PARCCryptoHashType_SHA256"
  | .sha512 => "PARCCryptoHashType_SHA512"
  | .crc32c => "PARCCryptoHashType_CRC32C"
  | .null => "(null)"

inductive PARCCryptoSuite where
  | rsaSha256
  | dsaSha256
  | rsaSha512
  | hmacSha256
  | hmacSha512
  | nullCrc32c
  | ecSecp256k1
  | unknown
  deriving DecidableEq, Repr

def parcCryptoSuiteGetCryptoHash : PARCCryptoSuite → Prog PARCCryptoHashType
  | .dsaSha256 | .hmacSha256 | .rsaSha256 | .ecSecp256k1 => pure .sha256
  | .hmacSha512 | .rsaSha512 => pure .sha512
  | .nullCrc32c => pure .crc32c
  | .unknown => throw (.illegalValue "Unknown crypto suite: 7")

/-! ## Key ids, keys, digests and signatures -/

/-- `parcBuffer_Copy` copies the whole array, and drops the mark. -/
def parcBufferCopy (original : PARCBuffer) : PARCBuffer := { original with mark := none }

/-- `struct parc_keyid`; the hash code is the one the buffer had at first. -/
structure PARCKeyId where
  keyid : PARCBuffer
  hashcode : PARCHashCode
  valid : keyid.Valid

def parcKeyIdCreate (preComputedKeyId : PARCBuffer) (valid : preComputedKeyId.Valid) :
    Prog PARCKeyId := do
  let hashcode ← parcBufferHashCode preComputedKeyId
  pure ⟨preComputedKeyId, hashcode, valid⟩

theorem valid_copy {b} (h : b.Valid) : (parcBufferCopy b).Valid :=
  ⟨nofun, h.position_le, h.limit_le, h.capacity_le⟩

def parcKeyIdCopy (original : PARCKeyId) : Prog PARCKeyId :=
  parcKeyIdCreate (parcBufferCopy original.keyid) (valid_copy original.valid)

def parcKeyIdEquals (keyidA keyidB : PARCKeyId) : Prog Bool :=
  parcBufferEquals keyidA.keyid keyidB.keyid

/-- What the table of keys is created with. -/
def keyIds : KeyFunctions PARCKeyId where
  keyEqualsFunc a b := decide (a.keyid.remainingBytes = b.keyid.remainingBytes)
  keyHashCodeFunc a := a.hashcode.toNat

/-- `struct parc_key`. -/
structure PARCKey where
  keyid : PARCKeyId
  signingAlg : PARCSigningAlgorithm
  key : PARCBuffer

def parcKeyCopy (original : PARCKey) : Prog PARCKey := do
  let keyid ← parcKeyIdCopy original.keyid
  pure ⟨keyid, original.signingAlg, parcBufferCopy original.key⟩

structure PARCCryptoHash where
  type : PARCCryptoHashType
  digestBuffer : PARCBuffer

structure PARCSignature where
  signingAlgorithm : PARCSigningAlgorithm
  signatureBits : PARCBuffer

/-! ## The verifier -/

/-- `struct parc_inmemory_verifier`, without its hashers. -/
structure PARCInMemoryVerifier where
  keyCache : PARCHashCodeTable PARCKeyId PARCKey

def parcCryptoCacheGetKey (cache : PARCHashCodeTable PARCKeyId PARCKey) (keyid : PARCKeyId) :
    Prog (Option PARCKey) :=
  parcHashCodeTableGet keyIds cache (some keyid)

def parcCryptoCacheAddKey (cache : PARCHashCodeTable PARCKeyId PARCKey) (originalKey : PARCKey) :
    Prog (PARCHashCodeTable PARCKeyId PARCKey × Bool) := do
  let key ← parcKeyCopy originalKey
  parcHashCodeTableAdd keyIds cache (some key.keyid) (some key)

def parcInMemoryVerifierCreate : Prog PARCInMemoryVerifier := do
  let keyCache ← parcHashCodeTableCreate
  pure ⟨keyCache⟩

def addKey (verifier : PARCInMemoryVerifier) (key : PARCKey) : Prog PARCInMemoryVerifier := do
  let (keyCache, success) ← parcCryptoCacheAddKey verifier.keyCache key
  assertTrue success "could not add key, it must be a duplicate"
  pure ⟨keyCache⟩

def allowedCryptoSuite (verifier : PARCInMemoryVerifier) (keyid : PARCKeyId)
    (suite : PARCCryptoSuite) : Prog Bool := do
  match ← parcCryptoCacheGetKey verifier.keyCache keyid with
  | none => pure false
  | some key =>
    match key.signingAlg with
    | .rsa => pure (suite == .rsaSha256 || suite == .rsaSha512)
    | .dsa => pure false
    | .hmac => pure (suite == .hmacSha256)
    | alg =>
      let name := parcSigningAlgorithmToString alg
      throw (.unexpectedState s!"Unknown signing algorithm: {name}")

/-- OpenSSL's functions, of the bytes and lengths they are given. -/
structure OpenSSL where
  EVPPKEY : Type
  RSA : Type
  d2iPUBKEY : List UInt8 → Int → Option EVPPKEY
  get1RSA : EVPPKEY → Option RSA
  rsaVerify : Int → List UInt8 → List UInt8 → RSA → Bool

/-- The length of a digest or a signature is an `unsigned`. -/
def unsignedRemaining (buffer : PARCBuffer) : Nat := parcBufferRemaining buffer % 2 ^ 32

/-- From the start of the array; the length is a `long`. -/
def derBytes (derEncodedKey : PARCBuffer) : List UInt8 × Int :=
  (derEncodedKey.array.take (parcBufferRemaining derEncodedKey),
    (parcBufferRemaining derEncodedKey : Int).bmod (2 ^ 64))

/-- From the start of the array. -/
def digestBytes (digest : PARCBuffer) : List UInt8 := digest.array.take (unsignedRemaining digest)

/-- From the array offset on. -/
def signatureBytes (sigbits : PARCBuffer) : List UInt8 :=
  (sigbits.array.drop sigbits.arrayOffset).take (unsignedRemaining sigbits)

/-- `NID_sha256` and `NID_sha512`. -/
def opensslDigestType : PARCCryptoHashType → Prog Int
  | .sha256 => pure 672
  | .sha512 => pure 674
  | type =>
    let name := parcCryptoHashTypeToString type
    throw (.unexpectedState s!"Unknown digest type: {name}")

def rsaKeyVerify (ssl : OpenSSL) (localHash : PARCCryptoHash) (signatureToVerify : PARCSignature)
    (derEncodedKey : PARCBuffer) : Prog Bool :=
  match ssl.d2iPUBKEY (derBytes derEncodedKey).1 (derBytes derEncodedKey).2 with
  | none => pure false
  | some unwrappedKey =>
    match ssl.get1RSA unwrappedKey with
    | none => pure false
    | some rsa => do
      let digestType ← opensslDigestType localHash.type
      pure (ssl.rsaVerify digestType (digestBytes localHash.digestBuffer)
        (signatureBytes signatureToVerify.signatureBits) rsa)

/-- The arguments of a call of VerifyDigest. -/
structure Request where
  verifier : PARCInMemoryVerifier
  keyid : PARCKeyId
  locallyComputedHash : PARCCryptoHash
  suite : PARCCryptoSuite
  objectSignature : PARCSignature

/-- The part of VerifyDigest after its assertion. -/
def verifyWithKey (rsaVerify : PARCBuffer → Prog Bool) (r : Request) (key : PARCKey) :
    Prog Bool :=
  if key.signingAlg ≠ r.objectSignature.signingAlgorithm then pure false
  else do
    let suiteHash ← parcCryptoSuiteGetCryptoHash r.suite
    if r.locallyComputedHash.type ≠ suiteHash then pure false
    else
      match r.objectSignature.signingAlgorithm with
      | .rsa => rsaVerify key.key
      | .dsa => throw (.notImplemented "DSA not supported")
      | .hmac => throw (.notImplemented "HMAC not supported")
      | alg =>
        let number := alg.toInt
        throw (.unexpectedState s!"Unknown signing algorithm: {number}")

/-- `_parcInMemoryVerifier_VerifyDigest`, with what it does with an RSA key. -/
def verifyDigestWith (rsaVerify : PARCBuffer → Prog Bool) (r : Request) : Prog Bool := do
  match ← parcCryptoCacheGetKey r.verifier.keyCache r.keyid with
  | none => pure false
  | some key => do
    assertTrue (← allowedCryptoSuite r.verifier r.keyid r.suite) "Invalid crypto suite for keyid"
    verifyWithKey rsaVerify r key

def verifyDigest (ssl : OpenSSL) (r : Request) : Prog Bool :=
  verifyDigestWith (rsaKeyVerify ssl r.locallyComputedHash r.objectSignature) r

/-! ## What a verdict depends on -/

/-- The key that is found. -/
def foundKey (r : Request) : Option PARCKey :=
  lookup keyIds r.verifier.keyCache.hashtable r.keyid

/-- The request finds an RSA key, and has an RSA signature and a digest of the suite's type. -/
structure Rsa (r : Request) (key : PARCKey) : Prop where
  found : foundKey r = some key
  key : key.signingAlg = .rsa
  signature : r.objectSignature.signingAlgorithm = .rsa
  suite : (r.suite = .rsaSha256 ∧ r.locallyComputedHash.type = .sha256) ∨
    (r.suite = .rsaSha512 ∧ r.locallyComputedHash.type = .sha512)

/-- Two arrays have the same `count` bytes, from an offset of each on. -/
def SameFrom (array1 array2 : List UInt8) (offset1 offset2 count : Nat) : Prop :=
  ∀ i < count, array1[offset1 + i]? = array2[offset2 + i]?

/-- The arrays are the same for as many bytes as remain: those of the keys and of the digests
from their start on, those of the signatures from the array offset on. -/
structure SameArrays (r1 r2 : Request) (key1 key2 : PARCBuffer) : Prop where
  key : SameFrom key1.array key2.array 0 0 (parcBufferRemaining key1)
  digest : SameFrom r1.locallyComputedHash.digestBuffer.array
    r2.locallyComputedHash.digestBuffer.array 0 0
    (parcBufferRemaining r1.locallyComputedHash.digestBuffer % 2 ^ 32)
  signature : SameFrom r1.objectSignature.signatureBits.array
    r2.objectSignature.signatureBits.array r1.objectSignature.signatureBits.arrayOffset
    r2.objectSignature.signatureBits.arrayOffset
    (parcBufferRemaining r1.objectSignature.signatureBits % 2 ^ 32)

theorem getKey_eq (r : Request) :
    parcCryptoCacheGetKey r.verifier.keyCache r.keyid = pure (foundKey r) :=
  parcHashCodeTableGet_eq r.keyid

theorem allowed_eq {r key} (hk : foundKey r = some key) :
    allowedCryptoSuite r.verifier r.keyid r.suite =
      match key.signingAlg with
      | .rsa => pure (r.suite == .rsaSha256 || r.suite == .rsaSha512)
      | .dsa => pure false
      | .hmac => pure (r.suite == .hmacSha256)
      | alg => throw (.unexpectedState
          s!"Unknown signing algorithm: {parcSigningAlgorithmToString alg}") := by
  simp only [allowedCryptoSuite, getKey_eq, pure_bind, hk]

theorem Rsa.verify {r key} (h : Rsa r key) (rsaVerify : PARCBuffer → Prog Bool) :
    verifyDigestWith rsaVerify r = rsaVerify key.key := by
  simp only [verifyDigestWith, getKey_eq, pure_bind, h.found, allowed_eq h.found, verifyWithKey,
    h.key, h.signature]
  rcases h.suite with ⟨hs, ht⟩ | ⟨hs, ht⟩
  all_goals
    rw [hs, ht]
    rfl

/-- OpenSSL is not called for any other request. -/
theorem verify_of_not_rsa {r} (h : ∀ key, ¬ Rsa r key) (f g : PARCBuffer → Prog Bool) :
    verifyDigestWith f r = verifyDigestWith g r := by
  simp only [verifyDigestWith, getKey_eq, pure_bind]
  cases hk : foundKey r with
  | none => rfl
  | some key =>
    simp only [verifyWithKey]
    cases hs : r.objectSignature.signingAlgorithm with
    | rsa =>
      by_cases ha : key.signingAlg = .rsa
      · simp only [allowed_eq hk, ha]
        cases hsu : r.suite with
        | rsaSha256 =>
          have ht : r.locallyComputedHash.type ≠ .sha256 := fun ht =>
            h key ⟨hk, ha, hs, .inl ⟨hsu, ht⟩⟩
          simp only [parcCryptoSuiteGetCryptoHash, pure_bind, if_pos ht]
        | rsaSha512 =>
          have ht : r.locallyComputedHash.type ≠ .sha512 := fun ht =>
            h key ⟨hk, ha, hs, .inr ⟨hsu, ht⟩⟩
          simp only [parcCryptoSuiteGetCryptoHash, pure_bind, if_pos ht]
        | _ => rfl
      · simp only [if_pos ha]
    | _ => rfl

/-- The requests agree, as far as `parcBuffer_Equals` can tell. -/
structure Agree (r1 r2 : Request) : Prop where
  keyid : parcKeyIdEquals r1.keyid r2.keyid = pure true
  suite : r1.suite = r2.suite
  digestType : r1.locallyComputedHash.type = r2.locallyComputedHash.type
  key : (foundKey r1 = none ∧ foundKey r2 = none) ∨ ∃ key1 key2, foundKey r1 = some key1 ∧
    foundKey r2 = some key2 ∧ parcBufferEquals key1.key key2.key = pure true
  digest : parcBufferEquals r1.locallyComputedHash.digestBuffer
    r2.locallyComputedHash.digestBuffer = pure true
  signature : parcBufferEquals r1.objectSignature.signatureBits
    r2.objectSignature.signatureBits = pure true

/-- An OpenSSL that accepts what a test says. -/
def accepting (test : List UInt8 × Int → List UInt8 → List UInt8 → Bool) : OpenSSL where
  EVPPKEY := List UInt8 × Int
  RSA := List UInt8 × Int
  d2iPUBKEY bytes length := some (bytes, length)
  get1RSA := some
  rsaVerify _ digest signature rsa := test rsa digest signature

theorem rsaKeyVerify_accepting (test : List UInt8 × Int → List UInt8 → List UInt8 → Bool)
    {hash digestType} (ht : opensslDigestType hash.type = pure digestType)
    (signature : PARCSignature) (key : PARCBuffer) :
    rsaKeyVerify (accepting test) hash signature key =
      pure (test (derBytes key) (digestBytes hash.digestBuffer)
        (signatureBytes signature.signatureBits)) := by
  simp only [rsaKeyVerify, accepting, ht, pure_bind]

theorem remaining_eq_of_equals {x y} (h : parcBufferEquals x y = pure true) :
    parcBufferRemaining x = parcBufferRemaining y := by
  obtain ⟨c, hc, hb⟩ := bind_eq_pure.mp h
  obtain ⟨m, -, hm⟩ := bind_eq_pure.mp hc
  rw [pure_inj, beq_iff_eq] at hb
  rw [pure_inj, hb] at hm
  split at hm
  · split at hm
    · cases hm
    · split at hm
      · cases hm
      · omega
  · exact absurd hm ‹_›

theorem sameFrom_iff {a1 a2 o1 o2 count} :
    SameFrom a1 a2 o1 o2 count ↔ (a1.drop o1).take count = (a2.drop o2).take count := by
  constructor
  · intro h
    refine List.ext_getElem? fun i => ?_
    rw [List.getElem?_take, List.getElem?_take]
    split
    · rw [List.getElem?_drop, List.getElem?_drop]
      exact h i ‹_›
    · rfl
  · intro h i hi
    have hg := congrArg (·[i]?) h
    simpa only [List.getElem?_take, if_pos hi, List.getElem?_drop] using hg

theorem Rsa.digestType {r key} (h : Rsa r key) :
    opensslDigestType r.locallyComputedHash.type =
      pure (if r.locallyComputedHash.type = .sha256 then 672 else 674) := by
  rcases h.suite with ⟨-, ht⟩ | ⟨-, ht⟩
  all_goals
    rw [ht]
    rfl

/-- What OpenSSL is given. -/
def handedOver (r : Request) (key : PARCBuffer) :
    (List UInt8 × Int) × List UInt8 × List UInt8 :=
  (derBytes key, digestBytes r.locallyComputedHash.digestBuffer,
    signatureBytes r.objectSignature.signatureBits)

theorem Agree.handedOver_iff {r1 r2} (h : Agree r1 r2) {key1 key2}
    (hk : parcBufferEquals key1 key2 = pure true) :
    handedOver r1 key1 = handedOver r2 key2 ↔ SameArrays r1 r2 key1 key2 := by
  have hr := remaining_eq_of_equals hk
  have hd := remaining_eq_of_equals h.digest
  have hs := remaining_eq_of_equals h.signature
  simp only [handedOver, derBytes, digestBytes, signatureBytes, unsignedRemaining, ← hr, ← hd,
    ← hs, Prod.mk.injEq, and_true]
  constructor
  · exact fun ⟨hk, hd, hs⟩ => ⟨sameFrom_iff.mpr hk, sameFrom_iff.mpr hd, sameFrom_iff.mpr hs⟩
  · exact fun h => ⟨sameFrom_iff.mp h.key, sameFrom_iff.mp h.digest, sameFrom_iff.mp h.signature⟩

/-- The signing algorithms of the keys and of the signatures are the same. -/
structure SameAlgorithms (r1 r2 : Request) : Prop where
  key : (foundKey r1).map (·.signingAlg) = (foundKey r2).map (·.signingAlg)
  signature : r1.objectSignature.signingAlgorithm = r2.objectSignature.signingAlgorithm

theorem exists_rsa_iff {r} : (∃ key, Rsa r key) ↔ (foundKey r).map (·.signingAlg) = some .rsa ∧
    r.objectSignature.signingAlgorithm = .rsa ∧
    ((r.suite = .rsaSha256 ∧ r.locallyComputedHash.type = .sha256) ∨
      (r.suite = .rsaSha512 ∧ r.locallyComputedHash.type = .sha512)) := by
  rw [map_eq_some_iff]
  constructor
  · rintro ⟨key, h⟩
    exact ⟨⟨key, h.found, h.key⟩, h.signature, h.suite⟩
  · rintro ⟨⟨key, hf, hk⟩, hs, hsu⟩
    exact ⟨key, hf, hk, hs, hsu⟩

section
variable {r1 r2 : Request} (h : Agree r1 r2) (ha : SameAlgorithms r1 r2)
include h ha

theorem Agree.verify_const (verdict : Prog Bool) :
    verifyDigestWith (fun _ => verdict) r1 = verifyDigestWith (fun _ => verdict) r2 := by
  simp only [verifyDigestWith, getKey_eq, pure_bind]
  rcases h.key with ⟨hk1, hk2⟩ | ⟨key1, key2, hk1, hk2, -⟩
  · rw [hk1, hk2]
  · have hk := ha.key
    rw [hk1, hk2, map_some, map_some, some.injEq] at hk
    simp only [hk1, hk2, allowed_eq hk1, allowed_eq hk2]
    simp only [verifyWithKey, hk, ha.signature, h.suite, h.digestType]

theorem Agree.exists_rsa : (∃ key, Rsa r1 key) ↔ ∃ key, Rsa r2 key := by
  rw [exists_rsa_iff, exists_rsa_iff, ha.key, ha.signature, h.suite, h.digestType]

end

theorem Agree.key_equals {r1 r2 key1 key2} (h : Agree r1 r2) (hr1 : Rsa r1 key1)
    (hr2 : Rsa r2 key2) : parcBufferEquals key1.key key2.key = pure true := by
  have hk := h.key
  simp only [hr1.found, hr2.found, reduceCtorEq, false_and, some.injEq, false_or] at hk
  obtain ⟨_, _, rfl, rfl, he⟩ := hk
  exact he

/-- The key that the table holds. -/
def copied (key : PARCKey) : PARCKey :=
  ⟨⟨parcBufferCopy key.keyid.keyid, hashOfBytes key.keyid.keyid.remainingBytes,
    valid_copy key.keyid.valid⟩, key.signingAlg, parcBufferCopy key.key⟩

theorem keyCopy_eq (key : PARCKey) : parcKeyCopy key = pure (copied key) := by
  simp only [parcKeyCopy, parcKeyIdCopy, parcKeyIdCreate,
    hashCode_spec (valid_copy key.keyid.valid), pure_bind]
  rfl

/-- The table of a new verifier. -/
def newCache : PARCHashCodeTable PARCKeyId PARCKey := ⟨cleared minSize, 0⟩

/-- The table with one key. -/
def oneKey (key : PARCKey) : PARCHashCodeTable PARCKeyId PARCKey :=
  ⟨newCache.hashtable.store (key.keyid.hashcode.toNat % minSize)
    ⟨key.keyid, key, key.keyid.hashcode.toNat⟩, 0⟩

theorem add_newCache (key : PARCKey) :
    parcHashCodeTableAdd keyIds newCache (some key.keyid) (some key) = pure (oneKey key, true) := by
  have hs : newCache.hashtable.tableSize < newCache.hashtable.expandThreshold :=
    show 0 < 192 by omega
  refine parcHashCodeTableAdd_direct hs ?_
  simp [innerTableAdd, innerTableAddFrom, maxProbeLength, newCache, entry_cleared, keyIds]

theorem lookup_oneKey {keyid key} (hc : keyid.hashcode = key.keyid.hashcode)
    (hb : keyid.keyid.remainingBytes = key.keyid.keyid.remainingBytes) :
    lookup keyIds (oneKey key).hashtable keyid = some key := by
  have hh : key.keyid.hashcode.toNat % minSize < newCache.hashtable.tableLimit := by
    rw [newCache, tableLimit_cleared]
    exact Nat.mod_lt _ (show 0 < 256 by omega)
  have hl : (oneKey key).hashtable.tableLimit = minSize := by
    simp [oneKey, newCache, store, tableLimit, cleared]
  have he := (entry_store (e := ⟨key.keyid, key, key.keyid.hashcode.toNat⟩) hh).trans (if_pos rfl)
  have hf : (oneKey key).hashtable.findIndex keyIds keyid =
      some (key.keyid.hashcode.toNat % minSize) := by
    simp only [findIndex, keyIds, hc, hl]
    exact if_pos (by simp [oneKey, holds, he, hb])
  rw [lookup, hf, bind_some, oneKey, he, map_some]

theorem addKey_new (key : PARCKey)
    (hh : key.keyid.hashcode = hashOfBytes key.keyid.keyid.remainingBytes) :
    ∃ v, (parcInMemoryVerifierCreate >>= fun v => addKey v key) = pure v ∧
      lookup keyIds v.keyCache.hashtable key.keyid = some (copied key) := by
  have hc : parcHashCodeTableCreate = pure newCache := rfl
  refine ⟨⟨oneKey (copied key)⟩, ?_, lookup_oneKey hh rfl⟩
  simp only [parcInMemoryVerifierCreate, addKey, parcCryptoCacheAddKey, keyCopy_eq, hc,
    add_newCache, pure_bind, assertTrue_true]

/-- One byte that remains, in an array of its own and in a slice of a larger one. -/
def wholeKey : PARCBuffer := ⟨[48], 1, 0, 0, 1, none⟩

def slicedKey : PARCBuffer := parcBufferSlice ⟨[0, 48], 2, 0, 1, 2, none⟩

theorem valid_wholeKey : wholeKey.Valid := ⟨nofun, Nat.zero_le _, Nat.le_refl _, Nat.le_refl _⟩

/-- An RSA key, and a request for it. -/
def rsaKey (der : PARCBuffer) : PARCKey :=
  ⟨⟨wholeKey, hashOfBytes wholeKey.remainingBytes, valid_wholeKey⟩, .rsa, der⟩

def rsaRequest (verifier : PARCInMemoryVerifier) : Request :=
  ⟨verifier, (rsaKey wholeKey).keyid, ⟨.sha256, wholeKey⟩, .rsaSha256, ⟨.rsa, wholeKey⟩⟩

theorem equals_self (b : PARCBuffer) (h : b.Valid) : parcBufferEquals b b = pure true := by
  rw [equals_spec h h, decide_eq_true rfl]

theorem agree_keys {v1 v2 der1 der2} (h1 : foundKey (rsaRequest v1) = some (copied (rsaKey der1)))
    (h2 : foundKey (rsaRequest v2) = some (copied (rsaKey der2)))
    (hd : parcBufferEquals (parcBufferCopy der1) (parcBufferCopy der2) = pure true) :
    Agree (rsaRequest v1) (rsaRequest v2) where
  keyid := equals_self _ valid_wholeKey
  suite := rfl
  digestType := rfl
  key := .inr ⟨_, _, h1, h2, hd⟩
  digest := equals_self _ valid_wholeKey
  signature := equals_self _ valid_wholeKey

theorem verdict_rsaRequest {v der} (h : foundKey (rsaRequest v) = some (copied (rsaKey der)))
    (rsaVerify : PARCBuffer → Prog Bool) :
    verifyDigestWith rsaVerify (rsaRequest v) = rsaVerify (parcBufferCopy der) := by
  simp only [verifyDigestWith, getKey_eq, pure_bind, h, allowed_eq h]
  rfl

/-- The same byte, with another one behind the limit. -/
def longerKey : PARCBuffer := ⟨[48, 0], 2, 0, 0, 1, none⟩

end Libparc.InMemoryVerifier
