import Ehdb.L0.Frame

/-! The inverted index of a part and of its granules. A filter keeps the scheme that its bits were
written with. -/

namespace Ehdb.L0

open List

inductive BloomScheme where
  | legacy
  | mixed
  deriving DecidableEq

/-- What the crate takes from outside: the `twox_hash` hash, the string functions of the
standard library, the two sizing formulas that are computed in `f64`, and the scheme
`EHDB_BLOOM_SCHEME` selects for new filters. -/
structure Platform where
  /-- `XxHash64::with_seed(seed)` over a byte string. -/
  xxHash64 : UInt64 → Bytes → UInt64
  utf8 : String → Bytes
  trim : String → String
  /-- `str::parse::<i64>` followed by `i64::to_le_bytes`. -/
  parseI64 : String → Option Bytes
  /-- `⌈-n ln 0.01 / (ln 2)²⌉ as u32`. -/
  optimalBits : Nat → Nat
  /-- `((m / n) ln 2).round() as u32`. -/
  optimalProbes : Nat → Nat → Nat
  bloomScheme : BloomScheme

def legacyMaxBits : Nat := 2 ^ 16

def distinctMaxBits : Nat := 2 ^ 18

/-- A filter over `mBits` bits packed into 64-bit words. The fields that are proofs are the
checks the crate makes when it reads a filter back. -/
structure Bloom where
  words : List UInt64
  mBits : Nat
  k : Nat
  scheme : BloomScheme
  mBits_pos : 0 < mBits
  k_pos : 0 < k
  mBits_le : mBits ≤ words.length * 64
  deriving DecidableEq

def clamp (n lo hi : Nat) : Nat := min (max n lo) hi

def divCeil (n d : Nat) : Nat := (n + d - 1) / d

namespace Bloom

def sizeBits (P : Platform) (expectedItems : Nat) (scheme : BloomScheme) : Nat :=
  match scheme with
  | .legacy => divCeil (clamp (P.optimalBits (max expectedItems 1)) 64 legacyMaxBits) 64 * 64
  | .mixed => divCeil (clamp (P.optimalBits (max expectedItems 1)) 64 distinctMaxBits) 64 * 64

theorem sizeBits_pos (P : Platform) (n : Nat) (scheme : BloomScheme) : 0 < sizeBits P n scheme := by
  cases scheme <;> simp only [sizeBits, divCeil, clamp, legacyMaxBits, distinctMaxBits] <;> omega

/-- An empty filter sized for `expectedItems` keys. -/
def forExpectedIn (P : Platform) (expectedItems : Nat) (scheme : BloomScheme) : Bloom where
  words := List.replicate (divCeil (sizeBits P expectedItems scheme) 64) 0
  mBits := sizeBits P expectedItems scheme
  k := clamp (P.optimalProbes (sizeBits P expectedItems scheme) (max expectedItems 1)) 1 12
  scheme := scheme
  mBits_pos := sizeBits_pos P expectedItems scheme
  k_pos := by simp only [clamp]; omega
  mBits_le := by simp only [length_replicate, divCeil]; omega

def splitmix64 (z : UInt64) : UInt64 :=
  let z := z + 0x9E3779B97F4A7C15
  let z := (z ^^^ (z >>> 30)) * 0xBF58476D1CE4E5B9
  let z := (z ^^^ (z >>> 27)) * 0x94D049BB133111EB
  z ^^^ (z >>> 31)

def rotateLeft32 (z : UInt64) : UInt64 := (z <<< 32) ||| (z >>> 32)

def baseHashes (P : Platform) (key : String) : UInt64 × UInt64 :=
  (P.xxHash64 0 (P.utf8 key), P.xxHash64 0x9E3779B97F4A7C15 (P.utf8 key))

/-- The probe of index `i`, before it is reduced to a bit of the filter. -/
def probe (P : Platform) (scheme : BloomScheme) (key : String) (i : Nat) : UInt64 :=
  let (h1, h2) := baseHashes P key
  match scheme with
  | .legacy => h1 + UInt64.ofNat i * h2
  | .mixed => splitmix64 (h1 ^^^ rotateLeft32 h2 ^^^ (UInt64.ofNat i * 0x9E3779B97F4A7C15))

def bitIndices (P : Platform) (b : Bloom) (key : String) : List Nat :=
  (List.range b.k).map fun i => (probe P b.scheme key i).toNat % b.mBits

def bitMask (bit : Nat) : UInt64 := 1 <<< UInt64.ofNat (bit % 64)

def setBit (words : List UInt64) (bit : Nat) : List UInt64 :=
  words.modify (bit / 64) (· ||| bitMask bit)

def testBit (words : List UInt64) (bit : Nat) : Bool :=
  (words.getD (bit / 64) 0) &&& bitMask bit != 0

theorem setBits_length (bits : List Nat) (words : List UInt64) :
    (bits.foldl setBit words).length = words.length := by
  induction bits generalizing words with
  | nil => rfl
  | cons bit rest ih => simp [ih, setBit]

def insert (P : Platform) (b : Bloom) (key : String) : Bloom :=
  { b with
    words := (b.bitIndices P key).foldl setBit b.words
    mBits_le := by rw [setBits_length]; exact b.mBits_le }

def maybeContains (P : Platform) (b : Bloom) (key : String) : Bool :=
  (b.bitIndices P key).all (testBit b.words)

variable {words : List UInt64} {bit : Nat}

theorem bitMask_ne_zero (bit : Nat) : bitMask bit ≠ 0 := by
  intro zero
  have below : bit % 64 < 64 := Nat.mod_lt _ (by decide)
  have here := congrArg (fun w : UInt64 => w.toBitVec.getLsbD (bit % 64)) zero
  simp [bitMask, below, Nat.mod_eq_of_lt] at here

theorem and_or_ne_zero {w m} (h : w &&& m ≠ 0) (more : UInt64) : (w ||| more) &&& m ≠ 0 := by
  intro zero
  have within : w &&& m = ((w ||| more) &&& m) &&& w := by
    apply UInt64.eq_of_toBitVec_eq
    ext i
    simp only [UInt64.toBitVec_and, UInt64.toBitVec_or, BitVec.getElem_and, BitVec.getElem_or]
    grind
  rw [zero] at within
  exact h (within.trans (by simp))

theorem getD_setBit (i : Nat) : (setBit words bit).getD i 0 =
    if bit / 64 = i ∧ i < words.length then words.getD i 0 ||| bitMask bit else words.getD i 0 := by
  unfold setBit
  by_cases inside : i < words.length
  · simp [inside, getElem_modify]
  · simp [inside]

theorem testBit_setBit_self (inside : bit / 64 < words.length) :
    testBit (setBit words bit) bit = true := by
  rw [testBit, getD_setBit, if_pos ⟨rfl, inside⟩, bne_iff_ne, UInt64.or_comm]
  exact and_or_ne_zero (by simpa using bitMask_ne_zero bit) _

theorem testBit_setBit {other} (h : testBit words other = true) :
    testBit (setBit words bit) other = true := by
  rw [testBit, bne_iff_ne] at h ⊢
  rw [getD_setBit]
  split
  · exact and_or_ne_zero h _
  · exact h

theorem testBit_setBits {other} (bits : List Nat) (h : testBit words other = true) :
    testBit (bits.foldl setBit words) other = true := by
  induction bits generalizing words with
  | nil => exact h
  | cons bit bits ih => exact ih (testBit_setBit h)

theorem testBit_of_set {bits : List Nat} (inside : ∀ bit ∈ bits, bit / 64 < words.length)
    (mem : bit ∈ bits) : testBit (bits.foldl setBit words) bit = true := by
  induction bits generalizing words with
  | nil => cases mem
  | cons first bits ih =>
    rcases mem_cons.1 mem with rfl | later
    · exact testBit_setBits bits (testBit_setBit_self (inside bit mem_cons_self))
    · refine ih (fun b mem => ?_) later
      simpa [setBit] using inside b (.tail _ mem)

variable {P : Platform} {b : Bloom} {key : String}

theorem bitIndices_inside (mem : bit ∈ b.bitIndices P key) : bit / 64 < b.words.length := by
  obtain ⟨i, -, rfl⟩ := mem_map.1 mem
  have below := Nat.mod_lt (probe P b.scheme key i).toNat b.mBits_pos
  have fits := b.mBits_le
  omega

theorem maybeContains_of_inserted {keys : List String} (mem : key ∈ keys) (b : Bloom) :
    (keys.foldl (insert P) b).maybeContains P key = true := by
  induction keys using reverseRecOn with
  | nil => cases mem
  | append_singleton keys last ih =>
    rw [foldl_append]
    rcases mem_append.1 mem with old | new
    · exact all_eq_true.2 fun bit mem => testBit_setBits _ (all_eq_true.1 (ih old) bit mem)
    · rw [mem_singleton.1 new]
      exact all_eq_true.2 fun _ mem => testBit_of_set (fun _ => bitIndices_inside) mem

end Bloom

/-! A legacy filter is written as its words, a mixed one as the base64 of their bytes. What is read
back is checked against the sizes it states, so that no probe can leave its words. -/

/-- `base64::engine::general_purpose::STANDARD`: all that is asked of it is that decoding undoes
encoding. -/
structure Base64 where
  encode : Bytes → String
  decode : String → Except String Bytes
  decode_encode : ∀ bytes, decode (encode bytes) = .ok bytes

/-- The shape a filter is serialized in. -/
structure BloomWire where
  words : List UInt64
  mBits : Nat
  k : Nat
  scheme : Nat
  b64 : Option String
  deriving DecidableEq

/-- The JSON object of a `BloomWire`. What `skip_serializing_if` leaves out is `none`. -/
structure BloomJson where
  words : Option (List UInt64)
  mBits : Nat
  k : Nat
  scheme : Option Nat
  b64 : Option String
  deriving DecidableEq

def BloomWire.toJson (w : BloomWire) : BloomJson where
  words := if w.words.isEmpty then none else some w.words
  mBits := w.mBits
  k := w.k
  scheme := if w.scheme = 0 then none else some w.scheme
  b64 := w.b64

def BloomWire.ofJson (j : BloomJson) : BloomWire where
  words := j.words.getD []
  mBits := j.mBits
  k := j.k
  scheme := j.scheme.getD 0
  b64 := j.b64

def wordBytes (w : UInt64) : Bytes := toLeBytes w.toNat ++ toLeBytes (w.toNat / 2 ^ 32)

/-- `chunks_exact(8)`, each through `u64::from_le_bytes`. -/
def wordsOf : Bytes → List UInt64
  | a :: b :: c :: d :: e :: f :: g :: h :: rest =>
    .ofNat (fromLeBytes [a, b, c, d, e, f, g, h]) :: wordsOf rest
  | _ => []

def BloomScheme.wire : BloomScheme → Nat
  | .legacy => 0
  | .mixed => 2

variable (B : Base64)

def Bloom.toWire (b : Bloom) : BloomWire :=
  match b.scheme with
  | .legacy => ⟨b.words, b.mBits, b.k, 0, none⟩
  | .mixed => ⟨[], b.mBits, b.k, b.scheme.wire, some (B.encode (b.words.flatMap wordBytes))⟩

/-- The scheme and the words of a wire value, before its sizes are looked at. -/
def BloomWire.bits (w : BloomWire) : Except String (BloomScheme × List UInt64) :=
  match w.scheme with
  | 0 => .ok (.legacy, w.words)
  | 2 =>
    match w.b64 with
    | none => .error "bloom scheme 2 without b64 bits"
    | some raw =>
      match B.decode raw with
      | .error e => .error s!"bloom b64: {e}"
      | .ok bytes =>
        if bytes.length % 8 ≠ 0 then
          .error s!"bloom b64 length {bytes.length} is not whole words"
        else .ok (.mixed, wordsOf bytes)
  | other => .error s!"unknown bloom scheme {other}"

def Bloom.tryFrom (w : BloomWire) : Except String Bloom :=
  match w.bits B with
  | .error e => .error e
  | .ok (scheme, words) =>
    if empty : w.mBits = 0 ∨ w.k = 0 then .error s!"bloom with m_bits={w.mBits} k={w.k}"
    else if short : words.length * 64 < w.mBits then
      .error s!"bloom m_bits={w.mBits} exceeds its {words.length} words"
    else
      .ok ⟨words, w.mBits, w.k, scheme, by omega, by omega, by omega⟩

def Bloom.serialize (b : Bloom) : BloomJson := (b.toWire B).toJson

def Bloom.deserialize (j : BloomJson) : Except String Bloom :=
  Bloom.tryFrom B (.ofJson j)

theorem BloomWire.ofJson_toJson (w : BloomWire) : BloomWire.ofJson w.toJson = w := by
  obtain ⟨words, mBits, k, scheme, b64⟩ := w
  simp only [ofJson, toJson, mk.injEq, and_true, true_and]
  constructor
  · split <;> simp_all
  · split <;> simp_all

theorem length_wordBytes (words : List UInt64) :
    (words.flatMap wordBytes).length = words.length * 8 := by
  induction words with
  | nil => rfl
  | cons w words ih =>
    rw [flatMap_cons, length_append, ih, length_cons]
    simp only [wordBytes, length_append, toLeBytes_length]
    omega

theorem wordsOf_wordBytes (words : List UInt64) : wordsOf (words.flatMap wordBytes) = words := by
  induction words with
  | nil => rfl
  | cons w words ih =>
    have value := w.toNat_lt
    rw [flatMap_cons]
    simp only [wordBytes, toLeBytes, cons_append, nil_append, wordsOf, ih, cons.injEq, and_true]
    have whole : ∀ bytes, fromLeBytes bytes = w.toNat → UInt64.ofNat (fromLeBytes bytes) = w :=
      fun _ eq => by rw [eq, UInt64.ofNat_toNat]
    apply whole
    simp only [fromLeBytes, UInt8.toNat_ofNat']
    omega

theorem Bloom.tryFrom_toWire (b : Bloom) : Bloom.tryFrom B (b.toWire B) = .ok b := by
  have bits : (b.toWire B).bits B = .ok (b.scheme, b.words) ∧ (b.toWire B).mBits = b.mBits ∧
      (b.toWire B).k = b.k := by
    unfold Bloom.toWire
    split
    · rename_i legacy
      rw [legacy]
      exact ⟨rfl, rfl, rfl⟩
    · rename_i mixed
      refine ⟨?_, rfl, rfl⟩
      simp only [BloomWire.bits, mixed, BloomScheme.wire, B.decode_encode, length_wordBytes,
        Nat.mul_mod_left, ne_eq, not_true, if_false, wordsOf_wordBytes]
  obtain ⟨bits, mBits, k⟩ := bits
  have m_pos := b.mBits_pos
  have k_pos := b.k_pos
  have fits := b.mBits_le
  unfold Bloom.tryFrom
  rw [bits]
  dsimp only
  rw [dif_neg (by omega), dif_neg (by omega)]
  obtain ⟨words, _, _, scheme, _, _, _⟩ := b
  simp [mBits, k]

theorem Bloom.deserialize_serialize (b : Bloom) : Bloom.deserialize B (b.serialize B) = .ok b := by
  rw [Bloom.deserialize, Bloom.serialize, BloomWire.ofJson_toJson, Bloom.tryFrom_toWire]

end Ehdb.L0
