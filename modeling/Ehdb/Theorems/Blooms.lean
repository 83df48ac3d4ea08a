import Ehdb.L0.Run

/-! Blooms through persistence. -/

namespace Ehdb.Theorems

open L0 List

/-- A filter that keys were inserted into is read back as it was written and denies none of them;
no probe of a filter that was read back leaves its words, also after inserts. -/
theorem blooms_survive_persistence (P : Platform) (B : Base64) :
    (∀ scheme expectedItems (keys : List String),
      let b := keys.foldl (Bloom.insert P) (Bloom.forExpectedIn P expectedItems scheme)
      Bloom.deserialize B (b.serialize B) = .ok b ∧ ∀ key ∈ keys, b.maybeContains P key = true) ∧
    ∀ w b, Bloom.tryFrom B w = .ok b → ∀ (keys : List String) key,
      let b' := keys.foldl (Bloom.insert P) b
      ∀ bit ∈ b'.bitIndices P key, bit / 64 < b'.words.length := by
  refine ⟨fun scheme expectedItems keys => ⟨Bloom.deserialize_serialize B _, ?_⟩, ?_⟩
  · exact fun key mem => Bloom.maybeContains_of_inserted mem _
  · exact fun _ _ _ keys key bit mem => Bloom.bitIndices_inside mem

/-- The bytes as the characters with their codes. -/
def charBase64 : Base64 where
  encode bytes := .ofList (bytes.map fun b => .ofNat b.toNat)
  decode s := .ok (s.toList.map fun c => .ofNat c.toNat)
  decode_encode bytes := by
    have code (b : UInt8) : UInt8.ofNat (Char.ofNat b.toNat).toNat = b := by
      have valid : b.toNat.isValidChar := .inl (Nat.lt_trans b.toNat_lt (by decide))
      rw [Char.ofNat, dif_pos valid]
      exact UInt8.ofNat_toNat
    simp [Function.comp_def, code]

/-- Forty bits in two words. -/
def fortyBits : Bloom := ⟨[0, 0], 40, 3, .mixed, by decide, by decide, by decide⟩

theorem blooms_of_forty_bits :
    Bloom.tryFrom charBase64 (fortyBits.toWire charBase64) = .ok fortyBits ∧
      (∀ bit ∈ fortyBits.bitIndices samplePlatform "k", bit / 64 < 2) ∧
      ((Bloom.forExpectedIn samplePlatform 1 .legacy).insert samplePlatform "k").maybeContains
        samplePlatform "k" = true := by
  have accepted := Bloom.tryFrom_toWire charBase64 fortyBits
  have survive := blooms_survive_persistence samplePlatform charBase64
  exact ⟨accepted, survive.2 _ _ accepted [] "k", (survive.1 .legacy 1 ["k"]).2 "k" (by simp)⟩

end Ehdb.Theorems
