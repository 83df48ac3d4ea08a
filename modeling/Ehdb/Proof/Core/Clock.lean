import Ehdb.Core.Hlc

/-! `now` takes the clock forward exactly when the milliseconds it stores are above the last ones or
there is a value above the last one left. -/

namespace Ehdb.Proof.Clock

open Ehdb.Core List

theorem fromParts_toNat (physical logical : UInt64) : (Hlc.fromParts physical logical).raw.toNat =
      physical.toNat % 2 ^ 48 * 2 ^ 16 + logical.toNat % 2 ^ 16 := by
  have low : logical.toNat % 2 ^ 16 < 2 ^ 16 := Nat.mod_lt _ (by decide)
  have mask : logicalMask.toNat = 2 ^ 16 - 1 := by decide
  have shift : (physical <<< logicalBits).toNat = 2 ^ 16 * (physical.toNat % 2 ^ 48) := by
    have bits : logicalBits.toNat % 64 = 16 := by decide
    rw [UInt64.toNat_shiftLeft, bits, Nat.shiftLeft_eq, show 2 ^ 64 = 2 ^ 48 * 2 ^ 16 by decide,
      Nat.mul_mod_mul_right, Nat.mul_comm]
  rw [Hlc.fromParts, UInt64.toNat_or, UInt64.toNat_and, mask, Nat.and_two_pow_sub_one_eq_mod, shift,
    ← Nat.two_pow_add_eq_or_of_lt low, Nat.mul_comm]

theorem physicalMillis_toNat (hlc : Hlc) : hlc.physicalMillis.toNat = hlc.raw.toNat / 2 ^ 16 := by
  have bits : logicalBits.toNat % 64 = 16 := by decide
  rw [Hlc.physicalMillis, UInt64.toNat_shiftRight, bits, Nat.shiftRight_eq_div_pow]

theorem logical_toNat (hlc : Hlc) : hlc.logical.toNat = hlc.raw.toNat % 2 ^ 16 := by
  have mask : logicalMask.toNat = 2 ^ 16 - 1 := by decide
  rw [Hlc.logical, UInt64.toNat_and, mask, Nat.and_two_pow_sub_one_eq_mod]

/-- What `now` needs of the last value and the source: the milliseconds that fit into the
timestamp are above the last ones, or the source does not ask for them and the last value is not
the highest one. -/
def Advances (last : Hlc) (physical : UInt64) : Prop :=
  if physical > last.physicalMillis then
    last.physicalMillis.toNat < physical.toNat % 2 ^ 48
  else
    last.raw.toNat < 2 ^ 64 - 1

instance (last : Hlc) (physical : UInt64) : Decidable (Advances last physical) :=
  inferInstanceAs (Decidable (ite _ _ _))

theorem lt_iff_toNat {a b : Hlc} : a < b ↔ a.raw.toNat < b.raw.toNat := UInt64.lt_iff_toNat_lt

theorem lt_next_iff (last : Hlc) (physical : UInt64) :
    last < HlcClock.next last physical ↔ Advances last physical := by
  have bound := last.raw.toNat_lt
  have millis := physicalMillis_toNat last
  have counter := logical_toNat last
  rw [lt_iff_toNat]
  unfold HlcClock.next Advances
  split
  · rw [fromParts_toNat, millis]
    have zero : (0 : UInt64).toNat = 0 := rfl
    omega
  · have bumped : (last.logical + 1).toNat = last.raw.toNat % 2 ^ 16 + 1 := by
      have one : (1 : UInt64).toNat = 1 := rfl
      rw [UInt64.toNat_add, counter, one]
      omega
    have carried : (last.physicalMillis + 1).toNat = last.raw.toNat / 2 ^ 16 + 1 := by
      have one : (1 : UInt64).toNat = 1 := rfl
      rw [UInt64.toNat_add, millis, one]
      omega
    have mask : logicalMask.toNat = 2 ^ 16 - 1 := by decide
    dsimp only
    split
    · rename_i carry
      have full := UInt64.lt_iff_toNat_lt.1 carry
      rw [fromParts_toNat, carried]
      have zero : (0 : UInt64).toNat = 0 := rfl
      omega
    · rename_i free
      have fits := mt UInt64.lt_iff_toNat_lt.2 free
      rw [fromParts_toNat, millis, bumped]
      omega

variable (clock : HlcClock)

theorem run_append (before calls : List ClockCall) :
    clock.run (before ++ calls) = clock.run before ++ (clock.after before).run calls := by
  induction before generalizing clock with
  | nil => rfl
  | cons c before ih =>
    simp only [cons_append, HlcClock.run, ih]
    rfl

theorem after_concat (before : List ClockCall) (c : ClockCall) :
    clock.after (before ++ [c]) = ((clock.after before).call c).2 := by
  simp [HlcClock.after]

theorem run_concat (before : List ClockCall) (c : ClockCall) :
    clock.run (before ++ [c]) = clock.run before ++ [((clock.after before).call c).1] :=
  run_append clock before [c]

theorem after_state_known (calls : List ClockCall) : (clock.after calls).state = clock.state ∨
      ∃ stamp ∈ clock.run calls, stamp.value = (clock.after calls).state := by
  induction calls using reverseRecOn with
  | nil => exact .inl rfl
  | append_singleton before c ih =>
    rw [after_concat, run_concat]
    have earlier : (clock.after before).state = clock.state ∨
        ∃ stamp ∈ clock.run before ++ [((clock.after before).call c).1],
          stamp.value = (clock.after before).state := by
      refine ih.imp id fun ⟨stamp, mem, eq⟩ => ⟨stamp, mem_append_left _ mem, eq⟩
    cases c with
    | now physical => exact .inr ⟨_, mem_append_right _ (mem_singleton_self _), rfl⟩
    | observe remote =>
      simp only [HlcClock.call, HlcClock.observe] at earlier ⊢
      split
      · exact .inr ⟨_, mem_append_right _ (mem_singleton_self _), rfl⟩
      · exact earlier

/-- Every timestamp that `now` returns in the run is above the seed, above every timestamp returned
before and above every one observed before. -/
def MonotoneAndCausal (seed : Hlc) (calls : List ClockCall) : Prop :=
  ∀ before value after, (HlcClock.seededFrom seed).run calls = before ++ .issued value :: after →
      seed < value ∧ ∀ stamp ∈ before, stamp.value < value

/-- Each reading of the physical clock is one the logical clock can move on from. -/
def Advancing (calls : List ClockCall) : Prop :=
  ∀ before physical after, calls = before ++ .now physical :: after →
    Advances (clock.after before).state physical

theorem Advancing.left {calls rest} (h : Advancing clock (calls ++ rest)) :
    Advancing clock calls := by
  intro before physical after eq
  exact h before physical (after ++ rest) (by simp [eq])

/-- While every `now` advances the clock, it is at or above its seed and all that it issued or
observed. -/
theorem Advancing.known_le {calls} (h : Advancing clock calls) :
    clock.state.raw.toNat ≤ (clock.after calls).state.raw.toNat ∧ ∀ stamp ∈ clock.run calls,
        stamp.value.raw.toNat ≤ (clock.after calls).state.raw.toNat := by
  induction calls using reverseRecOn with
  | nil => exact ⟨le_rfl, nofun⟩
  | append_singleton before c ih =>
    obtain ⟨seed, stamps⟩ := ih h.left
    rw [after_concat, run_concat]
    -- One call raises the clock to what it makes known.
    have raised : (clock.after before).state.raw.toNat ≤
          ((clock.after before).call c).2.state.raw.toNat ∧
        ((clock.after before).call c).1.value.raw.toNat ≤
          ((clock.after before).call c).2.state.raw.toNat := by
      cases c with
      | now physical =>
        have above := (lt_next_iff _ _).2 (h before physical [] rfl)
        exact ⟨(lt_iff_toNat.1 above).le, le_rfl⟩
      | observe remote =>
        simp only [HlcClock.call, HlcClock.observe]
        split
        · rename_i above
          exact ⟨(lt_iff_toNat.1 above).le, le_rfl⟩
        · rename_i not_above
          have := mt lt_iff_toNat.2 not_above
          exact ⟨le_rfl, not_lt.1 this⟩
    refine ⟨seed.trans raised.1, ?_⟩
    intro stamp mem
    rcases mem_append.1 mem with old | new
    · exact (stamps stamp old).trans raised.1
    · rw [mem_singleton.1 new]
      exact raised.2

theorem split_of_run {calls before after stamp} (h : clock.run calls = before ++ stamp :: after) :
    ∃ earlier c later, calls = earlier ++ c :: later ∧ clock.run earlier = before ∧
      stamp = ((clock.after earlier).call c).1 := by
  induction before generalizing clock calls with
  | nil =>
    cases calls with
    | nil => cases h
    | cons c calls =>
      cases h
      exact ⟨[], c, calls, rfl, rfl, rfl⟩
  | cons first before ih =>
    cases calls with
    | nil => cases h
    | cons c calls =>
      obtain ⟨rfl, rest⟩ := cons.inj h
      obtain ⟨earlier, d, later, rfl, ran, eq⟩ := ih _ rest
      exact ⟨c :: earlier, d, later, rfl, by rw [HlcClock.run, ran], eq⟩

end Ehdb.Proof.Clock
