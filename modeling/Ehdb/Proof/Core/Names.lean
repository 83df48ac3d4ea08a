import Ehdb.Core.Names
import Mathlib.Data.List.Basic

/-! A number can be read back from its digits, so names with different numbers are different; and
the extension of such a name is the number. -/

namespace Ehdb.Proof.Core

open Ehdb.Core List

def digitValue (ch : Char) : Nat :=
  if ch.toNat ≤ 57 then ch.toNat - 48 else ch.toNat - 87

def hexValue (digits : List Char) : Nat :=
  digits.foldl (fun value ch => 16 * value + digitValue ch) 0

theorem digitValue_digitChar : ∀ d < 16, digitValue (Nat.digitChar d) = d := by
  decide

theorem hexValue_append_singleton (digits : List Char) (ch : Char) :
    hexValue (digits ++ [ch]) = 16 * hexValue digits + digitValue ch := by
  simp [hexValue]

theorem hexValue_toDigits (n : Nat) : hexValue (Nat.toDigits 16 n) = n := by
  induction n using Nat.strongRecOn with
  | ind n ih =>
    rw [Nat.toDigits_eq_if (by decide)]
    split
    · rename_i small
      simpa [hexValue] using digitValue_digitChar n small
    · have smaller : n / 16 < n := Nat.div_lt_self (by omega) (by decide)
      have last := digitValue_digitChar (n % 16) (Nat.mod_lt _ (by decide))
      rw [hexValue_append_singleton, ih _ smaller, last]
      omega

theorem dot_notMem_toDigits (n : Nat) : '.' ∉ Nat.toDigits 16 n := by
  induction n using Nat.strongRecOn with
  | ind n ih =>
    rw [Nat.toDigits_eq_if (by decide)]
    split
    · simp
    · have smaller : n / 16 < n := Nat.div_lt_self (by omega) (by decide)
      simpa using ih _ smaller

theorem hexValue_zeros (k : Nat) (digits : List Char) :
    hexValue (replicate k '0' ++ digits) = hexValue digits := by
  induction k with
  | zero => rfl
  | succ k ih => exact ih

theorem hexPad_injective (width : Nat) : Function.Injective (hexPad width) := by
  intro n m same
  have values := congrArg hexValue same
  rwa [hexPad, hexPad, hexValue_zeros, hexValue_zeros, hexValue_toDigits, hexValue_toDigits]
    at values

theorem dot_notMem_hexPad (width n : Nat) : '.' ∉ hexPad width n := by
  intro mem
  rcases mem_append.1 mem with zero | digit
  · exact absurd (eq_of_mem_replicate zero) (by decide)
  · exact dot_notMem_toDigits n digit

theorem length_hexPad (width n : Nat) : width ≤ (hexPad width n).length := by
  simp only [hexPad, length_append, length_replicate]
  omega

theorem hex8_injective : Function.Injective hex8 :=
  fun _ _ same => hexPad_injective 8 (String.ofList_injective same)

theorem fileStem_of_last {stem last} (some_stem : stem ≠ []) (no_dot : '.' ∉ last) :
    fileStem (stem ++ '.' :: last) = stem := by
  have skip : (last.reverse ++ '.' :: stem.reverse).dropWhile (· ≠ '.') = '.' :: stem.reverse := by
    rw [dropWhile_append_of_pos]
    · simp
    · intro ch mem
      simpa using fun is : ch = '.' => no_dot (is ▸ mem_reverse.1 mem)
  have reversed : (stem ++ '.' :: last).reverse = last.reverse ++ '.' :: stem.reverse := by simp
  unfold fileStem
  rw [reversed, skip]
  simp [some_stem]

theorem withExtension_of_last {name stem extension} (last : List Char)
    (is_name : name.toList = stem.toList ++ '.' :: last) (some_stem : stem.toList ≠ [])
    (no_dot : '.' ∉ last) : withExtension name extension = stem ++ "." ++ extension := by
  rw [withExtension, is_name, fileStem_of_last some_stem no_dot, String.ofList_toList]

end Ehdb.Proof.Core
