import Mathlib.Data.Nat.Digits.Defs

/-! The numbers in names are written in hexadecimal with a least width, and a temporary file is
named after the file that it is for. -/

namespace Ehdb.Core

/-- `{:0width$x}` of a format. -/
def hexPad (width n : Nat) : List Char :=
  let digits := Nat.toDigits 16 n
  List.replicate (width - digits.length) '0' ++ digits

/-- `{:08x}` -/
def hex8 (n : Nat) : String := String.ofList (hexPad 8 n)

/-- `{:016x}` -/
def hex16 (n : Nat) : String := String.ofList (hexPad 16 n)

/-- `Path::file_stem`, on the characters of a file name: what stands before the last dot, or the
whole name if that is nothing. -/
def fileStem (name : List Char) : List Char :=
  let stem := ((name.reverse.dropWhile (· ≠ '.')).drop 1).reverse
  if stem.isEmpty then name else stem

/-- `Path::with_extension`, on a file name. -/
def withExtension (name extension : String) : String :=
  String.ofList (fileStem name.toList) ++ "." ++ extension

end Ehdb.Core
