/-!
# Hexadecimal text

Numbers in base sixteen, in either case, and padding to a column.
-/

namespace SplitRadix.Text

/-- Fill up to `width` characters on the left. -/
def padStart (width : Nat) (fill : Char) (s : String) : String :=
  String.ofList (List.replicate (width - s.length) fill) ++ s

/-- Fill up to `width` characters with blanks on the right. -/
def padEnd (width : Nat) (s : String) : String :=
  s ++ String.ofList (List.replicate (width - s.length) ' ')

/-- The digits of `n` in base sixteen, lowercase. -/
def hex (n : Nat) : String := String.ofList (Nat.toDigits 16 n)

/-- The digits of `n` in base sixteen, uppercase. -/
def hexUpper (n : Nat) : String := String.ofList ((Nat.toDigits 16 n).map Char.toUpper)

/-- A number marked as hexadecimal. -/
def hexMarked (n : Nat) : String := "0x" ++ hex n

/-- A byte as two uppercase digits. -/
def hexByteUpper (b : UInt8) : String := padStart 2 '0' (hexUpper b.toNat)

end SplitRadix.Text
