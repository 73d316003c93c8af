/-!
# Hexadecimal text

Numbers are written in lower-case digits after `0x`: with no leading zeros on their own, with two
digits as a byte of a sequence.
-/
namespace Wraparound.Hex

/-- The digits of a number, most significant first, without leading zeros. -/
def digits (n : Nat) : String := String.ofList (Nat.toDigits 16 n)

/-- A number: `0x1f`. -/
def number (n : Nat) : String := "0x" ++ digits n

/-- The two digits of a byte. -/
def pair (b : UInt8) : String := String.ofList [(b.toNat / 16).digitChar, (b.toNat % 16).digitChar]

/-- A byte of a sequence: `0x0a`. -/
def byte (b : UInt8) : String := "0x" ++ pair b

end Wraparound.Hex
