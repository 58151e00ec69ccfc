/-!
# Digits

Hexadecimal text as the pieces in which it is written: the mark, each padding zero and the digits
are pieces of their own, so a sink that counts writes sees them one by one.
-/
namespace TwoWire.Text

/-- Lower-case digits, without a mark. -/
def hexDigits (n : Nat) : String := String.ofList (Nat.toDigits 16 n)

/-- `0x` and the digits. -/
def hex (n : Nat) : List String := ["0x", hexDigits n]

/-- `0x` and at least `width` digits, padded with zeros from the left. -/
def hexPadded (width n : Nat) : List String :=
  "0x" :: List.replicate (width - (hexDigits n).length) "0" ++ [hexDigits n]

/-- A byte as two digits. -/
def hexByte (b : UInt8) : List String := hexPadded 2 b.toNat

/-- A big-endian pair of bytes as four digits. -/
def hexPair (w : UInt16) : List String := hexPadded 4 w.toNat

/-- A signed number: the sign, if there is one, is a piece of its own. -/
def signed : Int → List String
  | .ofNat n => [toString n]
  | .negSucc n => ["-", toString (n + 1)]

end TwoWire.Text
