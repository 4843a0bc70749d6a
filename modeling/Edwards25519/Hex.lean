import Edwards25519.Bytes

/-! Hexadecimal text. Reading takes either case; a text of odd length is refused before its
characters are looked at, and then the first character that is no digit is reported. -/
namespace Edwards25519

inductive HexError where
  | oddLength
  /-- The byte at `index` of the text is no digit. -/
  | invalidCharacter (byte : UInt8) (index : Nat)
  deriving DecidableEq, Repr

namespace Hex

def digit? (c : UInt8) : Option UInt8 :=
  if 48 ≤ c ∧ c ≤ 57 then some (c - 48)
  else if 97 ≤ c ∧ c ≤ 102 then some (c - 87)
  else if 65 ≤ c ∧ c ≤ 70 then some (c - 55)
  else none

def digitAt (c : UInt8) (index : Nat) : Except HexError UInt8 :=
  match digit? c with
  | some d => .ok d
  | none => .error (.invalidCharacter c index)

/-- Reads pairs of digits, high half first; `index` counts the characters before them. -/
def decodePairs (index : Nat) : List UInt8 → Except HexError ByteString
  | [] => .ok []
  | [_] => .error .oddLength
  | a :: b :: rest => do
    let high ← digitAt a index
    let low ← digitAt b (index + 1)
    let bytes ← decodePairs (index + 2) rest
    return (high <<< 4 ||| low) :: bytes

def decode (text : String) : Except HexError ByteString :=
  let characters := text.toUTF8.toList
  if characters.length % 2 = 1 then .error .oddLength else decodePairs 0 characters

def lowerDigit (d : UInt8) : Char := Char.ofNat (if d < 10 then 48 + d.toNat else 87 + d.toNat)

def upperDigit (d : UInt8) : Char := Char.ofNat (if d < 10 then 48 + d.toNat else 55 + d.toNat)

def digits (digit : UInt8 → Char) (bytes : ByteString) : List Char :=
  bytes.flatMap fun (b : UInt8) => [digit (b >>> 4), digit (b &&& 15)]

def encode (bytes : ByteString) : String := String.ofList (digits lowerDigit bytes)

def encodeUpper (bytes : ByteString) : String := String.ofList (digits upperDigit bytes)

end Hex

namespace HexError

/-- The character `U+00XX` of a byte between single quotes. The quote, the backslash and the
control characters are written as escapes. -/
def quoted (byte : UInt8) : String :=
  let body :=
    if byte = 0 then "\\0"
    else if byte = 9 then "\\t"
    else if byte = 10 then "\\n"
    else if byte = 13 then "\\r"
    else if byte = 39 then "\\'"
    else if byte = 92 then "\\\\"
    else if byte < 32 ∨ (127 ≤ byte ∧ byte < 160) then
      "\\u\x7b" ++ String.ofList (Nat.toDigits 16 byte.toNat) ++ "\x7d"
    else String.singleton (Char.ofNat byte.toNat)
  "'" ++ body ++ "'"

def message : HexError → String
  | oddLength => "Odd number of digits"
  | invalidCharacter byte index =>
    "Invalid character " ++ quoted byte ++ " at position " ++ toString index

end HexError
end Edwards25519
