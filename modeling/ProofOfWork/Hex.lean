import ProofOfWork.Bytes

/-!
# ProofOfWork.Hex — hexadecimal text

Bytes are written with two lower-case digits each.  Reading takes digits of either case; a text of
odd length is refused before any of its digits is looked at, else the first byte that is no digit.
-/

namespace ProofOfWork.Hex

inductive ReadError
  | oddLength
  | notDigit (byte : UInt8) (position : Nat)
deriving DecidableEq, Repr

/-- The digits of a number in base sixteen, without leading zeros. -/
def number (n : Nat) : String := String.ofList (Nat.toDigits 16 n)

/-- The character of a byte's code, as it stands between single quotes: control characters, and the
others that leave no mark, are written as escapes. -/
def escaped (b : UInt8) : String :=
  if b = 0 then "\\0"
  else if b = 9 then "\\t"
  else if b = 10 then "\\n"
  else if b = 13 then "\\r"
  else if b = 39 then "\\'"
  else if b = 92 then "\\\\"
  else if b < 32 ∨ 127 ≤ b ∧ b ≤ 160 ∨ b = 173 then "\\u\x7b" ++ number b.toNat ++ "\x7d"
  else String.singleton (Char.ofNat b.toNat)

def ReadError.message : ReadError → String
  | oddLength => "Odd number of digits"
  | notDigit byte position =>
    "Invalid character '" ++ escaped byte ++ "' at position " ++ toString position

/-- The value of a digit given by its ASCII code. -/
def digit? (c : UInt8) : Option UInt8 :=
  if 48 ≤ c ∧ c ≤ 57 then some (c - 48)
  else if 97 ≤ c ∧ c ≤ 102 then some (c - 87)
  else if 65 ≤ c ∧ c ≤ 70 then some (c - 55)
  else none

def readDigit (text : Bytes) (i : Fin text.size) : Except ReadError UInt8 :=
  match digit? text[i] with
  | some d => .ok d
  | none => .error (.notDigit text[i] i)

def readPair (text : Bytes) (i : Fin (text.size / 2)) : Except ReadError UInt8 := do
  let high ← readDigit text ⟨2 * i, by omega⟩
  let low ← readDigit text ⟨2 * i + 1, by omega⟩
  return high * 16 + low

def decodeBytes (text : Bytes) : Except ReadError Bytes :=
  if text.size % 2 = 1 then .error .oddLength
  else (List.finRange (text.size / 2)).mapM (readPair text) |>.map List.toArray

/-- Positions count the bytes of the text's UTF-8 form. -/
def decode (text : String) : Except ReadError Bytes := decodeBytes text.toUTF8.data

def digits (b : UInt8) : List Char := [(b.toNat / 16).digitChar, (b.toNat % 16).digitChar]

def encode (b : Bytes) : String := String.ofList (b.toList.flatMap digits)

end ProofOfWork.Hex
