import Relabel.Diagnostic

/-!
# Variable-length quantities

An integer is written in base 32 with the least digit first. Each digit is one base64 character
whose sixth bit says that another digit follows, and the lowest bit of the first digit is the sign.
Reading works in words of 64 bits: bits beyond the word are lost.
-/

namespace Relabel.Vlq

/-- The 64 characters in the order of their values. -/
def alphabet : List Char :=
  "ABCDEFGHIJKLMNOPQRSTUVWXYZabcdefghijklmnopqrstuvwxyz0123456789+/".toList

/-- The character of a value below 64. -/
def charOf (value : Nat) : Char :=
  alphabet.getD value 'A'

/-- The value of a base64 character. -/
def valueOf? (c : Char) : Option Nat :=
  if 'A' ≤ c && c ≤ 'Z' then some (c.toNat - 65)
  else if 'a' ≤ c && c ≤ 'z' then some (c.toNat - 97 + 26)
  else if '0' ≤ c && c ≤ '9' then some (c.toNat - 48 + 52)
  else if c = '+' then some 62
  else if c = '/' then some 63
  else none

/-- A magnitude with its sign in the lowest bit. -/
def signFirst (value : Int) : Nat :=
  if value < 0 then 2 * value.natAbs + 1 else 2 * value.natAbs

/-- The digits of a number, least first. -/
def digits (n : Nat) : List Char :=
  if n < 32 then [charOf n] else charOf (n % 32 + 32) :: digits (n / 32)
termination_by n

/-- The text of an integer. -/
def encode (value : Int) : List Char :=
  digits (signFirst value)

/-- The signed integer of a word of 64 bits: the upper half of the words is negative. -/
def signed (word : Nat) : Int :=
  Int.bmod word UInt64.size

/-- The integer of a word whose lowest bit is the sign. -/
def ofWord (word : Nat) : Int :=
  let magnitude := signed word / 2
  if word % 2 = 1 then -magnitude else magnitude

/-- The first byte of a character in UTF-8, as a character of its own. -/
def firstByte (c : Char) : Char :=
  match String.utf8EncodeChar c with
  | b :: _ => Char.ofNat b.toNat
  | [] => c

/-- Reads the digits of a segment, with the word and the shift of the value being read. -/
def decodeFrom (word shift : Nat) : List Char → Except MappingProblem (List Int)
  | [] => if shift = 0 then .ok [] else .error .truncated
  | c :: cs =>
    match valueOf? c with
    | none => .error (.notBase64 (firstByte c))
    | some digit =>
      let word := (word + (digit % 32) <<< shift) % UInt64.size
      if 32 ≤ digit then
        if 60 < shift + 5 then .error .overflow else decodeFrom word (shift + 5) cs
      else do
        let rest ← decodeFrom 0 0 cs
        return ofWord word :: rest

/-- The integers of a segment. -/
def decode (segment : List Char) : Except MappingProblem (List Int) :=
  decodeFrom 0 0 segment

end Relabel.Vlq
