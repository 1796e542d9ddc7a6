/-
Base64 VLQ numbers: a signed number is doubled, with the sign as its lowest bit, and written five bits at a time, low
bits first. Each digit of the base64 alphabet holds five bits and one more that says whether digits follow.

- `encode`: the shortest digits of an integer, of any size;
- `decode`: the numbers of a run of digits. The reader keeps 64 bits: a digit that starts beyond bit 60 is refused, and
  of the digit that starts at bit 60 only the four bits that still fit are kept.
-/
import ClosurePipeline.Text.Measure
import ClosurePipeline.Text.Quoted

namespace ClosurePipeline.Vlq

/-- the digit of a value below 64 -/
def digit (n : Nat) : Char :=
  if n < 26 then Char.ofNat (65 + n)
  else if n < 52 then Char.ofNat (71 + n)
  else if n < 62 then Char.ofNat (n - 4)
  else if n = 62 then '+' else '/'

/-- the value of a digit -/
def digitValue? (c : Char) : Option Nat :=
  let n := c.toNat
  if 65 ≤ n ∧ n ≤ 90 then some (n - 65)
  else if 97 ≤ n ∧ n ≤ 122 then some (n - 71)
  else if 48 ≤ n ∧ n ≤ 57 then some (n + 4)
  else if c = '+' then some 62
  else if c = '/' then some 63
  else none

/-- the digits of a natural number, five bits each -/
def digits (n : Nat) : List Char := if n < 32 then [digit n] else digit (n % 32 + 32) :: digits (n / 32)
termination_by n

/-- the bits of an integer: doubled, with the sign lowest -/
def zigzag (v : Int) : Nat := 2 * v.natAbs + if v < 0 then 1 else 0

/-- the integer of its bits -/
def unzigzag (n : Nat) : Int := if n % 2 = 1 then -((n / 2 : Nat) : Int) else (n / 2 : Nat)

/-- the digits of an integer -/
def encode (v : Int) : List Char := digits (zigzag v)

/-- the digits of integers one after the other -/
def encodeAll (vs : List Int) : List Char := vs.flatMap encode

/-- why a run of characters holds no numbers -/
inductive Fault where
  /-- a character outside the alphabet, named by its first byte -/
  | badDigit (byte : Char)
  /-- a digit starts beyond the last bit -/
  | tooLarge
  /-- the last digit announces another -/
  | truncated
deriving DecidableEq, Repr

/-- the wording of a fault in the run `segment` -/
def Fault.message (segment : List Char) : Fault → String
  | badDigit c =>
    "invalid base64 digit " ++ String.ofList (Text.quotedChar c) ++ " in " ++ String.ofList (Text.quoted segment)
  | tooLarge => "value too large in " ++ String.ofList (Text.quoted segment)
  | truncated => "truncated value in " ++ String.ofList (Text.quoted segment)

/-- the first number with more than the 64 bits the reader keeps -/
def wordLimit : Nat := 18446744073709551616

/-- the last bit at which a digit may start -/
def lastShift : Nat := 60

/-- reads numbers, `bits` being those of the unfinished number and `shift` how many there are -/
def decodeFrom (bits shift : Nat) : List Char → Except Fault (List Int)
  | [] => if shift = 0 then .ok [] else .error .truncated
  | c :: cs =>
    match digitValue? c with
    | none => .error (.badDigit (Char.ofNat (Text.leadByte c)))
    | some d =>
      if lastShift < shift then .error .tooLarge
      else
        let bits := (bits + (d % 32) <<< shift) % wordLimit
        if d < 32 then (decodeFrom 0 0 cs).map (unzigzag bits :: ·) else decodeFrom bits (shift + 5) cs

/-- the numbers of a run of digits -/
def decode (cs : List Char) : Except Fault (List Int) := decodeFrom 0 0 cs

end ClosurePipeline.Vlq
