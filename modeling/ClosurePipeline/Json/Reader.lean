/-
Reading JSON. The grammar is the strict one: no comments, no trailing commas, no control characters inside strings, no
byte order mark, and nothing but blanks behind the value. Nesting is not limited.

A string may hold `\u` escapes whose surrogates do not pair up. Such a string is well formed and is read as
`Json.unpaired`, so a reader that skips the value never notices and a reader that wants text refuses it.

The reader spends one unit of fuel for each value it enters. A value takes at least one character, so the length of the
text is enough.
-/
import ClosurePipeline.Json.Basic

namespace ClosurePipeline.Json

/-- a blank between tokens -/
def isSpace (c : Char) : Bool := c = ' ' || c = '\n' || c = '\t' || c = '\r'

/-- the text behind leading blanks -/
def skipSpace (cs : List Char) : List Char := cs.dropWhile isSpace

/-- the value of a hexadecimal digit -/
def hexValue? (c : Char) : Option Nat :=
  let n := c.toNat
  if 48 ≤ n ∧ n ≤ 57 then some (n - 48)
  else if 97 ≤ n ∧ n ≤ 102 then some (n - 87)
  else if 65 ≤ n ∧ n ≤ 70 then some (n - 55)
  else none

/-- the code unit of four hexadecimal digits -/
def hex4? (a b c d : Char) : Option Nat := do
  let w ← hexValue? a
  let x ← hexValue? b
  let y ← hexValue? c
  let z ← hexValue? d
  some (((w * 16 + x) * 16 + y) * 16 + z)

/-- the character of a one-letter escape -/
def simpleEscape? (c : Char) : Option Char :=
  if c = '"' then some '"'
  else if c = '\\' then some '\\'
  else if c = '/' then some '/'
  else if c = 'b' then some (Char.ofNat 8)
  else if c = 'f' then some (Char.ofNat 12)
  else if c = 'n' then some '\n'
  else if c = 'r' then some '\r'
  else if c = 't' then some '\t'
  else none

/-- a piece of a string: a character, or a code unit written as an escape -/
inductive Piece where
  | char (c : Char)
  | unit (n : Nat)

/-- the pieces of a string up to its closing quote -/
def pieces : List Char → Option (List Piece × List Char)
  | [] => none
  | '"' :: cs => some ([], cs)
  | '\\' :: 'u' :: a :: b :: c :: d :: cs =>
    match hex4? a b c d with
    | none => none
    | some n => (pieces cs).map fun (ps, cs) => (.unit n :: ps, cs)
  | '\\' :: c :: cs =>
    match simpleEscape? c with
    | none => none
    | some e => (pieces cs).map fun (ps, cs) => (.char e :: ps, cs)
  | c :: cs => if c.toNat < 32 ∨ c = '\\' then none else (pieces cs).map fun (ps, cs) => (.char c :: ps, cs)

/-- a code unit that opens a surrogate pair -/
def isHigh (n : Nat) : Bool := 0xD800 ≤ n && n ≤ 0xDBFF

/-- a code unit that closes a surrogate pair -/
def isLow (n : Nat) : Bool := 0xDC00 ≤ n && n ≤ 0xDFFF

/-- the text of a string, if its surrogates pair up -/
def denote : List Piece → Option (List Char)
  | [] => some []
  | .char c :: ps => (denote ps).map (c :: ·)
  | .unit a :: ps =>
    if isHigh a then
      match ps with
      | .unit b :: rest =>
        if isLow b then (denote rest).map (Char.ofNat ((a - 0xD800) * 0x400 + (b - 0xDC00) + 0x10000) :: ·) else none
      | _ => none
    else if isLow a then none
    else (denote ps).map (Char.ofNat a :: ·)

/-- a string behind its opening quote: its text, if it denotes one -/
def string? (cs : List Char) : Option (Option String × List Char) := do
  let (ps, cs) ← pieces cs
  some ((denote ps).map String.ofList, cs)

/-- a decimal digit -/
def isDigit (c : Char) : Bool := 48 ≤ c.toNat && c.toNat ≤ 57

/-- one digit or more -/
def digits1? (cs : List Char) : Option (List Char × List Char) :=
  match cs.takeWhile isDigit with
  | [] => none
  | ds => some (ds, cs.dropWhile isDigit)

/-- the whole part of a number: no leading zeros -/
def wholePart? (cs : List Char) : Option (List Char × List Char) :=
  match cs with
  | '0' :: rest => if (rest.head?.map isDigit).getD false then none else some (['0'], rest)
  | _ => digits1? cs

/-- the fraction of a number, if there is a point -/
def fraction? (cs : List Char) : Option (List Char × List Char) :=
  match cs with
  | '.' :: rest => (digits1? rest).map fun (ds, cs) => ('.' :: ds, cs)
  | _ => some ([], cs)

/-- the exponent of a number, if there is a mark -/
def exponent? (cs : List Char) : Option (List Char × List Char) :=
  match cs with
  | c :: rest =>
    if c = 'e' ∨ c = 'E' then
      match rest with
      | s :: more =>
        if s = '+' ∨ s = '-' then (digits1? more).map fun (ds, cs) => (c :: s :: ds, cs)
        else (digits1? rest).map fun (ds, cs) => (c :: ds, cs)
      | [] => none
    else some ([], cs)
  | [] => some ([], cs)

/-- a number -/
def number? (cs : List Char) : Option (List Char × List Char) := do
  let (sign, cs) : List Char × List Char := match cs with
    | '-' :: rest => (['-'], rest)
    | _ => ([], cs)
  let (whole, cs) ← wholePart? cs
  let (frac, cs) ← fraction? cs
  let (exp, cs) ← exponent? cs
  some (sign ++ whole ++ frac ++ exp, cs)

/-- a word that stands for a value -/
def word? (w : List Char) (cs : List Char) : Option (List Char) :=
  if w.isPrefixOf cs then some (cs.drop w.length) else none

/-- an object from its members, unless a key denotes no text -/
def ofMembers (ms : List (Option String × Json)) : Json :=
  match ms.mapM fun m => m.1.map fun k => (k, m.2) with
  | some ms => .obj ms
  | none => .unpaired

mutual

/-- a value, at the start of the text -/
def value? : Nat → List Char → Option (Json × List Char)
  | 0, _ => none
  | fuel + 1, cs =>
    match skipSpace cs with
    | '"' :: rest => (string? rest).map fun (s, cs) => ((s.map Json.str).getD .unpaired, cs)
    | '[' :: rest =>
      match skipSpace rest with
      | ']' :: cs => some (.arr [], cs)
      | _ => (items? fuel rest).map fun (js, cs) => (.arr js, cs)
    | '{' :: rest =>
      match skipSpace rest with
      | '}' :: cs => some (.obj [], cs)
      | _ => (members? fuel rest).map fun (ms, cs) => (ofMembers ms, cs)
    | 'n' :: rest => (word? ['u', 'l', 'l'] rest).map fun cs => (.null, cs)
    | 't' :: rest => (word? ['r', 'u', 'e'] rest).map fun cs => (.bool true, cs)
    | 'f' :: rest => (word? ['a', 'l', 's', 'e'] rest).map fun cs => (.bool false, cs)
    | rest => (number? rest).map fun (d, cs) => (.num (String.ofList d), cs)

/-- one element or more, and the closing bracket -/
def items? : Nat → List Char → Option (List Json × List Char)
  | 0, _ => none
  | fuel + 1, cs =>
    match value? fuel cs with
    | none => none
    | some (j, cs) =>
      match skipSpace cs with
      | ',' :: rest => (items? fuel rest).map fun (js, cs) => (j :: js, cs)
      | ']' :: rest => some ([j], rest)
      | _ => none

/-- one member or more, and the closing brace -/
def members? : Nat → List Char → Option (List (Option String × Json) × List Char)
  | 0, _ => none
  | fuel + 1, cs =>
    match skipSpace cs with
    | '"' :: rest =>
      match string? rest with
      | none => none
      | some (k, cs) =>
        match skipSpace cs with
        | ':' :: rest =>
          match value? fuel rest with
          | none => none
          | some (j, cs) =>
            match skipSpace cs with
            | ',' :: rest => (members? fuel rest).map fun (ms, cs) => ((k, j) :: ms, cs)
            | '}' :: rest => some ([(k, j)], rest)
            | _ => none
        | _ => none
    | _ => none

end

/-- the value a text holds, and nothing else -/
def parse? (s : String) : Option Json :=
  let cs := s.toList
  match value? (2 * cs.length + 2) cs with
  | some (j, rest) => if skipSpace rest = [] then some j else none
  | none => none

end ClosurePipeline.Json
