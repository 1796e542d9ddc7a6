/-
JSON values and their two written forms.

- `Json.compact`: no blanks;
- `Json.pretty`: one member or element a line, two blanks for each level, `[]` and `{}` when there is none.
Both escape the quote, the backslash and control characters, and write every other character as it is.
-/

namespace ClosurePipeline

/-- a JSON value; members keep their order, and a number keeps its digits -/
inductive Json where
  | null
  | bool (b : Bool)
  /-- a number, by its text -/
  | num (digits : String)
  | str (s : String)
  | arr (items : List Json)
  | obj (members : List (String × Json))
  /-- a string, or an object with a key, whose escapes leave a surrogate without its partner: well formed, but it
  denotes no text -/
  | unpaired
deriving Repr, Inhabited

namespace Json

/-- a natural number -/
def ofNat (n : Nat) : Json := .num (toString n)

/-- a path, by its text; nothing as null -/
def ofOption {α : Type} (f : α → Json) : Option α → Json
  | none => .null
  | some a => f a

/-- a list of strings -/
def strs (ss : List String) : Json := .arr (ss.map .str)

/-- the members of an object, those without a value left out -/
def objOf (members : List (String × Option Json)) : Json := .obj (members.filterMap fun m => m.2.map fun v => (m.1, v))

/-- the lower-case hexadecimal digit of `n` -/
def hexDigit (n : Nat) : Char := if n < 10 then Char.ofNat (48 + n) else Char.ofNat (87 + n)

/-- a character inside a written string -/
def escape (c : Char) : List Char :=
  if c = '"' then ['\\', '"']
  else if c = '\\' then ['\\', '\\']
  else if c = '\n' then ['\\', 'n']
  else if c = '\r' then ['\\', 'r']
  else if c = '\t' then ['\\', 't']
  else if c.toNat = 8 then ['\\', 'b']
  else if c.toNat = 12 then ['\\', 'f']
  else if c.toNat < 32 then ['\\', 'u', '0', '0', hexDigit (c.toNat / 16), hexDigit (c.toNat % 16)]
  else [c]

/-- a written string -/
def quote (s : String) : List Char := ['"'] ++ s.toList.flatMap escape ++ ['"']

/-- parts with commas between them -/
def commaSep : List (List Char) → List Char := List.intercalate [',']

mutual

/-- the compact form, as characters -/
def compactChars : Json → List Char
  | null => ['n', 'u', 'l', 'l']
  | bool true => ['t', 'r', 'u', 'e']
  | bool false => ['f', 'a', 'l', 's', 'e']
  | num d => d.toList
  | str s => quote s
  | arr items => ['['] ++ commaSep (compactItems items) ++ [']']
  | obj members => ['{'] ++ commaSep (compactMembers members) ++ ['}']
  | unpaired => ['n', 'u', 'l', 'l']

/-- the compact forms of elements -/
def compactItems : List Json → List (List Char)
  | [] => []
  | j :: js => compactChars j :: compactItems js

/-- the compact forms of members -/
def compactMembers : List (String × Json) → List (List Char)
  | [] => []
  | (k, j) :: ms => (quote k ++ [':'] ++ compactChars j) :: compactMembers ms

end

/-- the compact form -/
def compact (j : Json) : String := String.ofList j.compactChars

/-- a line break and the blanks of a level -/
def newline (level : Nat) : List Char := '\n' :: List.replicate (2 * level) ' '

/-- parts on lines of their own between brackets -/
def block (opening closing : Char) (level : Nat) (parts : List (List Char)) : List Char :=
  if parts.isEmpty then [opening, closing]
  else [opening] ++ List.intercalate [','] (parts.map (newline (level + 1) ++ ·)) ++ newline level ++ [closing]

mutual

/-- the pretty form at a level, as characters -/
def prettyChars (level : Nat) : Json → List Char
  | arr items => block '[' ']' level (prettyItems (level + 1) items)
  | obj members => block '{' '}' level (prettyMembers (level + 1) members)
  | null => ['n', 'u', 'l', 'l']
  | bool true => ['t', 'r', 'u', 'e']
  | bool false => ['f', 'a', 'l', 's', 'e']
  | num d => d.toList
  | str s => quote s
  | unpaired => ['n', 'u', 'l', 'l']

/-- the pretty forms of elements -/
def prettyItems (level : Nat) : List Json → List (List Char)
  | [] => []
  | j :: js => prettyChars level j :: prettyItems level js

/-- the pretty forms of members -/
def prettyMembers (level : Nat) : List (String × Json) → List (List Char)
  | [] => []
  | (k, j) :: ms => (quote k ++ [':', ' '] ++ prettyChars level j) :: prettyMembers level ms

end

/-- the pretty form -/
def pretty (j : Json) : String := String.ofList (j.prettyChars 0)

end Json

end ClosurePipeline
