/-
Two measures of text. Offsets into a source count UTF-8 bytes; columns of a source map count UTF-16 code units. Both are
functions on characters, so text stays a list of characters and an offset stays a number beside it.

- `byteLength`: the UTF-8 length of a text, additive over `++`;
- `dropBytes`, `takeBytes`, `slice`: cutting at byte offsets. An offset inside a character is never asked for; the cut
  then falls behind that character;
- `Position`: line and UTF-16 column, moved on by one character with `advance`.
-/

namespace ClosurePipeline.Text

/-- the UTF-8 length of a text -/
def byteLength : List Char → Nat
  | [] => 0
  | c :: cs => c.utf8Size + byteLength cs

@[simp] theorem byteLength_nil : byteLength [] = 0 := rfl

@[simp] theorem byteLength_cons (c : Char) (cs : List Char) : byteLength (c :: cs) = c.utf8Size + byteLength cs := rfl

@[simp] theorem byteLength_append (a b : List Char) : byteLength (a ++ b) = byteLength a + byteLength b := by
  induction a with
  | nil => simp
  | cons c a ih => simp [ih, Nat.add_assoc]

/-- the text after the first `n` bytes -/
def dropBytes : Nat → List Char → List Char
  | 0, cs => cs
  | _ + 1, [] => []
  | n + 1, c :: cs => dropBytes (n + 1 - c.utf8Size) cs

/-- the first `n` bytes of a text -/
def takeBytes : Nat → List Char → List Char
  | 0, _ => []
  | _ + 1, [] => []
  | n + 1, c :: cs => c :: takeBytes (n + 1 - c.utf8Size) cs

/-- the text from byte offset `start` up to byte offset `stop` -/
def slice (cs : List Char) (start stop : Nat) : List Char := takeBytes (stop - start) (dropBytes start cs)

theorem dropBytes_byteLength_append (a b : List Char) : dropBytes (byteLength a) (a ++ b) = b := by
  induction a with
  | nil => simp [dropBytes]
  | cons c a ih =>
    have h : 0 < c.utf8Size := c.utf8Size_pos
    obtain ⟨n, hn⟩ : ∃ n, c.utf8Size + byteLength a = n + 1 := ⟨c.utf8Size + byteLength a - 1, by omega⟩
    have e : n + 1 - c.utf8Size = byteLength a := by omega
    simp [hn, dropBytes, e, ih]

theorem takeBytes_byteLength_append (a b : List Char) : takeBytes (byteLength a) (a ++ b) = a := by
  induction a with
  | nil => simp [takeBytes]
  | cons c a ih =>
    have h : 0 < c.utf8Size := c.utf8Size_pos
    obtain ⟨n, hn⟩ : ∃ n, c.utf8Size + byteLength a = n + 1 := ⟨c.utf8Size + byteLength a - 1, by omega⟩
    have e : n + 1 - c.utf8Size = byteLength a := by omega
    simp [hn, takeBytes, e, ih]

/-- a cut on character boundaries gives back the text between them -/
theorem slice_append (a b c : List Char) : slice (a ++ b ++ c) (byteLength a) (byteLength a + byteLength b) = b := by
  simp only [slice, List.append_assoc, dropBytes_byteLength_append, Nat.add_sub_cancel_left,
    takeBytes_byteLength_append]

/-- how many UTF-16 code units a character takes -/
def units16 (c : Char) : Nat := if c.toNat < 0x10000 then 1 else 2

/-- the first byte of a character's UTF-8 form -/
def leadByte (c : Char) : Nat :=
  let n := c.toNat
  if n < 0x80 then n else if n < 0x800 then 0xC0 + n / 0x40 else if n < 0x10000 then 0xE0 + n / 0x1000
  else 0xF0 + n / 0x40000

/-- how many line breaks a text holds -/
def breaks (cs : List Char) : Nat := cs.count '\n'

/-- how many lines a text has: a line break ends a line, and text behind the last one is a line too -/
def lineCount (cs : List Char) : Nat :=
  match cs.getLast? with
  | none => 0
  | some c => if c = '\n' then breaks cs else breaks cs + 1

end ClosurePipeline.Text

namespace ClosurePipeline

/-- a place in a text: 0-based line and UTF-16 column -/
structure Position where
  line : Nat
  column : Nat
deriving DecidableEq, Repr

namespace Position

/-- the first place of a text -/
def start : Position := ⟨0, 0⟩

/-- the place behind character `c` -/
def advance (p : Position) (c : Char) : Position :=
  if c = '\n' then ⟨p.line + 1, 0⟩ else ⟨p.line, p.column + Text.units16 c⟩

/-- the place behind a text -/
def advanceAll (p : Position) (cs : List Char) : Position := cs.foldl advance p

/-- reading order -/
def le (p q : Position) : Bool := p.line < q.line || (p.line == q.line && p.column ≤ q.column)

end Position

end ClosurePipeline
