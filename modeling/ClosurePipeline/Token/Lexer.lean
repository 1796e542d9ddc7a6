/-
The lexer. Each lexeme is its first character and a number of characters behind it, so the tokens of a text are cut from
it without gaps other than blanks and plain comments.

- blanks are the space, tab, carriage return and line feed;
- every character beyond ASCII belongs to a name;
- a backslash in a string, template or regular expression takes the next character with it, a line break included, and
  that line break does not count;
- a string or regular expression without an end stops at the line's end, a template or comment at the text's.
-/
import ClosurePipeline.Text.Measure
import ClosurePipeline.Token.Basic

namespace ClosurePipeline.Lexer

/-- how far a lexeme goes: its characters, and the line breaks that count -/
structure Reach where
  chars : Nat
  breaks : Nat
deriving DecidableEq, Repr

/-- a reach with more in front of it -/
def Reach.add (r : Reach) (chars breaks : Nat) : Reach := ⟨r.chars + chars, r.breaks + breaks⟩

/-- the rest of a block comment, behind its opening -/
def commentReach : List Char → Reach
  | [] => ⟨0, 0⟩
  | '*' :: '/' :: _ => ⟨2, 0⟩
  | c :: cs => (commentReach cs).add 1 (if c = '\n' then 1 else 0)

/-- the rest of a string behind its opening quote, and whether it is closed -/
def stringReach (quote : Char) : List Char → Nat × Bool
  | [] => (0, false)
  | ['\\'] => (1, false)
  | '\\' :: _ :: cs => let (n, closed) := stringReach quote cs; (n + 2, closed)
  | c :: cs =>
    if c = '\n' then (0, false)
    else if c = quote then (1, true)
    else let (n, closed) := stringReach quote cs; (n + 1, closed)

/-- the character that opens and closes a template -/
def templateQuote : Char := '\x60'

/-- the rest of a template; `depth` counts the open braces of the hole it is in, and is zero in the
template's own text -/
def templateReach : Nat → List Char → Reach
  | _, [] => ⟨0, 0⟩
  | _, ['\\'] => ⟨1, 0⟩
  | depth, '\\' :: _ :: cs => (templateReach depth cs).add 2 0
  | 0, '$' :: '{' :: cs => (templateReach 1 cs).add 2 0
  | 0, c :: cs => if c = templateQuote then ⟨1, 0⟩ else (templateReach 0 cs).add 1 (if c = '\n' then 1 else 0)
  | depth + 1, c :: cs =>
    let depth := if c = '{' then depth + 2 else if c = '}' then depth else depth + 1
    (templateReach depth cs).add 1 (if c = '\n' then 1 else 0)

/-- the rest of a regular expression, flags included; `inClass` says whether it is between square brackets -/
def regexReach (inClass : Bool) : List Char → Nat
  | [] => 0
  | ['\\'] => 1
  | '\\' :: _ :: cs => regexReach inClass cs + 2
  | c :: cs =>
    if c = '\n' then 0
    else if c = '/' && !inClass then (cs.takeWhile Char.isAlpha).length + 1
    else if c = '[' then regexReach true cs + 1
    else if c = ']' then regexReach false cs + 1
    else regexReach inClass cs + 1

/-- a blank -/
def isBlank (c : Char) : Bool := c = ' ' || c = '\t' || c = '\r' || c = '\n'

/-- a character that starts a name -/
def isIdentStart (c : Char) : Bool := c.isAlpha || c = '_' || c = '$' || 0x80 ≤ c.toNat

/-- a character that continues a name -/
def isIdentPart (c : Char) : Bool := isIdentStart c || c.isDigit

/-- a character that continues a number -/
def isNumberPart (c : Char) : Bool := c.isAlphanum || c = '.' || c = '_'

/-- the words behind which a slash starts a regular expression -/
def regexKeywords : List String :=
  ["return", "typeof", "case", "do", "else", "in", "of", "new", "delete", "void", "throw", "yield", "await",
    "instanceof"]

/-- a slash behind this token starts a regular expression -/
def regexAllowed : Option TokenKind → Bool
  | none => true
  | some (.punct c) => c ≠ ')' && c ≠ ']' && c ≠ '}'
  | some (.ident w) => regexKeywords.contains w
  | some (.doc _) => true
  | some _ => false

/-- a comment that documents what follows: it opens with two stars and has something behind them -/
def isDocText (cs : List Char) : Bool := ['/', '*', '*'].isPrefixOf cs && decide (4 < Text.byteLength cs)

/-- a lexeme: the characters behind its first one, the line breaks that count, and its token, if it is one -/
structure Lexeme where
  extra : Nat
  breaks : Nat
  kind : Option TokenKind
deriving DecidableEq, Repr

/-- the text of a lexeme -/
def lexemeText (c : Char) (cs : List Char) (extra : Nat) : List Char := c :: cs.take extra

/-- a block comment -/
def commentLexeme (c : Char) (cs : List Char) : Lexeme :=
  let reach := commentReach (cs.drop 1)
  let text := lexemeText c cs (reach.chars + 1)
  ⟨reach.chars + 1, reach.breaks, if isDocText text then some (.doc (String.ofList text)) else none⟩

/-- a string literal -/
def stringLexeme (quote : Char) (cs : List Char) : Lexeme :=
  let (n, closed) := stringReach quote cs
  ⟨n, 0, some (.str (String.ofList (cs.take (if closed then n - 1 else n))))⟩

/-- a name -/
def identLexeme (c : Char) (cs : List Char) : Lexeme :=
  let part := cs.takeWhile isIdentPart
  ⟨part.length, 0, some (.ident (String.ofList (c :: part)))⟩

/-- the lexeme at the start of `c :: cs`, behind the token `prev` -/
def lexeme (prev : Option TokenKind) (c : Char) (cs : List Char) : Lexeme :=
  if c = '\n' then ⟨0, 1, none⟩
  else if isBlank c then ⟨0, 0, none⟩
  else if c = '/' && cs.head? == some '/' then ⟨(cs.takeWhile (· ≠ '\n')).length, 0, none⟩
  else if c = '/' && cs.head? == some '*' then commentLexeme c cs
  else if c = '/' && regexAllowed prev then ⟨regexReach false cs, 0, some .regex⟩
  else if c = '"' || c = '\'' then stringLexeme c cs
  else if c = templateQuote then let reach := templateReach 0 cs; ⟨reach.chars, reach.breaks, some .template⟩
  else if c.isDigit || (c = '.' && (cs.head?.map Char.isDigit).getD false) then
    ⟨(cs.takeWhile isNumberPart).length, 0, some .number⟩
  else if isIdentStart c then identLexeme c cs
  else ⟨0, 0, some (.punct c)⟩

/-- the tokens of a text that starts at byte `offset` on line `line`, behind the token `prev` -/
def tokensFrom (prev : Option TokenKind) (offset line : Nat) : List Char → List Token
  | [] => []
  | c :: cs =>
    let lx := lexeme prev c cs
    let stop := offset + Text.byteLength (lexemeText c cs lx.extra)
    match lx.kind with
    | none => tokensFrom prev stop (line + lx.breaks) (cs.drop lx.extra)
    | some kind => ⟨kind, offset, stop, line⟩ :: tokensFrom (some kind) stop (line + lx.breaks) (cs.drop lx.extra)
termination_by cs => cs.length
decreasing_by all_goals simp only [List.length_drop, List.length_cons]; omega

/-- the tokens of a text -/
def tokenize (cs : List Char) : List Token := tokensFrom none 0 0 cs

end ClosurePipeline.Lexer
