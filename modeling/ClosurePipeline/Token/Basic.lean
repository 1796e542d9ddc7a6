/-
Tokens of a module's text. Only what the summary of a module needs is told apart: names, strings, single characters and
doc comments carry their text; numbers, templates and regular expressions are opaque, so nothing inside them is taken
for code.
-/

namespace ClosurePipeline

/-- what a token is -/
inductive TokenKind where
  /-- a name or keyword -/
  | ident (name : String)
  /-- a string literal without its quotes, escapes as written -/
  | str (value : String)
  | template
  | number
  | regex
  /-- any other single ASCII character -/
  | punct (c : Char)
  /-- a `/** */` comment, delimiters included -/
  | doc (text : String)
deriving DecidableEq, Repr

/-- a token with its byte range and the line it starts on -/
structure Token where
  kind : TokenKind
  start : Nat
  stop : Nat
  line : Nat
deriving DecidableEq, Repr

namespace Token

/-- the name, if the token is one -/
def ident? (t : Token) : Option String :=
  match t.kind with
  | .ident s => some s
  | _ => none

/-- the value, if the token is a string -/
def str? (t : Token) : Option String :=
  match t.kind with
  | .str s => some s
  | _ => none

/-- the text of a name or string -/
def name? (t : Token) : Option String := t.ident?.or t.str?

/-- the token is the word `w` -/
def isIdent (t : Token) (w : String) : Bool := t.ident? == some w

/-- the token is the character `c` -/
def isPunct (t : Token) (c : Char) : Bool := t.kind == .punct c

/-- the token is a doc comment -/
def isDoc (t : Token) : Bool :=
  match t.kind with
  | .doc _ => true
  | _ => false

end Token

end ClosurePipeline
