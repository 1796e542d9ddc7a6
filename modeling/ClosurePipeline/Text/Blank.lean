/-
White space. Two classes are in use and they differ: the Unicode property `White_Space` (trimming, words of a doc
comment) and the six ASCII blanks (the pattern that finds `require` calls). The lexer has a third, smaller one of its
own.
-/

namespace ClosurePipeline.Text

/-- the Unicode property `White_Space` -/
def isBlank (c : Char) : Bool :=
  let n := c.toNat
  (9 ≤ n && n ≤ 13) || n == 0x20 || n == 0x85 || n == 0xA0 || n == 0x1680 || (0x2000 ≤ n && n ≤ 0x200A) ||
    n == 0x2028 || n == 0x2029 || n == 0x202F || n == 0x205F || n == 0x3000

/-- tab, line feed, vertical tab, form feed, carriage return, space -/
def isAsciiBlank (c : Char) : Bool := (9 ≤ c.toNat && c.toNat ≤ 13) || c.toNat == 0x20

/-- a text without its trailing characters in `p` -/
def trimEndOf (p : Char → Bool) (cs : List Char) : List Char := (cs.reverse.dropWhile p).reverse

/-- a text without trailing blanks -/
def trimEnd (cs : List Char) : List Char := trimEndOf isBlank cs

/-- a text without blanks at either end -/
def trim (cs : List Char) : List Char := trimEnd (cs.dropWhile isBlank)

/-- nothing but blanks -/
def isAllBlank (cs : List Char) : Bool := cs.all isBlank

end ClosurePipeline.Text
