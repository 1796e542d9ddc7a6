/-
A text is read without a fault. Its lexemes are found byte by byte and their texts are cut between two bytes; its tokens
are then read by index. No cut is inside a character and no index is beyond the tokens, and what is read is the summary
of the text.

- `lexeme`, `lex`: lexemes by bytes, with the cuts checked; `lexeme_eq`, `lex_eq`: they are those by characters;
- `parse`: the summary of a text; `parse_eq`;
- `ModuleSummary.parse_spanned`: so every text has a summary, and the parts of its declarations lie where the text says,
  one behind the other.
-/
import Mathlib.Tactic
import ClosurePipeline.Proofs.Module.Indexed
import ClosurePipeline.Proofs.Module.Spans
import ClosurePipeline.Proofs.Token.Bytes

namespace ClosurePipeline.Indexed

open Text (byteLength)
open Bytes (byte ascii ofText)

/-! ## Lexemes -/

/-- a block comment at `pos`, behind its slash -/
def commentLexeme (source : List Char) (pos : Nat) (bs : List UInt8) : Except Fault Lexer.Lexeme := do
  let reach := Bytes.comment (bs.drop 1)
  let comment ← text source pos (pos + (reach.bytes + 2))
  .ok ⟨reach.bytes + 1, reach.breaks, if Lexer.isDocText comment then some (.doc (String.ofList comment)) else none⟩

/-- a string at `pos`, behind its quote -/
def stringLexeme (source : List Char) (pos : Nat) (quote : UInt8) (bs : List UInt8) : Except Fault Lexer.Lexeme := do
  let (n, closed) := Bytes.string quote bs
  let value ← text source (pos + 1) (pos + 1 + if closed then n - 1 else n)
  .ok ⟨n, 0, some (.str (String.ofList value))⟩

/-- a name at `pos` -/
def identLexeme (source : List Char) (pos : Nat) (bs : List UInt8) : Except Fault Lexer.Lexeme := do
  let n := min (Bytes.ident bs) bs.length
  let word ← text source pos (pos + n)
  .ok ⟨n - 1, 0, some (.ident (String.ofList word))⟩

/-- the lexeme that starts with byte `b` at `pos`, behind the token `prev`; `extra` counts the bytes behind the first -/
def lexeme (source : List Char) (prev : Option TokenKind) (pos : Nat) (b : UInt8) (bs : List UInt8) :
    Except Fault Lexer.Lexeme :=
  if b = byte '\n' then .ok ⟨0, 1, none⟩
  else if b = byte ' ' ∨ b = byte '\t' ∨ b = byte '\r' then .ok ⟨0, 0, none⟩
  else if b = byte '/' ∧ bs.head? = some (byte '/') then .ok ⟨(bs.takeWhile (· ≠ byte '\n')).length, 0, none⟩
  else if b = byte '/' ∧ bs.head? = some (byte '*') then commentLexeme source pos bs
  else if b = byte '/' ∧ Lexer.regexAllowed prev then .ok ⟨Bytes.regex false bs, 0, some .regex⟩
  else if b = byte '"' ∨ b = byte '\'' then stringLexeme source pos b bs
  else if b = byte Lexer.templateQuote then
    .ok ⟨(Bytes.template 0 bs).bytes, (Bytes.template 0 bs).breaks, some .template⟩
  else if ascii Char.isDigit b ∨ b = byte '.' ∧ bs.head?.any (ascii Char.isDigit) then
    .ok ⟨(bs.takeWhile (ascii Lexer.isNumberPart)).length, 0, some .number⟩
  else if Bytes.isIdentStart b then identLexeme source pos (b :: bs)
  else if b.toNat < 0x80 then .ok ⟨0, 0, some (.punct (Char.ofNat b.toNat))⟩
  else .ok ⟨Bytes.width b - 1, 0, none⟩

/-- the tokens of bytes that start at `pos` on line `line`, behind the token `prev` -/
def lexFrom (source : List Char) (prev : Option TokenKind) (pos line : Nat) (bs : List UInt8) :
    Except Fault (List Token) :=
  match bs with
  | [] => .ok []
  | b :: bs => do
    let lx ← lexeme source prev pos b bs
    let stop := pos + (lx.extra + 1)
    match lx.kind with
    | none => lexFrom source prev stop (line + lx.breaks) (bs.drop lx.extra)
    | some kind =>
      (lexFrom source (some kind) stop (line + lx.breaks) (bs.drop lx.extra)).map (⟨kind, pos, stop, line⟩ :: ·)
termination_by bs.length
decreasing_by all_goals simp only [List.length_drop, List.length_cons]; omega

section

variable {source before cs : List Char} {c : Char} {prev : Option TokenKind}

/-- a cut between two places of a text -/
theorem text_append (before t rest : List Char) :
    text (before ++ (t ++ rest)) (byteLength before) (byteLength before + byteLength t) = .ok t := by
  have hstands : Lexer.StandsAt (before ++ (t ++ rest)) (byteLength before) (byteLength before + byteLength t) t rest :=
    ⟨⟨before, rfl, rfl⟩, rfl⟩
  rw [text, if_pos ⟨Nat.le_add_right _ _, isBoundary_of_onBoundary hstands.onBoundary.1,
    isBoundary_of_onBoundary hstands.onBoundary.2⟩, hstands.slice_eq]

/-- the text of a lexeme is cut between two places -/
theorem text_lexeme (before : List Char) (c : Char) (cs : List Char) (n : Nat) :
    text (before ++ c :: cs) (byteLength before) (byteLength before + byteLength (Lexer.lexemeText c cs n)) =
      .ok (Lexer.lexemeText c cs n) := by
  have hsplit : c :: cs = Lexer.lexemeText c cs n ++ cs.drop n := by
    rw [Lexer.lexemeText, List.cons_append, List.take_append_drop]
  rw [hsplit]
  exact text_append _ _ _

/-- a lexeme that starts with `c`, in bytes -/
def inBytes (c : Char) (cs : List Char) (lx : Lexer.Lexeme) : Lexer.Lexeme :=
  ⟨byteLength (Lexer.lexemeText c cs lx.extra) - 1, lx.breaks, lx.kind⟩

theorem inBytes_of_lt (hc : c.toNat < 0x80) (cs : List Char) (lx : Lexer.Lexeme) :
    inBytes c cs lx = ⟨byteLength (cs.take lx.extra), lx.breaks, lx.kind⟩ := by
  rw [inBytes, Lexer.lexemeText, Text.byteLength_cons, Bytes.utf8Size_of_lt hc, Nat.add_sub_cancel_left]

/-- the value of a closed string ends in front of its quote -/
theorem take_stringReach {quote : Char} (hq : quote = '"' ∨ quote = '\'') (cs : List Char)
    (hclosed : (Lexer.stringReach quote cs).2 = true) :
    cs.take (Lexer.stringReach quote cs).1 = cs.take ((Lexer.stringReach quote cs).1 - 1) ++ [quote] := by
  have hplain : quote ≠ '\\' ∧ quote ≠ '\n' := by rcases hq with rfl | rfl <;> decide
  obtain ⟨v, tail, rfl, hv, hstop⟩ := Lexer.exists_inside quote cs
  rw [Lexer.stringReach_inside hv] at hclosed ⊢
  cases hstop with
  | closed rest =>
    have hreach : Lexer.stringReach quote (quote :: rest) = (1, true) := by
      rw [Lexer.stringReach] <;> simp [hplain.1, hplain.2]
    have hsplit : v ++ quote :: rest = (v ++ [quote]) ++ rest := by simp
    have htake : (v ++ quote :: rest).take (1 + v.length) = v ++ [quote] := by
      rw [hsplit]
      exact List.take_left' (by simp [Nat.add_comm])
    have hvalue : (v ++ quote :: rest).take (1 + v.length - 1) = v := List.take_left' (by omega)
    simp only [hreach, htake, hvalue]
  | lineEnd rest =>
    have hreach : Lexer.stringReach quote ('\n' :: rest) = (0, false) := by rw [Lexer.stringReach] <;> simp
    rw [hreach] at hclosed
    cases hclosed
  | textEnd => cases hclosed
  | escapedEnd => cases hclosed

/-- **A block comment by bytes.** -/
theorem commentLexeme_eq (before ds : List Char) :
    commentLexeme (before ++ '/' :: '*' :: ds) (byteLength before) (ofText ('*' :: ds)) =
    .ok (inBytes '/' ('*' :: ds) (Lexer.commentLexeme '/' ('*' :: ds))) := by
  have hreach : Bytes.comment ((ofText ('*' :: ds)).drop 1) = .of (Lexer.commentReach ds) ds := Bytes.comment_ofText ds
  have hbytes : byteLength (ds.take (Lexer.commentReach ds).chars) + 2 =
      byteLength (Lexer.lexemeText '/' ('*' :: ds) ((Lexer.commentReach ds).chars + 1)) := by
    rw [Lexer.lexemeText, List.take_succ_cons, Text.byteLength_cons, Text.byteLength_cons,
      Bytes.utf8Size_of_lt (by decide), Bytes.utf8Size_of_lt (by decide)]
    omega
  have hextra : byteLength (ds.take (Lexer.commentReach ds).chars) + 1 =
      byteLength (Lexer.lexemeText '/' ('*' :: ds) ((Lexer.commentReach ds).chars + 1)) - 1 := by omega
  rw [commentLexeme, hreach]
  simp only [Bytes.Reach.of, hbytes, hextra, text_lexeme, ok_bind, inBytes, Lexer.commentLexeme, List.drop_succ_cons,
    List.drop_zero]

/-- **A string by bytes.** -/
theorem stringLexeme_eq {quote : Char} (hq : quote = '"' ∨ quote = '\'') (before cs : List Char) :
    stringLexeme (before ++ quote :: cs) (byteLength before) (byte quote) (ofText cs) =
      .ok (inBytes quote cs (Lexer.stringLexeme quote cs)) := by
  have hascii : quote.toNat < 0x80 := by rcases hq with rfl | rfl <;> decide
  -- the value ends in front of the quote that closes the string, if one does
  have hvalue : ∀ closed, (Lexer.stringReach quote cs).2 = closed →
      (if closed then byteLength (cs.take (Lexer.stringReach quote cs).1) - 1
        else byteLength (cs.take (Lexer.stringReach quote cs).1)) =
        byteLength
          (cs.take (if closed then (Lexer.stringReach quote cs).1 - 1 else (Lexer.stringReach quote cs).1)) := by
    rintro (- | -) hclosed
    · rfl
    · simp only [if_true]
      rw [take_stringReach hq cs hclosed, Text.byteLength_append, Text.byteLength_cons, Bytes.utf8Size_of_lt hascii]
      rfl
  have hcut : ∀ k, text (before ++ quote :: cs) (byteLength before + 1)
      (byteLength before + 1 + byteLength (cs.take k)) = .ok (cs.take k) := by
    intro k
    have hall := text_append (before ++ [quote]) (cs.take k) (cs.drop k)
    rwa [List.take_append_drop, List.append_assoc, List.singleton_append, Text.byteLength_append, Text.byteLength_cons,
      Bytes.utf8Size_of_lt hascii] at hall
  rw [stringLexeme, Bytes.string_ofText hascii, inBytes_of_lt hascii, Lexer.stringLexeme]
  dsimp only
  rw [hvalue _ rfl, hcut, ok_bind]

/-- **A name by bytes.** -/
theorem identLexeme_eq (hc : Lexer.isIdentPart c = true) (before cs : List Char) :
    identLexeme (before ++ c :: cs) (byteLength before) (ofText (c :: cs)) =
      .ok (inBytes c cs (Lexer.identLexeme c cs)) := by
  have hword :
      (c :: cs).takeWhile Lexer.isIdentPart = Lexer.lexemeText c cs (cs.takeWhile Lexer.isIdentPart).length := by
    rw [List.takeWhile_cons_of_pos hc, Lexer.lexemeText, Lexer.take_length_takeWhile]
  have hle : Bytes.ident (ofText (c :: cs)) ≤ (ofText (c :: cs)).length := by
    have hall : byteLength ((c :: cs).takeWhile Lexer.isIdentPart ++ (c :: cs).dropWhile Lexer.isIdentPart) =
        (ofText (c :: cs)).length := by
      rw [List.takeWhile_append_dropWhile, Bytes.length_ofText]
    rw [Text.byteLength_append] at hall
    rw [Bytes.ident_ofText]
    omega
  rw [identLexeme, Nat.min_eq_left hle, Bytes.ident_ofText, hword, text_lexeme, ok_bind, inBytes, Lexer.identLexeme]
  dsimp only
  rw [Lexer.lexemeText, Lexer.take_length_takeWhile]

/-- **A lexeme by bytes,** if it starts with an ASCII character. -/
theorem lexeme_ascii (hc : c.toNat < 0x80) (before : List Char) (prev : Option TokenKind) (cs : List Char) :
    lexeme (before ++ c :: cs) prev (byteLength before) (byte c) (ofText cs) =
      .ok (inBytes c cs (Lexer.lexeme prev c cs)) := by
  have hbyte : ∀ {d : Char}, d.toNat < 0x80 → (byte c = byte d ↔ c = d) := Bytes.byte_eq_iff hc
  have hhead : ∀ {d : Char}, d.toNat < 0x80 → ((ofText cs).head? = some (byte d) ↔ cs.head? = some d) :=
    Bytes.head?_ofText
  simp only [lexeme, Lexer.lexeme, apply_ite (inBytes c cs),
    apply_ite (Except.ok : Lexer.Lexeme → Except Fault Lexer.Lexeme)]
  -- the two lexers decide in one order, so each decision is settled once for both
  -- line breaks and blanks
  refine ite_congr (propext (hbyte (by decide))) (fun _ => by rw [inBytes_of_lt hc]; rfl) fun hline => ?_
  refine ite_congr (propext ?_) (fun _ => by rw [inBytes_of_lt hc]; rfl) fun _ => ?_
  · rw [hbyte (by decide), hbyte (by decide), hbyte (by decide)]
    simp [Lexer.isBlank, hline, or_assoc]
  -- comments
  refine ite_congr (propext ?_)
    (fun _ => by rw [inBytes_of_lt hc, Lexer.take_length_takeWhile, Bytes.length_takeWhile_line]) fun _ => ?_
  · rw [hbyte (by decide), hhead (by decide)]
    simp
  refine ite_congr (propext ?_) (fun hcomment => ?_) fun _ => ?_
  · rw [hbyte (by decide), hhead (by decide)]
    simp
  · obtain ⟨rfl, hstar⟩ : c = '/' ∧ cs.head? = some '*' := by simpa using hcomment
    obtain ⟨ds, rfl⟩ := List.head?_eq_some_iff.1 hstar
    exact commentLexeme_eq before ds
  -- regular expressions, strings and templates
  refine ite_congr (propext ?_) (fun _ => by rw [inBytes_of_lt hc, Bytes.regex_ofText]) fun _ => ?_
  · rw [hbyte (by decide)]
    simp
  refine ite_congr (propext ?_) (fun hquote => stringLexeme_eq (by simpa using hquote) before cs) fun _ => ?_
  · rw [hbyte (by decide), hbyte (by decide)]
    simp
  refine ite_congr (propext (hbyte (by decide)))
    (fun _ => by rw [inBytes_of_lt hc, Bytes.template_ofText]; rfl) fun _ => ?_
  -- numbers and names
  refine ite_congr (propext ?_)
    (fun _ => by rw [inBytes_of_lt hc, Lexer.take_length_takeWhile, Bytes.length_takeWhile_number]) fun _ => ?_
  · rw [hbyte (by decide), Bytes.any_isDigit_head?_ofText, Bytes.ascii_byte _ hc]
    cases cs <;> simp
  refine ite_congr (propext ?_) (fun hident => ?_) fun _ => ?_
  · rw [Bytes.isIdentStart_byte hc]
  · have hname := identLexeme_eq (c := c) (by rw [Lexer.isIdentPart, hident, Bool.true_or]) before cs
    rwa [Bytes.ofText_cons, Bytes.encode_of_lt hc] at hname
  -- what is left is punctuation: it is one byte, so it is not passed over
  rw [Bytes.toNat_byte hc, if_pos hc, Char.ofNat_toNat, inBytes_of_lt hc]
  rfl

/-- **A lexeme by bytes** is the lexeme by characters. -/
theorem lexeme_eq (before : List Char) (prev : Option TokenKind) (c : Char) (cs : List Char) :
    ∃ b bs, ofText (c :: cs) = b :: bs ∧
    lexeme (before ++ c :: cs) prev (byteLength before) b bs = .ok (inBytes c cs (Lexer.lexeme prev c cs)) := by
  rcases Nat.lt_or_ge c.toNat 0x80 with hc | hc
  · exact ⟨byte c, ofText cs, by rw [Bytes.ofText_cons, Bytes.encode_of_lt hc]; rfl, lexeme_ascii hc before prev cs⟩
  · obtain ⟨b, w, hencode, hb, -, -⟩ := Bytes.encode_of_le hc
    have hbytes : ofText (c :: cs) = b :: (w ++ ofText cs) := by rw [Bytes.ofText_cons, hencode, List.cons_append]
    have hstart : Lexer.isIdentStart c = true := by simp [Lexer.isIdentStart, hc]
    -- all that is no name starts with an ASCII character
    have hlexeme : Lexer.lexeme prev c cs = Lexer.identLexeme c cs := (Lexer.Lexed.name hstart).eq
    refine ⟨b, w ++ ofText cs, hbytes, ?_⟩
    have hname := identLexeme_eq (c := c) (by rw [Lexer.isIdentPart, hstart, Bool.true_or]) before cs
    rw [hbytes] at hname
    simp [lexeme, hb.ne_byte, hb.ascii_eq_false, hb.isIdentStart, hlexeme, hname,
      show Lexer.templateQuote.toNat < 0x80 by decide]

end

/-! ## Tokens -/

section

variable {source : List Char}

/-- **The tokens of a text by bytes** are those by characters. -/
theorem lexFrom_eq (prev : Option TokenKind) (cs : List Char) :
    ∀ (before : List Char) (line : Nat), source = before ++ cs →
    lexFrom source prev (byteLength before) line (ofText cs) =
      .ok (Lexer.tokensFrom prev (byteLength before) line cs) := by
  -- lexeme by lexeme: `before` is what was cut off in front, and its bytes are the position
  induction prev, cs using Lexer.lexemes_induction with
  | nil prev =>
    intro before line _
    rw [Bytes.ofText_nil, lexFrom, Lexer.tokensFrom]
  | cons prev c cs rest n kind hlex ih =>
    rintro before line rfl
    obtain ⟨b, bs, hbytes, hlexeme⟩ := lexeme_eq before prev c (cs ++ rest)
    have hwidth : byteLength (c :: cs) - 1 + 1 = byteLength (c :: cs) := by
      have hpos := c.utf8Size_pos
      rw [Text.byteLength_cons]
      omega
    have hbehind : bs.drop (byteLength (c :: cs) - 1) = ofText rest := by
      rw [← List.drop_succ_cons (a := b), hwidth, ← hbytes, ← List.cons_append, Bytes.ofText_append,
        ← Bytes.length_ofText, List.drop_left]
    have hrest := ih (before ++ (c :: cs)) (line + n) (by simp)
    rw [Text.byteLength_append] at hrest
    have htext : Lexer.lexemeText c (cs ++ rest) cs.length = c :: cs := by rw [Lexer.lexemeText, List.take_left]
    rw [hbytes, lexFrom, hlexeme, ok_bind, hlex, inBytes, htext]
    dsimp only
    rw [hwidth, hbehind]
    cases kind with
    | none => exact hrest.trans (congrArg Except.ok (Lexer.tokensFrom_of_none cs rest hlex _ _).symm)
    | some kind =>
      dsimp only
      rw [show some kind = (some kind).or prev from rfl, hrest, Lexer.tokensFrom_of_some cs rest hlex]
      rfl

/-- the tokens of a text, by its bytes -/
def lex (source : List Char) : Except Fault (List Token) := lexFrom source none 0 0 (ofText source)

theorem lex_eq (source : List Char) : lex source = .ok (Lexer.tokenize source) := lexFrom_eq none source [] 0 rfl

/-- the summary of a text, its bytes and tokens read by index -/
def parse (text : String) : Except Fault ModuleSummary := do
  let ts ← lex text.toList
  scan text.toList ts

/-- **Every text is read without a fault,** and what is read is its summary. -/
theorem parse_eq (text : String) : parse text = .ok (ModuleSummary.ofText text) := by
  rw [parse, lex_eq, ok_bind, scan_eq]
  rfl

end

end ClosurePipeline.Indexed

namespace ClosurePipeline.ModuleSummary

/-- **Every text is read without a fault, and its declarations stand where their spans say.** No index is beyond the
tokens and no cut inside a character, whatever the text is. Declarations come one behind the other, each with a whole
comment in front of its start, decorators behind it and a body in braces behind these. -/
theorem parse_spanned (text : String) :
    Indexed.parse text = .ok (ofText text) ∧ (ofText text).declarations.Pairwise Declaration.Precedes ∧
    ∀ d ∈ (ofText text).declarations, d.Spanned text.toList :=
  ⟨Indexed.parse_eq text, pairwise_precedes text, fun _ => spanned_of_mem⟩

end ClosurePipeline.ModuleSummary
