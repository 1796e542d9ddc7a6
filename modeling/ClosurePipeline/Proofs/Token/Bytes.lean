/-
Lexemes by bytes. How far a lexeme goes is said once more for the bytes of a text, which are passed one by one: a
backslash takes one byte with it, also if that is the first of several of a character, and what is left of the character
is passed like other text. The end is the same as by characters.

- `ofText`, `byte`, `Wide`: the bytes of a text; those of a character beyond ASCII are all wide;
- `comment`, `string`, `template`, `regex`, `ident`: lexemes by bytes;
- each of them goes as far as the lexeme by characters: `comment_ofText`, `string_ofText`, `template_ofText`,
  `regex_ofText`, `ident_ofText`, and for stretches of one class of bytes `length_takeWhile_ofText`.
-/
import Mathlib.Tactic
import Mathlib.Data.List.TakeWhile
import ClosurePipeline.Proofs.Token.Lexemes

namespace ClosurePipeline.Bytes

open Text (byteLength)

/-! ## The bytes of a text -/

/-- the bytes of a text -/
def ofText (cs : List Char) : List UInt8 := cs.flatMap String.utf8EncodeChar

/-- the byte of an ASCII character -/
def byte (c : Char) : UInt8 := UInt8.ofNat c.toNat

/-- a byte of a character beyond ASCII -/
def Wide (b : UInt8) : Prop := 0x80 ≤ b.toNat

/-- how many bytes a character has, by its first one -/
def width (b : UInt8) : Nat :=
  if 0xF0 ≤ b.toNat then 4 else if 0xE0 ≤ b.toNat then 3 else if 0xC0 ≤ b.toNat then 2 else 1

/-- a byte of an ASCII character of a class -/
def ascii (p : Char → Bool) (b : UInt8) : Bool := decide (b.toNat < 0x80) && p (Char.ofNat b.toNat)

section

variable {c d : Char} {cs : List Char} {b : UInt8} {w bs : List UInt8}

@[simp] theorem ofText_nil : ofText [] = [] := rfl

@[simp] theorem ofText_cons (c : Char) (cs : List Char) : ofText (c :: cs) = String.utf8EncodeChar c ++ ofText cs := rfl

theorem ofText_append (cs ds : List Char) : ofText (cs ++ ds) = ofText cs ++ ofText ds := List.flatMap_append

theorem length_ofText (cs : List Char) : (ofText cs).length = byteLength cs := by
  induction cs with
  | nil => rfl
  | cons c cs ih => rw [ofText_cons, List.length_append, ih, String.length_utf8EncodeChar, Text.byteLength_cons]

theorem toNat_byte (hc : c.toNat < 0x80) : (byte c).toNat = c.toNat := by
  rw [byte, UInt8.toNat_ofNat']
  omega

theorem byte_eq_iff (hc : c.toNat < 0x80) (hd : d.toNat < 0x80) : byte c = byte d ↔ c = d := by
  rw [← UInt8.toNat_inj, toNat_byte hc, toNat_byte hd]
  exact Char.toNat_inj

theorem Wide.ne_byte (h : Wide b) (hd : d.toNat < 0x80) : b ≠ byte d := by
  rintro rfl
  rw [Wide, toNat_byte hd] at h
  omega

theorem ascii_byte (p : Char → Bool) (hc : c.toNat < 0x80) : ascii p (byte c) = p c := by
  rw [ascii, toNat_byte hc, Char.ofNat_toNat]
  simp [hc]

theorem Wide.ascii_eq_false (h : Wide b) (p : Char → Bool) : ascii p b = false := by
  have hnot : ¬ b.toNat < 0x80 := Nat.not_lt.2 h
  simp [ascii, hnot]

/-- the bytes of an ASCII character: one, which is the character itself -/
theorem encode_of_lt (hc : c.toNat < 0x80) : String.utf8EncodeChar c = [byte c] := by
  have hval : c.val.toNat ≤ 127 := by
    change c.val.toNat < 0x80 at hc
    omega
  simp only [String.utf8EncodeChar, hval, if_true]
  rfl

theorem utf8Size_of_lt (hc : c.toNat < 0x80) :
    c.utf8Size = 1 := by rw [← String.length_utf8EncodeChar, encode_of_lt hc, List.length_singleton]

/-- the bytes of another character: they are wide, and the first one says how many there are -/
theorem encode_of_le (hc : 0x80 ≤ c.toNat) :
    ∃ b w, String.utf8EncodeChar c = b :: w ∧ Wide b ∧ (∀ a ∈ w, Wide a) ∧ width b = w.length + 1 := by
  have hval : ¬ c.val.toNat ≤ 127 := by
    change 0x80 ≤ c.val.toNat at hc
    omega
  have hwide : ∀ n, Wide (UInt8.ofNat (n % 64 + 128)) := by
    intro n
    rw [Wide, UInt8.toNat_ofNat']
    omega
  have hfirst : ∀ {n : Nat}, n < 256 → (UInt8.ofNat n).toNat = n :=
    fun h => by rw [UInt8.toNat_ofNat', Nat.mod_eq_of_lt h]
  simp only [String.utf8EncodeChar, hval, if_false]
  generalize c.val.toNat = v
  -- two, three or four bytes
  split_ifs
  · have htwo : (UInt8.ofNat (v / 64 % 32 + 192)).toNat = v / 64 % 32 + 192 := hfirst (by omega)
    refine ⟨_, _, rfl, by rw [Wide, htwo]; omega, List.forall_mem_singleton.2 (hwide _), ?_⟩
    rw [width, htwo, if_neg (by omega), if_neg (by omega), if_pos (by omega)]
    rfl
  · have hthree : (UInt8.ofNat (v / 4096 % 16 + 224)).toNat = v / 4096 % 16 + 224 := hfirst (by omega)
    refine ⟨_, _, rfl, by rw [Wide, hthree]; omega,
      List.forall_mem_cons.2 ⟨hwide _, List.forall_mem_singleton.2 (hwide _)⟩, ?_⟩
    rw [width, hthree, if_neg (by omega), if_pos (by omega)]
    rfl
  · have hfour : (UInt8.ofNat (v / 262144 % 8 + 240)).toNat = v / 262144 % 8 + 240 := hfirst (by omega)
    refine ⟨_, _, rfl, by rw [Wide, hfour]; omega,
      List.forall_mem_cons.2 ⟨hwide _, List.forall_mem_cons.2 ⟨hwide _, List.forall_mem_singleton.2 (hwide _)⟩⟩, ?_⟩
    rw [width, hfour, if_pos (by omega)]
    rfl

theorem utf8Size_of_encode (h : String.utf8EncodeChar c = b :: w) : c.utf8Size = w.length + 1 := by
  rw [← String.length_utf8EncodeChar, h, List.length_cons]

/-- a character beyond ASCII is no ASCII character -/
theorem ne_of_le_of_lt (hc : 0x80 ≤ c.toNat) (hd : d.toNat < 0x80) : c ≠ d := by
  rintro rfl
  omega

/-- the bytes of a character are all wide or the character itself -/
theorem encode_cases (c : Char) :
    c.toNat < 0x80 ∧ String.utf8EncodeChar c = [byte c] ∨ 0x80 ≤ c.toNat ∧ ∀ b ∈ String.utf8EncodeChar c, Wide b := by
  rcases Nat.lt_or_ge c.toNat 0x80 with hc | hc
  · exact Or.inl ⟨hc, encode_of_lt hc⟩
  · obtain ⟨b, w, hencode, hb, hw, -⟩ := encode_of_le hc
    exact Or.inr ⟨hc, hencode ▸ List.forall_mem_cons.2 ⟨hb, hw⟩⟩

/-- a character beyond ASCII is no letter and no digit -/
theorem isAlphanum_eq_false (hc : 0x80 ≤ c.toNat) : c.isAlpha = false ∧ c.isDigit = false := by
  constructor
  · rw [Bool.eq_false_iff, Ne, Lexer.isAlpha_iff]
    omega
  · rw [Bool.eq_false_iff, Ne, Lexer.isDigit_iff]
    omega

/-- a character that a reader does not take for an escape is no backslash -/
theorem ne_backslash (hnil : c = '\\' → cs = [] → False) (hcons : ∀ d ds, c = '\\' → cs = d :: ds → False) :
    c ≠ '\\' := by
  rintro rfl
  cases cs with
  | nil => exact hnil rfl rfl
  | cons d ds => exact hcons d ds rfl rfl

/-- what a text starts with -/
theorem head?_ofText (hd : d.toNat < 0x80) : (ofText cs).head? = some (byte d) ↔ cs.head? = some d := by
  cases cs with
  | nil => simp
  | cons c cs =>
    rcases Nat.lt_or_ge c.toNat 0x80 with hc | hc
    · simp [encode_of_lt hc, byte_eq_iff hc hd]
    · obtain ⟨b, w, hencode, hb, -, -⟩ := encode_of_le hc
      simp [hencode, hb.ne_byte hd, ne_of_le_of_lt hc hd]

/-- a text starts with a digit -/
theorem any_isDigit_head?_ofText (cs : List Char) :
    (ofText cs).head?.any (ascii Char.isDigit) = cs.head?.any Char.isDigit := by
  cases cs with
  | nil => rfl
  | cons d ds =>
    rcases Nat.lt_or_ge d.toNat 0x80 with hd | hd
    · simp [encode_of_lt hd, ascii_byte _ hd]
    · obtain ⟨b, w, hencode, hb, -, -⟩ := encode_of_le hd
      simp [hencode, hb.ascii_eq_false, (isAlphanum_eq_false hd).2]

/-- a stretch of one class of bytes is a stretch of characters -/
theorem length_takeWhile_ofText {p : Char → Bool} {q : UInt8 → Bool} (hascii : ∀ c, c.toNat < 0x80 → q (byte c) = p c)
    (hwide : ∀ c b, 0x80 ≤ c.toNat → Wide b → q b = p c) (cs : List Char) :
    ((ofText cs).takeWhile q).length = byteLength (cs.takeWhile p) := by
  induction cs with
  | nil => rfl
  | cons c cs ih =>
    rw [ofText_cons]
    cases hp : p c with
    | true =>
      have hall : ∀ b ∈ String.utf8EncodeChar c, q b = true := by
        rcases encode_cases c with ⟨hc, hencode⟩ | ⟨hc, hencode⟩
        · rw [hencode]
          exact List.forall_mem_singleton.2 ((hascii c hc).trans hp)
        · exact fun b hb => (hwide c b hc (hencode b hb)).trans hp
      rw [List.takeWhile_append_of_pos hall, List.length_append, ih, List.takeWhile_cons_of_pos hp,
        Text.byteLength_cons, String.length_utf8EncodeChar]
    | false =>
      have hfirst : ∃ b w, String.utf8EncodeChar c = b :: w ∧ q b = false := by
        rcases Nat.lt_or_ge c.toNat 0x80 with hc | hc
        · exact ⟨_, _, encode_of_lt hc, (hascii c hc).trans hp⟩
        · obtain ⟨b, w, hencode, hb, -, -⟩ := encode_of_le hc
          exact ⟨b, w, hencode, (hwide c b hc hb).trans hp⟩
      obtain ⟨b, w, hencode, hb⟩ := hfirst
      rw [hencode, List.cons_append, List.takeWhile_cons_of_neg (by simp [hb]),
        List.takeWhile_cons_of_neg (by simp [hp])]
      rfl

/-- the rest of a line -/
theorem length_takeWhile_line (cs : List Char) :
    ((ofText cs).takeWhile (· ≠ byte '\n')).length = byteLength (cs.takeWhile (· ≠ '\n')) := by
  refine length_takeWhile_ofText (fun d hd => ?_) (fun d b hd hb => ?_) cs
  · simp [byte_eq_iff hd (show '\n'.toNat < 0x80 by decide)]
  · simp [hb.ne_byte (show '\n'.toNat < 0x80 by decide), ne_of_le_of_lt hd (show '\n'.toNat < 0x80 by decide)]

/-- the rest of a number -/
theorem length_takeWhile_number (cs : List Char) :
    ((ofText cs).takeWhile (ascii Lexer.isNumberPart)).length = byteLength (cs.takeWhile Lexer.isNumberPart) := by
  refine length_takeWhile_ofText (fun d hd => ascii_byte _ hd) (fun d b hd hb => ?_) cs
  simp [hb.ascii_eq_false, Lexer.isNumberPart, Char.isAlphanum, isAlphanum_eq_false hd,
    ne_of_le_of_lt hd (show '.'.toNat < 0x80 by decide), ne_of_le_of_lt hd (show '_'.toNat < 0x80 by decide)]

end

/-! ## Block comments -/

/-- how far a lexeme goes: its bytes, and the line breaks that count -/
structure Reach where
  bytes : Nat
  breaks : Nat
deriving DecidableEq, Repr

/-- a reach with more in front of it -/
def Reach.add (r : Reach) (bytes breaks : Nat) : Reach := ⟨r.bytes + bytes, r.breaks + breaks⟩

/-- a reach in characters of `cs`, in bytes -/
def Reach.of (r : Lexer.Reach) (cs : List Char) : Reach := ⟨byteLength (cs.take r.chars), r.breaks⟩

/-- the rest of a block comment, behind its opening -/
def comment : List UInt8 → Reach
  | [] => ⟨0, 0⟩
  | b :: bs =>
    if b = byte '*' ∧ bs.head? = some (byte '/') then ⟨2, 0⟩ else (comment bs).add 1 (if b = byte '\n' then 1 else 0)

section

theorem Reach.add_add (r : Reach) (m n k l : Nat) : (r.add m k).add n l = r.add (m + n) (k + l) := by
  simp [Reach.add, Nat.add_assoc]

theorem Reach.of_add (r : Lexer.Reach) (c : Char) (cs : List Char) (n : Nat) :
    Reach.of (r.add 1 n) (c :: cs) = (Reach.of r cs).add c.utf8Size n := by
  simp [Reach.of, Reach.add, Lexer.Reach.add, Nat.add_comm]

theorem Reach.of_add_two (r : Lexer.Reach) {c : Char} (hc : c.toNat < 0x80) (d : Char) (cs : List Char) :
    Reach.of (r.add 2 0) (c :: d :: cs) = (Reach.of r cs).add (d.utf8Size + 1) 0 := by
  simp only [Reach.of, Reach.add, Lexer.Reach.add, List.take_succ_cons, Text.byteLength_cons, utf8Size_of_lt hc,
    Reach.mk.injEq, and_true]
  omega

theorem comment_wide {w : List UInt8} (hw : ∀ b ∈ w, Wide b) (bs : List UInt8) :
    comment (w ++ bs) = (comment bs).add w.length 0 := by
  induction w with
  | nil => rfl
  | cons b w ih =>
    obtain ⟨hb, hw⟩ := List.forall_mem_cons.1 hw
    have hstar : b ≠ byte '*' := hb.ne_byte (by decide)
    have hbreak : b ≠ byte '\n' := hb.ne_byte (by decide)
    rw [List.cons_append, comment, if_neg (fun h => hstar h.1), if_neg hbreak, ih hw, Reach.add_add, List.length_cons]

/-- **A block comment goes as far by bytes as by characters.** -/
theorem comment_ofText (cs : List Char) : comment (ofText cs) = .of (Lexer.commentReach cs) cs := by
  fun_induction Lexer.commentReach cs with
  | case1 => rfl
  | case2 cs => rfl
  | case3 c cs hopen ih =>
    rw [Reach.of_add, ← ih, ofText_cons]
    rcases encode_cases c with ⟨hc, hencode⟩ | ⟨hc, hencode⟩
    · have hno : ¬ (byte c = byte '*' ∧ (ofText cs).head? = some (byte '/')) := by
        rw [byte_eq_iff hc (by decide), head?_ofText (by decide)]
        rintro ⟨hstar, hslash⟩
        obtain ⟨ds, hds⟩ := List.head?_eq_some_iff.1 hslash
        exact hopen ds hstar hds
      rw [hencode, List.singleton_append, comment, if_neg hno, utf8Size_of_lt hc]
      simp only [byte_eq_iff hc (show '\n'.toNat < 0x80 by decide)]
    · rw [comment_wide hencode, String.length_utf8EncodeChar, if_neg (ne_of_le_of_lt hc (by decide))]

end

/-! ## Strings -/

/-- the rest of a string behind its opening quote, and whether it is closed -/
def string (quote : UInt8) : List UInt8 → Nat × Bool
  | [] => (0, false)
  | b :: bs =>
    if b = byte '\\' then
      match bs with
      | [] => (1, false)
      | _ :: bs => let (n, closed) := string quote bs; (n + 2, closed)
    else if b = byte '\n' then (0, false)
    else if b = quote then (1, true)
    else let (n, closed) := string quote bs; (n + 1, closed)

section

variable {quote : Char}

theorem string_plain {b : UInt8} (hback : b ≠ byte '\\') (hline : b ≠ byte '\n') (hquote : b ≠ byte quote)
    (bs : List UInt8) :
    string (byte quote) (b :: bs) = ((string (byte quote) bs).1 + 1, (string (byte quote) bs).2) := by
  rw [string.eq_def]
  dsimp only
  rw [if_neg hback, if_neg hline, if_neg hquote]

theorem string_wide (hq : quote.toNat < 0x80) {w : List UInt8} (hw : ∀ b ∈ w, Wide b) (bs : List UInt8) :
    string (byte quote) (w ++ bs) = ((string (byte quote) bs).1 + w.length, (string (byte quote) bs).2) := by
  induction w with
  | nil => rfl
  | cons b w ih =>
    obtain ⟨hb, hw⟩ := List.forall_mem_cons.1 hw
    rw [List.cons_append, string_plain (hb.ne_byte (by decide)) (hb.ne_byte (by decide)) (hb.ne_byte hq), ih hw,
      List.length_cons, Nat.add_assoc]

theorem string_char (hq : quote.toNat < 0x80) {c : Char} (hback : c ≠ '\\') (hline : c ≠ '\n') (hquote : c ≠ quote)
    (bs : List UInt8) :
    string (byte quote) (String.utf8EncodeChar c ++ bs) =
      ((string (byte quote) bs).1 + c.utf8Size, (string (byte quote) bs).2) := by
  rcases encode_cases c with ⟨hc, hencode⟩ | ⟨-, hencode⟩
  · rw [hencode, utf8Size_of_lt hc]
    exact string_plain (by rwa [ne_eq, byte_eq_iff hc (by decide)]) (by rwa [ne_eq, byte_eq_iff hc (by decide)])
      (by rwa [ne_eq, byte_eq_iff hc hq]) bs
  · rw [string_wide hq hencode, String.length_utf8EncodeChar]

/-- a backslash takes the first byte of a character with it, and the rest of the character is passed -/
theorem string_escape (hq : quote.toNat < 0x80) (c : Char) (bs : List UInt8) :
    string (byte quote) (byte '\\' :: (String.utf8EncodeChar c ++ bs)) =
    ((string (byte quote) bs).1 + (c.utf8Size + 1), (string (byte quote) bs).2) := by
  rcases Nat.lt_or_ge c.toNat 0x80 with hc | hc
  · rw [encode_of_lt hc, utf8Size_of_lt hc]
    rfl
  · obtain ⟨b, w, hencode, -, hw, -⟩ := encode_of_le hc
    rw [hencode, List.cons_append, string, if_pos rfl, utf8Size_of_encode hencode]
    simp only [string_wide hq hw, Nat.add_assoc]

/-- **A string goes as far by bytes as by characters.** -/
theorem string_ofText (hq : quote.toNat < 0x80) (cs : List Char) : string (byte quote) (ofText cs) =
    (byteLength (cs.take (Lexer.stringReach quote cs).1), (Lexer.stringReach quote cs).2) := by
  fun_induction Lexer.stringReach quote cs with
  | case1 => rfl
  | case2 => rfl
  | case3 c cs n closed hr ih =>
    rw [hr] at ih
    rw [ofText_cons, ofText_cons, encode_of_lt (by decide), List.singleton_append, string_escape hq, ih]
    simp [show '\\'.utf8Size = 1 by decide]
    omega
  | case4 cs =>
    rw [ofText_cons, encode_of_lt (by decide), List.singleton_append, string.eq_def]
    dsimp only
    rw [if_neg (by decide), if_pos rfl]
    rfl
  | case5 cs hback hback' hline =>
    have hplain : quote ≠ '\\' := ne_backslash hback hback'
    rw [ofText_cons, encode_of_lt hq, List.singleton_append, string.eq_def]
    dsimp only
    rw [if_neg (by rwa [byte_eq_iff hq (by decide)]), if_neg (by rwa [byte_eq_iff hq (by decide)]), if_pos rfl]
    simp [utf8Size_of_lt hq]
  | case6 c cs hback hback' hline hquote n closed hr ih =>
    rw [hr] at ih
    rw [ofText_cons, string_char hq (ne_backslash hback hback') hline hquote, ih]
    simp [Nat.add_comm]

end

/-! ## Templates -/

/-- the rest of a template behind its quote; `depth` braces of a hole are open -/
def template (depth : Nat) : List UInt8 → Reach
  | [] => ⟨0, 0⟩
  | b :: bs =>
    if b = byte '\\' then
      match bs with
      | [] => ⟨1, 0⟩
      | _ :: bs => (template depth bs).add 2 0
    else if b = byte '\n' then (template depth bs).add 1 1
    else if b = byte '$' ∧ depth = 0 ∧ bs.head? = some (byte '{') then
      match bs with
      | [] => ⟨1, 0⟩
      | _ :: bs => (template 1 bs).add 2 0
    else if b = byte '{' ∧ 0 < depth then (template (depth + 1) bs).add 1 0
    else if b = byte '}' ∧ 0 < depth then (template (depth - 1) bs).add 1 0
    else if b = byte Lexer.templateQuote ∧ depth = 0 then ⟨1, 0⟩
    else (template depth bs).add 1 0

section

variable {depth : Nat}

/-- a byte that is no backslash: it ends the template, opens or closes a brace, or is passed -/
theorem template_cons {b : UInt8} (hback : b ≠ byte '\\') {bs : List UInt8}
    (hhole : ¬ (b = byte '$' ∧ depth = 0 ∧ bs.head? = some (byte '{'))) :
    template depth (b :: bs) =
      if b = byte '\n' then (template depth bs).add 1 1
      else if b = byte '{' ∧ 0 < depth then (template (depth + 1) bs).add 1 0
      else if b = byte '}' ∧ 0 < depth then (template (depth - 1) bs).add 1 0
      else if b = byte Lexer.templateQuote ∧ depth = 0 then ⟨1, 0⟩
      else (template depth bs).add 1 0 := by
  rw [template.eq_def]
  dsimp only
  rw [if_neg hback, if_neg hhole]

theorem template_wide {w : List UInt8} (hw : ∀ b ∈ w, Wide b) (bs : List UInt8) :
    template depth (w ++ bs) = (template depth bs).add w.length 0 := by
  induction w with
  | nil => rfl
  | cons b w ih =>
    obtain ⟨hb, hw⟩ := List.forall_mem_cons.1 hw
    have hne : ∀ {d : Char}, d.toNat < 0x80 → b ≠ byte d := hb.ne_byte
    rw [List.cons_append, template_cons (hne (by decide)) fun h => hne (by decide) h.1, if_neg (hne (by decide)),
      if_neg fun h => hne (by decide) h.1, if_neg fun h => hne (by decide) h.1, if_neg fun h => hne (by decide) h.1,
        ih hw, Reach.add_add, List.length_cons]

/-- a backslash takes the first byte of a character with it, and the rest of the character is passed -/
theorem template_escape (c : Char) (bs : List UInt8) :
    template depth (byte '\\' :: (String.utf8EncodeChar c ++ bs)) = (template depth bs).add (c.utf8Size + 1) 0 := by
  rcases Nat.lt_or_ge c.toNat 0x80 with hc | hc
  · rw [encode_of_lt hc, utf8Size_of_lt hc]
    rfl
  · obtain ⟨b, w, hencode, -, hw, -⟩ := encode_of_le hc
    rw [hencode, List.cons_append, template, if_pos rfl, utf8Size_of_encode hencode]
    simp only [template_wide hw, Reach.add_add]

/-- a character that is no backslash and opens no hole -/
theorem template_char {c : Char} (hback : c ≠ '\\') {cs : List Char}
    (hhole : ¬ (c = '$' ∧ depth = 0 ∧ cs.head? = some '{')) :
    template depth (ofText (c :: cs)) =
      if c = '{' ∧ 0 < depth then (template (depth + 1) (ofText cs)).add 1 0
      else if c = '}' ∧ 0 < depth then (template (depth - 1) (ofText cs)).add 1 0
      else if c = Lexer.templateQuote ∧ depth = 0 then ⟨1, 0⟩
      else (template depth (ofText cs)).add c.utf8Size (if c = '\n' then 1 else 0) := by
  rcases encode_cases c with ⟨hc, hencode⟩ | ⟨hc, hencode⟩
  · have hbyte : ∀ {d : Char}, d.toNat < 0x80 → (byte c = byte d ↔ c = d) := byte_eq_iff hc
    have hbrace : (ofText cs).head? = some (byte '{') ↔ cs.head? = some '{' := head?_ofText (by decide)
    rw [ofText_cons, hencode, List.singleton_append,
      template_cons (fun h => hback ((hbyte (by decide)).1 h)) (by rwa [hbrace, hbyte (by decide)])]
    simp only [hbyte (show '\n'.toNat < 0x80 by decide), hbyte (show '{'.toNat < 0x80 by decide),
      hbyte (show '}'.toNat < 0x80 by decide), hbyte (show Lexer.templateQuote.toNat < 0x80 by decide),
      utf8Size_of_lt hc]
    by_cases hline : c = '\n'
    · subst hline
      simp [show ¬ '\n' = Lexer.templateQuote by decide]
    · simp only [hline, if_false]
  · have hne : ∀ {d : Char}, d.toNat < 0x80 → c ≠ d := ne_of_le_of_lt hc
    rw [ofText_cons, template_wide hencode, String.length_utf8EncodeChar, if_neg fun h => hne (by decide) h.1,
      if_neg fun h => hne (by decide) h.1, if_neg fun h => hne (by decide) h.1, if_neg (hne (by decide))]

/-- **A template goes as far by bytes as by characters.** -/
theorem template_ofText (depth : Nat) (cs : List Char) :
    template depth (ofText cs) = .of (Lexer.templateReach depth cs) cs := by
  fun_induction Lexer.templateReach depth cs with
  | case1 => rfl
  | case2 => rfl
  | case3 depth c cs ih =>
    rw [ofText_cons, ofText_cons, encode_of_lt (by decide), List.singleton_append, template_escape, ih,
      Reach.of_add_two _ (by decide)]
  | case4 cs ih =>
    rw [Reach.of_add_two _ (by decide), ← ih]
    rfl
  | case5 cs hback hback' hhole =>
    -- the quote that ends it
    have hno : ¬ (Lexer.templateQuote = '$' ∧ 0 = 0 ∧ cs.head? = some '{') := fun h => by cases h.1
    rw [template_char (ne_backslash hback hback') hno, if_neg (by decide), if_neg (by decide), if_pos ⟨rfl, rfl⟩]
    rfl
  | case6 c cs hback hback' hhole hquote ih =>
    -- outside all holes; a dollar without a brace opens none
    have hno : ¬ (c = '$' ∧ 0 = 0 ∧ cs.head? = some '{') := by
      rintro ⟨hdollar, -, hbrace⟩
      obtain ⟨ds, hds⟩ := List.head?_eq_some_iff.1 hbrace
      exact hhole ds hdollar hds
    rw [template_char (ne_backslash hback hback') hno, if_neg (by simp), if_neg (by simp), if_neg (fun h => hquote h.1),
      ih, Reach.of_add]
  | case7 depth c cs hback hback' depth' ih =>
    -- in a hole, where braces count and quotes do not
    have hno : ¬ (c = '$' ∧ depth + 1 = 0 ∧ cs.head? = some '{') := by simp
    rw [template_char (ne_backslash hback hback') hno, Reach.of_add, ← ih]
    by_cases hopen : c = '{'
    · subst hopen
      simp [depth', show '{'.utf8Size = 1 by decide]
    · by_cases hclose : c = '}'
      · subst hclose
        simp [depth', show '}'.utf8Size = 1 by decide]
      · simp [depth', hopen, hclose]

end

/-! ## Regular expressions -/

/-- the rest of a regular expression up to the slash that ends it; `inClass` says whether it is
between square brackets -/
def regexBody (inClass : Bool) : List UInt8 → Nat
  | [] => 0
  | b :: bs =>
    if b = byte '\\' then
      match bs with
      | [] => 1
      | _ :: bs => regexBody inClass bs + 2
    else if b = byte '[' then regexBody true bs + 1
    else if b = byte ']' then regexBody false bs + 1
    else if b = byte '/' ∧ inClass = false then 1
    else if b = byte '\n' then 0
    else regexBody inClass bs + 1

/-- the rest of a regular expression, and the flags behind it -/
def regex (inClass : Bool) (bs : List UInt8) : Nat :=
  regexBody inClass bs + ((bs.drop (regexBody inClass bs)).takeWhile (ascii Char.isAlpha)).length

section

variable {inClass : Bool}

/-- a byte that is no backslash: it ends the expression or is passed -/
theorem regex_cons {b : UInt8} (hback : b ≠ byte '\\') (bs : List UInt8) : regex inClass (b :: bs) =
    if b = byte '[' then regex true bs + 1
    else if b = byte ']' then regex false bs + 1
    else if b = byte '/' ∧ inClass = false then (bs.takeWhile (ascii Char.isAlpha)).length + 1
    else if b = byte '\n' then 0
    else regex inClass bs + 1 := by
  have hbody : regexBody inClass (b :: bs) =
      if b = byte '[' then regexBody true bs + 1
      else if b = byte ']' then regexBody false bs + 1
      else if b = byte '/' ∧ inClass = false then 1
      else if b = byte '\n' then 0
      else regexBody inClass bs + 1 := by
    rw [regexBody.eq_def]
    dsimp only
    rw [if_neg hback]
  have hpassed : ∀ k, k + 1 + (((b :: bs).drop (k + 1)).takeWhile (ascii Char.isAlpha)).length =
      k + ((bs.drop k).takeWhile (ascii Char.isAlpha)).length + 1 := by
    intro k
    rw [List.drop_succ_cons]
    omega
  rw [regex, hbody]
  split_ifs with hopen hclose hslash hline
  · exact hpassed _
  · exact hpassed _
  · exact (Nat.add_comm _ _).trans rfl
  · subst hline
    rfl
  · exact hpassed _

theorem regex_wide {w : List UInt8} (hw : ∀ b ∈ w, Wide b) (bs : List UInt8) :
    regex inClass (w ++ bs) = regex inClass bs + w.length := by
  induction w with
  | nil => rfl
  | cons b w ih =>
    obtain ⟨hb, hw⟩ := List.forall_mem_cons.1 hw
    have hne : ∀ {d : Char}, d.toNat < 0x80 → b ≠ byte d := hb.ne_byte
    rw [List.cons_append, regex_cons (hne (by decide)), if_neg (hne (by decide)), if_neg (hne (by decide)),
      if_neg fun h => hne (by decide) h.1, if_neg (hne (by decide)), ih hw, List.length_cons, Nat.add_assoc]

/-- a backslash takes the first byte of a character with it, and the rest of the character is passed -/
theorem regex_escape (c : Char) (bs : List UInt8) :
    regex inClass (byte '\\' :: (String.utf8EncodeChar c ++ bs)) = regex inClass bs + (c.utf8Size + 1) := by
  have hpair : ∀ a bs, regex inClass (byte '\\' :: a :: bs) = regex inClass bs + 2 := by
    intro a bs
    rw [regex, regexBody, if_pos rfl, regex, List.drop_succ_cons, List.drop_succ_cons]
    omega
  rcases Nat.lt_or_ge c.toNat 0x80 with hc | hc
  · rw [encode_of_lt hc, utf8Size_of_lt hc, List.singleton_append, hpair]
  · obtain ⟨b, w, hencode, -, hw, -⟩ := encode_of_le hc
    rw [hencode, List.cons_append, hpair, regex_wide hw, utf8Size_of_encode hencode]
    omega

/-- a character that is no backslash -/
theorem regex_char {c : Char} (hback : c ≠ '\\') (cs : List Char) : regex inClass (ofText (c :: cs)) =
    if c = '[' then regex true (ofText cs) + 1
    else if c = ']' then regex false (ofText cs) + 1
    else if c = '/' ∧ inClass = false then byteLength (cs.takeWhile Char.isAlpha) + 1
    else if c = '\n' then 0
    else regex inClass (ofText cs) + c.utf8Size := by
  have hletters : ((ofText cs).takeWhile (ascii Char.isAlpha)).length = byteLength (cs.takeWhile Char.isAlpha) :=
    length_takeWhile_ofText (fun c hc => ascii_byte _ hc)
      (fun c b hc hb => (hb.ascii_eq_false _).trans (isAlphanum_eq_false hc).1.symm) cs
  rcases encode_cases c with ⟨hc, hencode⟩ | ⟨hc, hencode⟩
  · have hbyte : ∀ {d : Char}, d.toNat < 0x80 → (byte c = byte d ↔ c = d) := byte_eq_iff hc
    rw [ofText_cons, hencode, List.singleton_append, regex_cons (fun h => hback ((hbyte (by decide)).1 h)), hletters,
      utf8Size_of_lt hc]
    simp only [hbyte (show '['.toNat < 0x80 by decide), hbyte (show ']'.toNat < 0x80 by decide),
      hbyte (show '/'.toNat < 0x80 by decide), hbyte (show '\n'.toNat < 0x80 by decide)]
  · have hne : ∀ {d : Char}, d.toNat < 0x80 → c ≠ d := ne_of_le_of_lt hc
    rw [ofText_cons, regex_wide hencode, String.length_utf8EncodeChar, if_neg (hne (by decide)),
      if_neg (hne (by decide)), if_neg fun h => hne (by decide) h.1, if_neg (hne (by decide))]

/-- **A regular expression goes as far by bytes as by characters.** -/
theorem regex_ofText (inClass : Bool) (cs : List Char) :
    regex inClass (ofText cs) = byteLength (cs.take (Lexer.regexReach inClass cs)) := by
  fun_induction Lexer.regexReach inClass cs with
  | case1 => rfl
  | case2 => rfl
  | case3 inClass c cs ih =>
    rw [ofText_cons, ofText_cons, encode_of_lt (by decide), List.singleton_append, regex_escape, ih,
      List.take_succ_cons, List.take_succ_cons, Text.byteLength_cons, Text.byteLength_cons,
      show '\\'.utf8Size = 1 by decide]
    omega
  | case4 inClass cs hback hback' =>
    rw [regex_char (ne_backslash hback hback'), if_neg (by decide), if_neg (by decide),
      if_neg (fun h => by cases h.1), if_pos rfl]
    rfl
  | case5 inClass c cs hback hback' hline hslash =>
    obtain ⟨rfl, rfl⟩ : c = '/' ∧ inClass = false := by simpa using hslash
    rw [regex_char (ne_backslash hback hback'), if_neg (by decide), if_neg (by decide), if_pos ⟨rfl, rfl⟩,
      List.take_succ_cons, Lexer.take_length_takeWhile, Text.byteLength_cons, utf8Size_of_lt (by decide), Nat.add_comm]
  | case6 inClass cs hback hback' hline hslash ih =>
    rw [regex_char (ne_backslash hback hback'), if_pos rfl, ih, List.take_succ_cons, Text.byteLength_cons,
      utf8Size_of_lt (by decide), Nat.add_comm]
  | case7 inClass cs hback hback' hline hslash hopen ih =>
    rw [regex_char (ne_backslash hback hback'), if_neg hopen, if_pos rfl, ih, List.take_succ_cons, Text.byteLength_cons,
      utf8Size_of_lt (by decide), Nat.add_comm]
  | case8 inClass c cs hback hback' hline hslash hopen hclose ih =>
    rw [regex_char (ne_backslash hback hback'), if_neg hopen, if_neg hclose, if_neg (by simpa using hslash),
      if_neg hline, ih, List.take_succ_cons, Text.byteLength_cons, Nat.add_comm]

end

/-! ## Names -/

/-- a byte that starts a name -/
def isIdentStart (b : UInt8) : Bool := ascii (fun c => c.isAlpha || c = '_' || c = '$') b || decide (0x80 ≤ b.toNat)

/-- a byte that continues a name -/
def isIdentPart (b : UInt8) : Bool := isIdentStart b || ascii Char.isDigit b

/-- a name, character by character: the first byte of each says how many bytes are passed -/
def ident : List UInt8 → Nat
  | [] => 0
  | b :: bs => if isIdentPart b then ident (bs.drop (width b - 1)) + width b else 0
termination_by bs => bs.length
decreasing_by simp only [List.length_drop, List.length_cons]; omega

section

variable {c : Char} {b : UInt8}

theorem isIdentStart_byte (hc : c.toNat < 0x80) : isIdentStart (byte c) = Lexer.isIdentStart c := by
  have hnot : ¬ 0x80 ≤ c.toNat := Nat.not_le.2 hc
  rw [isIdentStart, ascii_byte _ hc, toNat_byte hc, Lexer.isIdentStart]

theorem isIdentPart_byte (hc : c.toNat < 0x80) : isIdentPart (byte c) = Lexer.isIdentPart c := by
  rw [isIdentPart, isIdentStart_byte hc, ascii_byte _ hc, Lexer.isIdentPart]

theorem Wide.isIdentStart (h : Wide b) : isIdentStart b = true := by
  rw [Bytes.isIdentStart, decide_eq_true (show 0x80 ≤ b.toNat from h), Bool.or_true]

theorem width_byte (hc : c.toNat < 0x80) : width (byte c) = 1 := by
  rw [width, toNat_byte hc, if_neg (by omega), if_neg (by omega), if_neg (by omega)]

/-- **A name goes as far by bytes as by characters.** -/
theorem ident_ofText (cs : List Char) : ident (ofText cs) = byteLength (cs.takeWhile Lexer.isIdentPart) := by
  induction cs with
  | nil => rw [ofText_nil, ident]; rfl
  | cons c cs ih =>
    rcases Nat.lt_or_ge c.toNat 0x80 with hc | hc
    · rw [ofText_cons, encode_of_lt hc, List.singleton_append, ident, isIdentPart_byte hc, width_byte hc, Nat.sub_self,
        List.drop_zero, ih]
      cases hpart : Lexer.isIdentPart c with
      | true => rw [if_pos rfl, List.takeWhile_cons_of_pos hpart, Text.byteLength_cons, utf8Size_of_lt hc, Nat.add_comm]
      | false => rw [if_neg (by simp), List.takeWhile_cons_of_neg (by simp [hpart]), Text.byteLength_nil]
    · obtain ⟨b, w, hencode, hb, -, hwidth⟩ := encode_of_le hc
      have hpart : Lexer.isIdentPart c = true := by simp [Lexer.isIdentPart, Lexer.isIdentStart, hc]
      rw [ofText_cons, hencode, List.cons_append, ident, isIdentPart, hb.isIdentStart, Bool.true_or, if_pos rfl, hwidth,
        Nat.add_sub_cancel, List.drop_left, ih, List.takeWhile_cons_of_pos hpart, Text.byteLength_cons,
        utf8Size_of_encode hencode, Nat.add_comm]

end

end ClosurePipeline.Bytes
