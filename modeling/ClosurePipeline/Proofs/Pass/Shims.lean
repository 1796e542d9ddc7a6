/-
Record shims as code. A shim is a function with the name of its interface, and one access to its prototype for each
member: behind a dot, if the name of the member is an identifier, and else in single quotes, as it stands.

- `codeFrom`: what a text says behind a token, apart from doc comments and wherever it starts; an equation for each
  thing a shim is made of;
- `isName_of_isIdentifier`: what stands behind a dot is a name;
- `value_ne_of_not_inside`: single quotes around a text are a string of that text only if none of its own quotes closes
  it before;
- `memberCode`, `shimCode`: the code a shim is to be; `codeFrom_members`: which it is, by induction on the members;
- `quoted_of_interface`: members are insides of strings of either form;
- `shim_code_iff`: the result, and `quoted_member_breaks_shim`: a member in double quotes with a single quote in it.
-/
import Mathlib.Tactic
import ClosurePipeline.Pass.ClosureDocs
import ClosurePipeline.Proofs.Module.Classes
import ClosurePipeline.Proofs.Module.Found
import ClosurePipeline.Proofs.Pass.Placed
import ClosurePipeline.Proofs.Token.Commented
import ClosurePipeline.Proofs.Token.Tiling

namespace ClosurePipeline

/-! ## What a text says -/

namespace Lexer

/-- neither bytes nor lines matter to what is said -/
theorem codeOf_tokensFrom (prev : Option TokenKind) (cs : List Char) : ∀ offset line offset' line',
    codeOf (tokensFrom prev offset line cs) = codeOf (tokensFrom prev offset' line' cs) := by
  induction prev, cs using lexemes_induction with
  | nil prev =>
    intros
    rw [tokensFrom, tokensFrom]
  | cons prev c cs rest n kind hlex ih =>
    intro offset line offset' line'
    cases kind with
    | none =>
      rw [tokensFrom_of_none cs rest hlex, tokensFrom_of_none cs rest hlex]
      exact ih _ _ _ _
    | some kind =>
      rw [tokensFrom_of_some cs rest hlex, tokensFrom_of_some cs rest hlex]
      exact codeOf_cons_congr rfl (ih _ _ _ _)

/-- what a text says behind the token `prev`, apart from doc comments -/
def codeFrom (prev : Option TokenKind) (cs : List Char) : List TokenKind := codeOf (tokensFrom prev 0 0 cs)

variable {prev : Option TokenKind} {c : Char} {cs rest : List Char}

theorem codeFrom_nil (prev : Option TokenKind) : codeFrom prev [] = [] := by
  rw [codeFrom, tokensFrom]
  rfl

theorem codeFrom_blank (h : isBlank c = true) : codeFrom prev (c :: rest) = codeFrom prev rest := by
  have htokens := @tokensFrom_of_none prev c _ [] rest (Lexed.blank h).eq 0 0
  rw [List.nil_append] at htokens
  rw [codeFrom, htokens]
  exact codeOf_tokensFrom ..

theorem codeFrom_docComment {comment : List Char} (h : IsDocComment comment) (prev : Option TokenKind)
    (rest : List Char) :
    codeFrom prev (comment ++ rest) = codeFrom (some (.doc (String.ofList comment))) rest := by
  obtain ⟨t, line, ht, htokens⟩ := tokensFrom_docComment h prev 0 0 rest
  rw [codeFrom, htokens, codeOf_cons_of_isDoc ht]
  exact codeOf_tokensFrom ..

/-- any other token says what it is -/
theorem codeFrom_of_some {kind : TokenKind} {n : Nat} (hlex : lexeme prev c (cs ++ rest) = ⟨cs.length, n, some kind⟩)
    (hkind : ∀ text, kind ≠ .doc text) : codeFrom prev (c :: (cs ++ rest)) = kind :: codeFrom (some kind) rest := by
  have hdoc : Token.isDoc ⟨kind, 0, 0 + Text.byteLength (c :: cs), 0⟩ = false := by
    cases kind with
    | doc text => exact absurd rfl (hkind text)
    | _ => rfl
  rw [codeFrom, tokensFrom_of_some cs rest hlex, codeOf, List.filter_cons, hdoc, Bool.not_false, if_pos rfl,
    List.map_cons]
  exact congrArg (kind :: ·) (codeOf_tokensFrom ..)

theorem codeFrom_word {name : List Char} (h : isName name = true) (hrest : ∀ d ∈ rest.head?, isIdentPart d = false)
    (prev : Option TokenKind) :
    codeFrom prev (name ++ rest) = .ident (String.ofList name) ::
      codeFrom (some (.ident (String.ofList name))) rest := by
  cases name with
  | nil => cases h
  | cons c cs =>
    rw [isName, Bool.and_eq_true, List.all_eq_true] at h
    exact codeFrom_of_some (lexeme_word h.1 h.2 hrest) (by simp)

/-- characters of a shim that are tokens by themselves -/
theorem codeFrom_punct (hc : c ∈ ['(', ')', '{', '}', '[', ']', ';', '.'])
    (hdot : c = '.' → ∀ d ∈ rest.head?, d.isDigit = false) (prev : Option TokenKind) :
    codeFrom prev (c :: rest) = .punct c :: codeFrom (some (.punct c)) rest := by
  have hmarks : ∀ c ∈ ['(', ')', '{', '}', '[', ']', ';', '.'], c ∉ openings ∧ c.isDigit = false ∧
      isIdentStart c = false :=
    List.forall_iff_forall_mem.1 (by decide)
  obtain ⟨hopens, hdigit, hname⟩ := hmarks c hc
  have hlex : lexeme prev c ([] ++ rest) = ⟨([] : List Char).length, 0, some (.punct c)⟩ :=
    lexeme_punct hopens (not_startsNumber hdigit hdot) hname
  exact codeFrom_of_some hlex (by simp)

theorem codeFrom_bracket (hc : c ∈ ['(', ')', '{', '}', '[', ']', ';']) (prev : Option TokenKind) (rest : List Char) :
    codeFrom prev (c :: rest) = .punct c :: codeFrom (some (.punct c)) rest := by
  refine codeFrom_punct (List.mem_of_mem_dropLast (l := ['(', ')', '{', '}', '[', ']', ';', '.']) hc) ?_ prev
  rintro rfl
  exact absurd hc (by decide)

/-! ## Single quotes -/

theorem lexeme_single (prev : Option TokenKind) (cs : List Char) :
    lexeme prev '\'' cs = stringLexeme '\'' cs := (Lexed.string (.inr rfl)).eq

/-- the inside of a string in single quotes is the string -/
theorem codeFrom_single {v : List Char} (h : Inside '\'' v) (prev : Option TokenKind) (rest : List Char) :
    codeFrom prev ('\'' :: (v ++ '\'' :: rest)) =
      .str (String.ofList v) :: codeFrom (some (.str (String.ofList v))) rest := by
  have hreach : stringReach '\'' (v ++ '\'' :: rest) = (v.length + 1, true) := by
    rw [stringReach_inside h, stringReach]
    · simp [Nat.add_comm]
    · simp
    · simp
  have hlex : lexeme prev '\'' ((v ++ ['\'']) ++ rest) = ⟨(v ++ ['\'']).length, 0, some (.str (String.ofList v))⟩ := by
    rw [lexeme_single, List.append_assoc, List.singleton_append, stringLexeme, hreach]
    simp
  have hcode := codeFrom_of_some hlex (by simp)
  rwa [List.append_assoc, List.singleton_append] at hcode

theorem stringReach_pos {quote : Char} (cs : List Char) :
    (stringReach quote cs).2 = true → 0 < (stringReach quote cs).1 := by
  fun_induction stringReach quote cs <;> simp_all

/-- any other text in single quotes is some other string -/
theorem value_ne_of_not_inside {v : List Char} (h : ¬ Inside '\'' v) (rest : List Char) :
    (stringLexeme '\'' (v ++ '\'' :: rest)).kind ≠ some (.str (String.ofList v)) := by
  have hlength : ∀ n, n ≠ v.length → n ≤ (v ++ '\'' :: rest).length → (v ++ '\'' :: rest).take n ≠ v := by
    intro n hn hle htake
    have hlen := congrArg List.length htake
    rw [List.length_take] at hlen
    omega
  obtain ⟨front, tail, rfl, hfront, htail⟩ := exists_inside '\'' v
  simp only [stringLexeme, ne_eq, Option.some.injEq, TokenKind.str.injEq, String.ofList_inj]
  rw [List.append_assoc, stringReach_inside hfront]
  cases htail with
  | closed back =>
    rw [← List.append_assoc]
    refine hlength _ ?_ ?_
    · simp [stringReach]
    · simp [stringReach]
  | lineEnd back =>
    rw [← List.append_assoc]
    refine hlength _ ?_ ?_
    · simp [stringReach]
    · simp [stringReach]
  | textEnd => exact absurd (by rwa [List.append_nil]) h
  | escapedEnd =>
    -- the backslash takes the quote behind it into the string
    have hpos := @stringReach_pos '\'' rest
    have hle := stringReach_le '\'' rest
    rw [← List.append_assoc]
    refine hlength _ ?_ ?_
    · simp only [List.cons_append, List.nil_append, stringReach, List.length_append, List.length_singleton]
      split_ifs with hclosed
      · have := hpos hclosed
        omega
      · omega
    · simp only [List.cons_append, List.nil_append, stringReach, List.length_append, List.length_cons, List.length_nil]
      split_ifs <;> omega

/-- what is said in front of a string in single quotes -/
theorem head?_codeFrom_single (prev : Option TokenKind) (cs : List Char) :
    (codeFrom prev ('\'' :: cs)).head? = (stringLexeme '\'' cs).kind := by
  rw [codeFrom, tokensFrom]
  simp only [lexeme_single, stringLexeme, codeOf]
  rfl

end Lexer

namespace Pass.ClosureDocs

open Lexer

/-! ## Names behind a dot -/

/-- below 128 the letters are those of ASCII, and from there on every character starts a name -/
theorem isIdentStart_of_isAlphabetic {c : Char} (h : Text.isAlphabetic c = true) : isIdentStart c = true := by
  have hascii : ∀ n : Fin 128, Text.inFlips n Text.alphabeticFlips = true → (65 ≤ n.val ∧ n.val ≤ 90) ∨
      (97 ≤ n.val ∧ n.val ≤ 122) := by
    decide +kernel
  unfold isIdentStart
  by_cases hwide : 0x80 ≤ c.toNat
  · simp [hwide]
  · simp [isAlpha_iff.2 (hascii ⟨c.toNat, by omega⟩ h)]

theorem isIdentPart_of_isAlphanumeric {c : Char} (h : Text.isAlphanumeric c = true) : isIdentPart c = true := by
  have hascii : ∀ n : Fin 128, Text.inFlips n Text.numericFlips = true → 48 ≤ n.val ∧ n.val ≤ 57 := by decide +kernel
  unfold isIdentPart
  rcases Bool.or_eq_true_iff.1 h with halpha | hnumber
  · simp [isIdentStart_of_isAlphabetic halpha]
  · by_cases hwide : 0x80 ≤ c.toNat
    · simp [isIdentStart, hwide]
    · simp [isDigit_iff.2 (hascii ⟨c.toNat, by omega⟩ hnumber)]

/-- **What stands behind a dot is a name.** -/
theorem isName_of_isIdentifier {name : String} (h : isIdentifier name = true) : isName name.toList = true := by
  unfold isIdentifier at h
  cases hname : name.toList with
  | nil => rw [hname] at h; cases h
  | cons c cs =>
    rw [hname] at h
    simp only [Bool.and_eq_true, Bool.or_eq_true, decide_eq_true_eq, List.all_eq_true] at h
    obtain ⟨hfirst, hrest⟩ := h
    rw [isName, Bool.and_eq_true, List.all_eq_true]
    refine ⟨?_, fun d hd => ?_⟩
    · rcases hfirst with (halpha | rfl) | rfl
      · exact isIdentStart_of_isAlphabetic halpha
      · decide
      · decide
    · rcases hrest d hd with (halnum | rfl) | rfl
      · exact isIdentPart_of_isAlphanumeric halnum
      · decide
      · decide

/-- a name has no quotes, backslashes or line breaks, so it is the inside of a string -/
theorem inside_of_isName {cs : List Char} (h : isName cs = true) : Inside '\'' cs := by
  have hplain : ∀ d, isIdentPart d = true → d ≠ '\'' ∧ d ≠ '\\' ∧ d ≠ '\n' := by
    intro d hd
    refine ⟨?_, ?_, ?_⟩ <;> rintro rfl <;> exact absurd hd (by decide)
  have hall : ∀ ds : List Char, (∀ d ∈ ds, isIdentPart d = true) → Inside '\'' ds := by
    intro ds
    induction ds with
    | nil => exact fun _ => .nil
    | cons d ds ih =>
      intro hds
      obtain ⟨hquote, hback, hline⟩ := hplain d (hds d List.mem_cons_self)
      exact .plain hquote hback hline (ih fun e he => hds e (List.mem_cons_of_mem d he))
  cases cs with
  | nil => exact .nil
  | cons c cs =>
    rw [isName, Bool.and_eq_true, List.all_eq_true] at h
    refine hall _ (List.forall_mem_cons.2 ⟨?_, h.2⟩)
    rw [isIdentPart, h.1, Bool.true_or]

/-! ## Members -/

/-- the code that reads a member of the prototype of `owner` -/
def memberCode (owner member : String) : List TokenKind :=
  [.ident owner, .punct '.', .ident "prototype"] ++
    (if isIdentifier member then [.punct '.', .ident member] else [.punct '[', .str member, .punct ']']) ++ [.punct ';']

/-- the code of a shim: a function without parameters and statements, and the members of the interface, in order -/
def shimCode (d : Declaration) : List TokenKind :=
  [.ident "function", .ident d.name, .punct '(', .punct ')', .punct '{', .punct '}'] ++
    d.members.flatMap (memberCode d.name)

/-- a member in the text of a shim -/
def memberText (owner member : String) : String := "\n" ++ anyType ++ "\n" ++ memberAccess owner member ++ ";"

theorem isDocComment_anyType : IsDocComment anyType.toList := by
  refine ⟨by decide, "* @type \x7b?\x7d ".toList, by decide, by decide⟩

section

variable {owner : String} {prev : Option TokenKind} {rest : List Char}

/-- a member starts with a comment and the prototype -/
theorem codeFrom_prototype (howner : isName owner.toList = true) (hrest : ∀ d ∈ rest.head?, isIdentPart d = false) :
    codeFrom prev ('\n' :: (anyType.toList ++ '\n' :: (owner.toList ++ '.' :: ("prototype".toList ++ rest)))) =
      .ident owner :: .punct '.' :: .ident "prototype" :: codeFrom (some (.ident "prototype")) rest := by
  have hprototype : isName "prototype".toList = true := by decide
  have hdigit : ∀ d ∈ ("prototype".toList ++ rest).head?, d.isDigit = false := by
    intro d hd
    cases hd
    decide
  rw [codeFrom_blank (by decide), codeFrom_docComment isDocComment_anyType, codeFrom_blank (by decide),
    codeFrom_word howner (by simp [isIdentPart, isIdentStart]), codeFrom_punct (by decide) fun _ => hdigit,
      codeFrom_word hprototype hrest,
    String.ofList_toList, String.ofList_toList]

/-- a member whose name is an identifier stands behind a dot -/
theorem codeFrom_dot {member : String} (hmember : isName member.toList = true) (prev : Option TokenKind)
    (rest : List Char) :
    codeFrom prev ('.' :: (member.toList ++ ';' :: rest)) =
      .punct '.' :: .ident member :: .punct ';' :: codeFrom (some (.punct ';')) rest := by
  have hdigit : ∀ d ∈ (member.toList ++ ';' :: rest).head?, d.isDigit = false := by
    intro d hd
    cases hchars : member.toList with
    | nil => rw [hchars] at hmember; cases hmember
    | cons c cs =>
      rw [hchars] at hd hmember
      cases hd
      rw [isName, Bool.and_eq_true] at hmember
      by_contra hno
      rw [isIdentStart_of_isDigit (by simpa using hno)] at hmember
      cases hmember.1
  rw [codeFrom_punct (by decide) fun _ => hdigit, codeFrom_word hmember (by simp [isIdentPart, isIdentStart]),
    codeFrom_bracket (by decide), String.ofList_toList]

/-- any other member stands in brackets, if it can stand in single quotes -/
theorem codeFrom_brackets {member : String} (hmember : Inside '\'' member.toList) (prev : Option TokenKind)
    (rest : List Char) :
    codeFrom prev ('[' :: '\'' :: (member.toList ++ '\'' :: ']' :: ';' :: rest)) =
      .punct '[' :: .str member :: .punct ']' :: .punct ';' :: codeFrom (some (.punct ';')) rest := by
  rw [codeFrom_bracket (by decide), codeFrom_single hmember, codeFrom_bracket (by decide), codeFrom_bracket (by decide),
    String.ofList_toList]

/-- and if it can not, something else stands there -/
theorem codeFrom_brackets_ne {member : String} (hmember : ¬ Inside '\'' member.toList) (prev : Option TokenKind)
    (rest : List Char) (more : List TokenKind) :
    codeFrom prev ('[' :: '\'' :: (member.toList ++ '\'' :: rest)) ≠ .punct '[' :: .str member :: more := by
  intro hcode
  rw [codeFrom_bracket (by decide), List.cons.injEq] at hcode
  have hhead := head?_codeFrom_single (some (.punct '[')) (member.toList ++ '\'' :: rest)
  rw [hcode.2, List.head?_cons] at hhead
  refine value_ne_of_not_inside hmember rest ?_
  rw [← hhead, String.ofList_toList]

theorem toList_memberText_dot {member : String} (h : isIdentifier member = true) (rest : List Char) :
    (memberText owner member).toList ++ rest =
    '\n' :: (anyType.toList ++
      '\n' :: (owner.toList ++ '.' :: ("prototype".toList ++ '.' :: (member.toList ++ ';' :: rest)))) := by
  have hline : "\n".toList = ['\n'] := by decide
  have hsemicolon : ";".toList = [';'] := by decide
  have hprototype : ".prototype.".toList = '.' :: ("prototype".toList ++ ['.']) := by decide
  simp only [memberText, memberAccess, if_pos h, String.toList_append, hline, hsemicolon, hprototype, List.append_assoc,
    List.cons_append, List.nil_append]

theorem toList_memberText_brackets {member : String} (h : ¬ isIdentifier member = true) (rest : List Char) :
    (memberText owner member).toList ++ rest =
      '\n' :: (anyType.toList ++ '\n' :: (owner.toList ++
        '.' :: ("prototype".toList ++ '[' :: '\'' :: (member.toList ++ '\'' :: ']' :: ';' :: rest)))) := by
  have hline : "\n".toList = ['\n'] := by decide
  have hsemicolon : ";".toList = [';'] := by decide
  have hprototype : ".prototype['".toList = '.' :: ("prototype".toList ++ ['[', '\'']) := by decide
  have hclose : "']".toList = ['\'', ']'] := by decide
  simp only [memberText, memberAccess, if_neg h, String.toList_append, hline, hsemicolon, hprototype, hclose,
    List.append_assoc, List.cons_append, List.nil_append]

/-- **Members say what they are to say,** each in turn, exactly if all of them can stand in single quotes. -/
theorem codeFrom_members (howner : isName owner.toList = true) (members : List String) : ∀ prev,
    codeFrom prev (members.flatMap fun m => (memberText owner m).toList) = members.flatMap (memberCode owner) ↔
      ∀ m ∈ members, Inside '\'' m.toList := by
  induction members with
  | nil => simp [codeFrom_nil]
  | cons m ms ih =>
    intro prev
    rw [List.flatMap_cons, List.flatMap_cons, List.forall_mem_cons]
    by_cases hdot : isIdentifier m = true
    · have hname := isName_of_isIdentifier hdot
      rw [toList_memberText_dot hdot, codeFrom_prototype howner (by simp [isIdentPart, isIdentStart]),
        codeFrom_dot hname, memberCode, if_pos hdot]
      simp only [List.cons_append, List.nil_append, List.cons.injEq, true_and]
      rw [ih]
      exact (and_iff_right (inside_of_isName hname)).symm
    · rw [toList_memberText_brackets hdot, codeFrom_prototype howner (by simp [isIdentPart, isIdentStart]), memberCode,
        if_neg hdot]
      simp only [List.cons_append, List.nil_append, List.cons.injEq, true_and]
      by_cases hquoted : Inside '\'' m.toList
      · rw [codeFrom_brackets hquoted]
        simp only [List.cons.injEq, true_and]
        rw [ih]
        exact (and_iff_right hquoted).symm
      · exact iff_of_false (codeFrom_brackets_ne hquoted _ _ _) fun hboth => hquoted hboth.1

end

/-! ## Shims -/

theorem toList_recordShim (d : Declaration) : (recordShim d).toList =
    '\n' :: ("function".toList ++ ' ' :: (d.name.toList ++ '(' :: ')' :: ' ' :: '{' :: '}' ::
      d.members.flatMap fun m => (memberText d.name m).toList)) := by
  have hopening : "\nfunction ".toList = '\n' :: ("function".toList ++ [' ']) := by decide
  have hbraces : "() \x7b\x7d".toList = ['(', ')', ' ', '{', '}'] := by decide
  have hmembers :
      (String.join (d.members.map fun m => "\n" ++ anyType ++ "\n" ++ memberAccess d.name m ++ ";")).toList =
      d.members.flatMap fun m => (memberText d.name m).toList := by
    rw [String.toList_join, List.flatMap_map]
    rfl
  rw [recordShim, String.toList_append, String.toList_append, String.toList_append, hmembers, hopening, hbraces]
  simp only [List.append_assoc, List.cons_append, List.nil_append]

/-- the shim of any interface that has a name -/
theorem shim_code_of_isName {d : Declaration} (hname : isName d.name.toList = true) :
    codeOf (tokenize (recordShim d).toList) = shimCode d ↔ ∀ m ∈ d.members, Inside '\'' m.toList := by
  have hfunction : isName "function".toList = true := by decide
  have hcode : codeOf (tokenize (recordShim d).toList) =
      [.ident "function", .ident d.name, .punct '(', .punct ')', .punct '{', .punct '}'] ++
      codeFrom (some (.punct '}')) (d.members.flatMap fun m => (memberText d.name m).toList) := by
    rw [toList_recordShim]
    change codeFrom none _ = _
    rw [codeFrom_blank (by decide), codeFrom_word hfunction (by simp [isIdentPart, isIdentStart]),
      codeFrom_blank (by decide), codeFrom_word hname (by simp [isIdentPart, isIdentStart]),
      codeFrom_bracket (by decide), codeFrom_bracket (by decide),
      codeFrom_blank (by decide), codeFrom_bracket (by decide), codeFrom_bracket (by decide), String.ofList_toList,
      String.ofList_toList]
    rfl
  rw [hcode, shimCode, List.append_cancel_left_eq]
  exact codeFrom_members hname d.members _

/-- an interface is called by a name -/
theorem isName_of_interface {text : String} {d : Declaration} (hd : d ∈ (ModuleSummary.ofText text).declarations)
    (hkind : d.kind = .interfaceDecl) :
    isName d.name.toList = true := by
  obtain ⟨k, k', hon, hread⟩ := ModuleSummary.exists_read_of_mem hd
  obtain ⟨t, ht, hident⟩ := (Declaration.names_of_read? hon hread).1 hkind
  obtain ⟨chars, rest, -, hspelled⟩ := exists_spelled ht
  rw [Token.kind_of_ident? hident] at hspelled
  obtain ⟨hname, hlexes, -⟩ := hspelled
  rwa [hname]

/-- a string with something behind it is the inside of its quotes -/
theorem inside_of_isString {value : String} {chars rest : List Char} (h : IsString value chars rest)
    (hrest : rest ≠ []) :
    Inside '\'' value.toList ∨ Inside '"' value.toList := by
  have hquotes : ∀ {quote : Char} {v : List Char}, quote = '"' ∨ quote = '\'' → Inside quote v →
      Inside '\'' (String.ofList v).toList ∨ Inside '"' (String.ofList v).toList := by
    rintro quote v (rfl | rfl) hv
    · exact Or.inr (by rwa [String.toList_ofList])
    · exact Or.inl (by rwa [String.toList_ofList])
  cases h with
  | closed rest hquote hv => exact hquotes hquote hv
  | unclosed hquote hv hline => exact hquotes hquote hv
  | escapedEnd hquote hv => exact absurd rfl hrest

/-- what is the inside of double quotes is that of single quotes, if no single quote stands in it -/
theorem inside_single_of_notMem {v : List Char} (h : Inside '"' v) : '\'' ∉ v → Inside '\'' v := by
  induction h with
  | nil => exact fun _ => .nil
  | escaped c h ih => exact fun hno => .escaped c (ih fun hmem => hno (by simp [hmem]))
  | plain hquote hback hline h ih =>
    intro hno
    rw [List.mem_cons, not_or] at hno
    exact .plain (Ne.symm hno.1) hback hline (ih hno.2)

/-- **A member that can not stand in single quotes** was written in double quotes, with a single quote in it. -/
theorem quoted_of_interface {text : String} {d : Declaration} (hd : d ∈ (ModuleSummary.ofText text).declarations) :
    ∀ m ∈ d.members, Inside '\'' m.toList ∨ Inside '"' m.toList ∧ '\'' ∈ m.toList := by
  intro m hm
  obtain ⟨k, k', hon, hread⟩ := ModuleSummary.exists_read_of_mem hd
  obtain ⟨t, u, ⟨before, behind, htokens⟩, hname⟩ := (Declaration.names_of_read? hon hread).2 m hm
  have htokens : tokenize text.toList = (before ++ [t]) ++ (u :: behind) := htokens.symm.trans (by simp)
  have ht : t ∈ tokenize text.toList := by simp [htokens]
  obtain ⟨chars, rest, hstands, hspelled⟩ := exists_spelled ht
  have hu : u ∈ tokenize text.toList := by simp [htokens]
  have hrest : rest ≠ [] :=
    rest_ne_nil_of_le hstands hu (stop_le_start htokens (t := t) (u := u) (by simp) List.mem_cons_self)
  have hinside : Inside '\'' m.toList ∨ Inside '"' m.toList := by
    rcases Option.or_eq_some_iff.1 hname with hident | ⟨-, hstr⟩
    · rw [Token.kind_of_ident? hident] at hspelled
      exact Or.inl (inside_of_isName (hspelled.1 ▸ hspelled.2.1))
    · rw [Token.kind_of_str? hstr] at hspelled
      exact inside_of_isString hspelled hrest
  by_cases hquote : '\'' ∈ m.toList
  · exact hinside.imp_right fun h => ⟨h, hquote⟩
  · exact Or.inl (hinside.elim id fun h => inside_single_of_notMem h hquote)

/-- **When a shim is the code it is to be.** For every text and every interface in it: apart from doc comments the
tokens of the shim are a function of its name and, for each member in order, the access to the member, behind a dot or
as a string in brackets, exactly if no member has a single quote in it that is not escaped; and only a member that was
written in double quotes can have one. -/
theorem shim_code_iff {text : String} {d : Declaration} (hd : d ∈ (ModuleSummary.ofText text).declarations)
    (hkind : d.kind = .interfaceDecl) :
    (codeOf (tokenize (recordShim d).toList) = shimCode d ↔ ∀ m ∈ d.members, Inside '\'' m.toList) ∧
      ∀ m ∈ d.members, Inside '\'' m.toList ∨ Inside '"' m.toList ∧ '\'' ∈ m.toList :=
  ⟨shim_code_of_isName (isName_of_interface hd hkind), quoted_of_interface hd⟩

/-- an interface with members of three forms: a word, a string that is no word, and one with an escaped quote -/
def threeMembers : String := "interface A \x7b b: number; \"c-d\": string; 'it\\'s'(): void; \x7d"

theorem shim_code_iff_threeMembers : ∃ d ∈ (ModuleSummary.ofText threeMembers).declarations, d.kind = .interfaceDecl ∧
    d.members = ["b", "c-d", "it\\'s"] ∧ codeOf (tokenize (recordShim d).toList) =
      [.ident "function", .ident "A", .punct '(', .punct ')', .punct '{', .punct '}',
        .ident "A", .punct '.', .ident "prototype", .punct '.', .ident "b", .punct ';',
        .ident "A", .punct '.', .ident "prototype", .punct '[', .str "c-d", .punct ']', .punct ';',
        .ident "A", .punct '.', .ident "prototype", .punct '[', .str "it\\'s", .punct ']', .punct ';'] := by
  obtain ⟨d, hd⟩ : ∃ d, (ModuleSummary.ofText threeMembers).declarations = [d] :=
    List.length_eq_one_iff.1 (by decide +kernel)
  have hall : ∀ d ∈ (ModuleSummary.ofText threeMembers).declarations, d.kind = .interfaceDecl ∧ d.name = "A" ∧
      d.members = ["b", "c-d", "it\\'s"] := by
    decide +kernel
  have hmem : d ∈ (ModuleSummary.ofText threeMembers).declarations := by simp [hd]
  obtain ⟨hkind, hname, hmembers⟩ := hall d hmem
  have hinside : ∀ m ∈ d.members, Inside '\'' m.toList := by
    rw [hmembers]
    have hb : Inside '\'' "b".toList := inside_of_isName (by decide)
    have hcd : Inside '\'' "c-d".toList :=
      inside_single_of_notMem (.plain (by decide) (by decide) (by decide) (.plain (by decide) (by decide) (by decide)
      (.plain (by decide) (by decide) (by decide) .nil))) (by decide)
    have hits : Inside '\'' "it\\'s".toList :=
      .plain (by decide) (by decide) (by decide) (.plain (by decide) (by decide) (by decide)
      (.escaped '\'' (.plain (by decide) (by decide) (by decide) .nil)))
    simp only [List.mem_cons, List.not_mem_nil, or_false]
    rintro m (rfl | rfl | rfl)
    · exact hb
    · exact hcd
    · exact hits
  refine ⟨d, hmem, hkind, hmembers, ?_⟩
  rw [(shim_code_iff hmem hkind).1.2 hinside, shimCode, hname, hmembers]
  decide +kernel

/-- a member in double quotes with a single quote in it -/
def apostropheMember : String := "interface A \x7b \"it's\": number; \x7d"

/-- its single quote closes the string of the shim, and the member is neither a word nor a string there -/
theorem quoted_member_breaks_shim :
    ∃ d ∈ (ModuleSummary.ofText apostropheMember).declarations, d.kind = .interfaceDecl ∧ d.name = "A" ∧
    d.members = ["it's"] ∧ codeOf (tokenize (recordShim d).toList) =
      [.ident "function", .ident "A", .punct '(', .punct ')', .punct '{', .punct '}',
        .ident "A", .punct '.', .ident "prototype", .punct '[', .str "it", .ident "s", .str "];"] ∧
    .ident "it's" ∉ codeOf (tokenize (recordShim d).toList) ∧
    .str "it's" ∉ codeOf (tokenize (recordShim d).toList) := by
  decide +kernel

end Pass.ClosureDocs

end ClosurePipeline
