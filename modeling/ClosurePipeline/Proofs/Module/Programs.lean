/-
Programs of imports and exports, and their summaries. A program is a list of statements, each laid out with any gaps;
every statement ends with a semicolon, so the next one may start on the same line.

- `readStatement_of_spells`: a statement is read as it is printed, whatever stands behind its semicolon;
- `itemsFrom_statement` (one statement) and `itemsFrom_program` (all of them): the items of a program are its statements
  in order, each on the line of its first token;
- `summary_of_program`: its summary has these imports and exports, nothing is declared, called or assigned, and the
  modules it names are listed once each, those of imports first. Nothing is said about classes: a name `class` in braces
  may read as one.
-/
import ClosurePipeline.Proofs.Module.Printed

namespace ClosurePipeline.Printed

open Lexer (Word Quoted Glyph Trivia Spaced)

/-! ## Statements in a token list -/

open ModuleSummary (Item itemsFrom readStatement readExport startsStatement)

/-- in front of a statement there is nothing, or the semicolon of another one -/
def Opens (prev : Option Token) : Prop := ∀ p ∈ prev, p.kind = .punct ';'

section Statement

variable {source : List Char} {prev : Option Token} {t : Token} {ts rest : List Token}

theorem startsStatement_of_opens (h : Opens prev) : startsStatement prev t = true := by
  cases prev with
  | none => rfl
  | some p =>
    have hp := h p rfl
    simp [startsStatement, hp]

/-- a mark that is no brace is passed over -/
theorem itemsFrom_mark {c : Char} (ht : t.kind = .punct c) (hc : c ≠ '{' ∧ c ≠ '}' ∧ c ≠ '@') :
    itemsFrom source 0 ⟨prev, t :: ts⟩ = itemsFrom source 0 ⟨some t, ts⟩ := by
  have hread : readStatement source t ⟨prev, t :: ts⟩ = (none, ⟨some t, ts⟩) := by simp [readStatement, ht, hc.2.2]
  rw [itemsFrom]
  simp [Token.isPunct, ht, hc.1, hc.2.1, hread, Cursor.ahead]

/-- a statement that is understood is an item -/
theorem itemsFrom_of_read (h : Opens prev) {w : Word} (ht : t.kind = (Glyph.word w).kind) {item : Item}
    {last : Option Token} (hread : readStatement source t ⟨prev, t :: ts⟩ = (some item, ⟨last, rest⟩))
    (hlength : rest.length ≤ ts.length) :
    itemsFrom source 0 ⟨prev, t :: ts⟩ = item :: itemsFrom source 0 ⟨last, rest⟩ := by
  have hlt : rest.length < ts.length + 1 := Nat.lt_succ_of_le hlength
  rw [itemsFrom]
  simp [isPunct_word ht, startsStatement_of_opens h, hread, Cursor.ahead, hlt]

theorem readStatement_import (ht : t.kind = (Glyph.word importWord).kind) {d : ImportDecl} {c : Cursor}
    (h : ImportDecl.read t.line ⟨some t, ts⟩ = (some d, c)) :
    readStatement source t ⟨prev, t :: ts⟩ = (some (.importing d), c) := by
  have hkind : t.kind = .ident "import" := ht
  simp [readStatement, hkind, h]

theorem readStatement_exportAll (ht : t.kind = (Glyph.word exportWord).kind) {x : Token} (hx : x.kind = .punct '*')
    {d : ExportDecl} {c : Cursor} (h : ExportDecl.readAll t.line ⟨some x, ts⟩ = some (some d, c)) :
    readStatement source t ⟨prev, t :: x :: ts⟩ = (some (.exporting d), c) := by
  have hkind : t.kind = .ident "export" := ht
  simp [readStatement, hkind, readExport, Token.isPunct, hx, h]

theorem readStatement_exportNamed (ht : t.kind = (Glyph.word exportWord).kind) {o : Token} (ho : o.kind = .punct '{')
    {d : ExportDecl} {c : Cursor} (h : ExportDecl.readNamed t.line ⟨some t, o :: ts⟩ = some (some d, c)) :
    readStatement source t ⟨prev, t :: o :: ts⟩ = (some (.exporting d), c) := by
  have hkind : t.kind = .ident "export" := ht
  have htype : o.isIdent "type" = false := by simp [Token.isIdent, Token.ident?, ho]
  simp [readStatement, hkind, readExport, Token.isPunct, ho, htype, h]

/-- **A statement is read as it is printed.** Of `require`, the closing parenthesis is left. -/
theorem readStatement_of_spells (s : Statement) {bs : List Token} (h : Spells bs s.body) {semi : Token}
    (hsemi : semi.kind = .punct ';') (rest : List Token) :
    ∃ t us w left last, bs = t :: us ∧ t.kind = (Glyph.word w).kind ∧ left.length ≤ us.length ∧
      (∀ c ∈ left, c.kind = .punct ')') ∧
      readStatement source t ⟨prev, t :: (us ++ semi :: rest)⟩ =
        (some (s.item t.line), ⟨some last, left ++ semi :: rest⟩) := by
  cases s with
  | effect s =>
    obtain ⟨t, us, rfl, ht, h⟩ := spells_cons_iff.1 h
    obtain ⟨q, us, rfl, hq, hnil⟩ := spells_cons_iff.1 h
    rw [spells_nil_iff.1 hnil]
    exact ⟨t, [q], _, [], q, rfl, ht, by simp, by simp, readStatement_import ht (read_effect hq)⟩
  | importing c s =>
    obtain ⟨t, us, rfl, ht, h⟩ := spells_cons_iff.1 h
    obtain ⟨cs, fs, rfl, hcs, hfs⟩ := spells_append_iff.1 h
    obtain ⟨last, hread⟩ := @read_clause t.line (some t) (semi :: rest) s c cs fs hcs hfs
    rw [← List.append_assoc] at hread
    exact ⟨t, cs ++ fs, _, [], last, rfl, ht, by simp, by simp, readStatement_import ht hread⟩
  | require n hn s =>
    obtain ⟨t, us, rfl, ht, h⟩ := spells_cons_iff.1 h
    obtain ⟨qs, ps, rfl, hqs, hps⟩ := spells_append_iff.1 h
    obtain ⟨close, ps, rfl, hclose, hnil⟩ := spells_cons_iff.1 hps
    rw [spells_nil_iff.1 hnil]
    obtain ⟨last, hread⟩ := @read_require t.line (some t) (close :: semi :: rest) s n hn qs hqs
    have hshape : qs ++ close :: semi :: rest = qs ++ [close] ++ semi :: rest := by simp
    rw [hshape] at hread
    refine ⟨t, qs ++ [close], _, [close], last, rfl, ht, by simp, fun c hc => ?_, readStatement_import ht hread⟩
    rw [List.mem_singleton.1 hc]
    exact hclose
  | exportAll n? s =>
    cases n? with
    | none =>
      obtain ⟨t, us, rfl, ht, h⟩ := spells_cons_iff.1 h
      obtain ⟨x, fs, rfl, hx, hfs⟩ := spells_cons_iff.1 h
      obtain ⟨last, hread⟩ := @readAll_eq t.line (some x) (semi :: rest) s fs hfs
      exact ⟨t, x :: fs, _, [], last, rfl, ht, by simp, by simp, readStatement_exportAll ht hx hread⟩
    | some n =>
      obtain ⟨t, us, rfl, ht, h⟩ := spells_cons_iff.1 h
      obtain ⟨x, fs, rfl, hx, hfs⟩ := spells_cons_iff.1 h
      obtain ⟨last, hread⟩ := @readAll_named t.line (some x) (semi :: rest) s n fs hfs
      exact ⟨t, x :: fs, _, [], last, rfl, ht, by simp, by simp, readStatement_exportAll ht hx hread⟩
  | exportNamed es s? =>
    obtain ⟨t, us, rfl, ht, h⟩ := spells_cons_iff.1 h
    obtain ⟨us, vs, rfl, hus, hvs⟩ := spells_append_iff.1 h
    obtain ⟨last, hread⟩ := @readNamed_eq t.line (some t) rest es s? us vs hus hvs semi hsemi
    obtain ⟨o, us, rfl, ho, -⟩ := spells_cons_iff.1 hus
    rw [← List.append_assoc] at hread
    exact ⟨t, o :: us ++ vs, _, [], last, rfl, ht, by simp, by simp, readStatement_exportNamed ht ho hread⟩

/-- a statement and its semicolon are one item, and the next statement may start -/
theorem itemsFrom_statement (s : Statement) (h : Spells ts s.glyphs) (hprev : Opens prev) (rest : List Token) :
    ∃ t us last, ts = t :: us ∧ last.kind = .punct ';' ∧
      itemsFrom source 0 ⟨prev, ts ++ rest⟩ = s.item t.line :: itemsFrom source 0 ⟨some last, rest⟩ := by
  obtain ⟨bs, vs, rfl, hbs, hvs⟩ := spells_append_iff.1 h
  obtain ⟨semi, vs, rfl, hsemi, hnil⟩ := spells_cons_iff.1 hvs
  rw [spells_nil_iff.1 hnil]
  obtain ⟨t, us, w, left, last, rfl, ht, hlength, hleft, hread⟩ :=
    @readStatement_of_spells source prev s bs hbs semi hsemi rest
  -- what is left of the statement is passed over, and so is the semicolon
  have hpass : ∀ (left : List Token) (q : Option Token), (∀ c ∈ left, c.kind = .punct ')') →
      itemsFrom source 0 ⟨q, left ++ semi :: rest⟩ = itemsFrom source 0 ⟨some semi, rest⟩ := by
    intro left
    induction left with
    | nil => intro q _; exact itemsFrom_mark hsemi (by decide)
    | cons c left ih =>
      intro q hleft
      rw [List.cons_append, itemsFrom_mark (hleft c List.mem_cons_self) (by decide)]
      exact ih _ fun d hd => hleft d (List.mem_cons_of_mem _ hd)
  refine ⟨t, us ++ [semi], semi, rfl, hsemi, ?_⟩
  have hshape : t :: us ++ [semi] ++ rest = t :: (us ++ semi :: rest) := by simp
  rw [hshape, itemsFrom_of_read hprev ht hread (by simp; omega), hpass left _ hleft]

end Statement

/-! ## Programs -/

/-- a statement with gaps in front of its glyphs, words kept apart -/
structure LaidOut where
  statement : Statement
  pieces : List Spaced
  spelled : pieces.map Spaced.glyph = statement.glyphs
  apart : Lexer.Apart pieces

namespace LaidOut

/-- a statement with a blank in front of each glyph -/
def plain (s : Statement) : LaidOut where
  statement := s
  pieces := s.glyphs.map fun g => ⟨[.blank ' ' (by decide)], g⟩
  spelled := by rw [List.map_map]; exact List.map_id _
  apart := (List.isChain_map _).2 (List.pairwise_of_forall fun _ _ _ _ => List.cons_ne_nil _ _).isChain

/-- the gap in front of the statement -/
def lead (l : LaidOut) : List Char := (l.pieces.head?.map fun p => Lexer.gapChars p.gap).getD []

/-- the statement in a text, with its gaps -/
def chars (l : LaidOut) : List Char := Lexer.layout l.pieces

end LaidOut

/-- statements in order, and a gap behind the last one -/
def programText (program : List LaidOut) (last : List Trivia) : String :=
  String.ofList (program.flatMap LaidOut.chars ++ Lexer.gapChars last)

/-- what the statements of a program add to a summary, if the program starts on this line -/
def items (line : Nat) : List LaidOut → List Item
  | [] => []
  | l :: program => l.statement.item (line + Text.breaks l.lead) :: items (line + Text.breaks l.chars) program

/-- the import an item is -/
def importOf? : Item → Option ImportDecl
  | .importing d => some d
  | _ => none

/-- the export an item is -/
def exportOf? : Item → Option ExportDecl
  | .exporting d => some d
  | _ => none

/-- every statement ends with a semicolon, so programs keep words apart if their statements do -/
theorem apart_program (program : List LaidOut) : Lexer.Apart (program.flatMap LaidOut.pieces) := by
  induction program with
  | nil => exact List.isChain_nil
  | cons l program ih =>
    rw [List.flatMap_cons]
    refine List.isChain_append.2 ⟨l.apart, ih, fun p hp q _ hword => ?_⟩
    have hlast : (l.pieces.map Spaced.glyph).getLast? = some (.mark ';' (by decide)) := by
      rw [l.spelled, Statement.glyphs, List.getLast?_concat]
    rw [List.getLast?_map, Option.mem_def.1 hp] at hlast
    rw [Option.some.inj hlast] at hword
    cases hword

theorem layout_program (program : List LaidOut) :
    Lexer.layout (program.flatMap LaidOut.pieces) = program.flatMap LaidOut.chars := by
  rw [Lexer.layout, List.flatMap_assoc]
  rfl

/-- **The statements of a program are its items,** each on the line of its first token. -/
theorem itemsFrom_program (source : List Char) (program : List LaidOut) :
    ∀ (offset line : Nat) {prev : Option Token}, Opens prev →
    itemsFrom source 0 ⟨prev, Lexer.tokensAt offset line (program.flatMap LaidOut.pieces)⟩ = items line program := by
  induction program with
  | nil =>
    intro offset line prev _
    rw [List.flatMap_nil, Lexer.tokensAt, itemsFrom]
    rfl
  | cons l program ih =>
    intro offset line prev hprev
    have hspells : Spells (Lexer.tokensAt offset line l.pieces) l.statement.glyphs := by
      rw [Spells, Lexer.map_kind_tokensAt, ← l.spelled, List.map_map]
      rfl
    obtain ⟨t, us, last, hts, hlast, hitems⟩ := @itemsFrom_statement source prev _ l.statement hspells hprev
      (Lexer.tokensAt (offset + Text.byteLength l.chars) (line + Text.breaks l.chars) (program.flatMap LaidOut.pieces))
    have hline : t.line = line + Text.breaks l.lead := by
      cases hpieces : l.pieces with
      | nil => rw [hpieces] at hts; cases hts
      | cons p pieces =>
        rw [hpieces, Lexer.tokensAt] at hts
        rw [← (List.cons.inj hts).1, LaidOut.lead, hpieces]
        rfl
    rw [List.flatMap_cons, Lexer.tokensAt_append]
    refine hitems.trans ?_
    rw [ih _ _ fun p hp => Option.some.inj hp ▸ hlast, hline, items]

/-- there is no dot in a program, so no call of a method -/
theorem callsFrom_eq_nil {ts : List Token} (h : ∀ t ∈ ts, t.isPunct '.' = false) : ModuleSummary.callsFrom ts = [] := by
  induction ts with
  | nil => rfl
  | cons t ts ih =>
    have hrest := ih fun u hu => h u (List.mem_cons_of_mem _ hu)
    cases ts with
    | nil => rfl
    | cons u ts =>
      rw [ModuleSummary.callsFrom]
      simp [ModuleSummary.call?, h t List.mem_cons_self, hrest]

theorem isPunct_dot_tokensAt (pieces : List Spaced) (offset line : Nat) :
    ∀ t ∈ Lexer.tokensAt offset line pieces, t.isPunct '.' = false := by
  intro t ht
  have hkind : t.kind ∈ pieces.map (·.glyph.kind) := Lexer.map_kind_tokensAt pieces offset line ▸ List.mem_map_of_mem ht
  obtain ⟨p, -, hkind⟩ := List.mem_map.1 hkind
  cases hglyph : p.glyph with
  | word w => exact isPunct_word (hkind.symm.trans (by rw [hglyph])) '.'
  | quoted s => exact isPunct_quoted (hkind.symm.trans (by rw [hglyph])) '.'
  | mark c hc =>
    have hmarks : ∀ c ∈ Lexer.marks, (c == '.') = false := List.forall_iff_forall_mem.1 (by decide)
    rw [isPunct_mark (hkind.symm.trans (by rw [hglyph])) '.']
    exact hmarks c hc

/-- items of statements are imports and exports, and are added in order -/
theorem foldl_add_items (program : List LaidOut) :
    ∀ (line : Nat) (m : ModuleSummary), (items line program).foldl ModuleSummary.add m =
    { m with
      imports := m.imports ++ (items line program).filterMap importOf?
      exports := m.exports ++ (items line program).filterMap exportOf? } := by
  induction program with
  | nil => intro line m; simp [items]
  | cons l program ih =>
    intro line m
    have hitem : ∀ n, (∃ d, l.statement.item n = .importing d) ∨ ∃ d, l.statement.item n = .exporting d := by
      intro n
      cases l.statement with
      | exportAll n? s => cases n? <;> exact Or.inr ⟨_, rfl⟩
      | exportNamed es s? => exact Or.inr ⟨_, rfl⟩
      | _ => exact Or.inl ⟨_, rfl⟩
    rw [items, List.foldl_cons, ih]
    rcases hitem (line + Text.breaks l.lead) with ⟨d, hd⟩ | ⟨d, hd⟩
    · rw [hd]
      simp [ModuleSummary.add, importOf?, exportOf?, List.filterMap_cons]
    · rw [hd]
      simp [ModuleSummary.add, importOf?, exportOf?, List.filterMap_cons]

theorem specifiers_items (program : List LaidOut) : ∀ line : Nat,
    ((items line program).filterMap importOf?).map (·.specifier) = program.filterMap (·.statement.imported?) ∧
      ((items line program).filterMap exportOf?).filterMap (·.specifier) =
        program.filterMap (·.statement.passedOn?) := by
  induction program with
  | nil => intro line; exact ⟨rfl, rfl⟩
  | cons l program ih =>
    intro line
    obtain ⟨himports, hexports⟩ := ih (line + Text.breaks l.chars)
    rw [items, List.filterMap_cons, List.filterMap_cons, List.filterMap_cons, List.filterMap_cons]
    cases hs : l.statement with
    | exportAll n? s =>
      cases n?
        <;> simp [Statement.item, importOf?, exportOf?, Statement.imported?, Statement.passedOn?, himports, hexports]
    | exportNamed es s? =>
      cases s?
        <;> simp [Statement.item, importOf?, exportOf?, Statement.imported?, Statement.passedOn?, himports, hexports]
    | _ => simp [Statement.item, importOf?, exportOf?, Statement.imported?, Statement.passedOn?, himports, hexports]

theorem nodup_eraseDups (names : List String) : names.eraseDups.Nodup := by
  induction hlength : names.length using Nat.strong_induction_on generalizing names with
  | _ n ih =>
    cases names with
    | nil => exact List.nodup_nil
    | cons a names =>
      have hshorter : (names.filter fun b => !b == a).length < n := by
        have := List.length_filter_le (fun b => !b == a) names
        rw [List.length_cons] at hlength
        omega
      rw [List.eraseDups_cons]
      refine List.nodup_cons.2 ⟨fun ha => ?_, ih _ hshorter _ rfl⟩
      have := (List.mem_filter.1 (List.mem_eraseDups.1 ha)).2
      simp at this

/-- **A program of imports and exports is read as it is printed.** -/
theorem summary_of_program (program : List LaidOut) (last : List Trivia) :
    (ModuleSummary.ofText (programText program last)).imports = (items 0 program).filterMap importOf? ∧
      (ModuleSummary.ofText (programText program last)).exports = (items 0 program).filterMap exportOf? ∧
      (ModuleSummary.ofText (programText program last)).declarations = [] ∧
      (ModuleSummary.ofText (programText program last)).calls = [] ∧
      (ModuleSummary.ofText (programText program last)).exportAssignments = [] ∧
      (ModuleSummary.ofText (programText program last)).moduleSpecifiers =
        (program.filterMap (·.statement.imported?) ++ program.filterMap (·.statement.passedOn?)).eraseDups ∧
      (ModuleSummary.ofText (programText program last)).moduleSpecifiers.Nodup := by
  have htokens :
      Lexer.tokenize (programText program last).toList = Lexer.tokensAt 0 0 (program.flatMap LaidOut.pieces) := by
    rw [programText, String.toList_ofList, ← layout_program]
    exact Lexer.tokenize_layout (apart_program program) last
  have hsummary : ModuleSummary.ofText (programText program last) =
      { imports := (items 0 program).filterMap importOf?
        exports := (items 0 program).filterMap exportOf?
        classes := ModuleSummary.classesFrom none (Lexer.tokensAt 0 0 (program.flatMap LaidOut.pieces)) } := by
    rw [ModuleSummary.ofText, ModuleSummary.ofTokens, htokens, Cursor.start,
      itemsFrom_program _ _ _ _ (fun p hp => by cases hp), foldl_add_items,
      callsFrom_eq_nil (isPunct_dot_tokensAt _ _ _)]
    rfl
  have hspecifiers : (ModuleSummary.ofText (programText program last)).moduleSpecifiers =
      (program.filterMap (·.statement.imported?) ++ program.filterMap (·.statement.passedOn?)).eraseDups := by
    rw [hsummary, ModuleSummary.moduleSpecifiers, (specifiers_items program 0).1, (specifiers_items program 0).2]
  refine ⟨by rw [hsummary], by rw [hsummary], by rw [hsummary], by rw [hsummary], by rw [hsummary], hspecifiers, ?_⟩
  rw [hspecifiers]
  exact nodup_eraseDups _

-- `import type , { as as from } from 'm' ;`, where every name is a word of the grammar
example :
    (ModuleSummary.ofText (programText
      [.plain (.importing (.both ⟨"type", by decide +kernel⟩ (by decide) (.named [⟨asWord, some fromWord⟩]))
    ⟨'"', "m", by decide, List.forall_iff_forall_mem.1 (by decide +kernel)⟩)] [])).imports =
      [⟨"m", [⟨"type", "default", "m", .default⟩, ⟨"from", "as", "m", .named⟩], 0⟩] := by
  decide +kernel

end ClosurePipeline.Printed
