/-
The spans of a summary. Each declaration of a text has a comment in front of it, decorators behind its start and a body
behind these, and it ends before the next one starts. All spans are where the text says.

- `Cursor.Balanced`: tokens in which every bracket has its partner; `balanced_closing`: what is between a bracket and
  the one that closes it is balanced;
- `Decorator.Stands`: a decorator in the tokens of a text, with its arguments between its outer parentheses;
  `stands_read?`: every decorator that is read;
- `Declaration.Spanned`: the parts of a declaration; `Declaration.Precedes`: one declaration in front of another;
- `spanned_of_mem`, `pairwise_precedes`: the declarations of a text.
-/
import Mathlib.Tactic
import ClosurePipeline.Proofs.Module.Found
import ClosurePipeline.Proofs.Pass.Settled

namespace ClosurePipeline

open Lexer (StandsAt OnBoundary tokenize IsDocComment)

/-- what stands between two boundaries of a text -/
theorem Lexer.standsAt_slice {source : List Char} {start stop : Nat} (hstart : OnBoundary source start)
    (hstop : OnBoundary source stop) (hle : start ≤ stop) :
    ∃ rest, StandsAt source start stop (Text.slice source start stop) rest := by
  obtain ⟨before, tail, rfl, rfl⟩ := hstart
  obtain ⟨text, rest, rfl, rfl⟩ := EditScript.exists_split hstop hle
  have hstands :
      StandsAt (before ++ (text ++ rest)) (Text.byteLength before) (Text.byteLength (before ++ text)) text rest :=
    ⟨⟨before, rfl, rfl⟩, Text.byteLength_append _ _⟩
  exact ⟨rest, by rwa [hstands.slice_eq]⟩

section

variable {source : List Char} {t u : Token} {c d : Char}

/-- a text that starts with a token that is a character by itself -/
theorem Lexer.exists_text_of_isPunct {stop : Nat} (ht : t ∈ tokenize source) (h : t.isPunct c = true)
    (hc : c.utf8Size = 1) (hstop : OnBoundary source stop) (hle : t.stop ≤ stop) :
    ∃ more rest, StandsAt source t.start stop (c :: more) rest := by
  obtain ⟨hwidth, before, behind, rfl, hstart⟩ := Lexer.stop_of_isPunct ht h hc
  have hlen : Text.byteLength (before ++ [c]) = t.stop := by
    rw [Text.byteLength_append, Text.byteLength_cons, Text.byteLength_nil]; omega
  have hsource : before ++ c :: behind = (before ++ [c]) ++ behind := by simp
  rw [hsource] at hstop
  obtain ⟨more, rest, rfl, rfl⟩ := EditScript.exists_split hstop (hlen ▸ hle)
  refine ⟨more, rest, ⟨before, by simp, hstart.symm⟩, ?_⟩
  rw [Text.byteLength_append, hlen, hwidth, Text.byteLength_cons, hc, Nat.add_assoc]

/-- a text between two tokens that are characters by themselves -/
theorem Lexer.exists_text_between (ht : t ∈ tokenize source) (h : t.isPunct c = true) (hc : c.utf8Size = 1)
    (hu : u ∈ tokenize source) (h' : u.isPunct d = true) (hd : d.utf8Size = 1) (hle : t.stop ≤ u.start) :
    ∃ inner rest, StandsAt source t.start u.stop (c :: (inner ++ [d])) rest := by
  obtain ⟨inner, rest, hstands⟩ := Lexer.exists_text_of_isPunct ht h hc (Lexer.onBoundary_of_mem hu).1 hle
  obtain ⟨hwidth, before, behind, hsource, hstart⟩ := Lexer.stop_of_isPunct hu h' hd
  obtain rfl : rest = d :: behind := by rw [← hstands.dropBytes_eq, ← hstart, hsource, Text.dropBytes_byteLength_append]
  obtain ⟨⟨front, hsplit, hfront⟩, hstop⟩ := hstands
  refine ⟨inner, behind, ⟨front, by simp [hsplit], hfront⟩, ?_⟩
  rw [hwidth, hstop, ← List.cons_append, Text.byteLength_append, Text.byteLength_cons d, Text.byteLength_nil, hd,
    Nat.add_assoc]

end

/-! ## Brackets -/

namespace Cursor

/-- how many brackets more are open behind a token than in front of it -/
def rise (opening closer : Char) (t : Token) : Int :=
  if t.isPunct opening then 1 else if t.isPunct closer then -1 else 0

/-- how many brackets more are open behind tokens than in front of them -/
def height (opening closer : Char) (ts : List Token) : Int := (ts.map (rise opening closer)).sum

/-- no bracket is closed in these tokens that has not been opened in them, and all that have been are closed
at the end -/
structure Balanced (opening closer : Char) (ts : List Token) : Prop where
  nonneg : ∀ front, front <+: ts → 0 ≤ height opening closer front
  closed : height opening closer ts = 0

theorem Nests.rise_eq {opening closer : Char} {t : Token} {depth d : Nat} (h : Nests opening closer t depth d) :
    rise opening closer t = d - depth := by
  cases h with
  | opens hopening => simp [rise, hopening]
  | closes hopening hcloser => simp [rise, hopening, hcloser]
  | inside hopening hcloser => simp [rise, hopening, hcloser]

/-- up to the bracket that closes, `depth` more than are opened have been closed, and no more on the way -/
theorem height_closing {opening closer : Char} {ts : List Token} :
    ∀ {depth : Nat} {e : Enclosed}, closing opening closer depth ts = some e →
    height opening closer e.inner = -depth ∧ ∀ front, front <+: e.inner → -depth ≤ height opening closer front := by
  induction ts with
  | nil => intro depth e h; cases h
  | cons t ts ih =>
    intro depth e h
    rcases closing_cons h with ⟨rfl, -, -, rfl⟩ | ⟨d, e', hnests, he', rfl⟩
    · refine ⟨rfl, fun front hfront => ?_⟩
      rw [List.prefix_nil.1 hfront]
      exact Int.le_refl 0
    · obtain ⟨hclosed, hahead⟩ := ih he'
      have hcons : ∀ us, height opening closer (t :: us) = (d - depth) + height opening closer us := fun us => by
        rw [height, List.map_cons, List.sum_cons, hnests.rise_eq, height]
      refine ⟨by rw [hcons, hclosed]; omega, fun front hfront => ?_⟩
      rcases List.prefix_cons_iff.1 hfront with rfl | ⟨us, rfl, hus⟩
      · simp [height]
      · have hle := hahead us hus
        rw [hcons]
        omega

/-- **What is between a bracket and the one that closes it is balanced.** -/
theorem balanced_closing {opening closer : Char} {ts : List Token} {e : Enclosed}
    (h : closing opening closer 0 ts = some e) :
    Balanced opening closer e.inner := by
  obtain ⟨hclosed, hahead⟩ := height_closing h
  exact ⟨by simpa using hahead, by simpa using hclosed⟩

/-! ## Dotted names -/

/-- the parts of a dotted name are dots and words -/
theorem names_dottedParts (prev : Option Token) (ts : List Token) :
    ∃ passed, Passes ⟨prev, ts⟩ passed (dottedParts prev ts).2 ∧
    ∀ t ∈ passed, (∃ w, t.ident? = some w) ∨ t.isPunct '.' = true := by
  fun_induction dottedParts prev ts with
  | case1 prev dot part ts hdot s hs parts c hrec ih =>
    rw [hrec] at ih
    obtain ⟨passed, hpassed, hnames⟩ := ih
    exact ⟨dot :: part :: passed, ((Passes.next rfl).trans (Passes.next rfl)).trans hpassed,
      List.forall_mem_cons.2 ⟨Or.inr hdot, List.forall_mem_cons.2 ⟨Or.inl ⟨s, hs⟩, hnames⟩⟩⟩
  | case2 => exact ⟨[], .refl _, by simp⟩
  | case3 => exact ⟨[], .refl _, by simp⟩
  | case4 => exact ⟨[], .refl _, by simp⟩

/-- a dotted name is dots and words -/
theorem names_dottedName? {c c' : Cursor} {name : String} {passed : List Token} (h : c.dottedName? = some (name, c'))
    (hpass : c.Passes passed c') :
    ∀ t ∈ passed, (∃ w, t.ident? = some w) ∨ t.isPunct '.' = true := by
  obtain ⟨t, ts, word, hrest, hword, -, rfl⟩ := exists_first_of_dottedName? h
  obtain ⟨parts, hparts, hnames⟩ := names_dottedParts (some t) ts
  rw [← next_of_rest hrest] at hparts
  have hall := (Passes.next hrest).trans hparts
  obtain rfl : passed = [t] ++ parts := List.append_cancel_right (hpass.rest.symm.trans hall.rest)
  exact List.forall_mem_cons.2 ⟨Or.inl ⟨word, hword⟩, hnames⟩

end Cursor

/-! ## Decorators -/

namespace Decorator

/-- a decorator in the tokens of a text: an at sign and a name, or these with arguments, which are all that stands
between the outer parentheses -/
inductive Stands (source : List Char) : Decorator → Prop where
  | plain {front name behind : List Token} {sign last : Token} (n : String) (line : Nat)
      (htokens : tokenize source = front ++ sign :: (name ++ behind)) (hsign : sign.isPunct '@' = true)
      (hname : ∀ t ∈ name, (∃ w, t.ident? = some w) ∨ t.isPunct '.' = true) (hlast : name.getLast? = some last)
      (hbehind : ∀ t ∈ behind.head?, ¬ t.isPunct '(' = true) : Stands source ⟨n, none, ⟨sign.start, last.stop⟩, line⟩
  | called {front name inner behind : List Token} {sign opening close : Token} {arguments rest : List Char} (n : String)
      (line : Nat) (htokens : tokenize source = front ++ sign :: (name ++ opening :: (inner ++ close :: behind)))
      (hsign : sign.isPunct '@' = true) (hname : ∀ t ∈ name, (∃ w, t.ident? = some w) ∨ t.isPunct '.' = true)
      (hopening : opening.isPunct '(' = true) (hclose : close.isPunct ')' = true)
      (hinner : Cursor.Balanced '(' ')' inner) (harguments : StandsAt source opening.stop close.start arguments rest) :
      Stands source ⟨n, some (String.ofList arguments), ⟨sign.start, close.stop⟩, line⟩

section

variable {source : List Char} {c c' : Cursor} {r : Decorator}

/-- **Every decorator that is read stands in the text.** -/
theorem stands_read? (h : (Cursor.start (tokenize source)).Onward c) (hat : c.isPunct 0 '@' = true)
    (hr : read? source c = some (r, c')) :
    r.Stands source := by
  obtain ⟨first, hfirst, hr⟩ := Option.bind_eq_some_iff.1 hr
  obtain ⟨⟨name, after⟩, hname, hr⟩ := Option.bind_eq_some_iff.1 hr
  obtain ⟨ts, hrest⟩ := List.head?_eq_some_iff.1 hfirst
  have hsign : first.isPunct '@' = true := by simpa [Cursor.isPunct, hrest] using hat
  obtain ⟨passed, last, hpassed, hlast, -⟩ := Cursor.passes_dottedName? hname
  have hnames := Cursor.names_dottedName? hname hpassed
  obtain ⟨front, hfront⟩ := h.exists_passes
  have htokens : tokenize source = front ++ first :: (passed ++ after.rest) :=
    hfront.rest.trans (by rw [(Cursor.Passes.next hrest).rest, hpassed.rest]; rfl)
  have hprev : after.prev = some last := by rw [hpassed.prev, hlast]; rfl
  simp only at hr
  split_ifs at hr with hparen
  · obtain ⟨opening, hopening, hr⟩ := Option.bind_eq_some_iff.1 hr
    obtain ⟨e, he, hr⟩ := Option.bind_eq_some_iff.1 hr
    cases hr
    obtain ⟨t, ht, hbrackets, hclose, hclosing⟩ := Cursor.passes_enclosed? he
    obtain rfl : t = opening := by
      rw [hbrackets.rest] at hopening
      exact Option.some.inj hopening
    have htokens' : tokenize source = front ++ first :: (passed ++ t :: (e.inner ++ e.close :: e.after.rest)) := by
      rw [htokens, hbrackets.rest]
      simp
    have hle : t.stop ≤ e.close.start := by
      have hsplit : tokenize source = (front ++ first :: (passed ++ t :: e.inner)) ++ (e.close :: e.after.rest) := by
        rw [htokens']; simp
      exact Lexer.stop_le_start hsplit (by simp) List.mem_cons_self
    obtain ⟨behind, hbehind⟩ := Lexer.standsAt_slice (Lexer.onBoundary_of_mem (by rw [htokens']; simp)).2
      (Lexer.onBoundary_of_mem (by rw [htokens']; simp)).1 hle
    exact .called name first.line htokens' hsign hnames ht hclose (Cursor.balanced_closing hclosing) hbehind
  · obtain ⟨last', hlast', hr⟩ := Option.bind_eq_some_iff.1 hr
    cases hr
    obtain rfl : last' = last := Option.some.inj (hlast'.symm.trans hprev)
    refine .plain name first.line htokens hsign hnames hlast fun t ht => ?_
    obtain ⟨ahead, hahead⟩ := List.head?_eq_some_iff.1 ht
    simpa [Cursor.isPunct, hahead] using hparen

/-- each of the decorators ahead has been read at a place further on -/
theorem exists_read_of_mem {c₀ : Cursor} (c : Cursor) :
    c₀.Onward c → ∀ {rs : List Decorator} {c' : Cursor}, readAll? source c = some (rs, c') →
    ∀ r ∈ rs, ∃ k k', c₀.Onward k ∧ k.isPunct 0 '@' = true ∧ read? source k = some (r, k') := by
  fun_induction readAll? source c with
  | case1 c hat hr => intro _ rs c' h; cases h
  | case2 c hat d c₁ hr ih =>
    intro hon rs c' h
    obtain ⟨⟨rs', c₂⟩, hrest, e⟩ := Option.map_eq_some_iff.1 h
    cases e
    exact List.forall_mem_cons.2 ⟨⟨c, c₁, hon, hat, hr⟩, ih (onward_read? hon hr) hrest⟩
  | case3 c hat =>
    intro _ rs c' h
    cases h
    exact fun r hr => absurd hr List.not_mem_nil

/-- a decorator starts with its at sign -/
theorem Stands.exists_text (h : r.Stands source) :
    ∃ more rest, StandsAt source r.span.start r.span.stop ('@' :: more) rest := by
  cases h with
  | plain n line htokens hsign hname hlast hbehind =>
    rename_i front name behind sign last
    have hmem := List.mem_of_getLast? hlast
    have hsplit : tokenize source = (front ++ [sign]) ++ (name ++ behind) := by simp [htokens]
    have hle := Lexer.stop_le_start hsplit (t := sign) (by simp) (List.mem_append_left _ hmem)
    have hlast' : last ∈ tokenize source := by simp [htokens, hmem]
    exact Lexer.exists_text_of_isPunct (by simp [htokens]) hsign (by decide) (Lexer.onBoundary_of_mem hlast').2
      (hle.trans (Lexer.start_lt_stop hlast').le)
  | called n line htokens hsign hname hopening hclose hinner harguments =>
    rename_i front name inner behind sign opening close arguments rest
    have hsplit : tokenize source = (front ++ [sign]) ++ (name ++ opening :: (inner ++ close :: behind)) := by
      simp [htokens]
    have hle := Lexer.stop_le_start hsplit (t := sign) (u := close) (by simp) (by simp)
    have hclose' : close ∈ tokenize source := by simp [htokens]
    exact Lexer.exists_text_of_isPunct (by simp [htokens]) hsign (by decide) (Lexer.onBoundary_of_mem hclose').2
      (hle.trans (Lexer.start_lt_stop hclose').le)

/-- decorators whose tokens come one behind the other do so themselves, each from one of its tokens to another -/
theorem Marks.apart {rs : List Decorator} {ts : List Token} (h : Marks rs ts) : ∀ {front behind : List Token},
    tokenize source = front ++ (ts ++ behind) → (rs.Pairwise fun r s => r.span.stop ≤ s.span.start) ∧
      ∀ r ∈ rs, (∃ t ∈ ts, r.span.start = t.start) ∧ ∃ t ∈ ts, r.span.stop = t.stop := by
  induction h with
  | nil => intro front behind _; simp
  | @cons r rs xs ys hr hrs ih =>
    intro front behind htokens
    have hbehind : tokenize source = (front ++ xs) ++ (ys ++ behind) := by simp [htokens]
    obtain ⟨hapart, hspans⟩ := ih hbehind
    obtain ⟨first, hfirst, -, hstart⟩ := hr.first
    obtain ⟨last, hlast, hstop, -⟩ := hr.last
    refine ⟨List.pairwise_cons.2 ⟨fun s hs => ?_, hapart⟩, List.forall_mem_cons.2 ⟨?_, fun s hs => ?_⟩⟩
    · obtain ⟨t, ht, hs⟩ := (hspans s hs).1
      rw [hstop, hs]
      exact Lexer.stop_le_start hbehind (List.mem_append_right _ (List.mem_of_mem_getLast? hlast))
        (List.mem_append_left _ ht)
    · exact ⟨⟨first, List.mem_append_left _ (List.mem_of_mem_head? hfirst), hstart⟩, last,
        List.mem_append_left _ (List.mem_of_mem_getLast? hlast), hstop⟩
    · obtain ⟨⟨t, ht, hstart⟩, u, hu, hstop⟩ := hspans s hs
      exact ⟨⟨t, List.mem_append_right _ ht, hstart⟩, u, List.mem_append_right _ hu, hstop⟩

end

end Decorator

/-! ## Declarations -/

namespace Declaration

/-- how the parts of a declaration lie in a text -/
structure Spanned (source : List Char) (d : Declaration) : Prop where
  /-- its comment is a whole one, in front of its start -/
  doc : ∀ doc ∈ d.doc, doc.span.stop ≤ d.start ∧ IsDocComment doc.text.toList ∧
      ∃ rest, StandsAt source doc.span.start doc.span.stop doc.text.toList rest
  /-- its decorators come one behind the other -/
  apart : d.decorators.Pairwise fun r s => r.span.stop ≤ s.span.start
  /-- each of them stands between its start and its body, and starts with an at sign -/
  decorators : ∀ r ∈ d.decorators, r.Stands source ∧
      (∃ more rest, StandsAt source r.span.start r.span.stop ('@' :: more) rest) ∧
    d.start ≤ r.span.start ∧ ∀ body ∈ d.body, r.span.stop ≤ body.start
  /-- its body is in braces, not in front of its start -/
  body : ∀ body ∈ d.body, d.start ≤ body.start ∧ ∃ inner rest,
      StandsAt source body.start body.stop ('{' :: (inner ++ ['}'])) rest

/-- a declaration in front of another one: it starts first, and has no body behind the start or the comment
of the other -/
structure Precedes (d e : Declaration) : Prop where
  start_lt : d.start < e.start
  body_le : ∀ body ∈ d.body, body.stop ≤ e.start
  body_le_doc : ∀ body ∈ d.body, ∀ doc ∈ e.doc, body.stop ≤ doc.span.start

/-- the decorators of a declaration that is read have been read at its start -/
theorem readAll?_of_read? {source : List Char} {c c' : Cursor} {d : Declaration}
    (h : read? source c = some (some d, c')) :
    ∃ c₁, Decorator.readAll? source c = some (d.decorators, c₁) := by
  obtain ⟨_, _, c₁, _, -, hall, -, h⟩ := exists_rest_of_read? h
  obtain ⟨-, -, -, hdecorators, -⟩ := readRest_eq h
  exact ⟨c₁, hdecorators ▸ hall⟩

end Declaration

namespace Placed

variable {source : List Char} {front : List Token} {l : Layout} {behind : List Token} {d : Declaration}

/-- the comment of a declaration is closed: it has the declaration behind it -/
theorem isDocComment (h : Placed source front l behind d) {doc : DocComment} (hdoc : d.doc = some doc) :
    doc.span.stop ≤ d.start ∧ IsDocComment doc.text.toList ∧
    ∃ rest, StandsAt source doc.span.start doc.span.stop doc.text.toList rest := by
  obtain ⟨p, hp, hdoc⟩ := h.exists_comment hdoc
  obtain ⟨first, hfirst, hstart⟩ := h.exists_first
  obtain ⟨text, rest, hstands, hspelled⟩ := Lexer.exists_spelled (h.mem_front hp)
  have hle := h.stop_le_start hp
  have hrest : rest ≠ [] := Lexer.rest_ne_nil_of_le hstands (h.mem hfirst) (hle.trans_eq hstart)
  obtain ⟨hcomment, hkind, hspan⟩ := Pass.ClosureDocs.isDocComment_of_docOf? hspelled hrest hdoc
  have htext : doc.text.toList = text := by
    rw [Declaration.docOf?, hkind] at hdoc
    cases hdoc
    exact String.toList_ofList
  rw [hspan, htext]
  exact ⟨hle, hcomment, rest, hstands⟩

/-- decorators come one behind the other, from the start of a declaration on and in front of its body -/
theorem decorators (h : Placed source front l behind d) :
    (d.decorators.Pairwise fun r s => r.span.stop ≤ s.span.start) ∧
    ∀ r ∈ d.decorators, d.start ≤ r.span.start ∧ ∀ body ∈ d.body, r.span.stop ≤ body.start := by
  have htokens : Lexer.tokenize source =
      front ++ (l.marks ++ ((l.words ++ l.word :: (l.head ++ l.body)) ++ behind)) := by simp [h.tokens, Layout.tokens]
  obtain ⟨hapart, hspans⟩ := h.of.marks.apart htokens
  refine ⟨hapart, fun r hr => ?_⟩
  obtain ⟨⟨t, ht, hstart⟩, u, hu, hstop⟩ := hspans r hr
  refine ⟨hstart ▸ h.start_le (List.mem_append_left _ ht), fun body hbody => ?_⟩
  obtain ⟨opening, hopening, close, -, -, -, rfl, -⟩ := h.exists_braces hbody
  have hsplit : Lexer.tokenize source = (front ++ l.marks) ++
      ((l.words ++ l.word :: (l.head ++ l.body)) ++ behind) := by simp [htokens]
  rw [hstop]
  exact Lexer.stop_le_start hsplit (List.mem_append_right _ hu) (by simp [hopening])

/-- a body is not in front of the start, and in braces -/
theorem body (h : Placed source front l behind d) {body : Span} (hbody : d.body = some body) :
    d.start ≤ body.start ∧ ∃ inner rest, StandsAt source body.start body.stop ('{' :: (inner ++ ['}'])) rest := by
  obtain ⟨opening, hopening, close, hlast, hopens, hcloses, rfl, hle⟩ := h.exists_braces hbody
  have hopening : opening ∈ l.tokens := by simp [Layout.tokens, hopening]
  exact ⟨h.start_le hopening, Lexer.exists_text_between (h.mem hopening) hopens (by decide)
    (h.mem (List.mem_of_getLast? hlast)) hcloses (by decide) hle⟩

/-- the part of a declaration is between two characters -/
theorem onBoundary (h : Placed source front l behind d) :
    OnBoundary source d.fromByte ∧ OnBoundary source d.uptoByte := by
  obtain ⟨first, hfirst, hstart⟩ := h.exists_first
  have hboundary : OnBoundary source d.start := hstart ▸ (Lexer.onBoundary_of_mem (h.mem hfirst)).1
  refine ⟨?_, ?_⟩
  · cases hdoc : d.doc with
    | none => simpa [Declaration.fromByte, hdoc] using hboundary
    | some doc =>
      obtain ⟨-, -, rest, hstands⟩ := h.isDocComment hdoc
      simpa [Declaration.fromByte, hdoc] using hstands.onBoundary.1
  · cases hbody : d.body with
    | none => simpa [Declaration.uptoByte, hbody] using hboundary
    | some body =>
      obtain ⟨-, inner, rest, hstands⟩ := h.body hbody
      exact Declaration.uptoByte_of_body hbody ▸ hstands.onBoundary.2

end Placed

namespace ModuleSummary

variable {text : String} {d : Declaration}

/-- **The parts of a declaration of a text** are where the text says, one behind the other. -/
theorem spanned_of_mem (hd : d ∈ (ofText text).declarations) : d.Spanned text.toList := by
  obtain ⟨front, l, behind, hplaced⟩ := exists_placed hd
  obtain ⟨k, k', hon, hread⟩ := exists_read_of_mem hd
  obtain ⟨c, hall⟩ := Declaration.readAll?_of_read? hread
  obtain ⟨hapart, hspans⟩ := hplaced.decorators
  refine ⟨fun doc hdoc => hplaced.isDocComment hdoc, hapart, fun r hr => ?_, fun body hbody => hplaced.body hbody⟩
  obtain ⟨m, m', hmark, hat, hr'⟩ := Decorator.exists_read_of_mem k hon hall r hr
  have hstands := Decorator.stands_read? hmark hat hr'
  exact ⟨hstands, hstands.exists_text, hspans r hr⟩

/-- the parts of declarations do not overlap -/
theorem pairwise_parts (text : String) : (ofText text).declarations.Pairwise fun d e => d.uptoByte ≤ e.fromByte := by
  -- edits that replace the parts are in order
  have horderly :
      EditScript.Orderly text.toList ((ofText text).declarations.flatMap fun d => [⟨d.fromByte, d.uptoByte, []⟩]) :=
    orderly_declarations fun front l behind d _ hplaced =>
      .singleton hplaced.onBoundary.1 hplaced.onBoundary.2 (hplaced.fromByte_le.trans hplaced.start_le_uptoByte)
        (Nat.le_refl _) (Nat.le_refl _)
  have hapart := horderly.apart
  rw [← List.map_eq_flatMap, List.pairwise_map] at hapart
  exact hapart

/-- **The declarations of a text** come one behind the other. -/
theorem pairwise_precedes (text : String) : (ofText text).declarations.Pairwise Declaration.Precedes := by
  have hstarts : (ofText text).declarations.Pairwise fun d e => d.start < e.start :=
    Pass.ClosureDocs.increasing_declarations ⟨""⟩ text
  refine (hstarts.and (pairwise_parts text)).imp_of_mem fun {d e} _ he hboth => ?_
  obtain ⟨hlt, hle⟩ := hboth
  obtain ⟨front, l, behind, hplaced⟩ := exists_placed he
  have hbody : ∀ body ∈ d.body, body.stop ≤ e.fromByte := fun body hbody => Declaration.uptoByte_of_body hbody ▸ hle
  refine ⟨hlt, fun body hb => (hbody body hb).trans hplaced.fromByte_le, fun body hb doc hdoc => ?_⟩
  have hfrom : e.fromByte = doc.span.start := by rw [Declaration.fromByte, Option.mem_def.1 hdoc]; rfl
  exact hfrom ▸ hbody body hb

end ModuleSummary

end ClosurePipeline
