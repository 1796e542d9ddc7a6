/-
Where declarations stand in a text. Tokens come one behind the other, and so do the parts of declarations, from the
comment to the end of the body.

- `pairwise_tokenize`, `stop_le_start`: a token ends before the next one starts;
- `Confined`: edits in order that stay between two bytes; `Declaration.fromByte`, `Declaration.uptoByte`: the part of a
  declaration;
- `Placed`: a declaration read from tokens of a text; `Placed.le_fromByte`, `Placed.uptoByte_le`: its part, seen from
  the tokens around it;
- `orderly_of_row`: edits that stay in the parts of declarations in a row are in order, by induction on the row.
-/
import Mathlib.Tactic
import ClosurePipeline.Proofs.Edit.Exact
import ClosurePipeline.Proofs.Module.Laid

namespace ClosurePipeline

open EditScript (Orderly)

/-! ## Tokens in order -/

namespace Lexer

theorem pairwise_tokenize (cs : List Char) : (tokenize cs).Pairwise fun t u => t.stop ≤ u.start := by
  obtain ⟨gaps, htiled⟩ := tiled_tokensFrom none cs 0 0
  exact htiled.ordered.1

section

variable {cs : List Char} {t u : Token}

theorem start_lt_stop (ht : t ∈ tokenize cs) : t.start < t.stop := by
  obtain ⟨text, rest, hstands, hspelled⟩ := exists_spelled ht
  exact hstands.lt_stop hspelled.ne_nil

theorem onBoundary_of_mem (ht : t ∈ tokenize cs) : OnBoundary cs t.start ∧ OnBoundary cs t.stop := by
  obtain ⟨text, rest, hstands, -⟩ := exists_spelled ht
  exact hstands.onBoundary

theorem stop_le_start {xs ys : List Token} (h : tokenize cs = xs ++ ys) (ht : t ∈ xs) (hu : u ∈ ys) :
    t.stop ≤ u.start := by
  have hpairs := pairwise_tokenize cs
  rw [h, List.pairwise_append] at hpairs
  exact hpairs.2.2 t ht u hu

/-- a token with another one behind it has text behind it -/
theorem rest_ne_nil_of_le {text rest : List Char} (h : StandsAt cs t.start t.stop text rest) (hu : u ∈ tokenize cs)
    (hle : t.stop ≤ u.start) :
    rest ≠ [] := by
  rintro rfl
  obtain ⟨_, _, hstands, -⟩ := exists_spelled hu
  have hlt := start_lt_stop hu
  have hin := hstands.stop_le
  obtain ⟨⟨before, rfl, hbefore⟩, hstop⟩ := h
  rw [List.append_nil, Text.byteLength_append] at hin
  omega

/-- no token of a stretch is in front of its first -/
theorem start_le_of_head? {front ts rest : List Token} (h : tokenize cs = front ++ (ts ++ rest)) (ht : t ∈ ts.head?)
    (hu : u ∈ ts) :
    t.start ≤ u.start := by
  obtain ⟨us, rfl⟩ := List.head?_eq_some_iff.1 ht
  rcases List.mem_cons.1 hu with rfl | hu
  · exact Nat.le_refl _
  · have hsplit : tokenize cs = (front ++ [t]) ++ (us ++ rest) := by simp [h]
    have hstop : t.stop ≤ u.start := stop_le_start hsplit (by simp) (List.mem_append_left _ hu)
    have hmem : t ∈ tokenize cs := by simp [h]
    exact (start_lt_stop hmem).le.trans hstop

/-- a character by itself is a byte long -/
theorem stop_of_isPunct {c : Char} (ht : t ∈ tokenize cs) (h : t.isPunct c = true) (hc : c.utf8Size = 1) :
    t.stop = t.start + 1 ∧ ∃ before behind, cs = before ++ c :: behind ∧ Text.byteLength before = t.start := by
  obtain ⟨text, rest, ⟨⟨before, hcs, hstart⟩, hstop⟩, hspelled⟩ := exists_spelled ht
  rw [eq_of_beq h] at hspelled
  obtain rfl : text = [c] := hspelled
  rw [Text.byteLength_cons, Text.byteLength_nil, hc] at hstop
  exact ⟨hstop, before, rest, hcs, hstart.symm⟩

end

end Lexer

/-! ## Parts of declarations -/

/-- edits in order that stay between two bytes -/
structure Confined (source : List Char) (lo hi : Nat) (es : List Edit) : Prop where
  orderly : Orderly source es
  from_le : ∀ e ∈ es, lo ≤ e.start
  le_upto : ∀ e ∈ es, e.stop ≤ hi

namespace Confined

variable {source : List Char} {lo mid hi : Nat} {es more : List Edit}

theorem nil : Confined source lo hi [] := ⟨.nil, by simp, by simp⟩

theorem singleton {e : Edit} (hstart : Lexer.OnBoundary source e.start) (hstop : Lexer.OnBoundary source e.stop)
    (hle : e.start ≤ e.stop) (hlo : lo ≤ e.start) (hhi : e.stop ≤ hi) : Confined source lo hi [e] :=
  ⟨.singleton hstart hstop hle, List.forall_mem_singleton.2 hlo, List.forall_mem_singleton.2 hhi⟩

theorem append (h : Confined source lo mid es) (h' : Confined source mid hi more) (hlo : lo ≤ mid) (hhi : mid ≤ hi) :
    Confined source lo hi (es ++ more) where
  orderly := h.orderly.append h'.orderly fun a ha b hb => (h.le_upto a ha).trans (h'.from_le b hb)
  from_le := List.forall_mem_append.2 ⟨h.from_le, fun e he => hlo.trans (h'.from_le e he)⟩
  le_upto := List.forall_mem_append.2 ⟨fun e he => (h.le_upto e he).trans hhi, h'.le_upto⟩

theorem sublist (h : Confined source lo hi es) (hsub : more.Sublist es) : Confined source lo hi more :=
  ⟨h.orderly.sublist hsub, fun e he => h.from_le e (hsub.subset he), fun e he => h.le_upto e (hsub.subset he)⟩

end Confined

namespace Declaration

/-- where the part of a declaration starts: at its comment, or at its first token -/
def fromByte (d : Declaration) : Nat := (d.doc.map fun doc => doc.span.start).getD d.start

/-- where the part of a declaration ends: behind its body, or at its first token -/
def uptoByte (d : Declaration) : Nat := (d.body.map Span.stop).getD d.start

theorem uptoByte_of_body {d : Declaration} {body : Span} (h : d.body = some body) : d.uptoByte = body.stop := by
  rw [uptoByte, h]
  rfl

theorem span_of_docOf? {t : Token} {doc : DocComment} (h : docOf? t = some doc) : doc.span = ⟨t.start, t.stop⟩ := by
  unfold docOf? at h
  split at h
  · cases h
    rfl
  · cases h

end Declaration

/-- a declaration read from tokens of a text -/
structure Placed (source : List Char) (front : List Token) (l : Layout) (behind : List Token) (d : Declaration) :
    Prop where
  tokens : Lexer.tokenize source = front ++ (l.tokens ++ behind)
  of : l.Of front.getLast? d

namespace Placed

variable {source : List Char} {front : List Token} {l : Layout} {behind : List Token} {d : Declaration}

theorem mem (h : Placed source front l behind d) {t : Token} (ht : t ∈ l.tokens) : t ∈ Lexer.tokenize source := by
  simp [h.tokens, ht]

theorem start_le (h : Placed source front l behind d) {t : Token} (ht : t ∈ l.tokens) : d.start ≤ t.start := by
  obtain ⟨first, hfirst, hstart, -⟩ := h.of.start
  rw [hstart]
  exact Lexer.start_le_of_head? h.tokens hfirst ht

theorem exists_first (h : Placed source front l behind d) : ∃ first ∈ l.tokens, d.start = first.start := by
  obtain ⟨first, hfirst, hstart, -⟩ := h.of.start
  exact ⟨first, List.mem_of_mem_head? hfirst, hstart⟩

/-- nothing in front of a declaration reaches into it -/
theorem stop_le_start (h : Placed source front l behind d) {p : Token} (hp : p ∈ front.getLast?) :
    p.stop ≤ d.start := by
  obtain ⟨first, hfirst, hstart⟩ := h.exists_first
  rw [hstart]
  exact Lexer.stop_le_start h.tokens (List.mem_of_mem_getLast? hp) (List.mem_append_left _ hfirst)

theorem exists_comment (h : Placed source front l behind d) {doc : DocComment} (hdoc : d.doc = some doc) :
    ∃ p ∈ front.getLast?, Declaration.docOf? p = some doc := Option.bind_eq_some_iff.1 (h.of.doc.symm.trans hdoc)

theorem mem_front (h : Placed source front l behind d) {p : Token} (hp : p ∈ front.getLast?) :
    p ∈ Lexer.tokenize source := by
  rw [h.tokens]
  exact List.mem_append_left _ (List.mem_of_mem_getLast? hp)

theorem fromByte_le (h : Placed source front l behind d) : d.fromByte ≤ d.start := by
  cases hdoc : d.doc with
  | none => simp [Declaration.fromByte, hdoc]
  | some doc =>
    obtain ⟨p, hp, hdoc'⟩ := h.exists_comment hdoc
    have hlt := Lexer.start_lt_stop (h.mem_front hp)
    have hle := h.stop_le_start hp
    simp only [Declaration.fromByte, hdoc, Option.map_some, Option.getD_some, Declaration.span_of_docOf? hdoc']
    omega

/-- the part of a declaration starts with the token in front of it, if that is its comment, and behind the token
otherwise -/
theorem le_fromByte (h : Placed source front l behind d) {p : Token} (hp : p ∈ front.getLast?) :
    p.start ≤ d.fromByte ∧ (Declaration.docOf? p = none → p.stop ≤ d.fromByte) := by
  have hlt := Lexer.start_lt_stop (h.mem_front hp)
  have hle := h.stop_le_start hp
  have hdoc := h.of.doc
  rw [Option.mem_def.1 hp, Option.bind_some] at hdoc
  cases hp' : Declaration.docOf? p with
  | none =>
    rw [hp'] at hdoc
    simp only [Declaration.fromByte, hdoc, Option.map_none, Option.getD_none]
    omega
  | some doc =>
    rw [hp'] at hdoc
    simp only [Declaration.fromByte, hdoc, Option.map_some, Option.getD_some, Declaration.span_of_docOf? hp']
    exact ⟨Nat.le_refl _, by simp⟩

/-- a body is the last part of a declaration, between two braces -/
theorem exists_braces (h : Placed source front l behind d) {span : Span} (hbody : d.body = some span) :
    ∃ opening ∈ l.body, ∃ close,
    l.tokens.getLast? = some close ∧ opening.isPunct '{' = true ∧ close.isPunct '}' = true ∧
    span = ⟨opening.start, close.stop⟩ ∧
      opening.stop ≤ close.start := by
  have hb := h.of.body
  rw [hbody] at hb
  obtain ⟨opening, inner, close, hl, hopening, hclose, hspan⟩ := hb
  have htokens : l.tokens = (l.marks ++ (l.words ++ l.word :: (l.head ++ opening :: inner))) ++ [close] := by
    simp [Layout.tokens, hl]
  refine ⟨opening, by simp [hl], close, by rw [htokens, List.getLast?_concat], hopening, hclose, hspan, ?_⟩
  have hsplit : Lexer.tokenize source = (front ++ (l.marks ++ (l.words ++ l.word :: (l.head ++ opening :: inner)))) ++
      (close :: behind) := by
    rw [h.tokens, htokens]
    simp
  exact Lexer.stop_le_start hsplit (by simp) List.mem_cons_self

theorem start_le_uptoByte (h : Placed source front l behind d) : d.start ≤ d.uptoByte := by
  cases hbody : d.body with
  | none => simp [Declaration.uptoByte, hbody]
  | some span =>
    obtain ⟨opening, -, close, hlast, -, -, rfl, -⟩ := h.exists_braces hbody
    have hclose := List.mem_of_getLast? hlast
    have hle := h.start_le hclose
    have hlt := Lexer.start_lt_stop (h.mem hclose)
    rw [Declaration.uptoByte_of_body hbody]
    exact hle.trans hlt.le

/-- behind its last token a declaration has no part, and in it only if a brace closes its body -/
theorem uptoByte_le (h : Placed source front l behind d) {last : Token} (hlast : last ∈ l.tokens.getLast?) :
    d.uptoByte ≤ last.start ∨ Declaration.docOf? last = none ∧ d.uptoByte = last.stop := by
  cases hbody : d.body with
  | none =>
    simp only [Declaration.uptoByte, hbody, Option.map_none, Option.getD_none]
    exact Or.inl (h.start_le (List.mem_of_mem_getLast? hlast))
  | some span =>
    obtain ⟨opening, -, close, hclose, -, hbrace, rfl, -⟩ := h.exists_braces hbody
    obtain rfl : close = last := Option.some.inj (hclose.symm.trans hlast)
    simp only [Declaration.uptoByte, hbody, Option.map_some, Option.getD_some, Declaration.docOf?, eq_of_beq hbrace]
    exact Or.inr ⟨trivial, trivial⟩

end Placed

/-- **The edits for declarations in a row are in order,** if the edits for each of them stay in its part. They start
behind the token in front of the row, or with it if it is a comment. -/
theorem orderly_of_row {source : List Char} {f : Declaration → List Edit} {prev : Option Token} {ts : List Token}
    {ds : List Declaration} (hrow : Row prev ts ds) :
    ∀ {front : List Token}, Lexer.tokenize source = front ++ ts → front.getLast? = prev →
    (∀ front l behind, ∀ d ∈ ds, Placed source front l behind d → Confined source d.fromByte d.uptoByte (f d)) →
    Orderly source (ds.flatMap f) ∧
      ∀ e ∈ ds.flatMap f, ∀ p ∈ prev, p.start ≤ e.start ∧ (Declaration.docOf? p = none → p.stop ≤ e.start) := by
  induction hrow with
  | nil prev => intro front _ _ _; exact ⟨.nil, by simp⟩
  | @pass prev t ts ds hrow ih =>
    rintro front htokens rfl hf
    have htokens' : Lexer.tokenize source = (front ++ [t]) ++ ts := by simp [htokens]
    obtain ⟨horderly, hfrom⟩ := ih htokens' (by simp) hf
    refine ⟨horderly, fun e he p hp => ?_⟩
    have hp' : p ∈ Lexer.tokenize source := by simp [htokens, List.mem_of_mem_getLast? hp]
    have hlt := Lexer.start_lt_stop hp'
    have hle := Lexer.stop_le_start htokens (List.mem_of_mem_getLast? hp) List.mem_cons_self
    have hte := (hfrom e he t rfl).1
    exact ⟨by omega, fun _ => by omega⟩
  | @declare prev l d rest ds hl hrow ih =>
    rintro front htokens rfl hf
    have hplaced : Placed source front l rest d := ⟨htokens, hl⟩
    have hconfined := hf front l rest d List.mem_cons_self hplaced
    obtain ⟨last, hlast⟩ : ∃ last, l.tokens.getLast? = some last := by
      rw [← Option.isSome_iff_exists, List.getLast?_isSome]
      simp [Layout.tokens]
    have hprev : (front ++ l.tokens).getLast? = l.tokens.getLast?.or front.getLast? := List.getLast?_append
    obtain ⟨horderly, hfrom⟩ := ih (by rw [htokens, List.append_assoc]) hprev
      fun front l behind d' hd' => hf front l behind d' (List.mem_cons_of_mem _ hd')
    -- what comes later starts behind the part of the declaration
    have hlater : ∀ e ∈ ds.flatMap f, d.uptoByte ≤ e.start := by
      intro e he
      obtain ⟨hstart, hstop⟩ := hfrom e he last (by rw [hlast, Option.some_or]; rfl)
      rcases hplaced.uptoByte_le hlast with hle | ⟨hdoc, hle⟩
      · exact hle.trans hstart
      · exact hle.trans_le (hstop hdoc)
    rw [List.flatMap_cons]
    refine ⟨hconfined.orderly.append horderly fun a ha b hb => (hconfined.le_upto a ha).trans (hlater b hb),
      fun e he p hp => ?_⟩
    have hpart : d.fromByte ≤ e.start := by
      rcases List.mem_append.1 he with he | he
      · exact hconfined.from_le e he
      · exact (hplaced.fromByte_le.trans hplaced.start_le_uptoByte).trans (hlater e he)
    obtain ⟨hstart, hstop⟩ := hplaced.le_fromByte hp
    exact ⟨hstart.trans hpart, fun hdoc => (hstop hdoc).trans hpart⟩

/-- the edits for the declarations of a text are in order, if the edits for each of them stay in its part -/
theorem orderly_declarations {text : String} {f : Declaration → List Edit}
    (hf : ∀ front l behind, ∀ d ∈ (ModuleSummary.ofText text).declarations, Placed text.toList front l behind d →
      Confined text.toList d.fromByte d.uptoByte (f d)) :
    Orderly text.toList ((ModuleSummary.ofText text).declarations.flatMap f) :=
  (orderly_of_row (ModuleSummary.row_ofTokens text.toList (Lexer.tokenize text.toList))
    (List.nil_append _).symm rfl hf).1

/-- a declaration of a text is placed in it -/
theorem exists_placed {text : String} {d : Declaration} (hd : d ∈ (ModuleSummary.ofText text).declarations) :
    ∃ front l behind, Placed text.toList front l behind d := by
  obtain ⟨front, l, behind, htokens, hl⟩ :=
    (ModuleSummary.row_ofTokens text.toList (Lexer.tokenize text.toList)).exists_of_mem d hd
  rw [Option.or_none] at hl
  exact ⟨front, l, behind, htokens, hl⟩

end ClosurePipeline
