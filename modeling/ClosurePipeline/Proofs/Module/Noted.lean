/-
Two rows of tokens that differ in doc comments. In the new row a comment may say more than before, and one may stand in
front of a statement that had none.

- `Noted`: the two rows. `Cursor.Level`: places in them that are the same but for comments;
- `Level.cases`: what is ahead of level cursors is alike (`Abreast`), or the new one stands at a new comment (`Halted`);
- `Level.isPunct`, `Level.isIdent`, `Level.str?`: what a reader looks for, unless it opens a declaration, it sees in
  both rows or in neither;
- `Level.enclosed?`, `Level.skipTypeArguments`, `Level.dottedParts`: brackets, type arguments and names with dots end
  level.
-/
import Mathlib.Tactic
import ClosurePipeline.Proofs.Module.Declared

namespace ClosurePipeline

open ModuleSummary (startsStatement)

/-! ## Tokens -/

/-- the same token, or both are comments -/
def Token.Alike (t t' : Token) : Prop := t'.kind = t.kind ∨ t.isDoc = true ∧ t'.isDoc = true

/-- the tags of the comment passed, if it is one -/
def tagsBehind (p : Option Token) : List String := ((p.bind Declaration.docOf?).map DocComment.tags).getD []

namespace Token

variable {t t' : Token}

theorem exists_text_of_isDoc (h : t.isDoc = true) : ∃ text, t.kind = .doc text := by
  unfold isDoc at h
  split at h
  · exact ⟨_, ‹_›⟩
  · cases h

theorem ident?_of_isDoc (h : t.isDoc = true) : t.ident? = none := by
  obtain ⟨text, hkind⟩ := exists_text_of_isDoc h
  simp [ident?, hkind]

theorem str?_of_isDoc (h : t.isDoc = true) : t.str? = none := by
  obtain ⟨text, hkind⟩ := exists_text_of_isDoc h
  simp [str?, hkind]

theorem isPunct_of_isDoc (h : t.isDoc = true) (ch : Char) : t.isPunct ch = false := by
  obtain ⟨text, hkind⟩ := exists_text_of_isDoc h
  simp [isPunct, hkind]

theorem Alike.ident? (h : Alike t t') : t'.ident? = t.ident? := by
  rcases h with hkind | ⟨hdoc, hdoc'⟩
  · simp [Token.ident?, hkind]
  · rw [ident?_of_isDoc hdoc, ident?_of_isDoc hdoc']

theorem Alike.str? (h : Alike t t') : t'.str? = t.str? := by
  rcases h with hkind | ⟨hdoc, hdoc'⟩
  · simp [Token.str?, hkind]
  · rw [str?_of_isDoc hdoc, str?_of_isDoc hdoc']

theorem Alike.isPunct (h : Alike t t') (ch : Char) : t'.isPunct ch = t.isPunct ch := by
  rcases h with hkind | ⟨hdoc, hdoc'⟩
  · simp [Token.isPunct, hkind]
  · rw [isPunct_of_isDoc hdoc, isPunct_of_isDoc hdoc']

theorem OpensDeclaration.isDoc (h : t.OpensDeclaration) : t.isDoc = false := by
  rcases h with ⟨w, -, hkind⟩ | hkind <;> simp [Token.isDoc, hkind]

theorem OpensDeclaration.isPunct (h : t.OpensDeclaration) {ch : Char} (hch : ch ≠ '@') : t.isPunct ch = false := by
  rcases h with ⟨w, -, hkind⟩ | hkind
  · simp [Token.isPunct, hkind]
  · simpa [Token.isPunct, hkind] using hch.symm

theorem OpensDeclaration.str? (h : t.OpensDeclaration) : t.str? = none := by
  rcases h with ⟨w, -, hkind⟩ | hkind <;> simp [Token.str?, hkind]

theorem OpensDeclaration.ident?_ne (h : t.OpensDeclaration) {w : String} (hw : w ∉ openingWords) :
    t.ident? ≠ some w := by
  rcases h with ⟨v, hv, hkind⟩ | hkind
  · simp only [Token.ident?, hkind, ne_eq, Option.some.injEq]
    rintro rfl
    exact hw hv
  · simp [Token.ident?, hkind]

end Token

/-! ## Rows -/

/-- two rows of tokens, behind `p` and `p'`, the second one with its lines `l` further down. Every token is kept, except
that
- a comment may say something else, and then the lines behind it may be further down;
- a comment may be put in front of a statement that is a declaration with needs. Behind the comment of a declaration
  stands what it needs, `need` by the byte it starts at. -/
inductive Noted (need : Nat → Option (List String)) :
    Int → Option Token → Option Token → List Token → List Token → Prop where
  | nil (l : Int) (p p' : Option Token) : Noted need l p p' [] []
  | keep {l : Int} {p p' : Option Token} {t t' : Token} {ts ts' : List Token} (hkind : t'.kind = t.kind)
      (hplain : t.isDoc = false) (hline : (t'.line : Int) = t.line + l)
      (hstarts : startsStatement p' t' = startsStatement p t)
      (harrow : Cursor.isArrowHead p' t' = Cursor.isArrowHead p t) (hkept : tagsBehind p ⊆ tagsBehind p')
      (hneed : (need t.start).getD [] ⊆ tagsBehind p') (rest : Noted need l (some t) (some t') ts ts') :
    Noted need l p p' (t :: ts) (t' :: ts')
  | comment {l m : Int} {p p' : Option Token} {t t' : Token} {ts ts' : List Token} (hdoc : t.isDoc = true)
      (hdoc' : t'.isDoc = true) (hline : (t'.line : Int) = t.line + l) (rest : Noted need m (some t) (some t') ts ts') :
    Noted need l p p' (t :: ts) (t' :: ts')
  | insert {l m : Int} {p p' : Option Token} {t n : Token} {ts ts' : List Token} (hopens : t.OpensDeclaration)
      (hstarts : startsStatement p t = true) (hneed : need t.start ≠ none) (hdoc : n.isDoc = true)
      (hline : (n.line : Int) = t.line + l) (behind : Noted need m p (some n) (t :: ts) ts') :
    Noted need l p p' (t :: ts) (n :: ts')

/-! ## Cursors -/

namespace Cursor

variable {need : Nat → Option (List String)} {c c' : Cursor}

/-- places that are the same in two rows but for comments, lines being `l` further down in the second one -/
def LevelBy (need : Nat → Option (List String)) (l : Int) (c c' : Cursor) : Prop :=
  Noted need l c.prev c'.prev c.rest c'.rest

/-- places that are the same in two rows but for comments -/
def Level (need : Nat → Option (List String)) (c c' : Cursor) : Prop := ∃ l, LevelBy need l c c'

/-- what is ahead is alike -/
structure Abreast (need : Nat → Option (List String)) (c c' : Cursor) : Prop where
  level : Level need c c'
  sees : Option.Rel Token.Alike c.rest.head? c'.rest.head?
  next : Level need c.next c'.next

/-- a statement is ahead that may open a declaration, and the new row has a comment in front of it -/
structure Halted (need : Nat → Option (List String)) (c c' : Cursor) : Prop where
  level : Level need c c'
  ahead : ∃ t ts, c.rest = t :: ts ∧ t.OpensDeclaration ∧ startsStatement c.prev t = true ∧ need t.start ≠ none
  note : ∃ n ns, c'.rest = n :: ns ∧ n.isDoc = true

theorem Level.cases (h : Level need c c') : Abreast need c c' ∨ Halted need c c' := by
  have hlevel := h
  obtain ⟨prev, rest⟩ := c
  obtain ⟨prev', rest'⟩ := c'
  obtain ⟨l, h⟩ := h
  cases h with
  | nil => exact Or.inl ⟨hlevel, .none, hlevel⟩
  | keep hkind hplain hline hstarts harrow hkept hneed rest => exact Or.inl ⟨hlevel, .some (Or.inl hkind), _, rest⟩
  | comment hdoc hdoc' hline rest => exact Or.inl ⟨hlevel, .some (Or.inr ⟨hdoc, hdoc'⟩), _, rest⟩
  | insert hopens hstarts hneed hdoc hline behind =>
    exact Or.inr ⟨hlevel, ⟨_, _, rfl, hopens, hstarts, hneed⟩, _, _, rfl, hdoc⟩

/-- a name is no comment, so the lines stay as far apart -/
theorem LevelBy.next {l : Int} (h : LevelBy need l c c') {w : String} (hw : c'.ident? 0 = some w) :
    LevelBy need l c.next c'.next := by
  obtain ⟨prev, rest⟩ := c
  obtain ⟨prev', rest'⟩ := c'
  have hno : ∀ {t : Token} {ts : List Token}, t.isDoc = true → ident? ⟨prev', t :: ts⟩ 0 ≠ some w := by
    intro t ts hdoc
    simp [ident?, Token.ident?_of_isDoc hdoc]
  cases h with
  | nil => exact .nil _ _ _
  | keep hkind hplain hline hstarts harrow hkept hneed rest => exact rest
  | comment hdoc hdoc' hline rest => exact absurd hw (hno hdoc')
  | insert hopens hstarts hneed hdoc hline behind => exact absurd hw (hno hdoc)

/-- what is ahead is as far down in the new row as all the rest, a new comment included -/
theorem LevelBy.line {l : Int} (h : LevelBy need l c c') : Option.Rel
    (fun t t' : Token => (t'.line : Int) = t.line + l ∧ t'.isPunct ';' = t.isPunct ';') c.rest.head? c'.rest.head? := by
  obtain ⟨prev, rest⟩ := c
  obtain ⟨prev', rest'⟩ := c'
  cases h with
  | nil => exact .none
  | keep hkind hplain hline hstarts harrow hkept hneed rest => exact .some ⟨hline, Token.Alike.isPunct (Or.inl hkind) _⟩
  | comment hdoc hdoc' hline rest => exact .some ⟨hline, Token.Alike.isPunct (Or.inr ⟨hdoc, hdoc'⟩) _⟩
  | insert hopens hstarts hneed hdoc hline behind =>
    exact .some ⟨hline, by rw [Token.isPunct_of_isDoc hdoc, hopens.isPunct (by decide)]⟩

/-! ## What is ahead -/

namespace Abreast

/-- what is the same of alike tokens is the same of the tokens ahead -/
theorem sees_eq {α : Type} (h : Abreast need c c') (f : Option Token → α)
    (hf : ∀ {t t'}, Token.Alike t t' → f (some t') = f (some t)) :
    f c'.rest[0]? = f c.rest[0]? := by
  have hsees := h.sees
  rw [List.head?_eq_getElem?, List.head?_eq_getElem?] at hsees
  generalize c.rest[0]? = x at hsees ⊢
  generalize c'.rest[0]? = x' at hsees ⊢
  cases hsees with
  | none => rfl
  | some halike => exact hf halike

theorem ident?_eq (h : Abreast need c c') :
    c'.ident? 0 = c.ident? 0 := h.sees_eq (·.bind Token.ident?) fun halike => halike.ident?

theorem str?_eq (h : Abreast need c c') :
    c'.str? 0 = c.str? 0 := h.sees_eq (·.bind Token.str?) fun halike => halike.str?

theorem isPunct_eq (h : Abreast need c c') (ch : Char) : c'.isPunct 0 ch = c.isPunct 0 ch :=
  h.sees_eq (fun x => (x.map (Token.isPunct · ch)).getD false) fun halike => halike.isPunct ch

theorem isIdent_eq (h : Abreast need c c') (w : String) : c'.isIdent 0 w = c.isIdent 0 w := by
  rw [isIdent, isIdent, h.ident?_eq]

theorem name?_eq (h : Abreast need c c') : c'.name? 0 = c.name? 0 :=
  h.sees_eq (·.bind Token.name?) fun halike => by
    rw [Option.bind_some, Option.bind_some, Token.name?, Token.name?, halike.ident?, halike.str?]

end Abreast

namespace Halted

theorem ident?_new (h : Halted need c c') : c'.ident? 0 = none := by
  obtain ⟨n, ns, hrest, hdoc⟩ := h.note
  simp [ident?, hrest, Token.ident?_of_isDoc hdoc]

theorem str?_new (h : Halted need c c') : c'.str? 0 = none := by
  obtain ⟨n, ns, hrest, hdoc⟩ := h.note
  simp [str?, hrest, Token.str?_of_isDoc hdoc]

theorem name?_new (h : Halted need c c') : c'.name? 0 = none := by
  obtain ⟨n, ns, hrest, hdoc⟩ := h.note
  simp [name?, hrest, Token.name?, Token.ident?_of_isDoc hdoc, Token.str?_of_isDoc hdoc]

theorem isPunct_new (h : Halted need c c') (ch : Char) : c'.isPunct 0 ch = false := by
  obtain ⟨n, ns, hrest, hdoc⟩ := h.note
  simp [isPunct, hrest, Token.isPunct_of_isDoc hdoc]

theorem isIdent_new (h : Halted need c c') (w : String) : c'.isIdent 0 w = false := by
  simp [isIdent, h.ident?_new]

theorem str?_old (h : Halted need c c') : c.str? 0 = none := by
  obtain ⟨t, ts, hrest, hopens, -, -⟩ := h.ahead
  simp [str?, hrest, hopens.str?]

theorem isPunct_old (h : Halted need c c') {ch : Char} (hch : ch ≠ '@') : c.isPunct 0 ch = false := by
  obtain ⟨t, ts, hrest, hopens, -, -⟩ := h.ahead
  simp [isPunct, hrest, hopens.isPunct hch]

theorem isIdent_old (h : Halted need c c') {w : String} (hw : w ∉ openingWords) : c.isIdent 0 w = false := by
  obtain ⟨t, ts, hrest, hopens, -, -⟩ := h.ahead
  simpa [isIdent, ident?, hrest] using hopens.ident?_ne hw

end Halted

namespace Level

theorem isPunct (h : Level need c c') {ch : Char} (hch : ch ≠ '@') : c'.isPunct 0 ch = c.isPunct 0 ch := by
  rcases h.cases with h | h
  · exact h.isPunct_eq ch
  · rw [h.isPunct_new, h.isPunct_old hch]

theorem isIdent (h : Level need c c') {w : String} (hw : w ∉ openingWords) : c'.isIdent 0 w = c.isIdent 0 w := by
  rcases h.cases with h | h
  · exact h.isIdent_eq w
  · rw [h.isIdent_new, h.isIdent_old hw]

theorem str? (h : Level need c c') : c'.str? 0 = c.str? 0 := by
  rcases h.cases with h | h
  · exact h.str?_eq
  · rw [h.str?_new, h.str?_old]

theorem abreast_of_isPunct (h : Level need c c') {ch : Char} (hch : ch ≠ '@') (hp : c.isPunct 0 ch = true) :
    Abreast need c c' := by
  rcases h.cases with h | h
  · exact h
  · rw [h.isPunct_old hch] at hp
    cases hp

theorem abreast_of_isIdent (h : Level need c c') {w : String} (hw : w ∉ openingWords) (hi : c.isIdent 0 w = true) :
    Abreast need c c' := by
  rcases h.cases with h | h
  · exact h
  · rw [h.isIdent_old hw] at hi
    cases hi

theorem abreast_of_str? (h : Level need c c') {s : String} (hs : c.str? 0 = some s) : Abreast need c c' := by
  rcases h.cases with h | h
  · exact h
  · rw [h.str?_old] at hs
    cases hs

end Level

/-- one token further on -/
theorem Abreast.isPunct_one (h : Abreast need c c') {ch : Char} (hch : ch ≠ '@') :
    c'.isPunct 1 ch = c.isPunct 1 ch := by
  rw [isPunct_add_one, isPunct_add_one, h.next.isPunct hch]

theorem Abreast.isIdent_one (h : Abreast need c c') {w : String} (hw : w ∉ openingWords) :
    c'.isIdent 1 w = c.isIdent 1 w := by
  rw [isIdent_add_one, isIdent_add_one, h.next.isIdent hw]

theorem Abreast.str?_one (h : Abreast need c c') : c'.str? 1 = c.str? 1 := by
  rw [str?_add_one, str?_add_one, h.next.str?]

/-- behind most single characters no statement starts, so no comment is put there -/
theorem Abreast.abreast_next (h : Abreast need c c') {ch : Char} (hch : ch ∉ [';', '{', '}', ')', ']'])
    (hp : c.isPunct 0 ch = true) :
    Abreast need c.next c'.next := by
  rcases h.next.cases with hnext | hnext
  · exact hnext
  · obtain ⟨t, ts, -, -, hstarts, -⟩ := hnext.ahead
    obtain ⟨prev, rest⟩ := c
    cases rest with
    | nil => simp [isPunct] at hp
    | cons p rest =>
      have hkind : p.kind = .punct ch := by simpa [isPunct, Token.isPunct] using hp
      simp only [List.mem_cons, List.not_mem_nil, or_false, not_or] at hch
      have hstarts : startsStatement (some p) t = true := hstarts
      simp [startsStatement, hkind, hch] at hstarts

theorem Level.abreast_next (h : Level need c c') {ch : Char} (hch : ch ∉ ['@', ';', '{', '}', ')', ']'])
    (hp : c.isPunct 0 ch = true) :
    Abreast need c.next c'.next := by
  rw [List.mem_cons, not_or] at hch
  exact (h.abreast_of_isPunct hch.1 hp).abreast_next hch.2 hp

/-! ## Brackets -/

theorem rel_map {α β γ δ : Type} {R : α → β → Prop} {S : γ → δ → Prop} {f : α → γ} {g : β → δ} {x : Option α}
    {y : Option β} (h : Option.Rel R x y) (hfg : ∀ a b, R a b → S (f a) (g b)) : Option.Rel S (x.map f) (y.map g) := by
  cases h with
  | none => exact .none
  | some hab => exact .some (hfg _ _ hab)

theorem rel_snd_cases {α β γ δ : Type} {R : γ → δ → Prop} {x : Option (α × γ)} {y : Option (β × δ)}
    (h : Option.Rel R (x.map Prod.snd) (y.map Prod.snd)) :
    x = none ∧ y = none ∨ ∃ a b, x = some a ∧ y = some b ∧ R a.2 b.2 := by
  cases x with
  | none =>
    cases y with
    | none => exact Or.inl ⟨rfl, rfl⟩
    | some b => cases h
  | some a =>
    cases y with
    | none => cases h
    | some b =>
      cases h with
      | some hab => exact Or.inr ⟨a, b, rfl, rfl, hab⟩

/-- a bracket is closed in both rows or in neither, whatever comments are inside -/
theorem closing_noted {l : Int} {p p' : Option Token} {ts ts' : List Token} (h : Noted need l p p' ts ts')
    (opening closer : Char) :
    ∀ depth, Option.Rel (fun e e' => Level need e.after e'.after) (closing opening closer depth ts)
      (closing opening closer depth ts') := by
  have step : ∀ {m : Int} {t t' : Token} {ts ts' : List Token}, t.Alike t' → Noted need m (some t) (some t') ts ts' →
      (∀ depth, Option.Rel (fun e e' => Level need e.after e'.after) (closing opening closer depth ts)
        (closing opening closer depth ts')) →
      ∀ depth, Option.Rel (fun e e' => Level need e.after e'.after) (closing opening closer depth (t :: ts))
        (closing opening closer depth (t' :: ts')) := by
    intro m t t' ts ts' halike rest ih depth
    simp only [closing, halike.isPunct]
    split_ifs
    · exact rel_map (ih _) fun e e' h => h
    · cases depth with
      | zero => exact .some ⟨m, rest⟩
      | succ depth => exact rel_map (ih depth) fun e e' h => h
    · exact rel_map (ih depth) fun e e' h => h
  induction h with
  | nil => exact fun _ => .none
  | keep hkind hplain hline hstarts harrow hkept hneed rest ih => exact step (Or.inl hkind) rest ih
  | comment hdoc hdoc' hline rest ih => exact step (Or.inr ⟨hdoc, hdoc'⟩) rest ih
  | @insert l m p p' t n ts ts' hopens hstarts hneed hdoc hline behind ih =>
    intro depth
    have hnote := ih depth
    have hpass : closing opening closer depth (n :: ts') =
        (closing opening closer depth ts').map fun e => { e with inner := n :: e.inner } := by
      simp [closing, Token.isPunct_of_isDoc hdoc]
    rw [hpass]
    have hmap := rel_map (f := id) (g := fun e => { e with inner := n :: e.inner })
      (S := fun e e' => Level need e.after e'.after) hnote
      fun e e' h => h
    rwa [Option.map_id] at hmap

theorem Level.enclosed? (h : Level need c c') (opening closer : Char) (hopening : opening ≠ '@') :
    Option.Rel (fun e e' => Level need e.after e'.after) (c.enclosed? opening closer)
      (c'.enclosed? opening closer) := by
  have hnone : ∀ {k : Cursor}, k.isPunct 0 opening = false → k.enclosed? opening closer = none := by
    rintro ⟨prev, rest⟩ hk
    cases rest with
    | nil => rfl
    | cons t ts =>
      have ht : t.isPunct opening = false := hk
      simp [Cursor.enclosed?, ht]
  have hsome : ∀ {k : Cursor}, k.isPunct 0 opening = true →
      k.enclosed? opening closer = closing opening closer 0 k.next.rest := by
    rintro ⟨prev, rest⟩ hk
    cases rest with
    | nil => cases hk
    | cons t ts =>
      have ht : t.isPunct opening = true := hk
      simp [Cursor.enclosed?, ht, Cursor.next]
  have hboth := h.isPunct hopening
  cases hp : c.isPunct 0 opening with
  | false =>
    rw [hnone hp, hnone (hboth.trans hp)]
    exact .none
  | true =>
    obtain ⟨l, hnext⟩ := (h.abreast_of_isPunct hopening hp).next
    rw [hsome hp, hsome (hboth.trans hp)]
    exact closing_noted hnext opening closer 0

theorem anglesFrom_noted {l : Int} {p p' : Option Token} {ts ts' : List Token} (h : Noted need l p p' ts ts') :
    ∀ depth, Level need (anglesFrom p depth ts).2 (anglesFrom p' depth ts').2 := by
  have pass : ∀ {m : Int} {p p' : Option Token} {t t' : Token} {ts ts' : List Token}, t.Alike t' →
      (t'.isPunct '>' && !isArrowHead p' t') = (t.isPunct '>' && !isArrowHead p t) →
      Noted need m (some t) (some t') ts ts' →
      (∀ depth, Level need (anglesFrom (some t) depth ts).2 (anglesFrom (some t') depth ts').2) →
      ∀ depth, Level need (anglesFrom p depth (t :: ts)).2 (anglesFrom p' depth (t' :: ts')).2 := by
    intro m p p' t t' ts ts' halike hclose rest ih depth
    rw [anglesFrom, anglesFrom, hclose, halike.isPunct]
    split_ifs
    · exact ih _
    · exact ⟨m, rest⟩
    · exact ih _
    · exact ih _
  induction h with
  | nil l p p' => exact fun depth => ⟨l, .nil l p p'⟩
  | @keep l p p' t t' ts ts' hkind hplain hline hstarts harrow hkept hneed rest ih =>
    have halike : t.Alike t' := Or.inl hkind
    exact pass halike (by rw [halike.isPunct, harrow]) rest ih
  | comment hdoc hdoc' hline rest ih =>
    exact pass (Or.inr ⟨hdoc, hdoc'⟩) (by rw [Token.isPunct_of_isDoc hdoc, Token.isPunct_of_isDoc hdoc']; rfl) rest ih
  | @insert l m p p' t n ts ts' hopens hstarts hneed hdoc hline behind ih =>
    intro depth
    have hpass : (anglesFrom p' depth (n :: ts')).2 = (anglesFrom (some n) depth ts').2 := by
      simp [anglesFrom, Token.isPunct_of_isDoc hdoc]
    rw [hpass]
    exact ih depth

theorem Level.skipTypeArguments (h : Level need c c') : Level need c.skipTypeArguments c'.skipTypeArguments := by
  unfold Cursor.skipTypeArguments typeArguments
  rw [h.isPunct (by decide)]
  split_ifs
  · obtain ⟨l, hl⟩ := h
    exact anglesFrom_noted hl 0
  · exact h

/-! ## Names -/

theorem dottedParts_eq (c : Cursor) : dottedParts c.prev c.rest =
    if c.isPunct 0 '.' then
      match c.next.ident? 0 with
      | some s =>
        (s :: (dottedParts c.next.next.prev c.next.next.rest).1, (dottedParts c.next.next.prev c.next.next.rest).2)
      | none => ([], c)
    else ([], c) := by
  obtain ⟨prev, rest⟩ := c
  match rest with
  | [] => rfl
  | [dot] =>
    have hnone : (⟨some dot, []⟩ : Cursor).ident? 0 = none := rfl
    simp [dottedParts, next, hnone]
  | dot :: part :: ts =>
    have hdot : (⟨prev, dot :: part :: ts⟩ : Cursor).isPunct 0 '.' = dot.isPunct '.' := rfl
    have hpart : (⟨some dot, part :: ts⟩ : Cursor).ident? 0 = part.ident? := rfl
    cases hsome : part.ident? <;> simp [dottedParts, next, hdot, hpart, hsome]

/-- the parts of a name are the same -/
theorem Level.dottedParts (h : Level need c c') : (dottedParts c'.prev c'.rest).1 = (dottedParts c.prev c.rest).1 ∧
    Level need (Cursor.dottedParts c.prev c.rest).2 (Cursor.dottedParts c'.prev c'.rest).2 := by
  induction hn : c.ahead using Nat.strongRecOn generalizing c c' with
  | ind n ih =>
    rw [dottedParts_eq c, dottedParts_eq c', h.isPunct (by decide)]
    split_ifs with hdot
    · have hpart := h.abreast_next (by decide) hdot
      rw [hpart.ident?_eq]
      cases hs : c.next.ident? 0 with
      | none => exact ⟨rfl, h⟩
      | some s =>
        have hfar := ahead_skip_one_lt c.next (rest_ne_nil_of_ident? hs)
        have hnear := c.ahead_next_le
        obtain ⟨hparts, hafter⟩ := ih c.next.next.ahead (by simp only [skip] at hfar; omega) hpart.next rfl
        exact ⟨by rw [hparts], hafter⟩
    · exact ⟨rfl, h⟩

/-- a name with dots is the same, unless it starts with a statement -/
theorem Abreast.dottedName? (h : Abreast need c c') :
    Option.Rel (fun r r' => r'.1 = r.1 ∧ Level need r.2 r'.2) (c.dottedName?) (c'.dottedName?) := by
  unfold Cursor.dottedName?
  rw [h.ident?_eq]
  cases c.ident? 0 with
  | none => exact .none
  | some first =>
    obtain ⟨hparts, hafter⟩ := h.next.dottedParts
    exact .some ⟨by simp only [hparts], hafter⟩

end Cursor

end ClosurePipeline
