/-
A text scanned again. Where comments have been put in front of declarations with needs, and nowhere else, the scanner
finds no declarations but those it found before.

- `ahead_readStatement_lt`: a statement goes on by one token at least; `itemsFrom_cons`: so the scanner reads a
  statement or passes a token;
- `reread_readStatement`: any statement, in two rows that differ in comments;
- `exists_reached`: the scanner comes to every declaration, and goes on from there as if it had started there;
- `retold_of_mem`: the result. A reader of the new row that halts at a comment does so where the old scanner came by.
-/
import Mathlib.Tactic
import ClosurePipeline.Proofs.Module.Retold

namespace ClosurePipeline.ModuleSummary

open Cursor

variable {need : Nat → Option (List String)} {c₀ c c' : Cursor} {t : Token} {ts : List Token} {source : List Char}
  {depth : Nat}

/-! ## Statements -/

/-- a statement that declares nothing -/
theorem Reread.of_ends {r r' : Option Item × Cursor} (hno : r'.1.bind Item.declared? = none)
    (h : Ends need c₀ (some r.2) (some r'.2)) :
    Reread need c₀ r r' := by
  obtain ⟨i, k⟩ := r
  obtain ⟨i', k'⟩ := r'
  cases h with
  | level h =>
    cases h with
    | some hlevel => exact .level (by simp [hno]) hlevel
  | halts h => exact .halts hno h
  | oversteps h => exact .oversteps h

theorem declared?_importing (d : Option ImportDecl) :
    (d.map Item.importing).bind Item.declared? = none := by cases d <;> rfl

theorem reread_exportOf {start start' : Cursor} {x x' : Option (Option ExportDecl × Cursor)}
    (h : Ends need start (x.map Prod.snd) (x'.map Prod.snd)) (hnext : Level need start.next start'.next) :
    Reread need start (exportOf start x) (exportOf start' x') := by
  have hplace : ∀ (k : Cursor) (y : Option (Option ExportDecl × Cursor)),
      (exportOf k y).2 = (y.map Prod.snd).getD k.next := by
    rintro k (_ | r) <;> rfl
  refine .of_ends (declared?_exportOf start' x') ?_
  rw [hplace, hplace]
  exact h.getD hnext

/-- behind a word, where no kind is found, nothing is declared -/
theorem readDeclaration_of_ident?_eq_none (source : List Char) {start : Cursor} {t : Token}
    (hhead : start.rest.head? = some t) {w : String} (hword : t.kind = .ident w)
    (h : (Declaration.Modifiers.read {} start).2.ident? 0 = none) :
    readDeclaration source start = (none, (Declaration.Modifiers.read {} start).2) := by
  have hat : start.isPunct 0 '@' = false := by
    rw [isPunct, ← List.head?_eq_getElem?, hhead]
    simp [Token.isPunct, hword]
  rw [readDeclaration_eq_itemOf, Declaration.read?_eq hhead, Decorator.readAll?_eq, hat]
  simp [Declaration.readWords, h, itemOf]

section

variable {l : Int} {start start' : Cursor} {t t' : Token}

/-- at a new comment behind `export` nothing is found -/
theorem readExport_of_halted (hs : Heads need l start start' t t') (hword : t.kind = .ident "export")
    (h : Halted need start.next start'.next) (source : List Char) (line : Nat) :
    readExport source line start' = (none, start'.next) := by
  have hstop : Declaration.Modifiers.read {} start' = ({ exported := true }, start'.next) := by
    rw [hs.read_export hword]
    exact Declaration.Modifiers.read_of_none (by simp [Declaration.Modifiers.add?, h.ident?_new])
  have hnothing :=
    readDeclaration_of_ident?_eq_none source hs.head' (hs.kind.trans hword) (by rw [hstop]; exact h.ident?_new)
  have hdefault : ExportDecl.readDefault? line start'.next = none := by
    simp [ExportDecl.readDefault?, h.isIdent_new]
  rw [hstop] at hnothing
  simp [readExport_eq, exportRest, h.isPunct_new, h.isIdent_new, hdefault, hnothing]

/-- nor at one behind `export default` -/
theorem exportRest_of_halted (hs : Heads need l start start' t t') (hword : t.kind = .ident "export")
    (hdefault : start'.next.isIdent 0 "default" = true) (h : Halted need start.next.next start'.next.next)
    (source : List Char) (line : Nat) :
    exportRest source line start' = (none, start'.next.next) := by
  have hsecond : start'.next.ident? 0 = some "default" := by simpa [isIdent] using hdefault
  have hadd : Declaration.Modifiers.add? { exported := true } start'.next =
      some { exported := true, isDefault := true } := by
    simp [Declaration.Modifiers.add?, hsecond]
  have hstop : (Declaration.Modifiers.read {} start').2 = start'.next.next := by
    rw [hs.read_export hword, Declaration.Modifiers.read_of_some hadd,
      Declaration.Modifiers.read_of_none (by simp [Declaration.Modifiers.add?, h.ident?_new])]
  have hnothing :=
    readDeclaration_of_ident?_eq_none source hs.head' (hs.kind.trans hword) (by rw [hstop]; exact h.ident?_new)
  have hno : ExportDecl.readDefault? line start'.next = none := by
    simp [ExportDecl.readDefault?, ident?_add_one, hdefault, h.ident?_new]
  rw [exportRest, hno, hnothing, hstop]
  simp [isIdent, hsecond]

theorem reread_exportRest (hs : Heads need l start start' t t') (hword : t.kind = .ident "export")
    (habreast : Abreast need start.next start'.next) (source source' : List Char) :
    Reread need start (exportRest source t.line start) (exportRest source' t'.line start') := by
  rcases ExportDecl.readDefault?_cases hs.next hs.line with hname | ⟨hdefault, hhalted⟩
  · rcases rel_snd_cases hname with ⟨hold, hnew⟩ | ⟨r, r', hold, hnew, hlevel⟩
    · rw [exportRest, exportRest, hold, hnew, habreast.isIdent_eq, habreast.isIdent_eq]
      dsimp only
      split_ifs
      · exact .nothing habreast.next
      · exact Declaration.reread_readDeclaration hs source source'
    · rw [exportRest, exportRest, hold, hnew]
      exact .level (by simp [Item.declared?]) hlevel
  · rw [exportRest_of_halted hs hword hdefault hhalted]
    exact .halts rfl ⟨start.next.next, Onward.refl.next.next, hhalted⟩

/-- **Exports.** The cursors are at the word `export`. -/
theorem reread_readExport (hs : Heads need l start start' t t') (hword : t.kind = .ident "export")
    (source source' : List Char) :
    Reread need start (readExport source t.line start) (readExport source' t'.line start') := by
  have hnext : Level need start.next start'.next := ⟨l, hs.next⟩
  rcases hnext.cases with habreast | hhalted
  · rw [readExport_eq, readExport_eq, hnext.isPunct (by decide), hnext.isPunct (by decide), hnext.isPunct (by decide),
      habreast.isIdent_eq, habreast.isPunct_one (by decide)]
    have hon : start.next.Onward start.next.next := Onward.refl.next
    split_ifs
    · exact .level (by simp [Item.declared?]) habreast.next
    · exact reread_exportOf (ExportDecl.ends_readAll habreast.next hon) hnext
    · exact reread_exportOf (ExportDecl.ends_readNamed habreast.next hon) hnext
    · exact reread_exportOf (ExportDecl.ends_readNamed hnext .refl) hnext
    · exact reread_exportRest hs hword habreast source source'
  · rw [readExport_of_halted hs hword hhalted]
    exact .halts rfl ⟨start.next, Onward.refl.next, hhalted⟩

/-- **Any statement.** -/
theorem reread_readStatement (hs : Heads need l start start' t t') (source source' : List Char) :
    Reread need start (readStatement source t start) (readStatement source' t' start') := by
  have hnext : Level need start.next start'.next := ⟨l, hs.next⟩
  unfold readStatement
  rw [hs.kind]
  split
  · rename_i w hword
    split_ifs with himport hexport
    · exact .of_ends (declared?_importing _) (ImportDecl.ends_read hnext .refl)
    · exact reread_readExport hs (by rw [hword, eq_of_beq hexport]) source source'
    · exact Declaration.reread_readDeclaration hs source source'
    · exact .nothing hnext
  · split_ifs
    · exact Declaration.reread_readDeclaration hs source source'
    · exact .nothing hnext
  · exact .nothing hnext

end

/-! ## One step of the scanner -/

theorem ahead_next_lt (hrest : c.rest = t :: ts) : c.next.ahead < c.ahead := by
  have hlt := ahead_skip_one_lt c (by rw [hrest]; exact List.cons_ne_nil _ _)
  exact hlt

/-- an opening word is a modifier or gives a kind -/
theorem add?_or_kindOf? {w : String} (hw : w ∈ openingWords) (hword : c.ident? 0 = some w) (m : Declaration.Modifiers) :
    (∃ m', m.add? c = some m') ∨ ∃ kind, Declaration.kindOf? w = some kind := by
  simp only [openingWords, declarationWords, List.mem_cons, List.not_mem_nil, or_false] at hw
  rcases hw with rfl | rfl | rfl | rfl | rfl | rfl | rfl | rfl | rfl | rfl | rfl | rfl
  all_goals first
    | exact Or.inr ⟨_, rfl⟩
    | exact Or.inl ⟨_, by simp [Declaration.Modifiers.add?, hword]; rfl⟩

theorem ahead_readDeclaration_lt (hrest : c.rest = t :: ts) (hopens : t.OpensDeclaration) (source : List Char) :
    (readDeclaration source c).2.ahead < c.ahead := by
  have hnext := ahead_next_lt hrest
  have hhead : c.rest.head? = some t := by rw [hrest]; rfl
  rw [readDeclaration_eq_itemOf, Declaration.read?_eq hhead]
  cases hfound : (Decorator.readAll? source c).bind fun r => Declaration.readWords r.1 c t r.2 with
  | none => exact hnext
  | some x =>
    obtain ⟨⟨ds, k⟩, hall, hwords⟩ := Option.bind_eq_some_iff.1 hfound
    change x.2.ahead < c.ahead
    have hend := (Declaration.onward_readWords hwords).ahead_le
    rw [Decorator.readAll?_eq] at hall
    rcases hopens with ⟨w, hw, hkind⟩ | hkind
    · have hat : c.isPunct 0 '@' = false := by simp [isPunct, hrest, Token.isPunct, hkind]
      have hword : c.ident? 0 = some w := by simp [ident?, hrest, Token.ident?, hkind]
      rw [hat] at hall
      cases hall
      cases hm : Declaration.Modifiers.add? {} c with
      | some m =>
        rw [Declaration.Modifiers.read_of_some hm] at hend
        exact (hend.trans (Declaration.Modifiers.onward_read .refl _).ahead_le).trans_lt hnext
      | none =>
        obtain ⟨m', hm'⟩ | ⟨kind, hkind⟩ := add?_or_kindOf? hw hword {}
        · rw [hm] at hm'
          cases hm'
        · obtain ⟨d, k⟩ := x
          unfold Declaration.readWords at hwords
          rw [Declaration.Modifiers.read_of_none hm, hword, Option.bind_some, hkind] at hwords
          exact (Declaration.onward_readRest .refl hwords).ahead_le.trans_lt hnext
    · have hat : c.isPunct 0 '@' = true := by simp [isPunct, hrest, Token.isPunct, hkind]
      rw [if_pos hat] at hall
      obtain ⟨r, hr, hall⟩ := Option.bind_eq_some_iff.1 hall
      obtain ⟨s, hs, hsk⟩ := Option.map_eq_some_iff.1 hall
      cases hsk
      have hmods := (Declaration.Modifiers.onward_read (Decorator.onward_readAll? .refl hs) {}).ahead_le
      exact (hend.trans hmods).trans_lt (Decorator.ahead_read?_lt hr)

theorem ahead_readExport_lt (hrest : c.rest = t :: ts) (hword : t.kind = .ident "export") (source : List Char)
    (line : Nat) :
    (readExport source line c).2.ahead < c.ahead := by
  have hnext := ahead_next_lt hrest
  have hon : c.next.Onward c.next.next := Onward.refl.next
  have far : ∀ {k : Cursor}, c.next.Onward k → k.ahead < c.ahead := fun hk => hk.ahead_le.trans_lt hnext
  have hexport : ∀ {x : Option (Option ExportDecl × Cursor)}, (∀ d k, x = some (d, k) → c.next.Onward k) →
      (exportOf c x).2.ahead < c.ahead := by
    rintro (_ | ⟨d, k⟩) hx
    · exact hnext
    · exact far (hx d k rfl)
  rw [readExport_eq]
  split_ifs
  · exact far hon
  · exact hexport fun d k hk => (ExportDecl.within_readAll hon hk).1
  · exact hexport fun d k hk => (ExportDecl.within_readNamed hon hk).1
  · exact hexport fun d k hk => (ExportDecl.within_readNamed .refl hk).1
  · unfold exportRest
    split
    · exact far (ExportDecl.within_readDefault? .refl ‹_›).1
    · split_ifs
      · exact far hon
      · exact ahead_readDeclaration_lt hrest (Or.inl ⟨_, by decide, hword⟩) source

/-- **A statement goes on** by one token at least. -/
theorem ahead_readStatement_lt (hrest : c.rest = t :: ts) (source : List Char) :
    (readStatement source t c).2.ahead < c.ahead := by
  have hnext := ahead_next_lt hrest
  unfold readStatement
  split
  · rename_i w hword
    split_ifs with himport hexport hdeclaration
    · exact (ImportDecl.within_read .refl t.line).1.ahead_le.trans_lt hnext
    · exact ahead_readExport_lt hrest (by rw [hword, eq_of_beq hexport]) source t.line
    · exact ahead_readDeclaration_lt hrest
        (Or.inl ⟨w, List.mem_cons_of_mem _ (by simpa using hdeclaration), hword⟩) source
    · exact hnext
  · rename_i ch hkind
    split_ifs with hat
    · exact ahead_readDeclaration_lt hrest (Or.inr (by rw [hkind, eq_of_beq hat])) source
    · exact hnext
  · exact hnext

/-- the scanner reads a statement at this token, `depth` braces being open -/
def reads (depth : Nat) (prev : Option Token) (t : Token) : Bool :=
  depth == 0 && !t.isPunct '{' && !t.isPunct '}' && startsStatement prev t

theorem eq_zero_of_reads {prev : Option Token} (h : reads depth prev t = true) : depth = 0 := by
  simp only [reads, Bool.and_eq_true, beq_iff_eq] at h
  exact h.1.1.1

/-- the braces that are open behind a token -/
def depthBehind (depth : Nat) (t : Token) : Nat :=
  if t.isPunct '{' then depth + 1 else if t.isPunct '}' then depth - 1 else depth

/-- **One step of the scanner:** it reads a statement or passes a token. -/
theorem itemsFrom_cons (hrest : c.rest = t :: ts) (source : List Char) (depth : Nat) : itemsFrom source depth c =
    if reads depth c.prev t then (readStatement source t c).1.toList ++ itemsFrom source 0 (readStatement source t c).2
    else itemsFrom source (depthBehind depth t) c.next := by
  obtain ⟨prev, rest⟩ := c
  cases hrest
  have hlt := ahead_readStatement_lt (c := ⟨prev, t :: ts⟩) rfl source
  rw [itemsFrom]
  unfold reads depthBehind
  by_cases hopen : t.isPunct '{' = true
  · simp [hopen, next]
  by_cases hclose : t.isPunct '}' = true
  · simp [hopen, hclose, next]
  simp only [if_neg hopen, if_neg hclose]
  cases depth with
  | zero => cases startsStatement prev t <;> simp [hopen, hclose, hlt, next]
  | succ depth => simp [next]

/-- a comment is passed -/
theorem itemsFrom_doc (hrest : c.rest = t :: ts) (hdoc : t.isDoc = true) (source : List Char) (depth : Nat) :
    itemsFrom source depth c = itemsFrom source depth c.next := by
  obtain ⟨text, hkind⟩ := Token.exists_text_of_isDoc hdoc
  have hread : readStatement source t c = (none, c.next) := by simp [readStatement, hkind]
  rw [itemsFrom_cons hrest]
  split_ifs with hreads
  · rw [hread, eq_zero_of_reads hreads]
    rfl
  · rw [depthBehind, Token.isPunct_of_isDoc hdoc, Token.isPunct_of_isDoc hdoc]
    rfl

/-! ## The way of the scanner -/

/-- the declarations ahead -/
def declarationsFrom (source : List Char) (depth : Nat) (c : Cursor) : List Declaration :=
  (itemsFrom source depth c).filterMap Item.declared?

theorem declarationsFrom_nil (hrest : c.rest = []) (source : List Char) (depth : Nat) :
    declarationsFrom source depth c = [] := by
  obtain ⟨prev, rest⟩ := c
  cases hrest
  simp [declarationsFrom, itemsFrom]

theorem declarationsFrom_cons (hrest : c.rest = t :: ts) (source : List Char) (depth : Nat) :
    declarationsFrom source depth c =
    if reads depth c.prev t then
      ((readStatement source t c).1.bind Item.declared?).toList ++
        declarationsFrom source 0 (readStatement source t c).2
    else declarationsFrom source (depthBehind depth t) c.next := by
  rw [declarationsFrom, itemsFrom_cons hrest]
  split_ifs
  · exact filterMap_declared _ _
  · rfl

/-- the tokens of a text: each starts behind the one in front of it, and no name has a slash -/
structure Orderly (c : Cursor) : Prop where
  increasing : c.rest.Pairwise fun t u => t.start < u.start
  slashless : Slashless c.rest

/-- every place with needs is the start of a declaration that the scanner finds -/
def Announced (need : Nat → Option (List String)) (source : List Char) (depth : Nat) (c : Cursor) : Prop :=
  ∀ t ∈ c.rest, need t.start ≠ none → ∃ d ∈ declarationsFrom source depth c, d.start = t.start

theorem Orderly.onward (hc : Orderly c) (h : c.Onward c') : Orderly c' := by
  induction h with
  | refl => exact hc
  | pass _ ih => exact ⟨(List.pairwise_cons.1 ih.increasing).2, fun u hu => ih.slashless u (List.mem_cons_of_mem _ hu)⟩

theorem Orderly.lt (hc : Orderly c) (hrest : c.rest = t :: ts) {u : Token} (hu : u ∈ ts) : t.start < u.start := by
  have hincreasing := hc.increasing
  rw [hrest] at hincreasing
  exact (List.pairwise_cons.1 hincreasing).1 u hu

theorem rest_next (hrest : c.rest = t :: ts) : c.next.rest = ts := by
  obtain ⟨prev, rest⟩ := c
  cases hrest
  rfl

theorem start_of_readStatement (hc : Orderly c) (hrest : c.rest = t :: ts) (hreads : reads depth c.prev t = true)
    {d : Declaration} (hd : d ∈ (readStatement source t c).1.bind Item.declared?) : d.start = t.start :=
  (declaredAt_readStatement hc.slashless hrest (Bool.and_eq_true_iff.1 hreads).2 d hd).start

theorem Announced.pass (h : Announced need source depth c) (hrest : c.rest = t :: ts)
    (hreads : ¬ reads depth c.prev t = true) :
    Announced need source (depthBehind depth t) c.next := by
  intro u hu hneed
  have hfound := h u (Onward.refl.next.subset hu) hneed
  rwa [declarationsFrom_cons hrest, if_neg hreads] at hfound

theorem Announced.read (h : Announced need source depth c) (hc : Orderly c) (hrest : c.rest = t :: ts)
    (hreads : reads depth c.prev t = true) :
    Announced need source 0 (readStatement source t c).2 := by
  intro u hu hneed
  have hon : c.next.Onward (readStatement source t c).2 :=
    (within_readStatement .refl source t).1.next_of_lt (ahead_readStatement_lt hrest source)
  have hbehind := hon.subset hu
  rw [rest_next hrest] at hbehind
  obtain ⟨d, hd, hstart⟩ := h u (by rw [hrest]; exact List.mem_cons_of_mem _ hbehind) hneed
  rw [declarationsFrom_cons hrest, if_pos hreads] at hd
  rcases List.mem_append.1 hd with hd | hd
  · have hhere := start_of_readStatement hc hrest hreads (Option.mem_toList.1 hd)
    have hlt := hc.lt hrest hbehind
    omega
  · exact ⟨d, hd, hstart⟩

/-- **The scanner comes to every declaration,** and goes on from there as if it had started there. -/
theorem exists_reached (need : Nat → Option (List String)) (source : List Char) (n : Nat) :
    ∀ (c : Cursor) (depth : Nat), c.ahead = n → Orderly c →
    ∀ d ∈ declarationsFrom source depth c, ∃ z u us, c.Onward z ∧ z.rest = u :: us ∧ d.start = u.start ∧
      declarationsFrom source 0 z ⊆ declarationsFrom source depth c ∧
      (Announced need source depth c → Announced need source 0 z) := by
  induction n using Nat.strongRecOn with
  | ind n ih =>
    intro c depth hn hc d hd
    cases hrest : c.rest with
    | nil =>
      rw [declarationsFrom_nil hrest] at hd
      cases hd
    | cons t ts =>
      have hcons := declarationsFrom_cons hrest source depth
      by_cases hreads : reads depth c.prev t = true
      · rw [if_pos hreads] at hcons
        rw [hcons] at hd
        rcases List.mem_append.1 hd with hd | hd
        · obtain rfl := eq_zero_of_reads hreads
          exact ⟨c, t, ts, .refl, hrest, start_of_readStatement hc hrest hreads (Option.mem_toList.1 hd),
            List.Subset.refl _, id⟩
        · have hlt := ahead_readStatement_lt hrest source
          have hon : c.Onward (readStatement source t c).2 := (within_readStatement .refl source t).1
          obtain ⟨z, u, us, hz, hzrest, hstart, hsub, hannounced⟩ := ih _ (hn ▸ hlt) _ 0 rfl (hc.onward hon) d hd
          refine ⟨z, u, us, hon.trans hz, hzrest, hstart, ?_, fun h => hannounced (h.read hc hrest hreads)⟩
          rw [hcons]
          exact fun x hx => List.mem_append_right _ (hsub hx)
      · rw [if_neg hreads] at hcons
        rw [hcons] at hd
        obtain ⟨z, u, us, hz, hzrest, hstart, hsub, hannounced⟩ :=
          ih _ (hn ▸ ahead_next_lt hrest) _ _ rfl (hc.onward Onward.refl.next) d hd
        exact ⟨z, u, us, Onward.refl.next.trans hz, hzrest, hstart, hcons ▸ hsub,
          fun h => hannounced (h.pass hrest hreads)⟩

/-- two places ahead with the same token are the same -/
theorem eq_of_start_eq {z z' : Cursor} (hc : Orderly c) (hz : c.Onward z) (hz' : c.Onward z') {u u' : Token}
    {us us' : List Token} (hrest : z.rest = u :: us) (hrest' : z'.rest = u' :: us') (hstart : u.start = u'.start) :
    z = z' := by
  have apart : ∀ {z z' : Cursor} {u u' : Token} {us us' : List Token}, Orderly z → z.rest = u :: us →
      z'.rest = u' :: us' → u.start = u'.start → z.Onward z' → z = z' := by
    intro z z' u u' us us' hzc hrest hrest' hstart hon
    rcases hon.eq_or_next with rfl | hon
    · rfl
    · have hbehind : u' ∈ us := by
        rw [← rest_next hrest]
        exact hon.subset (by rw [hrest']; exact List.mem_cons_self)
      have hlt := hzc.lt hrest hbehind
      omega
  rcases hz.total hz' with hon | hon
  · exact apart (hc.onward hz) hrest hrest' hstart hon
  · exact (apart (hc.onward hz') hrest' hrest hstart.symm hon).symm

/-! ## Both scanners -/

/-- a statement that oversteps has taken the start of a declaration that the scanner finds, which cannot be -/
theorem Announced.not_oversteps (h : Announced need source depth c) (hc : Orderly c) (hrest : c.rest = t :: ts)
    (hreads : reads depth c.prev t = true) : ¬ Oversteps need c (readStatement source t c).2 := by
  rintro ⟨z, u, us, hz, hzrest, hneed, hon⟩
  have hzorderly := hc.onward hz.of_next
  have hu : u ∈ ts := by
    rw [← rest_next hrest]
    exact hz.subset (by rw [hzrest]; exact List.mem_cons_self)
  obtain ⟨d, hd, hstart⟩ := h u (by rw [hrest]; exact List.mem_cons_of_mem _ hu) hneed
  rw [declarationsFrom_cons hrest, if_pos hreads] at hd
  rcases List.mem_append.1 hd with hd | hd
  · have hhere := start_of_readStatement hc hrest hreads (Option.mem_toList.1 hd)
    have hlt := hc.lt hrest hu
    omega
  · obtain ⟨k, v, vs, hk, hkrest, hv, -, -⟩ :=
      exists_reached need source _ _ 0 rfl (hzorderly.onward (Onward.refl.next.trans hon)) d hd
    have hbehind : v ∈ us := by
      rw [← rest_next hzrest]
      exact (hon.trans hk).subset (by rw [hkrest]; exact List.mem_cons_self)
    have hlt := hzorderly.lt hzrest hbehind
    omega

/-- both scanners read a statement. If the new reader halts at a comment, the old scanner comes by there later. -/
theorem retold_of_statement {l : Int} {t' : Token} {source source' : List Char} (hs : Heads need l c c' t t')
    (hrest : c.rest = t :: ts) (hreads : reads depth c.prev t = true) (hc : Orderly c)
    (hannounced : Announced need source depth c)
    (behind : ∀ z k', k'.ahead ≤ (readStatement source' t' c').2.ahead → Level need z k' → Orderly z → Announced need
      source 0 z → ∀ d' ∈ declarationsFrom source' 0 k', ∃ d ∈ declarationsFrom source 0 z, Retold need d d') :
    ∀ d' ∈ ((readStatement source' t' c').1.bind Item.declared?).toList ++
        declarationsFrom source' 0 (readStatement source' t' c').2,
      ∃ d ∈ declarationsFrom source depth c, Retold need d d' := by
  intro d' hd'
  have hon : c.Onward (readStatement source t c).2 := (within_readStatement .refl source t).1
  have hread := reread_readStatement hs source source'
  have hover := hannounced.not_oversteps hc hrest hreads
  have hk := hannounced.read hc hrest hreads
  have hcons := declarationsFrom_cons hrest source depth
  rw [if_pos hreads] at hcons
  generalize readStatement source t c = r at hon hread hover hk hcons
  generalize readStatement source' t' c' = r' at hread hd' behind
  cases hread with
  | level hd hlevel =>
    rw [hcons]
    rcases List.mem_append.1 hd' with hd' | hd'
    · obtain ⟨d, hd, hretold⟩ := hd d' (Option.mem_toList.1 hd')
      exact ⟨d, List.mem_append_left _ (Option.mem_toList.2 hd), hretold⟩
    · obtain ⟨d, hd, hretold⟩ := behind _ _ (Nat.le_refl _) hlevel (hc.onward hon) hk d' hd'
      exact ⟨d, List.mem_append_right _ hd, hretold⟩
  | halts hnone hhalts =>
    obtain ⟨z, hz, hhalted⟩ := hhalts
    obtain ⟨u, us, hzrest, -, -, hneed⟩ := hhalted.ahead
    obtain ⟨d, hd, hstart⟩ := hannounced u (hz.subset (by rw [hzrest]; exact List.mem_cons_self)) hneed
    obtain ⟨z', u', us', hz', hzrest', hstart', hsub, hreached⟩ := exists_reached need source _ c depth rfl hc d hd
    obtain rfl := eq_of_start_eq hc hz hz' hzrest hzrest' (hstart.symm.trans hstart')
    rw [hnone] at hd'
    obtain ⟨d, hd, hretold⟩ := behind _ _ (Nat.le_refl _) hhalted.level (hc.onward hz) (hreached hannounced) d' hd'
    exact ⟨d, hsub hd, hretold⟩
  | oversteps h => exact absurd h hover

/-- **No declarations but those that were found before** are found in the new row. -/
theorem retold_of_mem (source source' : List Char) (n : Nat) :
    ∀ (c c' : Cursor) (depth : Nat), c'.ahead = n → Level need c c' → Orderly c →
    Announced need source depth c → ∀ d' ∈ declarationsFrom source' depth c', ∃ d ∈ declarationsFrom source depth c,
      Retold need d d' := by
  have hless : ∀ (q : Option Token) (u : Token) (us : List Token),
      (⟨some u, us⟩ : Cursor).ahead < (⟨q, u :: us⟩ : Cursor).ahead :=
    fun q u us => Nat.lt_succ_self _
  induction n using Nat.strongRecOn with
  | ind n ih =>
    rintro ⟨p, ts⟩ ⟨p', ts'⟩ depth hn ⟨l, hnoted⟩ hc hannounced d' hd'
    have hnoted : Noted need l p p' ts ts' := hnoted
    have hlevel : LevelBy need l ⟨p, ts⟩ ⟨p', ts'⟩ := hnoted
    cases hnoted with
    | nil =>
      rw [declarationsFrom_nil rfl] at hd'
      cases hd'
    | @comment l m p p' t t' ts ts' hdoc hdoc' hline rest =>
      rw [declarationsFrom, itemsFrom_doc rfl hdoc'] at hd'
      have hsame : declarationsFrom source depth ⟨p, t :: ts⟩ = declarationsFrom source depth ⟨some t, ts⟩ := by
        rw [declarationsFrom, itemsFrom_doc rfl hdoc]
        rfl
      have hannounced' : Announced need source depth ⟨some t, ts⟩ := by
        intro u hu hneed
        rw [← hsame]
        exact hannounced u (List.mem_cons_of_mem _ hu) hneed
      rw [hsame]
      exact ih _ (hn ▸ hless _ _ _) ⟨some t, ts⟩ ⟨some t', ts'⟩ depth rfl ⟨m, rest⟩ (hc.onward Onward.refl.pass)
        hannounced' d' hd'
    | @insert l m p p' t n ts ts' hopens hstarts hneed hdoc hline behind =>
      rw [declarationsFrom, itemsFrom_doc rfl hdoc] at hd'
      exact ih _ (hn ▸ hless _ _ _) ⟨p, t :: ts⟩ ⟨some n, ts'⟩ depth rfl ⟨m, behind⟩ hc hannounced d' hd'
    | @keep l p p' t t' ts ts' hkind hplain hline hstarts harrow hkept hneed rest =>
      have hs : Heads need l ⟨p, t :: ts⟩ ⟨p', t' :: ts'⟩ t t' := ⟨hlevel, rfl, rfl, hkind, hline, hkept, hneed, rest⟩
      have hsame : reads depth p' t' = reads depth p t := by simp [reads, Token.isPunct, hkind, hstarts]
      rw [declarationsFrom_cons rfl, hsame] at hd'
      by_cases hreads : reads depth p t = true
      · rw [if_pos hreads] at hd'
        have hlt := ahead_readStatement_lt (c := ⟨p', t' :: ts'⟩) rfl source'
        exact retold_of_statement hs rfl hreads hc hannounced
          (fun z k' hk' => ih _ (hn ▸ hk'.trans_lt hlt) z k' 0 rfl) d' hd'
      · rw [if_neg hreads] at hd'
        have hdepth : depthBehind depth t' = depthBehind depth t := by simp [depthBehind, Token.isPunct, hkind]
        rw [hdepth] at hd'
        rw [declarationsFrom_cons rfl, if_neg hreads]
        exact ih _ (hn ▸ hless _ _ _) ⟨some t, ts⟩ ⟨some t', ts'⟩ _ rfl ⟨l, rest⟩ (hc.onward Onward.refl.pass)
          (hannounced.pass rfl hreads) d' hd'

end ClosurePipeline.ModuleSummary
