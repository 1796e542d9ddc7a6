/-
The pass settles in one run. Its text, read again, has no declarations but those of the old text, each of them with
every tag it was given, so a second run finds nothing to add.

- `needAt`: the tags that the pass puts in front of a token; `announced_tokenize`: only the starts of declarations have
  any;
- `marks_declarations`: the edits of a unit give these tags, by induction on its declarations and the places of the
  tokens;
- `noted_apply`: the tokens of the text before and after the pass differ in comments only, and every declaration has
  what it needs;
- `given_of_retold`: a declaration of the new text is given nothing;
- `apply_twice`: the result. An interface with a body is left out: it would get another shim.
-/
import Mathlib.Tactic
import ClosurePipeline.Proofs.Module.Rescan
import ClosurePipeline.Proofs.Pass.Comments
import ClosurePipeline.Proofs.Pass.Placed

namespace ClosurePipeline.Pass.ClosureDocs

open Lexer
open ModuleSummary (Announced Orderly declarationsFrom)

/-! ## Where tags are needed -/

theorem map_snd_places (prev? : Option Token) (ts : List Token) : (places prev? ts).map Prod.snd = ts := by
  induction ts generalizing prev? with
  | nil => rfl
  | cons t ts ih => rw [places, List.map_cons, ih]

/-- the first of a list of declarations that starts at this byte -/
def startingAt (ds : List Declaration) (s : Nat) : Option Declaration := ds.find? (·.start == s)

theorem startingAt_of_mem {ds : List Declaration} (h : ds.Pairwise fun d e => d.start < e.start) {d : Declaration}
    (hd : d ∈ ds) :
    startingAt ds d.start = some d := by
  induction ds with
  | nil => cases hd
  | cons e ds ih =>
    obtain ⟨hlt, hrest⟩ := List.pairwise_cons.1 h
    rw [startingAt, List.find?_cons]
    rcases List.mem_cons.1 hd with rfl | hd
    · simp
    · have hne : (e.start == d.start) = false := by simpa using (hlt d hd).ne
      rw [hne]
      exact ih hrest hd

theorem mem_of_startingAt {ds : List Declaration} {s : Nat} {d : Declaration} (h : startingAt ds s = some d) :
    d ∈ ds ∧ d.start = s :=
  ⟨List.mem_of_find?_eq_some h, by simpa using List.find?_some h⟩

/-- the names of the tags that the pass gives to the declaration that starts at this byte, if one does -/
def needAt (cx : Context) (unit : SourceUnit) (s : Nat) : Option (List String) :=
  (startingAt unit.summary.declarations s).map fun d => (given cx unit d).map Tag.name

/-- the tokens of a text start one behind the other -/
theorem increasing_tokenize (cs : List Char) : (tokenize cs).Pairwise fun t u => t.start < u.start :=
  (pairwise_tokenize cs).imp_of_mem fun ht _ hle => (start_lt_stop ht).trans_le hle

theorem orderly_tokenize (cs : List Char) :
    Orderly (Cursor.start (tokenize cs)) := ⟨increasing_tokenize cs, slashless_tokenize cs⟩

/-- the places of declarations, by their starts -/
theorem starts_sublist {ds : List Declaration} {ps : List (Option Token × Token)}
    (h : List.SublistForall₂ DeclaredAt ds ps) :
    (ds.map Declaration.start).Sublist (ps.map fun p => p.2.start) := by
  induction h with
  | nil => exact List.nil_sublist _
  | cons hd _ ih =>
    rw [List.map_cons, List.map_cons, hd.start]
    exact ih.cons_cons _
  | cons_right _ ih => exact ih.cons _

section

variable {cx : Context} {path : Path} {text : String}

theorem declared_parse (path : Path) (text : String) :
    List.SublistForall₂ DeclaredAt (SourceUnit.parse path text).summary.declarations
      (places none (tokenize text.toList)) :=
  ModuleSummary.declared_ofTokens text.toList (slashless_tokenize _)

theorem increasing_places (cs : List Char) : ((places none (tokenize cs)).map fun p => p.2.start).Pairwise (· < ·) := by
  rw [← Function.comp_def Token.start Prod.snd, ← List.map_map, map_snd_places, List.pairwise_map]
  exact increasing_tokenize cs

theorem increasing_declarations (path : Path) (text : String) :
    (SourceUnit.parse path text).summary.declarations.Pairwise fun d e => d.start < e.start :=
  List.pairwise_map.1 ((increasing_places text.toList).sublist (starts_sublist (declared_parse path text)))

theorem needAt_of_mem {d : Declaration} (hd : d ∈ (SourceUnit.parse path text).summary.declarations) :
    needAt cx (.parse path text) d.start = some ((given cx (.parse path text) d).map Tag.name) := by
  rw [needAt, startingAt_of_mem (increasing_declarations path text) hd]
  rfl

/-- tags are needed at the starts of declarations only -/
theorem exists_of_needAt {unit : SourceUnit} {s : Nat} (h : needAt cx unit s ≠ none) :
    ∃ d ∈ unit.summary.declarations, d.start = s := by
  have hsome : startingAt unit.summary.declarations s ≠ none := fun hnone => h (by rw [needAt, hnone]; rfl)
  obtain ⟨d, hd⟩ := Option.ne_none_iff_exists'.1 hsome
  exact ⟨d, mem_of_startingAt hd⟩

theorem declarations_parse (path : Path) (text : String) :
    (SourceUnit.parse path text).summary.declarations =
      declarationsFrom text.toList 0 (Cursor.start (tokenize text.toList)) := by
  change (ModuleSummary.ofTokens _ _).declarations = _
  rw [ModuleSummary.ofTokens, ModuleSummary.declarations_foldl_add]
  rfl

theorem announced_tokenize (cx : Context) (path : Path) (text : String) :
    Announced (needAt cx (.parse path text)) text.toList 0 (Cursor.start (tokenize text.toList)) := by
  intro t _ hneed
  rw [← declarations_parse path]
  exact exists_of_needAt hneed

end

/-! ## What the pass gives -/

/-- **The edits of declarations give the tags they need,** each at the place of its declaration. -/
theorem marks_declarations (cx : Context) {unit : SourceUnit} {need : Nat → Option (List String)}
    {ds : List Declaration} {ps : List (Option Token × Token)} (h : List.SublistForall₂ DeclaredAt ds ps)
    (hps : (ps.map fun p => p.2.start).Pairwise (· < ·))
    (hshim : ∀ d ∈ ds, d.kind = .interfaceDecl → isAmbient unit d = false → d.body = none)
    (hgiven : ∀ d ∈ ds, need d.start = some ((given cx unit d).map Tag.name))
    (honly : ∀ p ∈ ps, need p.2.start ≠ none → ∃ d ∈ ds, d.start = p.2.start) :
    Marks unit.text.toList need (ds.flatMap (editsFor cx unit)) ps := by
  -- a place behind another is not the start of the same declaration
  have behind : ∀ {p : Option Token × Token} {ps : List (Option Token × Token)} {d : Declaration},
      ((p :: ps).map fun p => p.2.start).Pairwise (· < ·) → d.start = p.2.start → ∀ q ∈ ps, d.start ≠ q.2.start := by
    intro p ps d hps hstart q hq heq
    have hlt : p.2.start < q.2.start := (List.pairwise_cons.1 hps).1 _ (List.mem_map_of_mem hq)
    omega
  induction h with
  | @nil ps =>
    refine marks_nil _ fun p hp => ?_
    by_contra hsome
    obtain ⟨d, hd, -⟩ := honly p hp fun hnone => hsome (by rw [hnone]; rfl)
    cases hd
  | @cons d p ds ps hd h ih =>
    obtain ⟨hfirst, hrest⟩ := List.forall_mem_cons.1 hshim
    obtain ⟨hneed, hneeds⟩ := List.forall_mem_cons.1 hgiven
    have hmarks := ih (List.pairwise_cons.1 hps).2 hrest hneeds fun q hq hsome => by
      obtain ⟨e, he, hstart⟩ := honly q (List.mem_cons_of_mem _ hq) hsome
      rcases List.mem_cons.1 he with rfl | he
      · exact absurd hstart (behind hps hd.start q hq)
      · exact ⟨e, he, hstart⟩
    rw [hd.start] at hneed
    rw [List.flatMap_cons, editsFor_of_no_shim cx hfirst]
    split_ifs with hempty
    · exact .skip (by rw [hneed, List.isEmpty_iff.1 hempty]; rfl) hmarks
    · exact .mark (gives_annotate cx unit hd) (by rw [hneed]; simp)
        (by rw [hneed, Option.getD_some]; exact List.Subset.refl _) hmarks
  | @cons_right p ds ps h ih =>
    have hmarks := ih (List.pairwise_cons.1 hps).2 hshim hgiven fun q hq => honly q (List.mem_cons_of_mem _ hq)
    refine .skip ?_ hmarks
    by_contra hsome
    obtain ⟨d, hd, hstart⟩ := honly p List.mem_cons_self fun hnone => hsome (by rw [hnone]; rfl)
    obtain ⟨s, hs, heq⟩ := List.mem_map.1 ((starts_sublist h).subset (List.mem_map_of_mem hd))
    exact behind hps hstart s hs heq.symm

section

variable {cx : Context} {path : Path} {text : String}

/-- the text after the pass is that of its edits, also if there are none -/
theorem toList_text_apply (cx : Context) (unit : SourceUnit) :
    (apply cx unit).text.toList =
      (EditScript.run unit.text.toList (unit.summary.declarations.flatMap (editsFor cx unit)) []).1 := by
  unfold apply
  dsimp only
  split_ifs with hnone
  · rw [List.isEmpty_iff.1 hnone, EditScript.run_of_pairwise .nil]
    simp [EditScript.cut, EditScript.textOf, Piece.text]
  · exact String.toList_ofList

/-- **The tokens of the text before and after the pass differ in comments only,** and every declaration has the tags it
needs. -/
theorem noted_apply (hshim : ∀ d ∈ (SourceUnit.parse path text).summary.declarations,
      d.kind = .interfaceDecl → isAmbient (.parse path text) d = false → d.body = none) :
    Noted (needAt cx (.parse path text)) 0 none none (tokenize text.toList)
      (tokenize (apply cx (.parse path text)).text.toList) := by
  have hmarks :=
    marks_declarations cx (declared_parse path text) (increasing_places text.toList) hshim (fun _ => needAt_of_mem)
    fun _ _ => exists_of_needAt
  obtain ⟨now, later, owed, text', hpending, -, hannotated⟩ :=
    exists_annotated none text.toList [] none 0 _ rfl rfl hmarks
  obtain ⟨rfl, rfl⟩ := hpending.of_docOf?_eq_none rfl
  have hrun := hannotated.commented.text_run
  rw [toList_text_apply]
  change Noted _ 0 none none _ (tokenize (EditScript.run text.toList _ []).1)
  rw [hrun]
  exact hannotated.noted 0 none 0 0 rfl .start (List.nil_subset _)

/-! ## What is found again -/

theorem allTags_of_retold {need : Nat → Option (List String)} {d d' : Declaration} (h : Retold need d d') (cx : Context)
    (file : Path) :
    allTags cx file d' = allTags cx file d := by
  simp only [allTags, classTags, interfaceTags, h.kind, h.heritage, h.exported]

/-- **A declaration of the new text is given nothing:** it has every tag it had and every tag it was given. -/
theorem given_of_retold {need : Nat → Option (List String)} {unit unit' : SourceUnit} {d d' : Declaration}
    (h : Retold need d d') (hpath : unit'.path = unit.path)
    (hneed : need d.start = some ((given cx unit d).map Tag.name)) : given cx unit' d' = [] := by
  have hambient : isAmbient unit' d' = isAmbient unit d := by rw [isAmbient, isAmbient, hpath, h.ambient]
  unfold given at hneed ⊢
  rw [hambient, hpath]
  split_ifs with hskipped
  · rfl
  · rw [if_neg hskipped] at hneed
    refine List.filter_eq_nil_iff.2 fun t ht => ?_
    rw [allTags_of_retold h] at ht
    have hhas : d'.hasTag t.name = true := by
      by_cases hold : d.hasTag t.name = true
      · exact h.tags _ hold
      · refine h.needs _ ?_
        rw [hneed]
        exact List.mem_map_of_mem (List.mem_filter.2 ⟨ht, by simpa using hold⟩)
    simp [hhas]

/-- every declaration of the text after the pass is one of the text before it, with more tags -/
theorem retold_apply (hshim : ∀ d ∈ (SourceUnit.parse path text).summary.declarations,
      d.kind = .interfaceDecl → isAmbient (.parse path text) d = false → d.body = none) :
    ∀ d' ∈ (SourceUnit.parse path (apply cx (.parse path text)).text).summary.declarations,
      ∃ d ∈ (SourceUnit.parse path text).summary.declarations, Retold (needAt cx (.parse path text)) d d' := by
  rw [declarations_parse, declarations_parse]
  exact ModuleSummary.retold_of_mem _ _ _ _ _ 0 rfl ⟨0, noted_apply hshim⟩ (orderly_tokenize _)
    (announced_tokenize cx path text)

/-- **The pass settles in one run.** On the text it made, read again, it changes nothing and has no fragment, whatever
symbols are known and whatever the policy is. -/
theorem apply_twice (cx : Context) (path : Path) (text : String)
    (hshim : ∀ d ∈ (SourceUnit.parse path text).summary.declarations,
      d.kind = .interfaceDecl → isAmbient (.parse path text) d = false → d.body = none) :
    (apply cx (.parse path (apply cx (.parse path text)).text)).text = (apply cx (.parse path text)).text ∧
      (apply cx (.parse path (apply cx (.parse path text)).text)).fragment = none := by
  have hretold := @retold_apply cx path text hshim
  generalize (apply cx (.parse path text)).text = settled at hretold
  have hnone :
      (SourceUnit.parse path settled).summary.declarations.flatMap (editsFor cx (.parse path settled)) = [] := by
    refine List.flatMap_eq_nil_iff.2 fun d' hd' => ?_
    obtain ⟨d, hd, hretold⟩ := hretold d' hd'
    have hgiven : given cx (.parse path settled) d' = [] := given_of_retold hretold rfl (needAt_of_mem hd)
    rw [editsFor_of_no_shim cx, hgiven]
    · rfl
    · intro hkind hambient
      refine hretold.body (hshim d hd (hretold.kind.symm.trans hkind) ?_)
      rw [isAmbient, hretold.ambient] at hambient
      exact hambient
  unfold apply
  simp only [hnone]
  exact ⟨rfl, rfl⟩

/-- the first run has an edit for the class and one for the function, the second has none -/
theorem apply_twice_documentedClass :
    (∀ d ∈ (SourceUnit.parse ⟨"/p/a.ts"⟩ documentedClass).summary.declarations,
      d.kind = .interfaceDecl → isAmbient (.parse ⟨"/p/a.ts"⟩ documentedClass) d = false → d.body = none) ∧
      ((SourceUnit.parse ⟨"/p/a.ts"⟩ documentedClass).summary.declarations.flatMap
        (editsFor withoutSymbols (.parse ⟨"/p/a.ts"⟩ documentedClass))).length = 2 ∧
      (apply withoutSymbols
        (.parse ⟨"/p/a.ts"⟩ (apply withoutSymbols (.parse ⟨"/p/a.ts"⟩ documentedClass)).text)).text =
        (apply withoutSymbols (.parse ⟨"/p/a.ts"⟩ documentedClass)).text ∧
      (apply withoutSymbols
        (.parse ⟨"/p/a.ts"⟩ (apply withoutSymbols (.parse ⟨"/p/a.ts"⟩ documentedClass)).text)).fragment = none := by
  have hshim : ∀ d ∈ (SourceUnit.parse ⟨"/p/a.ts"⟩ documentedClass).summary.declarations,
      d.kind = .interfaceDecl → isAmbient (.parse ⟨"/p/a.ts"⟩ documentedClass) d = false → d.body = none := by
    decide +kernel
  have hedits : ((SourceUnit.parse ⟨"/p/a.ts"⟩ documentedClass).summary.declarations.flatMap
      (editsFor withoutSymbols (.parse ⟨"/p/a.ts"⟩ documentedClass))).length = 2 := by decide +kernel
  exact ⟨hshim, hedits, apply_twice withoutSymbols ⟨"/p/a.ts"⟩ documentedClass hshim⟩

end

end ClosurePipeline.Pass.ClosureDocs
