/-
What downleveling does to a class, by rules. They speak of the text around the class and of the texts put in, and not of
how the pass computes its edits.

- `Indents`: the blanks a line starts with; `indents_indentation`: they are found from any place on the line;
- `Trail`: what goes with a decorator when it is taken off; `removalEnd_eq`: so it is removed up to there;
- `IsMarked`: a class with annotations; `Rewritten`: the edits for it.
-/
import Mathlib.Tactic
import ClosurePipeline.Pass.Downlevel
import ClosurePipeline.Proofs.Edit.Exact

namespace ClosurePipeline

/-! ## Indentation -/

namespace EditScript

/-- the spaces and tabs that the line around a place starts with, given the text on both sides of the place -/
inductive Indents : List Char → List Char → List Char → Prop where
  | mk {above within behind indent rest : List Char} (habove : ∀ c ∈ above.getLast?, c = '\n') (hwithin : '\n' ∉ within)
      (hline : within ++ behind = indent ++ rest) (hindent : ∀ c ∈ indent, c = ' ' ∨ c = '\t')
      (hrest : ∀ c ∈ rest.head?, c ≠ ' ' ∧ c ≠ '\t') : Indents (above ++ within) behind indent

theorem indents_indentation (before behind : List Char) :
    Indents before behind (indentation (before ++ behind) (Text.byteLength before)) := by
  have hbefore := Lexer.reverse_dropWhile_append (· ≠ '\n') before
  have habove : ∀ c ∈ (before.reverse.dropWhile (· ≠ '\n')).reverse.getLast?, c = '\n' := by
    rw [List.getLast?_reverse]
    intro c hc
    simpa using Lexer.head?_dropWhile c hc
  have hwithin : '\n' ∉ (before.reverse.takeWhile (· ≠ '\n')).reverse := by
    rw [List.mem_reverse]
    intro hc
    simpa using List.mem_takeWhile_imp hc
  rw [indentation, Text.takeBytes_byteLength_append, Text.dropBytes_byteLength_append]
  generalize (before.reverse.takeWhile (· ≠ '\n')).reverse = within at hbefore hwithin ⊢
  generalize (before.reverse.dropWhile (· ≠ '\n')).reverse = above at hbefore habove
  subst hbefore
  refine .mk habove hwithin List.takeWhile_append_dropWhile.symm (fun c hc => ?_) fun c hc => ?_
  · simpa using List.mem_takeWhile_imp hc
  · simpa using Lexer.head?_dropWhile c hc

end EditScript

/-! ## Removals -/

namespace Pass.Downlevel

open EditScript (Indents)

/-- what goes with a decorator when it is taken off, out of the text behind it: spaces and tabs as far as they reach,
and a line break if one follows -/
inductive Trail : List Char → List Char → Prop where
  | long {spaces : List Char} (h : ∀ c ∈ spaces, c = ' ' ∨ c = '\t') (rest : List Char) :
    Trail (spaces ++ ['\r', '\n']) rest
  | short {spaces : List Char} (h : ∀ c ∈ spaces, c = ' ' ∨ c = '\t') (rest : List Char) : Trail (spaces ++ ['\n']) rest
  | plain {spaces rest : List Char} (h : ∀ c ∈ spaces, c = ' ' ∨ c = '\t')
      (hblank : ∀ c ∈ rest.head?, c ≠ ' ' ∧ c ≠ '\t') (hbreak : ¬ ['\n'] <+: rest ∧ ¬ ['\r', '\n'] <+: rest) :
    Trail spaces rest

theorem Trail.isBlank {trail rest : List Char} (h : Trail trail rest) : ∀ c ∈ trail, Lexer.isBlank c = true := by
  have hspace : ∀ c, c = ' ' ∨ c = '\t' → Lexer.isBlank c = true := by
    rintro c (rfl | rfl) <;> decide
  cases h with
  | long h => exact List.forall_mem_append.2 ⟨fun c hc => hspace c (h c hc), List.forall_iff_forall_mem.1 (by decide)⟩
  | short h => exact List.forall_mem_append.2 ⟨fun c hc => hspace c (h c hc), List.forall_iff_forall_mem.1 (by decide)⟩
  | plain h => exact fun c hc => hspace c (h c hc)

theorem byteLength_eq_length {cs : List Char} (h : ∀ c ∈ cs, Lexer.isBlank c = true) :
    Text.byteLength cs = cs.length := by
  have hsize : ∀ c ∈ [' ', '\t', '\r', '\n'], c.utf8Size = 1 := List.forall_iff_forall_mem.1 (by decide)
  induction cs with
  | nil => rfl
  | cons c cs ih =>
    obtain ⟨hc, hcs⟩ := List.forall_mem_cons.1 h
    rw [Text.byteLength_cons, hsize c (Lexer.isBlank_iff.1 hc), ih hcs, List.length_cons, Nat.add_comm]

/-- **Where a removal ends:** behind what goes with the decorator -/
theorem removalEnd_eq {before rest : List Char} {r : Decorator} (hstop : r.span.stop = Text.byteLength before) :
    ∃ trail left, rest = trail ++ left ∧ Trail trail left ∧
      removalEnd (before ++ rest) r = Text.byteLength before + Text.byteLength trail := by
  have hspaces : ∀ c ∈ rest.takeWhile fun c => c = ' ' || c = '\t', c = ' ' ∨ c = '\t' := by
    intro c hc
    simpa using List.mem_takeWhile_imp hc
  have hhead : ∀ c ∈ (rest.dropWhile fun c => c = ' ' || c = '\t').head?, c ≠ ' ' ∧ c ≠ '\t' := by
    intro c hc
    simpa using Lexer.head?_dropWhile c hc
  have hsplit : rest = (rest.takeWhile fun c => c = ' ' || c = '\t') ++ rest.dropWhile fun c => c = ' ' || c = '\t' :=
    List.takeWhile_append_dropWhile.symm
  have hlong := Trail.long hspaces
  have hshort := Trail.short hspaces
  have hplain := @Trail.plain _ _ hspaces hhead
  unfold removalEnd
  rw [hstop, Text.dropBytes_byteLength_append]
  dsimp only
  rw [Lexer.drop_length_takeWhile, Nat.add_assoc]
  generalize (rest.takeWhile fun c => c = ' ' || c = '\t') = spaces at hsplit hlong hshort hplain ⊢
  split
  · rename_i left hdrop
    refine ⟨spaces ++ ['\r', '\n'], left, by rw [hsplit, hdrop, List.append_assoc]; rfl, hlong left, ?_⟩
    rw [byteLength_eq_length (hlong left).isBlank, List.length_append]
    rfl
  · rename_i left hdrop
    refine ⟨spaces ++ ['\n'], left, by rw [hsplit, hdrop, List.append_assoc]; rfl, hshort left, ?_⟩
    rw [byteLength_eq_length (hshort left).isBlank, List.length_append]
    rfl
  · rename_i hnolong hnoshort
    have htrail := hplain ⟨fun ⟨left, h⟩ => hnoshort left h.symm, fun ⟨left, h⟩ => hnolong left h.symm⟩
    exact ⟨spaces, _, hsplit, htrail, by rw [byteLength_eq_length htrail.isBlank]; rfl⟩

/-- the edit that takes a decorator off with what goes with it -/
inductive Removed (source : List Char) (r : Decorator) : Edit → Prop where
  | mk {before trail rest : List Char} (hsource : source = before ++ (trail ++ rest))
      (hstop : r.span.stop = Text.byteLength before) (htrail : Trail trail rest) :
    Removed source r (Edit.remove r.span.start (Text.byteLength (before ++ trail)))

theorem removed_remove {source : List Char} {r : Decorator} (h : Lexer.OnBoundary source r.span.stop) :
    Removed source r (Edit.remove r.span.start (removalEnd source r)) := by
  obtain ⟨before, rest, rfl, hstop⟩ := h
  obtain ⟨trail, left, rfl, htrail, hend⟩ := @removalEnd_eq _ rest _ hstop
  rw [hend, ← Text.byteLength_append]
  exact .mk rfl hstop htrail

/-! ## Classes -/

/-- a class with annotations -/
def IsMarked (cx : Context) (file : Path) (d : Declaration) : Prop :=
  d.kind = .classDecl ∧ ∃ r ∈ d.decorators, IsTagged cx file r

instance (cx : Context) (file : Path) (d : Declaration) : Decidable (IsMarked cx file d) :=
  inferInstanceAs (Decidable (_ ∧ _))

theorem isMarked_iff {cx : Context} {file : Path} {d : Declaration} :
    IsMarked cx file d ↔ d.kind = .classDecl ∧ annotations cx file d ≠ [] := by
  simp [IsMarked, annotations_eq, List.filter_eq_nil_iff]

/-- the edits for a class with annotations: each of them is taken off, and behind the brace that opens the body stands
the block that lists them, indented as the line of the brace is -/
inductive Rewritten (cx : Context) (file : Path) (source : List Char) (d : Declaration) : List Edit → Prop where
  | mk {before behind indent : List Char} {body : Span} {removals : List Edit} {block : String}
      (hbody : d.body = some body) (hbrace : source = before ++ '{' :: behind)
      (hstart : body.start = Text.byteLength before) (hindent : Indents before ('{' :: behind) indent)
      (hremovals : List.Forall₂ (Removed source) (d.decorators.filter fun r => IsTagged cx file r) removals)
      (hblock : Block (String.ofList indent) (d.decorators.filter fun r => IsTagged cx file r) block) :
      Rewritten cx file source d (removals ++ [Edit.insert (Text.byteLength (before ++ ['{'])) block.toList])

end Pass.Downlevel

end ClosurePipeline
