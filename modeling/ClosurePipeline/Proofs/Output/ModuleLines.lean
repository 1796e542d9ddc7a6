/-
Lines of modules. A module takes the place of an output whose map is made already, so what stands on a line should stay
there. The header goes to the first line, and a call is replaced on its line; but a call that goes over several lines is
replaced by one on a single line, and all lines behind it move up.

- `rows`: the pieces of a text, line by line; `splitOn_flatMap`: the lines of a text made of pieces, where only
  characters that stay break lines;
- `exists_rest`: a header changes the first line and nothing behind it;
- `breaks_add_lostBreaks`: the line breaks of a text are those that stay and those inside replaced calls;
- `module_lines`: the result. Every line behind the first is the line of the output with its calls replaced, exactly if
  no replaced call goes over a line's end; `call_over_two_lines_moves_lines`: one that does.
-/
import Mathlib.Tactic
import ClosurePipeline.Proofs.Edit.Places
import ClosurePipeline.Proofs.Output.Calls
import ClosurePipeline.Proofs.Project.Naming
import ClosurePipeline.Proofs.SourceMap.Mappings
import ClosurePipeline.Proofs.Token.Lines

namespace ClosurePipeline.GoogModule

/-! ## Pieces line by line -/

namespace Piece

/-- the piece with a call that stays as its characters -/
def spelled : Piece → List Piece
  | kept w => w.text.map char
  | p => [p]

/-- a line break that stays -/
def isBreak : Piece → Bool
  | char c => c == '\n'
  | _ => false

/-- how many line breaks are lost with the piece -/
def lostBreaks : Piece → Nat
  | replaced w => Text.breaks w.text
  | _ => 0

end Piece

/-- the pieces of a text, line by line -/
def rows (ps : List Piece) : List (List Piece) := (ps.flatMap Piece.spelled).splitOnP Piece.isBreak

/-- how many line breaks are lost with pieces -/
def lostBreaks (ps : List Piece) : Nat := (ps.map Piece.lostBreaks).sum

/-- the lines of a text made of pieces, if a line ends where a line break stays and nowhere else -/
theorem splitOn_flatMap {f : Piece → List Char} {ps : List Piece} (hbreak : ∀ p ∈ ps, p.isBreak = true → f p = ['\n'])
    (hother : ∀ p ∈ ps, p.isBreak = false → '\n' ∉ f p) :
    (ps.flatMap f).splitOn '\n' = (ps.splitOnP Piece.isBreak).map (·.flatMap f) := by
  induction ps with
  | nil => rfl
  | cons p ps ih =>
    have hrest := ih (fun q hq => hbreak q (List.mem_cons_of_mem _ hq)) fun q hq => hother q (List.mem_cons_of_mem _ hq)
    rw [List.flatMap_cons, List.splitOnP_cons_eq_if_modifyHead]
    cases hp : p.isBreak with
    | true =>
      rw [hbreak p List.mem_cons_self hp, List.singleton_append, Text.splitOn_cons, if_pos rfl, hrest]
      rfl
    | false =>
      rw [Mappings.splitOn_append_of_notMem (hother p List.mem_cons_self hp), hrest]
      obtain ⟨row, more, hrow⟩ := List.exists_cons_of_ne_nil (List.splitOnP_ne_nil Piece.isBreak ps)
      simp [hrow]

theorem length_splitOn (cs : List Char) : (cs.splitOn '\n').length = Text.breaks cs + 1 := by
  induction cs with
  | nil => rfl
  | cons c cs ih =>
    rw [Text.splitOn_cons, Text.breaks_cons]
    split_ifs with hc
    · rw [List.length_cons, ih, Nat.add_comm 1]
    · rw [List.length_modifyHead, ih, Nat.zero_add]

theorem sourceOf_spelled (ps : List Piece) : sourceOf (ps.flatMap Piece.spelled) = sourceOf ps := by
  rw [sourceOf, List.flatMap_assoc]
  refine List.flatMap_congr fun p _ => ?_
  cases p with
  | char c => rfl
  | kept w => simp [Piece.spelled, Piece.source, List.flatMap_map]
  | replaced w => simp [Piece.spelled]

theorem render_spelled (name : String → String) (ps : List Piece) :
    (ps.flatMap Piece.spelled).flatMap (Piece.render name) = ps.flatMap (Piece.render name) := by
  rw [List.flatMap_assoc]
  refine List.flatMap_congr fun p _ => ?_
  cases p with
  | char c => rfl
  | kept w => simp [Piece.spelled, Piece.render, Piece.stretch, Stretch.render, List.flatMap_map]
  | replaced w => simp [Piece.spelled]

/-- a spelled piece is a character or a call that is replaced -/
theorem mem_spelled {ps : List Piece} {p : Piece} (h : p ∈ ps.flatMap Piece.spelled) :
    (∃ c, p = .char c) ∨ ∃ w, p = .replaced w ∧ p ∈ ps := by
  obtain ⟨q, hq, hp⟩ := List.mem_flatMap.1 h
  cases q with
  | char c => exact Or.inl ⟨c, List.mem_singleton.1 hp⟩
  | kept w =>
    obtain ⟨c, -, rfl⟩ := List.mem_map.1 hp
    exact Or.inl ⟨c, rfl⟩
  | replaced w =>
    obtain rfl := List.mem_singleton.1 hp
    exact Or.inr ⟨w, rfl, hq⟩

theorem eq_break_of_isBreak {p : Piece} (h : p.isBreak = true) : p = .char '\n' := by
  cases p with
  | char c => rw [show c = '\n' from by simpa [Piece.isBreak] using h]
  | kept w => cases h
  | replaced w => cases h

/-- the lines of a text of pieces are its rows, if no replaced call breaks one -/
theorem splitOn_rows {f : Piece → List Char} (hchar : ∀ c, f (.char c) = [c]) {ps : List Piece}
    (hcall : ∀ w, .replaced w ∈ ps → '\n' ∉ f (.replaced w)) :
    ((ps.flatMap Piece.spelled).flatMap f).splitOn '\n' = (rows ps).map (·.flatMap f) := by
  refine splitOn_flatMap (fun p _ hp => ?_) fun p hp hno => ?_
  · rw [eq_break_of_isBreak hp, hchar]
  · rcases mem_spelled hp with ⟨c, rfl⟩ | ⟨w, rfl, hw⟩
    · rw [hchar, List.mem_singleton]
      rintro rfl
      cases hno
    · exact hcall w hw

/-! ## Line breaks -/

theorem newline_notMem_moduleName (policy : Policy) (context : Path) (specifier : String) :
    '\n' ∉ (policy.rules.moduleName context specifier).toList := by
  intro h
  rcases Policy.mem_moduleName h with h | h
  · exact absurd h (by decide)
  · exact absurd h (by decide)

theorem newline_notMem_header (policy : Policy) (es5 : Bool) {path : Path} (hpath : '\n' ∉ path.text.toList) :
    '\n' ∉ (headerOf policy.rules es5 path).toList := by
  have hid : '\n' ∉ (policy.rules.moduleId path).toList := by
    intro h
    rcases Policy.mem_moduleId h with h | h | h
    · exact absurd h (by decide)
    · exact absurd h (by decide)
    · exact hpath h
  have hname := newline_notMem_moduleName policy .empty path.text
  have hopen : '\n' ∉ "goog.module('".toList ∧ '\n' ∉ "');".toList := by decide
  have hvariable : '\n' ∉ " var module = module || \x7bid: '".toList ∧ '\n' ∉ "'\x7d;".toList := by decide
  unfold headerOf header
  cases es5 with
  | false =>
    simp only [Bool.false_eq_true, if_false, String.toList_append, List.mem_append, hopen, hname, String.toList_empty,
      List.not_mem_nil, or_false, not_false_eq_true]
  | true =>
    simp only [if_true, String.toList_append, List.mem_append, hopen, hname, hvariable, hid, or_false,
      not_false_eq_true]

theorem newline_notMem_render (policy : Policy) (context : Path) (w : RequireCall) :
    '\n' ∉ (Piece.replaced w).render (policy.rules.moduleName context) := by
  simpa [Piece.render, Piece.stretch, Stretch.render] using
    newline_notMem_moduleName policy context (String.ofList w.specifier)

/-- a header takes the place of some text on the first line, and stays on it -/
theorem exists_rest {head : String} (hhead : '\n' ∉ head.toList) (body : List Char) :
    ∃ front back rest, (withHeader head body).toList = front ++ rest ∧ body = back ++ rest ∧ '\n' ∉ front ∧
      '\n' ∉ back := by
  unfold withHeader
  split_ifs
  · refine ⟨head.toList, body.takeWhile (· ≠ '\n'), body.dropWhile (· ≠ '\n'), by simp,
      List.takeWhile_append_dropWhile.symm, hhead, fun h => ?_⟩
    simpa using List.mem_takeWhile_imp h
  · exact ⟨head.toList ++ [' '], [], body, by simp, rfl, by simp [hhead], List.not_mem_nil⟩

theorem breaks_withHeader {head : String} (hhead : '\n' ∉ head.toList) (body : List Char) :
    Text.breaks (withHeader head body).toList = Text.breaks body := by
  obtain ⟨front, back, rest, hmodule, rfl, hfront, hback⟩ := exists_rest hhead body
  rw [hmodule, Text.breaks_append, Text.breaks_append, Text.breaks_eq_zero hfront, Text.breaks_eq_zero hback]

/-- a header changes the first line only -/
theorem tail_splitOn_withHeader {head : String} (hhead : '\n' ∉ head.toList) (body : List Char) :
    ((withHeader head body).toList.splitOn '\n').tail = (body.splitOn '\n').tail := by
  obtain ⟨front, back, rest, hmodule, rfl, hfront, hback⟩ := exists_rest hhead body
  rw [hmodule, Mappings.splitOn_append_of_notMem hfront, Mappings.splitOn_append_of_notMem hback, List.tail_modifyHead,
    List.tail_modifyHead]

/-- the line breaks of a text are those of its module and those lost with calls -/
theorem breaks_add_lostBreaks (policy : Policy) (context : Path) (ps : List Piece) :
    Text.breaks (ps.flatMap (Piece.render (policy.rules.moduleName context))) + lostBreaks ps =
      Text.breaks (sourceOf ps) := by
  induction ps with
  | nil => rfl
  | cons p ps ih =>
    rw [List.flatMap_cons, sourceOf_cons, lostBreaks, List.map_cons, List.sum_cons, Text.breaks_append,
      Text.breaks_append, ← ih, lostBreaks]
    cases p with
    | char c =>
      change Text.breaks [c] + _ + (0 + _) = Text.breaks [c] + _
      omega
    | kept w =>
      change Text.breaks w.text + _ + (0 + _) = Text.breaks w.text + _
      omega
    | replaced w =>
      rw [Text.breaks_eq_zero (newline_notMem_render policy context w)]
      change 0 + _ + (Text.breaks w.text + _) = Text.breaks w.text + _
      omega

theorem lostBreaks_eq_zero_iff {ps : List Piece} : lostBreaks ps = 0 ↔ ∀ w, .replaced w ∈ ps → '\n' ∉ w.text := by
  rw [lostBreaks, List.sum_eq_zero_iff, List.forall_mem_map]
  constructor
  · exact fun h w hw => List.count_eq_zero.1 (show Text.breaks w.text = 0 from h _ hw)
  · intro h p hp
    cases p with
    | char c => rfl
    | kept w => rfl
    | replaced w => exact Text.breaks_eq_zero (h w hp)

/-! ## Modules -/

/-- **The lines of a module.** Read the text of an output into pieces. Each line of its module behind the first is a row
of these pieces, rendered, and the module has the line breaks of the text but for those inside replaced calls. The rows
are the lines of the text exactly if no replaced call goes over the end of a line. -/
theorem module_lines (policy : Policy) (es5 : Bool) {path : Path} (hpath : '\n' ∉ path.text.toList) (text : String) :
    ∃ ps : List Piece,
    Reading [] ps ∧ sourceOf ps = text.toList ∧
    (∀ i, ((wrap policy.rules es5 path text).text.toList.splitOn '\n')[i + 1]? =
      (rows ps)[i + 1]?.map (·.flatMap (Piece.render (policy.rules.moduleName path)))) ∧
    Text.breaks (wrap policy.rules es5 path text).text.toList + lostBreaks ps = Text.breaks text.toList ∧
    (text.toList.splitOn '\n' = (rows ps).map sourceOf ↔ ∀ w, .replaced w ∈ ps → '\n' ∉ w.text) := by
  obtain ⟨ps, hread, hsource, htext⟩ := exists_pieces policy.rules es5 path text
  have hheader := newline_notMem_header policy es5 hpath
  have hbody : (ps.flatMap (Piece.render (policy.rules.moduleName path))).splitOn '\n' =
      (rows ps).map (·.flatMap (Piece.render (policy.rules.moduleName path))) := by
    rw [← render_spelled]
    exact splitOn_rows (fun c => rfl) fun w _ => newline_notMem_render policy path w
  refine ⟨ps, hread, hsource, fun i => ?_, ?_, fun hlines => ?_, fun hcalls => ?_⟩
  · rw [htext, ← List.getElem?_tail, tail_splitOn_withHeader hheader, hbody, List.getElem?_tail, List.getElem?_map]
  · rw [htext, breaks_withHeader hheader, breaks_add_lostBreaks, hsource]
  · -- there are as many rows as lines of the rendered text
    have hlength := congrArg List.length hlines
    have hrows := congrArg List.length hbody
    have hbreaks := breaks_add_lostBreaks policy path ps
    rw [length_splitOn, List.length_map] at hlength hrows
    rw [hsource] at hbreaks
    rw [← lostBreaks_eq_zero_iff]
    omega
  · rw [← hsource, ← sourceOf_spelled]
    exact splitOn_rows (fun c => rfl) fun w hw => hcalls w hw

/-- the policy of a project that writes to its own directory -/
def distPolicy : Policy := ⟨⟨"/p"⟩, some ⟨"/p/dist"⟩, [], []⟩

/-- an output with a directive, a call that stays, one that is replaced, and one that goes over two lines -/
def strictOutput : String :=
  "'use strict';\nvar a = require('./a'), b = goog.require('b');\nvar c = require(\n\"./c\");\n"

/-- the calls on the second line are told apart, and one line break is lost -/
theorem module_lines_strictOutput :
    '\n' ∉ "/p/dist/main.js".toList ∧ ∃ ps : List Piece, Reading [] ps ∧ sourceOf ps = strictOutput.toList ∧
    (rows ps)[1]?.map (·.flatMap (Piece.render (distPolicy.rules.moduleName ⟨"/p/dist/main.js"⟩))) =
      some "var a = goog.require('a'), b = goog.require('b');".toList ∧
    lostBreaks ps = 1 ∧ (strictOutput.toList.splitOn '\n' ≠ (rows ps).map sourceOf) := by
  have hpath : '\n' ∉ "/p/dist/main.js".toList := by decide
  obtain ⟨ps, hread, hsource, hline, hbreaks, hrows⟩ :=
    @module_lines distPolicy false ⟨"/p/dist/main.js"⟩ hpath strictOutput
  have hmodule : (wrap distPolicy.rules false ⟨"/p/dist/main.js"⟩ strictOutput).text =
      "goog.module('main');\nvar a = goog.require('a'), b = goog.require('b');\nvar c = goog.require('c');\n" := by
    decide +kernel
  rw [hmodule] at hline hbreaks
  have hlost : lostBreaks ps = 1 := Nat.add_left_cancel (hbreaks.trans (show _ = 3 + 1 by decide))
  refine ⟨hpath, ps, hread, hsource, (hline 0).symm.trans (by decide), hlost, fun hlines => ?_⟩
  rw [lostBreaks_eq_zero_iff.2 (hrows.1 hlines)] at hlost
  cases hlost

/-- **A call over two lines moves the lines behind it:** it is replaced by one on a single line. -/
theorem call_over_two_lines_moves_lines :
    ¬ ∀ (policy : Policy) (es5 : Bool) (path : Path) (text : String), '\n' ∉ path.text.toList →
    Text.breaks (wrap policy.rules es5 path text).text.toList = Text.breaks text.toList := by
  intro hall
  have hsame := hall distPolicy false ⟨"/p/dist/main.js"⟩ "var a = require(\n'./a');\nvar b;\n" (by decide)
  exact absurd hsame (by decide +kernel)

end ClosurePipeline.GoogModule
