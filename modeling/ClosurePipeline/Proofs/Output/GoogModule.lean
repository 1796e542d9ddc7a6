/-
What the text of a module requires, by text alone: the names that stand in it as `goog.require('<name>')`. A text that
has no such call before it is made a module has the calls that its require calls were turned into, and no others.

- `infix_quoted`: where a call can stand in a text that quotes a string;
- `Cut`, `cut_stretches`: the stretches of a text, and the text behind them;
- `infix_render`: the calls in a rendered text are its stretches that are calls;
- `Quotable`, `QuotableAt`: names and ids that cannot be taken for the start of a call, or cut one short;
- `infix_header`, `infix_withHeader`: a header of such a name and id adds none;
- `moduleHead_prefix`, `calls_text_iff`: the whole of it, for a module.
-/
import Mathlib.Data.List.TakeWhile
import Mathlib.Tactic
import ClosurePipeline.Output.GoogModule

namespace ClosurePipeline.GoogModule

/-! ## Quoted strings -/

/-- what a call starts with -/
def callWord : List Char := "goog.require(".toList

/-- a call up to its name -/
def opening : List Char := callWord ++ ['\'']

/-- the call of a module name, as it stands in a text -/
def callText (name : List Char) : List Char := callWord ++ '\'' :: (name ++ ['\'', ')'])

/-- a name without quotes stands in a text as a call -/
def Calls (text name : String) : Prop := '\'' ∉ name.toList ∧ callText name.toList <:+: text.toList

/-- a text that can be put in quotes: there is no quote in it, and it does not end as a call starts -/
structure Quotable (s : String) : Prop where
  plain : '\'' ∉ s.toList
  apart : ¬ callWord <:+ s.toList

/-- what the module at a path puts in quotes can stand there: its name, the names it requires and, in ES5
form, its id -/
structure QuotableAt (rules : Rules) (es5 : Bool) (path : Path) : Prop where
  name : Quotable (rules.moduleName .empty path.text)
  required : ∀ specifier, Quotable (rules.moduleName path specifier)
  id : es5 = true → Quotable (rules.moduleId path)

theorem callText_ne_nil (name : List Char) :
    callText name ≠ [] := List.append_ne_nil_of_right_ne_nil _ (List.cons_ne_nil _ _)

theorem opening_prefix_callText (name : List Char) :
    opening <+: callText name := ⟨name ++ ['\'', ')'], by simp [opening, callText]⟩

section Quote

variable {q : Char} {a t x y : List Char}

/-- up to the first quote, two texts are told apart -/
theorem prefix_quote_iff (ha : q ∉ a) (hx : q ∉ x) : a ++ q :: t <+: x ++ q :: y ↔ a = x ∧ t <+: y := by
  induction a generalizing x with
  | nil =>
    cases x with
    | nil => simp
    | cons d x =>
      have : q ≠ d := fun h => hx (h ▸ List.mem_cons_self)
      simp [this]
  | cons c a ih =>
    cases x with
    | nil =>
      have : c ≠ q := fun h => ha (h ▸ List.mem_cons_self)
      simp [this]
    | cons d x =>
      have hrest := ih (fun h => ha (List.mem_cons_of_mem _ h)) fun h => hx (List.mem_cons_of_mem _ h)
      rw [List.cons_append, List.cons_append, List.cons_prefix_cons, hrest, List.cons.injEq, and_assoc]

/-- a text with a quote in it stands at the first quote of another one, or behind it -/
theorem infix_quote_iff (ha : q ∉ a) (hx : q ∉ x) :
    a ++ q :: t <:+: x ++ q :: y ↔ (a <:+ x ∧ t <+: y) ∨ a ++ q :: t <:+: y := by
  induction x with
  | nil =>
    rw [List.nil_append, List.infix_cons_iff, ← List.nil_append (q :: y), prefix_quote_iff ha hx, List.suffix_nil]
  | cons c x ih =>
    rw [List.cons_append, List.infix_cons_iff, ← List.cons_append, prefix_quote_iff ha hx,
      ih fun h => hx (List.mem_cons_of_mem _ h), List.suffix_cons_iff]
    tauto

end Quote

theorem quote_notMem_callWord : '\'' ∉ callWord := by decide

/-- **Where a call can stand in a text that quotes a string:** the string is its name, the call starts at the end of the
string, or it stands behind. -/
theorem infix_quoted {n s x y : List Char} (hn : '\'' ∉ n) (hs : '\'' ∉ s) (hx : '\'' ∉ x) :
    callText n <:+: x ++ '\'' :: (s ++ '\'' :: y) ↔
      (callWord <:+ x ∧ n = s ∧ [')'] <+: y) ∨ (callWord <:+ s ∧ n ++ ['\'', ')'] <+: y) ∨ callText n <:+: y := by
  unfold callText
  rw [infix_quote_iff quote_notMem_callWord hx, prefix_quote_iff hn hs, infix_quote_iff quote_notMem_callWord hs]

/-- no call starts in a text without its first character -/
theorem infix_append_of_notMem {n xs ys : List Char} (h : 'g' ∉ xs) :
    callText n <:+: xs ++ ys ↔ callText n <:+: ys := by
  induction xs with
  | nil => rfl
  | cons c xs ih =>
    have hhead : ¬ callText n <+: c :: (xs ++ ys) := fun hp => h ((List.cons_prefix_cons.1 hp).1 ▸ List.mem_cons_self)
    rw [List.cons_append, List.infix_cons_iff, ih fun hc => h (List.mem_cons_of_mem _ hc)]
    exact or_iff_right hhead

/-! ## Stretches -/

/-- stretches that cut a text -/
inductive Cut : List Char → List Stretch → Prop where
  | nil : Cut [] []
  | code (taken : List Char) {rest : List Char} {parts : List Stretch} (h : Cut rest parts) :
    Cut (taken ++ rest) (.code taken :: parts)
  | call (taken specifier : List Char) {rest : List Char} {parts : List Stretch} (h : Cut rest parts) :
    Cut (taken ++ rest) (.call specifier :: parts)

theorem cut_stretches (before cs : List Char) : Cut cs (stretches before cs) := by
  fun_induction stretches before cs with
  | case1 before => exact .nil
  | case2 before c rest _ ih => exact .code [c] ih
  | case3 before c rest specifier n _ taken piece ih =>
    have hcut : c :: rest = taken ++ rest.drop (n - 1) := by simp [taken]
    rw [hcut]
    by_cases hback : googBack.isPrefixOf before = true
    · rw [show piece = .code taken from if_pos hback]
      exact .code taken ih
    · rw [show piece = .call specifier from if_neg hback]
      exact .call taken specifier ih

/-- the end of an opening is never its start -/
theorem eq_nil_of_border {w : List Char} (hsuffix : w <:+ opening) (hproper : w ≠ opening) (hstart : w <+: opening) :
    w = [] := by
  have hborders : ∀ w ∈ opening.tails, w ≠ opening → w <+: opening → w = [] := by decide +kernel
  exact hborders w ((List.mem_tails _ _).2 hsuffix) hproper hstart

theorem render_call (name : String → String) (specifier : List Char) :
    (Stretch.call specifier).render name = callText (name (String.ofList specifier)).toList := by
  have hopening : "goog.require('".toList = callWord ++ ['\''] := by decide +kernel
  have hclosing : "')".toList = ['\'', ')'] := by decide +kernel
  rw [Stretch.render, String.toList_append, String.toList_append, hopening, hclosing, callText]
  simp only [List.append_assoc, List.cons_append, List.nil_append]

section Render

variable {name : String → String}

/-- the end of an opening that a rendered text starts with is in the text as it was -/
theorem prefix_of_prefix_render {cs : List Char} {parts : List Stretch} (hcut : Cut cs parts) {w : List Char}
    (hsuffix : w <:+ opening) (hproper : w ≠ opening) (h : w <+: parts.flatMap (Stretch.render name)) : w <+: cs := by
  induction hcut generalizing w with
  | nil => exact h
  | code taken _ ih =>
    rw [List.flatMap_cons, Stretch.render] at h
    rcases Nat.le_total w.length taken.length with hle | hle
    · exact (List.prefix_of_prefix_length_le h (List.prefix_append _ _) hle).trans (List.prefix_append _ _)
    · -- the code is the start of the end, and what follows it is an end again
      obtain ⟨v, rfl⟩ := List.prefix_of_prefix_length_le (List.prefix_append _ _) h hle
      rw [List.prefix_append_right_inj] at h ⊢
      refine ih ((List.suffix_append taken v).trans hsuffix) (fun hv => hproper ?_) h
      rw [hv] at hsuffix ⊢
      exact hsuffix.eq_of_length_le (by simp)
  | call taken specifier _ _ =>
    rw [List.flatMap_cons, render_call] at h
    have hstart : w <+: opening :=
      List.prefix_of_prefix_length_le h ((opening_prefix_callText _).trans (List.prefix_append _ _)) hsuffix.length_le
    rw [eq_nil_of_border hsuffix hproper hstart]
    exact List.nil_prefix

/-- no call starts in code in front of rendered stretches -/
theorem infix_code_append {taken rest : List Char} {parts : List Stretch} (hcut : Cut rest parts)
    (hclean : ¬ opening <:+: taken ++ rest) {n : List Char} :
    callText n <:+: taken ++ parts.flatMap (Stretch.render name) ↔
    callText n <:+: parts.flatMap (Stretch.render name) := by
  refine ⟨fun h => ?_, fun h => h.trans (List.suffix_append _ _).isInfix⟩
  rcases List.infix_append_iff.1 h with hin | hin | ⟨front, back, hsplit, hfront, hback⟩
  · exact absurd (((opening_prefix_callText n).isInfix.trans hin).trans (List.prefix_append _ _).isInfix) hclean
  · exact hin
  · rcases Nat.le_total opening.length front.length with hle | hle
    · -- the opening is in the code already
      have hstart : opening <+: front :=
        List.prefix_of_prefix_length_le (opening_prefix_callText n) ⟨back, hsplit.symm⟩ hle
      exact absurd ((hstart.isInfix.trans hfront.isInfix).trans (List.prefix_append _ _).isInfix) hclean
    · obtain ⟨w, hw⟩ := List.prefix_of_prefix_length_le ⟨back, hsplit.symm⟩ (opening_prefix_callText n) hle
      rcases List.eq_nil_or_concat' front with rfl | ⟨_, _, hne⟩
      · rw [hsplit]
        exact hback.isInfix
      · -- the opening starts in the code and ends behind it
        have hproper : w ≠ opening := by
          intro hwhole
          have hlength := congrArg List.length hw
          rw [hwhole, List.length_append, hne, List.length_append, List.length_singleton] at hlength
          omega
        have hrest : w <+: parts.flatMap (Stretch.render name) := by
          obtain ⟨r, hr⟩ := opening_prefix_callText n
          rw [← hw, hsplit, List.append_assoc, List.append_cancel_left_eq] at hr
          exact (List.prefix_append w r).trans (hr ▸ hback)
        have hthere := prefix_of_prefix_render hcut ⟨front, hw⟩ hproper hrest
        obtain ⟨above, rfl⟩ := hfront
        refine absurd ?_ hclean
        rw [← hw, List.append_assoc]
        exact ((List.prefix_append_right_inj front).2 hthere).isInfix.trans (List.suffix_append _ _).isInfix

/-- a rendered call is a call of its name, and the others are behind it -/
theorem infix_callText_append {s rest n : List Char} (hn : '\'' ∉ n) (hs : '\'' ∉ s) (hword : ¬ callWord <:+ s) :
    callText n <:+: callText s ++ rest ↔ n = s ∨ callText n <:+: rest := by
  have hrest : callText n <:+: ')' :: rest ↔ callText n <:+: rest := @infix_append_of_notMem n [')'] rest (by decide)
  have hquoted : callText s ++ rest = callWord ++ '\'' :: (s ++ '\'' :: (')' :: rest)) := by simp [callText]
  rw [hquoted, infix_quoted hn hs quote_notMem_callWord, hrest]
  simp [hword]

/-- **The calls in a rendered text are its stretches that are calls,** if the text had none. -/
theorem infix_render {cs : List Char} {parts : List Stretch} (hcut : Cut cs parts) (hclean : ¬ opening <:+: cs)
    (hnames : ∀ s, Quotable (name s)) {n : List Char} (hn : '\'' ∉ n) :
    callText n <:+: parts.flatMap (Stretch.render name) ↔
    String.ofList n ∈ parts.filterMap (Stretch.required? name) := by
  induction hcut with
  | nil =>
    rw [List.flatMap_nil, List.infix_nil]
    exact iff_of_false (callText_ne_nil n) (by simp)
  | code taken hcut ih =>
    have hrest := ih fun h => hclean (h.trans (List.suffix_append _ _).isInfix)
    rw [List.flatMap_cons, Stretch.render, infix_code_append hcut hclean, hrest]
    rfl
  | call taken specifier _ ih =>
    have hrest := ih fun h => hclean (h.trans (List.suffix_append _ _).isInfix)
    have hname := hnames (String.ofList specifier)
    rw [List.flatMap_cons, render_call, infix_callText_append hn hname.plain hname.apart, hrest, List.filterMap_cons,
      Stretch.required?, List.mem_cons, ← String.toList_inj, String.toList_ofList]

end Render

/-! ## Headers -/

theorem mem_trim_of_not_isBlank {cs : List Char} {c : Char} (hc : c ∈ cs) (hblank : Text.isBlank c = false) :
    c ∈ Text.trim cs := by
  have hdrop : ∀ {cs : List Char}, c ∈ cs → c ∈ cs.dropWhile Text.isBlank := by
    intro cs hc
    rw [← List.takeWhile_append_dropWhile (p := Text.isBlank) (l := cs)] at hc
    refine (List.mem_append.1 hc).resolve_left fun htake => ?_
    have := List.mem_takeWhile_imp htake
    simp [hblank] at this
  rw [Text.trim, Text.trimEnd, Text.trimEndOf, List.mem_reverse]
  exact hdrop (List.mem_reverse.2 (hdrop hc))

/-- a line that only says `use strict` has no `g` -/
theorem g_notMem_of_isUseStrict {line : List Char} (h : isUseStrict line = true) : 'g' ∉ line := by
  intro hg
  have hmem := mem_trim_of_not_isBlank hg (by decide)
  rw [isUseStrict] at h
  simp only [Bool.or_eq_true, beq_iff_eq, ← String.toList_inj, String.toList_ofList] at h
  rcases h with h | h
  · exact absurd (h ▸ hmem) (by decide)
  · exact absurd (h ▸ hmem) (by decide)

@[simp] theorem header_none (moduleName : String) :
    header moduleName none = "goog.module('" ++ moduleName ++ "');" := String.append_empty

@[simp] theorem header_some (moduleName id : String) :
    header moduleName (some id) = "goog.module('" ++ moduleName ++ "');" ++
      (" var module = module || \x7bid: '" ++ id ++ "'\x7d;") := rfl

/-- a header adds no call -/
theorem infix_header {moduleName : String} {moduleId : Option String} (hname : Quotable moduleName)
    (hid : ∀ id ∈ moduleId, Quotable id) {n : List Char} (hn : '\'' ∉ n) (rest : List Char) :
    callText n <:+: (header moduleName moduleId).toList ++ rest ↔ callText n <:+: rest := by
  have hmodule : ¬ callWord <:+ "goog.module(".toList := by decide
  cases moduleId with
  | none =>
    have hshape : (header moduleName none).toList ++ rest =
        "goog.module(".toList ++ '\'' :: (moduleName.toList ++ '\'' :: (");".toList ++ rest)) := by
      simp
    rw [hshape, infix_quoted hn hname.plain (by decide), infix_append_of_notMem (by decide)]
    simp only [hname.apart, hmodule, false_and, false_or]
  | some id =>
    have hid := hid id rfl
    have hvariable : ¬ callWord <:+ "); var module = module || \x7bid: ".toList := by decide
    have hshape :
        (header moduleName (some id)).toList ++ rest = "goog.module(".toList ++ '\'' :: (moduleName.toList ++ '\'' ::
        ("); var module = module || \x7bid: ".toList ++ '\'' :: (id.toList ++ '\'' :: ("\x7d;".toList ++ rest)))) := by
      simp
    rw [hshape, infix_quoted hn hname.plain (by decide), infix_quoted hn hid.plain (by decide),
      infix_append_of_notMem (by decide)]
    simp only [hname.apart, hid.apart, hmodule, hvariable, false_and, false_or]

/-- the line that a header takes the place of has no call -/
theorem infix_withHeader {head : String} {n : List Char}
    (hhead : ∀ rest, callText n <:+: head.toList ++ rest ↔ callText n <:+: rest) (body : List Char) :
    callText n <:+: (withHeader head body).toList ↔ callText n <:+: body := by
  unfold withHeader
  split_ifs with hstrict
  · rw [String.toList_append, String.toList_ofList, hhead]
    conv_rhs => rw [← List.takeWhile_append_dropWhile (p := (· ≠ '\n')) (l := body)]
    rw [infix_append_of_notMem (g_notMem_of_isUseStrict hstrict)]
  · have hshape : (head ++ " " ++ String.ofList body).toList = head.toList ++ ([' '] ++ body) := by simp
    rw [hshape, hhead, infix_append_of_notMem (by decide)]

/-! ## Modules -/

/-- a module starts with its name -/
theorem moduleHead_prefix (policy : Rules) (es5 : Bool) (path : Path) (text : String) :
    ("goog.module('" ++ (wrap policy es5 path text).moduleName ++ "')").toList <+:
      (wrap policy es5 path text).text.toList := by
  have hheader : ∀ (moduleName : String) (moduleId : Option String),
      ("goog.module('" ++ moduleName ++ "')").toList <+: (header moduleName moduleId).toList := by
    intro moduleName moduleId
    obtain ⟨tail, htail⟩ :
        ∃ tail, header moduleName moduleId = "goog.module('" ++ moduleName ++ "');" ++ tail := ⟨_, rfl⟩
    rw [htail]
    exact ⟨[';'] ++ tail.toList, by simp⟩
  have hbody : ∀ (head : String) (body : List Char), head.toList <+: (withHeader head body).toList := by
    intro head body
    unfold withHeader
    split_ifs
    · rw [String.toList_append]
      exact List.prefix_append _ _
    · rw [String.toList_append, String.toList_append, List.append_assoc]
      exact List.prefix_append _ _
  exact (hheader _ _).trans (hbody _ _)

/-- **The calls in a module are the modules it references,** if the text had none and what is put in quotes can stand
there. -/
theorem calls_text_iff {policy : Rules} {es5 : Bool} {path : Path} (hquotes : QuotableAt policy es5 path)
    {text : String} (hclean : ¬ opening <:+: text.toList) {name : String} :
    Calls (wrap policy es5 path text).text name ↔ name ∈ (wrap policy es5 path text).referenced := by
  have hgiven : ∀ id ∈ if es5 then some (policy.moduleId path) else none, Quotable id := by
    intro id hmem
    split_ifs at hmem with h5
    · exact Option.some.inj hmem ▸ hquotes.id h5
    · cases hmem
  have hcalls : '\'' ∉ name.toList →
      (callText name.toList <:+: (wrap policy es5 path text).text.toList ↔
        name ∈ (wrap policy es5 path text).referenced) := by
    intro hn
    have hheader := fun rest => infix_header hquotes.name hgiven hn rest
    rw [wrap]
    dsimp only
    rw [infix_withHeader hheader, infix_render (cut_stretches [] _) hclean hquotes.required hn, List.mem_eraseDups,
      String.ofList_toList]
  refine ⟨fun h => (hcalls h.1).1 h.2, fun h => ?_⟩
  have hquote : '\'' ∉ name.toList := by
    rw [wrap, List.mem_eraseDups] at h
    obtain ⟨part, -, hpart⟩ := List.mem_filterMap.1 h
    cases part with
    | code cs => cases hpart
    | call specifier => exact Option.some.inj hpart ▸ (hquotes.required _).plain
  exact ⟨hquote, (hcalls hquote).2 h⟩

end ClosurePipeline.GoogModule
