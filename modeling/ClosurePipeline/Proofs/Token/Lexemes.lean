/-
How far lexemes go. A lexeme never goes beyond its text, so a text is a row of lexemes and a property of texts can be
proved lexeme by lexeme (`lexemes_induction`).

- `commentReach_cases`: a block comment goes to its first closing, or to the text's end;
- `Inside`, `exists_inside`: the inside of a string, and what stops it;
- `Lexed.extra_le`: no lexeme goes beyond its text.
-/
import Mathlib.Tactic
import Mathlib.Data.List.TakeWhile
import ClosurePipeline.Proofs.Token.Layout

namespace ClosurePipeline.Lexer

/-! ## Letters and digits -/

theorem isAlpha_iff {c : Char} : c.isAlpha = true ↔ (65 ≤ c.toNat ∧ c.toNat ≤ 90) ∨ (97 ≤ c.toNat ∧ c.toNat ≤ 122) := by
  have hread : c.isAlpha =
      (decide (c.val ≥ 'A'.val ∧ c.val ≤ 'Z'.val) || (decide (c.val ≥ 'a'.val) && decide (c.val ≤ 'z'.val))) := rfl
  simp [hread, UInt32.le_iff_toNat_le, ← Char.toNat_val]

theorem isDigit_iff {c : Char} : c.isDigit = true ↔ 48 ≤ c.toNat ∧ c.toNat ≤ 57 := by
  simp [Char.isDigit, UInt32.le_iff_toNat_le, ← Char.toNat_val]

/-! ## Comments -/

/-- a comment goes to its first closing, or to the end -/
theorem commentReach_cases (cs : List Char) :
    (∃ body rest, cs = body ++ '*' :: '/' :: rest ∧ ¬ ['*', '/'] <:+: body) ∨
      ¬ ['*', '/'] <:+: cs ∧ (commentReach cs).chars = cs.length := by
  fun_induction commentReach cs with
  | case1 => exact Or.inr ⟨by simp, rfl⟩
  | case2 cs => exact Or.inl ⟨[], cs, rfl, by simp⟩
  | case3 c cs hopen ih =>
    -- a closing behind `c` does not start at `c`
    have hstart : ∀ ds : List Char, ds <+: cs → ['*', '/'] <:+: c :: ds → ['*', '/'] <:+: ds := by
      intro ds hds hin
      rcases List.infix_cons_iff.1 hin with hpre | hin
      · obtain ⟨t, ht⟩ := hpre
        rw [List.cons_append, List.cons_append, List.nil_append, List.cons.injEq] at ht
        obtain ⟨u, hu⟩ := hds
        exact absurd (by rw [← hu, ← ht.2, List.cons_append]) (hopen _ ht.1.symm)
      · exact hin
    rcases ih with ⟨body, rest, rfl, hbody⟩ | ⟨hcs, hlen⟩
    · exact Or.inl ⟨c :: body, rest, rfl, fun hin => hbody (hstart body (List.prefix_append _ _) hin)⟩
    · exact Or.inr ⟨fun hin => hcs (hstart cs (List.prefix_refl cs) hin), by simp [Reach.add, hlen]⟩

theorem chars_commentReach_le (cs : List Char) : (commentReach cs).chars ≤ cs.length := by
  rcases commentReach_cases cs with ⟨body, rest, rfl, hbody⟩ | ⟨-, hlen⟩
  · rw [commentReach_append hbody]
    simp
  · exact hlen.le

/-! ## Strings -/

/-- the inside of a string: a backslash takes the next character with it, and neither the quote nor a line break stands
by itself -/
inductive Inside (quote : Char) : List Char → Prop where
  | nil : Inside quote []
  | escaped (c : Char) {cs : List Char} (h : Inside quote cs) : Inside quote ('\\' :: c :: cs)
  | plain {c : Char} {cs : List Char} (hquote : c ≠ quote) (hback : c ≠ '\\') (hline : c ≠ '\n') (h : Inside quote cs) :
    Inside quote (c :: cs)

theorem stringReach_inside {quote : Char} {v : List Char} (h : Inside quote v) (tail : List Char) :
    stringReach quote (v ++ tail) = ((stringReach quote tail).1 + v.length, (stringReach quote tail).2) := by
  induction h with
  | nil => simp
  | escaped c _ ih => simp [stringReach, ih, Nat.add_assoc]
  | plain hquote hback hline _ ih =>
    rw [List.cons_append, stringReach] <;> simp [hquote, hback, hline, ih, Nat.add_assoc]

/-- what stops a string behind its inside: its quote, a line break, the end, or a backslash at the end -/
inductive StringStop (quote : Char) : List Char → Prop where
  | closed (rest : List Char) : StringStop quote (quote :: rest)
  | lineEnd (rest : List Char) : StringStop quote ('\n' :: rest)
  | textEnd : StringStop quote []
  | escapedEnd : StringStop quote ['\\']

theorem exists_inside (quote : Char) (cs : List Char) :
    ∃ v tail, cs = v ++ tail ∧ Inside quote v ∧ StringStop quote tail := by
  fun_induction stringReach quote cs with
  | case1 => exact ⟨[], [], rfl, .nil, .textEnd⟩
  | case2 => exact ⟨[], ['\\'], rfl, .nil, .escapedEnd⟩
  | case3 c cs n closed h ih =>
    obtain ⟨v, tail, rfl, hv, htail⟩ := ih
    exact ⟨'\\' :: c :: v, tail, rfl, .escaped c hv, htail⟩
  | case4 cs => exact ⟨[], _, rfl, .nil, .lineEnd cs⟩
  | case5 cs => exact ⟨[], _, rfl, .nil, .closed cs⟩
  | case6 c cs h1 h2 hline hquote n closed h ih =>
    obtain ⟨v, tail, rfl, hv, htail⟩ := ih
    refine ⟨c :: v, tail, rfl, .plain hquote ?_ hline hv, htail⟩
    rintro rfl
    cases hcs : v ++ tail with
    | nil => exact h1 rfl hcs
    | cons d ds => exact h2 d ds rfl hcs

theorem stringReach_le (quote : Char) (cs : List Char) : (stringReach quote cs).1 ≤ cs.length := by
  fun_induction stringReach quote cs <;> simp_all

/-! ## Templates and regular expressions -/

theorem chars_templateReach_le (depth : Nat) (cs : List Char) : (templateReach depth cs).chars ≤ cs.length := by
  fun_induction templateReach depth cs <;> simp_all [Reach.add]

theorem regexReach_le (inClass : Bool) (cs : List Char) : regexReach inClass cs ≤ cs.length := by
  have hflags : ∀ ds : List Char, (ds.takeWhile Char.isAlpha).length ≤ ds.length :=
    fun ds => (List.takeWhile_sublist _).length_le
  fun_induction regexReach inClass cs <;> simp_all

/-! ## Characters of a class -/

theorem take_length_takeWhile (p : Char → Bool) (cs : List Char) : cs.take (cs.takeWhile p).length = cs.takeWhile p :=
  (List.prefix_iff_eq_take.1 (List.takeWhile_prefix p)).symm

theorem drop_length_takeWhile (p : Char → Bool) (cs : List Char) :
    cs.drop (cs.takeWhile p).length = cs.dropWhile p := by
  have hdrop : (cs.takeWhile p ++ cs.dropWhile p).drop (cs.takeWhile p).length = cs.dropWhile p := List.drop_left
  rwa [List.takeWhile_append_dropWhile] at hdrop

/-- what is left behind characters of a class does not go on with one -/
theorem head?_dropWhile {p : Char → Bool} {cs : List Char} : ∀ d ∈ (cs.dropWhile p).head?, p d = false := by
  intro d hd
  have hnot := List.head?_dropWhile_not p cs
  rw [hd] at hnot
  exact hnot

/-- a text is its end of characters of a class with the rest in front -/
theorem reverse_dropWhile_append (p : Char → Bool) (cs : List Char) :
    (cs.reverse.dropWhile p).reverse ++ (cs.reverse.takeWhile p).reverse = cs := by
  rw [← List.reverse_append, List.takeWhile_append_dropWhile, List.reverse_reverse]

/-! ## Lexeme by lexeme -/

theorem Lexed.extra_le {prev : Option TokenKind} {c : Char} {cs : List Char} {l : Lexeme} (h : Lexed prev c cs l) :
    l.extra ≤ cs.length := by
  cases h with
  | blank => exact Nat.zero_le _
  | lineComment => exact (List.takeWhile_sublist _).length_le
  | blockComment hc h =>
    obtain ⟨ds, rfl⟩ := List.head?_eq_some_iff.1 h
    exact Nat.succ_le_succ (chars_commentReach_le ds)
  | regex => exact regexReach_le false cs
  | string => exact stringReach_le c cs
  | template => exact chars_templateReach_le 0 cs
  | number => exact (List.takeWhile_sublist _).length_le
  | name => exact (List.takeWhile_sublist _).length_le
  | mark => exact Nat.zero_le _

/-- **A text is a row of lexemes,** each behind the token in front of it. -/
theorem lexemes_induction {motive : Option TokenKind → List Char → Prop} (nil : ∀ prev, motive prev [])
    (cons : ∀ prev c cs rest n kind, lexeme prev c (cs ++ rest) = ⟨cs.length, n, kind⟩ → motive (kind.or prev) rest →
      motive prev (c :: (cs ++ rest))) (prev : Option TokenKind) (text : List Char) : motive prev text := by
  induction hlen : text.length using Nat.strongRecOn generalizing prev text with
  | ind k ih =>
    subst hlen
    cases text with
    | nil => exact nil prev
    | cons c cs =>
      cases hlex : lexeme prev c cs with
      | mk extra n kind =>
        have hextra : extra ≤ cs.length := (lexeme_eq_iff.1 hlex).extra_le
        have hrest :=
          ih (cs.drop extra).length (by simp only [List.length_drop, List.length_cons]; omega) (kind.or prev) _ rfl
        rw [← List.take_append_drop extra cs] at hlex ⊢
        refine cons prev c _ _ n kind ?_ hrest
        rw [hlex, List.length_take, Nat.min_eq_left hextra]

end ClosurePipeline.Lexer
