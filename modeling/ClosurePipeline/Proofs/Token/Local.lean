/-
Lexemes depend on nothing far behind them. Where the text behind a lexeme is replaced by one that goes on alike, the
lexeme stays what it is.

- `Alike`: a text that goes on as another one does, or with a slash where the other one does not end a line;
- `commentReach_alike`, `stringReach_alike`, `templateReach_alike`, `regexReach_alike`: comments, strings, templates and
  regular expressions end where they ended;
- `Lexed.alike`, `lexeme_alike`: so does every lexeme, whichever rule gives it. The exception is a slash by itself,
  which a second one would turn into a comment.
-/
import Mathlib.Tactic
import Mathlib.Data.List.TakeWhile
import ClosurePipeline.Proofs.Token.Lexemes

namespace ClosurePipeline.Lexer

/-! ## Texts that go on alike -/

/-- characters of a class end where something else follows -/
theorem takeWhile_append_of_head {p : Char → Bool} {xs tail : List Char} (hend : ∀ d ∈ tail.head?, p d = false) :
    (xs.take (xs.takeWhile p).length ++ tail).takeWhile p = xs.takeWhile p := by
  have hnone : tail.takeWhile p = [] := by
    cases tail with
    | nil => rfl
    | cons d tail => rw [List.takeWhile_cons, hend d rfl]; rfl
  rw [take_length_takeWhile, List.takeWhile_append_of_pos fun d hd => List.mem_takeWhile_imp hd, hnone, List.append_nil]

/-- `tail` ends what `rest` ends: it goes on as `rest` does, or with a slash where `rest` does not end a line -/
structure Alike (rest tail : List Char) : Prop where
  stop : (∀ d ∈ rest.head?, d = '\n') → tail.head? = rest.head?
  part : ∀ d ∈ tail.head?, d = '/' ∨ rest.head? = some d

namespace Alike

variable {rest tail xs : List Char}

theorem of_head?_eq (h : tail.head? = rest.head?) : Alike rest tail := ⟨fun _ => h, fun _ hd => Or.inr (h ▸ hd)⟩

theorem eq_nil (h : Alike [] tail) : tail = [] := List.head?_eq_none_iff.1 (h.stop (by simp))

theorem exists_break (h : Alike ('\n' :: rest) tail) :
    ∃ more, tail = '\n' :: more := List.head?_eq_some_iff.1 (h.stop (by simp))

theorem head?_eq {n : Nat} (h : Alike (xs.drop n) tail) (hn : n = 0 → xs = []) :
    (xs.take n ++ tail).head? = xs.head? := by
  cases xs with
  | nil =>
    rw [List.drop_nil] at h
    rw [h.eq_nil, List.take_nil, List.append_nil]
  | cons c xs =>
    cases n with
    | zero => cases hn rfl
    | succ n => rfl

/-- characters of a class without the slash end where they ended -/
theorem takeWhile {p : Char → Bool} (hp : p '/' = false) (h : Alike (xs.drop (xs.takeWhile p).length) tail) :
    (xs.take (xs.takeWhile p).length ++ tail).takeWhile p = xs.takeWhile p := by
  rw [drop_length_takeWhile] at h
  refine takeWhile_append_of_head fun d hd => ?_
  rcases h.part d hd with rfl | hd
  · exact hp
  · exact head?_dropWhile d hd

/-- a comment to the line's end ends where it ended -/
theorem takeWhile_line (h : Alike (xs.drop (xs.takeWhile (· ≠ '\n')).length) tail) :
    (xs.take (xs.takeWhile (· ≠ '\n')).length ++ tail).takeWhile (· ≠ '\n') = xs.takeWhile (· ≠ '\n') := by
  rw [drop_length_takeWhile] at h
  have hbreak : ∀ d ∈ (xs.dropWhile (· ≠ '\n')).head?, d = '\n' := fun d hd => by simpa using head?_dropWhile d hd
  refine takeWhile_append_of_head fun d hd => ?_
  rw [h.stop hbreak] at hd
  exact head?_dropWhile d hd

/-- where a reading of a text is the same with any text that goes on alike behind what it takes, it is so for a text
that is cut there -/
theorem cut {α : Type} {f : List Char → α} (r : α → Nat)
    (hf : ∀ xs, Alike (xs.drop (r (f xs))) tail → f (xs.take (r (f xs)) ++ tail) = f xs) {cs : List Char}
    (h : Alike rest tail) (hlen : r (f (cs ++ rest)) = cs.length) : f (cs ++ tail) = f (cs ++ rest) := by
  have hsame := hf (cs ++ rest)
  rw [hlen, List.drop_left, List.take_left] at hsame
  exact hsame h

end Alike

/-! ## Comments and strings -/

section

variable {xs tail : List Char}

theorem commentReach_alike (h : Alike (xs.drop (commentReach xs).chars) tail) :
    commentReach (xs.take (commentReach xs).chars ++ tail) = commentReach xs := by
  rcases commentReach_cases xs with ⟨body, rest, rfl, hbody⟩ | ⟨-, hlen⟩
  · have hsplit : body ++ '*' :: '/' :: rest = (body ++ ['*', '/']) ++ rest := by simp
    have htake : (body ++ '*' :: '/' :: rest).take (body.length + 2) = body ++ ['*', '/'] := by
      rw [hsplit]
      exact List.take_left' (by simp)
    rw [commentReach_append hbody, htake, List.append_assoc]
    exact commentReach_append hbody
  · rw [hlen, List.drop_length] at h
    rw [hlen, List.take_length, h.eq_nil, List.append_nil]

theorem stringReach_alike {quote : Char} (hquote : quote ≠ '\\' ∧ quote ≠ '\n')
    (h : Alike (xs.drop (stringReach quote xs).1) tail) :
    stringReach quote (xs.take (stringReach quote xs).1 ++ tail) = stringReach quote xs := by
  obtain ⟨v, stop, rfl, hv, hstop⟩ := exists_inside quote xs
  -- behind the inside of the string there is one character more, or none
  have hcut : ∀ n, (v ++ stop).take (n + v.length) = v ++ stop.take n ∧
      (v ++ stop).drop (n + v.length) = stop.drop n := by
    intro n
    rw [Nat.add_comm, List.take_length_add_append, List.drop_length_add_append]
    exact ⟨rfl, rfl⟩
  rw [stringReach_inside hv, (hcut _).1, List.append_assoc, stringReach_inside hv]
  rw [stringReach_inside hv, (hcut _).2] at h
  cases hstop with
  | closed rest =>
    have hreach : ∀ ds, stringReach quote (quote :: ds) = (1, true) := by
      intro ds
      rw [stringReach] <;> simp [hquote.1, hquote.2]
    simp [hreach]
  | lineEnd rest =>
    have hreach : ∀ ds, stringReach quote ('\n' :: ds) = (0, false) := by
      intro ds
      rw [stringReach] <;> simp
    rw [hreach] at h
    obtain ⟨more, rfl⟩ := Alike.exists_break h
    simp [hreach]
  | textEnd =>
    rw [Alike.eq_nil h]
    rfl
  | escapedEnd =>
    rw [Alike.eq_nil h]
    rfl

/-! ## Templates -/

theorem templateReach_eq_zero {depth : Nat} (h : (templateReach depth xs).chars = 0) : xs = [] := by
  revert h
  fun_induction templateReach depth xs <;> simp_all [Reach.add]

theorem templateReach_text {c : Char} (hback : c ≠ '\\') (hhole : c = '$' → xs.head? ≠ some '{') :
    templateReach 0 (c :: xs) = if c = templateQuote then ⟨1, 0⟩
      else (templateReach 0 xs).add 1 (if c = '\n' then 1 else 0) := by
  rw [templateReach]
  · exact fun h => absurd h hback
  · exact fun _ _ h => absurd h hback
  · rintro ds h rfl
    exact hhole h rfl

theorem templateReach_hole {depth : Nat} {c : Char} (hback : c ≠ '\\') :
    templateReach (depth + 1) (c :: xs) =
      (templateReach (if c = '{' then depth + 2 else if c = '}' then depth else depth + 1) xs).add 1 (if c = '\n' then 1
        else 0) := by
  rw [templateReach]
  · exact fun h => absurd h hback
  · exact fun _ _ h => absurd h hback

/-- a character that no escape rule takes is no backslash -/
theorem ne_backslash {c : Char} {cs : List Char} (hlast : c = '\\' → cs = [] → False)
    (hnext : ∀ d ds, c = '\\' → cs = d :: ds → False) :
    c ≠ '\\' := by
  intro hc
  cases cs with
  | nil => exact hlast hc rfl
  | cons d ds => exact hnext d ds hc rfl

/-- a template that goes to its quote does so whatever follows, any other one goes to the end -/
theorem templateReach_alike {depth : Nat} (h : Alike (xs.drop (templateReach depth xs).chars) tail) :
    templateReach depth (xs.take (templateReach depth xs).chars ++ tail) = templateReach depth xs := by
  fun_induction templateReach depth xs with
  | case1 depth =>
    have hnil : tail = [] := Alike.eq_nil h
    rw [hnil]
    rfl
  | case2 depth =>
    have hnil : tail = [] := Alike.eq_nil h
    rw [hnil]
    simp [templateReach]
  | case3 depth c xs ih =>
    have hrest := ih (by simpa [Reach.add] using h)
    simp [Reach.add, templateReach, hrest]
  | case4 xs ih =>
    have hrest := ih (by simpa [Reach.add] using h)
    simp [Reach.add, templateReach, hrest]
  | case5 cs =>
    exact templateReach_text (by decide) (fun hc => absurd hc (by decide))
  | case6 c xs hlast hnext hopen hquote ih =>
    rw [Reach.add, List.drop_succ_cons] at h
    have hhole : c = '$' → (xs.take (templateReach 0 xs).chars ++ tail).head? ≠ some '{' := by
      intro hc hhead
      rw [h.head?_eq templateReach_eq_zero] at hhead
      obtain ⟨ds, hds⟩ := List.head?_eq_some_iff.1 hhead
      exact hopen ds hc hds
    rw [Reach.add, List.take_succ_cons, List.cons_append, templateReach_text (ne_backslash hlast hnext) hhole,
      if_neg hquote, ih h, Reach.add]
  | case7 depth c xs hlast hnext depth' ih =>
    rw [Reach.add, List.drop_succ_cons] at h
    rw [Reach.add, List.take_succ_cons, List.cons_append, templateReach_hole (ne_backslash hlast hnext),
      ih h, Reach.add]

/-! ## Regular expressions -/

theorem regexReach_cons {inClass : Bool} {c : Char} (hback : c ≠ '\\') :
    regexReach inClass (c :: xs) =
      if c = '\n' then 0
      else if c = '/' && !inClass then (xs.takeWhile Char.isAlpha).length + 1
      else if c = '[' then regexReach true xs + 1
      else if c = ']' then regexReach false xs + 1
      else regexReach inClass xs + 1 := by
  rw [regexReach]
  · exact fun h => absurd h hback
  · exact fun _ _ h => absurd h hback

theorem regexReach_alike {inClass : Bool} (h : Alike (xs.drop (regexReach inClass xs)) tail) :
    regexReach inClass (xs.take (regexReach inClass xs) ++ tail) = regexReach inClass xs := by
  fun_induction regexReach inClass xs with
  | case1 inClass =>
    have hnil : tail = [] := Alike.eq_nil h
    rw [hnil]
    rfl
  | case2 inClass =>
    have hnil : tail = [] := Alike.eq_nil h
    rw [hnil]
    rfl
  | case3 inClass c xs ih =>
    have hrest := ih (by simpa using h)
    simp [regexReach, hrest]
  | case4 inClass xs hlast hnext =>
    obtain ⟨more, rfl⟩ := Alike.exists_break h
    rw [List.take_zero, List.nil_append, regexReach_cons (by decide), if_pos rfl]
  | case5 inClass c xs hlast hnext hbreak hclose =>
    rw [List.drop_succ_cons] at h
    rw [List.take_succ_cons, List.cons_append, regexReach_cons (ne_backslash hlast hnext), if_neg hbreak, if_pos hclose,
      h.takeWhile (by decide)]
  | case6 inClass xs _ hlast hnext hclose ih =>
    rw [List.drop_succ_cons] at h
    rw [List.take_succ_cons, List.cons_append, regexReach_cons (by decide)]
    simp [ih h]
  | case7 inClass xs _ hlast hnext hclose _ ih =>
    rw [List.drop_succ_cons] at h
    rw [List.take_succ_cons, List.cons_append, regexReach_cons (by decide)]
    simp [ih h]
  | case8 inClass c xs hlast hnext hbreak hclose hopen hshut ih =>
    rw [List.drop_succ_cons] at h
    rw [List.take_succ_cons, List.cons_append, regexReach_cons (ne_backslash hlast hnext), if_neg hbreak, if_neg hclose,
      if_neg hopen, if_neg hshut, ih h]

/-! ## Lexemes -/

theorem commentLexeme_alike {c : Char} {cs rest : List Char} (h : Alike rest tail)
    (hlen : (commentLexeme c (cs ++ rest)).extra = cs.length) :
    commentLexeme c (cs ++ tail) = commentLexeme c (cs ++ rest) := by
  simp only [commentLexeme] at hlen
  cases cs with
  | nil => cases hlen
  | cons d ds =>
    rw [List.cons_append, List.drop_succ_cons, List.drop_zero, List.length_cons, Nat.add_right_cancel_iff] at hlen
    have hreach := h.cut Reach.chars (fun _ => commentReach_alike) hlen
    simp only [commentLexeme, lexemeText, List.cons_append, List.drop_succ_cons, List.drop_zero, List.take_succ_cons,
      hreach, hlen, List.take_left]

theorem stringLexeme_alike {quote : Char} {cs rest : List Char} (hquote : quote ≠ '\\' ∧ quote ≠ '\n')
    (h : Alike rest tail) (hlen : (stringLexeme quote (cs ++ rest)).extra = cs.length) :
    stringLexeme quote (cs ++ tail) = stringLexeme quote (cs ++ rest) := by
  simp only [stringLexeme] at hlen
  have hreach := h.cut Prod.fst (fun _ => stringReach_alike hquote) hlen
  have hvalue : ∀ ds :
      List Char, (cs ++ ds).take (if (stringReach quote (cs ++ rest)).2 then cs.length - 1 else cs.length) =
      cs.take (if (stringReach quote (cs ++ rest)).2 then cs.length - 1 else cs.length) := by
    intro ds
    refine List.take_append_of_le_length ?_
    split_ifs <;> omega
  simp only [stringLexeme, hreach, hlen, hvalue]

/-- the character behind a slash stays what it is -/
theorem head?_append_alike {c : Char} {cs rest : List Char} (hslash : c = '/' → cs = [] → tail.head? = rest.head?)
    (hc : c = '/') :
    (cs ++ tail).head? = (cs ++ rest).head? := by
  cases cs with
  | nil => exact hslash hc rfl
  | cons d cs => rfl

/-- a number that ends where the text is cut starts in front of the cut -/
theorem StartsNumber.alike {c : Char} {cs rest : List Char} (h : StartsNumber c (cs ++ rest))
    (hlen : ((cs ++ rest).takeWhile isNumberPart).length = cs.length) : StartsNumber c (cs ++ tail) := by
  refine h.imp_right fun ⟨hc, d, hd, hdigit⟩ => ⟨hc, ?_⟩
  cases cs with
  | cons e cs => exact ⟨d, hd, hdigit⟩
  | nil =>
    -- with a digit behind it the point is a number of two characters at least
    obtain ⟨ds, rfl⟩ := List.head?_eq_some_iff.1 hd
    have hpart : isNumberPart d = true := by simp [isNumberPart, Char.isAlphanum, hdigit]
    rw [List.nil_append, List.takeWhile_cons_of_pos hpart] at hlen
    cases hlen

/-- what goes on alike makes no number of a point -/
theorem StartsNumber.of_alike {c : Char} {rest : List Char} (h : Alike rest tail) (hstarts : StartsNumber c tail) :
    StartsNumber c rest := by
  refine hstarts.imp_right fun ⟨hc, d, hd, hdigit⟩ => ⟨hc, d, ?_, hdigit⟩
  rcases h.part d hd with rfl | hrest
  · cases hdigit
  · exact hrest

theorem Lexed.alike {prev : Option TokenKind} {c : Char} {cs rest : List Char} {l : Lexeme}
    (hlexed : Lexed prev c (cs ++ rest) l) (hlen : l.extra = cs.length) (h : Alike rest tail)
    (hslash : c = '/' → cs = [] → tail.head? = rest.head?) : Lexed prev c (cs ++ tail) l := by
  have hhead := head?_append_alike hslash
  cases hlexed with
  | blank hc => exact .blank hc
  | lineComment hc hline =>
    rw [← h.cut List.length (fun _ => Alike.takeWhile_line) hlen]
    exact .lineComment hc (by rw [hhead hc, hline])
  | blockComment hc hblock =>
    rw [← commentLexeme_alike h hlen]
    exact .blockComment hc (by rw [hhead hc, hblock])
  | regex hc hline hblock hallowed =>
    rw [← h.cut id (fun _ => regexReach_alike) hlen]
    exact .regex hc (by rwa [hhead hc]) (by rwa [hhead hc]) hallowed
  | string hc =>
    have hquote : c ≠ '\\' ∧ c ≠ '\n' := by rcases hc with rfl | rfl <;> decide
    rw [← stringLexeme_alike hquote h hlen]
    exact .string hc
  | template hc =>
    rw [← h.cut Reach.chars (fun _ => templateReach_alike) hlen]
    exact .template hc
  | number hstarts =>
    have hpart : (cs ++ tail).takeWhile isNumberPart = (cs ++ rest).takeWhile isNumberPart :=
      h.cut List.length (fun _ => Alike.takeWhile (by decide)) hlen
    rw [← hpart]
    exact .number (hstarts.alike hlen)
  | name hc =>
    have hpart : (cs ++ tail).takeWhile isIdentPart = (cs ++ rest).takeWhile isIdentPart :=
      h.cut List.length (fun _ => Alike.takeWhile (by decide)) hlen
    rw [identLexeme, ← hpart]
    exact .name hc
  | mark hblank hcomment hquote htemplate hnumber hname =>
    obtain rfl : cs = [] := List.length_eq_zero_iff.1 hlen.symm
    exact .mark hblank (fun hc => by rw [hhead hc]; exact hcomment hc) hquote htemplate
      (mt (StartsNumber.of_alike h) hnumber) hname

/-- **A lexeme stays what it is** where the text behind it goes on alike and does not put a second slash
behind a first. -/
theorem lexeme_alike {prev : Option TokenKind} {c : Char} {cs rest : List Char} {n : Nat} {kind : Option TokenKind}
    (hlex : lexeme prev c (cs ++ rest) = ⟨cs.length, n, kind⟩) (h : Alike rest tail)
    (hslash : c = '/' → cs = [] → tail.head? = rest.head?) :
    lexeme prev c (cs ++ tail) = ⟨cs.length, n, kind⟩ := ((lexeme_eq_iff.1 hlex).alike rfl h hslash).eq

end

end ClosurePipeline.Lexer
