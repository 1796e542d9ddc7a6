/-
Reading back what was written. A value without unpaired surrogates whose numbers are whole is read back from its compact
form.

Results:
- `string?_quote`: a written string is read back, whatever its characters;
- `value?_compact`: a value at the start of a text is read, and the rest is left;
- `parse?_compact`: a text that is the compact form of a value holds that value.

The reader's fuel is bounded by the length of the text: a value takes a character for each unit it spends.
-/
import Mathlib.Tactic
import ClosurePipeline.Json.Reader

namespace ClosurePipeline.Json

/-! ## Strings -/

theorem hexValue?_hexDigit {n : Nat} (h : n < 16) : hexValue? (hexDigit n) = some n := by
  have : ∀ n < 16, hexValue? (hexDigit n) = some n := by decide
  exact this n h

/-- one written character is one piece, and the piece denotes it -/
theorem pieces_escape (c : Char) (cs : List Char) :
    ∃ p : Piece, pieces (escape c ++ cs) = (pieces cs).map (fun r => (p :: r.1, r.2)) ∧
      ∀ ps, denote (p :: ps) = (denote ps).map (c :: ·) := by
  unfold escape
  split_ifs with h1 h2 h3 h4 h5 h6 h7 h8
  · exact ⟨.char c, by simp [h1, pieces, simpleEscape?], fun ps => by simp [denote]⟩
  · exact ⟨.char c, by simp [h2, pieces, simpleEscape?], fun ps => by simp [denote]⟩
  · exact ⟨.char c, by simp [h3, pieces, simpleEscape?], fun ps => by simp [denote]⟩
  · exact ⟨.char c, by simp [h4, pieces, simpleEscape?], fun ps => by simp [denote]⟩
  · exact ⟨.char c, by simp [h5, pieces, simpleEscape?], fun ps => by simp [denote]⟩
  · have hc : Char.ofNat 8 = c := by rw [← h6, Char.ofNat_toNat]
    exact ⟨.char (Char.ofNat 8), by simp [pieces, simpleEscape?], fun ps => by simp only [denote, hc]⟩
  · have hc : Char.ofNat 12 = c := by rw [← h7, Char.ofNat_toNat]
    exact ⟨.char (Char.ofNat 12), by simp [pieces, simpleEscape?], fun ps => by simp only [denote, hc]⟩
  · -- a control character is written as its code unit, which is no surrogate
    have e1 := hexValue?_hexDigit (n := c.toNat / 16) (by omega)
    have e2 := hexValue?_hexDigit (n := c.toNat % 16) (by omega)
    have e0 : hexValue? '0' = some 0 := by decide
    have hn : 16 * (c.toNat / 16) + c.toNat % 16 = c.toNat := by omega
    refine ⟨.unit c.toNat, ?_, fun ps => ?_⟩
    · have hx : hex4? '0' '0' (hexDigit (c.toNat / 16)) (hexDigit (c.toNat % 16)) = some c.toNat := by
        simp only [hex4?, e0, e1, e2, Option.bind_eq_bind, Option.bind_some]
        congr 1
        omega
      simp [pieces, hx]
    · have hh : isHigh c.toNat = false := by simp [isHigh]; omega
      have hl : isLow c.toNat = false := by simp [isLow]; omega
      rw [denote.eq_def]
      simp [hh, hl, Char.ofNat_toNat]
  · refine ⟨.char c, ?_, fun ps => by simp [denote]⟩
    rw [List.singleton_append, pieces.eq_def]
    split <;> simp_all

theorem pieces_flatMap_escape (cs rest : List Char) :
    ∃ ps, pieces (cs.flatMap escape ++ '"' :: rest) = some (ps, rest) ∧ denote ps = some cs := by
  induction cs with
  | nil => exact ⟨[], by simp [pieces], rfl⟩
  | cons c cs ih =>
    obtain ⟨ps, h1, h2⟩ := ih
    obtain ⟨p, hp, hd⟩ := pieces_escape c (cs.flatMap escape ++ '"' :: rest)
    refine ⟨p :: ps, ?_, ?_⟩
    · rw [List.flatMap_cons, List.append_assoc, hp, h1]
      rfl
    · rw [hd, h2]
      rfl

/-- **A written string is read back**, whatever its characters. -/
theorem string?_quote (s : String) (rest : List Char) :
    string? (s.toList.flatMap escape ++ '"' :: rest) = some (some s, rest) := by
  obtain ⟨ps, h1, h2⟩ := pieces_flatMap_escape s.toList rest
  simp [string?, h1, h2]

theorem quote_append (s : String) (rest : List Char) :
    quote s ++ rest = '"' :: (s.toList.flatMap escape ++ '"' :: rest) := by
  simp [quote]

/-! ## Whole numbers -/

/-- digits without a leading zero -/
def IsWhole (ds : List Char) : Prop :=
  ds = ['0'] ∨ ∃ c cs, ds = c :: cs ∧ c ≠ '0' ∧ (c :: cs).all isDigit = true

/-- a text that no number goes on into -/
def Stops (rest : List Char) : Prop := ∀ c ∈ rest.head?, isDigit c = false ∧ c ≠ '.' ∧ c ≠ 'e' ∧ c ≠ 'E'

theorem stops_nil : Stops [] := by simp [Stops]

theorem stops_cons {c : Char} {cs : List Char} (h : isDigit c = false ∧ c ≠ '.' ∧ c ≠ 'e' ∧ c ≠ 'E') :
    Stops (c :: cs) := by
  intro d hd
  simp only [List.head?_cons, Option.mem_def, Option.some.injEq] at hd
  exact hd ▸ h

theorem fraction?_of_stops {rest : List Char} (h : Stops rest) : fraction? rest = some ([], rest) := by
  unfold fraction?
  split
  · exact absurd rfl (h '.' (by simp)).2.1
  · rfl

theorem exponent?_of_stops {rest : List Char} (h : Stops rest) : exponent? rest = some ([], rest) := by
  cases rest with
  | nil => rfl
  | cons c cs =>
    obtain ⟨-, -, h1, h2⟩ := h c (by simp)
    simp [exponent?, h1, h2]

theorem wholePart?_of_isWhole {ds rest : List Char} (hd : IsWhole ds) (h : Stops rest) :
    wholePart? (ds ++ rest) = some (ds, rest) := by
  rcases hd with rfl | ⟨c, cs, rfl, hc, hall⟩
  · cases rest with
    | nil => rfl
    | cons d rest =>
      have := (h d (by simp)).1
      simp [wholePart?, this]
  · have hrest : rest.takeWhile isDigit = [] ∧ rest.dropWhile isDigit = rest := by
      cases rest with
      | nil => simp
      | cons d rest =>
        have := (h d (by simp)).1
        simp [this]
    have hall' : ∀ x ∈ c :: cs, isDigit x = true := by simpa using hall
    have htake : (c :: cs ++ rest).takeWhile isDigit = c :: cs := by
      rw [List.takeWhile_append_of_pos hall', hrest.1, List.append_nil]
    have hdrop : (c :: cs ++ rest).dropWhile isDigit = rest := by
      rw [List.dropWhile_append_of_pos hall', hrest.2]
    unfold wholePart?
    split
    · rename_i e
      simp only [List.cons_append, List.cons.injEq] at e
      exact absurd e.1 hc
    · rw [digits1?, htake, hdrop]

theorem number?_of_isWhole {ds rest : List Char} (hd : IsWhole ds) (h : Stops rest) :
    number? (ds ++ rest) = some (ds, rest) := by
  have hw := wholePart?_of_isWhole hd h
  have hminus : ∀ r, ds ++ rest ≠ '-' :: r := by
    intro r e
    rcases hd with rfl | ⟨c, cs, rfl, -, hall⟩
    · simp at e
    · simp only [List.cons_append, List.cons.injEq] at e
      rw [e.1] at hall
      simp [isDigit] at hall
  unfold number?
  split
  rename_i sign cs e
  split at e
  · rename_i r e'
    exact absurd e' (hminus r)
  · cases e
    simp [hw, fraction?_of_stops h, exponent?_of_stops h]

theorem IsWhole.ne_nil {ds : List Char} (h : IsWhole ds) : ds ≠ [] := by
  rcases h with rfl | ⟨c, cs, rfl, -⟩ <;> simp

theorem IsWhole.isDigit_of_cons {c : Char} {cs : List Char} (h : IsWhole (c :: cs)) : isDigit c = true := by
  rcases h with e | ⟨d, ds, e, -, hall⟩
  · simp only [List.cons.injEq] at e
    rw [e.1]
    decide
  · simp only [List.cons.injEq] at e
    rw [e.1]
    exact (List.all_eq_true.1 hall) d List.mem_cons_self

/-! ## Values -/

mutual

/-- a value that its compact form gives back: whole numbers, and no unpaired surrogates -/
def Written : Json → Prop
  | num d => IsWhole d.toList
  | arr items => WrittenItems items
  | obj members => WrittenMembers members
  | unpaired => False
  | _ => True

/-- elements that their compact forms give back -/
def WrittenItems : List Json → Prop
  | [] => True
  | j :: js => Written j ∧ WrittenItems js

/-- members that their compact forms give back -/
def WrittenMembers : List (String × Json) → Prop
  | [] => True
  | (_, j) :: ms => Written j ∧ WrittenMembers ms

end

/-- a character a value starts with: no blank, and no closing bracket -/
def IsOpening (c : Char) : Prop := isSpace c = false ∧ c ≠ ']' ∧ c ≠ '}'

theorem isOpening_of_isDigit {c : Char} (h : isDigit c = true) : IsOpening c := by
  have hc : 48 ≤ c.toNat := by simp [isDigit] at h; exact h.1
  have hc' : c.toNat ≤ 57 := by simp [isDigit] at h; exact h.2
  refine ⟨?_, ?_, ?_⟩
  · by_contra hs
    simp only [isSpace, Bool.not_eq_false, Bool.or_eq_true, decide_eq_true_eq] at hs
    rcases hs with ((rfl | rfl) | rfl) | rfl <;> simp at hc
  · rintro rfl; simp at hc'
  · rintro rfl; simp at hc'

theorem exists_compactChars_eq_cons {j : Json} (h : Written j) : ∃ c cs, j.compactChars = c :: cs ∧ IsOpening c := by
  cases j with
  | null => exact ⟨'n', _, rfl, by decide, by decide, by decide⟩
  | bool b => cases b <;> exact ⟨_, _, rfl, by decide, by decide, by decide⟩
  | num d =>
    simp only [Written] at h
    obtain ⟨c, cs, hd⟩ := List.exists_cons_of_ne_nil h.ne_nil
    exact ⟨c, cs, by simp [compactChars, hd], isOpening_of_isDigit (hd ▸ h).isDigit_of_cons⟩
  | str s => exact ⟨'"', _, rfl, by decide, by decide, by decide⟩
  | arr items =>
    exact ⟨'[', commaSep (compactItems items) ++ [']'], by simp [compactChars], by decide, by decide, by decide⟩
  | obj members =>
    exact ⟨'{', commaSep (compactMembers members) ++ ['}'], by simp [compactChars], by decide, by decide, by decide⟩
  | unpaired => exact h.elim

theorem skipSpace_cons {c : Char} (h : isSpace c = false) (cs : List Char) : skipSpace (c :: cs) = c :: cs := by
  simp [skipSpace, h]

theorem commaSep_cons (x : List Char) (xs : List (List Char)) :
    commaSep (x :: xs) = x ++ if xs = [] then [] else ',' :: commaSep xs := by
  cases xs <;> simp [commaSep, List.intercalate_cons_cons]

theorem ofMembers_map_some (ms : List (String × Json)) : ofMembers (ms.map fun m => (some m.1, m.2)) = .obj ms := by
  have : (ms.map fun m => (some m.1, m.2)).mapM (fun m : Option String × Json => m.1.map fun k => (k, m.2)) =
      some ms := by
    rw [List.mapM_map]
    exact List.mapM_pure.trans (congrArg some (List.map_id ms))
  simp [ofMembers, this]

theorem compactItems_eq_nil_iff {js : List Json} : compactItems js = [] ↔ js = [] := by
  cases js <;> simp [compactItems]

theorem compactMembers_eq_nil_iff {ms : List (String × Json)} : compactMembers ms = [] ↔ ms = [] := by
  cases ms <;> simp [compactMembers]

theorem value?_of_isDigit {c : Char} (h : isDigit c = true) (fuel : Nat) (cs : List Char) :
    value? (fuel + 1) (c :: cs) = (number? (c :: cs)).map fun r => (.num (String.ofList r.1), r.2) := by
  rw [value?, skipSpace_cons (isOpening_of_isDigit h).1]
  split <;> simp_all [isDigit]

theorem value?_num {ds rest : List Char} (hd : IsWhole ds) (h : Stops rest) (fuel : Nat) :
    value? (fuel + 1) (ds ++ rest) = some (.num (String.ofList ds), rest) := by
  have hn := number?_of_isWhole hd h
  obtain ⟨c, cs, rfl⟩ := List.exists_cons_of_ne_nil hd.ne_nil
  rw [List.cons_append] at hn ⊢
  rw [value?_of_isDigit hd.isDigit_of_cons, hn]
  rfl

/-- the text of elements starts with no blank and no closing bracket -/
theorem exists_commaSep_eq_cons {xs : List (List Char)} (hne : xs ≠ [])
    (h : ∀ x ∈ xs, ∃ c cs, x = c :: cs ∧ IsOpening c) :
    ∃ c cs, commaSep xs = c :: cs ∧ IsOpening c := by
  obtain ⟨x, xs, rfl⟩ := List.exists_cons_of_ne_nil hne
  obtain ⟨c, cs, rfl, hc⟩ := h x List.mem_cons_self
  exact ⟨c, _, by rw [commaSep_cons, List.cons_append], hc⟩

theorem opening_of_mem_compactItems {js : List Json} (h : WrittenItems js) :
    ∀ x ∈ compactItems js, ∃ c cs, x = c :: cs ∧ IsOpening c := by
  induction js with
  | nil => simp [compactItems]
  | cons j js ih =>
    intro x hx
    rw [compactItems, List.mem_cons] at hx
    rcases hx with rfl | hx
    · exact exists_compactChars_eq_cons h.1
    · exact ih h.2 x hx

theorem opening_of_mem_compactMembers (ms : List (String × Json)) :
    ∀ x ∈ compactMembers ms, ∃ c cs, x = c :: cs ∧ IsOpening c := by
  induction ms with
  | nil => simp [compactMembers]
  | cons m ms ih =>
    intro x hx
    rw [compactMembers, List.mem_cons] at hx
    rcases hx with rfl | hx
    · exact ⟨'"', _, by rw [List.append_assoc, quote_append], by decide, by decide, by decide⟩
    · exact ih x hx

theorem value?_arr {inner : List Char} (h : ∃ c cs, inner = c :: cs ∧ IsOpening c) (fuel : Nat) :
    value? (fuel + 1) ('[' :: inner) = (items? fuel inner).map fun r => (.arr r.1, r.2) := by
  obtain ⟨c, cs, rfl, hs, hb, -⟩ := h
  rw [value?, skipSpace_cons (by decide)]
  simp only [skipSpace_cons hs]
  split
  · rename_i e
    exact absurd (List.cons.inj e).1 hb
  · rfl

theorem value?_obj {inner : List Char} (h : ∃ c cs, inner = c :: cs ∧ IsOpening c) (fuel : Nat) :
    value? (fuel + 1) ('{' :: inner) = (members? fuel inner).map fun r => (ofMembers r.1, r.2) := by
  obtain ⟨c, cs, rfl, hs, -, hb⟩ := h
  rw [value?, skipSpace_cons (by decide)]
  simp only [skipSpace_cons hs]
  split
  · rename_i e
    exact absurd (List.cons.inj e).1 hb
  · rfl

theorem members?_quote (fuel : Nat) (k : String) (cs : List Char) :
    members? (fuel + 1) (quote k ++ ':' :: cs) =
      match value? fuel cs with
      | none => none
      | some (j, cs) =>
        match skipSpace cs with
        | ',' :: rest => (members? fuel rest).map fun (ms, cs) => ((some k, j) :: ms, cs)
        | '}' :: rest => some ([(some k, j)], rest)
        | _ => none := by
  have hcolon : skipSpace (':' :: cs) = ':' :: cs := skipSpace_cons (by decide) cs
  rw [quote_append, members?, skipSpace_cons (by decide)]
  simp only [string?_quote]
  exact hcolon ▸ rfl

mutual

/-- **A value at the start of a text is read, and the rest is left.** -/
theorem value?_compact (j : Json) (hj : Written j) {fuel : Nat} (hf : j.compactChars.length ≤ fuel) {rest : List Char}
    (hr : Stops rest) :
    value? fuel (j.compactChars ++ rest) = some (j, rest) := by
  obtain ⟨c, cs, hcs, -⟩ := exists_compactChars_eq_cons hj
  obtain ⟨fuel, rfl⟩ : ∃ n, fuel = n + 1 := ⟨fuel - 1, by simp [hcs] at hf; omega⟩
  cases j with
  | null => simp [compactChars, value?, skipSpace, isSpace, word?]
  | bool b => cases b <;> simp [compactChars, value?, skipSpace, isSpace, word?]
  | num d =>
    simp only [Written] at hj
    simp only [compactChars]
    rw [value?_num hj hr, String.ofList_toList]
  | str s =>
    simp only [compactChars]
    rw [quote_append, value?, skipSpace_cons (by decide)]
    simp [string?_quote]
  | arr items =>
    simp only [Written] at hj
    simp only [compactChars, List.cons_append, List.nil_append, List.append_assoc, List.length_cons,
      List.length_append] at hf ⊢
    rcases eq_or_ne items [] with rfl | hne
    · simp [value?, compactItems, commaSep, skipSpace, isSpace]
    · have ho := exists_commaSep_eq_cons (mt compactItems_eq_nil_iff.1 hne) (opening_of_mem_compactItems hj)
      obtain ⟨c, cs, hc, hopen⟩ := ho
      rw [value?_arr ⟨c, cs ++ ']' :: rest, by rw [hc, List.cons_append], hopen⟩,
        items?_compact items hj hne fuel (by simp at hf; omega) rest]
      rfl
  | obj members =>
    simp only [Written] at hj
    simp only [compactChars, List.cons_append, List.nil_append, List.append_assoc, List.length_cons,
      List.length_append] at hf ⊢
    rcases eq_or_ne members [] with rfl | hne
    · simp [value?, compactMembers, commaSep, skipSpace, isSpace]
    · have ho := exists_commaSep_eq_cons (mt compactMembers_eq_nil_iff.1 hne) (opening_of_mem_compactMembers members)
      obtain ⟨c, cs, hc, hopen⟩ := ho
      rw [value?_obj ⟨c, cs ++ '}' :: rest, by rw [hc, List.cons_append], hopen⟩,
        members?_compact members hj hne fuel (by simp at hf; omega) rest]
      simp [ofMembers_map_some]
  | unpaired => exact hj.elim

/-- elements at the start of a text are read up to the closing bracket -/
theorem items?_compact (js : List Json) (hjs : WrittenItems js) (hne : js ≠ []) (fuel : Nat)
    (hf : (commaSep (compactItems js)).length + 1 ≤ fuel) (rest : List Char) :
    items? fuel (commaSep (compactItems js) ++ ']' :: rest) = some (js, rest) := by
  obtain ⟨fuel, rfl⟩ : ∃ n, fuel = n + 1 := ⟨fuel - 1, by omega⟩
  cases js with
  | nil => exact absurd rfl hne
  | cons j js =>
    rw [compactItems, commaSep_cons] at hf ⊢
    simp only [compactItems_eq_nil_iff, List.append_assoc, List.length_append] at hf ⊢
    rcases eq_or_ne js [] with rfl | hjs'
    · rw [if_pos rfl, List.nil_append, items?, value?_compact j hjs.1 (by omega) (stops_cons (by decide))]
      simp [skipSpace, isSpace]
    · rw [if_neg hjs'] at hf ⊢
      rw [List.length_cons] at hf
      rw [List.cons_append, items?, value?_compact j hjs.1 (by omega) (stops_cons (by decide))]
      simp [skipSpace, isSpace, items?_compact js hjs.2 hjs' fuel (by omega) rest]

/-- members at the start of a text are read up to the closing brace -/
theorem members?_compact (ms : List (String × Json)) (hms : WrittenMembers ms) (hne : ms ≠ []) (fuel : Nat)
    (hf : (commaSep (compactMembers ms)).length + 1 ≤ fuel) (rest : List Char) :
    members? fuel (commaSep (compactMembers ms) ++ '}' :: rest) = some (ms.map fun m => (some m.1, m.2), rest) := by
  obtain ⟨fuel, rfl⟩ : ∃ n, fuel = n + 1 := ⟨fuel - 1, by omega⟩
  cases ms with
  | nil => exact absurd rfl hne
  | cons m ms =>
    obtain ⟨k, j⟩ := m
    rw [compactMembers, commaSep_cons] at hf ⊢
    rw [List.append_assoc (quote k), List.singleton_append] at hf ⊢
    simp only [compactMembers_eq_nil_iff, List.length_append, List.length_cons] at hf ⊢
    rcases eq_or_ne ms [] with rfl | hms'
    · rw [if_pos rfl, List.append_nil, List.append_assoc, List.cons_append, members?_quote,
        value?_compact j hms.1 (by omega) (stops_cons (by decide))]
      simp [skipSpace, isSpace]
    · rw [if_neg hms', List.length_cons] at hf
      rw [if_neg hms', List.append_assoc, List.append_assoc, List.cons_append, members?_quote, List.cons_append,
        value?_compact j hms.1 (by omega) (stops_cons (by decide))]
      simp [skipSpace, isSpace, members?_compact ms hms.2 hms' fuel (by omega) rest]

end

/-- **The compact form of a value holds that value.** -/
theorem parse?_compact {j : Json} (h : Written j) : parse? j.compact = some j := by
  have hv := value?_compact j h (show _ ≤ 2 * j.compactChars.length + 2 by omega) stops_nil
  rw [List.append_nil] at hv
  simp [parse?, compact, hv, skipSpace]

end ClosurePipeline.Json
