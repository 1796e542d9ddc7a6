/-
Numerals read in words. A numeral stands for an integer of any size; the reader keeps 64 bits of it. Here runs of digits
are taken apart into numerals, and what the reader gives for each is compared with what it stands for.

- `Numeral`: the digits of one number, and `value`, the integer they stand for;
- `decodeFrom_text`: one numeral more in front. The bits read so far and those to come are added modulo the words, and a
  fourteenth digit is refused;
- `exists_numerals`: what the reader accepts is made of numerals, by induction on the characters;
- `numerals_read`: the result. A number keeps its value exactly if its bits fit a word. Of thirteen digits the last
  starts at bit 60, so its highest bit is lost, and with it `value`; `high_bit_is_lost` is the least such number.
-/
import Mathlib.Tactic
import ClosurePipeline.Proofs.SourceMap.Words

namespace ClosurePipeline.Vlq

/-- the digits of one number, low ones first: those that others follow, and the last one; five bits each -/
structure Numeral where
  followed : List (Fin 32)
  last : Fin 32
deriving DecidableEq, Repr

namespace Numeral

/-- how many digits there are -/
def size (n : Numeral) : Nat := n.followed.length + 1

/-- the digits as they are written -/
def text (n : Numeral) : List Char := n.followed.map (fun d => digit (d.val + 32)) ++ [digit n.last.val]

/-- the bits of all digits -/
def bits (n : Numeral) : Nat := n.followed.foldr (fun d high => d.val + 32 * high) n.last.val

/-- the integer the digits stand for -/
def value (n : Numeral) : Int := unzigzag n.bits

/-- the integer of the bits that fit a word -/
def kept (n : Numeral) : Int := unzigzag (n.bits % wordLimit)

/-- the numeral with one digit more in front -/
def follow (d : Fin 32) (n : Numeral) : Numeral := ⟨d :: n.followed, n.last⟩

@[simp] theorem text_follow (d : Fin 32) (n : Numeral) : (follow d n).text = digit (d.val + 32) :: n.text := rfl

@[simp] theorem bits_follow (d : Fin 32) (n : Numeral) : (follow d n).bits = d.val + 32 * n.bits := rfl

@[simp] theorem size_follow (d : Fin 32) (n : Numeral) : (follow d n).size = n.size + 1 := rfl

/-- **Numerals by their digits:** one digit, or one more in front. -/
theorem digits_induction {P : Numeral → Prop} (single : ∀ last, P ⟨[], last⟩) (more : ∀ d n, P n → P (follow d n))
    (n : Numeral) : P n := by
  obtain ⟨followed, last⟩ := n
  induction followed with
  | nil => exact single last
  | cons d followed ih => exact more d _ ih

theorem bits_eq (n : Numeral) : ∃ low < 32 ^ n.followed.length, n.bits = low + n.last.val * 32 ^ n.followed.length := by
  induction n using digits_induction with
  | single last => exact ⟨0, by norm_num, by simp [bits]⟩
  | more d n ih =>
    obtain ⟨low, hlow, hbits⟩ := ih
    have hd := d.isLt
    have hlen : (follow d n).followed.length = n.followed.length + 1 := rfl
    refine ⟨d.val + 32 * low, ?_, ?_⟩
    · rw [hlen, pow_succ]
      omega
    · have hlast : (follow d n).last = n.last := rfl
      rw [bits_follow, hbits, hlen, hlast]
      ring

/-- **What is lost.** A number of thirteen digits or less has a bit beyond the words exactly if it has thirteen and the
last one has its highest bit. -/
theorem wordLimit_le_bits_iff {n : Numeral} (h : n.size ≤ 13) : wordLimit ≤ n.bits ↔ n.size = 13 ∧ 16 ≤ n.last.val := by
  obtain ⟨low, hlow, hbits⟩ := n.bits_eq
  have hlast := n.last.isLt
  have hword : wordLimit = 16 * 32 ^ 12 := by norm_num [wordLimit]
  have hsize : n.size = n.followed.length + 1 := rfl
  rcases Nat.lt_or_ge n.followed.length 12 with hshort | hlong
  · have hpow : 32 ^ (n.followed.length + 1) ≤ 32 ^ 12 := Nat.pow_le_pow_right (by norm_num) hshort
    have hmul : n.last.val * 32 ^ n.followed.length ≤ 31 * 32 ^ n.followed.length := Nat.mul_le_mul_right _ (by omega)
    rw [pow_succ] at hpow
    constructor
    · intro hle
      omega
    · rintro ⟨hthirteen, -⟩
      omega
  · have hlen : n.followed.length = 12 := by omega
    rw [hlen] at hlow hbits
    constructor
    · intro hle
      refine ⟨by omega, ?_⟩
      by_contra hsmall
      have hmul : n.last.val * 32 ^ 12 ≤ 15 * 32 ^ 12 := Nat.mul_le_mul_right _ (by omega)
      omega
    · rintro ⟨-, hhigh⟩
      have hmul : 16 * 32 ^ 12 ≤ n.last.val * 32 ^ 12 := Nat.mul_le_mul_right _ hhigh
      omega

/-- a number keeps its value exactly if its bits fit a word -/
theorem kept_eq_value_iff (n : Numeral) : n.kept = n.value ↔ n.bits < wordLimit := by
  constructor
  · intro heq
    by_contra hlarge
    have hmod : n.bits % wordLimit < wordLimit := Nat.mod_lt _ (by decide)
    unfold kept value unzigzag at heq
    unfold wordLimit at *
    split_ifs at heq <;> omega
  · intro hlt
    rw [kept, value, Nat.mod_eq_of_lt hlt]

end Numeral

/-! ## The reader on numerals -/

theorem digit_injective {m n : Nat} (hm : m < 64) (hn : n < 64) (h : digit m = digit n) : m = n := by
  have := digitValue?_digit hm
  rw [h, digitValue?_digit hn] at this
  exact (Option.some.inj this).symm

theorem digit_of_digitValue? {c : Char} {d : Nat} (h : digitValue? c = some d) : digit d = c := by
  have hd := Word.digitValue?_lt h
  unfold digitValue? at h
  simp only at h
  split_ifs at h with h1 h2 h3 h4 h5
  · cases h
    have hnat : 65 + (c.toNat - 65) = c.toNat := by omega
    rw [digit, if_pos (by omega), hnat, Char.ofNat_toNat]
  · cases h
    have hnat : 71 + (c.toNat - 71) = c.toNat := by omega
    rw [digit, if_neg (by omega), if_pos (by omega), hnat, Char.ofNat_toNat]
  · cases h
    rw [digit, if_neg (by omega), if_neg (by omega), if_pos (by omega), Nat.add_sub_cancel, Char.ofNat_toNat]
  · cases h
    exact h4.symm
  · cases h
    exact h5.symm

open Numeral

/-- the bits read and those of a digit, with the digits to come five bits higher up -/
theorem joined_mod (low d high shift : Nat) :
    ((low + d <<< shift) % wordLimit + high * 2 ^ (shift + 5)) % wordLimit =
      (low + (d + 32 * high) * 2 ^ shift) % wordLimit := by
  rw [Nat.mod_add_mod, Nat.shiftLeft_eq, pow_add]
  congr 1
  ring

/-- **A numeral in front:** its bits join those read before, as far as they fit a word, if no digit starts beyond the
last bit. -/
theorem decodeFrom_text (n : Numeral) : ∀ (low shift : Nat) (rest : List Char), decodeFrom low shift (n.text ++ rest) =
    if shift + 5 * n.followed.length ≤ lastShift then
      (decodeFrom 0 0 rest).map (unzigzag ((low + n.bits * 2 ^ shift) % wordLimit) :: ·)
    else .error .tooLarge := by
  induction n using digits_induction with
  | single last =>
    intro low shift rest
    have hlast := last.isLt
    change decodeFrom low shift (digit last.val :: rest) = _
    rw [decodeFrom, digitValue?_digit (by omega)]
    simp only [List.length_nil, Nat.mul_zero, Nat.add_zero, hlast, if_true, Nat.mod_eq_of_lt hlast, bits,
      List.foldr_nil]
    by_cases hs : lastShift < shift
    · rw [if_pos hs, if_neg (Nat.not_le.2 hs)]
    · rw [if_neg hs, if_pos (Nat.not_lt.1 hs), Nat.shiftLeft_eq]
  | more d n ih =>
    intro low shift rest
    have hd := d.isLt
    have hlen : (follow d n).followed.length = n.followed.length + 1 := rfl
    rw [text_follow, List.cons_append, decodeFrom, digitValue?_digit (by omega)]
    simp only [if_neg (show ¬ d.val + 32 < 32 by omega), Nat.add_mod_right, Nat.mod_eq_of_lt hd]
    by_cases hs : lastShift < shift
    · rw [if_pos hs, if_neg (by omega)]
    · rw [if_neg hs, ih, bits_follow, joined_mod, hlen]
      by_cases hfit : shift + 5 + 5 * n.followed.length ≤ lastShift
      · rw [if_pos hfit, if_pos (by omega)]
      · rw [if_neg hfit, if_neg (by omega)]

/-- the digits of numerals one after the other -/
def textOf (ns : List Numeral) : List Char := ns.flatMap text

theorem decode_cons (n : Numeral) (ns : List Numeral) :
    decode (textOf (n :: ns)) = if n.size ≤ 13 then (decode (textOf ns)).map (n.kept :: ·) else .error .tooLarge := by
  rw [decode, textOf, List.flatMap_cons, decodeFrom_text, Nat.zero_add, Nat.zero_add, pow_zero, Nat.mul_one, ← kept,
    ← textOf, ← decode]
  have hsize : 5 * n.followed.length ≤ lastShift ↔ n.size ≤ 13 := by
    unfold size lastShift
    omega
  simp only [hsize]

/-- **Numerals are read** if none has more than thirteen digits, each with the bits that fit a word; otherwise they are
refused. -/
theorem decode_textOf (ns : List Numeral) :
    decode (textOf ns) = if ∀ n ∈ ns, n.size ≤ 13 then .ok (ns.map kept) else .error .tooLarge := by
  induction ns with
  | nil => rfl
  | cons n ns ih =>
    rw [decode_cons, ih]
    simp only [List.forall_mem_cons]
    by_cases hn : n.size ≤ 13
    · by_cases hns : ∀ m ∈ ns, m.size ≤ 13
      · rw [if_pos hn, if_pos hns, if_pos ⟨hn, hns⟩]
        rfl
      · rw [if_pos hn, if_neg hns, if_neg fun h => hns h.2]
        rfl
    · rw [if_neg hn, if_neg fun h => hn h.1]

/-- **What is read is made of numerals.** In the middle of a number the rest of it comes first. -/
theorem exists_numerals {cs : List Char} : ∀ {low shift : Nat} {vs : List Int}, decodeFrom low shift cs = .ok vs →
    shift = 0 ∧ cs = [] ∨ ∃ (n : Numeral) (ns : List Numeral), cs = n.text ++ textOf ns := by
  induction cs with
  | nil =>
    intro low shift vs h
    rw [decodeFrom] at h
    split_ifs at h with hshift
    exact Or.inl ⟨hshift, rfl⟩
  | cons c cs ih =>
    intro low shift vs h
    right
    rw [decodeFrom] at h
    cases hd : digitValue? c with
    | none =>
      rw [hd] at h
      cases h
    | some d =>
      rw [hd] at h
      have hc := digit_of_digitValue? hd
      have hd64 := Word.digitValue?_lt hd
      simp only at h
      split_ifs at h with hs hlast
      · -- the last digit of a number: behind it the text ends or another one starts
        obtain ⟨vs', hrest⟩ : ∃ vs', decodeFrom 0 0 cs = .ok vs' := by
          cases hrest : decodeFrom 0 0 cs with
          | error e =>
            rw [hrest] at h
            cases h
          | ok vs' => exact ⟨vs', rfl⟩
        have hfront : c :: cs = text ⟨[], ⟨d, hlast⟩⟩ ++ cs := by simp [text, hc]
        rcases ih hrest with ⟨-, rfl⟩ | ⟨n, ns, rfl⟩
        · exact ⟨_, [], hfront⟩
        · exact ⟨_, n :: ns, hfront⟩
      · -- another digit of the same number comes
        rcases ih h with ⟨hshift, -⟩ | ⟨n, ns, rfl⟩
        · omega
        · have hdigit : digit ((⟨d - 32, by omega⟩ : Fin 32).val + 32) = c := by
            rw [← hc]
            congr 1
            simp only
            omega
          exact ⟨follow ⟨d - 32, by omega⟩ n, ns, by rw [text_follow, hdigit, List.cons_append]⟩

/-- numerals are told apart by their digits -/
theorem text_append_inj (n : Numeral) :
    ∀ {m : Numeral} {rest rest' : List Char}, n.text ++ rest = m.text ++ rest' → n = m ∧ rest = rest' := by
  have hlast : ∀ d : Fin 32, d.val < 64 := fun d => by omega
  have hmore : ∀ d : Fin 32, d.val + 32 < 64 := fun d => by omega
  induction n using digits_induction with
  | single last =>
    intro m rest rest' h
    cases m using digits_induction with
    | single last' =>
      obtain ⟨hdigit, hrest⟩ := List.cons.inj h
      obtain rfl : last = last' := Fin.ext (digit_injective (hlast _) (hlast _) hdigit)
      exact ⟨rfl, hrest⟩
    | more d m =>
      have := digit_injective (hlast _) (hmore _) (List.cons.inj h).1
      omega
  | more d n ih =>
    intro m rest rest' h
    cases m using digits_induction with
    | single last' =>
      have := digit_injective (hmore _) (hlast _) (List.cons.inj h).1
      omega
    | more d' m =>
      obtain ⟨hdigit, htail⟩ := List.cons.inj h
      obtain ⟨rfl, hrest⟩ := ih htail
      have hd := digit_injective (hmore _) (hmore _) hdigit
      exact ⟨by rw [Fin.ext (Nat.add_right_cancel hd)], hrest⟩

theorem text_ne_nil (n : Numeral) : n.text ≠ [] := by simp [text]

/-- **A run of digits is made of numerals in one way only.** -/
theorem textOf_injective {ns ms : List Numeral} (h : textOf ns = textOf ms) : ns = ms := by
  induction ns generalizing ms with
  | nil =>
    cases ms with
    | nil => rfl
    | cons m ms => exact absurd (List.append_eq_nil_iff.1 h.symm).1 (text_ne_nil m)
  | cons n ns ih =>
    cases ms with
    | nil => exact absurd (List.append_eq_nil_iff.1 h).1 (text_ne_nil n)
    | cons m ms =>
      obtain ⟨rfl, hrest⟩ := text_append_inj n h
      rw [ih hrest]

/-! ## The result -/

theorem decode_eq_ok_iff {cs : List Char} {vs : List Int} :
    decode cs = .ok vs ↔ ∃ ns, cs = textOf ns ∧ (∀ n ∈ ns, n.size ≤ 13) ∧ vs = ns.map kept := by
  constructor
  · intro h
    obtain ⟨ns, rfl⟩ : ∃ ns, cs = textOf ns := by
      rcases exists_numerals h with ⟨-, rfl⟩ | ⟨n, ns, rfl⟩
      · exact ⟨[], rfl⟩
      · exact ⟨n :: ns, rfl⟩
    rw [decode_textOf] at h
    split_ifs at h with hshort
    cases h
    exact ⟨ns, rfl, hshort, rfl⟩
  · rintro ⟨ns, rfl, hshort, rfl⟩
    rw [decode_textOf, if_pos hshort]

/-- **What is read of numbers.** The reader accepts exactly the runs of numerals of at most thirteen digits each, and
gives for each numeral the integer of the bits that fit a word. So a run is read with the values it stands for exactly
if all its bits fit; a number is refused as too large exactly if it has more than thirteen digits; and the numbers that
are read with another value are those of thirteen digits whose last digit has its highest bit. -/
theorem numerals_read (cs : List Char) (vs : List Int) (ns : List Numeral) :
    (decode cs = .ok vs ↔ ∃ ns, cs = textOf ns ∧ (∀ n ∈ ns, n.size ≤ 13) ∧ vs = ns.map kept) ∧
      (decode (textOf ns) = .ok (ns.map value) ↔ ∀ n ∈ ns, n.size ≤ 13 ∧ n.bits < wordLimit) ∧
      (decode (textOf ns) = .error .tooLarge ↔ ∃ n ∈ ns, 13 < n.size) ∧
      ∀ n : Numeral, n.size ≤ 13 ∧ n.kept ≠ n.value ↔ n.size = 13 ∧ 16 ≤ n.last.val := by
  refine ⟨decode_eq_ok_iff, ?_, ?_, fun n => ?_⟩
  · rw [decode_eq_ok_iff]
    constructor
    · rintro ⟨ms, htext, hshort, hvalues⟩
      obtain rfl := textOf_injective htext
      intro n hn
      exact ⟨hshort n hn, (kept_eq_value_iff n).1 (List.map_inj_left.1 hvalues n hn).symm⟩
    · intro h
      exact ⟨ns, rfl, fun n hn => (h n hn).1, List.map_congr_left fun n hn => ((kept_eq_value_iff n).2 (h n hn).2).symm⟩
  · rw [decode_textOf]
    split_ifs with hshort
    · simpa using hshort
    · simpa using hshort
  · rw [ne_eq, kept_eq_value_iff, Nat.not_lt]
    constructor
    · rintro ⟨hsize, hlarge⟩
      exact (wordLimit_le_bits_iff hsize).1 hlarge
    · rintro ⟨hsize, hhigh⟩
      exact ⟨hsize.le, (wordLimit_le_bits_iff hsize.le).2 ⟨hsize, hhigh⟩⟩

/-- the least number with a bit beyond the words: twelve zeros, and a last digit with its highest bit -/
def beyondWords : Numeral := ⟨List.replicate 12 0, 16⟩

/-- **The highest bit is lost.** The digits stand for 2^63, which is no signed word, and they are read as zero instead
of being refused. -/
theorem high_bit_is_lost :
    beyondWords.text = "ggggggggggggQ".toList ∧ beyondWords.value = 2 ^ 63 ∧ decode "ggggggggggggQ".toList = .ok [0] ∧
      ¬ ∃ ns, "ggggggggggggQ".toList = textOf ns ∧ [0] = ns.map value := by
  have htext : beyondWords.text = "ggggggggggggQ".toList := by decide
  have hvalue : beyondWords.value = 2 ^ 63 := by decide
  refine ⟨htext, hvalue, by decide, ?_⟩
  rintro ⟨ns, hns, hvalues⟩
  obtain rfl : [beyondWords] = ns := textOf_injective (by rw [← hns, ← htext, textOf, List.flatMap_singleton])
  rw [List.map_singleton, hvalue] at hvalues
  exact absurd hvalues (by decide)

end ClosurePipeline.Vlq
