/-
Base64 VLQ numbers read back. Integers below 2^63 in size are read from their digits, one after the other
(`decode_encodeAll`).

The reader's unfinished number and its shift are the invariant: behind the digits of `n` the bits are those before plus
`n` moved up by the shift (`decodeFrom_digits`). A number that fits 64 bits never starts a digit beyond bit 60.
-/
import Mathlib.Tactic
import ClosurePipeline.SourceMap.Vlq

namespace ClosurePipeline.Vlq

theorem digitValue?_digit {n : Nat} (h : n < 64) : digitValue? (digit n) = some n := by
  have : ∀ n < 64, digitValue? (digit n) = some n := by decide
  exact this n h

theorem unzigzag_zigzag (v : Int) : unzigzag (zigzag v) = v := by
  unfold zigzag unzigzag
  split_ifs <;> omega

theorem zigzag_lt {v : Int} (h : v.natAbs < 2 ^ 63) : zigzag v < wordLimit := by
  unfold zigzag wordLimit
  split_ifs <;> omega

/-- a digit that more digits follow is never the one at the last bit -/
theorem shift_lt_of_large {n shift bits : Nat} (h5 : 5 ∣ shift) (hn : 32 ≤ n) (hb : bits + n * 2 ^ shift < wordLimit) :
    shift + 5 ≤ lastShift := by
  by_contra hlt
  have h60 : 60 ≤ shift := by unfold lastShift at hlt; omega
  have hpow : 2 ^ 60 ≤ 2 ^ shift := Nat.pow_le_pow_right (by norm_num) h60
  have := Nat.mul_le_mul hn hpow
  unfold wordLimit at hb
  omega

theorem decodeFrom_digits (n : Nat) :
    ∀ {bits shift : Nat} (rest : List Char), 5 ∣ shift → shift ≤ lastShift → bits + n * 2 ^ shift < wordLimit →
    decodeFrom bits shift (digits n ++ rest) = (decodeFrom 0 0 rest).map (unzigzag (bits + n * 2 ^ shift) :: ·) := by
  induction n using Nat.strongRecOn with
  | ind n ih =>
    intro bits shift rest h5 hs hb
    rw [digits]
    split_ifs with hn
    · have hmod : (bits + (n % 32) <<< shift) % wordLimit = bits + n * 2 ^ shift := by
        rw [Nat.mod_eq_of_lt hn, Nat.shiftLeft_eq, Nat.mod_eq_of_lt hb]
      rw [List.singleton_append, decodeFrom, digitValue?_digit (by omega)]
      simp only [hmod, if_pos hn, if_neg (Nat.not_lt.2 hs)]
    · -- the low five bits join those read so far, the others follow five bits higher up
      have hsplit : bits + (n % 32) * 2 ^ shift + n / 32 * 2 ^ (shift + 5) = bits + n * 2 ^ shift := by
        have := Nat.mod_add_div n 32
        calc bits + (n % 32) * 2 ^ shift + n / 32 * 2 ^ (shift + 5)
            = bits + (n % 32 + 32 * (n / 32)) * 2 ^ shift := by ring
          _ = bits + n * 2 ^ shift := by rw [this]
      have hlow : bits + (n % 32) * 2 ^ shift < wordLimit := by omega
      have hmod : (bits + ((n % 32 + 32) % 32) <<< shift) % wordLimit = bits + (n % 32) * 2 ^ shift := by
        rw [Nat.add_mod_right, Nat.mod_mod, Nat.shiftLeft_eq, Nat.mod_eq_of_lt hlow]
      rw [List.cons_append, decodeFrom, digitValue?_digit (by omega)]
      simp only [hmod, if_neg (Nat.not_lt.2 hs), if_neg (show ¬n % 32 + 32 < 32 by omega)]
      rw [ih (n / 32) (by omega) rest (by omega) (shift_lt_of_large h5 (by omega) hb) (by omega), hsplit]

theorem decodeFrom_encode {v : Int} (h : v.natAbs < 2 ^ 63) (rest : List Char) :
    decodeFrom 0 0 (encode v ++ rest) = (decodeFrom 0 0 rest).map (v :: ·) := by
  have hz := zigzag_lt h
  rw [encode, decodeFrom_digits (zigzag v) rest (by omega) (by decide) (by omega)]
  rw [pow_zero, Nat.mul_one, Nat.zero_add, unzigzag_zigzag]

/-- **Written numbers are read back.** -/
theorem decode_encodeAll {vs : List Int} (h : ∀ v ∈ vs, v.natAbs < 2 ^ 63) : decode (encodeAll vs) = .ok vs := by
  induction vs with
  | nil => rfl
  | cons v vs ih =>
    have hvs := ih fun w hw => h w (List.mem_cons_of_mem _ hw)
    rw [decode] at hvs ⊢
    rw [encodeAll, List.flatMap_cons, decodeFrom_encode (h v List.mem_cons_self), ← encodeAll, hvs]
    rfl

/-! ## The digits written -/

/-- neither divides segments nor lines -/
def NoDivider (cs : List Char) : Prop := ∀ c ∈ cs, c ≠ ',' ∧ c ≠ ';'

theorem digit_noDivider {n : Nat} (h : n < 64) : digit n ≠ ',' ∧ digit n ≠ ';' := by
  have : ∀ n < 64, digit n ≠ ',' ∧ digit n ≠ ';' := by decide
  exact this n h

theorem digits_noDivider (n : Nat) : NoDivider (digits n) := by
  induction n using Nat.strongRecOn with
  | ind n ih =>
    rw [digits]
    split_ifs with hn
    · intro c hc
      rw [List.mem_singleton] at hc
      exact hc ▸ digit_noDivider (by omega)
    · intro c hc
      rcases List.mem_cons.1 hc with rfl | hc
      · exact digit_noDivider (by omega)
      · exact ih (n / 32) (by omega) c hc

theorem encodeAll_noDivider (vs : List Int) : NoDivider (encodeAll vs) := by
  intro c hc
  obtain ⟨v, -, hv⟩ := List.mem_flatMap.1 hc
  exact digits_noDivider _ c hv

theorem encode_ne_nil (v : Int) : encode v ≠ [] := by
  rw [encode, digits]
  split_ifs <;> simp

end ClosurePipeline.Vlq
