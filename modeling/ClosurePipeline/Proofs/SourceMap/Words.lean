/-
The numbers of a mappings text in 64-bit words. The digits are defined for integers of any size; here they are written
and read once more with words alone, each step that can leave its words failing when it does.

- `negate?`, `moveUp?`: the steps that can fail; `writeAll?`, `readFrom?`: the writer and the reader made of them;
- `write?_eq`: a word with a negative is written with the digits of its integer, and only the least word has no
  negative;
- `readFrom?_eq`: whatever the characters, the reader never leaves its words, and finds what `decodeFrom` finds. The
  bits read so far stay below the shift, so joining five more is adding them;
- `read_written_words`: words are read back from their digits.
-/
import Mathlib.Tactic
import ClosurePipeline.Proofs.SourceMap.Vlq

namespace ClosurePipeline.Vlq.Word

/-! ## Writing -/

/-- the negative of a word, if it is a word -/
def negate? (v : Int64) : Option Int64 := if v = Int64.minValue then none else some (-v)

/-- the bits of a word: doubled, with the sign lowest -/
def zigzag? (v : Int64) : Option UInt64 :=
  if v < 0 then (negate? v).map fun (size : Int64) => (size <<< 1 ||| 1).toUInt64 else some (v <<< 1).toUInt64

theorem shiftRight_toNat (n : UInt64) : (n >>> 5).toNat = n.toNat / 32 := by
  rw [UInt64.toNat_shiftRight, Nat.shiftRight_eq_div_pow]
  rfl

theorem shiftRight_eq_zero_iff (n : UInt64) : n >>> 5 = 0 ↔ n.toNat < 32 := by
  rw [← UInt64.toNat_inj, shiftRight_toNat, UInt64.toNat_zero]
  omega

/-- the digits of a word, five bits each -/
def digits (n : UInt64) : List Char :=
  if n >>> 5 = 0 then [digit (n &&& 31).toNat] else digit (n &&& 31 ||| 32).toNat :: digits (n >>> 5)
termination_by n.toNat
decreasing_by
  rename_i h
  rw [shiftRight_eq_zero_iff] at h
  rw [shiftRight_toNat]
  omega

/-- the digits of a signed word -/
def write? (v : Int64) : Option (List Char) := (zigzag? v).map digits

/-- the digits of words one after the other -/
def writeAll? (vs : List Int64) : Option (List Char) := (vs.mapM write?).map List.flatten

theorem low_toNat (n : UInt64) : (n &&& 31).toNat = n.toNat % 32 := by
  rw [UInt64.toNat_and]
  exact Nat.and_two_pow_sub_one_eq_mod n.toNat 5

theorem more_toNat (n : UInt64) : (n &&& 31 ||| 32).toNat = n.toNat % 32 + 32 := by
  have hlow : n.toNat % 32 < 2 ^ 5 := Nat.mod_lt _ (by norm_num)
  have hor := Nat.two_pow_add_eq_or_of_lt hlow 1
  rw [UInt64.toNat_or, low_toNat, Nat.or_comm]
  have h32 : (32 : UInt64).toNat = 2 ^ 5 * 1 := rfl
  rw [h32, ← hor, Nat.add_comm]

theorem digits_eq (n : UInt64) : digits n = Vlq.digits n.toNat := by
  induction hn : n.toNat using Nat.strongRecOn generalizing n with
  | ind k ih =>
    subst hn
    rw [digits, Vlq.digits, low_toNat, more_toNat]
    by_cases h : n.toNat < 32
    · rw [if_pos ((shiftRight_eq_zero_iff n).2 h), if_pos h, Nat.mod_eq_of_lt h]
    · rw [if_neg fun h0 => h ((shiftRight_eq_zero_iff n).1 h0), if_neg h,
        ih (n >>> 5).toNat (by rw [shiftRight_toNat]; omega) (n >>> 5) rfl, shiftRight_toNat]

theorem toInt_negate {v : Int64} (h : v ≠ Int64.minValue) : (-v).toInt = -v.toInt := by
  have hlow := v.le_toInt
  have hhigh := v.toInt_lt
  have hmin : v.toInt ≠ -2 ^ 63 := fun he => h (Int64.toInt_inj.1 (by rw [he, Int64.toInt_minValue]))
  rw [Int64.toInt_neg, Int.bmod_eq_of_le] <;> omega

theorem doubled_toNat {v : Int64} (h : 0 ≤ v.toInt) : (v <<< 1).toUInt64.toNat = 2 * v.toInt.natAbs := by
  have hhigh := v.toInt_lt
  have hnat : v.toBitVec.toNat = v.toInt.natAbs := by
    have := BitVec.toInt_eq_toNat_cond v.toBitVec
    have hv : v.toInt = v.toBitVec.toInt := rfl
    split_ifs at this <;> omega
  have hone : (1 : Int64).toBitVec.smod 64 = 1#64 := by decide
  rw [← Int64.toNat_toBitVec, Int64.toBitVec_shiftLeft, hone, BitVec.shiftLeft_eq', BitVec.toNat_shiftLeft, hnat]
  rw [Nat.shiftLeft_eq, show (1#64).toNat = 1 from rfl, pow_one, Nat.mod_eq_of_lt (by omega), Nat.mul_comm]

theorem zigzag?_eq {v : Int64} (h : v ≠ Int64.minValue) : ∃ n, zigzag? v = some n ∧ n.toNat = zigzag v.toInt := by
  unfold zigzag? negate? zigzag
  rw [if_neg h, Option.map_some]
  by_cases hneg : v < 0
  · have hlt : v.toInt < 0 := Int64.lt_iff_toInt_lt.1 hneg
    have hsize := toInt_negate h
    have hor : ∀ k : Nat, 2 * k ||| 1 = 2 * k + 1 :=
      fun k => (Nat.two_pow_add_eq_or_of_lt (i := 1) (b := 1) (by norm_num) k).symm
    refine ⟨_, if_pos hneg, ?_⟩
    rw [Int64.toUInt64_or, UInt64.toNat_or, doubled_toNat (by omega), hsize, Int.natAbs_neg, if_pos hlt]
    exact hor _
  · have hle : 0 ≤ v.toInt := by
      have : ¬ v.toInt < (0 : Int64).toInt := fun hlt => hneg (Int64.lt_iff_toInt_lt.2 hlt)
      exact Int.not_lt.1 this
    exact ⟨_, if_neg hneg, by rw [doubled_toNat hle, if_neg (Int.not_lt.2 hle)]; omega⟩

/-- **A word is written with the digits of its integer,** if it has a negative. -/
theorem write?_eq {v : Int64} (h : v ≠ Int64.minValue) : write? v = some (encode v.toInt) := by
  obtain ⟨n, hn, hnat⟩ := zigzag?_eq h
  rw [write?, hn, Option.map_some, digits_eq, hnat, encode]

theorem writeAll?_eq {vs : List Int64} (h : ∀ v ∈ vs, v ≠ Int64.minValue) :
    writeAll? vs = some (encodeAll (vs.map Int64.toInt)) := by
  have hall : vs.mapM write? = some (vs.map fun v => encode v.toInt) := by
    induction vs with
    | nil => rfl
    | cons v vs ih =>
      rw [List.mapM_cons, write?_eq (h v List.mem_cons_self), ih fun w hw => h w (List.mem_cons_of_mem v hw)]
      rfl
  rw [writeAll?, hall, Option.map_some, encodeAll, List.flatMap_map, List.flatMap_def]

/-! ## Reading -/

/-- a word moved up; there is no move by all its bits or more -/
def moveUp? (n : UInt64) (shift : Nat) : Option UInt64 := if shift < 64 then some (n <<< UInt64.ofNat shift) else none

/-- the integer of its bits, if it is a word -/
def unzigzag? (n : UInt64) : Option Int64 :=
  if (n >>> 1).toNat < 2 ^ 63 then if n &&& 1 = 1 then negate? (n >>> 1).toInt64 else some (n >>> 1).toInt64 else none

/-- reads words, `bits` being those of the unfinished one and `shift` how many there are -/
def readFrom? (bits : UInt64) (shift : Nat) : List Char → Option (Except Fault (List Int64))
  | [] => some (if shift = 0 then .ok [] else .error .truncated)
  | c :: cs =>
    match digitValue? c with
    | none => some (.error (.badDigit (Char.ofNat (Text.leadByte c))))
    | some d =>
      if lastShift < shift then some (.error .tooLarge)
      else do
        let up ← moveUp? (UInt64.ofNat d &&& 31) shift
        if UInt64.ofNat d &&& 32 = 0 then
          let v ← unzigzag? (bits ||| up)
          let values ← readFrom? 0 0 cs
          some (values.map (v :: ·))
        else readFrom? (bits ||| up) (shift + 5) cs

/-- the words of a run of digits -/
def read? (cs : List Char) : Option (Except Fault (List Int64)) := readFrom? 0 0 cs

theorem digitValue?_lt {c : Char} {d : Nat} (h : digitValue? c = some d) : d < 64 := by
  unfold digitValue? at h
  simp only at h
  split_ifs at h <;> simp only [Option.some.injEq] at h <;> omega

/-- bits below the shift are joined by adding -/
theorem joined_toNat {bits up : UInt64} {shift d : Nat} (hs : shift ≤ lastShift) (hb : bits.toNat < 2 ^ shift)
    (hup : moveUp? (UInt64.ofNat d &&& 31) shift = some up) (hd : d < 64) :
    (bits ||| up).toNat = (bits.toNat + (d % 32) <<< shift) % wordLimit := by
  have h64 : shift < 64 := by unfold lastShift at hs; omega
  rw [moveUp?, if_pos h64] at hup
  cases hup
  have hpow : 2 ^ 64 = 2 ^ shift * 2 ^ (64 - shift) := by rw [← pow_add]; congr 1; omega
  have hdnat : (UInt64.ofNat d).toNat = d := by rw [UInt64.toNat_ofNat']; omega
  have hsnat : (UInt64.ofNat shift).toNat = shift := by rw [UInt64.toNat_ofNat']; omega
  have hmod : (d % 32) <<< shift % 2 ^ 64 = 2 ^ shift * (d % 32 % 2 ^ (64 - shift)) := by
    rw [Nat.shiftLeft_eq, Nat.mul_comm, hpow, Nat.mul_mod_mul_left]
  have hsum : bits.toNat + 2 ^ shift * (d % 32 % 2 ^ (64 - shift)) < 2 ^ 64 := by
    have hlt : d % 32 % 2 ^ (64 - shift) + 1 ≤ 2 ^ (64 - shift) := Nat.mod_lt _ (Nat.two_pow_pos _)
    have := Nat.mul_le_mul_left (2 ^ shift) hlt
    rw [hpow]
    rw [Nat.mul_add] at this
    omega
  rw [UInt64.toNat_or, UInt64.toNat_shiftLeft, low_toNat, hdnat, hsnat, Nat.mod_eq_of_lt h64, hmod, Nat.or_comm,
    ← Nat.two_pow_add_eq_or_of_lt hb, Nat.add_comm, wordLimit, Nat.add_mod,
    show 18446744073709551616 = 2 ^ 64 by norm_num, hmod,
    Nat.mod_eq_of_lt (show bits.toNat < 2 ^ 64 by omega), Nat.mod_eq_of_lt hsum]

theorem joined_lt {bits joined shift d : Nat} (hb : bits < 2 ^ shift)
    (h : joined = (bits + (d % 32) <<< shift) % wordLimit) :
    joined < 2 ^ (shift + 5) := by
  have hd : d % 32 + 1 ≤ 32 := Nat.mod_lt _ (by norm_num)
  have hmul := Nat.mul_le_mul_left (2 ^ shift) hd
  rw [Nat.mul_add] at hmul
  rw [h, Nat.shiftLeft_eq, Nat.mul_comm, pow_add]
  exact Nat.lt_of_le_of_lt (Nat.mod_le _ _) (by omega)

theorem unzigzag?_eq (n : UInt64) : unzigzag? n = some (Int64.ofInt (unzigzag n.toNat)) := by
  have hhalf : (n >>> 1).toNat = n.toNat / 2 := by
    rw [UInt64.toNat_shiftRight, Nat.shiftRight_eq_div_pow]
    rfl
  have hlt : (n >>> 1).toNat < 2 ^ 63 := by have := n.toNat_lt; omega
  have hsign : n &&& 1 = 1 ↔ n.toNat % 2 = 1 := by
    rw [← UInt64.toNat_inj, UInt64.toNat_and]
    exact iff_of_eq (congrArg (· = 1) (Nat.and_two_pow_sub_one_eq_mod n.toNat 1))
  have hsize : (n >>> 1).toInt64.toInt = ((n.toNat / 2 : Nat) : Int) := by
    rw [← hhalf]
    exact BitVec.toInt_eq_toNat_of_lt (by change 2 * (n >>> 1).toNat < 2 ^ 64; omega)
  have hne : (n >>> 1).toInt64 ≠ Int64.minValue := fun he => by rw [he, Int64.toInt_minValue] at hsize; omega
  unfold unzigzag? negate? unzigzag
  rw [if_pos hlt, if_neg hne]
  by_cases hodd : n.toNat % 2 = 1
  · rw [if_pos (hsign.2 hodd), if_pos hodd, ← hsize, ← toInt_negate hne, Int64.ofInt_toInt]
  · rw [if_neg fun h => hodd (hsign.1 h), if_neg hodd, ← hsize, Int64.ofInt_toInt]

theorem more_iff {d : Nat} (hd : d < 64) : UInt64.ofNat d &&& 32 = 0 ↔ d < 32 := by
  have : ∀ d < 64, (UInt64.ofNat d &&& 32 = 0 ↔ d < 32) := by decide
  exact this d hd

theorem readFrom?_eq (cs : List Char) : ∀ {bits : UInt64} {shift : Nat}, bits.toNat < 2 ^ shift →
    readFrom? bits shift cs = some ((decodeFrom bits.toNat shift cs).map (List.map Int64.ofInt)) := by
  induction cs with
  | nil =>
    intro bits shift _
    rw [readFrom?, decodeFrom]
    split_ifs <;> rfl
  | cons c cs ih =>
    intro bits shift hb
    rw [readFrom?, decodeFrom]
    cases hd : digitValue? c with
    | none => rfl
    | some d =>
      have hd64 := digitValue?_lt hd
      simp only
      by_cases hs : lastShift < shift
      · rw [if_pos hs, if_pos hs]
        rfl
      · rw [if_neg hs, if_neg hs]
        obtain ⟨up, hup⟩ : ∃ up, moveUp? (UInt64.ofNat d &&& 31) shift = some up :=
          ⟨_, if_pos (by unfold lastShift at hs; omega)⟩
        have hjoined := joined_toNat (Nat.not_lt.1 hs) hb hup hd64
        rw [hup, Option.bind_eq_bind, Option.bind_some, ← hjoined]
        by_cases hlast : d < 32
        · rw [if_pos ((more_iff hd64).2 hlast), if_pos hlast, unzigzag?_eq, ih (by norm_num), UInt64.toNat_zero]
          cases decodeFrom 0 0 cs <;> rfl
        · rw [if_neg fun h => hlast ((more_iff hd64).1 h), if_neg hlast, ih (joined_lt hb hjoined)]

/-- **Words are read back from their digits.** The numbers are the 64-bit words but the least one, which has no
negative. Their digits one after the other hold these numbers and no others, and neither the writer nor the reader
leaves its words on the way. -/
theorem read_written_words (vs : List Int64) (h : ∀ v ∈ vs, v ≠ Int64.minValue) :
    decode (encodeAll (vs.map Int64.toInt)) = .ok (vs.map Int64.toInt) ∧
    writeAll? vs = some (encodeAll (vs.map Int64.toInt)) ∧
      read? (encodeAll (vs.map Int64.toInt)) = some (.ok vs) := by
  have hread : decode (encodeAll (vs.map Int64.toInt)) = .ok (vs.map Int64.toInt) := by
    refine decode_encodeAll fun n hn => ?_
    obtain ⟨v, hv, rfl⟩ := List.mem_map.1 hn
    have hlow := v.le_toInt
    have hhigh := v.toInt_lt
    have hmin : v.toInt ≠ -2 ^ 63 := fun he => h v hv (Int64.toInt_inj.1 (by rw [he, Int64.toInt_minValue]))
    omega
  have hwords : (vs.map Int64.toInt).map Int64.ofInt = vs := by
    rw [List.map_map]
    exact List.map_id'' (fun v => v.ofInt_toInt) vs
  refine ⟨hread, writeAll?_eq h, ?_⟩
  rw [decode] at hread
  rw [read?, readFrom?_eq _ (by norm_num), UInt64.toNat_zero, hread, Except.map, hwords]

/-- the two words of largest size that have a negative, thirteen digits each, with small ones between and behind them -/
theorem read_written_words_largest :
    (∀ v ∈ [Int64.maxValue, 0, -Int64.maxValue, 16, -1], v ≠ Int64.minValue) ∧
      (encode Int64.maxValue.toInt).length = 13 ∧
      read? (encodeAll ([Int64.maxValue, 0, -Int64.maxValue, 16, -1].map Int64.toInt)) =
        some (.ok [Int64.maxValue, 0, -Int64.maxValue, 16, -1]) := by
  have h : ∀ v ∈ [Int64.maxValue, 0, -Int64.maxValue, 16, -1], v ≠ Int64.minValue :=
    List.forall_iff_forall_mem.1 (by decide)
  exact ⟨h, by decide +kernel, (read_written_words _ h).2.2⟩

end ClosurePipeline.Vlq.Word
