/-
Running sums of a mappings text. Each number of a segment is added to the sum of its field, and the sums are looked at
only afterwards. Here is what they hold when a segment is read, and which additions leave the words.

- `Reached`: the segments that are read, with the reader's state in front of each;
- `readSegment_sums`: the step. Behind a segment that is read every sum is an index again; so it is by induction at
  every segment (`Reached.fits`);
- `decode_eq_error_iff`: the first fault of a text is that of a segment reached, or there are too many lines;
- `sums_of_text`: the result. A segment always has a first number, no sum leaves the words downwards, and one leaves
  them upwards exactly if a number brings an index to 2^63. `column_overflows` is a text where this happens.
-/
import Mathlib.Tactic
import ClosurePipeline.Proofs.SourceMap.Mappings
import ClosurePipeline.Proofs.SourceMap.Numerals

namespace ClosurePipeline.Vlq

theorem natAbs_kept_lt (n : Numeral) : n.kept.natAbs < 2 ^ 63 := by
  have hmod : n.bits % wordLimit < wordLimit := Nat.mod_lt _ (by decide)
  unfold Numeral.kept unzigzag wordLimit at *
  split_ifs <;> omega

/-- **What one number can carry:** less than 2^63 in either direction. -/
theorem natAbs_lt_of_decode {cs : List Char} {vs : List Int} (h : decode cs = .ok vs) :
    ∀ v ∈ vs, v.natAbs < 2 ^ 63 := by
  obtain ⟨ns, -, -, rfl⟩ := decode_eq_ok_iff.1 h
  intro v hv
  obtain ⟨n, -, rfl⟩ := List.mem_map.1 hv
  exact natAbs_kept_lt n

/-- digits hold a number -/
theorem ne_nil_of_decode {cs : List Char} {vs : List Int} (h : decode cs = .ok vs) (hcs : cs ≠ []) : vs ≠ [] := by
  obtain ⟨ns, rfl, -, rfl⟩ := decode_eq_ok_iff.1 h
  rintro hnil
  obtain rfl := List.map_eq_nil_iff.1 hnil
  exact hcs rfl

end ClosurePipeline.Vlq

namespace ClosurePipeline.Mappings

/-! ## Adding to an index -/

/-- a number that is too much for a sum -/
def Beyond (sum v : Int) : Prop := wordLimit ≤ sum + v

theorem addWord_of_fits {sum v : Int} (hs : FitsSum sum) (hv : v.natAbs < 2 ^ 63) :
    Beyond sum v ∧ addWord sum v = .error .overflow ∨ ¬ Beyond sum v ∧ addWord sum v = .ok (sum + v) := by
  unfold addWord Beyond
  unfold FitsSum indexLimit at hs
  by_cases h : wordLimit ≤ sum + v
  · exact Or.inl ⟨h, if_neg (by omega)⟩
  · refine Or.inr ⟨h, if_pos ?_⟩
    unfold wordLimit at *
    omega

theorem toIndex_ne_overflow (field : Field) (v : Int) : toIndex field v ≠ .error .overflow := by
  unfold toIndex
  split_ifs <;> simp

theorem fitsSum_of_toIndex {field : Field} {v : Int} {n : Nat} (h : toIndex field v = .ok n) : FitsSum v := by
  unfold toIndex at h
  split_ifs at h with hv
  exact hv

/-- the sum of a source that is listed -/
def Lists (count : Nat) (v : Int) : Prop := FitsSum v ∧ v < count

theorem sourceIndex_cases (ext : Extent) (v : Int) :
    Lists ext.sources v ∧ sourceIndex ext v = .ok v.toNat ∨ ¬ Lists ext.sources v ∧ ∃ e, e ≠ .overflow ∧
      sourceIndex ext v = .error e := by
  unfold sourceIndex toIndex Lists FitsSum
  by_cases hv : 0 ≤ v ∧ v < indexLimit
  · rw [if_pos hv, ok_bind]
    by_cases hlt : v.toNat < ext.sources
    · exact Or.inl ⟨⟨hv, by omega⟩, if_pos hlt⟩
    · exact Or.inr ⟨fun h => hlt (by omega), _, by simp, if_neg hlt⟩
  · rw [if_neg hv]
    exact Or.inr ⟨fun h => hv h.1, _, by simp, rfl⟩

theorem nameIndex_ne_overflow (ext : Extent) (v : Int) : nameIndex ext v ≠ .error .overflow := by
  unfold nameIndex toIndex
  split_ifs
  · rw [ok_bind]
    split_ifs <;> simp
  · intro h
    cases h

theorem fitsSum_of_sourceIndex {ext : Extent} {v : Int} {n : Nat} (h : sourceIndex ext v = .ok n) : FitsSum v := by
  obtain ⟨i, hi, -⟩ := bind_eq_ok h
  exact fitsSum_of_toIndex hi

theorem fitsSum_of_nameIndex {ext : Extent} {v : Int} {n : Nat} (h : nameIndex ext v = .ok n) : FitsSum v := by
  obtain ⟨i, hi, -⟩ := bind_eq_ok h
  exact fitsSum_of_toIndex hi

theorem eq_add_of_addWord {a v w : Int} (h : addWord a v = .ok w) : w = a + v := by
  unfold addWord at h
  split_ifs at h
  cases h
  rfl

/-! ## One segment -/

theorem bind_eq_error_iff {α β : Type} {x : Except Fault α} {f : α → Except Fault β} {e : Fault} :
    (x >>= f) = .error e ↔ x = .error e ∨ ∃ a, x = .ok a ∧ f a = .error e := by
  cases x with
  | error e' =>
    constructor
    · intro h
      cases h
      exact Or.inl rfl
    · rintro (h | ⟨a, ha, -⟩)
      · cases h
        rfl
      · cases ha
  | ok a =>
    constructor
    · intro h
      exact Or.inr ⟨a, rfl, h⟩
    · rintro (h | ⟨a', ha, h⟩)
      · cases h
      · cases ha
        exact h

theorem readName_sum {ext : Extent} {sum : Int} (hs : FitsSum sum) {dn : Option Int} {n : Option Nat} {v : Int}
    (h : readName ext sum dn = .ok (n, v)) :
    FitsSum v := by
  cases dn with
  | none =>
    cases h
    exact hs
  | some d =>
    obtain ⟨name, -, h⟩ := bind_eq_ok h
    obtain ⟨i, hi, h⟩ := bind_eq_ok h
    cases h
    exact fitsSum_of_nameIndex hi

/-- **Sums behind an origin** that is read are indices: each was checked after its addition. -/
theorem readOrigin_sums {ext : Extent} {sums sums' : Sums} (hs : FitsSums sums) {ds dl dc : Int} {dn : Option Int}
    {o : Origin} (h : readOrigin ext sums ds dl dc dn = .ok (o, sums')) : FitsSums sums' := by
  have hr := readsOrigin h
  exact ⟨fitsSum_of_sourceIndex hr.source, fitsSum_of_toIndex hr.line, fitsSum_of_toIndex hr.column,
    readName_sum hs.name hr.name⟩

/-- a reader whose sums are indices -/
def Reader.Fits (r : Reader) : Prop := FitsSums r.sums ∧ FitsSum r.column

/-- **The step:** behind a segment that is read the sums are indices again. -/
theorem readSegment_sums {ext : Extent} {line : Nat} {r r' : Reader} (hr : r.Fits) {seg : List Char} {s : Segment}
    (h : readSegment ext line r seg = .ok (s, r')) : r'.Fits := by
  obtain ⟨values, hread⟩ := exists_readsSegment h
  refine ⟨?_, fitsSum_of_toIndex hread.column⟩
  obtain ⟨-, -, hsums⟩ | ⟨dg, ds, dl, dc, dn, o, -, -, ho⟩ := readFields_cases hread.origin
  · exact hsums ▸ hr.1
  · exact readOrigin_sums hr.1 ho

/-! ## Additions that leave the words -/

theorem readName_eq_overflow_iff {ext : Extent} {sum : Int} (hs : FitsSum sum) {dn : Option Int}
    (hdn : ∀ d ∈ dn, d.natAbs < 2 ^ 63) :
    readName ext sum dn = .error .overflow ↔ ∃ d ∈ dn, Beyond sum d := by
  cases dn with
  | none => simp [readName]
  | some d =>
    have hname : ∀ v, (nameIndex ext v >>= fun i => Except.ok (some i, v)) ≠ .error .overflow := by
      intro v h
      rcases bind_eq_error_iff.1 h with h | ⟨i, -, h⟩
      · exact nameIndex_ne_overflow ext v h
      · cases h
    simp only [Option.mem_some_iff, exists_eq_left', readName]
    obtain ⟨hbeyond, hadd⟩ | ⟨hbeyond, hadd⟩ := addWord_of_fits hs (hdn d rfl)
    · rw [hadd]
      exact ⟨fun _ => hbeyond, fun _ => rfl⟩
    · rw [hadd, ok_bind]
      exact ⟨fun h => absurd h (hname _), fun h => absurd h hbeyond⟩

/-- the numbers of an origin that are too much for the sums; the name's is added only if the source is listed -/
def BeyondOrigin (ext : Extent) (sums : Sums) (ds dl dc : Int) (dn : Option Int) : Prop :=
  Beyond sums.source ds ∨ Beyond sums.line dl ∨ Beyond sums.column dc ∨ Lists ext.sources (sums.source + ds) ∧
    ∃ d ∈ dn, Beyond sums.name d

theorem readOrigin_eq_overflow_iff {ext : Extent} {sums : Sums} (hs : FitsSums sums) {ds dl dc : Int} {dn : Option Int}
    (hds : ds.natAbs < 2 ^ 63) (hdl : dl.natAbs < 2 ^ 63) (hdc : dc.natAbs < 2 ^ 63)
    (hdn : ∀ d ∈ dn, d.natAbs < 2 ^ 63) :
    readOrigin ext sums ds dl dc dn = .error .overflow ↔ BeyondOrigin ext sums ds dl dc dn := by
  rw [readOrigin_eq, BeyondOrigin]
  obtain ⟨h1, e1⟩ | ⟨h1, e1⟩ := addWord_of_fits hs.source hds
  · rw [e1]
    exact ⟨fun _ => Or.inl h1, fun _ => rfl⟩
  obtain ⟨h2, e2⟩ | ⟨h2, e2⟩ := addWord_of_fits hs.line hdl
  · rw [e1, e2]
    exact ⟨fun _ => Or.inr (Or.inl h2), fun _ => rfl⟩
  obtain ⟨h3, e3⟩ | ⟨h3, e3⟩ := addWord_of_fits hs.column hdc
  · rw [e1, e2, e3]
    exact ⟨fun _ => Or.inr (Or.inr (Or.inl h3)), fun _ => rfl⟩
  rw [e1, e2, e3]
  simp only [ok_bind, h1, h2, h3, false_or]
  obtain ⟨hlists, hindex⟩ | ⟨hlists, e, he, hindex⟩ := sourceIndex_cases ext (sums.source + ds)
  · rw [hindex, ok_bind, bind_eq_error_iff, readName_eq_overflow_iff hs.name hdn]
    refine ⟨fun h => ⟨hlists, ?_⟩, fun h => Or.inl h.2⟩
    rcases h with h | ⟨named, -, h⟩
    · exact h
    -- behind the name nothing is added any more
    · rcases bind_eq_error_iff.1 h with h | ⟨li, -, h⟩
      · exact absurd h (toIndex_ne_overflow _ _)
      rcases bind_eq_error_iff.1 h with h | ⟨ci, -, h⟩
      · exact absurd h (toIndex_ne_overflow _ _)
      · cases h
  · rw [hindex]
    exact ⟨fun h => absurd (Except.error.inj h) he, fun h => absurd h.1 hlists⟩

/-- the numbers of a segment that are too much for a reader's sums -/
def Reader.Exceeded (ext : Extent) (r : Reader) : List Int → Prop
  | [] => False
  | [dg, ds, dl, dc] => Beyond r.column dg ∨ BeyondOrigin ext r.sums ds dl dc none
  | [dg, ds, dl, dc, dn] => Beyond r.column dg ∨ BeyondOrigin ext r.sums ds dl dc (some dn)
  | dg :: _ => Beyond r.column dg

theorem map_eq_error_iff {α β : Type} {x : Except Fault α} {f : α → β} {e : Fault} :
    x.map f = .error e ↔ x = .error e := by
  cases x <;> simp [Except.map]

theorem exceeded_iff {ext : Extent} {r : Reader} (hr : r.Fits) (seg : List Char) {dg : Int} {vs : List Int}
    (hvs : ∀ v ∈ vs, v.natAbs < 2 ^ 63) :
    r.Exceeded ext (dg :: vs) ↔ Beyond r.column dg ∨ readFields ext r.sums seg (dg :: vs) = .error .overflow := by
  match vs with
  | [] => simp [Reader.Exceeded, readFields]
  | [_] => simp [Reader.Exceeded, readFields]
  | [_, _] => simp [Reader.Exceeded, readFields]
  | [ds, dl, dc] =>
    simp only [List.forall_mem_cons] at hvs
    rw [Reader.Exceeded, readFields, map_eq_error_iff,
      readOrigin_eq_overflow_iff hr.1 hvs.1 hvs.2.1 hvs.2.2.1 (by simp)]
  | [ds, dl, dc, dn] =>
    simp only [List.forall_mem_cons] at hvs
    rw [Reader.Exceeded, readFields, map_eq_error_iff,
      readOrigin_eq_overflow_iff hr.1 hvs.1 hvs.2.1 hvs.2.2.1 fun d hd => Option.some.inj hd ▸ hvs.2.2.2.1]
  | _ :: _ :: _ :: _ :: _ :: _ => simp [Reader.Exceeded, readFields]

/-- **One segment leaves the words** exactly if its numbers are too much for the sums in front of it. -/
theorem readSegment_eq_overflow_iff {ext : Extent} {line : Nat} {r : Reader} (hr : r.Fits) {seg : List Char}
    (hseg : seg ≠ []) :
    readSegment ext line r seg = .error .overflow ↔ ∃ vs, Vlq.decode seg = .ok vs ∧ r.Exceeded ext vs := by
  rw [readSegment_eq]
  cases hvs : Vlq.decode seg with
  | error e => simp [Except.mapError, bind_eq_error_iff]
  | ok vs =>
    have hlt := Vlq.natAbs_lt_of_decode hvs
    obtain ⟨dg, vs, rfl⟩ := List.exists_cons_of_ne_nil (Vlq.ne_nil_of_decode hvs hseg)
    rw [List.forall_mem_cons] at hlt
    simp only [Except.mapError, ok_bind, List.headD_cons, Except.ok.injEq, exists_eq_left', exceeded_iff hr seg hlt.2]
    obtain ⟨hbeyond, hadd⟩ | ⟨hbeyond, hadd⟩ := addWord_of_fits hr.2 hlt.1
    · rw [hadd]
      exact ⟨fun _ => Or.inl hbeyond, fun _ => rfl⟩
    · rw [hadd, ok_bind, bind_eq_error_iff]
      simp only [hbeyond, false_or]
      refine ⟨fun h => h.elim id ?_, Or.inl⟩
      rintro ⟨read, -, h⟩
      rcases bind_eq_error_iff.1 h with h | ⟨ci, -, h⟩
      · exact absurd h (toIndex_ne_overflow _ _)
      · cases h

/-! ## Whole texts -/

/-- the segments of a line that are read, with the reader in front of each -/
inductive ReachedIn (ext : Extent) (line : Nat) : Reader → List (List Char) → Reader → List Char → Prop where
  | here (r : Reader) (seg : List Char) (segs : List (List Char)) : ReachedIn ext line r (seg :: segs) r seg
  | behind {r r' q : Reader} {seg part : List Char} {segs : List (List Char)} {s : Segment}
      (hread : readSegment ext line r seg = .ok (s, r')) (h : ReachedIn ext line r' segs q part) :
    ReachedIn ext line r (seg :: segs) q part

/-- the segments of lines that are read, with the reader in front of each: all before them was read without a fault -/
inductive ReachedFrom (ext : Extent) : Nat → Sums → List (List Char) → Nat → Reader → List Char → Prop where
  | here {line : Nat} {sums : Sums} {text : List Char} {texts : List (List Char)} {r : Reader} {seg : List Char}
      (hline : line < indexLimit) (h : ReachedIn ext line ⟨sums, 0⟩ (lineParts text) r seg) :
    ReachedFrom ext line sums (text :: texts) line r seg
  | onward {line l : Nat} {sums sums' : Sums} {text : List Char} {texts : List (List Char)} {r : Reader}
      {seg : List Char} {ss : List Segment} (hline : line < indexLimit)
      (hread : readLine ext line ⟨sums, 0⟩ (lineParts text) = .ok (ss, sums'))
      (h : ReachedFrom ext (line + 1) sums' texts l r seg) : ReachedFrom ext line sums (text :: texts) l r seg

/-- the segments of a mappings text that are read, with their line and the reader in front of each -/
def Reached (ext : Extent) (text : List Char) (line : Nat) (r : Reader) (seg : List Char) : Prop :=
  ReachedFrom ext 0 {} (text.splitOn ';') line r seg

theorem ReachedIn.fits {ext : Extent} {line : Nat} {r q : Reader} {segs : List (List Char)} {seg : List Char}
    (h : ReachedIn ext line r segs q seg) (hr : r.Fits) : q.Fits ∧ seg ∈ segs := by
  induction h with
  | here r seg segs => exact ⟨hr, List.mem_cons_self⟩
  | behind hread _ ih =>
    exact ⟨(ih (readSegment_sums hr hread)).1, List.mem_cons_of_mem _ (ih (readSegment_sums hr hread)).2⟩

theorem readLine_sums {ext : Extent} {line : Nat} {segs : List (List Char)} :
    ∀ {r : Reader} {ss : List Segment} {sums : Sums}, r.Fits → readLine ext line r segs = .ok (ss, sums) →
      FitsSums sums := by
  induction segs with
  | nil =>
    intro r ss sums hr h
    cases h
    exact hr.1
  | cons seg segs ih =>
    intro r ss sums hr h
    obtain ⟨⟨s, r'⟩, hs, h⟩ := bind_eq_ok h
    obtain ⟨⟨ss', sums'⟩, hss, h⟩ := bind_eq_ok h
    cases h
    exact ih (readSegment_sums hr hs) hss

theorem ReachedFrom.fits {ext : Extent} {line l : Nat} {sums : Sums} {texts : List (List Char)} {r : Reader}
    {seg : List Char} (h : ReachedFrom ext line sums texts l r seg) (hs : FitsSums sums) : r.Fits ∧ seg ≠ [] := by
  induction h with
  | here _ h =>
    obtain ⟨hr, hmem⟩ := h.fits ⟨hs, fitsSum_zero⟩
    exact ⟨hr, of_decide_eq_true (List.mem_filter.1 hmem).2⟩
  | onward _ hread _ ih => exact ih (readLine_sums ⟨hs, fitsSum_zero⟩ hread)

/-- **At every segment** that is read the sums are indices. -/
theorem Reached.fits {ext : Extent} {text : List Char} {line : Nat} {r : Reader} {seg : List Char}
    (h : Reached ext text line r seg) :
    r.Fits ∧ seg ≠ [] :=
  ReachedFrom.fits h fitsSums_zero

theorem readLine_eq_error_iff {ext : Extent} {line : Nat} {e : Fault} {segs : List (List Char)} :
    ∀ {r : Reader}, readLine ext line r segs = .error e ↔ ∃ q seg, ReachedIn ext line r segs q seg ∧
      readSegment ext line q seg = .error e := by
  induction segs with
  | nil =>
    intro r
    constructor
    · intro h
      cases h
    · rintro ⟨q, seg, h, -⟩
      cases h
  | cons part segs ih =>
    intro r
    rw [readLine, bind_eq_error_iff]
    constructor
    · rintro (h | ⟨⟨s, r'⟩, hread, h⟩)
      · exact ⟨r, part, .here _ _ _, h⟩
      · rcases bind_eq_error_iff.1 h with h | ⟨read, -, h⟩
        · obtain ⟨q, seg, hreached, hfault⟩ := ih.1 h
          exact ⟨q, seg, .behind hread hreached, hfault⟩
        · cases h
    · rintro ⟨q, seg, hreached, hfault⟩
      cases hreached with
      | here => exact Or.inl hfault
      | behind hread hreached => exact Or.inr ⟨_, hread, bind_eq_error_iff.2 (Or.inl (ih.2 ⟨q, seg, hreached, hfault⟩))⟩

/-- **The first fault** of lines: that of a segment that is read, unless there are too many lines. -/
theorem readLines_eq_error_iff {ext : Extent} {e : Fault} (he : e ≠ .tooManyLines) {texts : List (List Char)} :
    ∀ {line : Nat} {sums : Sums},
    readLines ext line sums texts = .error e ↔ ∃ l r seg, ReachedFrom ext line sums texts l r seg ∧
      readSegment ext l r seg = .error e := by
  induction texts with
  | nil =>
    intro line sums
    constructor
    · intro h
      cases h
    · rintro ⟨l, r, seg, h, -⟩
      cases h
  | cons text texts ih =>
    intro line sums
    rw [readLines]
    split_ifs with hline
    · constructor
      · intro h
        exact absurd (Except.error.inj h).symm he
      · rintro ⟨l, r, seg, h, -⟩
        cases h <;> omega
    · rw [← lineParts, bind_eq_error_iff]
      constructor
      · rintro (h | ⟨⟨ss, sums'⟩, hread, h⟩)
        · obtain ⟨q, seg, hreached, hfault⟩ := readLine_eq_error_iff.1 h
          exact ⟨line, q, seg, .here (Nat.lt_of_not_le hline) hreached, hfault⟩
        · rcases bind_eq_error_iff.1 h with h | ⟨more, -, h⟩
          · obtain ⟨l, r, seg, hreached, hfault⟩ := ih.1 h
            exact ⟨l, r, seg, .onward (Nat.lt_of_not_le hline) hread hreached, hfault⟩
          · cases h
      · rintro ⟨l, r, seg, hreached, hfault⟩
        cases hreached with
        | here _ h => exact Or.inl (readLine_eq_error_iff.2 ⟨r, seg, h, hfault⟩)
        | onward _ hread h => exact Or.inr ⟨_, hread, bind_eq_error_iff.2 (Or.inl (ih.2 ⟨l, r, seg, h, hfault⟩))⟩

theorem decode_eq_error_iff {ext : Extent} {text : List Char} {e : Fault} (he : e ≠ .tooManyLines) :
    decode ext text = .error e ↔ ∃ line r seg, Reached ext text line r seg ∧ readSegment ext line r seg = .error e := by
  rw [decode, map_eq_error_iff, readLines_eq_error_iff he]
  rfl

/-- **Sums of a text.** At every segment that is read there is a first number, the sums in front of it are indices, and
its numbers are less than 2^63 in size, so that no sum leaves the words downwards. Reading leaves them upwards exactly
if the numbers of such a segment bring a sum to 2^63; otherwise it gives segments or names a fault of the text. -/
theorem sums_of_text (ext : Extent) (text : List Char) :
    (∀ line r seg, Reached ext text line r seg → r.Fits ∧ ∀ vs, Vlq.decode seg = .ok vs → vs ≠ [] ∧
      ∀ v ∈ vs, v.natAbs < 2 ^ 63) ∧ (decode ext text = .error .overflow ↔
        ∃ line r seg vs, Reached ext text line r seg ∧ Vlq.decode seg = .ok vs ∧ r.Exceeded ext vs) := by
  constructor
  · intro line r seg hreached
    exact ⟨hreached.fits.1, fun vs hvs => ⟨Vlq.ne_nil_of_decode hvs hreached.fits.2, Vlq.natAbs_lt_of_decode hvs⟩⟩
  · rw [decode_eq_error_iff (by simp)]
    constructor
    · rintro ⟨line, r, seg, hreached, hfault⟩
      obtain ⟨vs, hvs, hexceeded⟩ := (readSegment_eq_overflow_iff hreached.fits.1 hreached.fits.2).1 hfault
      exact ⟨line, r, seg, vs, hreached, hvs, hexceeded⟩
    · rintro ⟨line, r, seg, vs, hreached, hvs, hexceeded⟩
      exact ⟨line, r, seg, hreached,
        (readSegment_eq_overflow_iff hreached.fits.1 hreached.fits.2).2 ⟨vs, hvs, hexceeded⟩⟩

/-- **A column overflows.** The second segment adds the largest number there is to a column of one. -/
theorem column_overflows : decode ⟨0, 0⟩ "C,+///////////P".toList = .error .overflow := by
  decide

end ClosurePipeline.Mappings
