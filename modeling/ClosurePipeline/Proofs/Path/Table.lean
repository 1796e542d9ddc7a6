/-
Tables keyed by paths. The order of paths is a strict total order on components, so a sorted table has at most one entry
for each place.

Results:
- `compare_eq_eq_iff`, `compare_lt_trans`, `compare_swap`: the order of paths;
- `get?_insert`, `get?_erase`: what a table holds after a change;
- `Sorted.insert`: inserting keeps a table sorted;
- `Sorted.get?_eq_some_iff`: in a sorted table every entry is found;
- `Sorted.mem_insert_iff`, `Sorted.mem_keys_insert_iff`, `Sorted.ext`: its entries and keys after an insertion, and that
  entries are all there is to it;
- `Overwriting.foldl_twice`: values set twice in a row are values set once, for every way to set one that keeps the
  known keys.
-/
import Mathlib.Tactic
import ClosurePipeline.Path.Table

namespace ClosurePipeline

/-! ## The order of paths -/

namespace Component

theorem compare_eq_eq_iff {a b : Component} : a.compare b = .eq ↔ a = b := by
  cases a <;> cases b <;> simp [compare]

theorem compare_swap (a b : Component) : (a.compare b).swap = b.compare a := by
  cases a with
  | name s =>
    cases b with
    | name t =>
      show (Ord.compare s t).swap = Ord.compare t s
      exact Std.OrientedCmp.eq_swap.symm
    | _ => rfl
  | _ => cases b <;> rfl

theorem compare_lt_trans {a b c : Component} (h1 : a.compare b = .lt) (h2 : b.compare c = .lt) : a.compare c = .lt := by
  cases a <;> cases b <;> cases c <;> simp only [compare, reduceCtorEq] at h1 h2 ⊢
  exact Std.TransCmp.lt_trans h1 h2

end Component

namespace Path

theorem compareComponents_eq_eq_iff {as bs : List Component} : compareComponents as bs = .eq ↔ as = bs := by
  induction as generalizing bs with
  | nil => cases bs <;> simp [compareComponents]
  | cons a as ih =>
    cases bs with
    | nil => simp [compareComponents]
    | cons b bs => simp [compareComponents, Ordering.then_eq_eq, Component.compare_eq_eq_iff, ih]

theorem compareComponents_swap (as bs : List Component) : (compareComponents as bs).swap = compareComponents bs as := by
  induction as generalizing bs with
  | nil => cases bs <;> rfl
  | cons a as ih =>
    cases bs with
    | nil => rfl
    | cons b bs => simp only [compareComponents, Ordering.swap_then, Component.compare_swap, ih]

theorem compareComponents_lt_trans {as bs cs : List Component} (h1 : compareComponents as bs = .lt)
    (h2 : compareComponents bs cs = .lt) : compareComponents as cs = .lt := by
  induction as generalizing bs cs with
  | nil =>
    cases bs <;> cases cs <;> simp [compareComponents] at h1 h2 ⊢
  | cons a as ih =>
    cases bs with
    | nil => simp [compareComponents] at h1
    | cons b bs =>
      cases cs with
      | nil => simp [compareComponents] at h2
      | cons c cs =>
        simp only [compareComponents, Ordering.then_eq_lt, Component.compare_eq_eq_iff] at h1 h2 ⊢
        rcases h1 with h1 | ⟨rfl, h1⟩
        · rcases h2 with h2 | ⟨rfl, -⟩
          · exact Or.inl (Component.compare_lt_trans h1 h2)
          · exact Or.inl h1
        · rcases h2 with h2 | ⟨rfl, h2⟩
          · exact Or.inl h2
          · exact Or.inr ⟨rfl, ih h1 h2⟩

theorem compare_eq_eq_iff {p q : Path} : p.compare q = .eq ↔ p.Same q := compareComponents_eq_eq_iff

theorem compare_swap (p q : Path) : (p.compare q).swap = q.compare p := compareComponents_swap _ _

theorem compare_lt_trans {p q r : Path} (h1 : p.compare q = .lt) (h2 : q.compare r = .lt) : p.compare r = .lt :=
  compareComponents_lt_trans h1 h2

theorem compare_congr_left {p q : Path} (h : p.Same q) (r : Path) : p.compare r = q.compare r := by
  unfold compare
  rw [h]

theorem compare_congr_right {p q : Path} (h : p.Same q) (r : Path) : r.compare p = r.compare q := by
  unfold compare
  rw [h]

theorem Same.refl (p : Path) : p.Same p := rfl

theorem Same.symm {p q : Path} (h : p.Same q) : q.Same p := Eq.symm h

theorem Same.trans {p q r : Path} (h1 : p.Same q) (h2 : q.Same r) : p.Same r := Eq.trans h1 h2

theorem not_same_of_compare_lt {p q : Path} (h : p.compare q = .lt) : ¬ p.Same q := by
  intro hs
  rw [compare_eq_eq_iff.2 hs] at h
  simp at h

end Path

/-! ## Tables -/

namespace PathTable

variable {α : Type}

theorem get?_eq (t : PathTable α) (k : Path) :
    t.get? k = (t.entries.find? fun e => decide (k.Same e.1)).map Prod.snd := rfl

theorem get?_congr (t : PathTable α) {k k' : Path} (h : k.Same k') : t.get? k = t.get? k' := by
  have : (fun e : Path × α => decide (k.Same e.1)) = fun e => decide (k'.Same e.1) := by
    funext e
    exact decide_eq_decide.2 ⟨h.symm.trans, h.trans⟩
  rw [get?_eq, get?_eq, this]

theorem find?_insertWith {merge : Path × α → Path × α} {k : Path} {v : α} (k' : Path) (es : List (Path × α))
    (hmerge : ∀ e, k.Same e.1 → k.Same (merge e).1 ∧ (merge e).2 = v) :
    ((insertWith merge k v es).find? fun e => decide (k'.Same e.1)).map Prod.snd =
      if k'.Same k then some v else (es.find? fun e => decide (k'.Same e.1)).map Prod.snd := by
  induction es with
  | nil => by_cases h : k'.Same k <;> simp [insertWith, h]
  | cons e es ih =>
    unfold insertWith
    split
    · by_cases h : k'.Same k <;> simp [h]
    · rename_i heq
      have hke : k.Same e.1 := Path.compare_eq_eq_iff.1 heq
      obtain ⟨h1, h2⟩ := hmerge e hke
      by_cases h : k'.Same k
      · simp [h, h.trans h1, h2]
      · have hm : ¬ k'.Same (merge e).1 := fun hs => h (hs.trans h1.symm)
        have he : ¬ k'.Same e.1 := fun hs => h (hs.trans hke.symm)
        simp [h, hm, he]
    · rename_i hgt
      by_cases he : k'.Same e.1
      · have h : ¬ k'.Same k := by
          intro hs
          rw [Path.compare_congr_left (hs.symm.trans he), Path.compare_eq_eq_iff.2 (Path.Same.refl _)] at hgt
          simp at hgt
        simp [he, h]
      · simp only [List.find?_cons, he, decide_false]
        exact ih

/-- what a table holds after an insertion -/
theorem get?_insert (t : PathTable α) (k k' : Path) (v : α) :
    (t.insert k v).get? k' = if k'.Same k then some v else t.get? k' :=
  find?_insertWith k' t.entries fun _ he => ⟨he, rfl⟩

/-- what a table holds after a removal -/
theorem get?_erase (t : PathTable α) (k k' : Path) : (t.erase k).get? k' = if k'.Same k then none else t.get? k' := by
  rw [get?_eq, get?_eq, erase, List.find?_filter]
  by_cases h : k'.Same k
  · have hnone : t.entries.find? (fun e => !decide (k.Same e.1) && decide (k'.Same e.1)) = none := by
      rw [List.find?_eq_none]
      intro e _ hc
      simp only [Bool.and_eq_true, Bool.not_eq_true', decide_eq_false_iff_not, decide_eq_true_eq] at hc
      exact hc.1 (h.symm.trans hc.2)
    simp [h, hnone]
  · have hsame : (fun e : Path × α => !decide (k.Same e.1) && decide (k'.Same e.1)) =
        fun e => decide (k'.Same e.1) := by
      funext e
      by_cases he : k'.Same e.1
      · have : ¬ k.Same e.1 := fun hs => h (he.trans hs.symm)
        simp [he, this]
      · simp [he]
    simp [h, hsame]

/-- keys in order, each place once -/
def Sorted (t : PathTable α) : Prop := t.entries.Pairwise fun a b => a.1.compare b.1 = .lt

theorem mem_insertWith {merge : Path × α → Path × α} {k : Path} {v : α} {es : List (Path × α)} {e : Path × α}
    (h : e ∈ insertWith merge k v es) : e = (k, v) ∨ e ∈ es ∨ ∃ d ∈ es, k.Same d.1 ∧ e = merge d := by
  induction es with
  | nil => exact Or.inl (by simpa [insertWith] using h)
  | cons d es ih =>
    unfold insertWith at h
    split at h
    · rcases List.mem_cons.1 h with h | h
      · exact Or.inl h
      · exact Or.inr (Or.inl h)
    · rename_i heq
      rcases List.mem_cons.1 h with h | h
      · exact Or.inr (Or.inr ⟨d, List.mem_cons_self, Path.compare_eq_eq_iff.1 heq, h⟩)
      · exact Or.inr (Or.inl (List.mem_cons_of_mem _ h))
    · rcases List.mem_cons.1 h with rfl | h
      · exact Or.inr (Or.inl List.mem_cons_self)
      · rcases ih h with h | h | ⟨c, hc, h⟩
        · exact Or.inl h
        · exact Or.inr (Or.inl (List.mem_cons_of_mem _ h))
        · exact Or.inr (Or.inr ⟨c, List.mem_cons_of_mem _ hc, h⟩)

theorem pairwise_insertWith {merge : Path × α → Path × α} {k : Path} {v : α} {es : List (Path × α)}
    (hs : es.Pairwise fun a b => a.1.compare b.1 = .lt) (hmerge : ∀ e, k.Same e.1 → k.Same (merge e).1) :
    (insertWith merge k v es).Pairwise fun a b => a.1.compare b.1 = .lt := by
  induction es with
  | nil => simp [insertWith]
  | cons e es ih =>
    obtain ⟨h1, h2⟩ := List.pairwise_cons.1 hs
    unfold insertWith
    split
    · rename_i hlt
      refine List.pairwise_cons.2 ⟨fun d hd => ?_, hs⟩
      rcases List.mem_cons.1 hd with rfl | hd
      · exact hlt
      · exact Path.compare_lt_trans hlt (h1 d hd)
    · rename_i heq
      have hke : k.Same e.1 := Path.compare_eq_eq_iff.1 heq
      refine List.pairwise_cons.2 ⟨fun d hd => ?_, h2⟩
      rw [Path.compare_congr_left ((hmerge e hke).symm.trans hke)]
      exact h1 d hd
    · rename_i hgt
      have hek : e.1.compare k = .lt := by rw [← Path.compare_swap, hgt]; rfl
      refine List.pairwise_cons.2 ⟨fun d hd => ?_, ih h2⟩
      rcases mem_insertWith hd with rfl | hd | ⟨c, hc, hkc, rfl⟩
      · exact hek
      · exact h1 d hd
      · rw [Path.compare_congr_right ((hmerge c hkc).symm.trans hkc)]
        exact h1 c hc

theorem Sorted.insert {t : PathTable α} (h : t.Sorted) (k : Path) (v : α) : (t.insert k v).Sorted :=
  pairwise_insertWith h fun _ he => he

/-- the table of a list of pairs has pairs of the list, in order -/
theorem ofList_spec (es : List (Path × α)) : (ofList es).Sorted ∧ ∀ e ∈ (ofList es).entries, e ∈ es := by
  have hfold : ∀ (es t seen : List (Path × α)), (∀ e ∈ es, e ∈ seen) → t.Pairwise (fun a b => a.1.compare b.1 = .lt) →
      (∀ e ∈ t, e ∈ seen) →
      (es.foldl (fun t e => insertWith (fun _ => e) e.1 e.2 t) t).Pairwise (fun a b => a.1.compare b.1 = .lt) ∧
        ∀ e ∈ es.foldl (fun t e => insertWith (fun _ => e) e.1 e.2 t) t, e ∈ seen := by
    intro es
    induction es with
    | nil => intro t seen _ hs ht; exact ⟨hs, ht⟩
    | cons d es ih =>
      intro t seen hes hs ht
      refine ih _ seen (fun e he => hes e (List.mem_cons_of_mem _ he))
        (pairwise_insertWith hs fun _ _ => Path.Same.refl _) fun e he => ?_
      rcases mem_insertWith he with rfl | he | ⟨_, _, _, rfl⟩
      · exact hes d List.mem_cons_self
      · exact ht e he
      · exact hes _ List.mem_cons_self
  exact hfold es [] es (fun _ he => he) List.Pairwise.nil (by simp)

theorem mem_values_insert {t : PathTable α} {k : Path} {v w : α} (h : w ∈ (t.insert k v).values) :
    w = v ∨ w ∈ t.values := by
  obtain ⟨e, he, rfl⟩ := List.mem_map.1 h
  rcases mem_insertWith he with rfl | he | ⟨_, _, _, rfl⟩
  · exact Or.inl rfl
  · exact Or.inr (List.mem_map_of_mem he)
  · exact Or.inl rfl

/-- each place has one entry -/
def Distinct (t : PathTable α) : Prop := t.entries.Pairwise fun a b => ¬ a.1.Same b.1

theorem Sorted.distinct {t : PathTable α} (h : t.Sorted) : t.Distinct := h.imp Path.not_same_of_compare_lt

theorem Distinct.get?_eq_some_iff {t : PathTable α} (h : t.Distinct) {k : Path} {v : α} :
    t.get? k = some v ↔ ∃ k', (k', v) ∈ t.entries ∧ k.Same k' := by
  rw [get?_eq]
  constructor
  · intro hf
    obtain ⟨e, he, rfl⟩ := Option.map_eq_some_iff.1 hf
    exact ⟨e.1, List.mem_of_find?_eq_some he, by simpa using List.find?_some he⟩
  · rintro ⟨k', hmem, hs⟩
    unfold Distinct at h
    generalize t.entries = es at h hmem
    induction es with
    | nil => simp at hmem
    | cons e es ih =>
      obtain ⟨h1, h2⟩ := List.pairwise_cons.1 h
      rcases List.mem_cons.1 hmem with rfl | hmem
      · simp [hs]
      · have hne : ¬ k.Same e.1 := fun hk => h1 _ hmem (hk.symm.trans hs)
        simp only [List.find?_cons, hne, decide_false]
        exact ih h2 hmem

/-- **In a sorted table every entry is found.** -/
theorem Sorted.get?_eq_some_iff {t : PathTable α} (h : t.Sorted) {k : Path} {v : α} :
    t.get? k = some v ↔ ∃ k', (k', v) ∈ t.entries ∧ k.Same k' := h.distinct.get?_eq_some_iff

/-- two entries for one place are one entry -/
theorem Sorted.eq_of_same {t : PathTable α} (h : t.Sorted) {a b : Path × α} (ha : a ∈ t.entries) (hb : b ∈ t.entries)
    (hs : a.1.Same b.1) :
    a = b := by
  have hdistinct : t.entries.Pairwise fun a b => ¬ a.1.Same b.1 := h.distinct
  have : Std.Symm fun a b : Path × α => ¬ a.1.Same b.1 := ⟨fun _ _ hn hc => hn hc.symm⟩
  by_contra hne
  exact hdistinct.forall ha hb hne hs

/-- the entries after an insertion, if a key that is there is spelled like the new one -/
theorem Sorted.mem_insert_iff {t : PathTable α} (h : t.Sorted) {k : Path} (hk : ∀ e ∈ t.entries, k.Same e.1 → e.1 = k)
    (v : α) {e : Path × α} :
    e ∈ (t.insert k v).entries ↔ e = (k, v) ∨ (e ∈ t.entries ∧ e.1 ≠ k) := by
  have hcases : ∀ {d : Path × α}, d ∈ (t.insert k v).entries → d = (k, v) ∨ d ∈ t.entries := by
    intro d hd
    rcases mem_insertWith hd with hd | hd | ⟨c, hc, hsame, rfl⟩
    · exact Or.inl hd
    · exact Or.inr hd
    · exact Or.inl (by rw [hk c hc hsame])
  have hget := fun k' v' => (h.insert k v).get?_eq_some_iff (k := k') (v := v')
  constructor
  · intro he
    rcases hcases he with he' | he'
    · exact Or.inl he'
    · by_cases hek : e.1 = k
      · have hsome := (hget k e.2).2 ⟨e.1, he, hek ▸ Path.Same.refl _⟩
        rw [get?_insert, if_pos (Path.Same.refl _)] at hsome
        exact Or.inl (Prod.ext hek (Option.some.inj hsome).symm)
      · exact Or.inr ⟨he', hek⟩
  · rintro (rfl | ⟨he, hek⟩)
    · obtain ⟨k', hmem, hsame⟩ := (hget k v).1 (by rw [get?_insert, if_pos (Path.Same.refl _)])
      rcases hcases hmem with heq | hold
      · exact heq ▸ hmem
      · have hspelled : k' = k := hk _ hold hsame
        rwa [hspelled] at hmem
    · have hne : ¬ e.1.Same k := fun hs => hek (hk e he hs.symm)
      obtain ⟨k', hmem, hsame⟩ :=
        (hget e.1 e.2).1 (by rw [get?_insert, if_neg hne]; exact h.get?_eq_some_iff.2 ⟨e.1, he, Path.Same.refl _⟩)
      rcases hcases hmem with heq | hold
      · have hspelled : k' = k := congrArg Prod.fst heq
        exact absurd (hspelled ▸ hsame) hne
      · rwa [← h.eq_of_same he hold hsame] at hmem

theorem Sorted.mem_keys_insert_iff {t : PathTable α} (h : t.Sorted) {k : Path}
    (hk : ∀ e ∈ t.entries, k.Same e.1 → e.1 = k) (v : α) {p : Path} :
    p ∈ (t.insert k v).keys ↔ p = k ∨ p ∈ t.keys := by
  simp only [keys, List.mem_map, h.mem_insert_iff hk]
  constructor
  · rintro ⟨e, rfl | ⟨he, -⟩, rfl⟩
    · exact Or.inl rfl
    · exact Or.inr ⟨e, he, rfl⟩
  · rintro (rfl | ⟨e, he, rfl⟩)
    · exact ⟨_, Or.inl rfl, rfl⟩
    · by_cases hek : e.1 = k
      · exact ⟨_, Or.inl rfl, hek.symm⟩
      · exact ⟨e, Or.inr ⟨he, hek⟩, rfl⟩

/-- **Sorted tables with the same entries are the same.** -/
theorem Sorted.ext {s t : PathTable α} (hs : s.Sorted) (ht : t.Sorted) (h : ∀ e, e ∈ s.entries ↔ e ∈ t.entries) :
    s = t := by
  have hirrefl : ∀ {a b : Path × α}, a.1.compare b.1 = .lt → a ≠ b :=
    fun hlt he => Path.not_same_of_compare_lt hlt (he ▸ Path.Same.refl _)
  have hperm : s.entries.Perm t.entries := (List.perm_ext_iff_of_nodup (hs.imp hirrefl) (ht.imp hirrefl)).2 h
  have hentries : s.entries = t.entries := by
    refine hperm.eq_of_pairwise (fun a b _ _ hab hba => ?_) hs ht
    exact absurd (Path.Same.refl _) (Path.not_same_of_compare_lt (Path.compare_lt_trans hab hba))
  obtain ⟨es⟩ := s
  obtain ⟨es'⟩ := t
  exact congrArg PathTable.mk hentries

/-! ## Setting values twice -/

theorem get?_cons (e : Path × α) (es : List (Path × α)) (k : Path) :
    (⟨e :: es⟩ : PathTable α).get? k = if k.Same e.1 then some e.2 else (⟨es⟩ : PathTable α).get? k := by
  rw [get?_eq, get?_eq, List.find?_cons]
  by_cases h : k.Same e.1 <;> simp [h]

/-- what a table holds after a change of one value -/
theorem get?_modify (t : PathTable α) (k k' : Path) (f : α → α) :
    (t.modify k f).get? k' = if k'.Same k then (t.get? k').map f else t.get? k' := by
  obtain ⟨es⟩ := t
  induction es with
  | nil => split_ifs <;> rfl
  | cons e es ih =>
    have hcons : (⟨e :: es⟩ : PathTable α).modify k f =
        ⟨(if k.Same e.1 then (e.1, f e.2) else e) :: ((⟨es⟩ : PathTable α).modify k f).entries⟩ := rfl
    have hfirst : (if k.Same e.1 then (e.1, f e.2) else e).1 = e.1 := by split_ifs <;> rfl
    rw [hcons, get?_cons, get?_cons, hfirst, show (⟨((⟨es⟩ : PathTable α).modify k f).entries⟩ : PathTable α) =
      (⟨es⟩ : PathTable α).modify k f from rfl, ih]
    by_cases h : k'.Same e.1
    · rw [if_pos h, if_pos h]
      by_cases hk : k'.Same k
      · rw [if_pos hk, if_pos (hk.symm.trans h)]
        rfl
      · rw [if_neg hk, if_neg fun hc => hk (h.trans hc.symm)]
    · rw [if_neg h, if_neg h]

theorem keys_modify (t : PathTable α) (k : Path) (f : α → α) : (t.modify k f).keys = t.keys := by
  rw [modify, keys, keys, List.map_map]
  refine List.map_congr_left fun e _ => ?_
  rw [Function.comp_apply]
  split_ifs <;> rfl

theorem get?_eq_none_iff {t : PathTable α} {k : Path} : t.get? k = none ↔ ∀ e ∈ t.entries, ¬ k.Same e.1 := by
  simp [get?_eq, List.find?_eq_none]

/-- a table is its keys, in order, and their values -/
theorem Distinct.ext {s t : PathTable α} (hs : s.Distinct) (hk : s.keys = t.keys) (hv : ∀ k, s.get? k = t.get? k) :
    s = t := by
  obtain ⟨es⟩ := s
  obtain ⟨es'⟩ := t
  congr 1
  induction es generalizing es' with
  | nil => exact (List.map_eq_nil_iff.1 hk.symm).symm
  | cons e es ih =>
    obtain ⟨hhead, htail⟩ := List.pairwise_cons.1 hs
    cases es' with
    | nil => cases hk
    | cons d ds =>
      obtain ⟨hkey, hkeys⟩ := List.cons.inj hk
      have hkey : e.1 = d.1 := hkey
      have hvalue := hv e.1
      rw [get?_cons, get?_cons, if_pos (Path.Same.refl _), if_pos (hkey ▸ Path.Same.refl _)] at hvalue
      rw [show e = d from Prod.ext hkey (Option.some.inj hvalue), ih htail ds hkeys fun k => ?_]
      by_cases hk' : k.Same e.1
      · -- the first key is not among the others
        have hnone : ∀ ks : List (Path × α), ks.map Prod.fst = es.map Prod.fst →
            (⟨ks⟩ : PathTable α).get? k = none := by
          intro ks hks
          refine get?_eq_none_iff.2 fun x hx hc => ?_
          have hmem : x.1 ∈ es.map Prod.fst := hks ▸ List.mem_map_of_mem hx
          obtain ⟨y, hy, hyx⟩ := List.mem_map.1 hmem
          exact hhead y hy (hk'.symm.trans (hyx ▸ hc))
        rw [hnone es rfl, hnone ds hkeys.symm]
      · have := hv k
        rwa [get?_cons, get?_cons, if_neg hk', if_neg (hkey ▸ hk')] at this

/-- a way to set values, for tables of some form: it writes over a value that is there and keeps its key -/
structure Overwriting (form : PathTable α → Prop) (set : PathTable α → Path × α → PathTable α) : Prop where
  distinct : ∀ t, form t → t.Distinct
  keeps : ∀ t e, form t → form (set t e)
  get? : ∀ t e k, (set t e).get? k = if k.Same e.1 then some e.2 else t.get? k
  keys : ∀ t e, form t → (t.get? e.1).isSome = true → (set t e).keys = t.keys

namespace Overwriting

variable {form : PathTable α → Prop} {set : PathTable α → Path × α → PathTable α}

theorem form_foldl (h : Overwriting form set) (es : List (Path × α)) :
    ∀ {t : PathTable α}, form t → form (es.foldl set t) := by
  induction es with
  | nil => intro t ht; exact ht
  | cons e es ih => intro t ht; exact ih (h.keeps t e ht)

theorem isSome_foldl (h : Overwriting form set) (es : List (Path × α)) : ∀ {t : PathTable α} {k : Path},
    (t.get? k).isSome = true ∨ (∃ e ∈ es, k.Same e.1) → ((es.foldl set t).get? k).isSome = true := by
  induction es with
  | nil => intro t k hk; exact hk.resolve_right (by simp)
  | cons e es ih =>
    intro t k hk
    rw [List.foldl_cons]
    apply ih
    rw [h.get?]
    by_cases hs : k.Same e.1
    · exact Or.inl (by rw [if_pos hs]; rfl)
    · rw [if_neg hs]
      refine hk.imp id ?_
      rintro ⟨d, hd, hkd⟩
      exact ⟨d, (List.mem_cons.1 hd).resolve_left fun hde => hs (hde ▸ hkd), hkd⟩

theorem keys_foldl (h : Overwriting form set) (es : List (Path × α)) : ∀ {t : PathTable α}, form t →
    (∀ e ∈ es, (t.get? e.1).isSome = true) → (es.foldl set t).keys = t.keys := by
  induction es with
  | nil => intro t _ _; rfl
  | cons e es ih =>
    intro t ht hknown
    have hlater : ∀ d ∈ es, ((set t e).get? d.1).isSome = true := by
      intro d hd
      rw [h.get?]
      split_ifs
      · rfl
      · exact hknown d (List.mem_cons_of_mem _ hd)
    rw [List.foldl_cons, ih (h.keeps t e ht) hlater, h.keys t e ht (hknown e List.mem_cons_self)]

/-- a key that is set has a value that was set for it -/
theorem exists_mem_of_foldl (h : Overwriting form set) (es : List (Path × α)) (t : PathTable α) {k : Path}
    (hk : ∃ e ∈ es, k.Same e.1) :
    ∃ e ∈ es, k.Same e.1 ∧ (es.foldl set t).get? k = some e.2 := by
  induction es using List.reverseRecOn with
  | nil => simp at hk
  | append_singleton es e ih =>
    rw [List.foldl_concat, h.get?]
    by_cases hs : k.Same e.1
    · exact ⟨e, by simp, hs, if_pos hs⟩
    · obtain ⟨d, hd, hkd⟩ := hk
      have hd' : d ∈ es := (List.mem_append.1 hd).resolve_right fun hde => hs (List.mem_singleton.1 hde ▸ hkd)
      obtain ⟨x, hx, hkx, hget⟩ := ih ⟨d, hd', hkd⟩
      rw [if_neg hs]
      exact ⟨x, List.mem_append_left _ hx, hkx, hget⟩

/-- the last value that is set for a key is there -/
theorem get?_foldl_of_last (h : Overwriting form set) (before : List (Path × α)) (k : Path) (v : α)
    {after : List (Path × α)} (hlater : ∀ d ∈ after, ¬ k.Same d.1) (t : PathTable α) :
    ((before ++ (k, v) :: after).foldl set t).get? k = some v := by
  rw [List.foldl_append, List.foldl_cons]
  have hkept : ∀ (ds : List (Path × α)), (∀ d ∈ ds, ¬ k.Same d.1) → ∀ t :
      PathTable α, (ds.foldl set t).get? k = t.get? k := by
    intro ds
    induction ds with
    | nil => intro _ t; rfl
    | cons d ds ih =>
      intro hds t
      rw [List.foldl_cons, ih (fun x hx => hds x (List.mem_cons_of_mem _ hx)), h.get?,
        if_neg (hds d List.mem_cons_self)]
  rw [hkept after hlater, h.get?, if_pos (Path.Same.refl _)]

theorem exists_last (h : Overwriting form set) (k : Path) (es : List (Path × α)) :
    ∃ last : Option α, ∀ t, (es.foldl set t).get? k = last.or (t.get? k) := by
  induction es with
  | nil => exact ⟨none, fun _ => rfl⟩
  | cons e es ih =>
    obtain ⟨last, hlast⟩ := ih
    by_cases hs : k.Same e.1
    · refine ⟨last.or (some e.2), fun t => ?_⟩
      rw [List.foldl_cons, hlast, h.get?, if_pos hs]
      cases last <;> rfl
    · refine ⟨last, fun t => ?_⟩
      rw [List.foldl_cons, hlast, h.get?, if_neg hs]

/-- a value set changes nothing exactly if it is there -/
theorem eq_self_iff (h : Overwriting form set) {t : PathTable α} (ht : form t) (e : Path × α) :
    set t e = t ↔ t.get? e.1 = some e.2 := by
  constructor
  · intro heq
    rw [← heq, h.get?, if_pos (Path.Same.refl _)]
  · intro hget
    refine (h.distinct _ (h.keeps t e ht)).ext (h.keys t e ht (by rw [hget]; rfl)) fun k => ?_
    rw [h.get?]
    split_ifs with hs
    · rw [t.get?_congr hs, hget]
    · rfl

/-- **Values set twice in a row are values set once.** -/
theorem foldl_twice (h : Overwriting form set) (es : List (Path × α)) {t : PathTable α} (ht : form t) :
    es.foldl set (es.foldl set t) = es.foldl set t := by
  have honce := h.form_foldl es ht
  have hkeys : (es.foldl set (es.foldl set t)).keys = (es.foldl set t).keys :=
    h.keys_foldl es honce fun e he => h.isSome_foldl es (Or.inr ⟨e, he, Path.Same.refl _⟩)
  refine ((h.distinct _ honce).ext hkeys.symm fun k => ?_).symm
  obtain ⟨last, hlast⟩ := h.exists_last k es
  rw [hlast (es.foldl set t), hlast t]
  cases last <;> rfl

end Overwriting

theorem keys_insertWith {k k' : Path} {v w : α} (hs : k.Same k') (es : List (Path × α)) :
    es.Pairwise (fun a b => a.1.compare b.1 = .lt) →
    (k', w) ∈ es → (insertWith (fun e => (e.1, v)) k v es).map Prod.fst = es.map Prod.fst := by
  induction es with
  | nil => intro _ hmem; cases hmem
  | cons e es ih =>
    intro hsorted hmem
    obtain ⟨h1, h2⟩ := List.pairwise_cons.1 hsorted
    unfold insertWith
    split
    · -- a key in front of the first one is not known
      rename_i hlt
      rcases List.mem_cons.1 hmem with rfl | hmem
      · exact absurd hs (Path.not_same_of_compare_lt hlt)
      · have hlater : e.1.compare k' = .lt := h1 (k', w) hmem
        exact absurd hs (Path.not_same_of_compare_lt (Path.compare_lt_trans hlt hlater))
    · rfl
    · rename_i hgt
      rcases List.mem_cons.1 hmem with rfl | hmem
      · rw [Path.compare_eq_eq_iff.2 hs] at hgt
        cases hgt
      · rw [List.map_cons, List.map_cons, ih h2 hmem]

theorem keys_insert_congr (t : PathTable α) (k : Path) (v w : α) : (t.insert k v).keys = (t.insert k w).keys := by
  change (insertWith _ k v t.entries).map Prod.fst = (insertWith _ k w t.entries).map Prod.fst
  induction t.entries with
  | nil => rfl
  | cons e es ih =>
    unfold insertWith
    split
    · rfl
    · rfl
    · rw [List.map_cons, List.map_cons, ih]

/-- a value set and changed is the changed value set -/
theorem Sorted.modify_insert {t : PathTable α} (h : t.Sorted) (k : Path) (v : α) (f : α → α) :
    (t.insert k v).modify k f = t.insert k (f v) := by
  refine ((h.insert k (f v)).distinct.ext ?_ fun k' => ?_).symm
  · rw [keys_modify, keys_insert_congr t k (f v) v]
  · rw [get?_modify, get?_insert, get?_insert]
    split_ifs <;> rfl

/-- insertion into a sorted table writes over values -/
theorem overwriting_insert : Overwriting Sorted fun (t : PathTable α) e => t.insert e.1 e.2 where
  distinct _ := Sorted.distinct
  keeps _ e ht := ht.insert e.1 e.2
  get? t e k := get?_insert t e.1 k e.2
  keys t e ht hk := by
    obtain ⟨w, hw⟩ := Option.isSome_iff_exists.1 hk
    obtain ⟨k', hmem, hs⟩ := ht.get?_eq_some_iff.1 hw
    exact keys_insertWith (v := e.2) hs t.entries ht hmem

end PathTable

end ClosurePipeline
