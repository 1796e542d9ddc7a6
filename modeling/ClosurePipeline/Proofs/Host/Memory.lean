/-
What a host in memory can lead to. Files are looked up by their normal path, so a search over the host meets only normal
paths of files that are there (`mem_knownFiles`) and, apart from the name it starts with, only names that stand in their
texts (`mem_knownNames`). Both are finitely many, and `Host.pairBound` covers the pairs (`length_pairs_le`).
-/
import Mathlib.Tactic
import ClosurePipeline.Host.Memory
import ClosurePipeline.Proofs.Module.Names
import ClosurePipeline.Proofs.Search

namespace ClosurePipeline.MemoryHost

variable {h : MemoryHost}

/-! ## Looking up -/

theorem canonical_eq (h : MemoryHost) (p : Path) : Host.canonical h p = p.normalize := rfl

theorem read?_eq (h : MemoryHost) (p : Path) : Host.read? h p = h.table.get? p.normalize := rfl

theorem read?_congr (h : MemoryHost) {p q : Path} (e : p.normalize = q.normalize) :
    Host.read? h p = Host.read? h q := by
  rw [read?_eq, read?_eq, e]

theorem read?_canonical (h : MemoryHost) (p : Path) : Host.read? h (Host.canonical h p) = Host.read? h p :=
  read?_congr h p.normalize_normalize

theorem fileExists_iff {p : Path} : Host.fileExists h p = true ↔ ∃ k ∈ Host.files h, p.normalize.Same k := by
  change (h.table.entry? p.normalize).isSome = true ↔ ∃ k ∈ h.table.keys, p.normalize.Same k
  simp [PathTable.entry?, PathTable.keys]

theorem exists_key_of_read? {p : Path} {text : String} (hr : Host.read? h p = some text) :
    ∃ k ∈ Host.files h, Host.read? h k = some text := by
  obtain ⟨e, he, -⟩ := Option.map_eq_some_iff.1 hr
  have hsame : p.normalize.Same e.1 := by simpa using List.find?_some he
  refine ⟨e.1, List.mem_map_of_mem (List.mem_of_find?_eq_some he), ?_⟩
  rw [← hr]
  refine read?_congr h ?_
  rw [← hsame.normalize_eq, Path.normalize_normalize]

/-- a file written is there, and the others are as they were -/
theorem read?_write (h : MemoryHost) (p q : Path) (text : String) :
    Host.read? (h.write p text) q = if q.normalize = p.normalize then some text else Host.read? h q := by
  change (h.table.insert p.normalize text).get? q.normalize = _
  rw [PathTable.get?_insert, read?_eq]
  by_cases hs : q.normalize = p.normalize
  · rw [if_pos hs, hs, if_pos (Path.Same.refl _)]
  · rw [if_neg hs, if_neg fun hc => hs (Path.eq_of_same_of_normal q.normalize_normalize p.normalize_normalize hc)]

/-! ## Resolution -/

theorem plain_of_mem_indexFiles {n : String} (hn : n ∈ Host.indexFiles) : (Component.name n).Plain := by
  rw [Component.plain_name_iff]
  simp only [Host.indexFiles, List.mem_cons, List.not_mem_nil, or_false] at hn
  rcases hn with rfl | rfl | rfl <;> decide

/-- the source file of a normal path is a normal path of a file that is there -/
theorem sourceFile?_normal {path file : Path} (hp : path.normalize = path) (hs : Host.sourceFile? h path = some file) :
    file.normalize = file ∧ Host.fileExists h file = true := by
  unfold Host.sourceFile? at hs
  split_ifs at hs with hdir hex
  · have hexists := List.find?_some hs
    obtain ⟨n, hn, rfl⟩ := List.mem_map.1 (List.mem_of_find?_eq_some hs)
    exact ⟨Path.normalize_join_name hp (plain_of_mem_indexFiles hn), hexists⟩
  · cases hs
    exact ⟨hp, hex⟩

/-- the file a specifier names is a normal path of a file that is there -/
theorem resolveDependency?_normal {specifier : String} {file target : Path}
    (hr : Host.resolveDependency? h specifier file = some target) :
    target.normalize = target ∧ Host.fileExists h target = true := by
  obtain ⟨resolved, -, hr⟩ := Option.bind_eq_some_iff.1 hr
  obtain ⟨source, hs, hr⟩ := Option.bind_eq_some_iff.1 hr
  cases hr
  have hexists : Host.fileExists h source = true := by
    unfold Host.sourceFile? at hs
    split_ifs at hs with hdir hex
    · exact List.find?_some hs
    · cases hs
      exact hex
  refine ⟨source.normalize_normalize, ?_⟩
  rw [fileExists_iff] at hexists ⊢
  rw [canonical_eq, Path.normalize_normalize]
  exact hexists

/-! ## Finitely many pairs -/

/-- the normal paths of the files there are -/
def knownFiles (h : MemoryHost) : List Path := (Host.files h).map Path.normalize

/-- the names in the texts of the files there are -/
def knownNames (h : MemoryHost) : List String := (Host.files h).flatMap fun p => textForms ((Host.read? h p).getD "")

theorem mem_knownFiles {file : Path} (hn : file.normalize = file) (he : Host.fileExists h file = true) :
    file ∈ h.knownFiles := by
  obtain ⟨k, hk, hsame⟩ := fileExists_iff.1 he
  refine List.mem_map.2 ⟨k, hk, ?_⟩
  rw [← hsame.normalize_eq, hn, hn]

theorem normal_of_mem_knownFiles {file : Path} (hf : file ∈ h.knownFiles) : file.normalize = file := by
  obtain ⟨k, -, rfl⟩ := List.mem_map.1 hf
  exact k.normalize_normalize

theorem mem_knownNames {file : Path} {text s : String} (hr : Host.read? h file = some text)
    (hs : Named (Lexer.tokenize text.toList) s) :
    ∀ n ∈ nameForms s, n ∈ h.knownNames := by
  intro n hn
  obtain ⟨k, hk, hread⟩ := exists_key_of_read? hr
  refine List.mem_flatMap.2 ⟨k, hk, ?_⟩
  rw [hread]
  exact mem_textForms_of_named hs n hn

theorem foldl_add_length {α : Type} (f : α → String) (xs : List α) : ∀ n : Nat,
    n + (xs.flatMap fun x => textForms (f x)).length ≤ xs.foldl (fun n x => n + (f x).length) n := by
  induction xs with
  | nil => intro n; exact Nat.le_refl _
  | cons x xs ih =>
    intro n
    have h1 := length_textForms_le (f x)
    have h2 := ih (n + (f x).length)
    rw [List.flatMap_cons, List.length_append, List.foldl_cons]
    omega

theorem length_knownNames_le (h : MemoryHost) : h.knownNames.length ≤ Host.totalLength h := by
  have := foldl_add_length (fun p => (Host.read? h p).getD "") (Host.files h) 0
  rwa [Nat.zero_add] at this

/-- pairs of a known file and one of some names -/
def pairs (h : MemoryHost) (names : List String) : List Search.Pair := h.knownFiles ×ˢ names

theorem mem_pairs {names : List String} {n : Search.Pair} : n ∈ h.pairs names ↔ n.1 ∈ h.knownFiles ∧ n.2 ∈ names := by
  rw [pairs, ← List.mem_product]

/-- **The bound of a search covers the pairs it can meet.** -/
theorem length_pairs_le {names : List String} {extra : Nat} (hn : names.length ≤ Host.totalLength h + extra + 4) :
    (h.pairs names).length ≤ Host.pairBound h extra := by
  rw [pairs, List.length_product, knownFiles, List.length_map, Host.pairBound]
  exact Nat.mul_le_mul (Nat.le_succ _) hn

end ClosurePipeline.MemoryHost
