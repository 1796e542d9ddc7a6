/-
Texts put together from parts, one for each item of a list and in the order of the list. `Joined` says so by rules,
whatever the parts are; `joined_iff` is for parts that are computed.
-/

namespace ClosurePipeline.Text

variable {α : Type}

/-- a text of one part for each item, in order; `part x s` says that `s` may stand for `x` -/
inductive Joined (part : α → String → Prop) : List α → String → Prop where
  | nil : Joined part [] ""
  | cons {x : α} {xs : List α} {s rest : String} (h : part x s) (hs : Joined part xs rest) :
    Joined part (x :: xs) (s ++ rest)

/-- where one text may stand for each item, one text is made of them -/
theorem joined_iff {part : α → String → Prop} {f : α → String} (h : ∀ x s, part x s ↔ s = f x) {xs : List α}
    {text : String} : Joined part xs text ↔ text = String.join (xs.map f) := by
  induction xs generalizing text with
  | nil =>
    constructor
    · rintro ⟨⟩
      rfl
    · rintro rfl
      exact .nil
  | cons x xs ih =>
    rw [List.map_cons, String.join_cons]
    constructor
    · rintro (_ | ⟨hx, hs⟩)
      rw [(h x _).1 hx, ih.1 hs]
    · rintro rfl
      exact .cons ((h x _).2 rfl) (ih.2 rfl)

end ClosurePipeline.Text
