/-
Decorator downleveling. A class decorator whose declaration is tagged `@Annotation` is taken off the class and listed in
a static property at the top of its body; other decorators stay. A changed unit gets the declaration of the property's
type at its end.

- `IsTagged`, `annotations_eq`: which decorators are taken off;
- `Entry`, `Block`: the static property as a text, by rules; `block_iff`: it is what `render` gives;
- `apply`: the pass. It fails at a class with annotations and no body.
-/
import ClosurePipeline.Edit.Script
import ClosurePipeline.Pass.Context
import ClosurePipeline.Text.Joined

namespace ClosurePipeline.Pass.Downlevel

/-- the tag that makes a decorator an annotation -/
def annotationTag : String := "Annotation"

/-- what a changed unit gets at its end -/
def support : String := "\ninterface DecoratorInvocation \x7b\n  type: Function;\n  args?: any[];\n\x7d\n"

/-- the annotations among a declaration's decorators -/
def annotations (cx : Context) (file : Path) (d : Declaration) : List Decorator :=
  d.decorators.filter fun r => ((cx.symbol? file r.name).map (·.hasTag annotationTag)).getD false

/-- what the name of a decorator stands for in a file is tagged `@Annotation` -/
def IsTagged (cx : Context) (file : Path) (r : Decorator) : Prop :=
  ∃ s ∈ cx.symbol? file r.name, "Annotation" ∈ s.tags

instance (cx : Context) (file : Path) (r : Decorator) : Decidable (IsTagged cx file r) :=
  inferInstanceAs (Decidable (∃ s ∈ cx.symbol? file r.name, "Annotation" ∈ s.tags))

theorem annotations_eq (cx : Context) (file : Path) (d : Declaration) :
    annotations cx file d = d.decorators.filter fun r => IsTagged cx file r := by
  refine List.filter_congr fun r _ => Bool.eq_iff_iff.2 ?_
  rw [decide_eq_true_iff, IsTagged]
  cases cx.symbol? file r.name with
  | none => simp
  | some s => simp [Symbol.hasTag, annotationTag]

/-- where the removal of a decorator ends: behind the blanks after it and, if it ends its line, behind the line break -/
def removalEnd (source : List Char) (r : Decorator) : Nat :=
  let rest := Text.dropBytes r.span.stop source
  let spaces := (rest.takeWhile fun c => c = ' ' || c = '\t').length
  let lineBreak := match rest.drop spaces with
    | '\r' :: '\n' :: _ => 2
    | '\n' :: _ => 1
    | _ => 0
  r.span.stop + spaces + lineBreak

/-- the entry of a decorator in the list -/
def renderEntry (indent : String) (r : Decorator) : String :=
  let args := match r.arguments with
    | some a => if Text.isAllBlank a.toList then "" else ", args: [" ++ a ++ "]"
    | none => ""
  "\n" ++ indent ++ "    \x7b type: " ++ r.name ++ args ++ " \x7d,"

/-- the static property that lists decorators -/
def render (indent : String) (rs : List Decorator) : String :=
  "\n" ++ indent ++ "  static decorators: DecoratorInvocation[] = [" ++ String.join (rs.map (renderEntry indent)) ++
    "\n" ++ indent ++ "  ];"

/-- the line that lists a decorator: its name, and its arguments if there is something to see of them -/
inductive Entry (indent : String) (r : Decorator) : String → Prop where
  | bare (h : ∀ a ∈ r.arguments, ∀ c ∈ a.toList, Text.isBlank c = true) :
    Entry indent r ("\n" ++ indent ++ "    \x7b type: " ++ r.name ++ " \x7d,")
  | called {a : String} (ha : r.arguments = some a) (h : ∃ c ∈ a.toList, Text.isBlank c = false) :
    Entry indent r ("\n" ++ indent ++ "    \x7b type: " ++ r.name ++ ", args: [" ++ a ++ "] \x7d,")

theorem entry_iff {indent : String} (r : Decorator) (line : String) :
    Entry indent r line ↔ line = renderEntry indent r := by
  constructor
  · intro h
    cases h with
    | bare h =>
      cases ha : r.arguments with
      | none => simp [renderEntry, ha]
      | some a =>
        have hblank : Text.isAllBlank a.toList = true := List.all_eq_true.2 (h a ha)
        simp [renderEntry, ha, hblank]
    | @called a ha h =>
      have hblank : Text.isAllBlank a.toList = false := List.all_eq_false.2 (by simpa using h)
      simp [renderEntry, ha, hblank, String.append_assoc]
  · rintro rfl
    cases ha : r.arguments with
    | none => simpa [renderEntry, ha] using @Entry.bare indent r (by simp [ha])
    | some a =>
      cases hblank : Text.isAllBlank a.toList with
      | true =>
        have hall := List.all_eq_true.1 hblank
        simpa [renderEntry, ha, hblank] using @Entry.bare indent r (by simpa [ha] using hall)
      | false =>
        have hsome : ∃ c ∈ a.toList, Text.isBlank c = false := by simpa using List.all_eq_false.1 hblank
        simpa [renderEntry, ha, hblank, String.append_assoc] using @Entry.called indent r a ha hsome

/-- the static property that lists decorators: a line that opens it, a line for each of them in order, a line that
closes it -/
inductive Block (indent : String) (rs : List Decorator) : String → Prop where
  | mk {entries : String} (h : Text.Joined (Entry indent) rs entries) :
    Block indent rs ("\n" ++ indent ++ "  static decorators: DecoratorInvocation[] = [" ++ entries ++ "\n" ++
      indent ++ "  ];")

theorem block_iff {indent : String} {rs : List Decorator} {text : String} :
    Block indent rs text ↔ text = render indent rs := by
  constructor
  · rintro ⟨h⟩
    rw [(Text.joined_iff entry_iff).1 h, render]
  · rintro rfl
    exact .mk ((Text.joined_iff entry_iff).2 rfl)

/-- the edits for a declaration -/
def editsFor (cx : Context) (unit : SourceUnit) (d : Declaration) : Except Fault (List Edit) :=
  match if d.kind == .classDecl then annotations cx unit.path d else [] with
  | [] => .ok []
  | rs =>
    match d.body with
    | none => .error (.noBody d.name)
    | some body =>
      let source := unit.text.toList
      let indent := String.ofList (EditScript.indentation source body.start)
      .ok (rs.map (fun r => Edit.remove r.span.start (removalEnd source r)) ++
        [Edit.insert (body.start + 1) (render indent rs).toList])

/-- the edits for all declarations; the first class without a body fails the unit -/
def edits (cx : Context) (unit : SourceUnit) : Except Fault (List Edit) := do
  let parts ← unit.summary.declarations.mapM (editsFor cx unit)
  .ok parts.flatten

/-- the pass -/
def apply (cx : Context) (unit : SourceUnit) : Except Fault Output := do
  let es ← edits cx unit
  if es.isEmpty then .ok { text := unit.text }
  else
    let (text, fragment) := EditScript.run unit.text.toList es support.toList
    .ok { text := String.ofList text, fragment := some fragment }

end ClosurePipeline.Pass.Downlevel
