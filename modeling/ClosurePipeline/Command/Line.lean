/-
Reading a command line. It has two levels: options, a command's name, and the words of that command, where the options
of the first level may be given again and then win.

- a word is an option if it starts with a dash and is not the dash alone; behind `--` no word is;
- an option with a value takes it behind an equals sign or as the next word, also if that is a command's name, but not
  if that is an option;
- short options may share a dash, and a value may follow its short option directly;
- an option may be given once on each level, the verbosity any number of times, and no path is empty.

A value is settled only when the next option or argument is read or the words are over, so of several faults the first
one settled counts.
-/
import ClosurePipeline.Command.Basic

namespace ClosurePipeline.Line

/-- an option without a value -/
inductive Flag where
  | verbose
  | json
  | noGoogModule
  | es5
  | noDownlevel
  | noClosurize
  | help
  | version
deriving DecidableEq, Repr

/-- an option with a path as its value -/
inductive Setting where
  | cwd
  | config
  | outDir
  | externs
deriving DecidableEq, Repr

/-- an option -/
inductive Opt where
  | flag (f : Flag)
  | setting (s : Setting)
deriving DecidableEq, Repr

/-- what the words of a level may be -/
structure Grammar where
  long : List (String × Opt)
  short : List (Char × Opt)
  /-- how many arguments there may be; nothing for any number -/
  arguments : Option Nat
  commands : List String
deriving DecidableEq, Repr

/-- the long options of every level -/
def commonLong : List (String × Opt) :=
  [("verbose", .flag .verbose), ("json", .flag .json), ("cwd", .setting .cwd), ("config", .setting .config),
    ("help", .flag .help)]

/-- the short options of every level -/
def commonShort : List (Char × Opt) := [('v', .flag .verbose), ('h', .flag .help)]

/-- the first level -/
def top : Grammar where
  long := commonLong ++ [("version", .flag .version)]
  short := commonShort ++ [('V', .flag .version)]
  arguments := some 0
  commands := ["version", "entry", "transform", "help"]

/-- a level with common options only -/
def plain (arguments : Option Nat) : Grammar := ⟨commonLong, commonShort, arguments, []⟩

/-- the level of the transform command -/
def transforming : Grammar where
  long := commonLong ++ [
    ("out-dir", .setting .outDir), ("externs", .setting .externs), ("no-googmodule", .flag .noGoogModule),
    ("es5", .flag .es5), ("no-downlevel", .flag .noDownlevel), ("no-closurize", .flag .noClosurize)]
  short := commonShort ++ [('o', .setting .outDir)]
  arguments := none
  commands := []

/-- a value that is not settled yet -/
inductive Pending where
  | nothing
  /-- an option waits for its value -/
  | awaited (s : Setting)
  | value (s : Setting) (text : String)
  | argument (text : String)
deriving DecidableEq, Repr

/-- what has been read on a level -/
structure Reading where
  flags : List Flag := []
  settings : List (Setting × Path) := []
  arguments : List Path := []
  pending : Pending := .nothing
  /-- how many arguments there have been, a pending one included -/
  count : Nat := 0
deriving DecidableEq, Repr

namespace Reading

/-- the flag was given -/
def has (r : Reading) (f : Flag) : Bool := r.flags.contains f

/-- the value of an option -/
def setting? (r : Reading) (s : Setting) : Option Path := r.settings.lookup s

/-- settles what is pending -/
def settle (r : Reading) : Except Stop Reading :=
  match r.pending with
  | .nothing => .ok r
  | .awaited _ => .error .usage
  | .value s text =>
    if text.isEmpty || (r.setting? s).isSome then .error .usage
    else .ok { r with settings := r.settings ++ [(s, ⟨text⟩)], pending := .nothing }
  | .argument text =>
    if text.isEmpty then .error .usage else .ok { r with arguments := r.arguments ++ [⟨text⟩], pending := .nothing }

/-- a flag is given -/
def giveFlag (r : Reading) (f : Flag) : Except Stop Reading := do
  let r ← r.settle
  match f with
  | .help => .error .help
  | .version => .error .version
  | .verbose => .ok r
  | f => if r.has f then .error .usage else .ok { r with flags := r.flags ++ [f] }

/-- an option with a value is given; without `text` the next word is its value -/
def giveSetting (r : Reading) (s : Setting) (text : Option String) : Except Stop Reading := do
  let r ← r.settle
  match text with
  | none => .ok { r with pending := .awaited s }
  | some t => settle { r with pending := .value s t }

/-- an argument is given -/
def giveArgument (r : Reading) (g : Grammar) (text : String) : Except Stop Reading := do
  let r ← r.settle
  match g.arguments with
  | some n => if r.count < n then .ok { r with pending := .argument text, count := r.count + 1 } else .error .usage
  | none => .ok { r with pending := .argument text, count := r.count + 1 }

/-- the word behind two dashes is given -/
def giveLong (r : Reading) (g : Grammar) (word : List Char) : Except Stop Reading :=
  let name := String.ofList (word.takeWhile (· ≠ '='))
  let value : Option String := match word.dropWhile (· ≠ '=') with
    | _ :: text => some (String.ofList text)
    | [] => none
  match g.long.lookup name, value with
  | some (.flag f), none => r.giveFlag f
  | some (.flag _), some _ => .error .usage
  | some (.setting s), value => r.giveSetting s value
  | none, _ => .error .usage

/-- the letters behind one dash are given -/
def giveShorts (g : Grammar) : Reading → List Char → Except Stop Reading
  | r, [] => .ok r
  | r, c :: cs =>
    match g.short.lookup c with
    | some (.flag f) => do giveShorts g (← r.giveFlag f) cs
    | some (.setting s) =>
      match cs with
      | [] => r.giveSetting s none
      | '=' :: text => r.giveSetting s (some (String.ofList text))
      | text => r.giveSetting s (some (String.ofList text))
    | none => .error .usage

/-- a word that is no command and not `--` -/
def giveWord (r : Reading) (g : Grammar) (word : String) : Except Stop Reading :=
  match word.toList with
  | '-' :: '-' :: rest => r.giveLong g rest
  | '-' :: c :: rest => giveShorts g r (c :: rest)
  | _ =>
    match r.pending with
    | .awaited s => .ok { r with pending := .value s word }
    | _ => r.giveArgument g word

end Reading

/-- a word may be a command's name: no option waits for it -/
def startsCommand (g : Grammar) (r : Reading) (word : String) : Bool :=
  match r.pending with
  | .awaited _ => false
  | _ => g.commands.contains word

/-- arguments only -/
def readArguments (g : Grammar) : Reading → List String → Except Stop Reading
  | r, [] => .ok r
  | r, word :: words => do readArguments g (← r.giveArgument g word) words

/-- the words of a level up to a command's name, and that name with the words behind it -/
def readLevel (g : Grammar) : Reading → List String → Except Stop (Reading × Option (String × List String))
  | r, [] => .ok (r, none)
  | r, word :: words =>
    if startsCommand g r word then .ok (r, some (word, words))
    else if word = "--" then (readArguments g r words).map (·, none)
    else do readLevel g (← r.giveWord g word) words

/-- help on the program or on one command -/
def helpOn : List String → Stop
  | [] => .help
  | [name] => if top.commands.contains name then .help else .usage
  | _ => .usage

/-- the words of a command -/
def readCommand (name : String) (words : List String) : Except Stop (Reading × Command) := do
  let level (g : Grammar) : Except Stop Reading := do Reading.settle (← readLevel g {} words).1
  match name with
  | "version" => return (← level (plain (some 0)), .version)
  | "entry" =>
    let r ← level (plain (some 1))
    return (r, .entry r.arguments.head?)
  | "transform" =>
    let r ← level transforming
    return (r, .transform {
      files := r.arguments
      outDir := r.setting? .outDir
      externsOut := r.setting? .externs
      noGoogModule := r.has .noGoogModule
      es5 := r.has .es5
      noDownlevel := r.has .noDownlevel
      noClosurize := r.has .noClosurize })
  | _ => throw (helpOn words)

/-- what a command line asks for; without a command, for the version -/
def parse (words : List String) : Except Stop Invocation := do
  let (outer, named) ← readLevel top {} words
  let (inner, command) ← match named with
    | none => .ok ({}, .version)
    | some (name, rest) => readCommand name rest
  let outer ← outer.settle
  return {
    command := command
    json := inner.has .json || outer.has .json
    cwd := (inner.setting? .cwd).or (outer.setting? .cwd)
    config := (inner.setting? .config).or (outer.setting? .config) }

end ClosurePipeline.Line
