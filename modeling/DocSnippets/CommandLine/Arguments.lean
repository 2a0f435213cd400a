import DocSnippets.Path
import DocSnippets.Text.Digit

/-!
# Arguments

The arguments of the command. Options may be given once each, input files as often as wanted; an
option takes the words after it that do not start with a dash, input files all of them and the
others one. A request for the version is answered at once, unless something before it was wrong.
-/

namespace DocSnippets.CommandLine

inductive Reporter where
  | pretty
  | json
deriving DecidableEq

inductive ColorWish where
  | auto
  | always
  | never
deriving DecidableEq

structure Arguments where
  inputFiles : List String
  project : Option Path
  tsc : Option Path
  jobs : Option Nat
  noWrap : Bool
  reporter : Option Reporter
  color : Option ColorWish
  verbose : Bool
deriving DecidableEq

def Arguments.none : Arguments := ⟨[], .none, .none, .none, false, .none, .none, false⟩

inductive ValueOption where
  | inputFiles
  | project
  | tsc
  | jobs
  | reporter
  | color
deriving DecidableEq

inductive Flag where
  | noWrap
  | verbose
  | help
  | version
deriving DecidableEq

inductive Name where
  | value (o : ValueOption)
  | flag (f : Flag)

def longName? (text : List Char) : Option Name :=
  match String.ofList text with
  | "input-files" => some (.value .inputFiles)
  | "project" => some (.value .project)
  | "tsc" => some (.value .tsc)
  | "jobs" => some (.value .jobs)
  | "reporter" => some (.value .reporter)
  | "color" => some (.value .color)
  | "no-wrap" => some (.flag .noWrap)
  | "verbose" => some (.flag .verbose)
  | "help" => some (.flag .help)
  | "version" => some (.flag .version)
  | _ => .none

def shortName? (c : Char) : Option Name :=
  match c with
  | 'j' => some (.value .jobs)
  | 'v' => some (.flag .verbose)
  | 'h' => some (.flag .help)
  | 'V' => some (.flag .version)
  | _ => .none

inductive Demand where
  | check (a : Arguments)
  | version
  | help
  | refused

/-- Why reading ends before the last argument: the version or the help was asked for, or the
arguments are refused. -/
inductive Stop where
  | version
  | help
  | refused

def once {α : Type} (old : Option α) (new : Option α) : Except Stop (Option α) :=
  match old, new with
  | .none, some a => .ok (some a)
  | _, _ => .error .refused

def path? (text : String) : Option Path := if text = "" then .none else some ⟨text⟩

def jobs? (text : String) : Option Nat :=
  (Text.boundedNatural? Text.bound64 text.toList).filter (· ≠ 0)

def reporter? : String → Option Reporter
  | "pretty" => some .pretty
  | "json" => some .json
  | _ => .none

def color? : String → Option ColorWish
  | "auto" => some .auto
  | "always" => some .always
  | "never" => some .never
  | _ => .none

/-- Gives values to an option; none at all are refused. -/
def give (a : Arguments) (o : ValueOption) (values : List String) : Except Stop Arguments :=
  match o, values with
  | _, [] => .error .refused
  | .inputFiles, values => .ok { a with inputFiles := a.inputFiles ++ values }
  | .project, v :: _ => do .ok { a with project := ← once a.project (path? v) }
  | .tsc, v :: _ => do .ok { a with tsc := ← once a.tsc (path? v) }
  | .jobs, v :: _ => do .ok { a with jobs := ← once a.jobs (jobs? v) }
  | .reporter, v :: _ => do .ok { a with reporter := ← once a.reporter (reporter? v) }
  | .color, v :: _ => do .ok { a with color := ← once a.color (color? v) }

def raise (a : Arguments) : Flag → Except Stop Arguments
  | .noWrap => if a.noWrap then .error .refused else .ok { a with noWrap := true }
  | .verbose => if a.verbose then .error .refused else .ok { a with verbose := true }
  | .help => .error .help
  | .version => .error .version

/-- What was read so far. An option with its values stays open until the next option shows that no
more values follow. -/
structure Reading where
  done : Arguments
  opened : Option (ValueOption × List String)
  onlyValues : Bool

namespace Reading

def close (r : Reading) : Except Stop Arguments :=
  match r.opened with
  | .none => .ok r.done
  | some (o, values) => give r.done o values

def wantsMore : ValueOption × List String → Bool
  | (.inputFiles, _) => true
  | (_, values) => values.isEmpty

/-- Takes a word that is no option: it is a value of the open option or nothing that could be
meant. -/
def word (r : Reading) (text : String) : Except Stop Reading :=
  match r.opened with
  | some (o, values) =>
    if wantsMore (o, values) && !r.onlyValues then
      .ok { r with opened := some (o, values ++ [text]) }
    else .error .refused
  | .none => .error .refused

/-- Takes a named option with the value attached to it, if there is one. -/
def named (r : Reading) (name : Name) (attached : Option String) : Except Stop Reading :=
  match name, attached with
  | .value o, some v => do
    let a ← r.close
    .ok { r with done := ← give a o [v], opened := .none }
  | .value o, .none => do .ok { r with done := ← r.close, opened := some (o, []) }
  | .flag _, some _ => .error .refused
  | .flag f, .none => do
    let a ← r.close
    .ok { r with done := ← raise a f, opened := .none }

/-- Takes a long option, whose value may follow an equals sign. -/
def long (r : Reading) (text : List Char) : Except Stop Reading :=
  let attached :=
    match text.dropWhile (· != '=') with
    | [] => .none
    | _ :: value => some (String.ofList value)
  match longName? (text.takeWhile (· != '=')) with
  | .none => .error .refused
  | some name => r.named name attached

/-- Takes short options: flags in a row, and at the end an option with the rest for its value. -/
def short (r : Reading) : List Char → Except Stop Reading
  | [] => .ok r
  | c :: rest =>
    match shortName? c with
    | .none => .error .refused
    | some (.flag f) => do short (← r.named (.flag f) .none) rest
    | some (.value o) =>
      match rest with
      | [] => r.named (.value o) .none
      | '=' :: value => r.named (.value o) (some (String.ofList value))
      | value => r.named (.value o) (some (String.ofList value))

/-- Takes one argument. After two dashes nothing is an option. -/
def argument (r : Reading) (text : String) : Except Stop Reading :=
  if r.onlyValues then r.word text
  else
    match text.toList with
    | ['-', '-'] => .ok { r with onlyValues := true }
    | '-' :: '-' :: name => r.long name
    | '-' :: c :: rest => r.short (c :: rest)
    | _ => r.word text

end Reading

def read (arguments : List String) : Except Stop Arguments := do
  let r ← arguments.foldlM Reading.argument ⟨.none, .none, false⟩
  r.close

def demand (arguments : List String) : Demand :=
  match read arguments with
  | .ok a => .check a
  | .error .version => .version
  | .error .help => .help
  | .error .refused => .refused

end DocSnippets.CommandLine
