import DeadCode.Path

/-!
The arguments of the command line. An option takes its value from the same argument or from the next
one; single letters can be put together behind one dash; after two dashes every argument is the path.
-/
namespace DeadCode.CommandLine

inductive ValueOption where
  | config
  | target
  | exclude
  | retain
  | format
  | output
  | jobs
deriving DecidableEq, Repr

inductive Switch where
  | noFunctions
  | followExports
  | verbose
  | quiet
  | version
deriving DecidableEq, Repr

inductive OptionName where
  | value (option : ValueOption)
  | switch (option : Switch)
deriving DecidableEq, Repr

def OptionName.ofLong? : String → Option OptionName
  | "config" => some (.value .config)
  | "target" => some (.value .target)
  | "exclude" => some (.value .exclude)
  | "retain" => some (.value .retain)
  | "format" => some (.value .format)
  | "output" => some (.value .output)
  | "jobs" => some (.value .jobs)
  | "no-functions" => some (.switch .noFunctions)
  | "follow-exports" => some (.switch .followExports)
  | "verbose" => some (.switch .verbose)
  | "quiet" => some (.switch .quiet)
  | "version" => some (.switch .version)
  | _ => none

def OptionName.ofShort? : Char → Option OptionName
  | 'c' => some (.value .config)
  | 't' => some (.value .target)
  | 'e' => some (.value .exclude)
  | 'r' => some (.value .retain)
  | 'f' => some (.value .format)
  | 'o' => some (.value .output)
  | 'j' => some (.value .jobs)
  | 'v' => some (.switch .verbose)
  | 'q' => some (.switch .quiet)
  | 'V' => some (.switch .version)
  | _ => none

inductive ReportFormat where
  | terminal
  | json
deriving DecidableEq, Repr

def ReportFormat.ofName? : String → Option ReportFormat
  | "terminal" => some .terminal
  | "json" => some .json
  | _ => none

structure Arguments where
  path : Option Path
  config : Option Path
  targets : List Path
  exclude : List String
  retain : List String
  format : Option ReportFormat
  output : Option Path
  jobs : Option Nat
  switches : List Switch
deriving DecidableEq, Repr

inductive Refusal where
  /-- The version is asked for. -/
  | version
  | misuse
deriving DecidableEq, Repr

namespace Arguments

def empty : Arguments := ⟨none, none, [], [], [], none, none, none, []⟩

/-- Sets what may be given only once. -/
private def once {α β : Type} (old : Option α) (value : Option α) (set : α → β) :
    Except Refusal β :=
  match old, value with
  | none, some value => .ok (set value)
  | _, _ => .error .misuse

/-- A path may not be empty. -/
private def path? (text : String) : Option Path :=
  if text.isEmpty then none else some ⟨text⟩

/-- A number of 64 bits, which a plus sign may precede. -/
private def count? (text : String) : Option Nat :=
  let digits := if text.toList.head? == some '+' then text.toList.drop 1 else text.toList
  if digits.isEmpty || !digits.all Char.isDigit then none
  else
    let value := digits.foldl (fun value c => value * 10 + (c.toNat - '0'.toNat)) 0
    if value < UInt64.size then some value else none

def setPath (arguments : Arguments) (text : String) : Except Refusal Arguments :=
  once arguments.path (path? text) fun path => { arguments with path := some path }

def setValue (arguments : Arguments) (option : ValueOption) (text : String) :
    Except Refusal Arguments :=
  match option with
  | .config => once arguments.config (path? text) fun path => { arguments with config := some path }
  | .target =>
    once none (path? text) fun path => { arguments with targets := arguments.targets ++ [path] }
  | .exclude => .ok { arguments with exclude := arguments.exclude ++ [text] }
  | .retain => .ok { arguments with retain := arguments.retain ++ [text] }
  | .format =>
    once arguments.format (ReportFormat.ofName? text) fun format => { arguments with format := some format }
  | .output => once arguments.output (path? text) fun path => { arguments with output := some path }
  | .jobs => once arguments.jobs (count? text) fun jobs => { arguments with jobs := some jobs }

def setSwitch (arguments : Arguments) (switch : Switch) : Except Refusal Arguments :=
  if switch = .version then .error .version
  else if arguments.switches.contains switch then .error .misuse
  else .ok { arguments with switches := arguments.switches ++ [switch] }

end Arguments

/-- Arguments that are being read: an option may wait for its value. -/
structure ArgumentState where
  arguments : Arguments
  waiting : Option ValueOption

/-- Reads letters behind a dash. What follows the letter of an option that takes a value is its value,
less an equals sign. -/
private def readLetters (arguments : Arguments) : List Char → Except Refusal ArgumentState
  | [] => .ok ⟨arguments, none⟩
  | c :: rest =>
    match OptionName.ofShort? c with
    | none => .error .misuse
    | some (.switch switch) => do readLetters (← arguments.setSwitch switch) rest
    | some (.value option) =>
      if rest.isEmpty then .ok ⟨arguments, some option⟩
      else do
        let value := if rest.head? == some '=' then rest.drop 1 else rest
        .ok ⟨← arguments.setValue option (String.ofList value), none⟩

/-- Reads what follows two dashes: a name, and its value behind an equals sign. -/
private def readWord (arguments : Arguments) (word : List Char) : Except Refusal ArgumentState :=
  let name := String.ofList (word.takeWhile (· != '='))
  match OptionName.ofLong? name, word.dropWhile (· != '=') with
  | none, _ => .error .misuse
  | some (.switch switch), [] => do .ok ⟨← arguments.setSwitch switch, none⟩
  | some (.switch _), _ :: _ => .error .misuse
  | some (.value option), [] => .ok ⟨arguments, some option⟩
  | some (.value option), _ :: value => do
    .ok ⟨← arguments.setValue option (String.ofList value), none⟩

private def readPaths (arguments : Arguments) : List String → Except Refusal Arguments
  | [] => .ok arguments
  | text :: rest => do readPaths (← arguments.setPath text) rest

private def readFrom (state : ArgumentState) : List String → Except Refusal Arguments
  | [] => if state.waiting.isSome then .error .misuse else .ok state.arguments
  | text :: rest =>
    match text.toList, state.waiting with
    | ['-', '-'], none => readPaths state.arguments rest
    | '-' :: '-' :: word, none => do readFrom (← readWord state.arguments word) rest
    | '-' :: letter :: letters, none => do
      readFrom (← readLetters state.arguments (letter :: letters)) rest
    | '-' :: _ :: _, some _ => .error .misuse
    | _, some option => do
      readFrom ⟨← state.arguments.setValue option text, none⟩ rest
    | _, none => do readFrom ⟨← state.arguments.setPath text, none⟩ rest

def Arguments.read (arguments : List String) : Except Refusal Arguments :=
  readFrom ⟨.empty, none⟩ arguments

end DeadCode.CommandLine
