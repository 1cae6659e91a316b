import Stencil.Build

namespace Stencil

open Text

/-! The command line. Arguments are taken from left to right, and the first one
that asks for help or is refused decides. -/

inductive Command where
  /-- Help or the version is shown. -/
  | inform
  | refuse
  | build (config : Build.Config) (verbose watch : Bool)
  deriving DecidableEq, Repr

namespace Command

structure BuildArguments where
  values : List String
  verbose : Bool
  watch : Bool
  /-- Whether `--verbose` came before `build`, where it can be given once
  more. -/
  verboseBefore : Bool

/-- Takes a value: an input, an output and a package, of which the first two are
not empty. -/
def BuildArguments.take? (arguments : BuildArguments) (value : String) :
    Option BuildArguments :=
  if arguments.values.length < 3 ∧
      (arguments.values.length = 2 ∨ value ≠ "") then
    some { arguments with values := arguments.values ++ [value] }
  else none

def BuildArguments.finish (arguments : BuildArguments) : Command :=
  match arguments.values with
  | [input, output, package] =>
      .build ⟨input, output, package⟩
        (arguments.verboseBefore || arguments.verbose)
        arguments.watch
  | _ => .refuse

def valuesOnly (arguments : BuildArguments) : List String → Command
  | [] => arguments.finish
  | value :: rest =>
      match arguments.take? value with
      | none => .refuse
      | some taken => valuesOnly taken rest

def isFlag (argument : String) : Bool :=
  beginsWith ['-'] argument.toList && argument != "-"

def asksHelp (argument : String) : Bool :=
  argument == "--help" || beginsWith ['-', 'h'] argument.toList

def asksVersion (argument : String) : Bool :=
  argument == "--version" || beginsWith ['-', 'V'] argument.toList

def ofBuildArguments (arguments : BuildArguments) : List String → Command
  | [] => arguments.finish
  | argument :: rest =>
      if argument = "--" then valuesOnly arguments rest
      else if argument = "--verbose" ∧ !arguments.verbose then
        ofBuildArguments { arguments with verbose := true } rest
      else if argument = "--watch" ∧ !arguments.watch then
        ofBuildArguments { arguments with watch := true } rest
      else if asksHelp argument then .inform
      else if isFlag argument then .refuse
      else
        match arguments.take? argument with
        | none => .refuse
        | some taken => ofBuildArguments taken rest

def ofHelpArguments : List String → Command
  | [] => .inform
  | [command] =>
      if command = "build" ∨ command = "help" then .inform else .refuse
  | _ => .refuse

def ofArgumentsAfter (verbose : Bool) : List String → Command
  | [] => .refuse
  | argument :: rest =>
      if argument = "--verbose" ∧ !verbose then ofArgumentsAfter true rest
      else if asksHelp argument || asksVersion argument then .inform
      else if argument = "help" then ofHelpArguments rest
      else if argument = "build" then
        ofBuildArguments ⟨[], false, false, verbose⟩ rest
      else .refuse

def ofArguments (arguments : List String) : Command :=
  ofArgumentsAfter false arguments

structure Outcome where
  exit : Nat
  messages : List String
  deriving DecidableEq, Repr

def logged (verbose : Bool) (entries : List Log.Entry) : List Log.Entry :=
  entries.filter fun entry => verbose || entry.level != .debug

/-- The lines that tell how a command ended. They are known by how they begin,
so a line of a longer message can be one of them. -/
def Outcome.report (outcome : Outcome) : List String :=
  let lines := outcome.messages.flatMap fun message =>
    Text.lines (message.toList ++ ['\n'])
  (lines.filter fun line => beginsWith "Built: ".toList line ||
    beginsWith "Error: ".toList line).map String.ofList

section Steps

variable {Handle : Type} {m : Type → Type} [Monad m]

def checkedBuild (disk : Disk Handle m) (config : Build.Config) :
    ExceptT Build.Failure m Build.Report := do
  Build.check disk config
  Build.run disk config

def Outcome.ofBuild (verbose : Bool) :
    Except Build.Failure Build.Report → Outcome
  | .error failure => ⟨1, ["Error: " ++ failure.report]⟩
  | .ok report =>
      ⟨0, (logged verbose report.entries).map Log.Entry.text ++
        [report.message]⟩

def run (disk : Disk Handle m) : Command → m Outcome
  | .inform => pure ⟨0, []⟩
  | .refuse => pure ⟨2, []⟩
  | .build config verbose _ =>
      Outcome.ofBuild verbose <$> (checkedBuild disk config).run

end Steps

end Command

end Stencil
