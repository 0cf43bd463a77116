import Stave.Arguments
import Stave.Files
import Stave.Json.Printer
import Stave.Score.Json
import Stave.Score.Outline
import Stave.Score.Printer
import Stave.Score.Reader
import Stave.Settings

/-!
# The command line

Five commands on one score: check it, print it in canonical form, show its tree, list its events,
or play it.  `Invocation.read` understands the arguments, and `run` does the work, given the
contents of files; nothing here reads or prints by itself.
-/

namespace Stave.CommandLine

open Arguments

/-! ## Invocations -/

/-- A score given as an argument or in a file. -/
inductive Source where
  | inline (text : String)
  | file (path : String)

/-- A mode chosen here replaces the steps of the settings too. -/
structure ScaleOverride where
  root : Option String
  mode : Option String

inductive Action where
  | validate
  | format
  | tree (asJson : Bool)
  | decode (scale : ScaleOverride) (start : Ratio) (asJson : Bool)
  | play (scale : ScaleOverride) (ticksPerBeat : Option UInt32) (tickMillis : Nat)

structure Invocation where
  settingsFile : Option String
  source : Source
  action : Action

/-! ## Reading arguments -/

def ratioArgument? (s : String) : Option Ratio := (Ratio.read s).toOption

def ticksPerBeatArgument? (s : String) : Option UInt32 := do
  let n ← Numeral.integer? .int64 s.toList
  return (← Width.nat32.narrow? n).toNat.toUInt32

/-- A number without a sign, or with a plus. -/
def millisArgument? (s : String) : Option Nat := do
  guard (!s.startsWith "-")
  return (← Numeral.integer? .nat64 s.toList).toNat

def settingsSwitch : Switch := { name := "config", letter := 'c', accepts := (!·.isEmpty) }
def verboseSwitch : Switch := { name := "verbose", letter := 'v', takesValue := false }

/-- The switches allowed before and after the command. -/
def globalSwitches : List Switch := [settingsSwitch, verboseSwitch]

def fileSwitch : Switch := { name := "file", letter := 'f', accepts := (!·.isEmpty) }

def scaleSwitches : List Switch := [{ name := "root" }, { name := "mode" }]

def commandNames : List String := ["validate", "fmt", "ast", "decode", "play"]

/-- The switches of a command beside the global ones and the file. -/
def ownSwitches : String → List Switch
  | "ast" => [{ name := "output-format", letter := 'o' }]
  | "decode" => scaleSwitches ++
    [{ name := "start", letter := 's', accepts := fun s => (ratioArgument? s).isSome },
     { name := "format" }]
  | "play" => scaleSwitches ++
    [{ name := "ticks-per-beat", accepts := fun s => (ticksPerBeatArgument? s).isSome },
     { name := "tick-ms", accepts := fun s => (millisArgument? s).isSome }]
  | _ => []

def rootGrammar : Grammar :=
  { switches := globalSwitches, subcommands := "help" :: commandNames }

def commandGrammar (command : String) : Grammar :=
  { switches := globalSwitches ++ fileSwitch :: ownSwitches command, positionals := 1 }

/-- Help on a command: on any of them, on help itself, or in general. -/
def helpOn : List String → Stop
  | [] => .help
  | [command] => if ("help" :: commandNames).contains command then .help else .usage
  | "help" :: command :: rest =>
    if rest.isEmpty && commandNames.contains command then .help else .usage
  | _ => .usage

/-- The score: exactly one of an argument and a file. -/
def sourceOf (p : Parsed) : Except Stop Source :=
  match p.positionals, p.value? "file" with
  | [text], none => .ok (.inline text)
  | [], some path => .ok (.file path)
  | _, _ => .error .usage

def overrideOf (p : Parsed) : ScaleOverride := ⟨p.value? "root", p.value? "mode"⟩

def actionOf (command : String) (p : Parsed) : Action :=
  let asJson (name : String) : Bool := p.value? name == some "json"
  match command with
  | "fmt" => .format
  | "ast" => .tree (asJson "output-format")
  | "decode" =>
    .decode (overrideOf p) (((p.value? "start").bind ratioArgument?).getD 0) (asJson "format")
  | "play" =>
    .play (overrideOf p) ((p.value? "ticks-per-beat").bind ticksPerBeatArgument?)
      (((p.value? "tick-ms").bind millisArgument?).getD 0)
  | _ => .validate

def Invocation.read (args : List String) : Except Stop Invocation := do
  let root ← Arguments.read rootGrammar args
  match root.subcommand with
  | none => throw .usage
  | some ("help", rest) => throw (helpOn rest)
  | some (command, rest) =>
    let p ← Arguments.read (commandGrammar command) rest
    return {
      settingsFile := p.value? "config" <|> root.value? "config"
      source := ← sourceOf p
      action := actionOf command p }

/-! ## Work -/

/-- Text on standard output after a pause in milliseconds. -/
structure Output where
  pause : Nat := 0
  text : String

/-- What a run leaves behind. -/
structure Outcome where
  code : UInt32 := 0
  output : List Output := []
  errors : String := ""

def Outcome.print (text : String) : Outcome := { output := [{ text }] }

/-- An error with the cause behind it, if there is one. -/
structure Failure where
  message : String
  cause : Option String := none

def Failure.outcome (e : Failure) : Outcome :=
  { code := 1
    errors := "Error: " ++ e.message ++ "\n" ++
      match e.cause with
      | some cause => "\nCaused by:\n    " ++ cause ++ "\n"
      | none => "" }

/-- A complaint about a score, with the line it is about. -/
def complaint (what message : String) (span : Score.Span) (source : List Char) : Outcome :=
  { code := 1
    errors := "✗ " ++ what ++ " error: " ++ message ++ "\n" ++
      (span.underline? source).getD "" ++ "\n" }

def load (files : Files) (what path : String) : Except Outcome String :=
  (files path).mapError fun cause =>
    ({ message := "Failed to read " ++ what ++ ": " ++ path, cause := some cause.message } : Failure).outcome

def loadSettings (files : Files) : Option String → Except Outcome Settings
  | none => .ok {}
  | some path => do
    let text ← load files "config file" path
    match Settings.read? text with
    | some s => return s
    | none => throw ({
        message := "Failed to parse config file: " ++ path
        cause := some "not a settings record" } : Failure).outcome

def loadSource (files : Files) : Source → Except Outcome (List Char)
  | .inline text => .ok text.toList
  | .file path => do return (← load files "file" path).toList

def readScore (source : List Char) : Except Outcome Score.Sequence :=
  (Score.read source).mapError fun e => complaint "Parse" e.message (.point e.offset) source

def ScaleOverride.apply (o : ScaleOverride) (s : ScaleChoice) : ScaleChoice :=
  let s := match o.root with
    | some root => { s with root }
    | none => s
  match o.mode with
  | some mode => { s with mode, intervals := none }
  | none => s

/-- The events of a score on the scale of the settings. -/
def eventsOf (settings : Settings) (scale : ScaleOverride) (start : Ratio) (source : List Char)
    (score : Score.Sequence) : Except Outcome (List Event) := do
  let scale ← (scale.apply settings.scale).build.mapError fun e =>
    ({ message := e.message } : Failure).outcome
  (Score.decode ⟨scale, settings.defaults⟩ start score).mapError fun e =>
    complaint "Decode" e.message e.span source

def eventList (events : List Event) : String :=
  "Events: " ++ toString events.length ++ "\n" ++
    String.join (events.zipIdx.map fun (e, i) =>
      "  [" ++ toString i ++ "] " ++ toString e ++ "\n")

def padLeft (width : Nat) (s : String) : String := "".pushn ' ' (width - s.length) ++ s
def padRight (width : Nat) (s : String) : String := s.pushn ' ' (width - s.length)

def messageLine : Message → String
  | .noteOn tick pitch velocity =>
    padLeft 6 (toString tick) ++ "  on   " ++ padRight 5 pitch.name ++ " vel " ++
      toString velocity.toNat ++ "\n"
  | .noteOff tick pitch => padLeft 6 (toString tick) ++ "  off  " ++ pitch.name ++ "\n"

/-- A line for each message and one for the end, each after the ticks since the line before. -/
def playedLines (tickMillis now final : Nat) : List Message → List Output
  | [] => [⟨(final - now) * tickMillis, "Finished at tick " ++ toString final ++ "\n"⟩]
  | m :: ms => ⟨(m.tick - now) * tickMillis, messageLine m⟩ :: playedLines tickMillis m.tick final ms

def playEvents (ticksPerBeat : UInt32) (tickMillis : Nat) (events : List Event) :
    Except Outcome Outcome := do
  let fail (message : String) : Outcome := ({ message } : Failure).outcome
  let resolution ← (Resolution.build ticksPerBeat).mapError (fail ·.message)
  let (stage, _) ← (onStage resolution events).mapError (fail ·.message)
  let final ← (stage.drain Cue.script stage.clock.ticksLeft).mapError (fail ·.message)
  return { output := playedLines tickMillis 0 final.clock.now final.host.messages }

def perform (settings : Settings) (source : List Char) : Action → Except Outcome Outcome
  | .validate => do
    let _ ← readScore source
    return .print "✓ Sequence is valid\n"
  | .format => do return .print ((← readScore source).text ++ "\n")
  | .tree asJson => do
    let score ← readScore source
    return .print ((if asJson then score.toJson.pretty else score.outline.render) ++ "\n")
  | .decode scale start asJson => do
    let events ← eventsOf settings scale start source (← readScore source)
    return .print (if asJson then (Json.array (events.map Event.toJson)).pretty ++ "\n"
      else eventList events)
  | .play scale ticksPerBeat tickMillis => do
    let events ← eventsOf settings scale 0 source (← readScore source)
    playEvents (ticksPerBeat.getD settings.ticksPerBeat) tickMillis events

def Invocation.perform (files : Files) (i : Invocation) : Except Outcome Outcome := do
  let settings ← loadSettings files i.settingsFile
  CommandLine.perform settings (← loadSource files i.source) i.action

def usage : String :=
  "Usage: [--config FILE] [--verbose] COMMAND (NOTATION | --file FILE) [OPTIONS]\n\n" ++
  "Commands:\n" ++
  "  validate  check that the notation parses\n" ++
  "  fmt       print the notation in canonical form\n" ++
  "  ast       print the parsed tree [--output-format json|debug]\n" ++
  "  decode    print the events [--root R] [--mode M] [--start BEATS] [--format json|debug]\n" ++
  "  play      print the note messages [--root R] [--mode M] [--ticks-per-beat N] [--tick-ms N]\n"

/-- What a run leaves behind whose arguments name no work. -/
def outcomeOf : Stop → Outcome
  | .help => .print usage
  | .usage => { code := 2, errors := usage }

/-- A whole run. -/
def run (files : Files) (args : List String) : Outcome :=
  match Invocation.read args with
  | .error stop => outcomeOf stop
  | .ok i =>
    match i.perform files with
    | .ok outcome | .error outcome => outcome

/-- The files that a run may ask for. -/
def filesNeeded (args : List String) : List String :=
  match Invocation.read args with
  | .error _ => []
  | .ok i =>
    i.settingsFile.toList ++ match i.source with
      | .inline _ => []
      | .file path => [path]

end Stave.CommandLine
