/-!
# Command line arguments

A grammar lists switches, subcommands and how many positional arguments there may be.  Arguments
are taken from left to right and the first that breaks a rule decides:

* a switch is `--name` or one letter after `-`; letters may be joined, and a value may be attached
  (`--name=v`, `-nv`, `-n=v`) or follow as the next argument, if that does not look like a switch;
* a switch is given at most once, and its value must be acceptable;
* `--` makes all that follow positional; a subcommand takes over the rest.

`--help` and `-h` stop the reading where they stand.
-/

namespace Stave.Arguments

/-- Why reading stopped. -/
inductive Stop where
  | help
  | usage
deriving DecidableEq

structure Switch where
  name : String
  letter : Option Char := none
  takesValue : Bool := true
  accepts : String → Bool := fun _ => true

structure Grammar where
  switches : List Switch
  positionals : Nat := 0
  subcommands : List String := []

/-- What was read: switches with their values, and the subcommand with the arguments after it. -/
structure Parsed where
  values : List (String × String) := []
  positionals : List String := []
  subcommand : Option (String × List String) := none

def Parsed.value? (p : Parsed) (name : String) : Option String := p.values.lookup name

def Parsed.has (p : Parsed) (name : String) : Bool := (p.value? name).isSome

/-- An argument that a switch cannot take as its value. -/
def looksLikeSwitch (arg : String) : Bool := arg.startsWith "-" && arg != "-"

def Parsed.add (p : Parsed) (s : Switch) (value : String) : Except Stop Parsed :=
  if p.has s.name || !s.accepts value then .error .usage
  else .ok { p with values := p.values ++ [(s.name, value)] }

def Parsed.addPositional (g : Grammar) (p : Parsed) (arg : String) : Except Stop Parsed :=
  if p.positionals.length < g.positionals then .ok { p with positionals := p.positionals ++ [arg] }
  else .error .usage

/-- Switches written as letters; answers also with the switch that still wants a value. -/
def readLetters (g : Grammar) (p : Parsed) : List Char → Except Stop (Parsed × Option Switch)
  | [] => .ok (p, none)
  | 'h' :: _ => .error .help
  | c :: cs =>
    match g.switches.find? (·.letter == some c) with
    | none => .error .usage
    | some s =>
      if s.takesValue then
        match cs with
        | [] => .ok (p, some s)
        | '=' :: value => do return (← p.add s (String.ofList value), none)
        | value => do return (← p.add s (String.ofList value), none)
      else do readLetters g (← p.add s "") cs

/-- A switch written by name, perhaps with its value attached. -/
def readName (g : Grammar) (p : Parsed) (cs : List Char) : Except Stop (Parsed × Option Switch) :=
  let (name, attached) := cs.span (· ≠ '=')
  let name := String.ofList name
  if name = "help" ∧ attached = [] then .error .help
  else match g.switches.find? (·.name == name), attached with
    | none, _ => .error .usage
    | some s, [] => if s.takesValue then .ok (p, some s) else do return (← p.add s "", none)
    | some s, _ :: value =>
      if s.takesValue then do return (← p.add s (String.ofList value), none) else .error .usage

/-- Reads arguments, a switch perhaps waiting for its value. -/
def readFrom (g : Grammar) (p : Parsed) (waiting : Option Switch) :
    List String → Except Stop Parsed
  | [] => if waiting.isSome then .error .usage else .ok p
  | arg :: rest =>
    match waiting with
    | some s =>
      if looksLikeSwitch arg then .error .usage else do readFrom g (← p.add s arg) none rest
    | none =>
      if g.subcommands.contains arg then .ok { p with subcommand := some (arg, rest) }
      else match arg.toList with
        | ['-', '-'] => rest.foldlM (Parsed.addPositional g) p
        | '-' :: '-' :: name => do
          let (p, waiting) ← readName g p name
          readFrom g p waiting rest
        | '-' :: c :: cs => do
          let (p, waiting) ← readLetters g p (c :: cs)
          readFrom g p waiting rest
        | _ => do readFrom g (← p.addPositional g arg) none rest

def read (g : Grammar) (args : List String) : Except Stop Parsed := readFrom g {} none args

end Stave.Arguments
