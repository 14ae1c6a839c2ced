import SplitRadix.Word

/-!
# Command-line options

An option is written `--name value` or `--name=value`, a flag `--name`. Each may be given once. A
value that starts with a dash has to follow an equals sign, unless it is a single dash. There are no
arguments besides options and flags; `--` may end them.
-/

namespace SplitRadix.CommandLine

/-- What to print of a routine. -/
inductive Dump where
  | none    -- nothing
  | tree    -- its decomposition
  | hex     -- its bytes
  | asm     -- its instructions
  deriving DecidableEq, Repr

def Dump.ofName? : String → Option Dump
  | "none" => some .none
  | "tree" => some .tree
  | "hex" => some .hex
  | "asm" => some .asm
  | _ => Option.none

/-- Mirrors `Cli`. -/
structure Options where
  size : Nat
  leaf : Nat
  inverse : Bool
  dump : Dump
  output : Option String    -- where to write an object file
  symbol : String
  stats : Bool
  deriving DecidableEq, Repr

/-- A number below 2^64: digits, perhaps after a plus sign. -/
def readNumber (s : String) : Option Nat :=
  let digits := match s.toList with
    | '+' :: rest => rest
    | all => all
  if digits.isEmpty || !digits.all Char.isDigit then none
  else
    let n := digits.foldl (fun n c => 10 * n + (c.toNat - '0'.toNat)) 0
    if n < 2 ^ 64 then some n else none

/-- The options and flags of a command line, in order. A flag has no value. -/
abbrev Settings := List (String × Option String)

/-- The names of the options, which take a value. -/
def valued : List String := ["size", "leaf", "dump", "output", "symbol"]

/-- The names of the flags. -/
def flags : List String := ["inverse", "stats"]

/-- Whether an argument can be the value of the option before it. -/
def isValue (arg : String) : Bool := arg == "-" || !arg.startsWith "-"

/-- The name after the dashes, and the value after an equals sign if there is one. -/
def splitOption (arg : List Char) : Option (String × Option String) :=
  match arg with
  | '-' :: '-' :: rest =>
    let name := String.ofList (rest.takeWhile (· ≠ '='))
    match rest.dropWhile (· ≠ '=') with
    | [] => some (name, none)
    | _ :: value => some (name, some (String.ofList value))
  | _ => none

/-- Read the arguments into settings. -/
def settings : List String → Option Settings
  | [] => some []
  | arg :: rest =>
    if arg == "--" then
      if rest.isEmpty then some [] else none
    else
      match splitOption arg.toList with
      | none => none
      | some (name, value) =>
        if flags.contains name then
          if value.isSome then none else (settings rest).map ((name, none) :: ·)
        else if valued.contains name then
          match value, rest with
          | some value, rest => (settings rest).map ((name, some value) :: ·)
          | none, next :: rest =>
            if isValue next then (settings rest).map ((name, some next) :: ·) else none
          | none, [] => none
        else none

/-- No name is given twice. -/
def distinct (s : Settings) : Bool := (s.map Prod.fst).eraseDups.length == s.length

/-- The value of an option, read by `read`; `default` if the option is missing. -/
def value {α : Type} (s : Settings) (name : String) (read : String → Option α)
    (default : Option α) : Option α :=
  match s.find? fun setting => setting.1 == name with
  | some (_, some text) => read text
  | _ => default

/-- Whether a flag is given. -/
def flag (s : Settings) (name : String) : Bool := s.any fun setting => setting.1 == name

/-- The options of a command line, if it is well formed. -/
def Options.parse? (args : List String) : Option Options := do
  let s ← settings args
  guard (distinct s)
  return {
    size := ← value s "size" readNumber none
    leaf := ← value s "leaf" readNumber (some 8)
    inverse := flag s "inverse"
    dump := ← value s "dump" Dump.ofName? (some .none)
    output := ← value s "output" (fun path => some (some path)) (some none)
    symbol := ← value s "symbol" some (some "fft_routine")
    stats := flag s "stats" }

end SplitRadix.CommandLine
