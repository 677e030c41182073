import TapeLang.Settings.Json

/-!
Command line arguments.  They are taken one at a time, from left to right; the first
one that is wrong, or asks for help or for the version, decides.
-/

namespace TapeLang.CommandLine

structure Options where
  path : Option String := none
  builtin : Option String := none
  list : Bool := false
  dump : Bool := false
  minify : Bool := false
  config : Option String := none
  tapeSize : Option UInt64 := none
  endOfInput : Option EndOfInput := none
  stepLimit : Option UInt64 := none
  jumpTable : Bool := false
  stats : Bool := false
  deriving DecidableEq

inductive Flag where
  | list
  | dump
  | minify
  | jumpTable
  | stats
  | help
  | version
  deriving DecidableEq

inductive Key where
  | builtin
  | config
  | tapeSize
  | endOfInput
  | stepLimit
  deriving DecidableEq

inductive OptionName where
  | flag (flag : Flag)
  | key (key : Key)
  deriving DecidableEq

/-- Why the arguments are not carried out as options. -/
inductive Refusal where
  | usage
  | help
  | version
  deriving DecidableEq

def longOption? : String → Option OptionName
  | "builtin" => some (.key .builtin)
  | "list" => some (.flag .list)
  | "dump" => some (.flag .dump)
  | "minify" => some (.flag .minify)
  | "config" => some (.key .config)
  | "tape-size" => some (.key .tapeSize)
  | "eof" => some (.key .endOfInput)
  | "max-steps" => some (.key .stepLimit)
  | "jump-table" => some (.flag .jumpTable)
  | "stats" => some (.flag .stats)
  | "help" => some (.flag .help)
  | "version" => some (.flag .version)
  | _ => none

def shortOption? : Char → Option OptionName
  | 'b' => some (.key .builtin)
  | 'l' => some (.flag .list)
  | 'c' => some (.key .config)
  | 's' => some (.flag .stats)
  | 'h' => some (.flag .help)
  | 'V' => some (.flag .version)
  | _ => none

/-- An unsigned number of 64 bits; a plus sign and leading zeros are fine. -/
def count? (value : String) : Option UInt64 :=
  let digits :=
    match value.toList with
    | '+' :: digits => digits
    | digits => digits
  if digits.isEmpty || !digits.all Char.isDigit then none
  else
    let number := Json.Number.digitsValue digits
    if number < UInt64.size then some (.ofNat number) else none

namespace Options

/-- Sets a flag, which must not be set yet. -/
def raise (options : Options) : Flag → Except Refusal Options
  | .list => if options.list then throw .usage else return { options with list := true }
  | .dump => if options.dump then throw .usage else return { options with dump := true }
  | .minify => if options.minify then throw .usage else return { options with minify := true }
  | .jumpTable =>
      if options.jumpTable then throw .usage else return { options with jumpTable := true }
  | .stats => if options.stats then throw .usage else return { options with stats := true }
  | .help => throw .help
  | .version => throw .version

/-- A value for something that has none yet. -/
def fresh {Value : Type} (old new : Option Value) : Except Refusal (Option Value) :=
  match old, new with
  | none, some value => .ok (some value)
  | _, _ => .error .usage

def nonempty? (value : String) : Option String := if value.isEmpty then none else some value

/-- Gives a value to a key, which must not have one yet. -/
def assign (options : Options) (key : Key) (value : String) : Except Refusal Options := do
  match key with
  | .builtin => return { options with builtin := ← fresh options.builtin (some value) }
  | .config => return { options with config := ← fresh options.config (nonempty? value) }
  | .tapeSize => return { options with tapeSize := ← fresh options.tapeSize (count? value) }
  | .endOfInput =>
      return { options with
        endOfInput := ← fresh options.endOfInput (EndOfInput.ofName? value) }
  | .stepLimit => return { options with stepLimit := ← fresh options.stepLimit (count? value) }

def setPath (options : Options) (value : String) : Except Refusal Options := do
  return { options with path := ← fresh options.path (nonempty? value) }

end Options

/-- The options so far, and what is expected of the next argument. -/
structure Intake where
  options : Options := {}
  /-- The key that waits for its value. -/
  pending : Option Key := none
  /-- No more options follow. -/
  ended : Bool := false
  deriving DecidableEq

namespace Intake

/-- Takes an option that is written out, with the value that is joined to it. -/
def long (intake : Intake) (name : String) (joined : Option String) :
    Except Refusal Intake := do
  match longOption? name, joined with
  | some (.flag flag), none => return { intake with options := ← intake.options.raise flag }
  | some (.key key), none => return { intake with pending := some key }
  | some (.key key), some value =>
      return { intake with options := ← intake.options.assign key value }
  | _, _ => throw .usage

/-- Takes a group of options of one letter each.  A key takes the rest as its value. -/
def short (intake : Intake) : List Char → Except Refusal Intake
  | [] => return intake
  | letter :: rest =>
      match shortOption? letter, rest with
      | some (.flag flag), rest => do
          let options ← intake.options.raise flag
          short { intake with options } rest
      | some (.key key), [] => return { intake with pending := some key }
      | some (.key key), '=' :: value | some (.key key), value => do
          return { intake with options := ← intake.options.assign key (String.ofList value) }
      | none, _ => throw .usage

def feed (intake : Intake) (argument : String) : Except Refusal Intake := do
  if intake.ended then
    return { intake with options := ← intake.options.setPath argument }
  match intake.pending, argument.toList with
  | some _, '-' :: _ :: _ => throw .usage
  | some key, _ =>
      return { intake with options := ← intake.options.assign key argument, pending := none }
  | none, ['-', '-'] => return { intake with ended := true }
  | none, '-' :: '-' :: body =>
      let name := body.takeWhile (· != '=')
      match body.drop name.length with
      | [] => intake.long (String.ofList name) none
      | _ :: value => intake.long (String.ofList name) (some (String.ofList value))
  | none, '-' :: letter :: rest => intake.short (letter :: rest)
  | none, _ => return { intake with options := ← intake.options.setPath argument }

/-- The options, if they go together and none waits for its value. -/
def finish (intake : Intake) : Except Refusal Options :=
  let options := intake.options
  if intake.pending.isSome then .error .usage
  else if options.builtin.isSome && options.path.isSome then .error .usage
  else if options.minify && options.dump then .error .usage
  else .ok options

end Intake

def parse (arguments : List String) : Except Refusal Options := do
  let intake ← arguments.foldlM Intake.feed {}
  intake.finish

end TapeLang.CommandLine
