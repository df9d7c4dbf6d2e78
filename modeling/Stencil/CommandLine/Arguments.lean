import Stencil.Event

/-!
The arguments of the command line. Arguments are read from left to right; what is no valid command
is a usage error, whatever is wrong with it. The flags for quiet and verbose output may stand before
and after the command's name, and exclude each other on each side of it.
-/

namespace Stencil.CommandLine

inductive Command where
  | generate (names : List Text) (templates out : Option Text) (quiet : Bool)
  | events (name : Text) (kind : Option SourceKind) (templates : Option Text)
  | version
  | help
  deriving DecidableEq, Repr

/-- The flags that may stand on either side of the command's name. -/
structure Flags where
  quiet : Bool := false
  verbose : Bool := false
  deriving DecidableEq, Repr

inductive ValueOption where
  | templates
  | out
  | kind
  deriving DecidableEq, Repr

def ValueOption.text : ValueOption → Text
  | .templates => "templates"
  | .out => "out"
  | .kind => "kind"

/-- The commands by name, with their options. -/
inductive Action where
  | generate
  | events
  deriving DecidableEq, Repr

def Action.options : Action → List ValueOption
  | .generate => [.templates, .out]
  | .events => [.templates, .kind]

def Action.ofText? (t : Text) : Option Action :=
  if t = "generate".toList then some .generate
  else if t = "events".toList then some .events
  else none

/-- What one argument looks like. A single hyphen is an operand. -/
inductive Shape where
  | terminator
  | long (name : Text) (value : Option Text)
  | short (letters : Text)
  | operand
  deriving DecidableEq, Repr

def shape : Text → Shape
  | ['-', '-'] => .terminator
  | '-' :: '-' :: t =>
      let name := t.takeWhile (· != '=')
      match t.dropWhile (· != '=') with
      | [] => .long name none
      | _ :: value => .long name (some value)
  | '-' :: c :: t => .short (c :: t)
  | _ => .operand

/-- How flags change by one more of them. The quiet flag stands once at most. -/
def Flags.addLetter? (flags : Flags) : Char → Option Flags
  | 'q' => if flags.quiet then none else some { flags with quiet := true }
  | 'v' => some { flags with verbose := true }
  | _ => none

def letterOf? (name : Text) : Option Char :=
  if name = "quiet".toList then some 'q'
  else if name = "verbose".toList then some 'v'
  else if name = "version".toList then some 'V'
  else if name = "help".toList then some 'h'
  else none

/-- What comes of flag letters: changed flags, or an answer that ends the reading. -/
inductive Flagged where
  | go (flags : Flags)
  | stop (command : Option Command)

/-- Takes letters in turn. The version is asked for before the command's name only. -/
def Flags.addLetters (versioned : Bool) : Flags → Text → Flagged
  | flags, [] => .go flags
  | flags, c :: t =>
      if c = 'h' then .stop (some .help)
      else if c = 'V' ∧ versioned then .stop (some .version)
      else
        match flags.addLetter? c with
        | none => .stop none
        | some flags => addLetters versioned flags t

def Flags.addLong (versioned : Bool) (flags : Flags) (name : Text) (value : Option Text) :
    Flagged :=
  match letterOf? name, value with
  | some letter, none => flags.addLetters versioned [letter]
  | _, _ => .stop none

def Flags.compatible (flags : Flags) : Bool := !(flags.quiet && flags.verbose)

def kindOf? (t : Text) : Option SourceKind :=
  if t = "template".toList then some .template
  else if t = "tag".toList then some .tag
  else if t = "layout".toList then some .layout
  else none

structure Details where
  flags : Flags := {}
  operands : List Text := []
  templates : Option Text := none
  out : Option Text := none
  kind : Option SourceKind := none
  deriving DecidableEq, Repr

/-- Sets an option, which stands once at most. -/
def Details.set? (d : Details) (option : ValueOption) (value : Text) : Option Details :=
  match option with
  | .templates => if d.templates.isSome then none else some { d with templates := some value }
  | .out => if d.out.isSome then none else some { d with out := some value }
  | .kind =>
      if d.kind.isSome then none else (kindOf? value).map fun kind => { d with kind := some kind }

/-- Adds an operand. Only generating takes more than one. -/
def Details.addOperand? (action : Action) (d : Details) (operand : Text) : Option Details :=
  if action = .generate ∨ d.operands.isEmpty then
    some { d with operands := d.operands ++ [operand] }
  else none

/-- What comes of a command's arguments: its details, or an answer that ends the reading. -/
inductive Detailed where
  | go (details : Details)
  | stop (command : Option Command)

def readDetails (action : Action) : Details → List Text → Detailed
  | d, [] => .go d
  | d, arg :: rest =>
      match shape arg with
      | .operand =>
          match d.addOperand? action arg with
          | none => .stop none
          | some d => readDetails action d rest
      | .terminator => .go { d with operands := d.operands ++ rest }
      | .short letters =>
          match d.flags.addLetters false letters with
          | .stop answer => .stop answer
          | .go flags => readDetails action { d with flags } rest
      | .long name value =>
          match action.options.find? (·.text == name) with
          | none =>
              match d.flags.addLong false name value with
              | .stop answer => .stop answer
              | .go flags => readDetails action { d with flags } rest
          | some option =>
              match value, rest with
              | some value, rest =>
                  match d.set? option value with
                  | none => .stop none
                  | some d => readDetails action d rest
              | none, [] => .stop none
              | none, value :: rest =>
                  match shape value, d.set? option value with
                  | .operand, some d => readDetails action d rest
                  | _, _ => .stop none

/-- The command that an action and its details make, with the flags before the action's name. -/
def command? (before : Flags) (action : Action) (d : Details) : Option Command :=
  if !before.compatible || !d.flags.compatible then none
  else
    match action, d.operands with
    | .generate, [] => none
    | .generate, names =>
        some (.generate names d.templates d.out (before.quiet || d.flags.quiet))
    | .events, [name] => some (.events name d.kind d.templates)
    | .events, _ => none

/-- Help is asked for on the whole, or on one command, help being one. -/
def helpOn? : List Text → Option Command
  | [] => some .help
  | [name] =>
      if (Action.ofText? name).isSome || name = "help".toList then some .help else none
  | _ => none

/-- Reads arguments up to the command's name, and then those of the command. -/
def readFrom : Flags → List Text → Option Command
  | _, [] => none
  | flags, arg :: rest =>
      match shape arg with
      | .operand =>
          match Action.ofText? arg with
          | some action =>
              match readDetails action {} rest with
              | .stop answer => answer
              | .go details => command? flags action details
          | none => if arg = "help".toList then helpOn? rest else none
      | .terminator => none
      | .short letters =>
          match flags.addLetters true letters with
          | .stop answer => answer
          | .go flags => readFrom flags rest
      | .long name value =>
          match flags.addLong true name value with
          | .stop answer => answer
          | .go flags => readFrom flags rest

/-- The command that arguments spell. There is none for a usage error. -/
def read (args : List Text) : Option Command := readFrom {} args

end Stencil.CommandLine
