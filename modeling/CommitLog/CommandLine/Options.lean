/-!
# Options on a command line

A command knows some options, each with a long name and perhaps a letter, and takes other arguments
by position.  The value of an option follows an equals sign or is the next argument.  After two
hyphens all arguments count by position.
-/

namespace CommitLog.CommandLine

/-- What an option takes. -/
inductive OptionKind where
  /-- No value; it may be given once. -/
  | flag
  /-- One value; it may be given once. -/
  | single
  /-- A value each time it is given. -/
  | repeated
  deriving DecidableEq, Repr

structure OptionSpec where
  name : String
  letter : Option Char
  kind : OptionKind
  /-- Whether the next argument is the value even if it starts with a hyphen. -/
  takesHyphens : Bool
  /-- Whether a text may be a value. -/
  isValue : String → Bool

/-- Why reading arguments ends before the last of them. -/
inductive Stop where
  /-- The arguments make no sense. -/
  | misuse
  /-- A description is asked for. -/
  | help
  /-- The version is asked for. -/
  | version
  deriving DecidableEq, Repr

/-- A command: its options and whether a text may be an argument by position. -/
structure CommandSpec where
  options : List OptionSpec
  isArgument : String → Bool
  /-- Whether the version may be asked for. -/
  hasVersion : Bool

structure Arguments where
  /-- Names and values of options in the order given; flags have empty values. -/
  options : List (String × String)
  /-- The arguments by position. -/
  positional : List String
  /-- The arguments after two hyphens, where there are any. -/
  trailing : Option (List String)

namespace Arguments

def none : Arguments := ⟨[], [], .none⟩

def has (arguments : Arguments) (name : String) : Bool := arguments.options.any (·.1 == name)

def values (arguments : Arguments) (name : String) : List String :=
  (arguments.options.filter (·.1 == name)).map (·.2)

/-- The value of an option that may be given once. -/
def value? (arguments : Arguments) (name : String) : Option String := (arguments.values name).head?

/-- Takes in an option.  Its value has to be one, and only some options may be given again. -/
def add (arguments : Arguments) (spec : OptionSpec) (value : String) : Except Stop Arguments :=
  if !spec.isValue value || (spec.kind ≠ .repeated && arguments.has spec.name) then .error .misuse
  else .ok { arguments with options := arguments.options ++ [(spec.name, value)] }

/-- Takes in an argument by position. -/
def addPositional (arguments : Arguments) (command : CommandSpec) (text : String) :
    Except Stop Arguments :=
  if command.isArgument text then
    .ok { arguments with positional := arguments.positional ++ [text] }
  else .error .misuse

end Arguments

/-- Whether an argument is an option, by its looks. -/
def looksLikeOption (text : String) : Bool :=
  match text.toList with
  | '-' :: _ :: _ => true
  | _ => false

/-- Name and value of a long option without its hyphens. -/
def splitValue (text : List Char) : String × Option String :=
  let name := text.takeWhile (· ≠ '=')
  (String.ofList name,
    match text.drop name.length with
    | [] => none
    | _ :: value => some (String.ofList value))

/-- The value attached to the letter of an option, after an equals sign or without one. -/
def attachedValue : List Char → Option String
  | [] => none
  | '=' :: value => some (String.ofList value)
  | value => some (String.ofList value)

namespace CommandSpec

def named? (command : CommandSpec) (name : String) : Option OptionSpec :=
  command.options.find? (·.name == name)

def lettered? (command : CommandSpec) (letter : Char) : Option OptionSpec :=
  command.options.find? (·.letter == some letter)

/-- The option that an argument names, with the value attached to it. -/
def option? (command : CommandSpec) (text : String) : Except Stop (OptionSpec × Option String) :=
  match text.toList with
  | '-' :: '-' :: long =>
    let (name, value) := splitValue long
    match command.named? name with
    | some spec => .ok (spec, value)
    | none =>
      if value.isSome then .error .misuse
      else if name == "help" then .error .help
      else if name == "version" && command.hasVersion then .error .version
      else .error .misuse
  | '-' :: letter :: rest =>
    match command.lettered? letter with
    | some spec => .ok (spec, attachedValue rest)
    | none =>
      if letter == 'h' then .error .help
      else if letter == 'V' && command.hasVersion then .error .version
      else .error .misuse
  | _ => .error .misuse

/-- Reads arguments up to one by position for which `isLast` holds, and gives what follows it. -/
def read (command : CommandSpec) (isLast : String → Bool) :
    List String → Arguments → Except Stop (Arguments × List String)
  | [], arguments => .ok (arguments, [])
  | text :: rest, arguments =>
    if text = "--" then .ok ({ arguments with trailing := some rest }, [])
    else if !looksLikeOption text then
      if isLast text then .ok (arguments, text :: rest)
      else do command.read isLast rest (← arguments.addPositional command text)
    else do
      match ← command.option? text with
      | (spec, some value) =>
        if spec.kind = .flag then throw .misuse
        command.read isLast rest (← arguments.add spec value)
      | (spec, none) =>
        if spec.kind = .flag then command.read isLast rest (← arguments.add spec "")
        else match rest with
          | [] => throw .misuse
          | value :: rest =>
            if looksLikeOption value && !spec.takesHyphens then throw .misuse
            else command.read isLast rest (← arguments.add spec value)

end CommandSpec

end CommitLog.CommandLine
