/-!
# Arguments

What the arguments of a run ask for. Options have a long name and some a letter; a value follows its
option or is attached to it. An option may be given once at each level: in front of the name of the
command, and behind it. Two dashes end the options.

A value that begins with a dash must be attached to its option, and paths may not be empty. In place
of a command there may be the word for help, with the name of a command behind it.
-/

namespace JavaMinus.CommandLine

/-- An option. -/
inductive Key where
  | color
  | config
  | source
  | output
  | emitListing
  | strict
  | jsonDiagnostics
deriving DecidableEq, Inhabited

namespace Key

def long : Key → String
  | .color => "color"
  | .config => "config"
  | .source => "source"
  | .output => "output"
  | .emitListing => "emit-ir"
  | .strict => "strict"
  | .jsonDiagnostics => "json-diagnostics"

def letter? : Key → Option Char
  | .config => some 'c'
  | .source => some 's'
  | .output => some 'o'
  | _ => none

/-- The value of the option is a path. -/
def isPath : Key → Bool
  | .config | .source | .output => true
  | _ => false

/-- The option has a value. -/
def takesValue (k : Key) : Bool := k.isPath || k == .color

end Key

/-- A command. -/
inductive Command where
  | compile
  | check
deriving DecidableEq, Inhabited

namespace Command

def ofName? : String → Option Command
  | "compile" => some .compile
  | "check" => some .check
  | _ => none

/-- The options of a command. -/
def keys : Command → List Key
  | .compile => [.color, .config, .source, .output, .emitListing, .strict, .jsonDiagnostics]
  | .check => [.color, .source, .strict]

end Command

/-- Why arguments ask for no command. -/
inductive Refusal where
  | version
  | help
  /-- They are not well formed. -/
  | usage
deriving DecidableEq, Inhabited

/-- What a single argument is. -/
inductive Argument where
  | option (key : Key) (attached : Option String)
  | word (text : String)
  /-- The end of the options. -/
  | dashes
  | refusal (cause : Refusal)
deriving DecidableEq, Inhabited

/-- The options in front of the name of a command. -/
def commonKeys : List Key := [.color]

/-- The option of a name with what is attached to it. Only an option with a value can have
something attached. -/
def optionOf (keys : List Key) (name : String) (attached : Option String) : Argument :=
  match keys.find? fun k => k.long == name with
  | some k => if k.takesValue || attached.isNone then .option k attached else .refusal .usage
  | none => .refusal .usage

/-- The long option of a name. The version is asked for in front of the name of a command only. -/
def longOption (keys : List Key) (text : List Char) : Argument :=
  let name := String.ofList (text.takeWhile (· != '='))
  match text.dropWhile (· != '=') with
  | _ :: value => optionOf keys name (some (String.ofList value))
  | [] =>
    if name == "help" then .refusal .help
    else if name == "version" && keys == commonKeys then .refusal .version
    else optionOf keys name none

/-- The option of a letter; what follows the letter is the value, perhaps behind an equals sign. -/
def letterOption (keys : List Key) (letter : Char) (rest : List Char) : Argument :=
  if letter = 'h' then .refusal .help
  else if letter = 'V' ∧ keys = commonKeys then .refusal .version
  else match keys.find? fun k => k.letter? == some letter with
    | some k =>
      match rest with
      | [] => .option k none
      | '=' :: value => .option k (some (String.ofList value))
      | value => .option k (some (String.ofList value))
    | none => .refusal .usage

/-- What an argument is among the options of a level. A single dash is a word. -/
def argument (keys : List Key) (text : String) : Argument :=
  match text.toList with
  | ['-', '-'] => .dashes
  | '-' :: '-' :: rest => longOption keys rest
  | '-' :: letter :: rest => letterOption keys letter rest
  | _ => .word text

/-- The options and words of a level. -/
structure Given where
  options : List (Key × String) := []
  words : List String := []
deriving DecidableEq, Inhabited

namespace Given

/-- The value of an option. -/
def value? (g : Given) (k : Key) : Option String :=
  (g.options.find? fun p => p.1 == k).map Prod.snd

/-- The option is given. -/
def has (g : Given) (k : Key) : Bool := (g.value? k).isSome

/-- Add an option, which may not be there yet. -/
def addOption (g : Given) (k : Key) (value : String) : Except Refusal Given :=
  if g.has k || (k.isPath && value.isEmpty) then .error .usage
  else .ok { g with options := g.options ++ [(k, value)] }

/-- Add the input, of which there is one. -/
def addWord (g : Given) (text : String) : Except Refusal Given :=
  if text.isEmpty || !g.words.isEmpty then .error .usage
  else .ok { g with words := g.words ++ [text] }

end Given

/-- Add arguments that follow the name of a command. -/
def readArguments (keys : List Key) (g : Given) : List String → Except Refusal Given
  | [] => .ok g
  | text :: rest =>
    match argument keys text with
    | .refusal cause => .error cause
    | .dashes => rest.foldlM Given.addWord g
    | .word text => do readArguments keys (← g.addWord text) rest
    | .option k (some value) => do readArguments keys (← g.addOption k value) rest
    | .option k none =>
      if k.takesValue then
        match rest with
        | [] => .error .usage
        | value :: rest =>
          if argument keys value = .word value then do
            readArguments keys (← g.addOption k value) rest
          else .error .usage
      else do readArguments keys (← g.addOption k "") rest

/-- A command with what was given behind its name. -/
structure Invocation where
  command : Command
  input : String
  given : Given
deriving DecidableEq, Inhabited

/-- Read the arguments behind the name of a command. -/
def Command.read (c : Command) (arguments : List String) : Except Refusal Invocation := do
  let given ← readArguments c.keys {} arguments
  match given.words with
  | [input] => return ⟨c, input, given⟩
  | _ => .error .usage

/-- What may follow the word for help: nothing, or one name that could stand in its place. -/
def isHelpTopic : List String → Bool
  | [] => true
  | [name] => name == "help" || (Command.ofName? name).isSome
  | _ => false

/-- The first word names the command, or asks for help. -/
def commandOf (name : String) (rest : List String) : Except Refusal Invocation :=
  match Command.ofName? name with
  | some c => c.read rest
  | none => .error (if name == "help" && isHelpTopic rest then .help else .usage)

/-- Read arguments, given what stood in front of them. -/
def readFrom (g : Given) : List String → Except Refusal Invocation
  | [] => .error .usage
  | text :: rest =>
    match argument commonKeys text with
    | .refusal cause => .error cause
    | .dashes => .error .usage
    | .word name => commandOf name rest
    | .option k (some value) => do readFrom (← g.addOption k value) rest
    | .option k none =>
      match rest with
      | [] => .error .usage
      | value :: rest =>
        if argument commonKeys value = .word value then do
          readFrom (← g.addOption k value) rest
        else .error .usage

/-- What the arguments of a run ask for. -/
def readInvocation (arguments : List String) : Except Refusal Invocation := readFrom {} arguments

end JavaMinus.CommandLine
