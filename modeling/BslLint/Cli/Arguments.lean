/-!
# Arguments of a command line

An argument that begins with a dash names a switch, by its name after two dashes or by its letter
after one. Several letters may share a dash. The value of a switch follows it, or is joined to it,
behind an equals sign where one stands. All other arguments are words, and so are all that come
behind two dashes with nothing after them. Where the first word begins the arguments of another
command, it does not stand behind two dashes.

Arguments are judged from left to right, so a demand for help counts if all before it is right.
-/

namespace BslLint.Cli

/-- A switch of a command. -/
structure Switch where
  /-- The name. -/
  name : String
  /-- The letter, if there is one. -/
  letter : Option Char := none
  /-- Other names. -/
  aliases : List String := []
  /-- The values that are accepted, none if there is no value. -/
  accepts : Option (String → Bool) := none
  /-- Whether the switch may be given several times. -/
  isRepeatable : Bool := false

/-- What a command takes. -/
structure Shape where
  /-- The switches. -/
  switches : List Switch
  /-- The words, by the values that are accepted. -/
  words : List (String → Bool) := []
  /-- Whether the version may be asked for. -/
  hasVersion : Bool := false
  /-- Whether the first word ends the arguments of the command itself. -/
  stopsAtWord : Bool := false

/-- Why arguments are not given to a command. -/
inductive Stop where
  /-- They are wrong. -/
  | invalid
  /-- Help is asked for. -/
  | help
  /-- The version is asked for. -/
  | version
  deriving DecidableEq, Repr

/-- Arguments of a command. -/
structure Arguments where
  /-- The names of the switches with their values, which are empty where a switch has none. -/
  switches : List (String × String) := []
  /-- The words. -/
  words : List String := []
  /-- The arguments behind the first word, if that ends the arguments of the command. -/
  rest : List String := []
  deriving DecidableEq, Repr

namespace Arguments

/-- Whether a switch is given. -/
def has (a : Arguments) (name : String) : Bool := a.switches.any (·.1 == name)

/-- The values of a switch. -/
def values (a : Arguments) (name : String) : List String :=
  (a.switches.filter (·.1 == name)).map (·.2)

/-- The value of a switch, if it is given. -/
def value? (a : Arguments) (name : String) : Option String := (a.values name).head?

end Arguments

namespace Shape

variable (shape : Shape)

/-- The switch of a name. -/
def named? (name : String) : Option Switch :=
  shape.switches.find? fun s ↦ s.name == name || s.aliases.contains name

/-- The switch of a letter. -/
def lettered? (letter : Char) : Option Switch := shape.switches.find? (·.letter == some letter)

/-- What a name that is no switch asks for. -/
def stopOfName (name : String) : Stop :=
  if name = "help" then .help
  else if name = "version" && shape.hasVersion then .version
  else .invalid

/-- What a letter that is no switch asks for. -/
def stopOfLetter (letter : Char) : Stop :=
  if letter = 'h' then .help else if letter = 'V' && shape.hasVersion then .version else .invalid

/-- Whether an argument begins with a dash and goes on. -/
def isDashed (arg : String) : Bool :=
  match arg.toList with
  | '-' :: _ :: _ => true
  | _ => false

/-- Adds a switch with its value. -/
def add (a : Arguments) (s : Switch) (value : String) : Except Stop Arguments :=
  if (a.has s.name && !s.isRepeatable) || !((s.accepts.map (· value)).getD true) then
    .error .invalid
  else .ok { a with switches := a.switches ++ [(s.name, value)] }

/-- A switch that waits for its value, and the arguments before it. -/
abbrev Waiting := Arguments × Option Switch

/-- Takes letters behind a dash. A letter whose switch has a value takes what is left. -/
def letters (a : Arguments) : List Char → Except Stop Waiting
  | [] => .ok (a, none)
  | c :: rest =>
    match shape.lettered? c with
    | none => .error (shape.stopOfLetter c)
    | some s =>
      if s.accepts.isNone then do letters (← add a s "") rest
      else match rest with
        | [] => .ok (a, some s)
        | '=' :: value | value => do return (← add a s (String.ofList value), none)

/-- Takes what stands behind two dashes. -/
def name (a : Arguments) (text : List Char) : Except Stop Waiting :=
  let (name, value) := text.span (· != '=')
  match shape.named? (String.ofList name), value with
  | none, _ => .error (shape.stopOfName (String.ofList name))
  | some s, [] => if s.accepts.isSome then .ok (a, some s) else do return (← add a s "", none)
  | some s, _ :: value =>
    if s.accepts.isSome then do return (← add a s (String.ofList value), none) else .error .invalid

/-- Takes a word. -/
def word (a : Arguments) (w : String) : Except Stop Arguments :=
  match shape.words[a.words.length]? with
  | some accepts => if accepts w then .ok { a with words := a.words ++ [w] } else .error .invalid
  | none => .error .invalid

/-- Takes arguments one by one. -/
def take (a : Arguments) : List String → Except Stop Arguments
  | [] => .ok a
  | arg :: args =>
    if arg = "--" then
      if shape.stopsAtWord then .error .invalid else args.foldlM (word shape) a
    else if !isDashed arg then do
      let a ← word shape a arg
      if shape.stopsAtWord then return { a with rest := args } else take a args
    else do
      let (a, waiting) ← match arg.toList with
        | '-' :: '-' :: text => shape.name a text
        | text => shape.letters a (text.drop 1)
      match waiting, args with
      | none, args => take a args
      | some _, [] => .error .invalid
      | some s, value :: args =>
        if isDashed value then .error .invalid else take (← add a s value) args

/-- The arguments of a command. -/
def read (args : List String) : Except Stop Arguments := take shape {} args

end Shape

end BslLint.Cli
