-- SUMMARY: Command lines: what a command takes, and the reader of its arguments.
/-!
# Command lines

Arguments are read from left to right. One that starts with two dashes names an option, one that
starts with a single dash holds one-letter options; a lone dash and everything behind two lone
dashes are plain. A value follows its option as the next argument, or behind an equals sign, or
right behind a letter; the next argument is no value if it starts with a dash, unless it is a lone
one. The request for help ends the reading.
-/

namespace CircuitEquiv

/-- Why a command line is refused. -/
inductive UsageError where
  | unexpected (argument : String)
  | missingValue (option : String)
  | unneededValue (option : String)
  | invalidValue (option value reason : String)
  | repeated (option : String)
  | conflict (first second : String)
  | requires (option needed : String)
  | missingArgument (name : String)

/-- The message of an error. -/
def UsageError.message : UsageError → String
  | .unexpected argument => s!"unexpected argument '{argument}' found"
  | .missingValue option => s!"a value is required for '{option}' but none was supplied"
  | .unneededValue option => s!"unexpected value for '{option}' found; no more were expected"
  | .invalidValue option value reason => s!"invalid value '{value}' for '{option}': {reason}"
  | .repeated option => s!"the argument '{option}' cannot be used multiple times"
  | .conflict first second => s!"the argument '{first}' cannot be used with '{second}'"
  | .requires option needed => s!"the argument '{option}' requires '{needed}'"
  | .missingArgument name => s!"the required argument '{name}' was not provided"

/-- Why the reading of a command line ends early. -/
inductive Stop where
  | help
  | refused (e : UsageError)

/-- What an option does to the settings of a command. -/
inductive Effect (σ : Type) where
  /-- An option without a value. -/
  | flag (set : σ → σ)
  /-- An option with a value, which can be refused. -/
  | value (set : String → Except String (σ → σ))

namespace Effect

/-- The effect of a value once it is read. -/
def reading {σ α : Type} (read : String → Except String α) (set : α → σ → σ) : Effect σ :=
  .value fun s => (read s).map set

/-- The effect of the name of one of several choices. -/
def choosing {σ α : Type} (ofName? : String → Option α) (unknown : String → String)
    (set : α → σ → σ) : Effect σ :=
  reading (fun s => match ofName? s with
    | some a => .ok a
    | none => .error (unknown s)) set

end Effect

/-- An option of a command. -/
structure CommandOption (σ : Type) where
  long : String
  short : Option Char
  effect : Effect σ
  description : String

/-- A plain argument of a command. -/
structure Positional (σ : Type) where
  name : String
  set : String → σ → σ
  description : String

/-- What a command takes. -/
structure Grammar (σ : Type) where
  name : String
  description : String
  positionals : List (Positional σ)
  options : List (CommandOption σ)
  /-- The pairs of options of which only one may be there. -/
  conflicts : List (String × String)
  /-- The pairs of which the first option may be there only with the second. -/
  requirements : List (String × String)

namespace Grammar

variable {σ : Type} (g : Grammar σ)

/-- What was read so far: the settings, the options met and the plain arguments still open. -/
structure Progress (σ : Type) where
  settings : σ
  met : List String
  rest : List (Positional σ)

-- ---------------------------------------------------------------------------
-- Single arguments
-- ---------------------------------------------------------------------------

/-- An option as it is written. -/
def shown (name : String) : String := "--" ++ name

/-- Notes that an option was met, once. -/
def meet (p : Progress σ) (name : String) : Except Stop (Progress σ) :=
  if p.met.contains name then .error (.refused (.repeated (shown name)))
  else .ok { p with met := name :: p.met }

/-- Sets a flag. -/
def setFlag (p : Progress σ) (name : String) (set : σ → σ) : Except Stop (Progress σ) :=
  (meet p name).map fun p => { p with settings := set p.settings }

/-- Sets an option to a value. -/
def setValue (p : Progress σ) (name : String) (set : String → Except String (σ → σ))
    (value : String) : Except Stop (Progress σ) := do
  let p ← meet p name
  match set value with
  | .ok change => return { p with settings := change p.settings }
  | .error reason => throw (.refused (.invalidValue (shown name) value reason))

/-- Takes a plain argument. -/
def setPlain (p : Progress σ) (argument : String) : Except Stop (Progress σ) :=
  match p.rest with
  | [] => .error (.refused (.unexpected argument))
  | next :: rest =>
    if argument = "" then .error (.refused (.missingValue next.name))
    else .ok { p with settings := next.set argument p.settings, rest }

/-- Whether an argument has the look of an option. -/
def looksLikeOption (argument : String) : Bool := argument.startsWith "-" && argument ≠ "-"

/-- The value that follows an option. -/
def followingValue (name : String) : List String → Except Stop (String × List String)
  | v :: rest =>
    if looksLikeOption v then .error (.refused (.missingValue (shown name))) else .ok (v, rest)
  | [] => .error (.refused (.missingValue (shown name)))

-- ---------------------------------------------------------------------------
-- Options
-- ---------------------------------------------------------------------------

/-- Reads an option given by its long name, perhaps with a value behind an equals sign; `rest` are
the arguments that follow. -/
def readLong (p : Progress σ) (body : List Char) (rest : List String) :
    Except Stop (Progress σ × List String) := do
  let name := String.ofList (body.takeWhile (· ≠ '='))
  let attached := match body.dropWhile (· ≠ '=') with
    | _ :: value => some (String.ofList value)
    | [] => none
  let option? := g.options.find? (·.long = name)
  match option?.map (·.effect), attached with
  | some (.flag set), none => return (← setFlag p name set, rest)
  | some (.value set), some value => return (← setValue p name set value, rest)
  | some (.value set), none => do
    let (value, rest) ← followingValue name rest
    return (← setValue p name set value, rest)
  | some (.flag _), some _ => throw (.refused (.unneededValue (shown name)))
  | none, some _ =>
    throw (.refused (if name = "help" then .unneededValue (shown name) else .unexpected (shown name)))
  | none, none =>
    throw (if name = "help" then .help else .refused (.unexpected (shown name)))

/-- Reads options given by letters; `rest` are the arguments that follow. -/
def readLetters (p : Progress σ) : List Char → List String → Except Stop (Progress σ × List String)
  | [], rest => return (p, rest)
  | c :: letters, rest => do
    match g.options.find? (·.short = some c) with
    | none => throw (if c = 'h' then .help else .refused (.unexpected (String.ofList ['-', c])))
    | some o =>
      match o.effect, letters with
      | .flag set, _ => do
        let p ← setFlag p o.long set
        readLetters p letters rest
      | .value set, [] => do
        let (value, rest) ← followingValue o.long rest
        return (← setValue p o.long set value, rest)
      | .value set, '=' :: value => return (← setValue p o.long set (String.ofList value), rest)
      | .value set, value => return (← setValue p o.long set (String.ofList value), rest)

-- ---------------------------------------------------------------------------
-- Whole command lines
-- ---------------------------------------------------------------------------

/-- Reads arguments one after the other; each step uses up at least one. -/
def readFrom : Nat → Progress σ → List String → Except Stop (Progress σ)
  | 0, p, _ => return p
  | _, p, [] => return p
  | fuel + 1, p, argument :: rest => do
    match argument.toList with
    | ['-', '-'] => rest.foldlM setPlain p
    | '-' :: '-' :: body =>
      let (p, rest) ← readLong g p body rest
      readFrom fuel p rest
    | '-' :: c :: letters =>
      let (p, rest) ← readLetters g p (c :: letters) rest
      readFrom fuel p rest
    | _ => readFrom fuel (← setPlain p argument) rest

/-- Checks which options were met together and that no plain argument is missing. -/
def checkComplete (p : Progress σ) : Except Stop Unit := do
  match g.conflicts.find? fun (a, b) => p.met.contains a ∧ p.met.contains b with
  | some (a, b) => throw (.refused (.conflict (shown a) (shown b)))
  | none => pure ()
  match p.rest with
  | next :: _ => throw (.refused (.missingArgument next.name))
  | [] => pure ()
  match g.requirements.find? fun (a, b) => p.met.contains a ∧ !p.met.contains b with
  | some (a, b) => throw (.refused (.requires (shown a) (shown b)))
  | none => pure ()

/-- The settings that a command line makes, starting from the given ones. -/
def read (settings : σ) (arguments : List String) : Except Stop σ := do
  let p ← readFrom g arguments.length ⟨settings, [], g.positionals⟩ arguments
  checkComplete g p
  return p.settings

/-- The line of an option in the help text. -/
def optionLine (o : CommandOption σ) : String :=
  let short := match o.short with
    | some c => String.ofList ['-', c, ',', ' ']
    | none => ""
  let value := match o.effect with
    | .flag _ => ""
    | .value _ => " <VALUE>"
  s!"  {short}{shown o.long}{value}\n      {o.description}\n"

/-- The help text. -/
def helpText : String :=
  let usage := " ".intercalate (g.name :: "[OPTIONS]" :: g.positionals.map fun a => s!"<{a.name}>")
  s!"{g.description}\n\nUsage: {usage}\n\nArguments:\n" ++
    String.join (g.positionals.map fun a => s!"  <{a.name}>  {a.description}\n") ++
    "\nOptions:\n" ++ String.join (g.options.map optionLine) ++ "  -h, --help\n      Print help\n"

end Grammar

end CircuitEquiv
