import Crosslink.Framework

/-!
# The command line

What a run is asked to do: one of three commands, and options that hold for all of them. Those may
stand before the command or after it, and an option after it wins; standing twice on one side is an
error.

An option may be followed by its value, or by an equals sign and its value. The value of an option
is looked at only when something comes after it on its side of the command, and the side after the
command is read first; this decides which of two errors is told.
-/

namespace Crosslink

/-! ## What can be asked -/

/-- The forms of output. -/
inductive Format where
  | text
  | json
  deriving DecidableEq, Repr

/-- The levels of log output. -/
inductive LogLevel where
  | trace
  | debug
  | info
  | warn
  | error
  deriving DecidableEq, Repr

/-- The commands with their own options. -/
inductive Command where
  | scan
  | sync (dryRun linkOnly prune : Bool)
  | report (method : Option Text)
  deriving DecidableEq, Repr

/-- What a run is asked to do. -/
structure CommandLine where
  command : Command
  projectRoot : Path := "."
  /-- The framework to look for tests with; without one those that the project uses. -/
  framework : Option Framework := none
  format : Format := .text
  logLevel : LogLevel := .warn
  logJson : Bool := false
  /-- Directories with the namespaces of the tests in them. -/
  testMappings : List (Text × Text) := []
  deriving DecidableEq, Repr

/-- Why arguments are no command line, or what they ask for instead of a run. -/
inductive UsageError where
  | invalidValue
  | valueValidation
  | unknownArgument
  | invalidSubcommand
  | argumentConflict
  | tooManyValues
  | missingSubcommand
  | displayHelp
  | displayVersion
  | displayHelpOnMissing
  deriving DecidableEq, Repr

/-- Why a text is no test mapping. -/
inductive MappingError where
  | missingSeparator (input : Text)
  | emptyDirectory (input : Text)
  deriving DecidableEq, Repr

/-- The error in words. -/
def MappingError.message : MappingError → Text
  | missingSeparator input =>
    "invalid test mapping '" ++ input
      ++ "', expected '<dir>=<namespace>' (e.g., 'tests/=Tests\\')"
  | emptyDirectory input => "invalid test mapping '" ++ input ++ "': directory is empty"

/-- Read a test mapping: a directory, an equals sign, and a namespace. -/
def readTestMapping (input : Text) : Except MappingError (Text × Text) :=
  match Text.splitFirst "=" input with
  | none => .error (.missingSeparator input)
  | some (directory, ns) =>
    if Text.trim isBlank directory = [] then .error (.emptyDirectory input)
    else .ok (Text.trim isBlank directory, Text.trim isBlank ns)

namespace CommandLine

/-! ## Options -/

/-- The options that take a value. -/
inductive ValueOption where
  | projectRoot
  | framework
  | format
  | logLevel
  | testMapping
  | method
  deriving DecidableEq, Repr

/-- The options that take none. -/
inductive Flag where
  | logJson
  | dryRun
  | linkOnly
  | prune
  | help
  | version
  deriving DecidableEq, Repr

/-- The names of the commands. -/
inductive Name where
  | scan
  | sync
  | report
  deriving DecidableEq, Repr

/-- The command with a name. -/
def Name.ofText (text : Text) : Option Name :=
  if text = ("scan" : Text) then some .scan
  else if text = ("sync" : Text) then some .sync
  else if text = ("report" : Text) then some .report
  else none

/-- The word that asks for help on commands. -/
def helpWord : Text := "help"

/-- The two sides of the command: before it and, once it is known, after it. -/
abbrev Side := Option Name

/-- The option with a name on a side, the dashes in front of it left out. -/
def optionNamed (side : Side) (name : Text) : Option (ValueOption ⊕ Flag) :=
  if name = ("project-root" : Text) then some (.inl .projectRoot)
  else if name = ("framework" : Text) then some (.inl .framework)
  else if name = ("format" : Text) then some (.inl .format)
  else if name = ("log-level" : Text) then some (.inl .logLevel)
  else if name = ("test-mapping" : Text) then some (.inl .testMapping)
  else if name = ("log-json" : Text) then some (.inr .logJson)
  else if name = ("help" : Text) then some (.inr .help)
  else if name = ("version" : Text) && side = none then some (.inr .version)
  else if name = ("method" : Text) && side = some .report then some (.inl .method)
  else if name = ("dry-run" : Text) && side = some .sync then some (.inr .dryRun)
  else if name = ("link-only" : Text) && side = some .sync then some (.inr .linkOnly)
  else if name = ("prune" : Text) && side = some .sync then some (.inr .prune)
  else none

/-- The option with a letter on a side. -/
def optionLettered (side : Side) (letter : Char) : Option Flag :=
  if letter = 'h' then some .help
  else if letter = 'V' && side = none then some .version
  else none

/-- The options given on one side. -/
structure Given where
  projectRoot : Option Path := none
  framework : Option (Option Framework) := none
  format : Option Format := none
  logLevel : Option LogLevel := none
  testMappings : List (Text × Text) := []
  method : Option Text := none
  flags : List Flag := []

/-- The framework that a value asks for. -/
def frameworkOf (value : Text) : Option (Option Framework) :=
  if value = ("auto" : Text) then some none
  else (Framework.all.find? (·.name == value)).map some

/-- The form of output that a value asks for. -/
def formatOf (value : Text) : Option Format :=
  if value = ("text" : Text) then some .text
  else if value = ("json" : Text) then some .json
  else none

/-- The level of log output that a value asks for. -/
def logLevelOf (value : Text) : Option LogLevel :=
  if value = ("trace" : Text) then some .trace
  else if value = ("debug" : Text) then some .debug
  else if value = ("info" : Text) then some .info
  else if value = ("warn" : Text) then some .warn
  else if value = ("error" : Text) then some .error
  else none

/-- Set what is not set yet to a value that has to be one. -/
def setOnce {α : Type} (current value : Option α) : Except UsageError (Option α) :=
  if current.isSome then .error .argumentConflict
  else if value.isNone then .error .invalidValue
  else .ok value

/-- Give an option its value. -/
def Given.assign (g : Given) (o : ValueOption) (value : Text) : Except UsageError Given :=
  match o with
  | .projectRoot => do
    let root := if value = [] then none else some ⟨value⟩
    return { g with projectRoot := ← setOnce g.projectRoot root }
  | .framework => do return { g with framework := ← setOnce g.framework (frameworkOf value) }
  | .format => do return { g with format := ← setOnce g.format (formatOf value) }
  | .logLevel => do return { g with logLevel := ← setOnce g.logLevel (logLevelOf value) }
  | .method => do return { g with method := ← setOnce g.method (some value) }
  | .testMapping =>
    match readTestMapping value with
    | .ok mapping => .ok { g with testMappings := g.testMappings ++ [mapping] }
    | .error _ => .error .valueValidation

/-! ## One side of the command -/

/-- One side of the command as far as it has been read. -/
structure Reading where
  given : Given := {}
  /-- The option read last, with its value once that has been read. -/
  pending : Option (ValueOption × Option Text) := none

namespace Reading

/-- True when the next word is the value of an option. -/
def awaitsValue (r : Reading) : Bool :=
  match r.pending with
  | some (_, none) => true
  | _ => false

/-- Take in the option read last. -/
def settle (r : Reading) : Except UsageError Given :=
  match r.pending with
  | none => .ok r.given
  | some (_, none) => .error .invalidValue
  | some (o, some value) => r.given.assign o value

/-- Take in a flag. -/
def raise (r : Reading) (f : Flag) : Except UsageError Reading := do
  let given ← r.settle
  match f with
  | .help => throw .displayHelp
  | .version => throw .displayVersion
  | f =>
    if given.flags.contains f then throw .argumentConflict
    return ⟨{ given with flags := given.flags ++ [f] }, none⟩

/-- Take in an option written with two dashes, with its value if an equals sign gives one. -/
def long (r : Reading) (side : Side) (name : Text) (value? : Option Text) :
    Except UsageError Reading :=
  match optionNamed side name, value? with
  | none, _ => .error .unknownArgument
  | some (.inl o), some value => do return ⟨← (← r.settle).assign o value, none⟩
  | some (.inl o), none => do return ⟨← r.settle, some (o, none)⟩
  | some (.inr _), some _ => .error .tooManyValues
  | some (.inr f), none => r.raise f

/-- Take in options written as letters after one dash. -/
def short (r : Reading) (side : Side) : Text → Except UsageError Reading
  | [] => .ok r
  | letter :: rest =>
    match optionLettered side letter with
    | none => .error .unknownArgument
    | some f => do (← r.raise f).short side rest

/-- Take in an argument that begins with a dash. -/
def dashed (r : Reading) (side : Side) (argument : Text) : Except UsageError Reading :=
  match argument with
  | '-' :: '-' :: text =>
    match Text.splitFirst "=" text with
    | some (name, value) => r.long side name (some value)
    | none => r.long side text none
  | _ => r.short side (argument.drop 1)

end Reading

/-- The error of a word that has no place on a side. Before the command, one that is no command
was meant to be one, unless two dashes stand before it. -/
def strayWord (side : Side) (afterDashes : Bool) (word : Text) : UsageError :=
  if side.isSome then .unknownArgument
  else if afterDashes && ((Name.ofText word).isSome || word = helpWord) then .unknownArgument
  else .invalidSubcommand

/-- What help on the words after `help` comes to: at most one command has help of its own. -/
def helpOn : List Text → UsageError
  | [] => .displayHelp
  | [word] =>
    if (Name.ofText word).isSome || word = helpWord then .displayHelp else .invalidSubcommand
  | _ => .invalidSubcommand

/-- Read a side of the command: up to the command before it, with what follows that, and up to the
end after it. -/
def readSide (side : Side) (r : Reading) :
    List Text → Except UsageError (Reading × Option (Name × List Text))
  | [] => .ok (r, none)
  | argument :: rest =>
    if side.isNone && !r.awaitsValue && argument = helpWord then .error (helpOn rest)
    else if side.isNone && !r.awaitsValue && (Name.ofText argument).isSome then
      .ok (r, (Name.ofText argument).map (·, rest))
    else if argument = ("--" : Text) then
      match rest with
      | [] => .ok (r, none)
      | word :: _ => .error (strayWord side true word)
    else if argument.head? = some '-' && argument ≠ ['-'] then do
      readSide side (← r.dashed side argument) rest
    else match r.pending with
      | some (o, none) => readSide side { r with pending := some (o, some argument) } rest
      | _ => .error (strayWord side false argument)

/-! ## The whole command line -/

/-- The command with a name and its own options. -/
def commandOf (name : Name) (g : Given) : Command :=
  match name with
  | .scan => .scan
  | .sync => .sync (g.flags.contains .dryRun) (g.flags.contains .linkOnly) (g.flags.contains .prune)
  | .report => .report g.method

/-- What is asked with these options before the command and these after it. -/
def combine (name : Name) (before after : Given) : CommandLine where
  command := commandOf name after
  projectRoot := (after.projectRoot <|> before.projectRoot).getD "."
  framework := (after.framework <|> before.framework).getD none
  format := (after.format <|> before.format).getD .text
  logLevel := (after.logLevel <|> before.logLevel).getD .warn
  logJson := after.flags.contains .logJson || before.flags.contains .logJson
  testMappings := if after.testMappings.isEmpty then before.testMappings else after.testMappings

/-- Read the arguments of a run. -/
def parse (arguments : List Text) : Except UsageError CommandLine := do
  match ← readSide none {} arguments with
  | (before, some (name, rest)) =>
    let (after, _) ← readSide (some name) {} rest
    let given ← after.settle
    return combine name (← before.settle) given
  | (before, none) =>
    let _ ← before.settle
    throw (if before.pending.isNone && before.given.flags.isEmpty
        && before.given.projectRoot.isNone && before.given.framework.isNone
        && before.given.format.isNone && before.given.logLevel.isNone
        && before.given.testMappings.isEmpty then .displayHelpOnMissing else .missingSubcommand)

end CommandLine

end Crosslink
