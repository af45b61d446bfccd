import PhpDoc.Command

/-!
# Command line arguments

The name of a command comes first among the arguments that are no options.  Options may stand on
either side of it, and the value of an option follows as the next argument or after an equals sign.
-/

namespace PhpDoc

/-- The options of a command line. -/
structure Options where
  command : Option Text := none
  settingsFile : Option Text := none
  root : Option Text := none
  className : Option Text := none
  verbose : Bool := false
  dryRun : Bool := false
  force : Bool := false

namespace Options

/-- Takes an option without a value, or the name of the command. -/
def addFlag? (o : Options) (argument : Text) : Option Options :=
  if argument = "--verbose".toList ∨ argument = "-v".toList then some { o with verbose := true }
  else if argument = "--dry-run".toList then some { o with dryRun := true }
  else if argument = "--force".toList ∨ argument = "-f".toList then some { o with force := true }
  else if argument.head? = some '-' ∨ o.command.isSome then none
  else some { o with command := some argument }

/-- Takes an option with its value. -/
def addValue? (o : Options) (option value : Text) : Option Options :=
  if option = "--config".toList ∨ option = "-c".toList then
    some { o with settingsFile := some value }
  else if option = "--root".toList then some { o with root := some value }
  else if option = "--class".toList then some { o with className := some value }
  else none

/-- Takes an argument that no value follows. -/
def addAlone? (o : Options) (argument : Text) : Option Options :=
  match Text.cut? ['='] argument with
  | some (option, value) => o.addValue? option value
  | none => o.addFlag? argument

/-- Takes all arguments, starting from the options read so far. -/
def add? (o : Options) : List Text → Option Options
  | [] => some o
  | [argument] => o.addAlone? argument
  | argument :: value :: rest =>
    match o.addValue? argument value with
    | some o => o.add? rest
    | none => (o.addAlone? argument).bind fun o => o.add? (value :: rest)

/-- The command that the options ask for. -/
def command? (o : Options) : Option Command :=
  let root : Path := ⟨o.root.getD ['.']⟩
  if o.command = some "init".toList then some (.init o.force)
  else if o.command = some "sync".toList then
    some (.run (if o.dryRun then .dryRun else .write) root o.className)
  else if o.command = some "check".toList then some (.run .check root o.className)
  else none

end Options

/-- The invocation that a command line asks for. -/
def Invocation.ofArguments? (arguments : List Text) : Option Invocation := do
  let options ← Options.add? {} arguments
  let command ← options.command?
  let file := (options.settingsFile.map Path.mk).getD defaultSettingsFile
  return ⟨command, file, options.verbose⟩

end PhpDoc
