import SignalAtlas.Disk.Path

/-!
# Arguments of the command line

The command line consists of flags for the whole program, the name of a command, and flags and a
path for that command. Flags for the whole program may also follow the command. After two dashes
everything is a path.

`Arguments.parse` reads arguments from left to right and stops at the first that it refuses, or
that asks for help or the version.
-/

namespace SignalAtlas

/-- What the program can be told to do: scan a project and count its signals, report the signals
that are not used, or group the files that are tied by signals. -/
inductive CommandName where
  | scan
  | unused
  | clusters
  deriving DecidableEq, Repr

/-- A flag of the command line. With `full` all files are parsed, and with `includeUndeclared`
signals without a declaration are reported too. -/
inductive Switch where
  | verbose
  | quiet
  | full
  | json
  | includeUndeclared
  | help
  | version
  deriving DecidableEq, Repr

/-- A command with the path of its project and the flags after it. -/
structure Invocation where
  command : CommandName
  path : Path
  switches : List Switch

/-- Whether a flag is set. -/
def Invocation.has (i : Invocation) (s : Switch) : Bool := i.switches.contains s

namespace Arguments

/-- Why no command is run: help or the version is asked for, or the arguments make no command. -/
inductive Ending where
  | help
  | version
  | invalid
  deriving DecidableEq, Repr

/-- The flags that are known at some place, by name and by letter. -/
structure Known where
  long : List (String × Switch)
  short : List (Char × Switch)

/-- The flags before the command. -/
def before : Known :=
  ⟨[("verbose", .verbose), ("quiet", .quiet), ("help", .help), ("version", .version)],
    [('v', .verbose), ('h', .help), ('V', .version)]⟩

/-- The flags after a command. -/
def after (c : CommandName) : Known :=
  let own :=
    match c with
    | .unused => [("include-undeclared", .includeUndeclared)]
    | _ => []
  ⟨own ++ [("full", .full), ("json", .json), ("verbose", .verbose), ("quiet", .quiet),
      ("help", .help)],
    [('v', .verbose), ('h', .help)]⟩

/-- The form of an argument: two dashes alone, two dashes and a name, one dash and letters, or
anything else. -/
inductive Token where
  | divider
  | long (name : String)
  | short (letters : List Char)
  | word
  deriving DecidableEq, Repr

/-- The form of an argument. -/
def token (arg : String) : Token :=
  match arg.toList with
  | ['-', '-'] => .divider
  | '-' :: '-' :: name => .long (.ofList name)
  | '-' :: c :: cs => .short (c :: cs)
  | _ => .word

/-- Set a flag. None may be set twice. -/
def set (seen : List Switch) : Option Switch → Except Ending (List Switch)
  | none => .error .invalid
  | some .help => .error .help
  | some .version => .error .version
  | some s => if seen.contains s then .error .invalid else .ok (seen ++ [s])

/-- Set the flags of letters. -/
def setLetters (known : Known) : List Switch → List Char → Except Ending (List Switch)
  | seen, [] => .ok seen
  | seen, c :: cs =>
    match set seen (known.short.lookup c) with
    | .error e => .error e
    | .ok seen => setLetters known seen cs

/-- The path of a command, if it is given once and is not empty. -/
def setPath (path : Option String) (arg : String) : Except Ending (Option String) :=
  match path with
  | some _ => .error .invalid
  | none => if arg.isEmpty then .error .invalid else .ok (some arg)

/-- Read what follows the dashes after a command. -/
def paths : Option String → List String → Except Ending (Option String)
  | path, [] => .ok path
  | path, arg :: args =>
    match setPath path arg with
    | .error e => .error e
    | .ok path => paths path args

/-- Read what follows a command. -/
def options (c : CommandName) :
    List Switch → Option String → List String → Except Ending (List Switch × Option String)
  | seen, path, [] => .ok (seen, path)
  | seen, path, arg :: args =>
    match token arg with
    | .divider => (paths path args).map fun path => (seen, path)
    | .long name =>
      match set seen ((after c).long.lookup name) with
      | .error e => .error e
      | .ok seen => options c seen path args
    | .short letters =>
      match setLetters (after c) seen letters with
      | .error e => .error e
      | .ok seen => options c seen path args
    | .word =>
      match setPath path arg with
      | .error e => .error e
      | .ok path => options c seen path args

/-- The command of a name. -/
def command? : String → Option CommandName
  | "scan" => some .scan
  | "unused" => some .unused
  | "clusters" => some .clusters
  | _ => none

/-- The word that asks for help in place of a command. -/
def helpName : String := "help"

/-- What the arguments after the word for help ask for: help on the whole program or on one command,
which may be help itself. -/
def helpOn : List String → Ending
  | [] => .help
  | [name] => if (command? name).isSome || name == helpName then .help else .invalid
  | _ => .invalid

/-- The path of a project if none is given. -/
def defaultPath : String := "."

/-- Read arguments after the flags that are seen so far. -/
def parseAfter : List Switch → List String → Except Ending Invocation
  | _, [] => .error .invalid
  | seen, arg :: args =>
    match token arg with
    | .divider => .error .invalid
    | .long name =>
      match set seen (before.long.lookup name) with
      | .error e => .error e
      | .ok seen => parseAfter seen args
    | .short letters =>
      match setLetters before seen letters with
      | .error e => .error e
      | .ok seen => parseAfter seen args
    | .word =>
      match command? arg with
      | none => .error (if arg == helpName then helpOn args else .invalid)
      | some c =>
        (options c [] none args).map fun (switches, path) =>
          ⟨c, ⟨path.getD defaultPath⟩, switches⟩

/-- Read the arguments of the program. -/
def parse (args : List String) : Except Ending Invocation := parseAfter [] args

end Arguments

end SignalAtlas
