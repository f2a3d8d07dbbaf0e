/-!
# Arguments

The command line names one output and may set options. Arguments are read from left to right: a request
for help or the version is answered as soon as it is met, whatever follows, and a wrong argument before it
wins. After `--` every argument is an output. No option may be given twice, and no path may be empty.
-/

namespace EnumBinding.CommandLine

inductive Setting where
  | config
  | header
  | versionHeader
deriving DecidableEq, Repr

inductive Switch where
  | verbose
  | help
  | version
deriving DecidableEq, Repr

inductive Flag where
  | setting (setting : Setting)
  | switch (switch : Switch)
deriving DecidableEq, Repr

def Flag.ofLong? (name : List Char) : Option Flag :=
  [("config", Flag.setting .config), ("header", .setting .header),
    ("version-header", .setting .versionHeader), ("verbose", .switch .verbose),
    ("help", .switch .help), ("version", .switch .version)].lookup (String.ofList name)

def Flag.ofShort? : Char → Option Flag
  | 'c' => some (.setting .config)
  | 'v' => some (.switch .verbose)
  | 'h' => some (.switch .help)
  | 'V' => some (.switch .version)
  | _ => none

structure Arguments where
  output : String
  config : Option String
  header : Option String
  versionHeader : Option String
  verbose : Bool
deriving DecidableEq, Repr

inductive Request where
  | help
  | version
  | run (arguments : Arguments)
deriving DecidableEq, Repr

structure Draft where
  output : Option String := none
  config : Option String := none
  header : Option String := none
  versionHeader : Option String := none
  verbose : Bool := false
deriving DecidableEq, Repr

namespace Draft

def path? (old : Option String) (path : String) : Option (Option String) :=
  if old.isSome || path.isEmpty then none else some (some path)

def setOutput? (draft : Draft) (path : String) : Option Draft := do
  return { draft with output := ← path? draft.output path }

def set? (draft : Draft) (setting : Setting) (path : String) : Option Draft := do
  match setting with
  | .config => return { draft with config := ← path? draft.config path }
  | .header => return { draft with header := ← path? draft.header path }
  | .versionHeader => return { draft with versionHeader := ← path? draft.versionHeader path }

def setVerbose? (draft : Draft) : Option Draft :=
  if draft.verbose then none else some { draft with verbose := true }

def finish? (draft : Draft) : Option Request := do
  return .run {
    output := ← draft.output
    config := draft.config
    header := draft.header
    versionHeader := draft.versionHeader
    verbose := draft.verbose }

end Draft

inductive Progress where
  | more (draft : Draft)
  /-- The next argument is the value of an option. -/
  | value (draft : Draft) (setting : Setting)
  | done (request : Request)

def Draft.turn? (draft : Draft) : Switch → Option Progress
  | .verbose => (draft.setVerbose?).map .more
  | .help => some (.done .help)
  | .version => some (.done .version)

/-- Reads an argument behind its two hyphens: a name, and a value behind an equals sign. -/
def Draft.long? (draft : Draft) (cs : List Char) : Option Progress := do
  let flag ← Flag.ofLong? (cs.takeWhile (· != '='))
  match flag, cs.dropWhile (· != '=') with
  | .setting setting, [] => return .value draft setting
  | .setting setting, _ :: path => return .more (← draft.set? setting (String.ofList path))
  | .switch switch, [] => draft.turn? switch
  | .switch _, _ :: _ => none

/-- Reads a cluster of options behind its hyphen. What follows an option with a value is the value, with
or without an equals sign before it. -/
def Draft.cluster? (draft : Draft) : List Char → Option Progress
  | [] => some (.more draft)
  | c :: cs => do
    match ← Flag.ofShort? c with
    | .setting setting =>
      match cs with
      | [] => return .value draft setting
      | '=' :: path => return .more (← draft.set? setting (String.ofList path))
      | path => return .more (← draft.set? setting (String.ofList path))
    | .switch switch =>
      match ← draft.turn? switch with
      | .more draft => draft.cluster? cs
      | progress => return progress

def Draft.argument? (draft : Draft) (argument : String) : Option Progress :=
  match argument.toList with
  | '-' :: '-' :: cs => draft.long? cs
  | '-' :: c :: cs => draft.cluster? (c :: cs)
  | _ => (draft.setOutput? argument).map .more

def isValue (argument : String) : Bool := argument == "-" || argument.toList.head? != some '-'

def Draft.outputs? (draft : Draft) : List String → Option Request
  | [] => draft.finish?
  | argument :: rest => do (← draft.setOutput? argument).outputs? rest

def Draft.read? (draft : Draft) : List String → Option Request
  | [] => draft.finish?
  | "--" :: rest => draft.outputs? rest
  | argument :: rest =>
    match draft.argument? argument with
    | none => none
    | some (.more draft) => draft.read? rest
    | some (.done request) => some request
    | some (.value draft setting) =>
      match rest with
      | [] => none
      | path :: rest =>
        if isValue path then
          match draft.set? setting path with
          | some draft => draft.read? rest
          | none => none
        else
          none

def request? (arguments : List String) : Option Request := Draft.read? {} arguments

end EnumBinding.CommandLine
