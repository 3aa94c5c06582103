/-
The arguments of the command line: `plan`, a file, and options that may stand before or after it.

An option's value follows it as the next argument or stands in the same one, after `=` or, for a short option, without
anything between. A value in an argument of its own does not begin with a dash, unless it is the dash alone. After the
argument `--` every argument is a file. `--select` may stand more than once, the other options and the file may not.
-/
import SemanticPlanner.Text.Split

namespace SemanticPlanner.Command

/-- what is printed of a plan -/
inductive Format where
  /-- the nodes, indented -/
  | tree
  /-- the steps as they are written out first, as JSON -/
  | json
  /-- the steps after every rule ran -/
  | ctes
deriving DecidableEq, Repr, Inhabited

def Format.ofName? (name : String) : Option Format :=
  [("tree", Format.tree), ("json", .json), ("ctes", .ctes)].lookup name

structure Arguments where
  file : String
  select : List String
  config : Option String
  format : Format
deriving Inhabited

namespace Arguments

inductive Flag where
  | select | config | output
deriving DecidableEq, Repr

/-- what the arguments read so far say -/
structure Reading where
  file : Option String := none
  select : List String := []
  config : Option String := none
  format : Option Format := none

def Flag.ofLong? (name : List Char) : Option Flag :=
  [("select", Flag.select), ("config", .config), ("output", .output)].lookup (String.ofList name)

def Flag.ofShort? (c : Char) : Option Flag := [('s', Flag.select), ('c', .config), ('o', .output)].lookup c

/-- an option with its value; names are separated by commas, a path is not empty -/
def Reading.put (r : Reading) (flag : Flag) (value : String) : Option Reading :=
  match flag with
  | .select => some { r with select := r.select ++ Text.splitAt ',' value }
  | .config => if r.config.isSome || value.isEmpty then none else some { r with config := some value }
  | .output => if r.format.isSome then none else (Format.ofName? value).map fun f => { r with format := some f }

def Reading.putFile (r : Reading) (path : String) : Option Reading :=
  if r.file.isSome || path.isEmpty then none else some { r with file := some path }

/-- an option without or with the value that stands in the same argument; none if it is no option -/
def option? (cs : List Char) : Option (Option (Flag × Option (List Char))) :=
  match cs with
  | '-' :: '-' :: long =>
    let value := match long.dropWhile (· != '=') with
      | '=' :: v => some v
      | _ => none
    some ((Flag.ofLong? (long.takeWhile (· != '='))).map fun f => (f, value))
  | ['-', c] => some ((Flag.ofShort? c).map fun f => (f, none))
  | '-' :: c :: '=' :: v => some ((Flag.ofShort? c).map fun f => (f, some v))
  | '-' :: c :: v => some ((Flag.ofShort? c).map fun f => (f, some v))
  | _ => none

/-- every argument after `plan` read -/
def readAll (r : Reading) : List String → Option Reading
  | [] => some r
  | a :: rest =>
    if a = "--" then rest.foldlM Reading.putFile r
    else match option? a.toList, rest with
      | none, rest => do readAll (← r.putFile a) rest
      | some none, _ => none
      | some (some (flag, some value)), rest => do readAll (← r.put flag (String.ofList value)) rest
      | some (some (_, none)), [] => none
      | some (some (flag, none)), value :: rest =>
        if (option? value.toList).isSome then none else do readAll (← r.put flag value) rest

/-- the arguments, if they say what to plan -/
def read : List String → Option Arguments
  | "plan" :: rest => do
    let r ← readAll {} rest
    pure ⟨← r.file, r.select, r.config, r.format.getD .tree⟩
  | _ => none

/-- the files that a run reads -/
def paths (a : Arguments) : List String := a.config.toList ++ [a.file]

end Arguments

end SemanticPlanner.Command
