import CyclicProof.Config.Basic

/-!
# Where the configuration is kept

The environment names either the configuration file itself or a directory that it lies in.
-/

namespace CyclicProof

/-- The variables of the environment that say where the configuration is kept. A variable that is
set to the empty text counts as set. -/
structure Environment where
  /-- The configuration file. -/
  configFile : Option String
  /-- The directory of the user's configuration files. -/
  configHome : Option String
  /-- The user's home directory. -/
  home : Option String
deriving DecidableEq, Repr

/-- Continue a path by another one. An absolute path takes the place of what stands before it, and a
slash is put between the two unless the first is empty or ends in one. -/
def joinPath (base rest : String) : String :=
  if rest.toList.head? = some '/' then rest
  else
    match base.toList.getLast? with
    | none => rest
    | some '/' => base ++ rest
    | some _ => base ++ "/" ++ rest

namespace SearchConfig

/-- The directory that the directory of the configuration file lies in; empty if the environment
does not name one. -/
def baseDirectory (env : Environment) : String :=
  match env.configHome, env.home with
  | some directory, _ => directory
  | none, some directory => joinPath directory ".config"
  | none, none => ""

/-- The path of the configuration file. -/
def path (env : Environment) : String :=
  match env.configFile with
  | some file => file
  | none => joinPath (joinPath (baseDirectory env) "cyclic") "search.toml"

end SearchConfig

end CyclicProof
