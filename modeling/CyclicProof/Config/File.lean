import CyclicProof.Config.Basic
import CyclicProof.Toml.Reader

/-!
# Configuration files

A search configuration is kept as a TOML document with three integers. `SearchConfig.ofText` reads
such a document, in which every setting may be missing and settings of other names are ignored, and
`SearchConfig.toText` writes one.
-/

namespace CyclicProof

/-- Why there is no configuration. -/
inductive ConfigError where
  /-- The text is not a TOML document, or a setting in it is not a number in range. -/
  | malformed
  /-- There is no file to read. -/
  | unreadable
deriving DecidableEq, Repr

namespace SearchConfig

/-! ## Reading -/

/-- A setting: `none` if the document does not make it. It has to be an integer that fits into an
unsigned word. -/
def setting (entries : Toml.Entries) (key : String) : Except ConfigError (Option UInt64) :=
  match entries.lookup key with
  | none => .ok none
  | some (.integer value) =>
    if 0 ≤ value ∧ value < UInt64.size then .ok (some value.toNat.toUInt64) else .error .malformed
  | some _ => .error .malformed

/-- The configuration that a document describes. Settings that it does not make have their
defaults. -/
def ofEntries (entries : Toml.Entries) : Except ConfigError SearchConfig := do
  let depth ← setting entries "max_depth"
  let workers ← setting entries "max_workers"
  let timeout ← setting entries "timeout_ms"
  return ⟨depth.getD default.maxDepth, workers, timeout.getD default.timeoutMs⟩

/-- Read a configuration. -/
def ofText (text : String) : Except ConfigError SearchConfig :=
  match Toml.read? text with
  | some entries => ofEntries entries
  | none => .error .malformed

/-- Read the configuration in a file, given the contents of the file if it exists. -/
def load : Option String → Except ConfigError SearchConfig
  | some text => ofText text
  | none => .error .unreadable

/-- Read the configuration in a file if it exists, and take the default otherwise. A file that
exists and is malformed is still an error. -/
def loadOrDefault : Option String → Except ConfigError SearchConfig
  | some text => ofText text
  | none => .ok default

/-! ## Writing -/

/-- A line with one setting. -/
def settingLine (key : String) (value : UInt64) : String :=
  key ++ " = " ++ String.ofList (Nat.toDigits 10 value.toNat) ++ "\n"

/-- Write a configuration, one setting on a line. The number of workers is left out if it is one per
processor. -/
def toText (config : SearchConfig) : String :=
  let workers := match config.maxWorkers with
    | some n => settingLine "max_workers" n
    | none => ""
  settingLine "max_depth" config.maxDepth ++ workers ++ settingLine "timeout_ms" config.timeoutMs

end SearchConfig

end CyclicProof
