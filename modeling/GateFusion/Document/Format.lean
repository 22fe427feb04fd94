import GateFusion.Document.Json
import GateFusion.Document.Yaml

/-!
# Formats of documents

A document is written in one of two formats, which the extension of its file tells apart.
-/

namespace GateFusion.Document

def fileName? (path : String) : Option String :=
  match ((path.splitOn "/").filter fun p => p ≠ "" ∧ p ≠ ".").getLast? with
  | some name => if name = ".." then none else some name
  | none => none

/-- A file name before and after its last point; a point at the start counts as part of the
name. -/
def splitExtension (name : String) : String × Option String :=
  let parts := name.splitOn "."
  let stem := ".".intercalate parts.dropLast
  if name = ".." || stem.isEmpty then (name, none) else (stem, parts.getLast?)

def fileStem? (path : String) : Option String :=
  (fileName? path).map fun name => (splitExtension name).1

inductive Format where
  | json
  | yaml
deriving DecidableEq

namespace Format

/-- JSON for the extension `json` in any case, and YAML for all others. -/
def ofPath (path : String) : Format :=
  match (fileName? path).bind fun name => (splitExtension name).2 with
  | some extension => if extension.toLower = "json" then .json else .yaml
  | none => .yaml

def name : Format → String
  | .json => "JSON"
  | .yaml => "YAML"

/-- Whether a record may be written as the sequence of its fields. -/
def isPositional (format : Format) : Bool := format = .json

def read? (format : Format) (source : String) : Option Node :=
  match format with
  | .json => Json.read? source
  | .yaml => Yaml.read? source

end Format
end GateFusion.Document
