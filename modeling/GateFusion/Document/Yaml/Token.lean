/-!
# Tokens of the indentation syntax

The parts of a text once its lines and columns no longer matter: where indentation opens and closes
a collection there is a token for it.
-/

namespace GateFusion.Document.Yaml

/-- Parts of a text. A key and its value each follow a token that announces them. -/
inductive Token where
  | documentStart
  | documentEnd
  | blockSequence
  | blockMapping
  | blockEnd
  | openSequence
  | closeSequence
  | openMapping
  | closeMapping
  | comma
  | item
  | key
  | value
  | plain (s : String)
  | quoted (s : String)
deriving DecidableEq

end GateFusion.Document.Yaml
