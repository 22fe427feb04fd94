import GateFusion.Document.Yaml.Layout
import GateFusion.Document.Yaml.Tree

/-!
# Indentation syntax

Reading of texts that show nesting by indentation or by brackets and braces: block and flow
collections, plain and quoted scalars, comments, and a single document per text. A plain scalar
keeps its text, since what it means depends on the field it stands in.
-/

namespace GateFusion.Document.Yaml

def read? (source : String) : Option Node :=
  let cs := unifyBreaks source.toList
  if cs.all isAllowed then (Token.ofChars? cs).bind document? else none

end GateFusion.Document.Yaml
