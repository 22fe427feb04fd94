import GateFusion.Decimal.Text

/-!
# Document nodes

What a structured document holds once its syntax is gone: scalars, sequences and mappings. Fields of
a mapping keep their order and may repeat. An unquoted scalar of the indentation syntax is kept as
its text, because what it means depends on the field it stands in.
-/

namespace GateFusion.Document

/-- A value in a document. A number too large for a double is held as infinite. -/
inductive Node where
  | null
  | bool (b : Bool)
  | int (n : Int)
  | float (x : Binary64)
  | text (s : String)
  | plain (s : String)
  | seq (items : List Node)
  | map (fields : List (String × Node))

instance : Inhabited Node := ⟨.null⟩

end GateFusion.Document
