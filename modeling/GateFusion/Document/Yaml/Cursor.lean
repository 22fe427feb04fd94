import GateFusion.Document.Yaml.Character

/-!
# Cursors

A place in a text: what is left to read, with the line and the column of its first character.
-/

namespace GateFusion.Document.Yaml

/-- What is left of a text, and the line and the column of its first character. -/
structure Cursor where
  rest : List Char
  line : Nat
  column : Nat

namespace Cursor

def start (cs : List Char) : Cursor := ⟨cs, 0, 0⟩

def next (c : Cursor) : Cursor :=
  match c.rest with
  | [] => c
  | x :: rest => if isBreak x then ⟨rest, c.line + 1, 0⟩ else ⟨rest, c.line, c.column + 1⟩

def advance (c : Cursor) : Nat → Cursor
  | 0 => c
  | n + 1 => c.next.advance n

/-- Whether the line starts with the given mark of a document. -/
def atMark (c : Cursor) (mark : String) : Bool :=
  c.column = 0 && mark.toList.isPrefixOf c.rest && endsWord (c.rest.drop mark.length)

def atDocumentMark (c : Cursor) : Bool := c.atMark "---" || c.atMark "..."

end Cursor

end GateFusion.Document.Yaml
