/-!
# Characters of the indentation syntax

The characters that a text may hold, and the classes that its grammar tells apart: blanks, line
breaks, and the marks of flow collections.
-/

namespace GateFusion.Document.Yaml

/-- Write every line break that is kept in no scalar as a line feed. -/
def unifyBreaks : List Char → List Char
  | [] => []
  | '\r' :: '\n' :: rest => '\n' :: unifyBreaks rest
  | c :: rest => (if c = '\r' || c = '\u0085' then '\n' else c) :: unifyBreaks rest

/-- Whether a text with unified line breaks may hold a character. -/
def isAllowed (c : Char) : Bool :=
  c = '\t' || c = '\n' || (' ' ≤ c && c ≤ '~') ||
    ('\u00a0' ≤ c && c ≠ '\ufffe' && c ≠ '\uffff')

def isBlank (c : Char) : Bool := c = ' ' || c = '\t'

/-- Whether a character ends a line: a line feed or one of the two separators, of lines and of
paragraphs. -/
def isBreak (c : Char) : Bool := c = '\n' || c = '\u2028' || c = '\u2029'

def isWhite (c : Char) : Bool := isBlank c || isBreak c

def endsWord (rest : List Char) : Bool := rest.head?.all isWhite

def isFlowMark (c : Char) : Bool :=
  c = ',' || c = '[' || c = ']' || c = '\x7b' || c = '\x7d'

/-- Whether a character has a meaning of its own where a scalar could start. -/
def isIndicator (c : Char) : Bool :=
  isFlowMark c || "#&*!|>'\"%@\x60".toList.contains c

end GateFusion.Document.Yaml
