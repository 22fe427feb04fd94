import GateFusion.Document.Yaml.Cursor
import GateFusion.Text.Radix

/-!
# Scalars of the indentation syntax

Plain, single-quoted and double-quoted scalars. A scalar may go on over several lines: blanks
around a line break are dropped, a single line break stands for a blank, and of several the first
is dropped. A line may not start with a mark of a document.
-/

namespace GateFusion.Document.Yaml

def folded (white : List Char) : List Char :=
  match white.filter isBreak with
  | [] => white
  | ['\n'] => [' ']
  | '\n' :: more => more
  | breaks => breaks

/-- Whether a tab stands left of a column on one of the lines that start after the first line
break; `column` is the present one on such a line. -/
def hasTabLeftOf (margin : Nat) (column : Option Nat) : List Char → Bool
  | [] => false
  | c :: rest =>
    if isBreak c then hasTabLeftOf margin (some 0) rest
    else (c = '\t' && column.any (· < margin)) || hasTabLeftOf margin (column.map (· + 1)) rest

/-- The characters of a plain scalar up to a blank, a line break, or a colon that ends a key; in
flow collections also up to a mark, which may not follow a colon. -/
def plainWord? (flow : Bool) : List Char → Option (List Char)
  | [] => some []
  | c :: rest =>
    if isWhite c || (flow && isFlowMark c) then some []
    else if c = ':' && endsWord rest then some []
    else if c = ':' && flow && rest.head?.any fun x => isFlowMark x || x = '?' then none
    else (plainWord? flow rest).map (c :: ·)

/-- The further words of a plain scalar, where it ends, and whether a line break comes last. In
blocks the words have to stand in column `margin` or right of it. -/
def plainWords? (flow : Bool) (margin : Nat) : Nat → Cursor → Option (List Char × Cursor × Bool)
  | 0, _ => none
  | fuel + 1, c =>
    let white := c.rest.takeWhile isWhite
    let d := c.advance white.length
    let crossed := white.any isBreak
    if white.isEmpty then some ([], c, false)
    else if hasTabLeftOf margin none white then none
    else if (!flow && d.column < margin) || d.atDocumentMark || d.rest.head? == some '#' then
      some ([], d, crossed)
    else do
      let word ← plainWord? flow d.rest
      if word.isEmpty then return ([], d, crossed)
      else
        let (more, last, crossed) ← plainWords? flow margin fuel (d.advance word.length)
        return (folded white ++ word ++ more, last, crossed)

/-- The text of a plain scalar, where it ends, and whether a line break comes last. -/
def plain? (flow : Bool) (margin fuel : Nat) (c : Cursor) :
    Option (List Char × Cursor × Bool) := do
  let word ← plainWord? flow c.rest
  let (more, last, crossed) ← plainWords? flow margin fuel (c.advance word.length)
  return (word ++ more, last, crossed)

/-- The text of a single-quoted scalar after its opening quote, and where it ends. A quote inside
is written twice. -/
def singleQuoted? : Nat → Cursor → Option (List Char × Cursor)
  | 0, _ => none
  | fuel + 1, c =>
    if c.atDocumentMark then none
    else
      match c.rest with
      | [] => none
      | '\'' :: '\'' :: _ => (singleQuoted? fuel (c.advance 2)).map fun (s, d) => ('\'' :: s, d)
      | '\'' :: _ => some ([], c.next)
      | x :: _ =>
        if isWhite x then
          let white := c.rest.takeWhile isWhite
          (singleQuoted? fuel (c.advance white.length)).map fun (s, d) => (folded white ++ s, d)
        else (singleQuoted? fuel c.next).map fun (s, d) => (x :: s, d)

def escapedLetter? (c : Char) : Option Char :=
  [('0', '\x00'), ('a', '\x07'), ('b', '\x08'), ('t', '\t'), ('\t', '\t'), ('n', '\n'),
    ('v', '\x0b'), ('f', '\x0c'), ('r', '\r'), ('e', '\x1b'), (' ', ' '), ('"', '"'), ('/', '/'),
    ('\\', '\\'), ('N', '\u0085'), ('_', '\u00a0'), ('L', '\u2028'), ('P', '\u2029')].lookup c

/-- The character of a number, which may not be a surrogate. -/
def charOfCode? (n : Nat) : Option Char :=
  if n.isValidChar then some (Char.ofNat n) else none

/-- The character that an escape stands for, and its length after the backslash. -/
def escaped? : List Char → Option (Char × Nat)
  | [] => none
  | letter :: rest =>
    let width :=
      if letter = 'x' then 2 else if letter = 'u' then 4 else if letter = 'U' then 8 else 0
    if width = 0 then (escapedLetter? letter).map fun c => (c, 1)
    else if rest.length < width then none
    else do
      let c ← charOfCode? (← Text.natOfDigits? 16 (rest.take width))
      return (c, width + 1)

/-- The text of a double-quoted scalar after its opening quote, and where it ends. A line break
after a backslash is dropped, and so is a blank for it. -/
def doubleQuoted? : Nat → Cursor → Option (List Char × Cursor)
  | 0, _ => none
  | fuel + 1, c =>
    if c.atDocumentMark then none
    else
      match c.rest with
      | [] => none
      | '"' :: _ => some ([], c.next)
      | '\\' :: rest =>
        if rest.head?.any isBreak then
          let white := rest.drop 1 |>.takeWhile isWhite
          (doubleQuoted? fuel (c.advance (white.length + 2))).map fun (s, d) =>
            (white.filter isBreak ++ s, d)
        else do
          let (x, width) ← escaped? rest
          let (s, d) ← doubleQuoted? fuel (c.advance (width + 1))
          return (x :: s, d)
      | x :: _ =>
        if isWhite x then
          let white := c.rest.takeWhile isWhite
          (doubleQuoted? fuel (c.advance white.length)).map fun (s, d) => (folded white ++ s, d)
        else (doubleQuoted? fuel c.next).map fun (s, d) => (x :: s, d)

end GateFusion.Document.Yaml
