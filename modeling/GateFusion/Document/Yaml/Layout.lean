import GateFusion.Document.Yaml.Scalar
import GateFusion.Document.Yaml.Token

/-!
# Layout

The tokens of a text. Outside flow collections the column of a key or of an item decides which
collections it opens and closes. What turns out to be a key only at its colon is announced by a
token that is put in front of it then, which a key on one line and of at most 1024 characters
allows. Anchors, tags, directives and literal blocks are refused.
-/

namespace GateFusion.Document.Yaml

/-- Where a key may have started: the number of tokens before it and its place. A key is required
where nothing else can stand. -/
structure KeyStart where
  index : Nat
  line : Nat
  column : Nat
  required : Bool

def KeyStart.isStale (k : KeyStart) (c : Cursor) : Bool :=
  k.line < c.line || k.column + 1024 < c.column

/-- How far the tokens of a text are known: the columns of the open block collections, and the
possible key of every open flow collection and of the block around them, innermost first. -/
structure Layout where
  cursor : Cursor
  tokens : Array Token
  indents : List Nat
  keys : List (Option KeyStart)
  keyAllowed : Bool

namespace Layout

def start (cs : List Char) : Layout := ⟨.start cs, #[], [], [none], true⟩

def inFlow (l : Layout) : Bool := 1 < l.keys.length

def margin (l : Layout) : Nat :=
  match l.indents with
  | [] => 0
  | column :: _ => column + 1

/-- Move over blanks, line breaks and comments. A line break allows a key in a block; a tab may
stand only where no key is allowed. -/
def skip (flow : Bool) : List Char → Nat → Nat → Bool → Bool → Cursor × Bool
  | [], line, column, keyAllowed, _ => (⟨[], line, column⟩, keyAllowed)
  | c :: rest, line, column, keyAllowed, comment =>
    if isBreak c then skip flow rest (line + 1) 0 (keyAllowed || !flow) false
    else if comment || c = '#' then skip flow rest line (column + 1) keyAllowed true
    else if c = ' ' || (c = '\t' && (flow || !keyAllowed)) || (c = '\ufeff' && column = 0) then
      skip flow rest line (column + 1) keyAllowed false
    else (⟨c :: rest, line, column⟩, keyAllowed)

def toToken (l : Layout) : Layout :=
  let (cursor, keyAllowed) :=
    skip l.inFlow l.cursor.rest l.cursor.line l.cursor.column l.keyAllowed false
  { l with cursor, keyAllowed }

/-- Forget the keys that are stale, of which none may be required. -/
def dropStale (l : Layout) : Option Layout :=
  if l.keys.any fun k => k.any fun k => k.required && k.isStale l.cursor then none
  else some { l with keys := l.keys.map (Option.filter fun k => !k.isStale l.cursor) }

def dropKey (l : Layout) : Option Layout :=
  match l.keys with
  | some k :: outer => if k.required then none else some { l with keys := none :: outer }
  | _ => some l

def saveKey (l : Layout) : Option Layout :=
  if l.keyAllowed then do
    let l ← l.dropKey
    let required := !l.inFlow && l.indents.head? == some l.cursor.column
    let k := ⟨l.tokens.size, l.cursor.line, l.cursor.column, required⟩
    return { l with keys := some k :: l.keys.drop 1 }
  else some l

def add (l : Layout) (t : Token) (n : Nat) : Layout :=
  { l with cursor := l.cursor.advance n, tokens := l.tokens.push t }

/-- Open a block collection in a column right of the innermost one, announced after `index`
tokens. -/
def openBlock (l : Layout) (t : Token) (column index : Nat) : Layout :=
  if l.inFlow || column < l.margin then l
  else
    { l with
      indents := column :: l.indents
      tokens := l.tokens.insertIdxIfInBounds index t }

/-- Close the block collections, from the innermost on, whose columns pass a test. -/
def closeBlocks (l : Layout) (test : Nat → Bool) : Layout :=
  if l.inFlow then l
  else
    let closed := l.indents.takeWhile test
    { l with
      indents := l.indents.drop closed.length
      tokens := l.tokens ++ Array.replicate closed.length .blockEnd }

/-- The start of an item, a key or a value. In a block it may have to open a collection, and has to
stand where a key could. -/
def entry? (l : Layout) (collection : Token) : Option Layout :=
  if l.inFlow then some l
  else if l.keyAllowed then some (l.openBlock collection l.cursor.column l.tokens.size)
  else none

def documentMark? (l : Layout) (t : Token) : Option Layout := do
  let l ← (l.closeBlocks fun _ => true).dropKey
  return { l.add t 3 with keyAllowed := false }

def openFlow? (l : Layout) (t : Token) : Option Layout := do
  let l ← l.saveKey
  return { l.add t 1 with keys := none :: l.keys, keyAllowed := true }

def closeFlow? (l : Layout) (t : Token) : Option Layout := do
  let l ← l.dropKey
  return { l.add t 1 with
    keys := if l.inFlow then l.keys.drop 1 else l.keys
    keyAllowed := false }

def comma? (l : Layout) : Option Layout := do
  let l ← l.dropKey
  return { l.add .comma 1 with keyAllowed := true }

def item? (l : Layout) : Option Layout := do
  let l ← (← l.entry? .blockSequence).dropKey
  return { l.add .item 1 with keyAllowed := true }

def key? (l : Layout) : Option Layout := do
  let l ← (← l.entry? .blockMapping).dropKey
  return { l.add .key 1 with keyAllowed := !l.inFlow }

/-- Read the colon of a value, which makes a key of what may be one. -/
def value? (l : Layout) : Option Layout :=
  match l.keys with
  | some k :: outer =>
    let l := { l with tokens := l.tokens.insertIdxIfInBounds k.index .key }
    let l := l.openBlock .blockMapping k.column k.index
    some { l.add .value 1 with keys := none :: outer, keyAllowed := false }
  | _ => do
    let l ← l.entry? .blockMapping
    return { l.add .value 1 with keyAllowed := !l.inFlow }

def plain? (l : Layout) (fuel : Nat) : Option Layout := do
  let l ← l.saveKey
  let (s, cursor, crossed) ← Yaml.plain? l.inFlow l.margin fuel l.cursor
  return { l with
    cursor
    tokens := l.tokens.push (.plain (String.ofList s))
    keyAllowed := crossed }

def quoted? (l : Layout) (text? : Cursor → Option (List Char × Cursor)) : Option Layout := do
  let l ← l.saveKey
  let (s, cursor) ← text? l.cursor.next
  return { l with
    cursor
    tokens := l.tokens.push (.quoted (String.ofList s))
    keyAllowed := false }

/-- Read the token that starts here, in at most `fuel` characters. -/
def token? (fuel : Nat) (l : Layout) : Option Layout :=
  if l.cursor.atMark "---" then l.documentMark? .documentStart
  else if l.cursor.atMark "..." then l.documentMark? .documentEnd
  else
    match l.cursor.rest with
    | [] => none
    | '[' :: _ => l.openFlow? .openSequence
    | ']' :: _ => l.closeFlow? .closeSequence
    | '\x7b' :: _ => l.openFlow? .openMapping
    | '\x7d' :: _ => l.closeFlow? .closeMapping
    | ',' :: _ => l.comma?
    | '\'' :: _ => l.quoted? (singleQuoted? fuel)
    | '"' :: _ => l.quoted? (doubleQuoted? fuel)
    | c :: rest =>
      let separate := endsWord rest
      if c = '-' && separate then l.item?
      else if c = '?' && (l.inFlow || separate) then l.key?
      else if c = ':' && (l.inFlow || separate) then l.value?
      else if isIndicator c || isWhite c then none
      else l.plain? fuel

def tokens? : Nat → Layout → Option (List Token)
  | 0, _ => none
  | fuel + 1, l => do
    let l ← l.toToken.dropStale
    let l := l.closeBlocks (l.cursor.column < ·)
    if l.cursor.rest.isEmpty then
      let l ← (l.closeBlocks fun _ => true).dropKey
      return l.tokens.toList
    else tokens? fuel (← l.token? (fuel + 1))

end Layout

def Token.ofChars? (cs : List Char) : Option (List Token) :=
  Layout.tokens? (cs.length + 1) (.start cs)

end GateFusion.Document.Yaml
