import GateFusion.Decimal.Reader
import GateFusion.Document.Node
import GateFusion.Text.Radix

/-!
# JSON

Reading and writing of JSON texts. The reader is strict: no comments, no trailing commas, no leading
zeros, no control characters in strings, no lone surrogates, at most 127 levels of nesting. Numbers
without fraction and exponent that fit 64 bits stay integers; any other number is a double. A value
that nobody asks for need not have a meaning: it may be nested to any depth and hold lone
surrogates.
-/

namespace GateFusion.Document.Json

def skipBlank (cs : List Char) : List Char :=
  cs.dropWhile fun c => c = ' ' || c = '\n' || c = '\t' || c = '\r'

def codeUnit? (cs : List Char) : Option Nat :=
  if cs.length < 4 then none else Text.natOfDigits? 16 (cs.take 4)

/-- A character given by one or two code units. Unless lone surrogates are allowed, a surrogate has
to be paired. -/
def unicodeEscape? (lone : Bool) (cs : List Char) : Option (Char × List Char) := do
  let unit ← codeUnit? cs
  let rest := cs.drop 4
  if lone then some (if unit.isValidChar then Char.ofNat unit else '\ufffd', rest)
  else if 0xd800 ≤ unit ∧ unit < 0xdc00 then
    match rest with
    | '\\' :: 'u' :: more =>
      let low ← codeUnit? more
      if 0xdc00 ≤ low ∧ low < 0xe000 then
        some (Char.ofNat (0x10000 + (unit - 0xd800) * 0x400 + (low - 0xdc00)), more.drop 4)
      else none
    | _ => none
  else if 0xdc00 ≤ unit ∧ unit < 0xe000 then none
  else some (Char.ofNat unit, rest)

def stringTail? (lone : Bool) (fuel : Nat) (acc cs : List Char) : Option (String × List Char) :=
  match fuel, cs with
  | 0, _ => none
  | _ + 1, [] => none
  | _ + 1, '"' :: rest => some (String.ofList acc.reverse, rest)
  | fuel + 1, '\\' :: 'u' :: rest => do
    let (c, rest) ← unicodeEscape? lone rest
    stringTail? lone fuel (c :: acc) rest
  | fuel + 1, '\\' :: e :: rest =>
    match e with
    | '"' | '\\' | '/' => stringTail? lone fuel (e :: acc) rest
    | 'b' => stringTail? lone fuel ('\x08' :: acc) rest
    | 'f' => stringTail? lone fuel ('\x0c' :: acc) rest
    | 'n' => stringTail? lone fuel ('\n' :: acc) rest
    | 'r' => stringTail? lone fuel ('\r' :: acc) rest
    | 't' => stringTail? lone fuel ('\t' :: acc) rest
    | _ => none
  | fuel + 1, c :: rest => if c.toNat < 32 then none else stringTail? lone fuel (c :: acc) rest

/-- Append digits to a number for as long as it fits 64 bits, and count those appended. -/
def appendDigits (n : Nat) : List Char → Nat × Nat
  | [] => (n, 0)
  | c :: rest =>
    let next := Decimal.natOfDigits n [c]
    if next < Nat.pow 2 64 then
      let (m, count) := appendDigits next rest
      (m, count + 1)
    else (n, 0)

def powerOfTen (k : Nat) : Binary64 :=
  Binary64.ofDecimal false 1 k

/-- A double divided by `10^k`, at most `10^308` at a time. -/
def shrink (x : Binary64) (k : Nat) : Binary64 :=
  if k ≤ 308 then x / powerOfTen k
  else if x == 0 then x
  else shrink (x / powerOfTen 308) (k - 308)
termination_by k

/-- The double for `± digits · 10^exponent`: the digits are rounded first, and then multiplied or
divided by a rounded power of ten. -/
def double (negative : Bool) (digits : Nat) (exponent : Int) : Binary64 :=
  let x := Binary64.ofNat digits
  let y :=
    if exponent < 0 then shrink x (-exponent).toNat
    else if exponent ≤ 308 then x * powerOfTen exponent.toNat
    else if digits = 0 then x
    else Scalar.infinity
  if negative then -y else y

/-- An integer, unless a sign makes it too large for one of 64 bits or marks a zero. -/
def integer (negative : Bool) (n : Nat) : Node :=
  if !negative then .int n
  else if n = 0 ∨ Nat.pow 2 63 < n then .float (double true n 0)
  else .int (-n)

/-- A number. Digits that no longer fit 64 bits count with their places only. -/
def number? (cs : List Char) : Option (Node × List Char) :=
  let (negative, cs) :=
    match cs with
    | '-' :: rest => (true, rest)
    | rest => (false, rest)
  let whole := cs.takeWhile Char.isDigit
  let rest := cs.dropWhile Char.isDigit
  let (fraction, rest, fractionOk) :=
    match rest with
    | '.' :: r => (r.takeWhile Char.isDigit, r.dropWhile Char.isDigit, r.head?.any Char.isDigit)
    | r => ([], r, true)
  let (exponent, rest) :=
    match rest with
    | mark :: r =>
      if mark = 'e' || mark = 'E' then
        let sign := r.takeWhile fun c => c = '+' || c = '-'
        let digits := (r.drop sign.length).takeWhile Char.isDigit
        (mark :: sign ++ digits, r.drop (sign.length + digits.length))
      else ([], rest)
    | [] => ([], [])
  if whole.isEmpty || (whole.head? == some '0' && 1 < whole.length) || !fractionOk then none
  else
    match Decimal.exponentOf? exponent with
    | none => none
    | some e =>
      let (n, count) := appendDigits 0 whole
      if count = whole.length && fraction.isEmpty && exponent.isEmpty then
        some (integer negative n, rest)
      else
        let (m, places) := appendDigits n fraction
        let dropped : Int := (whole.length : Int) - count
        some (.float (double negative m (e + dropped - places)), rest)

def word? (word : String) (cs : List Char) : Option (List Char) :=
  if word.toList.isPrefixOf cs then some (cs.drop word.length) else none

mutual

def value? (lone : Bool) (fuel depth : Nat) (cs : List Char) : Option (Node × List Char) :=
  match fuel with
  | 0 => none
  | fuel + 1 =>
    match skipBlank cs with
    | '"' :: rest => (stringTail? lone fuel [] rest).map fun (s, r) => (.text s, r)
    | '[' :: rest =>
      if depth ≤ 1 then none
      else
        match skipBlank rest with
        | ']' :: rest => some (.seq [], rest)
        | rest => (items? lone fuel (depth - 1) rest).map fun (xs, r) => (.seq xs, r)
    | '\x7b' :: rest =>
      if depth ≤ 1 then none
      else
        match skipBlank rest with
        | '\x7d' :: rest => some (.map [], rest)
        | rest => (fields? lone fuel (depth - 1) rest).map fun (xs, r) => (.map xs, r)
    | 'n' :: rest => (word? "ull" rest).map fun r => (.null, r)
    | 't' :: rest => (word? "rue" rest).map fun r => (.bool true, r)
    | 'f' :: rest => (word? "alse" rest).map fun r => (.bool false, r)
    | rest => number? rest

/-- The items up to the closing bracket; there is at least one. -/
def items? (lone : Bool) (fuel depth : Nat) (cs : List Char) : Option (List Node × List Char) :=
  match fuel with
  | 0 => none
  | fuel + 1 => do
    let (x, rest) ← value? lone fuel depth cs
    match skipBlank rest with
    | ',' :: rest => (items? lone fuel depth rest).map fun (xs, r) => (x :: xs, r)
    | ']' :: rest => some ([x], rest)
    | _ => none

/-- The fields up to the closing brace; there is at least one. -/
def fields? (lone : Bool) (fuel depth : Nat) (cs : List Char) :
    Option (List (String × Node) × List Char) :=
  match fuel with
  | 0 => none
  | fuel + 1 =>
    match skipBlank cs with
    | '"' :: rest => do
      let (key, rest) ← stringTail? lone fuel [] rest
      match skipBlank rest with
      | ':' :: rest => do
        let (x, rest) ← value? lone fuel depth rest
        match skipBlank rest with
        | ',' :: rest => (fields? lone fuel depth rest).map fun (xs, r) => ((key, x) :: xs, r)
        | '\x7d' :: rest => some ([(key, x)], rest)
        | _ => none
      | _ => none
    | _ => none

end

def read? (source : String) : Option Node := do
  let cs := source.toList
  let (x, rest) ← value? false (2 * cs.length + 2) 128 cs
  if (skipBlank rest).isEmpty then some x else none

/-- The fields of a record up to the closing brace; there is at least one. Only those with the given
names are asked for. -/
def recordFields? (names : List String) (fuel : Nat) (cs : List Char) :
    Option (List (String × Node) × List Char) :=
  match fuel with
  | 0 => none
  | fuel + 1 =>
    match skipBlank cs with
    | '"' :: rest => do
      let (key, rest) ← stringTail? false fuel [] rest
      match skipBlank rest with
      | ':' :: rest => do
        let asked := names.contains key
        let depth := if asked then 127 else rest.length + 2
        let (x, rest) ← value? (!asked) (2 * rest.length + 2) depth rest
        match skipBlank rest with
        | ',' :: rest => (recordFields? names fuel rest).map fun (xs, r) => ((key, x) :: xs, r)
        | '\x7d' :: rest => some ([(key, x)], rest)
        | _ => none
      | _ => none
    | _ => none

/-- Read a whole text that holds a record of which only the given fields are asked for. -/
def readRecord? (names : List String) (source : String) : Option Node :=
  match skipBlank source.toList with
  | '\x7b' :: rest => do
    let (fields, rest) ←
      match skipBlank rest with
      | '\x7d' :: rest => some ([], rest)
      | rest => recordFields? names (rest.length + 1) rest
    if (skipBlank rest).isEmpty then some (.map fields) else none
  | _ => read? source

def escape (c : Char) : List Char :=
  match c with
  | '"' => ['\\', '"']
  | '\\' => ['\\', '\\']
  | '\n' => ['\\', 'n']
  | '\r' => ['\\', 'r']
  | '\t' => ['\\', 't']
  | '\x08' => ['\\', 'b']
  | '\x0c' => ['\\', 'f']
  | c =>
    if c.toNat < 32 then
      let digits := Nat.toDigits 16 c.toNat
      ['\\', 'u'] ++ Decimal.zeros (4 - digits.length) ++ digits
    else [c]

def quote (s : String) : String :=
  String.ofList ('"' :: s.toList.flatMap escape ++ ['"'])

/-- A scalar; a number that is not finite has no spelling and becomes null. -/
def scalar : Node → String
  | .bool b => if b then "true" else "false"
  | .int n => toString n
  | .float x => if Scalar.isFinite x then Decimal.literal x else "null"
  | .text s | .plain s => quote s
  | _ => "null"

mutual

def compact : Node → String
  | .seq items => "[" ++ ",".intercalate (compactItems items) ++ "]"
  | .map fields => "\x7b" ++ ",".intercalate (compactFields fields) ++ "\x7d"
  | n => scalar n

def compactItems : List Node → List String
  | [] => []
  | x :: xs => compact x :: compactItems xs

def compactFields : List (String × Node) → List String
  | [] => []
  | (k, x) :: xs => (quote k ++ ":" ++ compact x) :: compactFields xs

end

def newline (depth : Nat) : String :=
  String.ofList ('\n' :: List.replicate (2 * depth) ' ')

mutual

/-- The text of a value with an item or field on every line. -/
def pretty (depth : Nat) : Node → String
  | .seq (x :: xs) =>
    "[" ++ ",".intercalate (prettyItems (depth + 1) (x :: xs)) ++ newline depth ++ "]"
  | .seq [] => "[]"
  | .map (x :: xs) =>
    "\x7b" ++ ",".intercalate (prettyFields (depth + 1) (x :: xs)) ++ newline depth ++ "\x7d"
  | .map [] => "\x7b\x7d"
  | n => scalar n

/-- The texts of items, each on a line of its own. -/
def prettyItems (depth : Nat) : List Node → List String
  | [] => []
  | x :: xs => (newline depth ++ pretty depth x) :: prettyItems depth xs

/-- The texts of fields, each on a line of its own. -/
def prettyFields (depth : Nat) : List (String × Node) → List String
  | [] => []
  | (k, x) :: xs => (newline depth ++ quote k ++ ": " ++ pretty depth x) :: prettyFields depth xs

end

end GateFusion.Document.Json
