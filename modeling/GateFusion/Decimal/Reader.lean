import GateFusion.Binary64.Basic

/-!
# Reading decimal numbers

The double nearest to a number written in decimal. The grammar here is the free one: an optional
sign, digits with an optional point before, between or after them, an optional exponent, and the
words for infinity and for an undefined number in any case.
-/

namespace GateFusion.Decimal

inductive ReadError where
  | empty
  | invalid

def ReadError.message : ReadError → String
  | .empty => "cannot parse float from empty string"
  | .invalid => "invalid float literal"

/-- The number written by a list of digits, after those of `acc`. -/
def natOfDigits (acc : Nat) (digits : List Char) : Nat :=
  digits.foldl (fun n c => 10 * n + (c.toNat - '0'.toNat)) acc

/-- An exponent mark is followed by an optional sign and at least one digit, and ends the text. -/
def exponentOf? : List Char → Option Int
  | [] => some 0
  | mark :: rest =>
    if mark.toLower != 'e' then none
    else
      let (negative, digits) :=
        match rest with
        | '-' :: ds => (true, ds)
        | '+' :: ds => (false, ds)
        | ds => (false, ds)
      if digits.isEmpty || !digits.all Char.isDigit then none
      else
        let n : Int := natOfDigits 0 digits
        some (if negative then -n else n)

/-- An unsigned number with at least one digit before or after the point: its digits as a natural
number and the power of ten they count. -/
def scientificOf? (cs : List Char) : Option (Nat × Int) :=
  let whole := cs.takeWhile Char.isDigit
  let rest := cs.dropWhile Char.isDigit
  let (fraction, rest) :=
    match rest with
    | '.' :: r => (r.takeWhile Char.isDigit, r.dropWhile Char.isDigit)
    | r => ([], r)
  if whole.isEmpty && fraction.isEmpty then none
  else (exponentOf? rest).map fun e =>
    (natOfDigits (natOfDigits 0 whole) fraction, e - fraction.length)

def magnitudeOf? (negative : Bool) (cs : List Char) : Option Binary64 :=
  let word := cs.map Char.toLower
  if word = "inf".toList || word = "infinity".toList then
    some (if negative then -Scalar.infinity else Scalar.infinity)
  else if word = "nan".toList then some (.nan negative)
  else (scientificOf? cs).map fun d => Binary64.ofDecimal negative d.1 d.2

def read (text : String) : Except ReadError Binary64 :=
  let result :=
    match text.toList with
    | '-' :: rest => magnitudeOf? true rest
    | '+' :: rest => magnitudeOf? false rest
    | rest => magnitudeOf? false rest
  match result with
  | some x => .ok x
  | none => .error (if text.isEmpty then .empty else .invalid)

end GateFusion.Decimal
