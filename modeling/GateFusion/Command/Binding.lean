import GateFusion.OrderedMap
import GateFusion.Text.Blank

/-!
# Parameter bindings

A binding `NAME=VALUE` gives a parameter its value. Blanks around the name and the value do not
count, and of two bindings of one name the last stays.
-/

namespace GateFusion

/-- Why a text binds no parameter; `ε` tells why a value is no number. -/
inductive BindingError (ε : Type) where
  | missingValue (text : String)
  | invalidValue (name : String) (cause : ε)

def BindingError.message {ε : Type} (causeText : ε → String) : BindingError ε → String
  | .missingValue text => s!"Expected NAME=VALUE, got '{text}'"
  | .invalidValue name cause => s!"Invalid value for parameter '{name}': {causeText cause}"

namespace Binding
variable {α ε : Type}

def split? (cs : List Char) : Option (List Char × List Char) :=
  match cs.dropWhile (· ≠ '=') with
  | [] => none
  | _ :: value => some (cs.takeWhile (· ≠ '='), value)

def parse (readNumber : String → Except ε α) (text : String) :
    Except (BindingError ε) (String × α) :=
  match split? text.toList with
  | none => .error (.missingValue text)
  | some (name, value) =>
    let name := String.ofList (Text.trimChars name)
    match readNumber (String.ofList (Text.trimChars value)) with
    | .ok v => .ok (name, v)
    | .error e => .error (.invalidValue name e)

def parseAll (readNumber : String → Except ε α) (texts : List String) :
    Except (BindingError ε) (OrderedMap String α) :=
  texts.foldlM (fun bound text => do
    let (name, value) ← parse readNumber text
    return OrderedMap.insert compare name value bound) []

end Binding
end GateFusion
