/-!
# Ordered maps

A map is the list of its entries in ascending key order under a comparison that the caller names.
Keys that compare equal share one entry, and the key stored first stays.
-/

namespace GateFusion

/-- Entries in ascending key order. -/
abbrev OrderedMap (κ ν : Type) := List (κ × ν)

namespace OrderedMap
variable {κ ν : Type}

def upsert (cmp : κ → κ → Ordering) (key : κ) (f : Option ν → ν) : OrderedMap κ ν → OrderedMap κ ν
  | [] => [(key, f none)]
  | (k, v) :: rest =>
    match cmp key k with
    | .lt => (key, f none) :: (k, v) :: rest
    | .eq => (k, f (some v)) :: rest
    | .gt => (k, v) :: upsert cmp key f rest

def insert (cmp : κ → κ → Ordering) (key : κ) (value : ν) (m : OrderedMap κ ν) : OrderedMap κ ν :=
  upsert cmp key (fun _ => value) m

def get? (cmp : κ → κ → Ordering) (key : κ) : OrderedMap κ ν → Option ν
  | [] => none
  | (k, v) :: rest => if cmp key k = .eq then some v else get? cmp key rest

def erase (cmp : κ → κ → Ordering) (key : κ) (m : OrderedMap κ ν) : OrderedMap κ ν :=
  m.filter fun e => cmp key e.1 != .eq

/-- Map holding the given entries; of two at one key the last value stays. -/
def ofList (cmp : κ → κ → Ordering) (entries : List (κ × ν)) : OrderedMap κ ν :=
  entries.foldl (fun m e => insert cmp e.1 e.2 m) []

/-- Lexicographic order: entry by entry, key before value, and a prefix comes first. -/
def compareBy (cmpKey : κ → κ → Ordering) (cmpValue : ν → ν → Ordering) :
    OrderedMap κ ν → OrderedMap κ ν → Ordering
  | [], [] => .eq
  | [], _ :: _ => .lt
  | _ :: _, [] => .gt
  | (ka, va) :: as, (kb, vb) :: bs =>
    ((cmpKey ka kb).then (cmpValue va vb)).then (compareBy cmpKey cmpValue as bs)

end OrderedMap

abbrev NameSet := List String

namespace NameSet

def insert (name : String) : NameSet → NameSet
  | [] => [name]
  | n :: rest =>
    match compare name n with
    | .lt => name :: n :: rest
    | .eq => n :: rest
    | .gt => n :: insert name rest

def union (s t : NameSet) : NameSet :=
  t.foldl (fun acc n => insert n acc) s

def ofList (names : List String) : NameSet :=
  union [] names

end NameSet
end GateFusion
