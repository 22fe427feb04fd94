import GateFusion.Command.Binding
import GateFusion.Decimal.Reader
import GateFusion.Document.Circuit
import GateFusion.Proofs.Loops
import GateFusion.Proofs.OrderedMap
import Mathlib.Data.List.DropRight

/-!
# Binding what a document declares

A circuit document and the command line read names apart from each other. The name of a declared
symbol has no blanks around it, so that a binding reads it back as it is, unless it contains an
equals sign: the first one of a binding ends the name.
-/

namespace GateFusion

namespace Text

lemma trimChars_eq (cs : List Char) :
    trimChars cs = (cs.dropWhile isBlank).rdropWhile isBlank := rfl

/-- What is trimmed has no blanks around it. -/
lemma trimChars_trimChars (cs : List Char) : trimChars (trimChars cs) = trimChars cs := by
  have hfront : (trimChars cs).dropWhile isBlank = trimChars cs := by
    rw [List.dropWhile_eq_self_iff]
    intro hpos hblank
    -- the first character of a prefix of a list is the first of the list
    have hsub : trimChars cs <+: cs.dropWhile isBlank := List.rdropWhile_prefix isBlank _
    have hlen := hpos.trans_le hsub.length_le
    rw [hsub.getElem hpos] at hblank
    exact List.dropWhile_get_zero_not isBlank cs hlen hblank
  rw [trimChars_eq (trimChars cs), hfront, trimChars_eq, List.rdropWhile_idempotent]

lemma mem_of_mem_trimChars {c : Char} {cs : List Char} (h : c ∈ trimChars cs) : c ∈ cs := by
  have hsub : trimChars cs <+: cs.dropWhile isBlank := List.rdropWhile_prefix isBlank _
  exact (List.dropWhile_suffix isBlank).subset (hsub.subset h)

end Text

/-- A parameter text stands for the symbol of a name, or for its negation. -/
def Declares (text name : String) : Prop :=
  (Expr.ofText text : Expr Binary64) = .symbol name ∨
    (Expr.ofText text : Expr Binary64) = .neg (.symbol name)

/-- The name of a declared symbol has no blanks around it. -/
lemma Declares.trimmed {text name : String} (h : Declares text name) :
    Text.trimChars name.toList = name.toList := by
  have hsymbol : ∀ cs : List Char, Text.trimChars cs = cs →
      (if cs.map Char.toLower = ['p', 'i'] then Expr.pi else Expr.symbol (String.ofList cs) :
        Expr Binary64) = .symbol name → Text.trimChars name.toList = name.toList := by
    intro cs hcs he
    split at he
    · simp at he
    · rw [← Expr.symbol.inj he, String.toList_ofList, hcs]
  unfold Declares Expr.ofText at h
  dsimp only at h
  split at h
  · rename_i rest _
    rcases h with h | h
    · simp at h
    · exact hsymbol _ (Text.trimChars_trimChars rest) (Expr.neg.inj h)
  · rcases h with h | h
    · exact hsymbol _ (Text.trimChars_trimChars text.toList) h
    · simp only [Bool.false_eq_true, if_false] at h
      split at h <;> simp at h

namespace Binding
variable {α ε : Type} {readNumber : String → Except ε α}

/-- A value for a declared symbol: the text that declares it, and the text that its value is read
from. -/
structure Assignment (readNumber : String → Except ε α) where
  declaration : String
  name : String
  number : String
  value : α
  declares : Declares declaration name
  reads : readNumber (Text.trim number) = .ok value

namespace Assignment

/-- The binding of the name to the value. -/
def text (a : Assignment readNumber) : String := a.name ++ "=" ++ a.number

def entry (a : Assignment readNumber) : String × α := (a.name, a.value)

end Assignment

lemma split?_append {name value : List Char} (h : '=' ∉ name) :
    split? (name ++ '=' :: value) = some (name, value) := by
  have hname : ∀ c ∈ name, decide (c ≠ '=') = true := fun c hc =>
    decide_eq_true fun heq => h (heq ▸ hc)
  unfold split?
  rw [List.dropWhile_append_of_pos hname, List.takeWhile_append_of_pos hname]
  simp

/-- A name without an equals sign is read back. -/
lemma parse_text (a : Assignment readNumber) (h : '=' ∉ a.name.toList) :
    parse readNumber a.text = .ok a.entry := by
  have hsplit : split? a.text.toList = some (a.name.toList, a.number.toList) := by
    rw [Assignment.text, String.toList_append, String.toList_append]
    exact (congrArg split? (List.append_assoc _ _ _)).trans (split?_append h)
  have hreads := a.reads
  rw [Text.trim] at hreads
  simp only [parse, hsplit, hreads, a.declares.trimmed, String.ofList_toList]
  rfl

/-- No binding gives a value to a name with an equals sign. -/
lemma notMem_of_parse {text : String} {e : String × α} (h : parse readNumber text = .ok e) :
    '=' ∉ e.1.toList := by
  unfold parse split? at h
  split at h
  · simp at h
  · rename_i name value hsplit
    split at hsplit
    · simp at hsplit
    · obtain ⟨rfl, rfl⟩ := Prod.mk.inj (Option.some.inj hsplit)
      dsimp only at h
      split at h
      · rw [← Except.ok.inj h, String.toList_ofList]
        intro hmem
        have hne := List.mem_takeWhile_imp (Text.mem_of_mem_trimChars hmem)
        simp at hne
      · simp at h

/-- The same for bindings read together. -/
theorem notMem_of_parseAll {texts : List String} {m : OrderedMap String α}
    (h : parseAll readNumber texts = .ok m) : ∀ e ∈ m, '=' ∉ e.1.toList := by
  unfold parseAll at h
  have hbound : ∀ e ∈ ([] : OrderedMap String α), '=' ∉ e.1.toList := by simp
  generalize ([] : OrderedMap String α) = bound at h hbound
  induction texts generalizing bound with
  | nil => rwa [← Except.ok.inj h]
  | cons text texts ih =>
    rw [List.foldlM_cons] at h
    obtain ⟨next, hstep, h⟩ := bind_eq_ok.mp h
    obtain ⟨e, hparse, hnext⟩ := bind_eq_ok.mp hstep
    refine ih next h fun t ht => ?_
    rw [← Except.ok.inj hnext] at ht
    rcases OrderedMap.mem_upsert ht with ht | rfl | ⟨v, ht, -⟩
    · exact hbound t ht
    · exact notMem_of_parse hparse
    · exact hbound (t.1, v) ht

lemma parseAll_texts (as : List (Assignment readNumber)) (h : ∀ a ∈ as, '=' ∉ a.name.toList) :
    parseAll readNumber (as.map Assignment.text) =
      .ok (OrderedMap.ofList compare (as.map Assignment.entry)) := by
  rw [parseAll, List.foldlM_map, OrderedMap.ofList, List.foldl_map]
  refine foldlM_eq_ok (P := fun _ => True) (fun bound _ a ha => ⟨?_, trivial⟩) trivial
  rw [parse_text a (h a ha)]
  rfl

/-- Every symbol that a document declares can be bound as long as its name has no equals sign: one
binding gives its entry, and bindings of different names give exactly theirs. -/
theorem parseAll_assigns (readNumber : String → Except ε α) :
    (∀ a : Assignment readNumber, '=' ∉ a.name.toList →
      parseAll readNumber [a.text] = .ok [a.entry]) ∧
    ∀ as : List (Assignment readNumber), (∀ a ∈ as, '=' ∉ a.name.toList) →
      (as.map (·.name)).Nodup → ∃ m, parseAll readNumber (as.map Assignment.text) = .ok m ∧
        m.Perm (as.map Assignment.entry) ∧ OrderedMap.Sorted compare m := by
  refine ⟨fun a ha => ?_, fun as has hn => ?_⟩
  · exact parseAll_texts [a] (by simpa using ha)
  · refine ⟨_, parseAll_texts as has, OrderedMap.ofList_perm ?_, .ofList _⟩
    rwa [List.map_map]

section Sample

/-- A name with a blank inside, one that starts with a minus sign, and the empty one. -/
def oddNames : List (Assignment Decimal.read) :=
  [⟨" -theta 1 ", "theta 1", " 2.5", .ofDecimal false 25 (-1), .inr rfl, by rfl⟩,
    ⟨"--a", "-a", "-Inf", -Scalar.infinity, .inr rfl, by rfl⟩,
    ⟨"", "", "1\t", .ofDecimal false 1 0, .inl rfl, by rfl⟩]

/-- The bindings are read together, the empty name first. -/
theorem parseAll_assigns_oddNames : (∀ a ∈ oddNames, '=' ∉ a.name.toList) ∧
    (oddNames.map (·.name)).Nodup ∧
    (∀ a ∈ oddNames, parseAll Decimal.read [a.text] = .ok [a.entry]) ∧
    ∃ m, parseAll Decimal.read ["theta 1= 2.5", "-a=-Inf", "=1\t"] = .ok m ∧
      m.Perm (oddNames.map Assignment.entry) ∧ OrderedMap.Sorted compare m := by
  have hplain : ∀ a ∈ oddNames, '=' ∉ a.name.toList := by decide
  have hnames : (oddNames.map (·.name)).Nodup := by decide
  obtain ⟨hone, hall⟩ := parseAll_assigns Decimal.read
  exact ⟨hplain, hnames, fun a ha => hone a (hplain a ha), hall oddNames hplain hnames⟩

/-- A declared symbol whose name has an equals sign. -/
def equated : Assignment Decimal.read := ⟨"a=b", "a=b", "1", .ofDecimal false 1 0, .inl rfl, by rfl⟩

/-- Its binding is taken for one of the name before the sign, and what is left is no number. -/
theorem parseAll_cuts_name : equated.declaration = "a=b" ∧ equated.text = "a=b=1" ∧
    parseAll Decimal.read [equated.text] = .error (.invalidValue "a" .invalid) ∧
    parseAll Decimal.read [equated.text] ≠ .ok [equated.entry] := by
  have hrefused : parseAll Decimal.read [equated.text] = .error (.invalidValue "a" .invalid) := rfl
  exact ⟨rfl, rfl, hrefused, by simp [hrefused]⟩

end Sample

end Binding
end GateFusion
