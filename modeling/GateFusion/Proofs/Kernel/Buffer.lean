import GateFusion.Proofs.Kernel.Preparation
import GateFusion.Proofs.Parameter.Evaluation

/-!
# Two ways to fill a buffer

A preparation fills a buffer slot by slot and stops at a symbol it does not declare. The compiled
preparation never stops. Where the first succeeds both leave the same buffer.
-/

namespace GateFusion
variable {α : Type} {slots : List (ParameterSlot α)}

/-- A slot mentions the given names only. -/
def ParameterSlot.Within (s : ParameterSlot α) (names : List String) : Prop :=
  ∀ n ∈ s.expr.symbols, n ∈ names

/-- What stops the writing of slots: an undeclared symbol of the first slot that has one. -/
def StopsAt (names : List String) (slots : List (ParameterSlot α)) (e : CompileError α) : Prop :=
  ∃ done s rest name, slots = done ++ s :: rest ∧ (∀ t ∈ done, t.Within names) ∧
    name ∈ s.expr.symbols ∧ name ∉ names ∧ e = .unboundParameter name

/-- A buffer with the values of slots written to its front, each at the two places of the slot. -/
structure Written [Scalar α] (slots : List (ParameterSlot α)) (lookup : String → Option α)
    (buffer out : List α) : Prop where
  length : out.length = buffer.length
  slot : ∀ j s, slots[j]? = some s → ∃ z, s.expr.evaluate lookup = some z ∧
    out[2 * j]? = some z.re ∧ out[2 * j + 1]? = some z.im
  rest : ∀ i, 2 * slots.length ≤ i → out[i]? = buffer[i]?

lemma Written.congr [Scalar α] {lookup lookup' : String → Option α} {buffer out : List α}
    (h : Written slots lookup buffer out)
    (hlookup : ∀ s ∈ slots, ∀ n ∈ s.expr.symbols, lookup n = lookup' n) :
    Written slots lookup' buffer out := by
  refine ⟨h.length, fun j s hs => ?_, h.rest⟩
  rw [← Polynomial.evaluate_congr (hlookup s (List.mem_of_getElem? hs))]
  exact h.slot j s hs

namespace Preparation
variable {p : Preparation α} {values buffer : List α} {names : List String}

lemma position?_isNone {n : String} : (p.position? n).isNone = true ↔ n ∉ p.parameters := by
  rw [position?, Option.isNone_iff_eq_none, List.idxOf?_eq_none_iff]

/-- With as many values as parameters, the parameters are what has a value. -/
lemma isSome_lookup (hvalues : values.length = p.parameters.length) {n : String} :
    (p.lookup values n).isSome = true ↔ n ∈ p.parameters := by
  rw [lookup, position?]
  cases hi : p.parameters.idxOf? n with
  | none => simp [List.idxOf?_eq_none_iff.mp hi]
  | some i =>
    obtain ⟨hlt, hget, -⟩ := List.idxOf?_eq_some_iff.mp hi
    have hmem : n ∈ p.parameters := hget ▸ List.getElem_mem hlt
    simp [hmem, hvalues, hlt]

lemma missing_spec {s : ParameterSlot α} (h : ¬ s.Within p.parameters) :
    p.missing s.expr ∈ s.expr.symbols ∧ p.missing s.expr ∉ p.parameters := by
  unfold ParameterSlot.Within at h
  push Not at h
  obtain ⟨n, hn, hout⟩ := h
  have hsome : (s.expr.symbols.find? fun n => (p.position? n).isNone).isSome = true :=
    List.find?_isSome.mpr ⟨n, hn, position?_isNone.mpr hout⟩
  obtain ⟨m, hm⟩ := Option.isSome_iff_exists.mp hsome
  have hnone := List.find?_some hm
  rw [missing, hm, Option.getD_some]
  exact ⟨List.mem_of_find?_eq_some hm, position?_isNone.mp hnone⟩

lemma within_ofParameters {s : ParameterSlot α} :
    s.Within (ofParameters names slots).parameters ↔ s.Within names :=
  forall₂_congr fun _ _ => NameSet.mem_ofList

lemma stopsAt_of_ofParameters {e : CompileError α}
    (h : StopsAt (ofParameters names slots).parameters slots e) : StopsAt names slots e := by
  obtain ⟨done, s, rest, name, hsplit, hdone, hmem, hout, he⟩ := h
  exact ⟨done, s, rest, name, hsplit, fun t ht => within_ofParameters.mp (hdone t ht), hmem,
    fun h => hout (NameSet.mem_ofList.mpr h), he⟩

variable [Scalar α]

section Values
open Interpreter
variable (hvalues : values.length = p.parameters.length)
include hvalues

lemma isSome_evaluate_iff {s : ParameterSlot α} :
    (s.expr.evaluate (p.lookup values)).isSome = true ↔ s.Within p.parameters := by
  rw [Polynomial.isSome_evaluate]
  exact forall₂_congr fun _ _ => isSome_lookup hvalues

lemma exists_evaluate {s : ParameterSlot α} (h : s.Within p.parameters) :
    ∃ z, s.expr.evaluate (p.lookup values) = some z :=
  Option.isSome_iff_exists.mp ((isSome_evaluate_iff hvalues).mpr h)

/-- Slots that mention declared parameters only are written as by the compiled preparation. -/
lemma writeSlots_eq_fillSlots (h : ∀ s ∈ slots, s.Within p.parameters) :
    p.writeSlots values slots buffer = (fillSlots p values slots buffer, .ok ()) := by
  induction slots generalizing buffer with
  | nil => rw [writeSlots, fillSlots] <;> simp
  | cons s slots ih =>
    match buffer with
    | [] => rw [writeSlots, fillSlots] <;> simp
    | [x] => rw [writeSlots, fillSlots] <;> simp
    | re :: im :: rest =>
      obtain ⟨z, hz⟩ := exists_evaluate hvalues (h s (by simp))
      rw [writeSlots, fillSlots, hz, ih fun t ht => h t (by simp [ht])]
      rfl

lemma written_fillSlots (h : ∀ s ∈ slots, s.Within p.parameters)
    (hlen : 2 * slots.length ≤ buffer.length) :
    Written slots (p.lookup values) buffer (fillSlots p values slots buffer) := by
  induction slots generalizing buffer with
  | nil =>
    have hfill : fillSlots p values [] buffer = buffer := by rw [fillSlots]; simp
    rw [hfill]
    exact ⟨rfl, by simp, fun _ _ => rfl⟩
  | cons s slots ih =>
    match buffer, hlen with
    | re :: im :: rest, hlen =>
      rw [List.length_cons, List.length_cons, List.length_cons] at hlen
      obtain ⟨z, hz⟩ := exists_evaluate hvalues (h s (by simp))
      have hrest := ih (fun t ht => h t (by simp [ht])) (by omega : 2 * slots.length ≤ rest.length)
      rw [fillSlots, hz, Option.getD_some]
      refine ⟨?_, fun j t ht => ?_, fun i hi => ?_⟩
      · rw [List.length_cons, List.length_cons, hrest.length, List.length_cons, List.length_cons]
      · cases j with
        | zero =>
          obtain rfl := Option.some.inj ht
          exact ⟨z, hz, rfl, rfl⟩
        | succ j => exact hrest.slot j t ht
      · rw [List.length_cons] at hi
        obtain ⟨i, rfl⟩ : ∃ k, i = k + 2 := ⟨i - 2, by omega⟩
        exact hrest.rest i (by omega)

/-- Writing stops at the first slot with an undeclared symbol. -/
lemma writeSlots_stops (h : ¬ ∀ s ∈ slots, s.Within p.parameters)
    (hlen : 2 * slots.length ≤ buffer.length) :
    ∃ out e, p.writeSlots values slots buffer = (out, .error e) ∧ StopsAt p.parameters slots e := by
  induction slots generalizing buffer with
  | nil => exact absurd (by simp) h
  | cons s slots ih =>
    match buffer, hlen with
    | re :: im :: rest, hlen =>
      rw [List.length_cons, List.length_cons, List.length_cons] at hlen
      rw [writeSlots]
      by_cases hs : s.Within p.parameters
      · obtain ⟨z, hz⟩ := exists_evaluate hvalues hs
        have hslots : ¬ ∀ t ∈ slots, t.Within p.parameters := fun hall =>
          h (List.forall_mem_cons.mpr ⟨hs, hall⟩)
        obtain ⟨out, e, hout, done, t, left, name, rfl, hdone, hname⟩ :=
          ih hslots (by omega : 2 * slots.length ≤ rest.length)
        rw [hz, hout]
        exact ⟨_, e, rfl, s :: done, t, left, name, rfl,
          List.forall_mem_cons.mpr ⟨hs, hdone⟩, hname⟩
      · have hnone : s.expr.evaluate (p.lookup values) = none := by
          rw [← Option.not_isSome_iff_eq_none, isSome_evaluate_iff hvalues]
          exact hs
        obtain ⟨hmem, hout⟩ := missing_spec hs
        rw [hnone]
        exact ⟨_, _, rfl, [], s, slots, p.missing s.expr, rfl, by simp, hmem, hout, rfl⟩

lemma prepareInto_eq (hlen : p.bufferLen ≤ buffer.length) :
    p.prepareInto values buffer = p.writeSlots values p.slots buffer := by
  rw [prepareInto, checkValues, if_pos hvalues]
  exact if_neg (Nat.not_lt.mpr hlen)

end Values

/-- What both ways make of values and a buffer, for slots over the given names. -/
structure FillsBuffer (names : List String) (slots : List (ParameterSlot α))
    (values buffer : List α) : Prop where
  succeeds : (∃ out, (ofParameters names slots).prepareInto values buffer = (out, .ok ())) ↔
    ∀ s ∈ slots, s.Within names
  written : ∀ out, (ofParameters names slots).prepareInto values buffer = (out, .ok ()) →
    Written slots ((ofParameters names slots).lookup values) buffer out
  compiled : ∀ out, (ofParameters names slots).prepareInto values buffer = (out, .ok ()) →
    ∃ fn, Interpreter.compilePreparation (ofParameters names slots) = .ok fn ∧
      fn values buffer = out
  stops : ∀ out e, (ofParameters names slots).prepareInto values buffer = (out, .error e) →
    StopsAt names slots e

/-- Values that a preparation binds by name, and what it makes of them. -/
structure FollowsNames (names : List String) (slots : List (ParameterSlot α))
    (named : String → Option α) (values : List α) : Prop where
  bound : (ofParameters names slots).bind named = .ok values
  evaluates : ∀ j s, slots[j]? = some s → s.Within names →
    (ofParameters names slots).evaluateSlot j values = s.expr.evaluate named
  succeeds : (∃ out, (ofParameters names slots).prepare values = .ok out) ↔
    ∀ s ∈ slots, s.Within names
  written : ∀ out, (ofParameters names slots).prepare values = .ok out →
    Written slots named (List.replicate (2 * slots.length) 0) out

lemma fillsBuffer_of_length
    (hvalues : values.length = (ofParameters names slots).parameters.length)
    (hbuffer : 2 * slots.length ≤ buffer.length) : FillsBuffer names slots values buffer := by
  have hinto := prepareInto_eq hvalues hbuffer
  by_cases h : ∀ s ∈ slots, s.Within names
  · have hwithin : ∀ s ∈ slots, s.Within (ofParameters names slots).parameters :=
      fun s hs => within_ofParameters.mpr (h s hs)
    have hwrite := hinto.trans (writeSlots_eq_fillSlots hvalues hwithin)
    refine ⟨iff_of_true ⟨_, hwrite⟩ h, fun out hout => ?_, fun out hout => ?_, fun out e hout => ?_⟩
    · obtain ⟨rfl, -⟩ := Prod.mk.inj (hwrite.symm.trans hout)
      exact written_fillSlots hvalues hwithin hbuffer
    · obtain ⟨rfl, -⟩ := Prod.mk.inj (hwrite.symm.trans hout)
      exact ⟨_, rfl, rfl⟩
    · exact absurd (Prod.mk.inj (hwrite.symm.trans hout)).2 (by simp)
  · have hwithin : ¬ ∀ s ∈ slots, s.Within (ofParameters names slots).parameters :=
      fun hall => h fun s hs => within_ofParameters.mp (hall s hs)
    obtain ⟨left, err, hwrite, hstops⟩ := writeSlots_stops hvalues hwithin hbuffer
    have hfail : ∀ out, (ofParameters names slots).prepareInto values buffer ≠ (out, .ok ()) := by
      intro out hout
      exact absurd (Prod.mk.inj ((hinto.trans hwrite).symm.trans hout)).2 (by simp)
    refine ⟨iff_of_false (fun ⟨out, hout⟩ => hfail out hout) h, fun out hout => ?_,
      fun out hout => ?_, fun out e hout => ?_⟩
    · exact absurd hout (hfail out)
    · exact absurd hout (hfail out)
    · have herr := (Prod.mk.inj ((hinto.trans hwrite).symm.trans hout)).2
      rw [← Except.error.inj herr]
      exact stopsAt_of_ofParameters hstops

lemma prepare_eq_ok {out : List α} : p.prepare values = .ok out ↔
    p.prepareInto values (List.replicate p.bufferLen 0) = (out, .ok ()) := by
  unfold prepare
  obtain ⟨left, result⟩ := p.prepareInto values (List.replicate p.bufferLen 0)
  cases result with
  | error e => simp [Except.map]
  | ok u => simp [Except.map]

lemma exists_followsNames {named : String → Option α}
    (hnamed : ∀ n ∈ names, (named n).isSome = true) :
    ∃ values, FollowsNames names slots named values := by
  set p := ofParameters names slots with hp
  have hlookup : ∀ s : ParameterSlot α, s.Within names → ∀ n ∈ s.expr.symbols,
      p.lookup (p.parameters.map (valuation named)) n = named n := by
    intro s hs n hn
    rw [lookup_map _ (NameSet.mem_ofList.mpr (hs n hn))]
    exact (lookup_eq_some.mpr ⟨hnamed n (hs n hn), rfl⟩).symm
  have hvalues : (p.parameters.map (valuation named)).length = p.parameters.length :=
    List.length_map _
  have hfills := fillsBuffer_of_length hvalues (List.length_replicate (a := (0 : α))).ge
  refine ⟨p.parameters.map (valuation named), bind_eq_ok fun n hn => ?_, fun j s hj hs => ?_,
    (exists_congr fun out => prepare_eq_ok).trans hfills.succeeds, fun out hout => ?_⟩
  · exact hnamed n (NameSet.mem_ofList.mp hn)
  · have hslot : p.slots[j]? = some s := hj
    rw [← hp, evaluateSlot, hslot, Option.bind_some, Polynomial.evaluate_congr (hlookup s hs)]
  · have hinto := prepare_eq_ok.mp hout
    have hwithin := hfills.succeeds.mp ⟨out, hinto⟩
    exact (hfills.written out hinto).congr fun s hs => hlookup s (hwithin s hs)

/-- Both ways to fill a buffer agree as long as all symbols are declared, and with values bound by
name every slot is evaluated as the names say. -/
theorem prepareInto_agrees {named : String → Option α}
    (hvalues : values.length = (ofParameters names slots).parameters.length)
    (hbuffer : (ofParameters names slots).bufferLen ≤ buffer.length)
    (hnamed : ∀ n ∈ names, (named n).isSome = true) :
    FillsBuffer names slots values buffer ∧ ∃ bound, FollowsNames names slots named bound :=
  ⟨fillsBuffer_of_length hvalues hbuffer, exists_followsNames hnamed⟩

/-- A slot over a declared parameter, and one over a parameter that is not declared. -/
def strayed : List (ParameterSlot Binary64) :=
  [⟨0, 0, 0, .cos (.symbol "alpha")⟩, ⟨1, 1, 0, .expi (.symbol "gamma")⟩]

theorem prepareInto_agrees_strayed :
    FillsBuffer ["beta", "alpha", "beta"] strayed [1, 0] [0, 0, 0, 0, 1] ∧
      ∃ bound, FollowsNames ["beta", "alpha", "beta"] strayed (fun _ => some 1) bound :=
  prepareInto_agrees (by decide) (by decide) (by decide)

end Preparation

/-- In exact arithmetic every slot holds the value of its expression. -/
lemma Preparation.filled_fillSlots [Exact α] {p : Preparation α} {buffer : List α}
    (v : String → α) (h : ∀ s ∈ slots, s.Within p.parameters)
    (hlen : 2 * slots.length ≤ buffer.length) :
    Filled slots v (Interpreter.fillSlots p (p.parameters.map v) slots buffer) := by
  have hwritten := written_fillSlots (List.length_map v) h hlen
  intro j s hj
  obtain ⟨z, hz, hre, him⟩ := hwritten.slot j s hj
  rw [evaluate_lookup v (h s (List.mem_of_getElem? hj))] at hz
  obtain rfl := Option.some.inj hz
  exact ⟨hre, him⟩

end GateFusion
