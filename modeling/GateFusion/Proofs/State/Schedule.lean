import GateFusion.Proofs.State.History
import GateFusion.Proofs.Circuit.Reachable

/-!
# Schedules

The blocks of a graph may be executed in any order that keeps to its wires. Every such schedule
leaves the state that the execution order of the graph leaves, and fails where that one fails.
-/

namespace GateFusion
open CircuitGraph

namespace CircuitGraph
variable {α : Type} {g : CircuitGraph α} {w : Qubit → List Nat} {ids : List BlockId}

/-- A list of all live blocks, each of them once, with the blocks of every wire in its order. -/
structure Schedule (g : CircuitGraph α) (ids : List BlockId) : Prop where
  nodup : ids.Nodup
  mem_iff : ∀ id, id ∈ ids ↔ g.contains id = true
  wire : ∀ q, (ids.filter fun id => g.touches id.slot q) = g.wire q

/-- The slots of a schedule are a listing. -/
lemma Schedule.listing (h : Schedule g ids) (hw : Wired g w) : Listing g w (ids.map (·.slot)) := by
  refine ⟨fun s hs => ?_, fun q => ?_⟩
  · obtain ⟨id, hid, rfl⟩ := List.mem_map.mp hs
    obtain ⟨b, hb⟩ := contains_iff.mp ((h.mem_iff id).mp hid)
    exact ⟨b, (block?_eq_some.mp hb).1⟩
  · rw [List.filter_map, ← hw.map_slot_wire, ← h.wire]
    rfl

lemma Schedule.gatesOf_eq (h : Schedule g ids) :
    g.gatesOf ids = g.gatesAlong (ids.map (·.slot)) := by
  rw [gatesOf, gatesAlong, List.filterMap_map]
  refine List.filterMap_congr fun id hid => ?_
  obtain ⟨b, hb⟩ := contains_iff.mp ((h.mem_iff id).mp hid)
  rw [Function.comp_apply, hb, (block?_eq_some.mp hb).1]

/-- The execution order is a schedule. -/
theorem Sound.schedule_order (hs : Sound g w) : Schedule g g.order := by
  have hi := hs.intact
  refine ⟨hi.order_nodup, hi.mem_order, fun q => ?_⟩
  have hwire : w q = (g.order.filter fun id => g.touches id.slot q).map (·.slot) := by
    rw [← hs.listing_order.wire, List.filter_map]
    rfl
  rw [hs.wired.wire_eq, hwire, List.filterMap_map]
  refine (List.filterMap_some.symm.trans (List.filterMap_congr fun id hid => ?_))
  have hlive := (hi.mem_order id).mp (List.mem_of_mem_filter hid)
  obtain ⟨b, hb⟩ := contains_iff.mp hlive
  exact (idAt?_of_block? hb).symm

end CircuitGraph

namespace CircuitGraph.Schedule
variable {α : Type} [Exact α] {g : CircuitGraph α} {w : Qubit → List Nat} {ids : List BlockId}

lemma applyAll_eq (h : Schedule g ids) (hs : Sound g w) (v : String → α)
    (amp : Nat → Cartesian α) :
    applyAll v (g.gatesOf ids) amp = applyAll v g.gates amp := by
  rw [h.gatesOf_eq, hs.applyAll_listing (h.listing hs.wired)]

omit [Exact α] in
lemma mem_gatesOf (h : Schedule g ids) (hs : Sound g w) {gate : Gate α} :
    gate ∈ g.gatesOf ids ↔ gate ∈ g.gates := by
  rw [gates_eq_gatesOf]
  simp only [gatesOf, List.mem_filterMap, h.mem_iff, hs.schedule_order.mem_iff]

/-- What can be applied along one schedule can be applied along any other, to the same effect. -/
lemma applyGates_of_ok {ids' : List BlockId} (h : Schedule g ids) (h' : Schedule g ids')
    (hs : Sound g w) {s t : Statevector α} (hwf : s.WellFormed) {lookup : String → Option α}
    (ht : Statevector.applyGates lookup (g.gatesOf ids) s = (t, .ok ())) :
    Statevector.applyGates lookup (g.gatesOf ids') s = (t, .ok ()) := by
  have hgates : ∀ {ks}, Schedule g ks → ∀ gate ∈ g.gatesOf ks, gate.WellFormed :=
    fun hks gate hgate => hs.wellFormed_gates gate ((hks.mem_gatesOf hs).mp hgate)
  have hsame : ∀ gate, gate ∈ g.gatesOf ids' ↔ gate ∈ g.gatesOf ids := by
    intro gate
    rw [h.mem_gatesOf hs, h'.mem_gatesOf hs]
  obtain ⟨hq, hb⟩ := Statevector.of_applyGates ht
  obtain ⟨t', ht', hwft, hn, hamp⟩ := Statevector.applyGates_spec hwf (hgates h) hq hb
  obtain ⟨u, hu, hwfu, hn', hamp'⟩ := Statevector.applyGates_spec hwf (hgates h')
    (fun gate hgate => hq gate ((hsame gate).mp hgate))
    (fun gate hgate => hb gate ((hsame gate).mp hgate))
  obtain rfl : t' = t := (Prod.mk.inj (ht'.symm.trans ht)).1
  have htu : u = t' := by
    apply Statevector.ext_of_amp hwfu hwft (hn'.trans hn.symm)
    rw [hamp, hamp', h.applyAll_eq hs, h'.applyAll_eq hs]
  rw [hu, htu]

/-- On every graph that calls lead to, every schedule leaves the state that the execution order
leaves, or fails with it. Nothing fails on a state with the qubits of the blocks if their symbols
are bound. -/
theorem applyGates_eq_applyGraph {n : Nat} {g₀ : CircuitGraph α} (calls : List (Call α))
    (h₀ : CircuitGraph.empty n = .ok g₀) (h : Schedule (g₀.run calls) ids) {s : Statevector α}
    (hwf : s.WellFormed) (lookup : String → Option α) :
    (∀ t, Statevector.applyGates lookup ((g₀.run calls).gatesOf ids) s = (t, .ok ()) ↔
      s.applyGraph (g₀.run calls) lookup = (t, .ok ())) ∧
    ((∀ gate ∈ (g₀.run calls).gates, Binds lookup gate.symbols) →
      (∀ gate ∈ (g₀.run calls).gates, ∀ q ∈ gate.qubits, q < s.numQubits) →
        ∃ t, s.applyGraph (g₀.run calls) lookup = (t, .ok ())) := by
  obtain ⟨w, hs⟩ := (Sound.empty h₀).run calls
  have hgraph : s.applyGraph (g₀.run calls) lookup =
      Statevector.applyGates lookup ((g₀.run calls).gatesOf (g₀.run calls).order) s := by
    rw [← gates_eq_gatesOf]
    rfl
  constructor
  · intro t
    rw [hgraph]
    exact ⟨h.applyGates_of_ok hs.schedule_order hs hwf, hs.schedule_order.applyGates_of_ok h hs hwf⟩
  · intro hb hq
    obtain ⟨t, ht, -⟩ := Statevector.applyGates_spec hwf hs.wellFormed_gates hq hb
    exact ⟨t, ht⟩

section Sample

/-- The gate H on qubit one. -/
noncomputable def besideFlip : Gate ℝ := ⟨"h", [1], Quad.hadamard.single⟩

/-- The graph of two gates that share no qubit. -/
noncomputable def sideBySide : CircuitGraph ℝ :=
  ⟨#[some ⟨bitFlip, 0, 0, [0]⟩, some ⟨besideFlip, 1, 1, [1]⟩], [], [], #[some 0, some 1],
    #[some 0, some 1], 2, 2⟩

lemma regular_sideBySide : bitFlip.Regular ∧ besideFlip.Regular := by
  have hx : Gate.standard (α := ℝ) .x [0] = .ok bitFlip := rfl
  have hh : Gate.standard (α := ℝ) .h [1] = .ok besideFlip := rfl
  exact ⟨Gate.regular_of_standard hx, Gate.regular_of_standard hh⟩

/-- A gate on qubit zero, then one on qubit one. -/
noncomputable def twoAdditions : List (Call ℝ) :=
  [.add bitFlip regular_sideBySide.1.toWellFormed,
    .add besideFlip regular_sideBySide.2.toWellFormed]

/-- Two wires without a block. -/
def twoWires : CircuitGraph ℝ := ⟨#[], [], [], #[none, none], #[none, none], 0, 0⟩

lemma empty_twoWires : CircuitGraph.empty 2 = .ok twoWires := rfl

lemma run_twoAdditions : twoWires.run twoAdditions = sideBySide := rfl

lemma mem_gates_sideBySide {gate : Gate ℝ} (h : gate ∈ sideBySide.gates) :
    gate = bitFlip ∨ gate = besideFlip := by
  obtain ⟨w, hs⟩ := (Sound.empty empty_twoWires).run twoAdditions
  rw [run_twoAdditions] at hs
  obtain ⟨s, b, hb, rfl⟩ := hs.mem_gates.mp h
  match s with
  | 0 => exact Or.inl (Option.some.inj hb ▸ rfl)
  | 1 => exact Or.inr (Option.some.inj hb ▸ rfl)
  | s + 2 => simp [blockAt?, sideBySide] at hb

/-- The gates may be executed in either order. -/
lemma schedule_sideBySide : Schedule sideBySide [⟨1, 1⟩, ⟨0, 0⟩] := by
  refine ⟨by decide, fun id => ?_, fun q => ?_⟩
  · obtain ⟨slot, seq⟩ := id
    rcases slot with _ | _ | slot
    · simp [contains, block?, blockAt?, sideBySide, eq_comm]
    · simp [contains, block?, blockAt?, sideBySide, eq_comm]
    · simp [contains, block?, blockAt?, sideBySide]
  · rcases q with _ | _ | q
    · rfl
    · rfl
    · rfl

/-- The later gate first. -/
theorem applyGates_sideBySide : ∃ t : Statevector ℝ,
    Statevector.applyGates (fun _ => none) [besideFlip, bitFlip] (.zero 2) = (t, .ok ()) ∧
      (Statevector.zero 2).applyGraph sideBySide (fun _ => none) = (t, .ok ()) := by
  obtain ⟨hsame, hdone⟩ := applyGates_eq_applyGraph (s := .zero 2) twoAdditions empty_twoWires
    schedule_sideBySide rfl fun _ => none
  rw [run_twoAdditions] at hsame hdone
  have hbinds : ∀ gate ∈ sideBySide.gates, Binds (α := ℝ) (fun _ => none) gate.symbols := by
    intro gate hgate n hn
    rcases mem_gates_sideBySide hgate with rfl | rfl
    · exact absurd hn (List.not_mem_nil (a := n))
    · exact absurd hn (List.not_mem_nil (a := n))
  have hinside : ∀ gate ∈ sideBySide.gates, ∀ q ∈ gate.qubits,
      q < (Statevector.zero (α := ℝ) 2).numQubits := by
    intro gate hgate
    rcases mem_gates_sideBySide hgate with rfl | rfl <;> decide
  obtain ⟨t, ht⟩ := hdone hbinds hinside
  exact ⟨t, (hsame t).mpr ht, ht⟩

end Sample

end CircuitGraph.Schedule
end GateFusion
