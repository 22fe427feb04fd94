import GateFusion.Proofs.Circuit.Integrity

/-!
# Reachable graphs

A caller adds gates to a graph and replaces pairs of its blocks, with any names and any well-formed
gates. A call that fails leaves the graph as it is, one that succeeds keeps it sound; so every
graph that calls lead to is intact. Its counters fit the machine words that hold them.
-/

namespace GateFusion.CircuitGraph
open Relation
variable {α : Type} {g : CircuitGraph α} {w : Qubit → List Nat}

/-- A change to a graph that a caller may ask for. -/
inductive Call (α : Type) where
  | add (gate : Gate α) (wellFormed : gate.WellFormed)
  | replace (a b : BlockId) (fused : Gate α) (wellFormed : fused.WellFormed)

/-- The graph that a call leaves behind, whether it succeeds or fails. -/
def perform (g : CircuitGraph α) : Call α → CircuitGraph α
  | .add gate _ => (append gate).graph g
  | .replace a b fused _ => (exchange a b fused).graph g

section Adjacent
variable {a b e l : BlockId} {first second : Block α} {fused : Gate α}
  (hadj : g.adjacency a b = some (e, l)) (hfirst : g.block? e = some first)
  (hsecond : g.block? l = some second)
  (honly : (g.successors e.slot).filter (· ≠ l.slot) = [])
  (hunion : fused.numQubits = (unionInOrder first.gate second.gate).length ∧
    (unionInOrder first.gate second.gate).all fused.actsOn = true)
include hadj hfirst hsecond honly hunion

/-- Neighbours of which the later one is all that follows the earlier one can be replaced. -/
lemma replace_of_adjacency : g.replace a b fused = .ok (g.merge e l first second fused) := by
  rw [replace_eq,
    checkPair_of_adjacency hadj hfirst hsecond (hasIndirectPath_of_only honly) hunion]
  rfl

/-- The graph that their replacement leaves behind, if their origins are in order. -/
lemma perform_of_adjacency (hfused : fused.WellFormed)
    (hsorted : (first.origins ++ second.origins).Pairwise (· ≤ ·)) :
    let m := ((g.removeBlock e.slot).removeBlock l.slot).nextSlot
    g.perform (.replace a b fused hfused) =
      (((unionInOrder first.gate second.gate).map (g.spliceOf e l first second)).foldl
        (spliceIn m) (g.staged e.slot l.slot fused (first.origins ++ second.origins)
          first.rank)).restoreOrder m := by
  intro m
  have hmerge : g.perform (.replace a b fused hfused) = (g.merge e l first second fused).2 := by
    rw [perform, Change.graph, run_exchange,
      checkPair_of_adjacency hadj hfirst hsecond (hasIndirectPath_of_only honly) hunion]
  rw [hmerge, merge_eq, List.mergeSort_of_pairwise (by simpa using hsorted)]

end Adjacent

/-- The graph after a sequence of calls. -/
def run (g : CircuitGraph α) (calls : List (Call α)) : CircuitGraph α := calls.foldl perform g

/-- The gate that a call adds, unless it is refused. -/
def admitted (g : CircuitGraph α) : Call α → List (Gate α)
  | .add gate _ =>
    match g.addBlock gate with
    | .ok _ => [gate]
    | .error _ => []
  | .replace _ _ _ _ => []

/-- The gates that a sequence of calls adds, in the order of their acceptance. -/
def accepted (g : CircuitGraph α) : List (Call α) → List (Gate α)
  | [] => []
  | c :: calls => g.admitted c ++ (g.perform c).accepted calls

/-- The wires and ranks of a graph are in order. -/
structure Intact (g : CircuitGraph α) : Prop where
  verified : g.verifyIntegrity = .ok ()
  acyclic : ∀ s, ¬ TransGen g.Precedes s s
  increasing : ∀ l ∈ g.links, g.rankAt l.source < g.rankAt l.target
  joins : ∀ l ∈ g.links, ∃ a b, g.blockAt? l.source = some a ∧ g.blockAt? l.target = some b ∧
    l.qubit ∈ a.gate.qubits ∧ l.qubit ∈ b.gate.qubits
  rank_lt : ∀ s b, g.blockAt? s = some b → b.rank < g.nextSeq
  rank_inj : ∀ s t a b, g.blockAt? s = some a → g.blockAt? t = some b → a.rank = b.rank → s = t
  head_live : ∀ q s, g.heads[q]?.join = some s →
    ∃ b, g.blockAt? s = some b ∧ q ∈ b.gate.qubits
  tail_live : ∀ q s, g.tails[q]?.join = some s →
    ∃ b, g.blockAt? s = some b ∧ q ∈ b.gate.qubits
  wire_nodup : ∀ q, (g.wire q).Nodup
  mem_wire : ∀ q id, id ∈ g.wire q ↔ ∃ b, g.block? id = some b ∧ q ∈ b.gate.qubits
  wire_head : ∀ q, (g.wire q).head?.map (·.slot) = g.heads[q]?.join
  wire_tail : ∀ q, (g.wire q).getLast?.map (·.slot) = g.tails[q]?.join
  wire_links : ∀ q a b, Follows ((g.wire q).map (·.slot)) a b ↔ ⟨a, b, q⟩ ∈ g.links
  wire_ends : ∀ q fuel, g.numBlocks ≤ fuel → g.chain q fuel (g.head? q) = g.wire q
  order_nodup : g.order.Nodup
  mem_order : ∀ id, id ∈ g.order ↔ g.contains id = true

/-- What a call does: nothing, or it adds a gate, or it merges a pair of blocks. -/
theorem Sound.perform_cases (hs : Sound g w) (c : Call α) :
    (g.perform c = g ∧ g.admitted c = []) ∨
    (∃ gate id, gate.WellFormed ∧ g.addBlock gate = .ok (id, g.perform c) ∧
      g.admitted c = [gate]) ∨
    ∃ e l first second fused id, Mergeable g w e l first second ∧ Fuses first second fused ∧
      g.merge e l first second fused = (id, g.perform c) ∧ g.admitted c = [] := by
  cases c with
  | add gate hgate =>
    rw [CircuitGraph.perform, admitted]
    cases h : g.addBlock gate with
    | error err => exact Or.inl ⟨graph_append_of_error h, rfl⟩
    | ok r =>
      rw [Change.graph_of_result h]
      exact Or.inr (Or.inl ⟨gate, r.1, hgate, h, rfl⟩)
  | replace a b fused hfused =>
    rw [CircuitGraph.perform]
    cases h : g.replace a b fused with
    | error err => exact Or.inl ⟨graph_exchange_of_error h, rfl⟩
    | ok r =>
      obtain ⟨e, l, first, second, -, hm, hf, hg'⟩ := (hs.replace_eq_ok hfused).mp h
      rw [Change.graph_of_result h]
      exact Or.inr (Or.inr ⟨e, l, first, second, fused, r.1, hm, hf, hg', rfl⟩)

/-- A call keeps a graph sound. -/
theorem Sound.perform (hs : Sound g w) (c : Call α) : ∃ w', Sound (g.perform c) w' := by
  rcases hs.perform_cases c with ⟨h, -⟩ | ⟨gate, id, hgate, h, -⟩ |
    ⟨e, l, first, second, fused, id, hm, hf, h, -⟩
  · exact ⟨w, by rwa [h]⟩
  · exact ⟨_, (hs.addBlock hgate h).1⟩
  · exact ⟨_, (hs.merge hm hf h).sound⟩

theorem Sound.run (hs : Sound g w) (calls : List (Call α)) : ∃ w', Sound (g.run calls) w' := by
  induction calls generalizing g w with
  | nil => exact ⟨w, hs⟩
  | cons c calls ih =>
    obtain ⟨w', hs'⟩ := hs.perform c
    exact ih hs'

lemma Sound.numQubits_perform (hs : Sound g w) (c : Call α) :
    (g.perform c).numQubits = g.numQubits := by
  rcases hs.perform_cases c with ⟨h, -⟩ | ⟨gate, id, hgate, h, -⟩ |
    ⟨e, l, first, second, fused, id, hm, hf, h, -⟩
  · rw [h]
  · obtain ⟨-, -, -, -, hn, -⟩ := hs.addBlock hgate h
    exact hn
  · exact (hs.merge hm hf h).numQubits

lemma Sound.numQubits_run (hs : Sound g w) (calls : List (Call α)) :
    (g.run calls).numQubits = g.numQubits := by
  induction calls generalizing g w with
  | nil => rfl
  | cons c calls ih =>
    obtain ⟨w', hs'⟩ := hs.perform c
    exact (ih hs').trans (hs.numQubits_perform c)

section Counters
variable {g' : CircuitGraph α}

/-- Every accepted gate has a number, and every gate and every merge a name. -/
structure Counted (g : CircuitGraph α) : Prop where
  numbers : g.nextOrigin ≤ maxGates
  names : g.nextSeq + g.numBlocks = 2 * g.nextOrigin

lemma Sound.numBlocks_addBlock (hs : Sound g w) {gate : Gate α} (hgate : gate.WellFormed)
    {id : BlockId} (h : g.addBlock gate = .ok (id, g')) : g'.numBlocks = g.numBlocks + 1 := by
  obtain ⟨-, -, hempty, hat, -⟩ := hs.addBlock hgate h
  have hnew : id.slot ∉ g.liveSlots := fun hmem => by
    obtain ⟨b, hb⟩ := mem_liveSlots.mp hmem
    simp [hempty] at hb
  have hperm : g'.liveSlots.Perm (id.slot :: g.liveSlots) := by
    refine (List.perm_ext_iff_of_nodup nodup_liveSlots
      (List.nodup_cons.mpr ⟨hnew, nodup_liveSlots⟩)).mpr fun s => ?_
    rw [List.mem_cons, mem_liveSlots, mem_liveSlots, hat]
    by_cases hslot : s = id.slot <;> simp [hslot]
  exact hperm.length_eq

/-- An addition takes a number and a name for one block more, a merge a name for one block less. -/
lemma Counted.perform (hc : Counted g) (hs : Sound g w) (c : Call α) : Counted (g.perform c) := by
  obtain ⟨hnumbers, hnames⟩ := hc
  rcases hs.perform_cases c with ⟨h, -⟩ | ⟨gate, id, hgate, h, -⟩ |
    ⟨e, l, first, second, fused, id, hm, hf, h, -⟩
  · rw [h]
    exact ⟨hnumbers, hnames⟩
  · obtain ⟨-, -, hroom, -⟩ := addBlock_eq_ok h
    obtain ⟨-, -, -, -, -, hseq, horigin⟩ := hs.addBlock hgate h
    have hblocks := hs.numBlocks_addBlock hgate h
    exact ⟨by omega, by omega⟩
  · have hmerged := hs.merge hm hf h
    have hblocks := hmerged.numBlocks hm hs
    have hseq := hmerged.nextSeq
    have horigin := hmerged.nextOrigin
    exact ⟨by omega, by omega⟩

/-- The number of the next gate is a 32-bit word. A block is a gate or comes from a merge, so fewer
than twice as many names as gates are given out, and the number of the next block is a 64-bit
word. -/
theorem counters_fit {n : Nat} (calls : List (Call α)) (h : CircuitGraph.empty n = .ok g) :
    (g.run calls).nextOrigin < UInt32.size ∧ (g.run calls).nextSeq < UInt64.size := by
  have hrun : ∀ {g : CircuitGraph α} {w}, Sound g w → Counted g → Counted (g.run calls) := by
    induction calls with
    | nil => exact fun _ hc => hc
    | cons c calls ih =>
      intro g w hs hc
      obtain ⟨w', hs'⟩ := hs.perform c
      exact ih hs' (hc.perform hs c)
  have hempty : Counted g := by
    obtain ⟨-, rfl⟩ := empty_eq_ok h
    exact ⟨Nat.zero_le _, rfl⟩
  obtain ⟨hnumbers, hnames⟩ := hrun (Sound.empty h) hempty
  rw [maxGates] at hnumbers
  rw [UInt32.size, UInt64.size]
  exact ⟨by omega, by omega⟩

end Counters

section Wire
variable (hw : Wired g w)
include hw

lemma Wired.map_slot_wire (q : Qubit) : (g.wire q).map (·.slot) = w q := by
  rw [hw.wire_eq, List.map_filterMap]
  refine (List.filterMap_congr fun s hs => ?_).trans List.filterMap_some
  obtain ⟨b, -, hid⟩ := hw.idAt?_isSome hs
  rw [hid, Option.map_some]

/-- The wires of a graph are determined by it. -/
lemma Wired.unique {w' : Qubit → List Nat} (hw' : Wired g w') : w = w' := by
  funext q
  rw [← hw.map_slot_wire, ← hw'.map_slot_wire]

lemma Wired.mem_wire {q : Qubit} {id : BlockId} :
    id ∈ g.wire q ↔ ∃ b, g.block? id = some b ∧ q ∈ b.gate.qubits := by
  rw [hw.wire_eq, List.mem_filterMap]
  constructor
  · rintro ⟨s, hs, hid⟩
    obtain ⟨b, hb, rfl⟩ := idAt?_eq_some.mp hid
    exact ⟨b, block?_of_blockAt? hb, hw.acts_of_mem hb hs⟩
  · rintro ⟨b, hb, hq⟩
    exact ⟨id.slot, hw.mem_of_acts (block?_eq_some.mp hb).1 hq, idAt?_of_block? hb⟩

end Wire

/-- What is sound is intact. -/
theorem Sound.intact (hs : Sound g w) : Intact g := by
  have hw := hs.wired
  have hlive : ∀ {q s}, s ∈ w q → ∃ b, g.blockAt? s = some b ∧ q ∈ b.gate.qubits :=
    fun h => (hw.mem_iff _ _).mp h
  refine ⟨hs.verifyIntegrity_eq_ok, hs.ranked.acyclic, hs.ranked, fun l hl => ?_,
    fun s b hb => (hs.stored.placed s b hb).rank_lt, hs.stored.rank_inj, fun q s h => ?_,
    fun q s h => ?_, fun q => ?_, fun q id => hw.mem_wire, fun q => ?_, fun q => ?_,
    fun q a b => ?_, fun q fuel hfuel => ?_, ?_, fun id => ?_⟩
  · have hf := (hw.link_iff l).mp hl
    obtain ⟨a, ha, hqa⟩ := hlive hf.mem_left
    obtain ⟨b, hb, hqb⟩ := hlive hf.mem_right
    exact ⟨a, b, ha, hb, hqa, hqb⟩
  · rw [hw.head] at h
    exact hlive (List.mem_of_mem_head? h)
  · rw [hw.tail] at h
    exact hlive (List.mem_of_getLast? h)
  · refine List.Nodup.of_map (·.slot) ?_
    rw [hw.map_slot_wire]
    exact hw.nodup q
  · rw [← List.head?_map, hw.map_slot_wire, hw.head]
  · rw [← List.getLast?_map, hw.map_slot_wire, hw.tail]
  · rw [hw.map_slot_wire]
    exact (hw.link_iff ⟨a, b, q⟩).symm
  · have h : w q = [] ++ w q := rfl
    rw [hw.wire_eq, hw.head?_eq]
    exact hw.chain_of_split h fuel (hw.length_le.trans hfuel)
  · refine hs.order_perm.nodup_iff.mpr (List.Nodup.of_map (·.slot) ?_)
    exact map_slot_ids.nodup_iff.mpr nodup_liveSlots
  · rw [hs.order_perm.mem_iff, mem_ids, contains_iff]

/-- Every graph that calls lead to is intact, whether they succeed or fail. -/
theorem intact_of_reachable {n : Nat} (calls : List (Call α)) (h : CircuitGraph.empty n = .ok g) :
    Intact (g.run calls) := by
  obtain ⟨w, hs⟩ := (Sound.empty h).run calls
  exact hs.intact

/-- A gate on qubit zero without any entry that is not zero. -/
def cleared : Gate Nat := ⟨"t", [0], ⟨1, Array.replicate 4 (.numeric ⟨0, 0⟩)⟩⟩

lemma wellFormed_cleared : cleared.WellFormed := by
  refine ⟨by decide, by decide, rfl, rfl⟩

/-- Two gates on a qubit, a merge of them and a merge of what is gone. -/
def fourCalls : List (Call Nat) :=
  [.add cleared wellFormed_cleared, .add cleared wellFormed_cleared,
    .replace ⟨0, 0⟩ ⟨1, 1⟩ cleared wellFormed_cleared,
    .replace ⟨0, 0⟩ ⟨1, 1⟩ cleared wellFormed_cleared]

theorem intact_fourCalls : ∃ g : CircuitGraph Nat, CircuitGraph.empty 1 = .ok g ∧
    Intact (g.run fourCalls) := ⟨_, rfl, intact_of_reachable fourCalls (n := 1) rfl⟩

end GateFusion.CircuitGraph
