import GateFusion.Proofs.Gate.Scaling
import GateFusion.Proofs.Gate.Standard
import GateFusion.Proofs.Circuit.Fusable
import GateFusion.Proofs.Circuit.Listing
import GateFusion.Proofs.State.Reorder

/-!
# Histories

A graph comes about by adding gates and by merging pairs of blocks into composed gates, in any
interleaving. Whatever has been merged, its blocks in execution order do what the accepted gates do
in the order in which they were added. The largest exponents of all gates together never grow, so if
those of the accepted gates fit a word, no exponent wraps around in any merge.
-/

namespace GateFusion
open CircuitGraph
variable {α : Type} [Exact α]

/-- The largest exponents of some gates, added up. -/
def totalDegree {α : Type} (gates : List (Gate α)) : Nat := (gates.map Gate.degree).sum

/-- Gates without powers, as those of the standard library, are too few to add up to more. -/
lemma totalDegree_lt_of_le_one {α : Type} {gates : List (Gate α)}
    (hle : ∀ gate ∈ gates, gate.degree ≤ 1) (hfew : gates.length ≤ maxGates) :
    totalDegree gates < 2 ^ 32 := by
  have hsum := List.sum_le_card_nsmul (gates.map Gate.degree) 1 (List.forall_mem_map.mpr hle)
  rw [List.length_map, smul_eq_mul, mul_one] at hsum
  exact hsum.trans_lt (hfew.trans_lt (by decide))

namespace CircuitGraph
variable {g g' : CircuitGraph α} {w : Qubit → List Nat}

/-- Every gate of a graph is well formed, with its entries. -/
def Regular (g : CircuitGraph α) : Prop := ∀ s b, g.blockAt? s = some b → b.gate.Regular

omit [Exact α] in
lemma Stored.acts (hs : Stored g) {slots : List Nat} {gate : Gate α}
    (h : gate ∈ g.gatesAlong slots) : gate.qubits.Nodup ∧ gate.qubits ≠ [] := by
  obtain ⟨s, -, b, hb, rfl⟩ := mem_gatesAlong.mp h
  exact ⟨(hs.placed s b hb).wellFormed.nodup, (hs.placed s b hb).nonempty⟩

/-- All listings of a graph act alike. -/
theorem Sound.applyAll_listing (hs : Sound g w) {slots : List Nat} (hl : Listing g w slots)
    (v : String → α) (amp : Nat → Cartesian α) :
    applyAll v (g.gatesAlong slots) amp = applyAll v g.gates amp := by
  rw [hs.gates_eq]
  refine applyAll_eq_of_filter v amp (fun _ h => hs.stored.acts h) (fun _ h => hs.stored.acts h)
    fun q => ?_
  rw [hl.filter_gates, hs.listing_order.filter_gates]

/-- Adding a gate acts with it last. -/
lemma Sound.applyAll_add (hs : Sound g w) {gate : Gate α} (hgate : gate.WellFormed)
    {id : BlockId} (hadd : g.addBlock gate = .ok (id, g')) (v : String → α)
    (amp : Nat → Cartesian α) :
    applyAll v g'.gates amp = gate.apply v (applyAll v g.gates amp) := by
  obtain ⟨hl, hgates⟩ := hs.listing_order.add hs hgate hadd
  rw [← (hs.addBlock hgate hadd).1.applyAll_listing hl, hgates, applyAll_append, ← hs.gates_eq]
  rfl

/-- Merging two blocks into their composition changes nothing. -/
lemma Merged.applyAll_eq {e l id : BlockId} {first second : Block α} {fused : Gate α}
    (hs : Sound g w) (hm : Mergeable g w e l first second) (hf : Fuses first second fused)
    (hg' : Merged g w e l first second fused id g') (v : String → α)
    (hfused : ∀ amp, fused.apply v amp = second.gate.apply v (first.gate.apply v amp))
    (amp : Nat → Cartesian α) : applyAll v g'.gates amp = applyAll v g.gates amp := by
  obtain ⟨front, back, hl, hnew, hold⟩ := hg'.listing hm hf hs.wired hg'.sound.listing_order
  rw [hg'.sound.gates_eq, hnew, ← hs.applyAll_listing hl, hold, applyAll_append, applyAll_append,
    applyAll_cons, applyAll_cons, applyAll_cons, hfused]

end CircuitGraph

/-- What holds along a history: the graph is sound, its gates are regular and mention no symbols but
those of the accepted gates, which are counted; their exponents are no larger together, and as long
as these fit a word the graph acts as the accepted gates do. -/
structure Faithful (n : Nat) (g : CircuitGraph α) (w : Qubit → List Nat)
    (accepted : List (Gate α)) : Prop where
  sound : Sound g w
  numQubits : g.numQubits = n
  regular : g.Regular
  symbols : ∀ s b, g.blockAt? s = some b → ∀ x ∈ b.gate.symbols,
    ∃ gate ∈ accepted, x ∈ gate.symbols
  valid : ∀ gate ∈ accepted, gate.Regular ∧ ∀ q ∈ gate.qubits, q < n
  count : g.nextOrigin = accepted.length
  few : accepted.length ≤ maxGates
  degree : totalDegree g.gates ≤ totalDegree accepted
  meaning : totalDegree accepted < 2 ^ 32 →
    ∀ v amp, applyAll v g.gates amp = applyAll v accepted amp

namespace Faithful
variable {n : Nat} {g g' : CircuitGraph α} {w : Qubit → List Nat} {accepted : List (Gate α)}

lemma start (h : CircuitGraph.empty n = .ok g) : Faithful n g (fun _ => []) [] := by
  have hs := Sound.empty h
  have hnone : ∀ s, g.blockAt? s = none := by
    intro s
    cases hb : g.blockAt? s with
    | none => rfl
    | some b =>
      obtain ⟨q, hq⟩ := List.exists_mem_of_ne_nil _ (hs.stored.placed s b hb).nonempty
      simpa using hs.wired.mem_of_acts hb hq
  have hgates : g.gates = [] := by
    rw [hs.gates_eq, List.eq_nil_iff_forall_not_mem]
    intro gate hgate
    obtain ⟨s, -, b, hb, -⟩ := mem_gatesAlong.mp hgate
    simp [hnone] at hb
  refine ⟨hs, numQubits_of_empty h, fun s b hb => ?_, fun s b hb => ?_, by simp, ?_,
    Nat.zero_le _, by rw [hgates], fun _ v amp => by rw [hgates]⟩
  · simp [hnone] at hb
  · simp [hnone] at hb
  · obtain ⟨-, rfl⟩ := empty_eq_ok h
    rfl

lemma add (hg : Faithful n g w accepted) {gate : Gate α} (hgate : gate.Regular) {id : BlockId}
    (h : g.addBlock gate = .ok (id, g')) : ∃ w', Faithful n g' w' (accepted ++ [gate]) := by
  obtain ⟨hs, -, -, hat, hn, -, horigin⟩ := hg.sound.addBlock hgate.toWellFormed h
  obtain ⟨-, hin, hroom, -⟩ := addBlock_eq_ok h
  have hlength : (accepted ++ [gate]).length = accepted.length + 1 := List.length_append
  have hadd : ∀ gates, totalDegree (gates ++ [gate]) = totalDegree gates + gate.degree := by
    intro gates
    simp [totalDegree]
  refine ⟨_, hs, hn.trans hg.numQubits, fun s b hb => ?_, fun s b hb x hx => ?_, fun k hk => ?_,
    ?_, ?_, ?_, fun hd v amp => ?_⟩
  · rw [hat] at hb
    split at hb
    · obtain rfl := Option.some.inj hb
      exact hgate
    · exact hg.regular s b hb
  · rw [hat] at hb
    split at hb
    · obtain rfl := Option.some.inj hb
      exact ⟨gate, by simp, hx⟩
    · obtain ⟨k, hk, hx⟩ := hg.symbols s b hb x hx
      exact ⟨k, by simp [hk], hx⟩
  · rcases List.mem_append.mp hk with hk | hk
    · exact hg.valid k hk
    · obtain rfl := List.mem_singleton.mp hk
      refine ⟨hgate, fun q hq => ?_⟩
      rw [← hg.numQubits]
      exact hin q hq
  · rw [horigin, hlength, hg.count]
  · have hcount := hg.count
    omega
  · have hperm := (hg.sound.gates_perm_add hgate.toWellFormed h).map Gate.degree
    have hsum : totalDegree g'.gates = totalDegree (g.gates ++ [gate]) := hperm.sum_eq
    rw [hsum, hadd, hadd]
    exact Nat.add_le_add_right hg.degree _
  · rw [hadd] at hd
    rw [hg.sound.applyAll_add hgate.toWellFormed h, hg.meaning (by omega), applyAll_append]
    rfl

lemma fuses (hg : Faithful n g w accepted) {e l : BlockId} {first second : Block α}
    {fused : Gate α} (hm : Mergeable g w e l first second)
    (hfused : Gate.compose first.gate second.gate = .ok fused) : Fuses first second fused := by
  obtain ⟨hreg, hmem, -⟩ := Gate.compose_spec
    (hg.regular _ _ (block?_eq_some.mp hm.earlier).1)
    (hg.regular _ _ (block?_eq_some.mp hm.later).1) hfused
  exact ⟨hreg.toWellFormed, hmem⟩

lemma merge (hg : Faithful n g w accepted) {e l id : BlockId} {first second : Block α}
    {fused : Gate α} (hm : Mergeable g w e l first second)
    (hfused : Gate.compose first.gate second.gate = .ok fused)
    (hg' : g.merge e l first second fused = (id, g')) : ∃ w', Faithful n g' w' accepted := by
  have hfirst := (block?_eq_some.mp hm.earlier).1
  have hsecond := (block?_eq_some.mp hm.later).1
  obtain ⟨hreg, -, hdegree, happly, hsym⟩ :=
    Gate.compose_spec (hg.regular _ _ hfirst) (hg.regular _ _ hsecond) hfused
  have hf := hg.fuses hm hfused
  have hmerged := hg.sound.merge hm hf hg'
  obtain ⟨rest, hbefore, hafter⟩ := hmerged.gates_perm hm hg.sound
  have hold : totalDegree g.gates = first.gate.degree + (second.gate.degree + totalDegree rest) :=
    (hbefore.map _).sum_eq
  have hnew : totalDegree g'.gates = fused.degree + totalDegree rest := (hafter.map _).sum_eq
  have hle := hg.degree
  obtain ⟨rank, hat⟩ := hmerged.blockAt
  have hcases : ∀ {s b}, g'.blockAt? s = some b →
      b.gate = fused ∨ ∃ c, g.blockAt? s = some c ∧ b.gate = c.gate := by
    intro s b hb
    rw [hat] at hb
    split at hb
    · exact Or.inl (Option.some.inj hb ▸ rfl)
    · split at hb
      · simp at hb
      · obtain ⟨c, hc, rfl⟩ := Option.map_eq_some_iff.mp hb
        exact Or.inr ⟨c, hc, rfl⟩
  refine ⟨_, hmerged.sound, hmerged.numQubits.trans hg.numQubits, fun s b hb => ?_,
    fun s b hb x hx => ?_, hg.valid, hmerged.nextOrigin.trans hg.count,
    hg.few, by omega, fun hd v amp => ?_⟩
  · rcases hcases hb with h | ⟨c, hc, h⟩
    · exact h ▸ hreg
    · exact h ▸ hg.regular s c hc
  · rcases hcases hb with h | ⟨c, hc, h⟩
    · rcases hsym x (h ▸ hx) with hx | hx
      · exact hg.symbols _ _ hfirst x hx
      · exact hg.symbols _ _ hsecond x hx
    · exact hg.symbols s c hc x (h ▸ hx)
  · rw [hmerged.applyAll_eq hg.sound hm hf v (happly (by omega) v), hg.meaning hd]

lemma inside_gates (hg : Faithful n g w accepted) :
    ∀ gate ∈ g.gates, ∀ q ∈ gate.qubits, q < n :=
  hg.numQubits ▸ hg.sound.inside_gates

lemma binds_gates (hg : Faithful n g w accepted) {lookup : String → Option α}
    (hb : ∀ gate ∈ accepted, Binds lookup gate.symbols) :
    ∀ gate ∈ g.gates, Binds lookup gate.symbols := by
  intro gate hgate x hx
  obtain ⟨slot, b, hblock, rfl⟩ := hg.sound.mem_gates.mp hgate
  obtain ⟨k, hk, hx⟩ := hg.symbols slot b hblock x hx
  exact hb k hk x hx

/-- Where the symbols of the accepted gates are bound, the graph and the gates give one state. -/
theorem applyGraph_eq (hg : Faithful n g w accepted) {s : Statevector α} (hs : s.WellFormed)
    (hn : n ≤ s.numQubits) {lookup : String → Option α}
    (hb : ∀ gate ∈ accepted, Binds lookup gate.symbols) (hd : totalDegree accepted < 2 ^ 32) :
    ∃ t : Statevector α, s.applyGraph g lookup = (t, .ok ()) ∧
      Statevector.applyGates lookup accepted s = (t, .ok ()) := by
  obtain ⟨t, ht, hwf, htn, htamp⟩ := Statevector.applyGates_spec hs hg.sound.wellFormed_gates
    (fun gate hgate q hq => (hg.inside_gates gate hgate q hq).trans_le hn) (hg.binds_gates hb)
  obtain ⟨u, hu, hwf', hun, huamp⟩ := Statevector.applyGates_spec hs
    (fun gate hgate => (hg.valid gate hgate).1.toWellFormed)
    (fun gate hgate q hq => ((hg.valid gate hgate).2 q hq).trans_le hn) hb
  have htu : t = u := by
    refine Statevector.ext_of_amp hwf hwf' (htn.trans hun.symm) ?_
    rw [htamp, huamp, hg.meaning hd]
  exact ⟨t, ht, htu ▸ hu⟩

end Faithful

namespace History
variable {n : Nat} {g : CircuitGraph α} {accepted : List (Gate α)}

end History

section Sample

/-- The gate X on qubit zero. -/
noncomputable def bitFlip : Gate ℝ := ⟨"x", [0], Quad.pauliX.single⟩

section Merged
variable {first second : Gate ℝ} (hfirst : first.Regular) (hsecond : second.Regular)
  (hqubits : first.qubits = [0]) (hqubits' : second.qubits = [0])
include hfirst hsecond hqubits hqubits'

end Merged

end Sample
end GateFusion
