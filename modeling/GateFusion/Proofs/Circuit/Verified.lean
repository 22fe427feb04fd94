import GateFusion.Proofs.Circuit.Reachable

/-!
# What the check of integrity accepts

The check counts the visits on all wires together and compares them with the number of qubits of all
blocks together. No wire has more visits than blocks, so the two numbers agree only if every wire
visits all its blocks. But a walk follows the newest links alone: a link that is hidden behind newer
ones at both its ends is never looked at.
-/

namespace GateFusion.CircuitGraph
open Relation
variable {α : Type} {g : CircuitGraph α} {w : Qubit → List Nat}

/-- A graph in order: no cycle, ranks that increase, links between blocks on their qubit, blocks on
declared qubits, and links that are exactly the steps of one chain for each qubit. -/
structure WellWired (g : CircuitGraph α) : Prop where
  acyclic : ∀ s, ¬ TransGen g.Precedes s s
  ranked : g.Ranked
  touching : g.Touching
  inside : ∀ s b, g.blockAt? s = some b → ∀ q ∈ b.gate.qubits, q < g.numQubits
  wired : ∃ w, Wired g w

/-- No two links leave a block on one qubit. -/
def Unbranched (g : CircuitGraph α) : Prop :=
  g.links.Pairwise fun l k => ¬ (l.source = k.source ∧ l.qubit = k.qubit)

section Counting
variable {β : Type}

lemma total_map_le {xs : List β} {k m : β → Nat} (h : ∀ x ∈ xs, k x ≤ m x) :
    total (xs.map k) ≤ total (xs.map m) := by
  induction xs with
  | nil => exact le_rfl
  | cons x xs ih =>
    obtain ⟨hx, hxs⟩ := List.forall_mem_cons.mp h
    exact Nat.add_le_add hx (ih hxs)

/-- Sums of numbers in order agree only if the numbers do. -/
lemma eq_of_total_le {xs : List β} {k m : β → Nat} (h : ∀ x ∈ xs, k x ≤ m x)
    (htotal : total (xs.map m) ≤ total (xs.map k)) : ∀ x ∈ xs, k x = m x := by
  induction xs with
  | nil => simp
  | cons x xs ih =>
    obtain ⟨hx, hxs⟩ := List.forall_mem_cons.mp h
    have hle := total_map_le hxs
    change m x + total (xs.map m) ≤ k x + total (xs.map k) at htotal
    exact List.forall_mem_cons.mpr ⟨by omega, ih hxs (by omega)⟩

end Counting

/-- A block has at least as many qubits as it has declared ones. -/
lemma declared_subperm {s : Nat} {b : Block α} (hb : g.blockAt? s = some b) :
    (g.declared s).Subperm b.gate.qubits := by
  refine (List.nodup_range.filter _).subperm fun q hq => ?_
  exact ((mem_declared hb).mp hq).2

lemma declared_le_widthAt {s : Nat} (hs : s ∈ g.liveSlots) :
    (g.declared s).length ≤ g.widthAt s := by
  obtain ⟨b, hb⟩ := mem_liveSlots.mp hs
  rw [widthAt, hb]
  exact (declared_subperm hb).length_le

section Complete
variable {path : Qubit → List Nat}

/-- A trail visits blocks on its qubit, each at most once. -/
lemma Trail.subperm {q : Qubit} {last current : Option Nat} {path : List Nat} (hr : g.Ranked)
    (h : g.Trail q last current path) : path.Subperm (g.actors q) := by
  refine (h.nodup hr).subperm fun s hs => ?_
  rw [mem_actors, ← touches_eq_true]
  exact h.touches s hs

/-- If trails visit as many blocks as the blocks have qubits, then every trail visits all blocks on
its qubit, and all qubits are declared. -/
lemma complete_of_total (hr : g.Ranked)
    (hpath : ∀ q < g.numQubits, g.Trail q none g.heads[q]?.join (path q))
    (htotal : total ((List.range g.numQubits).map fun q => (path q).length) =
      total (g.liveSlots.map g.widthAt)) :
    (∀ q < g.numQubits, ∀ s, s ∈ path q ↔ ∃ b, g.blockAt? s = some b ∧ q ∈ b.gate.qubits) ∧
      ∀ s b, g.blockAt? s = some b → ∀ q ∈ b.gate.qubits, q < g.numQubits := by
  have hrows : ∀ q ∈ List.range g.numQubits, (path q).length ≤ (g.actors q).length := fun q hq =>
    ((hpath q (List.mem_range.mp hq)).subperm hr).length_le
  have hcolumns : ∀ s ∈ g.liveSlots, (g.declared s).length ≤ g.widthAt s := fun s hs =>
    declared_le_widthAt hs
  -- the sum by wires is at most the one by slots, and the check says that they agree
  have hlower := total_map_le hrows
  have hupper := total_map_le hcolumns
  rw [← total_actors] at hupper
  constructor
  · intro q hq s
    have hlength := eq_of_total_le hrows (hupper.trans_eq htotal.symm) q (List.mem_range.mpr hq)
    have hperm := ((hpath q hq).subperm hr).perm_of_length_le hlength.ge
    rw [hperm.mem_iff, mem_actors]
  · intro s b hb q hq
    rw [total_actors] at hlower
    have hlength := eq_of_total_le hcolumns (htotal.symm.trans_le hlower) s
      (mem_liveSlots.mpr ⟨b, hb⟩)
    have hperm : (g.declared s).Perm b.gate.qubits := by
      refine (declared_subperm hb).perm_of_length_le ?_
      rw [hlength, widthAt, hb]
      exact le_rfl
    exact ((mem_declared hb).mp (hperm.mem_iff.mpr hq)).1

end Complete

/-- A trail from the head to the tail that visits all blocks on its qubit is the wire. -/
lemma Trail.chain {q : Qubit} {path : List Nat} (h : g.Trail q none g.heads[q]?.join path)
    (hr : g.Ranked) (htouching : g.Touching) (htail : path.getLast? = g.tails[q]?.join)
    (hmem : ∀ s, s ∈ path ↔ ∃ b, g.blockAt? s = some b ∧ q ∈ b.gate.qubits) :
    g.Chain q path := by
  have hn := h.nodup hr
  -- no link leads to or from a block off the trail, so those on it have all the neighbours
  have hends : ∀ s t, ⟨s, t, q⟩ ∈ g.links → s ∈ path ∧ t ∈ path := by
    intro s t hl
    rw [hmem, hmem, ← touches_eq_true, ← touches_eq_true]
    exact htouching _ hl
  refine ⟨hn, hmem, h.head?.symm, htail.symm, fun s t => ⟨fun hst => ?_, ?_⟩,
    fun s t => ⟨fun hst => ?_, ?_⟩⟩
  · obtain ⟨front, back, rfl⟩ := List.append_of_mem (hends s t (link_of_follower? hst)).1
    rw [follows_iff_head? hn rfl, ← h.neighbors.1, hst]
  · rintro ⟨front, back, rfl⟩
    exact h.neighbors.1
  · obtain ⟨front, back, rfl⟩ := List.append_of_mem (hends s t (link_of_leader? hst)).2
    rw [follows_iff_getLast? hn rfl, ← Option.or_none (o := front.getLast?), ← h.neighbors.2, hst]
  · rintro ⟨front, back, hsplit⟩
    obtain rfl : path = (front ++ [s]) ++ t :: back := by simpa using hsplit
    rw [h.neighbors.2, List.getLast?_append, List.getLast?_singleton, Option.some_or,
      Option.some_or]

/-- A qubit that no block acts on has the empty wire. -/
lemma chain_nil {q : Qubit} (hends : g.tails.size = g.heads.size) (htouching : g.Touching)
    (hq : g.numQubits ≤ q) (hidle : ∀ s b, g.blockAt? s = some b → q ∉ b.gate.qubits) :
    g.Chain q [] := by
  have hlinks : ∀ s t, ⟨s, t, q⟩ ∉ g.links := by
    intro s t hl
    obtain ⟨b, hb, hacts⟩ := touches_eq_true.mp (htouching _ hl).1
    exact hidle s b hb hacts
  have hheads : g.heads[q]? = none := Array.getElem?_eq_none hq
  have htails : g.tails[q]? = none := Array.getElem?_eq_none (hends ▸ hq)
  refine ⟨List.nodup_nil, fun s => ?_, ?_, ?_, fun s t => ?_, fun s t => ?_⟩
  · refine iff_of_false List.not_mem_nil ?_
    rintro ⟨b, hb, hacts⟩
    exact hidle s b hb hacts
  · rw [hheads]
    rfl
  · rw [htails]
    rfl
  · exact iff_of_false (fun hst => hlinks s t (link_of_follower? hst)) (follows_nil s t)
  · exact iff_of_false (fun hst => hlinks s t (link_of_leader? hst)) (follows_nil s t)

/-- What passes the check has wires. -/
lemma Shaped.exists_verified (hg : Shaped g) (h : g.verifyIntegrity = .ok ()) :
    ∃ w, Verified g w := by
  obtain ⟨-, hlinks, visits, hvisits, htotal⟩ := verifyIntegrity_eq_ok_iff.mp h
  have hr : g.Ranked := fun l hl => (checkLink_eq_ok_iff.mp (hlinks l hl)).1
  have htouching : g.Touching := fun l hl => (checkLink_eq_ok_iff.mp (hlinks l hl)).2
  have hpaths : ∀ q, ∃ path, q < g.numQubits → g.Trail q none g.heads[q]?.join path ∧
      path.getLast? = g.tails[q]?.join ∧ visits q = path.length := by
    intro q
    by_cases hq : q < g.numQubits
    · obtain ⟨path, htrail, -, htail, hlength⟩ := hg.checkWire_eq_ok_iff.mp (hvisits q hq)
      exact ⟨path, fun _ => ⟨htrail, htail, hlength⟩⟩
    · exact ⟨[], fun hlt => absurd hlt hq⟩
  choose path hpaths using hpaths
  have hvisited : (List.range g.numQubits).map (fun q => (path q).length) =
      (List.range g.numQubits).map visits :=
    List.map_congr_left fun q hq => (hpaths q (List.mem_range.mp hq)).2.2.symm
  obtain ⟨hmem, hinside⟩ := complete_of_total hr (fun q hq => (hpaths q hq).1)
    (hvisited ▸ htotal)
  have hchains : ∀ q, ∃ wire, g.Chain q wire := by
    intro q
    by_cases hq : q < g.numQubits
    · obtain ⟨htrail, htail, -⟩ := hpaths q hq
      exact ⟨path q, htrail.chain hr htouching htail (hmem q hq)⟩
    · exact ⟨[], chain_nil hg.ends htouching (Nat.le_of_not_lt hq) fun s b hb hacts =>
        hq (hinside s b hb q hacts)⟩
  choose w hw using hchains
  exact ⟨w, hr, htouching, hinside, hw⟩

lemma WellWired.exists_verified (h : WellWired g) : ∃ w, Verified g w := by
  obtain ⟨w, hw⟩ := h.wired
  exact ⟨w, h.ranked, h.touching, h.inside, hw.chain⟩

/-- Where no two links leave a block on one qubit, every link is the newest. -/
lemma Unbranched.follower_eq (hu : g.Unbranched) {l : Link} (hl : l ∈ g.links) :
    g.follower? l.qubit l.source = some l.target := by
  have : Std.Symm fun l k : Link => ¬ (l.source = k.source ∧ l.qubit = k.qubit) :=
    ⟨fun _ _ hapart hsame => hapart ⟨hsame.1.symm, hsame.2.symm⟩⟩
  obtain ⟨t, ht⟩ := exists_follower hl
  have hsame : l = ⟨l.source, t, l.qubit⟩ := by
    by_contra hne
    exact hu.forall hl (link_of_follower? ht) hne ⟨rfl, rfl⟩
  rw [ht, congrArg Link.target hsame]

lemma Verified.wellWired (hg : Shaped g) (hu : g.Unbranched) (h : Verified g w) :
    WellWired g := by
  refine ⟨h.ranked.acyclic, h.ranked, h.touching, h.inside, w, hg.ends, fun q => (h.chain q).nodup,
    fun q => (h.chain q).mem_iff, fun q => (h.chain q).head, fun q => (h.chain q).tail,
    fun l => ⟨fun hl => ?_, fun hl => ?_⟩⟩
  · exact ((h.chain _).follower _ _).mp (hu.follower_eq hl)
  · exact link_of_follower? (((h.chain _).follower _ _).mpr hl)

/-- The check accepts exactly the graphs whose newest links spell out wires. Those in order are
among them, and if no two links leave a block on one qubit there are no others. -/
theorem Shaped.verifyIntegrity_iff (hg : Shaped g) :
    (g.verifyIntegrity = .ok () ↔ ∃ w, Verified g w) ∧
      (WellWired g → g.verifyIntegrity = .ok ()) ∧
      (g.Unbranched → (g.verifyIntegrity = .ok () ↔ WellWired g)) := by
  have hverified : g.verifyIntegrity = .ok () ↔ ∃ w, Verified g w := by
    constructor
    · exact hg.exists_verified
    · rintro ⟨w, hw⟩
      exact hg.verifyIntegrity_eq_ok hw
  have hordered : WellWired g → g.verifyIntegrity = .ok () := fun h =>
    hverified.mpr h.exists_verified
  refine ⟨hverified, hordered, fun hu => ⟨fun h => ?_, hordered⟩⟩
  obtain ⟨w, hw⟩ := hverified.mp h
  exact hw.wellWired hg hu

section Sample

/-- Three blocks on one qubit with given links. -/
def threeInRow (links : List Link) : CircuitGraph Nat :=
  ⟨#[some ⟨cleared, 0, 0, [0]⟩, some ⟨cleared, 1, 1, [1]⟩, some ⟨cleared, 2, 2, [2]⟩], [], links,
    #[some 0], #[some 2], 3, 3⟩

lemma blockAt?_threeInRow {links : List Link} {s : Nat} {b : Block Nat}
    (h : (threeInRow links).blockAt? s = some b) : b.gate = cleared := by
  match s with
  | 0 | 1 | 2 => exact Option.some.inj h ▸ rfl
  | s + 3 => simp [blockAt?, threeInRow] at h

lemma shaped_threeInRow {links : List Link} (h : ∀ l ∈ links, l.source < 3 ∧ l.target < 3) :
    Shaped (threeInRow links) := by
  have hlive : ∀ s < 3, ∃ b, (threeInRow links).blockAt? s = some b := by
    intro s hs
    match s with
    | 0 | 1 | 2 => exact ⟨_, rfl⟩
  refine ⟨rfl, fun l hl => hlive _ (h l hl).1, fun l hl => hlive _ (h l hl).2, fun q s hs => ?_,
    fun s b hb => ?_⟩
  · match q with
    | 0 => exact hlive s (Option.some.inj hs ▸ by decide)
    | q + 1 => simp [threeInRow] at hs
  · rw [blockAt?_threeInRow hb]
    decide

lemma verifyIntegrity_threeInRow {links : List Link} (hg : Shaped (threeInRow links))
    (hlinks : ∀ l ∈ links, l.qubit = 0 ∧ l.source < l.target ∧ l.target < 3)
    (hwire : (threeInRow links).Trail 0 none (some 0) [0, 1, 2]) :
    (threeInRow links).verifyIntegrity = .ok () := by
  have htouches : ∀ s < 3, (threeInRow links).touches s 0 = true := by
    intro s hs
    match s with
    | 0 | 1 | 2 => rfl
  have hrank : ∀ s < 3, (threeInRow links).rankAt s = s := by
    intro s hs
    match s with
    | 0 | 1 | 2 => rfl
  have hr : (threeInRow links).Ranked := by
    intro l hl
    obtain ⟨-, hlt, hbound⟩ := hlinks l hl
    rwa [hrank _ (hlt.trans hbound), hrank _ hbound]
  refine verifyIntegrity_eq_ok_iff.mpr ⟨hg.order_length_iff.mpr hr.acyclic, fun l hl => ?_,
    fun _ => 3, fun q hq => ?_, rfl⟩
  · obtain ⟨hqubit, hlt, hbound⟩ := hlinks l hl
    rw [checkLink_eq_ok_iff, hqubit]
    exact ⟨hr l hl, htouches _ (hlt.trans hbound), htouches _ hbound⟩
  · obtain rfl : q = 0 := Nat.lt_one_iff.mp hq
    exact hg.checkWire_eq_ok_iff.mpr ⟨[0, 1, 2], hwire, le_rfl, rfl, rfl⟩

/-- Three blocks in a row. -/
theorem verifyIntegrity_iff_threeInRow : Shaped (threeInRow [⟨1, 2, 0⟩, ⟨0, 1, 0⟩]) ∧
    (threeInRow [⟨1, 2, 0⟩, ⟨0, 1, 0⟩]).Unbranched ∧
    WellWired (threeInRow [⟨1, 2, 0⟩, ⟨0, 1, 0⟩]) := by
  have hg : Shaped (threeInRow [⟨1, 2, 0⟩, ⟨0, 1, 0⟩]) := shaped_threeInRow (by decide)
  have hu : (threeInRow [⟨1, 2, 0⟩, ⟨0, 1, 0⟩]).Unbranched := by
    unfold Unbranched
    decide
  refine ⟨hg, hu, (hg.verifyIntegrity_iff.2.2 hu).mp ?_⟩
  exact verifyIntegrity_threeInRow hg (by decide) (by simp [Trail]; decide)

/-- A link past a block, hidden behind newer links at both its ends, is not found. -/
theorem verifyIntegrity_misses_shortcut :
    Shaped (threeInRow [⟨1, 2, 0⟩, ⟨0, 1, 0⟩, ⟨0, 2, 0⟩]) ∧
      (threeInRow [⟨1, 2, 0⟩, ⟨0, 1, 0⟩, ⟨0, 2, 0⟩]).verifyIntegrity = .ok () ∧
      ¬ WellWired (threeInRow [⟨1, 2, 0⟩, ⟨0, 1, 0⟩, ⟨0, 2, 0⟩]) := by
  have hg : Shaped (threeInRow [⟨1, 2, 0⟩, ⟨0, 1, 0⟩, ⟨0, 2, 0⟩]) := shaped_threeInRow (by decide)
  refine ⟨hg, verifyIntegrity_threeInRow hg (by decide) (by simp [Trail]; decide), fun h => ?_⟩
  obtain ⟨w, hw⟩ := h.wired
  have hstep := (hw.link_iff ⟨0, 1, 0⟩).mp (by decide)
  have hpast := (hw.link_iff ⟨0, 2, 0⟩).mp (by decide)
  exact absurd (hstep.right_unique (hw.nodup 0) hpast) (by decide)

end Sample

end GateFusion.CircuitGraph
