import GateFusion.Proofs.Circuit.Dependency
import GateFusion.Proofs.Loops

/-!
# Adding a block

A gate that is added goes to the end of the wire of each of its qubits, and the graph stays sound:
its slots, wires and ranks keep fitting together.
-/

namespace GateFusion.CircuitGraph
variable {α : Type} {g : CircuitGraph α} {w : Qubit → List Nat}

/-- Slots, wires and ranks of a graph fit together. -/
structure Sound (g : CircuitGraph α) (w : Qubit → List Nat) : Prop where
  stored : Stored g
  wired : Wired g w
  ranked : Ranked g

lemma empty_eq_ok {n : Nat} (h : CircuitGraph.empty n = .ok g) : n ≤ maxIndexWidth ∧
    g = ⟨#[], [], [], Array.replicate n none, Array.replicate n none, 0, 0⟩ := by
  unfold CircuitGraph.empty at h
  obtain ⟨_, hwidth, h⟩ := bind_eq_ok.mp h
  exact ⟨checkIndexWidth_eq_ok.mp hwidth, (Except.ok.inj h).symm⟩

lemma numQubits_of_empty {n : Nat} (h : CircuitGraph.empty n = .ok g) : g.numQubits = n := by
  obtain ⟨-, rfl⟩ := empty_eq_ok h
  exact Array.size_replicate

/-- The graph without blocks is sound. -/
lemma Sound.empty {n : Nat} (h : CircuitGraph.empty n = .ok g) : Sound g fun _ => [] := by
  obtain ⟨-, rfl⟩ := empty_eq_ok h
  refine ⟨⟨⟨by simp, by simp⟩, ?_, ?_, ?_⟩, ⟨by simp, by simp, ?_, ?_, ?_, ?_⟩, by simp [Ranked]⟩
  · simp [blockAt?]
  · simp [blockAt?]
  · simp [blockAt?]
  · simp [blockAt?]
  · intro q
    simp only [Array.getElem?_replicate]
    split <;> rfl
  · intro q
    simp only [Array.getElem?_replicate]
    split <;> rfl
  · simp [Follows]

lemma join_setIfInBounds (xs : Array (Option Nat)) (q r s : Nat) :
    (xs.setIfInBounds q (some s))[r]?.join =
      if r = q ∧ q < xs.size then some s else xs[r]?.join := by
  by_cases hr : r = q
  · subst hr
    by_cases hlt : r < xs.size
    · simp [hlt]
    · simp [hlt]
  · simp [Array.getElem?_setIfInBounds_ne (Ne.symm hr), hr]

section Append
variable (slot : Nat) (q : Qubit)

@[simp] lemma slots_appendToWire : (appendToWire slot g q).slots = g.slots := by
  unfold appendToWire
  split <;> rfl

@[simp] lemma free_appendToWire : (appendToWire slot g q).free = g.free := by
  unfold appendToWire
  split <;> rfl

@[simp] lemma nextSeq_appendToWire : (appendToWire slot g q).nextSeq = g.nextSeq := by
  unfold appendToWire
  split <;> rfl

@[simp] lemma size_heads_appendToWire :
    (appendToWire slot g q).heads.size = g.heads.size := by
  unfold appendToWire
  split <;> simp

@[simp] lemma size_tails_appendToWire :
    (appendToWire slot g q).tails.size = g.tails.size := by
  unfold appendToWire
  split <;> simp

lemma tail_appendToWire (r : Qubit) : (appendToWire slot g q).tails[r]?.join =
    if r = q ∧ q < g.tails.size then some slot else g.tails[r]?.join := by
  unfold appendToWire
  split <;> exact join_setIfInBounds _ _ _ _

lemma head_appendToWire (r : Qubit) : (appendToWire slot g q).heads[r]?.join =
    if r = q ∧ q < g.heads.size ∧ g.tails[q]?.join = none then some slot
    else g.heads[r]?.join := by
  unfold appendToWire
  split
  · rename_i t ht
    simp [ht]
  · rename_i ht
    rw [join_setIfInBounds]
    simp [ht]

lemma mem_links_appendToWire (l : Link) : l ∈ (appendToWire slot g q).links ↔
    l ∈ g.links ∨ (l.target = slot ∧ l.qubit = q ∧ g.tails[q]?.join = some l.source) := by
  unfold appendToWire
  split
  · rename_i t ht
    rw [List.mem_cons, or_comm, ht]
    refine or_congr_right ⟨?_, ?_⟩
    · rintro rfl
      exact ⟨rfl, rfl, rfl⟩
    · rintro ⟨rfl, rfl, h⟩
      rw [Option.some.inj h]
  · rename_i ht
    simp [ht]

end Append

/-- Appending a slot to several wires, each of them as it was before. -/
lemma foldl_appendToWire (slot : Nat) (qs : List Qubit) (hn : qs.Nodup)
    (hq : ∀ q ∈ qs, q < g.heads.size) (he : g.tails.size = g.heads.size) :
    let g' := qs.foldl (appendToWire slot) g
    g'.slots = g.slots ∧ g'.free = g.free ∧ g'.nextSeq = g.nextSeq ∧
      g'.heads.size = g.heads.size ∧ g'.tails.size = g.tails.size ∧
      (∀ r, g'.tails[r]?.join = if r ∈ qs then some slot else g.tails[r]?.join) ∧
      (∀ r, g'.heads[r]?.join =
        if r ∈ qs ∧ g.tails[r]?.join = none then some slot else g.heads[r]?.join) ∧
      ∀ l, l ∈ g'.links ↔ l ∈ g.links ∨
        (l.target = slot ∧ l.qubit ∈ qs ∧ g.tails[l.qubit]?.join = some l.source) := by
  induction qs generalizing g with
  | nil => simp
  | cons q qs ih =>
    obtain ⟨hnot, hn⟩ := List.nodup_cons.mp hn
    have hlt : q < g.heads.size := hq q (by simp)
    have ih := ih (g := appendToWire slot g q) hn
      (fun r hr => by simpa using hq r (by simp [hr])) (by simpa using he)
    dsimp only at ih ⊢
    rw [List.foldl_cons]
    obtain ⟨h1, h2, h3, h4, h5, ht, hh, hl⟩ := ih
    refine ⟨by simpa using h1, by simpa using h2, by simpa using h3, by simpa using h4,
      by simpa using h5, fun r => ?_, fun r => ?_, fun l => ?_⟩
    · rw [ht, tail_appendToWire]
      by_cases hr : r = q
      · simp [hr, he, hlt]
      · simp [hr]
    · rw [hh, tail_appendToWire, head_appendToWire]
      by_cases hr : r = q
      · subst hr
        simp [hnot, hlt, he]
      · simp [hr]
    · rw [hl, mem_links_appendToWire, tail_appendToWire, or_assoc]
      refine or_congr_right ?_
      by_cases hr : l.qubit = q
      · simp [hr, hnot]
      · simp [hr]

section Change
variable {β : Type} {c : Change α β}

/-- Where a change has a result, the graph beside it is the one it leaves behind. -/
lemma Change.graph_of_result {b : β} {g' : CircuitGraph α} (h : c.result g = .ok (b, g')) :
    c.graph g = g' := by
  unfold Change.result at h
  split at h
  · rename_i hrun
    obtain ⟨-, rfl⟩ := Prod.mk.inj (Except.ok.inj h)
    rw [Change.graph, hrun]
  · simp at h

end Change

/-- The graph that an accepted gate leaves behind. -/
def appended (g : CircuitGraph α) (gate : Gate α) : CircuitGraph α :=
  { gate.qubits.foldl (appendToWire (g.insertBlock gate [g.nextOrigin]).1)
      (g.insertBlock gate [g.nextOrigin]).2 with nextOrigin := g.nextOrigin + 1 }

/-- The check stands before the first write, so a refusal has written nothing. -/
lemma run_append (gate : Gate α) : (append gate).run g =
    match g.checkGate gate with
    | .error e => (.error e, g)
    | .ok () => (.ok ⟨(g.insertBlock gate [g.nextOrigin]).1, g.nextSeq⟩, g.appended gate) := by
  have hrun : (append gate).run g = (liftExcept (g.checkGate gate) >>= fun _ =>
      (do
        let slot ← modifyGet (insertBlock · gate [g.nextOrigin])
        modify (gate.qubits.foldl (appendToWire slot) ·)
        modify fun wired => { wired with nextOrigin := g.nextOrigin + 1 }
        return ⟨slot, g.nextSeq⟩ : Change α BlockId)).run g := rfl
  rw [hrun]
  cases g.checkGate gate with
  | error e => rfl
  | ok u => rfl

lemma addBlock_eq (gate : Gate α) : g.addBlock gate = (g.checkGate gate).map fun _ =>
    (⟨(g.insertBlock gate [g.nextOrigin]).1, g.nextSeq⟩, g.appended gate) := by
  unfold addBlock Change.result
  rw [run_append]
  cases g.checkGate gate with
  | error e => rfl
  | ok u => rfl

/-- A gate that is refused leaves the graph as it was. -/
theorem graph_append_of_error {gate : Gate α} {e : CircuitError α}
    (h : g.addBlock gate = .error e) : (append gate).graph g = g := by
  rw [addBlock_eq] at h
  rw [Change.graph, run_append]
  cases hcheck : g.checkGate gate with
  | error e => rfl
  | ok u =>
    rw [hcheck] at h
    simp [Except.map] at h

lemma checkGate_eq_ok {gate : Gate α} : g.checkGate gate = .ok () ↔
    gate.qubits ≠ [] ∧ (∀ q ∈ gate.qubits, q < g.numQubits) ∧ g.nextOrigin < maxGates := by
  unfold checkGate
  split
  · rename_i hempty
    simp [List.isEmpty_iff.mp hempty]
  · rename_i hne
    rw [List.isEmpty_iff] at hne
    split
    · rename_i q hfind
      have hq := List.find?_some hfind
      refine iff_of_false (by simp) fun h => ?_
      exact absurd (h.2.1 q (List.mem_of_find?_eq_some hfind)) (by simpa using hq)
    · rename_i hfind
      have hin : ∀ q ∈ gate.qubits, q < g.numQubits := fun q hq => by
        simpa using List.find?_eq_none.mp hfind q hq
      rw [and_iff_right hne, and_iff_right hin]
      split
      · rename_i hfull
        exact iff_of_false (by simp) hfull.not_gt
      · rename_i hfree
        exact iff_of_true rfl (Nat.lt_of_not_le hfree)

/-- What an accepted addition looks like. -/
lemma addBlock_eq_ok {gate : Gate α} {id : BlockId} {g' : CircuitGraph α}
    (h : g.addBlock gate = .ok (id, g')) :
    gate.qubits ≠ [] ∧ (∀ q ∈ gate.qubits, q < g.numQubits) ∧ g.nextOrigin < maxGates ∧
      id = ⟨g.nextSlot, g.nextSeq⟩ ∧
      g' = { gate.qubits.foldl (appendToWire g.nextSlot)
        (g.insertBlock gate [g.nextOrigin]).2 with nextOrigin := g.nextOrigin + 1 } := by
  rw [addBlock_eq] at h
  cases hcheck : g.checkGate gate with
  | error e =>
    rw [hcheck] at h
    simp [Except.map] at h
  | ok u =>
    rw [hcheck] at h
    obtain ⟨rfl, rfl⟩ := Prod.mk.inj (Except.ok.inj h)
    have hslot := insertBlock_fst (g := g) gate [g.nextOrigin]
    obtain ⟨hne, hin, hfree⟩ := checkGate_eq_ok.mp hcheck
    exact ⟨hne, hin, hfree, by rw [hslot], by rw [← hslot]; rfl⟩

/-- What an accepted gate changes: its block fills the next slot and comes last on its wires. -/
structure Accepted (g g' : CircuitGraph α) (gate : Gate α) : Prop where
  freeList : FreeList g'
  blockAt : ∀ s, g'.blockAt? s = if s = g.nextSlot then
    some ⟨gate, g.nextSeq, g.nextSeq, [g.nextOrigin]⟩ else g.blockAt? s
  numQubits : g'.numQubits = g.numQubits
  nextSeq : g'.nextSeq = g.nextSeq + 1
  nextOrigin : g'.nextOrigin = g.nextOrigin + 1
  ends : g'.tails.size = g'.heads.size
  tail : ∀ q : Qubit, g'.tails[q]?.join =
    if q ∈ gate.qubits then some g.nextSlot else g.tails[q]?.join
  head : ∀ q : Qubit, g'.heads[q]?.join =
    if q ∈ gate.qubits ∧ g.tails[q]?.join = none then some g.nextSlot else g.heads[q]?.join
  link : ∀ l, l ∈ g'.links ↔ l ∈ g.links ∨
    (l.target = g.nextSlot ∧ l.qubit ∈ gate.qubits ∧ g.tails[l.qubit]?.join = some l.source)

lemma Sound.accepted (h : Sound g w) {gate : Gate α} (hgate : gate.WellFormed) {id : BlockId}
    {g' : CircuitGraph α} (hadd : g.addBlock gate = .ok (id, g')) : Accepted g g' gate := by
  obtain ⟨-, hin, -, -, hg'⟩ := addBlock_eq_ok hadd
  obtain ⟨hslots, hfree, hseq, hheads, htails, htail, hhead, hlink⟩ :=
    foldl_appendToWire (g := (g.insertBlock gate [g.nextOrigin]).2) g.nextSlot gate.qubits
      hgate.nodup (by simpa [CircuitGraph.numQubits] using hin) (by simpa using h.wired.ends)
  simp only [heads_insertBlock, tails_insertBlock, links_insertBlock, nextSeq_insertBlock] at *
  subst hg'
  refine ⟨h.stored.insertBlock.congr hslots hfree, fun s => ?_, hheads, hseq, rfl,
    (htails.trans h.wired.ends).trans hheads.symm, htail, hhead, hlink⟩
  rw [← h.stored.blockAt?_insertBlock]
  simp only [blockAt?, hslots]

section Accepted
variable {g' : CircuitGraph α} {gate : Gate α} (h : Sound g w) (ha : Accepted g g' gate)
include h ha

omit ha in
/-- The slot was empty, so it stands on no wire yet. -/
lemma Sound.ne_nextSlot {q : Qubit} {s : Nat} (hs : s ∈ w q) : s ≠ g.nextSlot := by
  rintro rfl
  obtain ⟨b, hb, -⟩ := (h.wired.mem_iff q _).mp hs
  simp [h.stored.nextSlot_empty] at hb

lemma Accepted.wired :
    Wired g' fun q => if q ∈ gate.qubits then w q ++ [g.nextSlot] else w q := by
  refine ⟨ha.ends, fun q => ?_, fun q s => ?_, fun q => ?_, fun q => ?_, fun l => ?_⟩
  · split
    · refine List.nodup_append.mpr ⟨h.wired.nodup q, by simp, fun s hs t ht => ?_⟩
      exact List.mem_singleton.mp ht ▸ h.ne_nextSlot hs
    · exact h.wired.nodup q
  · have hw := h.wired.mem_iff q s
    rw [ha.blockAt]
    by_cases hs : s = g.nextSlot
    · have hnot : g.nextSlot ∉ w q := fun hm => h.ne_nextSlot hm rfl
      by_cases hq : q ∈ gate.qubits <;> simp [hs, hq, hnot]
    · by_cases hq : q ∈ gate.qubits <;> simp [hs, hq, hw]
  · rw [ha.head, h.wired.tail, h.wired.head]
    by_cases hq : q ∈ gate.qubits
    · cases w q <;> simp [hq]
    · simp [hq]
  · rw [ha.tail, h.wired.tail]
    by_cases hq : q ∈ gate.qubits <;> simp [hq]
  · rw [ha.link, h.wired.link_iff, h.wired.tail]
    by_cases hq : l.qubit ∈ gate.qubits
    · simp [hq, follows_append, follows_cons, eq_comm, and_comm]
    · simp [hq]

/-- The new block ranks above all others, and links lead to it only. -/
lemma Accepted.ranked : Ranked g' := by
  have hrank : ∀ s, g'.rankAt s = if s = g.nextSlot then g.nextSeq else g.rankAt s := by
    intro s
    rw [rankAt, ha.blockAt]
    by_cases hs : s = g.nextSlot <;> simp [hs, rankAt]
  intro l hl
  rcases (ha.link l).mp hl with hold | ⟨ht, -, hs⟩
  · have hf := (h.wired.link_iff l).mp hold
    rw [hrank, hrank, if_neg (h.ne_nextSlot hf.mem_left), if_neg (h.ne_nextSlot hf.mem_right)]
    exact h.ranked l hold
  · rw [h.wired.tail] at hs
    have hmem := List.mem_of_getLast? hs
    obtain ⟨b, hb, -⟩ := (h.wired.mem_iff _ _).mp hmem
    rw [hrank, hrank, if_pos ht, if_neg (h.ne_nextSlot hmem), rankAt_of_blockAt? hb]
    exact (h.stored.placed _ _ hb).rank_lt

end Accepted

/-- An accepted addition fills a free slot and appends it to the wires of the gate. -/
theorem Sound.addBlock (h : Sound g w) {gate : Gate α} (hgate : gate.WellFormed) {id : BlockId}
    {g' : CircuitGraph α} (hadd : g.addBlock gate = .ok (id, g')) :
    Sound g' (fun q => if q ∈ gate.qubits then w q ++ [id.slot] else w q) ∧
      id = ⟨g.nextSlot, g.nextSeq⟩ ∧ g.blockAt? id.slot = none ∧
      (∀ s, g'.blockAt? s = if s = id.slot then
        some ⟨gate, g.nextSeq, g.nextSeq, [g.nextOrigin]⟩ else g.blockAt? s) ∧
      g'.numQubits = g.numQubits ∧ g'.nextSeq = g.nextSeq + 1 ∧
      g'.nextOrigin = g.nextOrigin + 1 := by
  obtain ⟨hne, hin, -, rfl, -⟩ := addBlock_eq_ok hadd
  have ha := h.accepted hgate hadd
  have hplaced : g'.Placed ⟨gate, g.nextSeq, g.nextSeq, [g.nextOrigin]⟩ :=
    ⟨hgate, hne, ha.numQubits ▸ hin, by simp [ha.nextSeq], by simp [ha.nextSeq]⟩
  have hstored : Stored g' := h.stored.insert ha.blockAt ha.freeList hplaced rfl
    (fun s b hb => (h.stored.placed s b hb).rank_lt.ne) ha.numQubits
    (ha.nextSeq ▸ Nat.le_succ _)
  exact ⟨⟨hstored, ha.wired h, ha.ranked h⟩, rfl, h.stored.nextSlot_empty, ha.blockAt,
    ha.numQubits, ha.nextSeq, ha.nextOrigin⟩

end GateFusion.CircuitGraph
