import GateFusion.Proofs.Circuit.Arena
import Mathlib.Data.List.Perm.Subperm

/-!
# Wires as lists of slots

`Wired g w` says that the links, heads and tails of a graph spell out one list of slots for every
qubit, the blocks that act on it. All queries about neighbours on a wire are read off these lists.
-/

namespace GateFusion

/-- Slot `b` comes directly after slot `a` in a list. -/
def Follows (w : List Nat) (a b : Nat) : Prop :=
  ∃ front back, w = front ++ a :: b :: back

@[simp] lemma follows_nil (a b : Nat) : ¬ Follows [] a b := by
  rintro ⟨front, back, h⟩
  simp at h

lemma follows_cons (x : Nat) (w : List Nat) (a b : Nat) :
    Follows (x :: w) a b ↔ (x = a ∧ w.head? = some b) ∨ Follows w a b := by
  constructor
  · rintro ⟨front, back, h⟩
    cases front with
    | nil =>
      obtain ⟨rfl, rfl⟩ := List.cons.inj h
      exact Or.inl ⟨rfl, rfl⟩
    | cons y front => exact Or.inr ⟨front, back, (List.cons.inj h).2⟩
  · rintro (⟨rfl, hb⟩ | ⟨front, back, rfl⟩)
    · obtain ⟨rest, rfl⟩ := List.head?_eq_some_iff.mp hb
      exact ⟨[], rest, rfl⟩
    · exact ⟨x :: front, back, rfl⟩

lemma follows_append (v w : List Nat) (a b : Nat) :
    Follows (v ++ w) a b ↔
      Follows v a b ∨ Follows w a b ∨ (v.getLast? = some a ∧ w.head? = some b) := by
  induction v with
  | nil => simp
  | cons x v ih =>
    rw [List.cons_append, follows_cons, follows_cons, ih]
    cases v with
    | nil => simp [or_comm]
    | cons y v => simp [or_assoc]

lemma Follows.mem_left {w : List Nat} {a b : Nat} (h : Follows w a b) : a ∈ w := by
  obtain ⟨front, back, rfl⟩ := h
  simp

lemma Follows.mem_right {w : List Nat} {a b : Nat} (h : Follows w a b) : b ∈ w := by
  obtain ⟨front, back, rfl⟩ := h
  simp

/-- A slot splits a list without repetitions in only one way. -/
lemma split_unique {v v' w w' : List Nat} {a : Nat} (hn : (v ++ a :: w).Nodup)
    (h : v ++ a :: w = v' ++ a :: w') : v = v' ∧ w = w' := by
  have hmem := (List.nodup_cons.mp (List.nodup_middle.mp hn)).1
  rw [List.mem_append, not_or] at hmem
  have heq := (List.append_cons_inj_of_notMem hmem.1 hmem.2).mp h
  exact ⟨heq.1, heq.2.2⟩

lemma follows_iff_head? {w front back : List Nat} {a b : Nat} (hn : w.Nodup)
    (h : w = front ++ a :: back) : Follows w a b ↔ back.head? = some b := by
  subst h
  constructor
  · rintro ⟨front', back', h⟩
    rw [(split_unique hn h).2]
    rfl
  · intro hb
    obtain ⟨rest, rfl⟩ := List.head?_eq_some_iff.mp hb
    exact ⟨front, rest, rfl⟩

lemma follows_iff_getLast? {w front back : List Nat} {a b : Nat} (hn : w.Nodup)
    (h : w = front ++ b :: back) : Follows w a b ↔ front.getLast? = some a := by
  subst h
  constructor
  · rintro ⟨front', back', h⟩
    have h' : front ++ b :: back = (front' ++ [a]) ++ b :: back' := by simpa using h
    rw [(split_unique hn h').1]
    simp
  · intro ha
    obtain ⟨rest, rfl⟩ := List.getLast?_eq_some_iff.mp ha
    exact ⟨rest, back, by simp⟩

lemma Follows.right_unique {w : List Nat} (hn : w.Nodup) {a b c : Nat} (hb : Follows w a b)
    (hc : Follows w a c) : b = c := by
  obtain ⟨front, back, h⟩ := hb
  have := (follows_iff_head? hn h).mp hc
  simpa using this

lemma Follows.left_unique {w : List Nat} (hn : w.Nodup) {a b c : Nat} (ha : Follows w a c)
    (hb : Follows w b c) : a = b := by
  obtain ⟨front, back, h⟩ := ha
  have h' : w = (front ++ [a]) ++ c :: back := by simpa using h
  have := (follows_iff_getLast? hn h').mp hb
  simpa using this

lemma Follows.ne {w : List Nat} (hn : w.Nodup) {a b : Nat} (h : Follows w a b) : a ≠ b := by
  obtain ⟨front, back, rfl⟩ := h
  rintro rfl
  simp [List.nodup_append] at hn

namespace CircuitGraph
variable {α : Type} {g : CircuitGraph α} {w : Qubit → List Nat}

/-- A block acts on a qubit of the register, its gate is well formed, and its numbers have been
handed out. -/
structure Placed (g : CircuitGraph α) (b : Block α) : Prop where
  wellFormed : b.gate.WellFormed
  nonempty : b.gate.qubits ≠ []
  inside : ∀ q ∈ b.gate.qubits, q < g.numQubits
  seq_lt : b.seq < g.nextSeq
  rank_lt : b.rank < g.nextSeq

/-- The blocks in the slots: the free list names the others, and no two blocks share a creation
number or a rank. -/
structure Stored (g : CircuitGraph α) : Prop extends FreeList g where
  placed : ∀ s b, g.blockAt? s = some b → g.Placed b
  seq_inj : ∀ s t b c, g.blockAt? s = some b → g.blockAt? t = some c → b.seq = c.seq → s = t
  rank_inj : ∀ s t b c, g.blockAt? s = some b → g.blockAt? t = some c → b.rank = c.rank → s = t

lemma Placed.mono {g' : CircuitGraph α} {b : Block α} (h : g.Placed b)
    (hn : g'.numQubits = g.numQubits) (hs : g.nextSeq ≤ g'.nextSeq) : g'.Placed b :=
  ⟨h.wellFormed, h.nonempty, fun q hq => hn ▸ h.inside q hq, h.seq_lt.trans_le hs,
    h.rank_lt.trans_le hs⟩

/-- A new block with the next creation number and a rank of its own fits in. -/
lemma Stored.insert {g' : CircuitGraph α} (h : Stored g) {slot : Nat} {new : Block α}
    (hat : ∀ s, g'.blockAt? s = if s = slot then some new else g.blockAt? s)
    (hfree : FreeList g') (hnew : g'.Placed new) (hseq : new.seq = g.nextSeq)
    (hrank : ∀ s b, g.blockAt? s = some b → b.rank ≠ new.rank)
    (hn : g'.numQubits = g.numQubits) (hs : g.nextSeq ≤ g'.nextSeq) : Stored g' := by
  refine ⟨hfree, fun s b hb => ?_, fun s t b c hb hc heq => ?_, fun s t b c hb hc heq => ?_⟩
  · rw [hat] at hb
    split at hb
    · exact Option.some.inj hb ▸ hnew
    · exact (h.placed s b hb).mono hn hs
  · rw [hat] at hb hc
    split at hb <;> split at hc
    · simp_all
    · have := (h.placed t c hc).seq_lt
      simp only [Option.some.injEq] at hb
      subst hb
      omega
    · have := (h.placed s b hb).seq_lt
      simp only [Option.some.injEq] at hc
      subst hc
      omega
    · exact h.seq_inj s t b c hb hc heq
  · rw [hat] at hb hc
    split at hb <;> split at hc
    · simp_all
    · simp only [Option.some.injEq] at hb
      subst hb
      exact absurd heq.symm (hrank t c hc)
    · simp only [Option.some.injEq] at hc
      subst hc
      exact absurd heq (hrank s b hb)
    · exact h.rank_inj s t b c hb hc heq

/-- The wires of a graph are the lists `w`. -/
structure Wired (g : CircuitGraph α) (w : Qubit → List Nat) : Prop where
  ends : g.tails.size = g.heads.size
  nodup : ∀ q, (w q).Nodup
  mem_iff : ∀ q s, s ∈ w q ↔ ∃ b, g.blockAt? s = some b ∧ q ∈ b.gate.qubits
  head : ∀ q, g.heads[q]?.join = (w q).head?
  tail : ∀ q, g.tails[q]?.join = (w q).getLast?
  link_iff : ∀ l, l ∈ g.links ↔ Follows (w l.qubit) l.source l.target

lemma Wired.mem_of_acts (hw : Wired g w) {s : Nat} {b : Block α} (hb : g.blockAt? s = some b)
    {q : Qubit} (hq : q ∈ b.gate.qubits) : s ∈ w q :=
  (hw.mem_iff q s).mpr ⟨b, hb, hq⟩

lemma Wired.acts_of_mem (hw : Wired g w) {s : Nat} {b : Block α} (hb : g.blockAt? s = some b)
    {q : Qubit} (hs : s ∈ w q) : q ∈ b.gate.qubits := by
  obtain ⟨c, hc, hq⟩ := (hw.mem_iff q s).mp hs
  rw [hb] at hc
  exact Option.some.inj hc ▸ hq

/-- Every slot on a wire holds a block. -/
lemma Wired.live_of_mem (hw : Wired g w) {q : Qubit} {s : Nat} (hs : s ∈ w q) :
    ∃ b, g.blockAt? s = some b := by
  obtain ⟨b, hb, -⟩ := (hw.mem_iff q s).mp hs
  exact ⟨b, hb⟩

lemma Wired.idAt?_isSome (hw : Wired g w) {q : Qubit} {s : Nat} (hs : s ∈ w q) :
    ∃ b, g.blockAt? s = some b ∧ g.idAt? s = some ⟨s, b.seq⟩ := by
  obtain ⟨b, hb⟩ := hw.live_of_mem hs
  exact ⟨b, hb, idAt?_eq_some.mpr ⟨b, hb, rfl⟩⟩

/-- A block on a wire splits it into what comes before and after it. -/
lemma Wired.split (hw : Wired g w) {s : Nat} {b : Block α} (hb : g.blockAt? s = some b)
    {q : Qubit} (hq : q ∈ b.gate.qubits) : ∃ front back, w q = front ++ s :: back :=
  List.append_of_mem (hw.mem_of_acts hb hq)

lemma bind_idAt?_eq_some {o : Option Nat} {id : BlockId} :
    o.bind g.idAt? = some id ↔ o = some id.slot ∧ g.idAt? id.slot = some id := by
  rw [Option.bind_eq_some_iff]
  constructor
  · rintro ⟨s, rfl, hs⟩
    obtain ⟨b, hb, rfl⟩ := idAt?_eq_some.mp hs
    exact ⟨rfl, hs⟩
  · rintro ⟨rfl, hs⟩
    exact ⟨id.slot, rfl, hs⟩

/-- The name of a live slot names that slot. -/
lemma slot_bind_idAt? {o : Option Nat} (h : ∀ s ∈ o, ∃ b, g.blockAt? s = some b) :
    (o.bind g.idAt?).map (·.slot) = o := by
  cases o with
  | none => rfl
  | some s =>
    obtain ⟨b, hb⟩ := h s rfl
    rw [Option.bind_some, idAt?_eq_some.mpr ⟨b, hb, rfl⟩]
    rfl

section Newest

/-- Where the newest link that leaves a slot on a qubit leads to. -/
def follower? (g : CircuitGraph α) (q : Qubit) (slot : Nat) : Option Nat :=
  (g.links.find? fun l => l.source = slot ∧ l.qubit = q).map (·.target)

/-- Where the newest link that enters a slot on a qubit comes from. -/
def leader? (g : CircuitGraph α) (q : Qubit) (slot : Nat) : Option Nat :=
  (g.links.find? fun l => l.target = slot ∧ l.qubit = q).map (·.source)

variable {q : Qubit} {s t : Nat}

lemma link_of_follower? (h : g.follower? q s = some t) : ⟨s, t, q⟩ ∈ g.links := by
  obtain ⟨l, hl, rfl⟩ := Option.map_eq_some_iff.mp h
  obtain ⟨rfl, rfl⟩ : l.source = s ∧ l.qubit = q := by simpa using List.find?_some hl
  exact List.mem_of_find?_eq_some hl

lemma link_of_leader? (h : g.leader? q t = some s) : ⟨s, t, q⟩ ∈ g.links := by
  obtain ⟨l, hl, rfl⟩ := Option.map_eq_some_iff.mp h
  obtain ⟨rfl, rfl⟩ : l.target = t ∧ l.qubit = q := by simpa using List.find?_some hl
  exact List.mem_of_find?_eq_some hl

lemma exists_follower (h : ⟨s, t, q⟩ ∈ g.links) : ∃ u, g.follower? q s = some u := by
  rw [← Option.isSome_iff_exists, follower?, Option.isSome_map, List.find?_isSome]
  exact ⟨_, h, by simp⟩

lemma exists_leader (h : ⟨s, t, q⟩ ∈ g.links) : ∃ u, g.leader? q t = some u := by
  rw [← Option.isSome_iff_exists, leader?, Option.isSome_map, List.find?_isSome]
  exact ⟨_, h, by simp⟩

lemma nextOn?_eq {id : BlockId} {b : Block α} (hb : g.block? id = some b) (q : Qubit) :
    g.nextOn? id q = (g.follower? q id.slot).bind g.idAt? := by
  rw [nextOn?, hb, follower?, Option.bind_map]
  rfl

lemma prevOn?_eq {id : BlockId} {b : Block α} (hb : g.block? id = some b) (q : Qubit) :
    g.prevOn? id q = (g.leader? q id.slot).bind g.idAt? := by
  rw [prevOn?, hb, leader?, Option.bind_map]
  rfl

/-- Where the links are the steps of one list, the newest ones are. -/
lemma Wired.follower?_eq_some (hw : Wired g w) :
    g.follower? q s = some t ↔ Follows (w q) s t := by
  constructor
  · intro h
    exact (hw.link_iff ⟨s, t, q⟩).mp (link_of_follower? h)
  · intro h
    obtain ⟨u, hu⟩ := exists_follower ((hw.link_iff ⟨s, t, q⟩).mpr h)
    have hstep : Follows (w q) s u := (hw.link_iff ⟨s, u, q⟩).mp (link_of_follower? hu)
    rw [hu, hstep.right_unique (hw.nodup q) h]

lemma Wired.leader?_eq_some (hw : Wired g w) : g.leader? q t = some s ↔ Follows (w q) s t := by
  constructor
  · intro h
    exact (hw.link_iff ⟨s, t, q⟩).mp (link_of_leader? h)
  · intro h
    obtain ⟨u, hu⟩ := exists_leader ((hw.link_iff ⟨s, t, q⟩).mpr h)
    have hstep : Follows (w q) u t := (hw.link_iff ⟨u, t, q⟩).mp (link_of_leader? hu)
    rw [hu, hstep.left_unique (hw.nodup q) h]

end Newest

section Neighbors
variable (hw : Wired g w) {id id' : BlockId} {b b' : Block α} (hb : g.block? id = some b)
  {q : Qubit}
include hw hb

lemma Wired.nextOn?_eq_some : g.nextOn? id q = some id' ↔
    Follows (w q) id.slot id'.slot ∧ g.idAt? id'.slot = some id' := by
  rw [nextOn?_eq hb, bind_idAt?_eq_some, hw.follower?_eq_some]

lemma Wired.prevOn?_eq_some : g.prevOn? id q = some id' ↔
    Follows (w q) id'.slot id.slot ∧ g.idAt? id'.slot = some id' := by
  rw [prevOn?_eq hb, bind_idAt?_eq_some, hw.leader?_eq_some]

/-- The block after a block is the first one behind it on the wire. -/
theorem Wired.nextOn?_of_split {front back : List Nat} (h : w q = front ++ id.slot :: back) :
    g.nextOn? id q = back.head?.bind g.idAt? := by
  ext id'
  rw [hw.nextOn?_eq_some hb, follows_iff_head? (hw.nodup q) h, bind_idAt?_eq_some]

/-- The block before a block is the last one before it on the wire. -/
theorem Wired.prevOn?_of_split {front back : List Nat} (h : w q = front ++ id.slot :: back) :
    g.prevOn? id q = front.getLast?.bind g.idAt? := by
  ext id'
  rw [hw.prevOn?_eq_some hb, follows_iff_getLast? (hw.nodup q) h, bind_idAt?_eq_some]

lemma Wired.nextOn?_eq_some_iff (hb' : g.block? id' = some b') :
    g.nextOn? id q = some id' ↔ Follows (w q) id.slot id'.slot := by
  rw [hw.nextOn?_eq_some hb, and_iff_left (idAt?_of_block? hb')]

end Neighbors

section Whole
variable (hw : Wired g w) {q : Qubit}
include hw

lemma Wired.head?_eq : g.head? q = (w q).head?.bind g.idAt? := by
  rw [head?, hw.head]

/-- The slots on a wire are live ones, so there are no more of them than blocks. -/
lemma Wired.length_le : (w q).length ≤ g.numBlocks := by
  refine ((hw.nodup q).subperm fun s hs => ?_).length_le
  exact mem_liveSlots.mpr (hw.live_of_mem hs)

lemma Wired.chain_of_split {front back : List Nat} (h : w q = front ++ back) (fuel : Nat)
    (hf : back.length ≤ fuel) :
    g.chain q fuel (back.head?.bind g.idAt?) = back.filterMap g.idAt? := by
  induction fuel generalizing front back with
  | zero =>
    obtain rfl := List.length_eq_zero_iff.mp (Nat.le_zero.mp hf)
    rfl
  | succ fuel ih =>
    cases back with
    | nil => rfl
    | cons s back =>
      have hs : s ∈ w q := by simp [h]
      obtain ⟨b, hb, hid⟩ := hw.idAt?_isSome hs
      have hblock : g.block? ⟨s, b.seq⟩ = some b := block?_of_blockAt? hb
      have hrest : w q = (front ++ [s]) ++ back := by simpa using h
      rw [List.head?_cons, Option.bind_some, hid, chain, hw.nextOn?_of_split hblock h,
        ih hrest (by simpa using hf), List.filterMap_cons_some hid]

/-- The wire of a qubit lists the names of its slots. -/
theorem Wired.wire_eq : g.wire q = (w q).filterMap g.idAt? := by
  rw [wire, hw.head?_eq]
  have h : w q = [] ++ w q := rfl
  exact hw.chain_of_split h _ hw.length_le

end Whole

end CircuitGraph
end GateFusion
