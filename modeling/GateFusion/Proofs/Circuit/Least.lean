import GateFusion.Proofs.Circuit.Adjacency
import GateFusion.Proofs.Circuit.Mirror
import GateFusion.Proofs.State.Schedule

/-!
# The least order

Of all orders of the blocks that keep to the wires, the execution order is the one whose creation
numbers come first lexicographically. Whatever another order begins with waits for nothing, so the
oldest block that waits for nothing is no younger.
-/

namespace GateFusion.CircuitGraph
variable {α : Type} {g : CircuitGraph α} {w : Qubit → List Nat}

section Drain
variable {ids : List BlockId} {links : List Link}

/-- What is taken next is the oldest of the blocks that wait for nothing. -/
lemma seq_le_of_ready? {id x : BlockId} (hsorted : ids.Pairwise fun x y => x.seq < y.seq)
    (hready : ready? ids links = some id) (hx : x ∈ ids) (hfree : ∀ l ∈ links, l.target ≠ x.slot) :
    id.seq < x.seq ∨ id = x := by
  obtain ⟨-, front, back, rfl, hfront⟩ := List.find?_eq_some_iff_append.mp hready
  have hnot : x ∉ front := by
    intro hmem
    have hwaits := hfront x hmem
    rw [Bool.not_eq_true', List.all_eq_false] at hwaits
    obtain ⟨l, hl, ht⟩ := hwaits
    exact ht (decide_eq_true (hfree l hl))
  rcases List.mem_cons.mp ((List.mem_append.mp hx).resolve_left hnot) with rfl | hback
  · exact Or.inr rfl
  · have hlater := (List.pairwise_append.mp hsorted).2.1
    exact Or.inl (List.rel_of_pairwise_cons hlater hback)

/-- What stands first in a list without links back waits for nothing. -/
lemma Forward.free {x : BlockId} {rest : List BlockId} (h : Forward links (x :: rest))
    (hp : (x :: rest).Perm ids) (hsource : ∀ l ∈ links, ∃ id ∈ ids, id.slot = l.source)
    (hloop : ∀ l ∈ links, l.source ≠ l.target) : ∀ l ∈ links, l.target ≠ x.slot := by
  intro l hl htarget
  obtain ⟨p, hp', hslot⟩ := hsource l hl
  rcases List.mem_cons.mp (hp.mem_iff.mpr hp') with rfl | hrest
  · exact hloop l hl (hslot.symm.trans htarget.symm)
  · exact List.rel_of_pairwise_cons h hrest l hl ⟨hslot.symm, htarget⟩

/-- Draining lists creation numbers that are no later than those of any list without links back. -/
theorem drain_le (hsorted : ids.Pairwise fun x y => x.seq < y.seq)
    (hsource : ∀ l ∈ links, ∃ id ∈ ids, id.slot = l.source)
    (hloop : ∀ l ∈ links, l.source ≠ l.target) :
    ∀ others, others.Perm ids → Forward links others →
      (drain ids links).map (·.seq) ≤ others.map (·.seq) := by
  revert hsorted hsource hloop
  refine drain_induction (motive := fun ids links listed =>
    (ids.Pairwise fun x y => x.seq < y.seq) →
      (∀ l ∈ links, ∃ id ∈ ids, id.slot = l.source) → (∀ l ∈ links, l.source ≠ l.target) →
        ∀ others, others.Perm ids → Forward links others →
          listed.map (·.seq) ≤ others.map (·.seq)) ?_ ?_
  · intro ids links _ _ _ _ others _ _
    cases others with
    | nil => exact le_rfl
    | cons x rest => exact le_of_lt List.Lex.nil
  · intro ids links id hready ih hsorted hsource hloop others hp hforward
    have hmem := (of_ready?_eq_some hready).1
    cases others with
    | nil =>
      rw [List.nil_perm.mp hp] at hmem
      exact absurd hmem List.not_mem_nil
    | cons x rest =>
      have hx : x ∈ ids := hp.mem_iff.mp List.mem_cons_self
      have hfree := hforward.free hp hsource hloop
      rw [List.map_cons, List.map_cons]
      rcases seq_le_of_ready? hsorted hready hx hfree with hlt | rfl
      · exact le_of_lt (List.Lex.rel hlt)
      -- both lists begin with the same block: what remains of the other is again without links back
      · have hrest : rest.Perm (ids.erase id) := (hp.trans (List.perm_cons_erase hmem)).cons_inv
        have hforward' : Forward (withoutSource id links) rest :=
          (List.pairwise_cons.mp hforward).2.imp fun h l hl => h l (List.mem_of_mem_filter hl)
        have hloop' : ∀ l ∈ withoutSource id links, l.source ≠ l.target :=
          fun l hl => hloop l (List.mem_of_mem_filter hl)
        apply List.cons_le_cons
        exact ih (hsorted.sublist List.erase_sublist) (source_withoutSource hsource) hloop' rest
          hrest hforward'

end Drain

/-- A list of all live blocks, each of them once, that keeps to the order of every wire. -/
structure Respects (g : CircuitGraph α) (ids : List BlockId) : Prop where
  nodup : ids.Nodup
  mem_iff : ∀ id, id ∈ ids ↔ g.contains id = true
  wire : ∀ q, (g.wire q).Sublist ids

/-- In a list without repetitions no two elements stand in both orders. -/
lemma not_sublist_swap {β : Type} {xs : List β} (hn : xs.Nodup) {x y : β}
    (h : [x, y].Sublist xs) : ¬ [y, x].Sublist xs := by
  intro h'
  obtain ⟨front, back, rfl, hx, hy⟩ := List.cons_sublist_iff.mp h
  obtain ⟨front', back', heq, hy', hx'⟩ := List.cons_sublist_iff.mp h'
  rw [List.singleton_sublist] at hy hx'
  have hdisjoint := List.disjoint_of_nodup_append hn
  rcases List.append_eq_append_iff.mp heq with ⟨mid, rfl, rfl⟩ | ⟨mid, rfl, rfl⟩
  · exact hdisjoint hx (List.mem_append_right _ hx')
  · exact hdisjoint (List.mem_append_left _ hy') hy

/-- No link leads back in a list that keeps to the wires. -/
lemma Respects.forward {ids : List BlockId} (h : g.Respects ids) (hw : Wired g w) :
    Forward g.links ids := by
  rw [Forward, List.pairwise_iff_forall_sublist]
  rintro a b hab l hl ⟨hsource, htarget⟩
  have hlive : ∀ {x}, x ∈ [a, b] → ∃ c, g.block? x = some c := fun hx =>
    contains_iff.mp ((h.mem_iff _).mp (hab.subset hx))
  obtain ⟨A, ha⟩ := hlive (List.mem_cons_self)
  obtain ⟨B, hb⟩ := hlive (List.mem_cons_of_mem _ List.mem_cons_self)
  have hfollows := (hw.link_iff l).mp hl
  rw [hsource, htarget, ← hw.infix_wire_iff hb ha] at hfollows
  exact not_sublist_swap h.nodup hab (hfollows.sublist.trans (h.wire l.qubit))

lemma Sound.respects_order (hs : Sound g w) : g.Respects g.order := by
  have h := hs.schedule_order
  refine ⟨h.nodup, h.mem_iff, fun q => ?_⟩
  rw [← h.wire]
  exact List.filter_sublist

/-- No order that keeps to the wires has lower creation numbers than the execution order. -/
theorem Sound.order_le (hs : Sound g w) {ids : List BlockId} (h : g.Respects ids) :
    g.order.map (·.seq) ≤ ids.map (·.seq) := by
  have hsorted : g.ids.Pairwise fun x y => x.seq < y.seq := List.pairwise_map.mp hs.pairwise_seq
  have hp : ids.Perm g.ids := by
    refine (List.perm_ext_iff_of_nodup h.nodup (hs.pairwise_seq.nodup.of_map _)).mpr fun id => ?_
    rw [h.mem_iff, mem_ids, contains_iff]
  have hloop : ∀ l ∈ g.links, l.source ≠ l.target := by
    intro l hl heq
    exact (hs.ranked l hl).ne (congrArg _ heq)
  rw [order_eq_drain]
  exact drain_le hsorted hs.wired.source_mem_ids hloop ids hp (h.forward hs.wired)

section Blocks

lemma Sound.map_fst_blocks (hs : Sound g w) : g.blocks.map (·.1) = g.order := by
  rw [blocks, List.map_filterMap]
  refine (List.filterMap_congr fun id hid => ?_).trans List.filterMap_some
  obtain ⟨b, hb⟩ := contains_iff.mp ((hs.respects_order.mem_iff id).mp hid)
  rw [hb]
  rfl

lemma block?_of_mem_blocks {p : BlockId × Block α} (hp : p ∈ g.blocks) :
    g.block? p.1 = some p.2 := by
  obtain ⟨id, -, hid⟩ := List.mem_filterMap.mp hp
  obtain ⟨b, hb, rfl⟩ := Option.map_eq_some_iff.mp hid
  exact hb

lemma Sound.map_seq_blocks (hs : Sound g w) :
    g.blocks.map (·.2.seq) = g.order.map (·.seq) := by
  rw [← hs.map_fst_blocks, List.map_map]
  refine List.map_congr_left fun p hp => ?_
  exact (block?_eq_some.mp (block?_of_mem_blocks hp)).2

end Blocks

/-- The list of blocks holds every live block once, after all blocks before it on its wires, and its
creation numbers are the least of all such lists. -/
structure ListsLeast (g : CircuitGraph α) : Prop where
  held : ∀ p ∈ g.blocks, g.block? p.1 = some p.2
  respects : g.Respects (g.blocks.map (·.1))
  least : ∀ ids, g.Respects ids → g.blocks.map (·.2.seq) ≤ ids.map (·.seq)

/-- On every graph that calls lead to, the blocks are listed in the least order that keeps to the
wires. -/
theorem listsLeast_of_reachable {n : Nat} (h : CircuitGraph.empty n = .ok g)
    (calls : List (Call α)) : ListsLeast (g.run calls) := by
  obtain ⟨w, hs⟩ := (Sound.empty h).run calls
  constructor
  case held => exact fun p hp => block?_of_mem_blocks hp
  case respects =>
    rw [hs.map_fst_blocks]
    exact hs.respects_order
  case least =>
    intro ids hids
    rw [hs.map_seq_blocks]
    exact hs.order_le hids

section Sample

lemma wellFormed_single : (clearedOn [0]).WellFormed :=
  wellFormed_clearedOn (by decide) (by decide)

lemma wellFormed_apart : (clearedOn [2]).WellFormed :=
  wellFormed_clearedOn (by decide) (by decide)

/-- Two gates on a qubit and one that follows them, a merge of the first two, and a gate apart. -/
def lateMerge : List (Call Nat) :=
  [.add (clearedOn [0]) wellFormed_single, .add (clearedOn [0]) wellFormed_single,
    .add (clearedOn [0, 1]) wellFormed_left,
    .replace ⟨0, 0⟩ ⟨1, 1⟩ (clearedOn [0]) wellFormed_single,
    .add (clearedOn [2]) wellFormed_apart]

/-- The graph in which a younger block precedes an older one. -/
def youngFirst : CircuitGraph Nat :=
  ⟨#[some ⟨clearedOn [2], 4, 4, [3]⟩, some ⟨clearedOn [0], 3, 0, [0, 1]⟩,
    some ⟨clearedOn [0, 1], 2, 2, [2]⟩], [], [⟨1, 2, 0⟩], #[some 1, some 2, some 0],
    #[some 2, some 2, some 0], 5, 4⟩

lemma run_lateMerge : threeWires.run lateMerge = youngFirst := by
  have hadj : (threeWires.run (lateMerge.take 3)).adjacency ⟨0, 0⟩ ⟨1, 1⟩ =
    some (⟨0, 0⟩, ⟨1, 1⟩) := rfl
  have hmerge := perform_of_adjacency hadj rfl rfl rfl ⟨rfl, rfl⟩ wellFormed_single (by decide)
  change ((threeWires.run (lateMerge.take 3)).perform (.replace _ _ _ wellFormed_single)).perform
    (.add _ wellFormed_apart) = _
  rw [hmerge]
  rfl

/-- The block apart may also come first. -/
lemma respects_youngFirst : youngFirst.Respects [⟨0, 4⟩, ⟨1, 3⟩, ⟨2, 2⟩] := by
  refine ⟨by decide, fun id => ?_, fun q => ?_⟩
  · obtain ⟨slot, seq⟩ := id
    rcases slot with _ | _ | _ | slot
    · simp [contains, block?, blockAt?, youngFirst, eq_comm]
    · simp [contains, block?, blockAt?, youngFirst, eq_comm]
    · simp [contains, block?, blockAt?, youngFirst, eq_comm]
    · simp [contains, block?, blockAt?, youngFirst]
  · rcases q with _ | _ | _ | q
    · exact .cons _ (.refl _)
    · exact .cons _ (.cons _ (.refl _))
    · exact .cons_cons _ (List.nil_sublist _)
    · exact List.nil_sublist _

/-- The block of the merge precedes an older one on its wire, and the youngest block, which waits
for nothing, comes last. -/
theorem listsLeast_lateMerge : CircuitGraph.empty 3 = .ok threeWires ∧
    (threeWires.run lateMerge).Respects [⟨0, 4⟩, ⟨1, 3⟩, ⟨2, 2⟩] ∧
    (threeWires.run lateMerge).blocks.map (·.2.seq) = [3, 2, 4] ∧
    (threeWires.run lateMerge).blocks.map (·.2.seq) ≤ [4, 3, 2] := by
  have hempty : CircuitGraph.empty 3 = .ok threeWires := rfl
  have hrespects : (threeWires.run lateMerge).Respects [⟨0, 4⟩, ⟨1, 3⟩, ⟨2, 2⟩] := by
    rw [run_lateMerge]
    exact respects_youngFirst
  have hleast := (listsLeast_of_reachable hempty lateMerge).least _ hrespects
  refine ⟨hempty, hrespects, ?_, hleast⟩
  rw [run_lateMerge]
  rfl

end Sample

end GateFusion.CircuitGraph
