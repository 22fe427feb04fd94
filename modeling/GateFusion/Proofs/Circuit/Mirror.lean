import GateFusion.Proofs.Circuit.Fusable
import GateFusion.Proofs.Circuit.Listing
import GateFusion.Proofs.Circuit.Reachable
import GateFusion.Proofs.Related

/-!
# Graphs of the same circuit

Two graphs may hold the same blocks on the same wires and still differ in the slots of the blocks,
in their ranks and in the order of the links. None of this shows: whatever is asked of the two
graphs about corresponding blocks, the answers correspond.
-/

namespace GateFusion
open Relator Relation

lemma Follows.forall₂ {F : Nat → Nat → Prop} {v w : List Nat} (h : List.Forall₂ F v w) {a b : Nat}
    (hf : Follows v a b) : ∃ a' b', F a a' ∧ F b b' ∧ Follows w a' b' := by
  induction h with
  | nil => exact absurd hf (follows_nil a b)
  | @cons x y v w hxy hrest ih =>
    rcases (follows_cons x v a b).mp hf with ⟨rfl, hb⟩ | hf
    · cases hrest with
      | nil => simp at hb
      | @cons x' y' v w hxy' _ =>
        obtain rfl := Option.some.inj hb
        exact ⟨y, y', hxy, hxy', (follows_cons ..).mpr (Or.inl ⟨rfl, rfl⟩)⟩
    · obtain ⟨a', b', ha, hb, hf'⟩ := ih hf
      exact ⟨a', b', ha, hb, (follows_cons ..).mpr (Or.inr hf')⟩

/-- What a block holds, but for its name and its rank. -/
def Block.content {α : Type} (b : Block α) : Gate α × List Nat := (b.gate, b.origins)

namespace CircuitGraph
variable {α : Type} {T : BlockId → BlockId → Prop} {g g' : CircuitGraph α}
  {w w' : Qubit → List Nat}

/-- Slots whose blocks have corresponding names. -/
def Facing (T : BlockId → BlockId → Prop) (g g' : CircuitGraph α) (s s' : Nat) : Prop :=
  ∃ x x', T x x' ∧ g.idAt? s = some x ∧ g'.idAt? s' = some x'

/-- Two graphs mirror each other along a correspondence of names if corresponding names stand for
equal blocks or for none, and corresponding blocks stand on every wire in the same order. -/
structure Mirrored (T : BlockId → BlockId → Prop) (g : CircuitGraph α) (w : Qubit → List Nat)
    (g' : CircuitGraph α) (w' : Qubit → List Nat) : Prop where
  sound : Sound g w
  sound' : Sound g' w'
  unique : BiUnique T
  nextSeq : g.nextSeq = g'.nextSeq
  seq : ∀ {x x'}, T x x' → x.seq = x'.seq ∧ x.seq < g.nextSeq
  content : ∀ {x x'}, T x x' → (g.block? x).map Block.content = (g'.block? x').map Block.content
  wire : ∀ q, List.Forall₂ (Facing T g g') (w q) (w' q)

lemma idAt?_slot {x : BlockId} : g.idAt? x.slot = some x ↔ ∃ b, g.block? x = some b := by
  constructor
  · intro h
    obtain ⟨b, hb, hx⟩ := idAt?_eq_some.mp h
    exact ⟨b, block?_eq_some.mpr ⟨hb, (congrArg BlockId.seq hx).symm⟩⟩
  · rintro ⟨b, hb⟩
    exact idAt?_of_block? hb

lemma Facing.unique (hT : BiUnique T) : BiUnique (Facing T g g') := by
  constructor
  · rintro a b c ⟨x, x', hx, ha, hc⟩ ⟨y, y', hy, hb, hc'⟩
    obtain rfl := Option.some.inj (hc.symm.trans hc')
    obtain rfl := hT.1 hx hy
    rw [← slot_of_idAt? ha, ← slot_of_idAt? hb]
  · rintro a b c ⟨x, x', hx, ha, hb⟩ ⟨y, y', hy, ha', hc⟩
    obtain rfl := Option.some.inj (ha.symm.trans ha')
    obtain rfl := hT.2 hx hy
    rw [← slot_of_idAt? hb, ← slot_of_idAt? hc]

lemma Facing.symm {s s' : Nat} (h : Facing T g g' s s') : Facing (flip T) g' g s' s := by
  obtain ⟨x, x', hx, hs, hs'⟩ := h
  exact ⟨x', x, hx, hs', hs⟩

lemma Sound.pairwise_seq (hs : Sound g w) : (g.ids.map (·.seq)).Pairwise (· < ·) := by
  have hsorted : g.ids.Pairwise fun a b => a.seq ≤ b.seq := byAge_ids.imp fun h => by
    rw [older_iff] at h
    omega
  have hnodup : (g.ids.map (·.seq)).Nodup := by
    refine List.Nodup.map_on (fun x hx y hy heq => ?_) ?_
    · obtain ⟨b, hb⟩ := mem_ids.mp hx
      obtain ⟨c, hc⟩ := mem_ids.mp hy
      exact hs.eq_of_seq hb hc heq
    · exact List.Nodup.of_map (·.slot) (map_slot_ids.nodup_iff.mpr nodup_liveSlots)
  exact ((List.pairwise_map.mpr hsorted).and hnodup).imp fun hab => lt_of_le_of_ne hab.1 hab.2

/-- Two stages of draining: the remaining names correspond, and the remaining links join
corresponding slots. -/
structure InStep (T : BlockId → BlockId → Prop) (F : Nat → Nat → Prop) (ids : List BlockId)
    (links : List Link) (ids' : List BlockId) (links' : List Link) : Prop where
  ids : List.Forall₂ (fun x x' => T x x' ∧ F x.slot x'.slot) ids ids'
  link : ∀ l ∈ links, ∃ l' ∈ links', F l.source l'.source ∧ F l.target l'.target
  link' : ∀ l' ∈ links', ∃ l ∈ links, F l.source l'.source ∧ F l.target l'.target

namespace InStep
variable {F : Nat → Nat → Prop} {ids ids' : List BlockId} {links links' : List Link}
  (h : InStep T F ids links ids' links') (hT : BiUnique T) (hF : BiUnique F)
include h hF

lemma ready? : Option.Rel (fun x x' => T x x' ∧ F x.slot x'.slot)
    (CircuitGraph.ready? ids links) (CircuitGraph.ready? ids' links') := by
  refine forall₂_find? h.ids fun x x' hx => ?_
  simp only [List.all_eq_true, decide_eq_true_eq]
  constructor
  · intro hfree l' hl' htarget
    obtain ⟨l, hl, -, ht⟩ := h.link' l' hl'
    exact hfree l hl (hF.1 (htarget ▸ ht) hx.2)
  · intro hfree l hl htarget
    obtain ⟨l', hl', -, ht⟩ := h.link l hl
    exact hfree l' hl' (hF.2 (htarget ▸ ht) hx.2)

include hT

lemma take {x x' : BlockId} (hx : T x x') (hslot : F x.slot x'.slot) :
    InStep T F (ids.erase x) (withoutSource x links) (ids'.erase x')
      (withoutSource x' links') := by
  have hboth : BiUnique fun x x' : BlockId => T x x' ∧ F x.slot x'.slot :=
    ⟨fun a b c ha hb => hT.1 ha.1 hb.1, fun a b c hb hc => hT.2 hb.1 hc.1⟩
  have hsource : ∀ {l l' : Link}, F l.source l'.source →
      (l.source ≠ x.slot ↔ l'.source ≠ x'.slot) := fun hs => not_congr (rel_eq hF hs hslot)
  refine ⟨forall₂_erase hboth h.ids ⟨hx, hslot⟩, fun l hl => ?_, fun l' hl' => ?_⟩
  · obtain ⟨hl, hne⟩ := List.mem_filter.mp hl
    obtain ⟨l', hl', hs, ht⟩ := h.link l hl
    have hne' := (hsource hs).mp (of_decide_eq_true hne)
    exact ⟨l', List.mem_filter.mpr ⟨hl', decide_eq_true hne'⟩, hs, ht⟩
  · obtain ⟨hl', hne⟩ := List.mem_filter.mp hl'
    obtain ⟨l, hl, hs, ht⟩ := h.link' l' hl'
    have hne' := (hsource hs).mpr (of_decide_eq_true hne)
    exact ⟨l, List.mem_filter.mpr ⟨hl, decide_eq_true hne'⟩, hs, ht⟩

/-- Draining goes through corresponding blocks in step. -/
lemma drain : List.Forall₂ T (CircuitGraph.drain ids links) (CircuitGraph.drain ids' links') := by
  revert ids' links'
  refine drain_induction (motive := fun ids links listed => ∀ {ids' links'},
    InStep T F ids links ids' links' →
      List.Forall₂ T listed (CircuitGraph.drain ids' links')) ?_ ?_
  · intro ids links hnone ids' links' h
    rw [drain_of_none (eq_none_of_rel (h.ready? hF) hnone)]
    exact .nil
  · intro ids links x hsome ih ids' links' h
    obtain ⟨x', hsome', hx, hslot⟩ := exists_of_rel (h.ready? hF) hsome
    rw [drain_of_some hsome']
    exact .cons hx (ih (h.take hT hF hx hslot))

end InStep

namespace Mirrored
variable (h : Mirrored T g w g' w') {x x' y y' : BlockId} {b : Block α}
include h

lemma symm : Mirrored (flip T) g' w' g w := by
  refine ⟨h.sound', h.sound, ⟨fun a b c ha hb => h.unique.2 ha hb,
    fun a b c hb hc => h.unique.1 hb hc⟩, h.nextSeq.symm, fun hx => ?_, fun hx => ?_, fun q => ?_⟩
  · obtain ⟨hseq, hlt⟩ := h.seq hx
    exact ⟨hseq.symm, by rwa [← h.nextSeq, ← hseq]⟩
  · exact (h.content hx).symm
  · exact List.Forall₂.flip ((h.wire q).imp fun s s' hs => hs.symm)

lemma unique_facing : BiUnique (Facing T g g') := Facing.unique h.unique

lemma twin (hx : T x x') (hb : g.block? x = some b) :
    ∃ b', g'.block? x' = some b' ∧ b'.gate = b.gate ∧ b'.origins = b.origins := by
  have hcontent := h.content hx
  rw [hb, Option.map_some, eq_comm, Option.map_eq_some_iff] at hcontent
  obtain ⟨b', hb', heq⟩ := hcontent
  obtain ⟨hgate, horigins⟩ := Prod.mk.inj heq
  exact ⟨b', hb', hgate, horigins⟩

lemma facing (hx : T x x') (hb : g.block? x = some b) : Facing T g g' x.slot x'.slot := by
  obtain ⟨b', hb', -⟩ := h.twin hx hb
  exact ⟨x, x', hx, idAt?_of_block? hb, idAt?_of_block? hb'⟩

lemma exists_twin (hb : g.block? x = some b) : ∃ x', T x x' := by
  have hat := (block?_eq_some.mp hb).1
  obtain ⟨q, hq⟩ := List.exists_mem_of_ne_nil _ (h.sound.stored.placed _ _ hat).nonempty
  have hmem := h.sound.wired.mem_of_acts hat hq
  obtain ⟨s', -, y, y', hy, hys, -⟩ := exists_of_forall₂ (h.wire q) hmem
  obtain rfl := Option.some.inj (hys.symm.trans (idAt?_of_block? hb))
  exact ⟨y', hy⟩

lemma follows (hx : Facing T g g' x.slot x'.slot) (hy : Facing T g g' y.slot y'.slot) {q : Qubit}
    (hf : Follows (w q) x.slot y.slot) : Follows (w' q) x'.slot y'.slot := by
  obtain ⟨a, c, ha, hc, hf'⟩ := hf.forall₂ (h.wire q)
  obtain rfl := h.unique_facing.2 ha hx
  obtain rfl := h.unique_facing.2 hc hy
  exact hf'

lemma path {s t s' : Nat} (hp : TransGen g.Precedes s t) (hs : Facing T g g' s s') :
    ∃ t', Facing T g g' t t' ∧ TransGen g'.Precedes s' t' := by
  have hstep : ∀ {a b a'}, g.Precedes a b → Facing T g g' a a' →
      ∃ b', Facing T g g' b b' ∧ g'.Precedes a' b' := by
    intro a b a' hab ha
    obtain ⟨q, hf⟩ := h.sound.wired.precedes_iff.mp hab
    obtain ⟨c, b', hc, hb, hf'⟩ := hf.forall₂ (h.wire q)
    obtain rfl := h.unique_facing.2 hc ha
    exact ⟨b', hb, h.sound'.wired.precedes_iff.mpr ⟨q, hf'⟩⟩
  induction hp with
  | single hst =>
    obtain ⟨t', ht, hp'⟩ := hstep hst hs
    exact ⟨t', ht, .single hp'⟩
  | tail _ hbt ih =>
    obtain ⟨b', hb, hp'⟩ := ih
    obtain ⟨t', ht, hbt'⟩ := hstep hbt hb
    exact ⟨t', ht, hp'.tail hbt'⟩

lemma mergeable {first second : Block α} (hm : Mergeable g w x y first second) (hx : T x x')
    (hy : T y y') : ∃ first' second', Mergeable g' w' x' y' first' second' ∧
      first'.gate = first.gate ∧ second'.gate = second.gate := by
  obtain ⟨first', hfirst, hgate, -⟩ := h.twin hx hm.earlier
  obtain ⟨second', hsecond, hgate', -⟩ := h.twin hy hm.later
  have hfx := h.facing hx hm.earlier
  have hfy := h.facing hy hm.later
  refine ⟨first', second', ⟨hfirst, hsecond, ?_, fun q hq hq' => ?_, ?_⟩, hgate, hgate'⟩
  · rw [hgate, hgate']
    exact hm.shared
  · rw [hgate] at hq
    rw [hgate'] at hq'
    exact h.follows hfx hfy (hm.follows q hq hq')
  · rintro ⟨z', hxz, hzy⟩
    obtain ⟨z, hz, hxz⟩ := h.symm.path hxz hfx.symm
    obtain ⟨v, hv, hzy⟩ := h.symm.path hzy hz
    obtain rfl := h.symm.unique_facing.2 hv hfy.symm
    exact hm.direct ⟨z, hxz, hzy⟩

section Pair
variable {p : BlockId × BlockId} {k : Nat} (hx : T x x') (hy : T y y')
include hx hy

lemma adjacency_some (ha : g.adjacency x y = some p) :
    ∃ p', g'.adjacency x' y' = some p' ∧ T p.1 p'.1 ∧ T p.2 p'.2 := by
  obtain ⟨e, l⟩ := p
  obtain ⟨A, B, hA, hB⟩ := live_of_adjacency ha
  obtain ⟨A', hA', hgate, -⟩ := h.twin hx hA
  obtain ⟨B', hB', hgate', -⟩ := h.twin hy hB
  have hfx := h.facing hx hA
  have hfy := h.facing hy hB
  obtain ⟨hside, hshared, hfollows⟩ := (h.sound.wired.adjacency_eq_some hA hB).mp ha
  rw [← hgate, ← hgate'] at hshared
  simp only [← hgate, ← hgate'] at hfollows
  rcases hside with ⟨rfl, rfl⟩ | ⟨rfl, rfl⟩
  · exact ⟨(x', y'), (h.sound'.wired.adjacency_eq_some hA' hB').mpr
      ⟨Or.inl ⟨rfl, rfl⟩, hshared, fun q hq hq' => h.follows hfx hfy (hfollows q hq hq')⟩, hx, hy⟩
  · exact ⟨(y', x'), (h.sound'.wired.adjacency_eq_some hA' hB').mpr
      ⟨Or.inr ⟨rfl, rfl⟩, hshared, fun q hq hq' => h.follows hfy hfx (hfollows q hq hq')⟩, hy, hx⟩

lemma fusable_some (hf : g.fusable x y k = some p) :
    ∃ p', g'.fusable x' y' k = some p' ∧ T p.1 p'.1 ∧ T p.2 p'.2 := by
  obtain ⟨e, l⟩ := p
  obtain ⟨hside, first, second, hm, hle⟩ := h.sound.fusable_eq_some.mp hf
  rcases hside with ⟨rfl, rfl⟩ | ⟨rfl, rfl⟩
  · obtain ⟨first', second', hm', hgate, hgate'⟩ := h.mergeable hm hx hy
    exact ⟨(x', y'), h.sound'.fusable_eq_some.mpr
      ⟨Or.inl ⟨rfl, rfl⟩, first', second', hm', by rwa [hgate, hgate']⟩, hx, hy⟩
  · obtain ⟨first', second', hm', hgate, hgate'⟩ := h.mergeable hm hy hx
    exact ⟨(y', x'), h.sound'.fusable_eq_some.mpr
      ⟨Or.inr ⟨rfl, rfl⟩, first', second', hm', by rwa [hgate, hgate']⟩, hy, hx⟩

theorem adjacency : Option.Rel (fun p p' => T p.1 p'.1 ∧ T p.2 p'.2) (g.adjacency x y)
    (g'.adjacency x' y') :=
  rel_of_some (fun _ ha => h.adjacency_some hx hy ha) fun _ ha => h.symm.adjacency_some hx hy ha

theorem fusable : Option.Rel (fun p p' => T p.1 p'.1 ∧ T p.2 p'.2) (g.fusable x y k)
    (g'.fusable x' y' k) :=
  rel_of_some (fun _ hf => h.fusable_some hx hy hf) fun _ hf => h.symm.fusable_some hx hy hf

end Pair

section Neighbors
variable (hx : T x x') (hb : g.block? x = some b) {q : Qubit}
include hx hb

lemma nextOn?_some (hn : g.nextOn? x q = some y) : ∃ y', g'.nextOn? x' q = some y' ∧ T y y' := by
  obtain ⟨b', hb', -⟩ := h.twin hx hb
  obtain ⟨hf, hid⟩ := (h.sound.wired.nextOn?_eq_some hb).mp hn
  obtain ⟨c, hc⟩ := idAt?_slot.mp hid
  obtain ⟨y', hy⟩ := h.exists_twin hc
  obtain ⟨c', hc', -⟩ := h.twin hy hc
  have hf' := h.follows (h.facing hx hb) (h.facing hy hc) hf
  exact ⟨y', (h.sound'.wired.nextOn?_eq_some hb').mpr ⟨hf', idAt?_of_block? hc'⟩, hy⟩

lemma prevOn?_some (hn : g.prevOn? x q = some y) : ∃ y', g'.prevOn? x' q = some y' ∧ T y y' := by
  obtain ⟨b', hb', -⟩ := h.twin hx hb
  obtain ⟨hf, hid⟩ := (h.sound.wired.prevOn?_eq_some hb).mp hn
  obtain ⟨c, hc⟩ := idAt?_slot.mp hid
  obtain ⟨y', hy⟩ := h.exists_twin hc
  obtain ⟨c', hc', -⟩ := h.twin hy hc
  have hf' := h.follows (h.facing hy hc) (h.facing hx hb) hf
  exact ⟨y', (h.sound'.wired.prevOn?_eq_some hb').mpr ⟨hf', idAt?_of_block? hc'⟩, hy⟩

lemma around (q : Qubit) :
    List.Forall₂ T ((g.prevOn? x q).toList ++ (g.nextOn? x q).toList)
      ((g'.prevOn? x' q).toList ++ (g'.nextOn? x' q).toList) := by
  obtain ⟨b', hb', -⟩ := h.twin hx hb
  apply List.rel_append
  · exact forall₂_toList (rel_of_some (fun _ hn => h.prevOn?_some hx hb hn)
      fun _ hn => h.symm.prevOn?_some hx hb' hn)
  · exact forall₂_toList (rel_of_some (fun _ hn => h.nextOn?_some hx hb hn)
      fun _ hn => h.symm.nextOn?_some hx hb' hn)

end Neighbors

/-- Corresponding blocks have corresponding neighbours, in one order. -/
theorem neighbors (hx : T x x') : List.Forall₂ T (g.neighbors x) (g'.neighbors x') := by
  unfold CircuitGraph.neighbors
  cases hb : g.block? x with
  | none =>
    have hnone := h.content hx
    rw [hb, Option.map_none, eq_comm, Option.map_eq_none_iff] at hnone
    rw [hnone]
    exact .nil
  | some b =>
    obtain ⟨b', hb', hgate, -⟩ := h.twin hx hb
    rw [hb']
    dsimp only
    rw [hgate]
    refine List.rel_foldl (P := List.Forall₂ T) (R := T) (fun acc acc' hacc n n' hn => ?_) .nil ?_
    · have hmem : n ∈ acc ↔ n' ∈ acc' := List.rel_mem h.unique hn hacc
      by_cases hin : n ∈ acc
      · rw [if_pos (by simpa using hin), if_pos (by simpa using hmem.mp hin)]
        exact hacc
      · rw [if_neg (by simpa using hin), if_neg (by simpa using mt hmem.mpr hin)]
        exact List.rel_append hacc (.cons hn .nil)
    · refine List.rel_flatMap (R := Eq) (P := T) ?_ ?_
      · exact List.forall₂_same.mpr fun _ _ => rfl
      · rintro q _ rfl
        exact h.around hx hb q

section Order

lemma mem_seqs {n : Nat} (hn : n ∈ g.ids.map (·.seq)) : n ∈ g'.ids.map (·.seq) := by
  obtain ⟨x, hx, rfl⟩ := List.mem_map.mp hn
  obtain ⟨b, hb⟩ := mem_ids.mp hx
  obtain ⟨x', hx'⟩ := h.exists_twin hb
  obtain ⟨b', hb', -⟩ := h.twin hx' hb
  rw [(h.seq hx').1]
  exact List.mem_map_of_mem (mem_ids.mpr ⟨b', hb'⟩)

lemma ids : List.Forall₂ T g.ids g'.ids := by
  have hpairwise := h.sound.pairwise_seq
  have hpairwise' := h.sound'.pairwise_seq
  have hperm : (g.ids.map (·.seq)).Perm (g'.ids.map (·.seq)) :=
    (List.perm_ext_iff_of_nodup hpairwise.nodup hpairwise'.nodup).mpr
      fun n => ⟨h.mem_seqs, h.symm.mem_seqs⟩
  refine forall₂_of_map_eq (hperm.eq_of_pairwise' hpairwise hpairwise') fun x hx y' hy heq => ?_
  obtain ⟨b, hb⟩ := mem_ids.mp hx
  obtain ⟨c', hc'⟩ := mem_ids.mp hy
  obtain ⟨x', hx'⟩ := h.exists_twin hb
  obtain ⟨b', hb', -⟩ := h.twin hx' hb
  obtain rfl := h.sound'.eq_of_seq hb' hc' ((h.seq hx').1.symm.trans heq)
  exact hx'

lemma numBlocks : g.numBlocks = g'.numBlocks := by
  have hlen : ∀ k : CircuitGraph α, k.ids.length = k.numBlocks := fun k => by
    rw [CircuitGraph.numBlocks, ← map_slot_ids.length_eq, List.length_map]
  rw [← hlen, ← hlen, h.ids.length_eq]

lemma links {l : Link} (hl : l ∈ g.links) :
    ∃ l' ∈ g'.links, Facing T g g' l.source l'.source ∧ Facing T g g' l.target l'.target := by
  obtain ⟨a, b, ha, hb, hf⟩ := ((h.sound.wired.link_iff l).mp hl).forall₂ (h.wire l.qubit)
  exact ⟨⟨a, b, l.qubit⟩, (h.sound'.wired.link_iff _).mpr hf, ha, hb⟩

/-- Both graphs execute corresponding blocks in the same order. -/
theorem order : List.Forall₂ T g.order g'.order := by
  have hstart : InStep T (Facing T g g') g.ids g.links g'.ids g'.links := by
    constructor
    · have hids := (List.forall₂_and_left g.ids g'.ids).mpr ⟨fun x hx => mem_ids.mp hx, h.ids⟩
      exact hids.imp fun x x' hx => ⟨hx.2, h.facing hx.2 hx.1.choose_spec⟩
    · exact fun l hl => h.links hl
    · intro l' hl'
      obtain ⟨l, hl, hs, ht⟩ := h.symm.links hl'
      exact ⟨l, hl, hs.symm, ht.symm⟩
  rw [order_eq_drain, order_eq_drain]
  exact hstart.drain h.unique h.unique_facing

/-- Both graphs execute the same gates. -/
theorem gates : g.gates = g'.gates := by
  have hgate : ∀ x x', T x x' →
      (g.block? x).map (fun b => b.gate) = (g'.block? x').map fun b => b.gate := by
    intro x x' hx
    have hfst := congrArg (Option.map Prod.fst) (h.content hx)
    rwa [Option.map_map, Option.map_map] at hfst
  have hall := congrArg (List.filterMap id) (map_eq_of_forall₂ h.order hgate)
  rw [List.filterMap_map, List.filterMap_map] at hall
  rw [gates_eq_gatesOf, gates_eq_gatesOf]
  exact hall

end Order

end Mirrored
end CircuitGraph
end GateFusion
