import GateFusion.Proofs.Circuit.Counting

/-!
# The execution order

While ranks increase along links, some remaining block always waits for nothing. So the order lists
every block once, and no link leads from a block to one listed before it. Whatever the ranks are,
the order is complete exactly if no block depends on itself.
-/

namespace GateFusion.CircuitGraph
open Relation
variable {α : Type} {g : CircuitGraph α} {w : Qubit → List Nat}

lemma Wired.source_mem_ids (hw : Wired g w) : ∀ l ∈ g.links, ∃ id ∈ g.ids, id.slot = l.source := by
  intro l hl
  obtain ⟨b, hb⟩ := mem_liveSlots.mp (hw.live_of_precedes ⟨l, hl, rfl, rfl⟩).1
  exact ⟨⟨l.source, b.seq⟩, mem_ids.mpr ⟨b, block?_of_blockAt? hb⟩, rfl⟩

/-- The order lists each live block once. -/
theorem Sound.order_perm (hs : Sound g w) : g.order.Perm g.ids := by
  rw [order_eq_drain]
  exact drain_perm hs.ranked hs.wired.source_mem_ids

/-- A block is listed after all that lead to it. -/
theorem order_pairwise : g.order.Pairwise fun a b => ¬ g.Precedes b.slot a.slot := by
  have hforward : Forward g.links g.order := by
    rw [order_eq_drain]
    exact drain_forward (map_slot_ids.nodup_iff.mpr nodup_liveSlots)
  refine List.Pairwise.imp ?_ hforward
  rintro a b h ⟨l, hl, hlink⟩
  exact h l hl hlink

section Cycle
variable (hsource : ∀ l ∈ g.links, ∃ id ∈ g.ids, id.slot = l.source)
include hsource

lemma mem_liveSlots_of_precedes {a b : Nat} (h : g.Precedes a b) : a ∈ g.liveSlots := by
  obtain ⟨l, hl, rfl, -⟩ := h
  obtain ⟨id, hid, hslot⟩ := hsource l hl
  rw [← hslot]
  exact map_slot_ids.mem_iff.mp (List.mem_map_of_mem hid)

open Classical in
/-- Without cycles the number of blocks that a block depends on increases along links. -/
lemma exists_increasing (hacyclic : ∀ s, ¬ TransGen g.Precedes s s) :
    ∃ rank : Nat → Nat, ∀ a b, g.Precedes a b → rank a < rank b := by
  refine ⟨fun s => (g.liveSlots.filter fun x => TransGen g.Precedes x s).length, fun a b hab => ?_⟩
  have hnodup : (a :: g.liveSlots.filter fun x => TransGen g.Precedes x a).Nodup := by
    refine List.nodup_cons.mpr ⟨fun h => ?_, nodup_liveSlots.filter _⟩
    exact hacyclic a (of_decide_eq_true (List.mem_filter.mp h).2)
  have hsub : (a :: g.liveSlots.filter fun x => TransGen g.Precedes x a) ⊆
      g.liveSlots.filter fun x => TransGen g.Precedes x b := by
    rintro x (_ | ⟨_, hx⟩)
    · exact List.mem_filter.mpr ⟨mem_liveSlots_of_precedes hsource hab,
        decide_eq_true (.single hab)⟩
    · obtain ⟨hlive, hpath⟩ := List.mem_filter.mp hx
      exact List.mem_filter.mpr ⟨hlive, decide_eq_true ((of_decide_eq_true hpath).tail hab)⟩
  exact (hnodup.subperm hsub).length_le

/-- The order lists as many blocks as there are exactly if the links close no cycle. -/
theorem order_length_iff :
    g.order.length = g.numBlocks ↔ ∀ s, ¬ TransGen g.Precedes s s := by
  rw [order_eq_drain, ← length_ids]
  constructor
  · intro hlength s hcycle
    have hperm := drain_subperm.perm_of_length_le hlength.ge
    -- each block of a cycle waits for the one before it
    have hwaits : ∀ s, TransGen g.Precedes s s →
        ∃ l ∈ g.links, TransGen g.Precedes l.source l.source ∧ l.target = s := by
      intro s hs
      obtain ⟨p, hsp, l, hl, rfl, rfl⟩ := TransGen.tail'_iff.mp hs
      exact ⟨l, hl, TransGen.head' ⟨l, hl, rfl, rfl⟩ hsp, rfl⟩
    obtain ⟨b, hsb, -⟩ := TransGen.head'_iff.mp hcycle
    have hlive := mem_liveSlots_of_precedes hsource hsb
    obtain ⟨id, hid, rfl⟩ := List.mem_map.mp (map_slot_ids.mem_iff.mpr hlive)
    exact drain_avoids hwaits id (hperm.mem_iff.mpr hid) hcycle
  · intro hacyclic
    obtain ⟨rank, hrank⟩ := exists_increasing hsource hacyclic
    exact (drain_perm (fun l hl => hrank _ _ ⟨l, hl, rfl, rfl⟩) hsource).length_eq

end Cycle

end GateFusion.CircuitGraph
