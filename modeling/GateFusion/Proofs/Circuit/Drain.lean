import GateFusion.Proofs.Circuit.AddBlock
import Mathlib.Data.List.MinMax

/-!
# Draining a graph

The execution order without counters: of the blocks that are left, take the oldest that no link
leads to, and drop the links from it. While ranks increase along links, some remaining block always
waits for nothing. So every block is taken once, and no link leads from a block to one taken before
it. Blocks that wait for each other are never taken.
-/

namespace GateFusion.CircuitGraph
variable {α : Type} {g : CircuitGraph α}

/-- The names of all blocks, oldest first. -/
def ids (g : CircuitGraph α) : List BlockId :=
  (g.liveSlots.filterMap g.idAt?).mergeSort fun a b => !older b a

/-- Take the first block without an incoming link, drop its links, and go on. -/
def drain (ids : List BlockId) (links : List Link) : List BlockId :=
  match _h : ids.find? fun id => links.all fun l => l.target ≠ id.slot with
  | none => []
  | some id => id :: drain (ids.erase id) (links.filter fun l => l.source ≠ id.slot)
termination_by ids.length
decreasing_by
  have hm := List.mem_of_find?_eq_some _h
  have := List.length_erase_of_mem hm
  have := List.length_pos_of_mem hm
  omega

/-- No link leads from a listed block to one listed before it. -/
def Forward (links : List Link) (ids : List BlockId) : Prop :=
  ids.Pairwise fun a b => ∀ l ∈ links, ¬ (l.source = b.slot ∧ l.target = a.slot)

section Drain
variable {ids : List BlockId} {links : List Link}

/-- The first of the remaining blocks that no link leads to. -/
def ready? (ids : List BlockId) (links : List Link) : Option BlockId :=
  ids.find? fun id => links.all fun l => l.target ≠ id.slot

/-- The links left when a block has been listed. -/
def withoutSource (id : BlockId) (links : List Link) : List Link :=
  links.filter fun l => l.source ≠ id.slot

lemma drain_of_none (h : ready? ids links = none) : drain ids links = [] := by
  rw [drain]
  split
  · rfl
  · rename_i id hid
    exact absurd (hid.symm.trans h) (by simp)

lemma drain_of_some {id : BlockId} (h : ready? ids links = some id) :
    drain ids links = id :: drain (ids.erase id) (withoutSource id links) := by
  rw [drain]
  split
  · rename_i hnone
    exact absurd (hnone.symm.trans h) (by simp)
  · rename_i id' hid
    obtain rfl : id' = id := Option.some.inj (hid.symm.trans h)
    rfl

lemma ready?_eq_none (h : ready? ids links = none) {id : BlockId} (hid : id ∈ ids) :
    ∃ l ∈ links, l.target = id.slot := by
  have := List.find?_eq_none.mp h id hid
  simpa using this

lemma of_ready?_eq_some {id : BlockId} (h : ready? ids links = some id) :
    id ∈ ids ∧ ∀ l ∈ links, l.target ≠ id.slot := by
  refine ⟨List.mem_of_find?_eq_some h, ?_⟩
  have := List.find?_some h
  simpa using this

/-- Induction along the steps of draining. -/
lemma drain_induction {motive : List BlockId → List Link → List BlockId → Prop}
    (stop : ∀ ids links, ready? ids links = none → motive ids links [])
    (take : ∀ ids links id, ready? ids links = some id →
      motive (ids.erase id) (withoutSource id links)
        (drain (ids.erase id) (withoutSource id links)) →
      motive ids links (id :: drain (ids.erase id) (withoutSource id links))) :
    motive ids links (drain ids links) := by
  induction hk : ids.length generalizing ids links with
  | zero =>
    obtain rfl := List.length_eq_zero_iff.mp hk
    rw [drain_of_none rfl]
    exact stop _ _ rfl
  | succ k ih =>
    cases hready : ready? ids links with
    | none =>
      rw [drain_of_none hready]
      exact stop _ _ hready
    | some id =>
      rw [drain_of_some hready]
      refine take _ _ _ hready (ih ?_)
      rw [List.length_erase_of_mem (of_ready?_eq_some hready).1, hk, Nat.add_sub_cancel]

/-- The block of lowest rank has no link into it. -/
lemma exists_ready {rank : Nat → Nat} (hrank : ∀ l ∈ links, rank l.source < rank l.target)
    (hsource : ∀ l ∈ links, ∃ id ∈ ids, id.slot = l.source) (hne : ids ≠ []) :
    ∃ id ∈ ids, ∀ l ∈ links, l.target ≠ id.slot := by
  have hsome : (ids.argmin fun id => rank id.slot).isSome = true := by
    rw [Option.isSome_iff_ne_none, ne_eq, List.argmin_eq_none]
    exact hne
  obtain ⟨id, hmin⟩ := Option.isSome_iff_exists.mp hsome
  refine ⟨id, List.argmin_mem hmin, fun l hl ht => ?_⟩
  obtain ⟨p, hp, hps⟩ := hsource l hl
  have hle := List.le_of_mem_argmin hp hmin
  have hlt := hrank l hl
  rw [hps] at hle
  rw [ht] at hlt
  omega

/-- Once a block has been listed, the links that are left start from blocks that are left. -/
lemma source_withoutSource {id : BlockId} (hsource : ∀ l ∈ links, ∃ p ∈ ids, p.slot = l.source) :
    ∀ l ∈ withoutSource id links, ∃ p ∈ ids.erase id, p.slot = l.source := by
  intro l hl
  obtain ⟨hl, hne⟩ := List.mem_filter.mp hl
  obtain ⟨p, hp, hslot⟩ := hsource l hl
  refine ⟨p, (List.mem_erase_of_ne ?_).mpr hp, hslot⟩
  rintro rfl
  exact of_decide_eq_true hne hslot.symm

lemma drain_perm {rank : Nat → Nat} (hrank : ∀ l ∈ links, rank l.source < rank l.target)
    (hsource : ∀ l ∈ links, ∃ id ∈ ids, id.slot = l.source) :
    (drain ids links).Perm ids := by
  revert hrank hsource
  refine drain_induction (motive := fun ids links listed =>
    (∀ l ∈ links, rank l.source < rank l.target) →
      (∀ l ∈ links, ∃ id ∈ ids, id.slot = l.source) → listed.Perm ids) ?_ ?_
  · intro ids links hnone hrank hsource
    by_cases hne : ids = []
    · rw [hne]
    · obtain ⟨id, hid, hready⟩ := exists_ready hrank hsource hne
      obtain ⟨l, hl, ht⟩ := ready?_eq_none hnone hid
      exact absurd ht (hready l hl)
  · intro ids links id hready ih hrank hsource
    have hmem := (of_ready?_eq_some hready).1
    have hrest := ih (fun l hl => hrank l (List.mem_of_mem_filter hl))
      (source_withoutSource hsource)
    exact (hrest.cons id).trans (List.perm_cons_erase hmem).symm

lemma drain_subperm : (drain ids links).Subperm ids := by
  refine drain_induction (motive := fun ids _ listed => listed.Subperm ids) ?_ ?_
  · exact fun ids _ _ => List.nil_subperm
  · intro ids links id hready ih
    have hmem := (of_ready?_eq_some hready).1
    exact (List.subperm_cons id |>.mpr ih).trans (List.perm_cons_erase hmem).symm.subperm

/-- A set of slots each of which has a link from another one of the set is never listed. -/
lemma drain_avoids {P : Nat → Prop} (hP : ∀ s, P s → ∃ l ∈ links, P l.source ∧ l.target = s) :
    ∀ id ∈ drain ids links, ¬ P id.slot := by
  revert hP
  refine drain_induction (motive := fun _ links listed =>
    (∀ s, P s → ∃ l ∈ links, P l.source ∧ l.target = s) → ∀ id ∈ listed, ¬ P id.slot) ?_ ?_
  · exact fun _ _ _ _ id hid => absurd hid List.not_mem_nil
  · intro ids links id hready ih hP
    have hfirst : ¬ P id.slot := by
      intro h
      obtain ⟨l, hl, -, ht⟩ := hP _ h
      exact (of_ready?_eq_some hready).2 l hl ht
    rintro next (_ | ⟨_, hnext⟩)
    · exact hfirst
    · refine ih (fun s hs => ?_) next hnext
      obtain ⟨l, hl, hsource, ht⟩ := hP s hs
      have hne : l.source ≠ id.slot := fun heq => hfirst (heq ▸ hsource)
      exact ⟨l, List.mem_filter.mpr ⟨hl, by simpa using hne⟩, hsource, ht⟩

lemma drain_forward (hn : (ids.map (·.slot)).Nodup) : Forward links (drain ids links) := by
  revert hn
  refine (drain_induction (motive := fun ids links listed => (ids.map (·.slot)).Nodup →
    (∀ b ∈ listed, b ∈ ids) ∧ Forward links listed) ?_ ?_ · |>.2)
  · exact fun ids links _ _ => ⟨by simp, List.Pairwise.nil⟩
  · intro ids links id hready ih hn
    obtain ⟨hmem, hfree⟩ := of_ready?_eq_some hready
    have hcons := ((List.perm_cons_erase hmem).map (·.slot)).nodup_iff.mp hn
    rw [List.map_cons, List.nodup_cons] at hcons
    obtain ⟨hsub, hrest⟩ := ih hcons.2
    refine ⟨?_, .cons (fun b _ l hl h => hfree l hl h.2) (List.Pairwise.imp_of_mem ?_ hrest)⟩
    · rintro b (_ | ⟨_, hb⟩)
      · exact hmem
      · exact List.mem_of_mem_erase (hsub b hb)
    · intro a b _ hb h l hl hab
      refine h l (List.mem_filter.mpr ⟨hl, ?_⟩) hab
      have hne : b.slot ≠ id.slot := fun heq =>
        hcons.1 (heq ▸ List.mem_map_of_mem (hsub b hb))
      simpa [hab.1] using hne

end Drain

lemma mem_ids {id : BlockId} : id ∈ g.ids ↔ ∃ b, g.block? id = some b := by
  simp only [ids, List.mem_mergeSort, List.mem_filterMap, mem_liveSlots, idAt?_eq_some,
    block?_eq_some]
  constructor
  · rintro ⟨s, -, b, hb, rfl⟩
    exact ⟨b, hb, rfl⟩
  · rintro ⟨b, hb, hseq⟩
    exact ⟨id.slot, ⟨b, hb⟩, b, hb, by rw [hseq]⟩

lemma map_slot_ids : (g.ids.map (·.slot)).Perm g.liveSlots := by
  refine ((List.mergeSort_perm _ _).map _).trans (.of_eq ?_)
  rw [List.map_filterMap]
  refine (List.filterMap_congr fun s hs => ?_).trans List.filterMap_some
  obtain ⟨b, hb⟩ := mem_liveSlots.mp hs
  rw [idAt?_eq_some.mpr ⟨b, hb, rfl⟩, Option.map_some]

lemma length_ids : g.ids.length = g.numBlocks := by
  rw [← List.length_map (f := (·.slot)), map_slot_ids.length_eq, numBlocks]

end GateFusion.CircuitGraph
