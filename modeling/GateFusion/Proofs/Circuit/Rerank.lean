import GateFusion.Proofs.Circuit.Dependency
import GateFusion.Proofs.Circuit.Reassign

/-!
# Repairing the ranks

After a merge the links into the new block may lead down in rank. `restoreOrder` permutes the ranks
of two regions: what leads to the late predecessors of the block, and what the block leads to. All
other ranks stay, and afterwards ranks increase along every link.
-/

namespace GateFusion.CircuitGraph
open Relation
variable {α : Type} {g g' : CircuitGraph α}

/-- `g'` differs from `g` in the ranks of its blocks at most; they are given by `rank`. -/
structure Reranked (g g' : CircuitGraph α) (rank : Nat → Nat) : Prop where
  blockAt : ∀ s, g'.blockAt? s = (g.blockAt? s).map fun b => { b with rank := rank s }
  size : g'.slots.size = g.slots.size
  free : g'.free = g.free
  links : g'.links = g.links
  heads : g'.heads = g.heads
  tails : g'.tails = g.tails
  nextSeq : g'.nextSeq = g.nextSeq
  nextOrigin : g'.nextOrigin = g.nextOrigin

lemma Reranked.refl (g : CircuitGraph α) : Reranked g g g.rankAt := by
  refine ⟨fun s => ?_, rfl, rfl, rfl, rfl, rfl, rfl, rfl⟩
  cases h : g.blockAt? s with
  | none => rfl
  | some b => rw [Option.map_some, rankAt_of_blockAt? h]

lemma Reranked.setRank (slot rank : Nat) :
    Reranked g (g.setRank slot rank) (Function.update g.rankAt slot rank) := by
  have hfields : (g.setRank slot rank).slots.size = g.slots.size ∧
      (g.setRank slot rank).free = g.free ∧ (g.setRank slot rank).links = g.links ∧
      (g.setRank slot rank).heads = g.heads ∧ (g.setRank slot rank).tails = g.tails ∧
      (g.setRank slot rank).nextSeq = g.nextSeq ∧
      (g.setRank slot rank).nextOrigin = g.nextOrigin := by
    unfold CircuitGraph.setRank
    split <;> simp
  obtain ⟨h1, h2, h3, h4, h5, h6, h7⟩ := hfields
  refine ⟨fun s => ?_, h1, h2, h3, h4, h5, h6, h7⟩
  rw [blockAt?_setRank]
  cases h : g.blockAt? s with
  | none => rfl
  | some b =>
    by_cases hs : s = slot
    · simp [hs]
    · simp [hs, rankAt_of_blockAt? h]

lemma Reranked.rankAt {rank : Nat → Nat} (h : Reranked g g' rank) {s : Nat}
    (hs : s ∈ g.liveSlots) : g'.rankAt s = rank s := by
  obtain ⟨b, hb⟩ := mem_liveSlots.mp hs
  rw [CircuitGraph.rankAt, h.blockAt, hb]
  rfl

lemma Reranked.liveSlots {rank : Nat → Nat} (h : Reranked g g' rank) :
    g'.liveSlots = g.liveSlots := by
  unfold CircuitGraph.liveSlots
  rw [h.size]
  refine List.filter_congr fun s _ => ?_
  rw [h.blockAt, Option.isSome_map]

lemma Reranked.freeList {rank : Nat → Nat} (h : Reranked g g' rank) (hfree : FreeList g) :
    FreeList g' := by
  refine ⟨fun s => ?_, h.free ▸ hfree.nodup⟩
  rw [h.free, h.size, hfree.mem_iff, h.blockAt, Option.map_eq_none_iff]

lemma Reranked.trans {g₁ g₂ g₃ : CircuitGraph α} {rank rank' : Nat → Nat}
    (h : Reranked g₁ g₂ rank) (h' : Reranked g₂ g₃ rank') : Reranked g₁ g₃ rank' := by
  refine ⟨fun s => ?_, h'.size.trans h.size, h'.free.trans h.free, h'.links.trans h.links,
    h'.heads.trans h.heads, h'.tails.trans h.tails, h'.nextSeq.trans h.nextSeq,
    h'.nextOrigin.trans h.nextOrigin⟩
  rw [h'.blockAt, h.blockAt, Option.map_map]
  rfl

lemma Reranked.congr {rank rank' : Nat → Nat} (h : Reranked g g' rank)
    (heq : ∀ s ∈ g.liveSlots, rank s = rank' s) : Reranked g g' rank' := by
  refine { h with blockAt := fun s => ?_ }
  rw [h.blockAt]
  cases hb : g.blockAt? s with
  | none => rfl
  | some b => rw [Option.map_some, Option.map_some, heq s (mem_liveSlots.mpr ⟨b, hb⟩)]

/-- Setting the ranks of several slots in turn. -/
lemma Reranked.foldl_setRank {slots numbers : List Nat} (hn : slots.Nodup) :
    Reranked g ((slots.zip numbers).foldl (fun g m => g.setRank m.1 m.2) g)
      (reassigned g.rankAt slots numbers) := by
  induction slots generalizing g numbers with
  | nil => exact Reranked.refl g
  | cons s slots ih =>
    cases numbers with
    | nil => exact Reranked.refl g
    | cons n numbers =>
      obtain ⟨hs, hn⟩ := List.nodup_cons.mp hn
      have hset := Reranked.setRank (g := g) s n
      refine (hset.trans (ih hn)).congr fun t ht => ?_
      rw [reassigned_cons]
      by_cases hts : t = s
      · rw [if_pos hts, reassigned_of_notMem (hts ▸ hs), hset.rankAt ht, hts,
          Function.update_self]
      · rw [if_neg hts, reassigned, reassigned, hset.rankAt ht, Function.update_of_ne hts]

section Restore
variable {m : Nat}

/-- The predecessors of a slot that rank above it. -/
def late (g : CircuitGraph α) (m : Nat) : List Nat :=
  (g.predecessors m).filter fun p => g.rankAt m < g.rankAt p

/-- What a slot leads to below a bound in rank, by rank. -/
def forward (g : CircuitGraph α) (m upper : Nat) : List Nat :=
  (explore g.successors (fun n => g.rankAt n < upper) g.liveSlots [m] []).mergeSort
    fun a b => decide (g.rankAt a ≤ g.rankAt b)

/-- What leads to the late predecessors of a slot and ranks above it, by rank. -/
def backward (g : CircuitGraph α) (m : Nat) : List Nat :=
  (explore g.predecessors (fun n => g.rankAt m < g.rankAt n) g.liveSlots (g.late m) []).mergeSort
    fun a b => decide (g.rankAt a ≤ g.rankAt b)

lemma mem_late {p : Nat} : p ∈ g.late m ↔ g.Precedes p m ∧ g.rankAt m < g.rankAt p := by
  rw [late, List.mem_filter, mem_predecessors, decide_eq_true_eq]

lemma pairwise_mergeSort_rank (slots : List Nat) :
    (slots.mergeSort fun a b => decide (g.rankAt a ≤ g.rankAt b)).Pairwise
      fun a b => g.rankAt a ≤ g.rankAt b := by
  have h : (slots.mergeSort fun a b => decide (g.rankAt a ≤ g.rankAt b)).Pairwise
      fun a b => decide (g.rankAt a ≤ g.rankAt b) = true := by
    refine List.pairwise_mergeSort (fun a b c => ?_) (fun a b => ?_) slots
    · simp only [decide_eq_true_eq]
      omega
    · simp only [Bool.or_eq_true, decide_eq_true_eq]
      omega
  exact h.imp of_decide_eq_true

/-- Slots of different ranks have one order by rank. -/
lemma mergeSort_rank_eq {slots sorted : List Nat} (hperm : slots.Perm sorted)
    (hsorted : sorted.Pairwise fun a b => g.rankAt a < g.rankAt b) :
    (slots.mergeSort fun a b => decide (g.rankAt a ≤ g.rankAt b)) = sorted := by
  have hinj : (sorted.map g.rankAt).Nodup := List.pairwise_map.mpr (hsorted.imp fun h => h.ne)
  have hboth := (List.mergeSort_perm slots fun a b => decide (g.rankAt a ≤ g.rankAt b)).trans hperm
  refine hboth.eq_of_pairwise (fun a b ha hb hab hba => ?_) (pairwise_mergeSort_rank slots)
    (hsorted.imp fun h => h.le)
  exact List.inj_on_of_nodup_map hinj (hboth.mem_iff.mp ha) hb (le_antisymm hab hba)

lemma nodup_forward (upper : Nat) : (g.forward m upper).Nodup :=
  (List.mergeSort_perm _ _).nodup_iff.mpr (nodup_explore _ _ nodup_liveSlots .nil (by simp))

lemma nodup_backward : (g.backward m).Nodup :=
  (List.mergeSort_perm _ _).nodup_iff.mpr (nodup_explore _ _ nodup_liveSlots .nil (by simp))

lemma mem_forward (hlive : ∀ a b, g.Precedes a b → b ∈ g.liveSlots) (hm : m ∈ g.liveSlots)
    (hacyclic : ∀ a, ¬ TransGen g.Precedes a a)
    (hinc : ∀ a b, g.Precedes a b → b ≠ m → g.rankAt a < g.rankAt b) (upper x : Nat) :
    x ∈ g.forward m upper ↔ ReflTransGen g.Precedes m x ∧ g.rankAt x < upper := by
  rw [forward, List.mem_mergeSort, mem_explore _ _ nodup_liveSlots]
  simp only [List.not_mem_nil, List.mem_singleton, exists_eq_left, false_or]
  constructor
  · rintro ⟨⟨-, hkeep⟩, hpath⟩
    have hx : g.rankAt x < upper := by
      rcases hpath.cases_tail with rfl | ⟨y, -, -, -, hx⟩
      · exact of_decide_eq_true hkeep
      · exact of_decide_eq_true hx
    exact ⟨ReflTransGen.mono (fun _ _ h => mem_successors.mp h.1) _ _ hpath, hx⟩
  · rintro ⟨hpath, hx⟩
    induction hpath with
    | refl => exact ⟨⟨hm, decide_eq_true hx⟩, .refl⟩
    | @tail y z hy hyz ih =>
      have hz : z ≠ m := by
        rintro rfl
        exact hacyclic _ (TransGen.tail' hy hyz)
      obtain ⟨hstart, hpath⟩ := ih ((hinc y z hyz hz).trans hx)
      exact ⟨hstart, hpath.tail ⟨mem_successors.mpr hyz, hlive y z hyz, decide_eq_true hx⟩⟩

lemma mem_backward (hlive : ∀ a b, g.Precedes a b → a ∈ g.liveSlots)
    (hacyclic : ∀ a, ¬ TransGen g.Precedes a a)
    (hinc : ∀ a b, g.Precedes a b → b ≠ m → g.rankAt a < g.rankAt b) (x : Nat) :
    x ∈ g.backward m ↔
      (∃ p ∈ g.late m, ReflTransGen g.Precedes x p) ∧ g.rankAt m < g.rankAt x := by
  have hlate : ∀ p ∈ g.late m, g.Precedes p m := fun p hp => (mem_late.mp hp).1
  rw [backward, List.mem_mergeSort, mem_explore _ _ nodup_liveSlots]
  simp only [List.not_mem_nil, false_or]
  constructor
  · rintro ⟨p, hp, ⟨-, hkeep⟩, hpath⟩
    have hx : g.rankAt m < g.rankAt x := by
      rcases hpath.cases_tail with rfl | ⟨y, -, -, -, hx⟩
      · exact of_decide_eq_true hkeep
      · exact of_decide_eq_true hx
    refine ⟨⟨p, hp, ?_⟩, hx⟩
    rw [← reflTransGen_swap]
    exact ReflTransGen.mono (fun _ _ h => mem_predecessors.mp h.1) _ _ hpath
  · rintro ⟨⟨p, hp, hpath⟩, hx⟩
    refine ⟨p, hp, ?_⟩
    induction hpath using ReflTransGen.head_induction_on with
    | refl => exact ⟨⟨hlive _ _ (hlate p hp), decide_eq_true hx⟩, .refl⟩
    | @head y z hyz hz ih =>
      have hzm : z ≠ m := fun h => hacyclic m (TransGen.tail' (h ▸ hz) (hlate p hp))
      obtain ⟨hstart, hpath⟩ := ih (hx.trans (hinc y z hyz hzm))
      exact ⟨hstart, hpath.tail ⟨mem_predecessors.mpr hyz, hlive y z hyz, decide_eq_true hx⟩⟩

lemma rank_le_of_path_from (hacyclic : ∀ a, ¬ TransGen g.Precedes a a)
    (hinc : ∀ a b, g.Precedes a b → b ≠ m → g.rankAt a < g.rankAt b) {x : Nat}
    (h : ReflTransGen g.Precedes m x) : g.rankAt m ≤ g.rankAt x := by
  induction h with
  | refl => exact le_refl _
  | @tail y z hy hyz ih =>
    have hz : z ≠ m := by
      rintro rfl
      exact hacyclic _ (TransGen.tail' hy hyz)
    exact ih.trans (hinc y z hyz hz).le

lemma rank_le_of_path_to (hacyclic : ∀ a, ¬ TransGen g.Precedes a a)
    (hinc : ∀ a b, g.Precedes a b → b ≠ m → g.rankAt a < g.rankAt b) {x p : Nat}
    (hp : g.Precedes p m) (h : ReflTransGen g.Precedes x p) : g.rankAt x ≤ g.rankAt p := by
  induction h using ReflTransGen.head_induction_on with
  | refl => exact le_refl _
  | @head y z hyz hz ih =>
    have hzm : z ≠ m := by
      rintro rfl
      exact hacyclic _ (TransGen.tail' hz hp)
    exact (hinc y z hyz hzm).le.trans ih

/-- The two regions that exchange ranks when those of `m` and of its predecessors are the only ones
that may not increase: what leads to a predecessor above `m`, and what `m` leads to below the
highest of them. -/
structure Regions (g : CircuitGraph α) (m upper : Nat) (first second : List Nat) : Prop where
  live : ∀ a b, g.Precedes a b → a ∈ g.liveSlots ∧ b ∈ g.liveSlots
  center : m ∈ g.liveSlots
  acyclic : ∀ a, ¬ TransGen g.Precedes a a
  increasing : ∀ a b, g.Precedes a b → b ≠ m → g.rankAt a < g.rankAt b
  injective : (g.liveSlots.map g.rankAt).Nodup
  highest : ((g.late m).map g.rankAt).max? = some upper
  first : ∀ x, x ∈ first ↔
    (∃ p ∈ g.late m, ReflTransGen g.Precedes x p) ∧ g.rankAt m < g.rankAt x
  second : ∀ x, x ∈ second ↔ ReflTransGen g.Precedes m x ∧ g.rankAt x < upper

namespace Regions
variable {upper : Nat} {first second : List Nat} (hr : g.Regions m upper first second)
include hr

lemma rank_inj {a b : Nat} (ha : a ∈ g.liveSlots) (hb : b ∈ g.liveSlots)
    (h : g.rankAt a = g.rankAt b) : a = b := List.inj_on_of_nodup_map hr.injective ha hb h

lemma exists_highest :
    ∃ p ∈ g.late m, g.rankAt p = upper ∧ ∀ p' ∈ g.late m, g.rankAt p' ≤ upper := by
  obtain ⟨hmem, hall⟩ := List.max?_eq_some_iff.mp hr.highest
  obtain ⟨p, hp, heq⟩ := List.mem_map.mp hmem
  exact ⟨p, hp, heq, fun p' hp' => hall _ (List.mem_map_of_mem hp')⟩

lemma disjoint {x : Nat} (hx : x ∈ first) : x ∉ second := by
  intro hx'
  obtain ⟨⟨p, hp, hxp⟩, -⟩ := (hr.first x).mp hx
  exact hr.acyclic m (TransGen.tail' (((hr.second x).mp hx').1.trans hxp) (mem_late.mp hp).1)

lemma mem_liveSlots_of_mem {x : Nat} (hx : x ∈ first ++ second) : x ∈ g.liveSlots := by
  rcases List.mem_append.mp hx with hx | hx
  · obtain ⟨⟨p, hp, hxp⟩, -⟩ := (hr.first x).mp hx
    rcases hxp.cases_head with rfl | ⟨y, hxy, -⟩
    · exact (hr.live _ _ (mem_late.mp hp).1).1
    · exact (hr.live _ _ hxy).1
  · rcases ((hr.second x).mp hx).1.cases_tail with rfl | ⟨y, -, hyx⟩
    · exact hr.center
    · exact (hr.live _ _ hyx).2

lemma center_mem : m ∈ second := by
  obtain ⟨top, htop, htopeq, -⟩ := hr.exists_highest
  exact (hr.second m).mpr ⟨.refl, htopeq ▸ (mem_late.mp htop).2⟩

/-- All ranks involved lie between that of `m` and the highest one before it. -/
lemma rank_mem_bounds {x : Nat} (hx : x ∈ first ++ second) :
    g.rankAt m ≤ g.rankAt x ∧ g.rankAt x ≤ upper := by
  obtain ⟨-, -, -, hall⟩ := hr.exists_highest
  rcases List.mem_append.mp hx with hx | hx
  · obtain ⟨⟨p, hp, hxp⟩, hlt⟩ := (hr.first x).mp hx
    exact ⟨hlt.le, (rank_le_of_path_to hr.acyclic hr.increasing (mem_late.mp hp).1 hxp).trans
      (hall p hp)⟩
  · obtain ⟨hpath, hlt⟩ := (hr.second x).mp hx
    exact ⟨rank_le_of_path_from hr.acyclic hr.increasing hpath, hlt.le⟩

section Link
variable {new : Nat → Nat} (hnew : Pooled g.rankAt new first second) {a b : Nat}
include hnew

lemma new_mem_bounds {x : Nat} (hx : x ∈ first ++ second) :
    g.rankAt m ≤ new x ∧ new x ≤ upper := by
  obtain ⟨y, hy, heq⟩ := hnew.mem x hx
  rw [heq]
  exact hr.rank_mem_bounds hy

/-- Links into `m` are the only ones along which ranks could fall. -/
lemma increases_to (ham : g.Precedes a m) : new a < new m := by
  by_cases hlate : g.rankAt m < g.rankAt a
  · have haf : a ∈ first := (hr.first a).mpr ⟨⟨a, mem_late.mpr ⟨ham, hlate⟩, .refl⟩, hlate⟩
    exact hnew.across a haf m hr.center_mem
  · have hne : g.rankAt a ≠ g.rankAt m := fun h =>
      hr.acyclic m (.single (hr.rank_inj (hr.live a m ham).1 hr.center h ▸ ham))
    have hout : a ∉ first ++ second := fun hx => by
      have hlow := (hr.rank_mem_bounds hx).1
      omega
    rw [List.mem_append, not_or] at hout
    have hup := hnew.up m hr.center_mem
    rw [hnew.kept a hout.1 hout.2]
    omega

omit hr in
/-- Numbers in the first region only go down, and stay below those of the second. -/
lemma increases_from_first (ha : a ∈ first) (hlt : g.rankAt a < g.rankAt b) : new a < new b := by
  by_cases hbf : b ∈ first
  · exact hnew.within_first a ha b hbf hlt
  by_cases hbs : b ∈ second
  · exact hnew.across a ha b hbs
  · rw [hnew.kept b hbf hbs]
    exact (hnew.down a ha).trans_lt hlt

/-- A link out of the second region stays in it or leads above all ranks involved. -/
lemma increases_from_second (ha : a ∈ second) (hab : g.Precedes a b)
    (hlt : g.rankAt a < g.rankAt b) : new a < new b := by
  have hpath : ReflTransGen g.Precedes m b := ((hr.second a).mp ha).1.tail hab
  have hbf : b ∉ first := fun hbf => by
    obtain ⟨⟨p, hp, hbp⟩, -⟩ := (hr.first b).mp hbf
    exact hr.acyclic m (TransGen.tail' (hpath.trans hbp) (mem_late.mp hp).1)
  by_cases hbs : b ∈ second
  · exact hnew.within_second a ha b hbs hlt
  obtain ⟨top, htop, htopeq, -⟩ := hr.exists_highest
  have hge : upper ≤ g.rankAt b := by
    by_contra h
    exact hbs ((hr.second b).mpr ⟨hpath, by omega⟩)
  have hne : g.rankAt b ≠ upper := fun h => by
    have hbtop : b = top := hr.rank_inj (hr.live a b hab).2
      (hr.live _ _ (mem_late.mp htop).1).1 (h.trans htopeq.symm)
    exact hbf ((hr.first b).mpr ⟨⟨top, htop, hbtop ▸ .refl⟩, hbtop ▸ (mem_late.mp htop).2⟩)
  have hhigh := (hr.new_mem_bounds hnew (List.mem_append_right _ ha)).2
  rw [hnew.kept b hbf hbs]
  omega

/-- A link into the first region from outside comes from below all ranks involved. -/
lemma increases_from_outside (haf : a ∉ first) (has : a ∉ second) (hab : g.Precedes a b)
    (hlt : g.rankAt a < g.rankAt b) : new a < new b := by
  rw [hnew.kept a haf has]
  by_cases hbf : b ∈ first
  · obtain ⟨⟨p, hp, hbp⟩, -⟩ := (hr.first b).mp hbf
    have hle : ¬ g.rankAt m < g.rankAt a := fun h =>
      haf ((hr.first a).mpr ⟨⟨p, hp, .head hab hbp⟩, h⟩)
    have hne : g.rankAt a ≠ g.rankAt m := fun h =>
      has (hr.rank_inj (hr.live a b hab).1 hr.center h ▸ hr.center_mem)
    have hlow := (hr.new_mem_bounds hnew (List.mem_append_left _ hbf)).1
    omega
  by_cases hbs : b ∈ second
  · exact hlt.trans_le (hnew.up b hbs)
  · rwa [hnew.kept b hbf hbs]

/-- With the ranks of both regions pooled and handed out again, ranks grow along every link. -/
theorem increases (hab : g.Precedes a b) : new a < new b := by
  by_cases hbm : b = m
  · exact hbm ▸ hr.increases_to hnew (hbm ▸ hab)
  have hlt := hr.increasing a b hab hbm
  by_cases haf : a ∈ first
  · exact increases_from_first hnew haf hlt
  by_cases has : a ∈ second
  · exact hr.increases_from_second hnew has hab hlt
  · exact hr.increases_from_outside hnew haf has hab hlt

end Link
end Regions

lemma restoreOrder_of_none (h : ((g.late m).map g.rankAt).max? = none) :
    g.restoreOrder m = g := by
  simp only [restoreOrder]
  rw [← late, h]

lemma restoreOrder_of_some {upper : Nat} (h : ((g.late m).map g.rankAt).max? = some upper) :
    g.restoreOrder m =
      ((g.backward m ++ g.forward m upper).zip
        (pool g.rankAt (g.backward m) (g.forward m upper))).foldl
          (fun g m => g.setRank m.1 m.2) g := by
  simp only [restoreOrder]
  rw [← late, h]
  rfl

lemma regions_restored (hlive : ∀ a b, g.Precedes a b → a ∈ g.liveSlots ∧ b ∈ g.liveSlots)
    (hm : m ∈ g.liveSlots) (hacyclic : ∀ a, ¬ TransGen g.Precedes a a)
    (hinc : ∀ a b, g.Precedes a b → b ≠ m → g.rankAt a < g.rankAt b)
    (hinj : (g.liveSlots.map g.rankAt).Nodup) {upper : Nat}
    (hupper : ((g.late m).map g.rankAt).max? = some upper) :
    g.Regions m upper (g.backward m) (g.forward m upper) where
  live := hlive
  center := hm
  acyclic := hacyclic
  increasing := hinc
  injective := hinj
  highest := hupper
  first := mem_backward (fun a b h => (hlive a b h).1) hacyclic hinc
  second := mem_forward (fun a b h => (hlive a b h).2) hm hacyclic hinc upper

/-- No block is in both regions. -/
lemma Regions.nodup {upper : Nat} (hr : g.Regions m upper (g.backward m) (g.forward m upper)) :
    (g.backward m ++ g.forward m upper).Nodup :=
  List.Nodup.append nodup_backward (nodup_forward upper) fun _ hx hx' => hr.disjoint hx hx'

/-- The ranks grow along links again, and they are only permuted; a block ranked below `m` or above
all predecessors of `m` keeps its rank. -/
theorem restoreOrder_spec (hlive : ∀ a b, g.Precedes a b → a ∈ g.liveSlots ∧ b ∈ g.liveSlots)
    (hm : m ∈ g.liveSlots) (hacyclic : ∀ a, ¬ TransGen g.Precedes a a)
    (hinc : ∀ a b, g.Precedes a b → b ≠ m → g.rankAt a < g.rankAt b)
    (hinj : (g.liveSlots.map g.rankAt).Nodup) :
    ∃ rank, Reranked g (g.restoreOrder m) rank ∧
      (∀ a b, g.Precedes a b → rank a < rank b) ∧
      (g.liveSlots.map rank).Perm (g.liveSlots.map g.rankAt) ∧
      ∀ s, (g.rankAt s < g.rankAt m ∨ ∀ p ∈ g.predecessors m, g.rankAt p < g.rankAt s) →
        rank s = g.rankAt s := by
  cases hupper : ((g.late m).map g.rankAt).max? with
  | none =>
    rw [restoreOrder_of_none hupper]
    refine ⟨g.rankAt, Reranked.refl g, fun a b hab => ?_, .refl _, fun _ _ => rfl⟩
    by_cases hb : b = m
    · subst hb
      have hnot : a ∉ g.late b := by simp_all
      have hle : ¬ g.rankAt b < g.rankAt a := fun hlt => hnot (mem_late.mpr ⟨hab, hlt⟩)
      have hne : g.rankAt a ≠ g.rankAt b := fun h =>
        hacyclic b (.single (List.inj_on_of_nodup_map hinj (hlive a b hab).1 hm h ▸ hab))
      omega
    · exact hinc a b hab hb
  | some upper =>
    rw [restoreOrder_of_some hupper]
    have hr := regions_restored hlive hm hacyclic hinc hinj hupper
    have hsub : ∀ x ∈ g.backward m ++ g.forward m upper, x ∈ g.liveSlots := fun x hx =>
      hr.mem_liveSlots_of_mem hx
    have hn : ((g.backward m ++ g.forward m upper).map g.rankAt).Nodup :=
      hr.nodup.map_on fun x hx y hy h => hr.rank_inj (hsub x hx) (hsub y hy) h
    refine ⟨_, Reranked.foldl_setRank hr.nodup, fun a b hab => ?_,
      map_reassigned_perm hn nodup_liveSlots hsub, fun s hs => reassigned_of_notMem fun hx => ?_⟩
    · exact hr.increases (pooled_reassigned hn (pairwise_mergeSort_rank _)
        (pairwise_mergeSort_rank _)) hab
    · obtain ⟨hlow, hhigh⟩ := hr.rank_mem_bounds hx
      obtain ⟨top, htop, rfl, -⟩ := hr.exists_highest
      rcases hs with hs | hs
      · omega
      · have := hs top (mem_predecessors.mpr (mem_late.mp htop).1)
        omega

end Restore

end GateFusion.CircuitGraph
