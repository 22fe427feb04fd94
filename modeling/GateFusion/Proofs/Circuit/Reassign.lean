import Mathlib.Data.List.Pairwise
import Mathlib.Data.List.Sort
import Mathlib.Data.List.Perm.Subperm
import GateFusion.Circuit.Replace

/-!
# Handing out numbers anew

Two groups of slots, each listed by ascending number, put their numbers into one pool and receive
the sorted pool in turn. The numbers then ascend along both groups together; those of the first
group have not grown and those of the second have not shrunk.
-/

namespace GateFusion

/-- The number of a slot after the slots of a list received the numbers of another. -/
def reassigned (old : Nat → Nat) (slots numbers : List Nat) (s : Nat) : Nat :=
  ((slots.zip numbers).lookup s).getD (old s)

variable {old : Nat → Nat} {slots numbers : List Nat}

lemma reassigned_of_notMem {s : Nat} (hs : s ∉ slots) : reassigned old slots numbers s = old s := by
  have hnone : (slots.zip numbers).lookup s = none := by
    rw [List.lookup_eq_none_iff]
    intro p hp
    have := (List.of_mem_zip hp).1
    rw [bne_iff_ne]
    rintro rfl
    exact hs this
  rw [reassigned, hnone, Option.getD_none]

lemma reassigned_cons (s n t : Nat) : reassigned old (s :: slots) (n :: numbers) t =
    if t = s then n else reassigned old slots numbers t := by
  by_cases ht : t = s
  · simp [reassigned, ht]
  · simp [reassigned, List.lookup_cons, beq_eq_false_iff_ne.mpr ht, ht]

lemma map_reassigned (hn : slots.Nodup) (hlen : slots.length = numbers.length) :
    slots.map (reassigned old slots numbers) = numbers := by
  induction slots generalizing numbers with
  | nil => simpa using hlen.symm
  | cons s slots ih =>
    cases numbers with
    | nil => simp at hlen
    | cons n numbers =>
      obtain ⟨hs, hn⟩ := List.nodup_cons.mp hn
      have htail : slots.map (reassigned old (s :: slots) (n :: numbers)) =
          slots.map (reassigned old slots numbers) := by
        refine List.map_congr_left fun t ht => ?_
        rw [reassigned_cons, if_neg]
        rintro rfl
        exact hs ht
      rw [List.map_cons, htail, ih hn (by simpa using hlen), reassigned_cons, if_pos rfl]

/-- In a sorted list, the first entries stay below any other choice of as many entries. -/
lemma forall₂_take_of_sublist {R : Nat → Nat → Prop} (hrefl : ∀ a, R a a) {xs ys : List Nat}
    (hs : ys.Pairwise R) (h : List.Sublist xs ys) : List.Forall₂ R (ys.take xs.length) xs := by
  induction ys generalizing xs with
  | nil =>
    obtain rfl := List.sublist_nil.mp h
    exact .nil
  | cons y ys ih =>
    cases xs with
    | nil => exact .nil
    | cons x xs =>
      obtain ⟨hy, hs⟩ := List.pairwise_cons.mp hs
      rw [List.length_cons, List.take_succ_cons]
      cases h with
      | cons _ h =>
        exact .cons (hy _ (h.subset (by simp))) (ih hs ((List.sublist_cons_self _ _).trans h))
      | cons_cons _ h => exact .cons (hrefl _) (ih hs h)

lemma forall₂_drop_of_sublist {xs ys : List Nat} (hs : ys.Pairwise (· ≤ ·))
    (h : List.Sublist xs ys) :
    List.Forall₂ (· ≤ ·) xs (ys.drop (ys.length - xs.length)) := by
  have hrev : List.Forall₂ (fun a b => b ≤ a) (ys.reverse.take xs.reverse.length) xs.reverse :=
    forall₂_take_of_sublist (R := fun a b => b ≤ a) le_refl (List.pairwise_reverse.mpr hs)
      (List.reverse_sublist.mpr h)
  rw [List.length_reverse, List.take_reverse, List.forall₂_reverse_iff] at hrev
  exact hrev.flip

section Pool
variable {first second : List Nat}
  (hn : ((first ++ second).map old).Nodup)
  (hfirst : first.Pairwise fun a b => old a ≤ old b)
  (hsecond : second.Pairwise fun a b => old a ≤ old b)

/-- The pool of two groups: their numbers, ascending. -/
def pool (old : Nat → Nat) (first second : List Nat) : List Nat :=
  ((first ++ second).map old).mergeSort

lemma pool_perm : (pool old first second).Perm ((first ++ second).map old) :=
  List.mergeSort_perm _ _

lemma pool_sorted : (pool old first second).Pairwise (· ≤ ·) := by
  have h : (pool old first second).Pairwise fun a b => decide (a ≤ b) = true := by
    refine List.pairwise_mergeSort (fun a b c => ?_) (fun a b => ?_) _
    · simp only [decide_eq_true_eq]
      omega
    · simp only [Bool.or_eq_true, decide_eq_true_eq]
      omega
  exact h.imp of_decide_eq_true

lemma length_pool : (first ++ second).length = (pool old first second).length := by
  rw [pool_perm.length_eq, List.length_map]

include hn

lemma map_reassigned_pool :
    (first ++ second).map (reassigned old (first ++ second) (pool old first second)) =
      pool old first second :=
  map_reassigned hn.of_map length_pool

/-- The new numbers ascend along both groups. -/
lemma pairwise_reassigned : (first ++ second).Pairwise fun a b =>
    reassigned old (first ++ second) (pool old first second) a <
      reassigned old (first ++ second) (pool old first second) b := by
  rw [← List.pairwise_map, map_reassigned_pool hn]
  have hnodup : (pool old first second).Nodup := pool_perm.nodup_iff.mpr hn
  exact (pool_sorted.and hnodup).imp fun h => lt_of_le_of_ne h.1 h.2

/-- Within a group listed by old number, the new numbers order its slots as the old ones did. -/
lemma reassigned_lt {group : List Nat} (hgroup : group.Pairwise fun a b => old a ≤ old b)
    (hsub : List.Sublist group (first ++ second)) {a b : Nat} (ha : a ∈ group) (hb : b ∈ group)
    (hlt : old a < old b) :
    reassigned old (first ++ second) (pool old first second) a <
      reassigned old (first ++ second) (pool old first second) b := by
  have hboth := hgroup.and ((pairwise_reassigned hn).sublist hsub)
  generalize reassigned old (first ++ second) (pool old first second) = new at hboth ⊢
  have heither : group.Pairwise fun a b => (old a ≤ old b ∧ new a < new b) ∨
      (old b ≤ old a ∧ new b < new a) := hboth.imp Or.inl
  have hsym : Std.Symm fun a b => (old a ≤ old b ∧ new a < new b) ∨
      (old b ≤ old a ∧ new b < new a) := ⟨fun _ _ => Or.symm⟩
  have hne : a ≠ b := by
    rintro rfl
    omega
  have := heither.forall ha hb hne
  omega

include hfirst in
lemma reassigned_le {a : Nat} (ha : a ∈ first) :
    reassigned old (first ++ second) (pool old first second) a ≤ old a := by
  have hsub : List.Sublist (first.map old) (pool old first second) := by
    refine List.sublist_of_subperm_of_pairwise ?_ (List.pairwise_map.mpr hfirst) pool_sorted
    refine List.Subperm.trans (List.Sublist.subperm ?_) pool_perm.symm.subperm
    rw [List.map_append]
    exact List.sublist_append_left _ _
  have htake := forall₂_take_of_sublist (fun a => le_refl a) pool_sorted hsub
  rw [List.length_map, ← map_reassigned_pool hn, List.map_append,
    List.take_left' (List.length_map _), List.forall₂_map_left_iff, List.forall₂_map_right_iff,
    List.forall₂_same] at htake
  exact htake a ha

include hsecond in
lemma le_reassigned {a : Nat} (ha : a ∈ second) :
    old a ≤ reassigned old (first ++ second) (pool old first second) a := by
  have hsub : List.Sublist (second.map old) (pool old first second) := by
    refine List.sublist_of_subperm_of_pairwise ?_ (List.pairwise_map.mpr hsecond) pool_sorted
    refine List.Subperm.trans (List.Sublist.subperm ?_) pool_perm.symm.subperm
    rw [List.map_append]
    exact List.sublist_append_right _ _
  have hdrop := forall₂_drop_of_sublist pool_sorted hsub
  rw [← length_pool, List.length_append, List.length_map, Nat.add_sub_cancel,
    ← map_reassigned_pool hn, List.map_append, List.drop_left' (List.length_map _),
    List.forall₂_map_left_iff, List.forall₂_map_right_iff, List.forall₂_same] at hdrop
  exact hdrop a ha

lemma reassigned_mem {a : Nat} (ha : a ∈ first ++ second) :
    reassigned old (first ++ second) (pool old first second) a ∈ (first ++ second).map old := by
  have hmem : reassigned old (first ++ second) (pool old first second) a ∈
      (first ++ second).map (reassigned old (first ++ second) (pool old first second)) :=
    List.mem_map_of_mem ha
  rwa [map_reassigned_pool hn, pool_perm.mem_iff] at hmem

/-- What two groups of slots get from their pool: the others keep their numbers, numbers in the
first group do not grow and those in the second do not shrink, they are numbers of the groups, and
they ascend from the first group to the second and within each as they did. -/
structure Pooled (old new : Nat → Nat) (first second : List Nat) : Prop where
  kept : ∀ a, a ∉ first → a ∉ second → new a = old a
  down : ∀ a ∈ first, new a ≤ old a
  up : ∀ a ∈ second, old a ≤ new a
  mem : ∀ a ∈ first ++ second, ∃ b ∈ first ++ second, new a = old b
  across : ∀ a ∈ first, ∀ b ∈ second, new a < new b
  within_first : ∀ a ∈ first, ∀ b ∈ first, old a < old b → new a < new b
  within_second : ∀ a ∈ second, ∀ b ∈ second, old a < old b → new a < new b

include hfirst hsecond in
theorem pooled_reassigned : Pooled old
    (reassigned old (first ++ second) (pool old first second)) first second where
  kept a ha ha' := reassigned_of_notMem fun h => (List.mem_append.mp h).elim ha ha'
  down a ha := reassigned_le hn hfirst ha
  up a ha := le_reassigned hn hsecond ha
  mem a ha := by
    obtain ⟨b, hb, heq⟩ := List.mem_map.mp (reassigned_mem hn ha)
    exact ⟨b, hb, heq.symm⟩
  across := (List.pairwise_append.mp (pairwise_reassigned hn)).2.2
  within_first a ha b hb := reassigned_lt hn hfirst (List.sublist_append_left _ _) ha hb
  within_second a ha b hb := reassigned_lt hn hsecond (List.sublist_append_right _ _) ha hb

/-- Over any list that holds both groups, the numbers are only permuted. -/
lemma map_reassigned_perm {all : List Nat} (hall : all.Nodup)
    (hsub : ∀ a ∈ first ++ second, a ∈ all) :
    (all.map (reassigned old (first ++ second) (pool old first second))).Perm (all.map old) := by
  have hmap := map_reassigned_pool hn
  have hnew : ∀ a, a ∉ first ++ second →
      reassigned old (first ++ second) (pool old first second) a = old a :=
    fun a => reassigned_of_notMem
  have hperm : (pool old first second).Perm ((first ++ second).map old) := pool_perm
  generalize reassigned old (first ++ second) (pool old first second) = new at hmap hnew ⊢
  generalize first ++ second = moved at *
  have hsplit : (moved ++ all.filter fun a => !decide (a ∈ moved)).Perm all := by
    refine (List.Perm.append_right _ ?_).trans (List.filter_append_perm (· ∈ moved) all)
    refine (List.perm_ext_iff_of_nodup hn.of_map (hall.filter _)).mpr fun a => ?_
    rw [List.mem_filter, decide_eq_true_eq]
    exact ⟨fun h => ⟨hsub a h, h⟩, And.right⟩
  refine (hsplit.symm.map new).trans (List.Perm.trans ?_ (hsplit.map old))
  rw [List.map_append, List.map_append, hmap]
  refine List.Perm.append hperm (List.Perm.of_eq (List.map_congr_left fun a ha => hnew a ?_))
  simpa using (List.mem_filter.mp ha).2

end Pool

end GateFusion
