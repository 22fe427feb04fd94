import GateFusion.Fusion.Candidates
import GateFusion.Proofs.Ordered

/-!
# The candidate set

The index lists for every block exactly the keys of the queued candidates that mention it. So
retiring a block drops these candidates and no others, and the queue stays in ascending order.
-/

namespace GateFusion
variable {α : Type}

section Keys
variable [Scalar α]

instance [Ordered α] : Std.TransCmp (CandidateKey.cmp (α := α)) := by
  have hcost : Std.TransCmp fun a b : CandidateKey α => Scalar.totalCmp a.cost b.cost :=
    OrderedMap.transCmp_comap CandidateKey.cost
  have hearlier : Std.TransCmp fun a b : CandidateKey α => compare a.earlierSeq b.earlierSeq :=
    OrderedMap.transCmp_comap CandidateKey.earlierSeq
  have hlater : Std.TransCmp fun a b : CandidateKey α => compare a.laterSeq b.laterSeq :=
    OrderedMap.transCmp_comap CandidateKey.laterSeq
  exact inferInstanceAs (Std.TransCmp (compareLex (compareLex
    (fun a b : CandidateKey α => Scalar.totalCmp a.cost b.cost)
    fun a b => compare a.earlierSeq b.earlierSeq) fun a b => compare a.laterSeq b.laterSeq))

lemma CandidateKey.cmp_eq {a b : CandidateKey α} (h : a.cmp b = .eq) :
    a.earlierSeq = b.earlierSeq ∧ a.laterSeq = b.laterSeq := by
  rw [cmp, Ordering.then_eq_eq, Ordering.then_eq_eq] at h
  exact ⟨Nat.compare_eq_eq.mp h.1.2, Nat.compare_eq_eq.mp h.2⟩

end Keys

/-- Whether a candidate would merge a block. -/
def Candidate.Mentions (c : Candidate α) (id : BlockId) : Prop := c.earlier = id ∨ c.later = id

namespace CandidateSet

section Index
variable {id x : BlockId} {key k : CandidateKey α} {m : List (BlockId × List (CandidateKey α))}

lemma lookup_index : ((index id key m).lookup x).getD [] =
    (m.lookup x).getD [] ++ if x = id then [key] else [] := by
  induction m with
  | nil =>
    rw [index, List.lookup_cons]
    by_cases hx : x = id
    · simp [hx]
    · simp [hx, beq_eq_false_iff_ne.mpr hx]
  | cons e rest ih =>
    obtain ⟨i, keys⟩ := e
    rw [index]
    split
    · rename_i hi
      rw [List.lookup_cons, List.lookup_cons, hi]
      by_cases hx : x = id
      · simp [hx]
      · simp [hx, beq_eq_false_iff_ne.mpr hx]
    · rename_i hi
      rw [List.lookup_cons, List.lookup_cons]
      by_cases hx : x = i
      · have hne : ¬ i = id := hi
        simp [hx, hne]
      · rw [beq_eq_false_iff_ne.mpr hx]
        exact ih

lemma mem_lookup_index : k ∈ ((index id key m).lookup x).getD [] ↔
    k ∈ (m.lookup x).getD [] ∨ (x = id ∧ k = key) := by
  rw [lookup_index, List.mem_append]
  by_cases hx : x = id
  · simp [hx]
  · simp [hx]

lemma mem_ids_index (h : x ∈ (index id key m).map (·.1)) : x = id ∨ x ∈ m.map (·.1) := by
  induction m with
  | nil => exact Or.inl (by simpa [index] using h)
  | cons e rest ih =>
    obtain ⟨i, keys⟩ := e
    rw [index] at h
    split at h
    · exact Or.inr h
    · rw [List.map_cons, List.mem_cons] at h ⊢
      rcases h with h | h
      · exact Or.inr (Or.inl h)
      · exact (ih h).imp_right Or.inr

lemma nodup_index (h : (m.map (·.1)).Nodup) : ((index id key m).map (·.1)).Nodup := by
  induction m with
  | nil => exact List.pairwise_singleton _ id
  | cons e rest ih =>
    obtain ⟨i, keys⟩ := e
    rw [index]
    split
    · exact h
    · rename_i hi
      rw [List.map_cons, List.nodup_cons] at h ⊢
      refine ⟨fun hmem => ?_, ih h.2⟩
      rcases mem_ids_index hmem with hid | hmem
      · exact hi hid
      · exact h.1 hmem

lemma lookup_eq_none_of_notMem (h : x ∉ m.map (·.1)) : m.lookup x = none := by
  rw [List.lookup_eq_none_iff]
  intro e he
  exact bne_iff_ne.mpr fun heq => h (heq ▸ List.mem_map_of_mem he)

lemma lookup_filter_of_ne (h : x ≠ id) :
    (m.filter fun e => e.1 ≠ id).lookup x = m.lookup x := by
  induction m with
  | nil => rfl
  | cons e rest ih =>
    obtain ⟨i, keys⟩ := e
    rw [List.filter_cons, List.lookup_cons]
    split
    · rw [List.lookup_cons, ih]
    · rename_i hi
      have hne : ¬ x = i := by
        intro heq
        rw [heq] at h
        simp [h] at hi
      rw [beq_eq_false_iff_ne.mpr hne, ih]

variable [Scalar α]

lemma sublist_unindex : ((unindex id key m).map (·.1)).Sublist (m.map (·.1)) := by
  induction m with
  | nil => exact List.Sublist.refl _
  | cons e rest ih =>
    obtain ⟨i, keys⟩ := e
    rw [unindex]
    split
    · dsimp only
      split
      · exact List.sublist_cons_self _ _
      · exact List.Sublist.refl _
    · exact ih.cons_cons i

/-- Only the list of the block loses the key. -/
lemma lookup_unindex (h : (m.map (·.1)).Nodup) : ((unindex id key m).lookup x).getD [] =
    if x = id then ((m.lookup x).getD []).filter fun k => k.cmp key != .eq
    else (m.lookup x).getD [] := by
  induction m with
  | nil => simp [unindex]
  | cons e rest ih =>
    obtain ⟨i, keys⟩ := e
    rw [List.map_cons, List.nodup_cons] at h
    rw [unindex]
    split
    · rename_i hi
      rw [List.lookup_cons]
      by_cases hx : x = i
      · have hnone := lookup_eq_none_of_notMem (hx ▸ h.1)
        rw [if_pos (hx.trans hi), beq_iff_eq.mpr hx]
        dsimp only
        split
        · rename_i hempty
          rw [hnone, Option.getD_none, Option.getD_some, List.isEmpty_iff.mp hempty]
        · rw [List.lookup_cons, beq_iff_eq.mpr hx]
          rfl
      · have hne : ¬ x = id := fun heq => hx (heq.trans hi.symm)
        rw [if_neg hne, beq_eq_false_iff_ne.mpr hx]
        dsimp only
        split
        · rfl
        · rw [List.lookup_cons, beq_eq_false_iff_ne.mpr hx]
    · rename_i hi
      rw [List.lookup_cons, List.lookup_cons]
      by_cases hx : x = i
      · have hne : ¬ x = id := fun heq => hi (hx.symm.trans heq)
        rw [if_neg hne, beq_iff_eq.mpr hx]
      · rw [beq_eq_false_iff_ne.mpr hx]
        exact ih h.2

lemma mem_lookup_unindex (h : (m.map (·.1)).Nodup) :
    k ∈ ((unindex id key m).lookup x).getD [] ↔
      k ∈ (m.lookup x).getD [] ∧ ¬ (x = id ∧ k.cmp key = .eq) := by
  rw [lookup_unindex h]
  by_cases hx : x = id
  · simp [hx, List.mem_filter]
  · simp [hx]

end Index

variable [Scalar α] [Ordered α] {s t : CandidateSet α}
  {key : CandidateKey α} {c : Candidate α}

/-- The queue ascends, and the blocks in scope are listed with the keys of the candidates that
mention them. -/
structure IndexedOn (scope : BlockId → Prop) (s : CandidateSet α) : Prop where
  sorted : OrderedMap.Sorted CandidateKey.cmp s.queue
  nodup : (s.byBlock.map (·.1)).Nodup
  mem_keysOf : ∀ id, scope id → ∀ key,
    key ∈ s.keysOf id ↔ ∃ c, (key, c) ∈ s.queue ∧ c.Mentions id

/-- All blocks are in scope. -/
abbrev Indexed (s : CandidateSet α) : Prop := s.IndexedOn fun _ => True

omit [Ordered α] in
lemma Indexed.empty : (empty : CandidateSet α).Indexed :=
  ⟨List.Pairwise.nil, List.Pairwise.nil, by simp [keysOf, CandidateSet.empty]⟩

/-- Inserting a candidate at a key of its own blocks puts it in place of the candidate that the key
had, and lists the key for both blocks. -/
theorem Indexed.insert (hs : s.Indexed) (key : CandidateKey α) (c : Candidate α)
    (hkey : ∀ e ∈ s.queue, key.cmp e.1 = .eq →
      e.1 = key ∧ e.2.earlier = c.earlier ∧ e.2.later = c.later) : (s.insert key c).Indexed ∧
    ∀ e, e ∈ (s.insert key c).queue ↔ (e ∈ s.queue ∧ key.cmp e.1 ≠ .eq) ∨ e = (key, c) := by
  have hmem : ∀ e, e ∈ (s.insert key c).queue ↔
      (e ∈ s.queue ∧ key.cmp e.1 ≠ .eq) ∨ e = (key, c) := by
    intro e
    exact hs.sorted.mem_insert fun e he heq => (hkey e he heq).1
  refine ⟨⟨hs.sorted.insert key c, nodup_index (nodup_index hs.nodup), ?_⟩, hmem⟩
  intro id _ k
  have hold := hs.mem_keysOf id trivial k
  unfold keysOf at hold ⊢
  unfold CandidateSet.insert
  rw [mem_lookup_index, mem_lookup_index, hold]
  constructor
  · rintro ((⟨d, hd, hid⟩ | ⟨rfl, rfl⟩) | ⟨rfl, rfl⟩)
    · by_cases heq : key.cmp k = .eq
      · -- the key has changed its candidate, which mentions the same blocks
        obtain ⟨rfl, hearlier, hlater⟩ := hkey (k, d) hd heq
        refine ⟨c, (hmem _).mpr (Or.inr rfl), ?_⟩
        unfold Candidate.Mentions at hid ⊢
        rwa [← hearlier, ← hlater]
      · exact ⟨d, (hmem _).mpr (Or.inl ⟨hd, heq⟩), hid⟩
    · exact ⟨c, (hmem _).mpr (Or.inr rfl), Or.inl rfl⟩
    · exact ⟨c, (hmem _).mpr (Or.inr rfl), Or.inr rfl⟩
  · rintro ⟨d, hd, hid⟩
    rcases (hmem _).mp hd with ⟨hd, -⟩ | heq
    · exact Or.inl (Or.inl ⟨d, hd, hid⟩)
    · obtain ⟨rfl, rfl⟩ := Prod.mk.inj heq
      rcases hid with rfl | rfl
      · exact Or.inl (Or.inr ⟨rfl, rfl⟩)
      · exact Or.inr ⟨rfl, rfl⟩

/-- Inserting a candidate that is queued already, or at a new key, adds it. -/
theorem Indexed.insert_same (hs : s.Indexed)
    (hkey : ∀ e ∈ s.queue, key.cmp e.1 = .eq → e = (key, c)) : (s.insert key c).Indexed ∧
      ∀ e, e ∈ (s.insert key c).queue ↔ e ∈ s.queue ∨ e = (key, c) := by
  obtain ⟨hindexed, hmem⟩ := hs.insert key c fun e he heq => by
    rw [hkey e he heq]
    exact ⟨rfl, rfl, rfl⟩
  refine ⟨hindexed, fun e => (hmem e).trans ⟨?_, ?_⟩⟩
  · exact Or.imp_left And.left
  · rintro (he | rfl)
    · by_cases heq : key.cmp e.1 = .eq
      · exact Or.inr (hkey e he heq)
      · exact Or.inl ⟨he, heq⟩
    · exact Or.inr rfl

/-- Striking the entry of a key from the queue, and its key from the lists of its blocks, leaves
the rest listed. -/
lemma IndexedOn.strike {scope : BlockId → Prop} (hs : s.IndexedOn scope)
    {queue : OrderedMap (CandidateKey α) (Candidate α)}
    {byBlock : List (BlockId × List (CandidateKey α))} (hkc : (key, c) ∈ s.queue)
    (hqueue : queue.Sublist s.queue)
    (hmem : ∀ e, e ∈ queue ↔ e ∈ s.queue ∧ key.cmp e.1 ≠ .eq)
    (hnodup : (byBlock.map (·.1)).Nodup)
    (hlist : ∀ id, scope id → ∀ k, k ∈ (byBlock.lookup id).getD [] ↔
      k ∈ s.keysOf id ∧ ¬ (c.Mentions id ∧ k.cmp key = .eq)) :
    IndexedOn scope ⟨queue, byBlock⟩ := by
  refine ⟨hs.sorted.sublist hqueue, hnodup, fun id hid k => ?_⟩
  rw [keysOf, hlist id hid, hs.mem_keysOf id hid]
  constructor
  · rintro ⟨⟨d, hd, hmentions⟩, hnot⟩
    refine ⟨d, (hmem _).mpr ⟨hd, fun heq => hnot ⟨?_, Std.OrientedCmp.eq_symm heq⟩⟩, hmentions⟩
    obtain ⟨-, rfl⟩ := Prod.mk.inj (hs.sorted.eq_of_cmp hkc hd heq)
    exact hmentions
  · rintro ⟨d, hd, hmentions⟩
    obtain ⟨hd, hne⟩ := (hmem _).mp hd
    exact ⟨⟨d, hd, hmentions⟩, fun h => hne (Std.OrientedCmp.eq_symm h.2)⟩

/-- Taking the cheapest candidate leaves the others. -/
theorem Indexed.pop? (hs : s.Indexed) (h : s.pop? = some (c, t)) : t.Indexed ∧
    ∃ key, s.queue = (key, c) :: t.queue ∧ ∀ e ∈ t.queue, key.cmp e.1 = .lt := by
  unfold CandidateSet.pop? at h
  split at h
  · simp at h
  · rename_i key d rest hq
    obtain ⟨rfl, rfl⟩ := Prod.mk.inj (Option.some.inj h)
    have hsorted := hs.sorted
    rw [hq] at hsorted
    obtain ⟨hlt, -⟩ := List.pairwise_cons.mp hsorted
    have hhead : (key, d) ∈ s.queue := by
      rw [hq]
      exact List.mem_cons_self
    have hrest : rest.Sublist s.queue := by
      rw [hq]
      exact List.sublist_cons_self _ _
    refine ⟨hs.strike hhead hrest (fun e => ?_)
      ((hs.nodup.sublist sublist_unindex).sublist sublist_unindex) (fun id _ k => ?_), key, hq, hlt⟩
    · rw [hq, List.mem_cons]
      constructor
      · intro he
        refine ⟨Or.inr he, fun heq => ?_⟩
        rw [hlt e he] at heq
        simp at heq
      · rintro ⟨rfl | he, hne⟩
        · exact absurd Std.ReflCmp.compare_self hne
        · exact he
    · rw [mem_lookup_unindex (hs.nodup.sublist sublist_unindex), mem_lookup_unindex hs.nodup]
      unfold keysOf Candidate.Mentions
      grind

/-- What is left while the keys of a retired block are being dropped. -/
structure Retiring (s : CandidateSet α) (id : BlockId) (keys : List (CandidateKey α))
    (t : CandidateSet α) : Prop where
  indexed : t.IndexedOn (· ≠ id)
  unlisted : id ∉ t.byBlock.map (·.1)
  sublist : t.queue.Sublist s.queue
  kept : ∀ e ∈ s.queue, ¬ e.2.Mentions id → e ∈ t.queue
  listed : ∀ e ∈ t.queue, e.2.Mentions id → e.1 ∈ keys

lemma Retiring.dropKey (hs : s.Indexed) {id : BlockId} {keys : List (CandidateKey α)}
    (ht : Retiring s id (key :: keys) t) (hkey : key ∈ s.keysOf id) :
    Retiring s id keys (dropKey id t key) := by
  obtain ⟨d, hd, hmentions⟩ := (hs.mem_keysOf id trivial key).mp hkey
  unfold CandidateSet.dropKey
  cases hget : OrderedMap.get? CandidateKey.cmp key t.queue with
  | none =>
    -- the key was dropped before
    refine ⟨ht.indexed, ht.unlisted, ht.sublist, ht.kept, fun e he hid => ?_⟩
    rcases List.mem_cons.mp (ht.listed e he hid) with heq | hmem
    · have hself : key.cmp e.1 = .eq := by
        rw [heq]
        exact Std.ReflCmp.compare_self
      have hsome := ht.indexed.sorted.get?_eq_some.mpr ⟨e.1, hself, he⟩
      rw [hget] at hsome
      simp at hsome
    · exact hmem
  | some c =>
    obtain ⟨k, hk, hkc⟩ := ht.indexed.sorted.get?_eq_some.mp hget
    obtain ⟨rfl, rfl⟩ := Prod.mk.inj (hs.sorted.eq_of_cmp hd (ht.sublist.subset hkc) hk)
    dsimp only
    refine ⟨ht.indexed.strike hkc (List.filter_sublist) (fun e => OrderedMap.mem_erase)
      (ht.indexed.nodup.sublist sublist_unindex) (fun x hx k => ?_),
      fun hmem => ht.unlisted (sublist_unindex.subset hmem),
      List.filter_sublist.trans ht.sublist, fun e he hid => ?_, fun e he hid => ?_⟩
    · rw [mem_lookup_unindex ht.indexed.nodup]
      unfold keysOf Candidate.Mentions
      unfold Candidate.Mentions at hmentions
      grind
    · refine OrderedMap.mem_erase.mpr ⟨ht.kept e he hid, fun heq => hid ?_⟩
      rw [← hs.sorted.eq_of_cmp hd he heq]
      exact hmentions
    · obtain ⟨he, hne⟩ := OrderedMap.mem_erase.mp he
      rcases List.mem_cons.mp (ht.listed e he hid) with heq | hmem
      · exact absurd (heq ▸ Std.ReflCmp.compare_self) hne
      · exact hmem

/-- Retiring a block drops the candidates that mention it. -/
theorem Indexed.retire (hs : s.Indexed) (id : BlockId) : (s.retire id).Indexed ∧
    ∀ e, e ∈ (s.retire id).queue ↔ e ∈ s.queue ∧ ¬ e.2.Mentions id := by
  have hstart : Retiring s id (s.keysOf id)
      { s with byBlock := s.byBlock.filter fun e => e.1 ≠ id } := by
    refine ⟨⟨hs.sorted, hs.nodup.sublist (List.filter_sublist.map _), fun x hx k => ?_⟩, ?_,
      List.Sublist.refl _, fun e he _ => he, fun e he hid => ?_⟩
    · rw [← hs.mem_keysOf x trivial k, keysOf, keysOf, lookup_filter_of_ne hx]
    · simp
    · exact (hs.mem_keysOf id trivial e.1).mpr ⟨e.2, he, hid⟩
  have hend : ∀ keys t, (∀ k ∈ keys, k ∈ s.keysOf id) → Retiring s id keys t →
      Retiring s id [] (keys.foldl (CandidateSet.dropKey id) t) := by
    intro keys
    induction keys with
    | nil => exact fun t _ ht => ht
    | cons key keys ih =>
      intro t hkeys ht
      rw [List.foldl_cons]
      exact ih _ (fun k hk => hkeys k (by simp [hk])) (ht.dropKey hs (hkeys key (by simp)))
  have h := hend _ _ (fun k hk => hk) hstart
  have hgone : ∀ e ∈ (s.retire id).queue, ¬ e.2.Mentions id := by
    intro e he hid
    exact absurd (h.listed e he hid) (List.not_mem_nil)
  refine ⟨⟨h.indexed.sorted, h.indexed.nodup, fun x _ k => ?_⟩, fun e => ⟨fun he =>
    ⟨h.sublist.subset he, hgone e he⟩, fun he => h.kept e he.1 he.2⟩⟩
  by_cases hx : x = id
  · -- the block itself is no longer listed
    have hnone : k ∉ (s.retire id).keysOf x := by
      rw [hx, keysOf]
      rw [show (s.retire id).byBlock.lookup id = none from lookup_eq_none_of_notMem h.unlisted]
      exact List.not_mem_nil
    refine iff_of_false hnone ?_
    rintro ⟨d, hd, hid⟩
    exact hgone _ hd (hx ▸ hid)
  · exact h.indexed.mem_keysOf x hx k

end CandidateSet
end GateFusion
