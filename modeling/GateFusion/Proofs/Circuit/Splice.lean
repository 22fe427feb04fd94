import GateFusion.Proofs.Circuit.AddBlock

/-!
# Splicing a block into the wires

On every wire that held the earlier or the later block of a merge, the pair, or the one of them that
stood there, gives way to the new block.
-/

namespace GateFusion

/-- Slot `m` stands for the slots `e` and `l`. -/
def renamed (e l m s : Nat) : Nat :=
  if s = e ∨ s = l then m else s

/-- A wire after slot `m` took the place of `e` and `l`. -/
def mergeWire (e l m : Nat) (w : List Nat) : List Nat :=
  (if e ∈ w then w.erase l else w).map (renamed e l m)

/-- A wire holds `e` and `l`, or only one of the two, between `front` and `back`. -/
structure HoldsPair (e l : Nat) (w front back : List Nat) : Prop where
  split : w = front ++ e :: l :: back ∨ w = front ++ e :: back ∨ w = front ++ l :: back
  left : ∀ s ∈ front, s ≠ e ∧ s ≠ l
  right : ∀ s ∈ back, s ≠ e ∧ s ≠ l

variable {e l m : Nat} {w front back : List Nat}

lemma map_renamed_of_notMem (h : ∀ s ∈ w, s ≠ e ∧ s ≠ l) : w.map (renamed e l m) = w := by
  refine (List.map_congr_left fun s hs => ?_).trans (List.map_id w)
  rw [renamed, if_neg (not_or.mpr (h s hs)), id]

lemma mergeWire_of_notMem (he : e ∉ w) (hl : l ∉ w) : mergeWire e l m w = w := by
  rw [mergeWire, if_neg he, map_renamed_of_notMem]
  rintro s hs
  exact ⟨fun h => he (h ▸ hs), fun h => hl (h ▸ hs)⟩

lemma HoldsPair.mergeWire_eq (h : HoldsPair e l w front back) (hne : e ≠ l) :
    mergeWire e l m w = front ++ m :: back := by
  have hfront := map_renamed_of_notMem (m := m) h.left
  have hback := map_renamed_of_notMem (m := m) h.right
  have hl : l ∉ front := fun hm => (h.left l hm).2 rfl
  have he : e ∉ front := fun hm => (h.left e hm).1 rfl
  have he' : e ∉ back := fun hm => (h.right e hm).1 rfl
  have hl' : l ∉ back := fun hm => (h.right l hm).2 rfl
  rcases h.split with rfl | rfl | rfl
  · rw [mergeWire, if_pos (by simp), List.erase_append_right _ hl, List.erase_cons_tail (by simpa),
      List.erase_cons_head, List.map_append, List.map_cons, hfront, hback, renamed,
      if_pos (Or.inl rfl)]
  · rw [mergeWire, if_pos (by simp), List.erase_of_not_mem (by simp [hl, hl', hne.symm]),
      List.map_append, List.map_cons, hfront, hback, renamed, if_pos (Or.inl rfl)]
  · rw [mergeWire, if_neg (by simp [he, he', hne]), List.map_append, List.map_cons, hfront, hback,
      renamed, if_pos (Or.inr rfl)]

/-- What stands between the two parts of a wire. -/
lemma HoldsPair.eq_of_mem (h : HoldsPair e l w front back) (hne : e ≠ l) :
    w = front ++ ((if e ∈ w then [e] else []) ++ (if l ∈ w then [l] else []) ++ back) := by
  have hl : l ∉ front ∧ l ∉ back := ⟨fun hm => (h.left l hm).2 rfl, fun hm => (h.right l hm).2 rfl⟩
  have he : e ∉ front ∧ e ∉ back := ⟨fun hm => (h.left e hm).1 rfl, fun hm => (h.right e hm).1 rfl⟩
  rcases h.split with rfl | rfl | rfl
  · rw [if_pos (by simp), if_pos (by simp)]
    rfl
  · rw [if_pos (by simp), if_neg (by simp [hl, hne.symm])]
    rfl
  · rw [if_neg (by simp [he, hne]), if_pos (by simp)]
    rfl

lemma HoldsPair.mem_iff (h : HoldsPair e l w front back) {s : Nat} (he : s ≠ e) (hl : s ≠ l) :
    s ∈ w ↔ s ∈ front ∨ s ∈ back := by
  rcases h.split with rfl | rfl | rfl <;> simp [he, hl]

lemma HoldsPair.sublist (h : HoldsPair e l w front back) : List.Sublist (front ++ back) w := by
  rcases h.split with rfl | rfl | rfl
  · exact ((List.sublist_cons_self _ _).trans (List.sublist_cons_self _ _)).append_left front
  · exact (List.sublist_cons_self _ _).append_left front
  · exact (List.sublist_cons_self _ _).append_left front

lemma HoldsPair.head? (h : HoldsPair e l w front back) (hne : front ≠ []) :
    w.head? = front.head? := by
  obtain ⟨x, front, rfl⟩ := List.exists_cons_of_ne_nil hne
  rcases h.split with rfl | rfl | rfl <;> rfl

lemma HoldsPair.getLast? (h : HoldsPair e l w front back) (hne : back ≠ []) :
    w.getLast? = back.getLast? := by
  obtain ⟨x, back, rfl⟩ := List.exists_cons_of_ne_nil hne
  rcases h.split with rfl | rfl | rfl <;> simp [List.getLast?_cons]

/-- Links between the other slots are the same before and after. -/
lemma HoldsPair.follows_iff (h : HoldsPair e l w front back) (a b : Nat) :
    (Follows w a b ∧ (a ≠ e ∧ a ≠ l) ∧ b ≠ e ∧ b ≠ l) ↔ Follows front a b ∨ Follows back a b := by
  constructor
  · rintro ⟨hf, ⟨hae, hal⟩, hbe, hbl⟩
    rcases h.split with rfl | rfl | rfl <;>
      simp only [follows_append, follows_cons, List.head?_cons, Option.some.injEq] at hf <;>
      grind
  · intro hf
    have hab : (a ∈ front ∧ b ∈ front) ∨ (a ∈ back ∧ b ∈ back) :=
      hf.imp (fun h => ⟨h.mem_left, h.mem_right⟩) fun h => ⟨h.mem_left, h.mem_right⟩
    have hne : (a ≠ e ∧ a ≠ l) ∧ b ≠ e ∧ b ≠ l := by
      rcases hab with ⟨ha, hb⟩ | ⟨ha, hb⟩
      · exact ⟨h.left a ha, h.left b hb⟩
      · exact ⟨h.right a ha, h.right b hb⟩
    refine ⟨?_, hne⟩
    rcases h.split with rfl | rfl | rfl <;>
      simp only [follows_append, follows_cons] <;> tauto

/-- A link of the wire is one of the merged wire, unless it joins the pair. -/
lemma HoldsPair.follows_renamed (h : HoldsPair e l w front back) {a b : Nat} (hf : Follows w a b) :
    renamed e l m a = renamed e l m b ∨
      Follows (front ++ m :: back) (renamed e l m a) (renamed e l m b) := by
  have hleft : ∀ s ∈ front, renamed e l m s = s := fun s hs => if_neg (not_or.mpr (h.left s hs))
  have hright : ∀ s ∈ back, renamed e l m s = s := fun s hs => if_neg (not_or.mpr (h.right s hs))
  have he : renamed e l m e = m := if_pos (Or.inl rfl)
  have hl : renamed e l m l = m := if_pos (Or.inr rfl)
  rcases h.split with rfl | rfl | rfl <;>
    simp only [follows_append, follows_cons, List.head?_cons, Option.some.injEq] at hf ⊢ <;>
    grind [Follows.mem_left, Follows.mem_right, List.mem_of_getLast?, List.mem_of_head?]

lemma holdsPair_of_both (hn : w.Nodup) (h : w = front ++ e :: l :: back) :
    HoldsPair e l w front back := by
  subst h
  refine ⟨Or.inl rfl, fun s hs => ?_, fun s hs => ?_⟩ <;>
    · simp only [List.nodup_append, List.nodup_cons] at hn
      grind

lemma holdsPair_of_left (hn : w.Nodup) (h : w = front ++ e :: back) (hl : l ∉ w) :
    HoldsPair e l w front back := by
  subst h
  refine ⟨Or.inr (Or.inl rfl), fun s hs => ?_, fun s hs => ?_⟩ <;>
    · simp only [List.nodup_append, List.nodup_cons] at hn
      grind

lemma holdsPair_of_right (hn : w.Nodup) (he : e ∉ w) (h : w = front ++ l :: back) :
    HoldsPair e l w front back := by
  subst h
  refine ⟨Or.inr (Or.inr rfl), fun s hs => ?_, fun s hs => ?_⟩ <;>
    · simp only [List.nodup_append, List.nodup_cons] at hn
      grind

end GateFusion
