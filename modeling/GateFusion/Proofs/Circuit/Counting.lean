import GateFusion.Proofs.Circuit.Drain
import GateFusion.Proofs.OrderedMap

/-!
# Counting the links into a block

The execution order keeps a counter for every block and lowers it once for each link to the block.
The counters hold, at every turn, the number of links that draining still sees, and the queue holds
the blocks whose number is zero. So both take the same blocks in the same order, whatever the links
of the graph are.
-/

namespace GateFusion.CircuitGraph
variable {α : Type} {g : CircuitGraph α}

section Age
variable {a b c : BlockId}

lemma older_iff : older a b = true ↔ a.seq < b.seq ∨ (a.seq = b.seq ∧ a.slot < b.slot) := by
  simp [older]

lemma older_trans (h : older a b = true) (h' : older b c = true) : older a c = true := by
  rw [older_iff] at h h' ⊢
  omega

lemma not_older_self : ¬ older a a = true := by simp [older]

lemma older_or_older (h : a ≠ b) : older a b = true ∨ older b a = true := by
  have hne : ¬ (a.seq = b.seq ∧ a.slot = b.slot) := by
    rintro ⟨hseq, hslot⟩
    cases a
    cases b
    simp_all
  rw [older_iff, older_iff]
  omega

/-- Names in order of age. -/
def ByAge (ids : List BlockId) : Prop := ids.Pairwise fun a b => older a b = true

/-- There is one order by age. -/
lemma ByAge.eq_of_perm {xs ys : List BlockId} (hx : ByAge xs) (hy : ByAge ys) (h : xs.Perm ys) :
    xs = ys := by
  refine h.eq_of_pairwise (fun a b _ _ hab hba => ?_) hx hy
  exact absurd (older_trans hab hba) not_older_self

lemma enqueue_perm (id : BlockId) (queue : List BlockId) :
    (enqueue id queue).Perm (id :: queue) := by
  induction queue with
  | nil => exact .refl _
  | cons next rest ih =>
    rw [enqueue]
    split
    · exact .refl _
    · exact (ih.cons next).trans (.swap id next rest)

lemma ByAge.enqueue {id : BlockId} {queue : List BlockId} (h : ByAge queue) (hnew : id ∉ queue) :
    ByAge (enqueue id queue) := by
  induction queue with
  | nil => exact List.pairwise_singleton _ _
  | cons next rest ih =>
    obtain ⟨hnext, hrest⟩ := List.pairwise_cons.mp h
    rw [List.mem_cons, not_or] at hnew
    rw [CircuitGraph.enqueue]
    split
    · rename_i hold
      refine List.pairwise_cons.mpr ⟨fun x hx => ?_, h⟩
      rcases List.mem_cons.mp hx with rfl | hx
      · exact hold
      · exact older_trans hold (hnext x hx)
    · rename_i hyoung
      refine List.pairwise_cons.mpr ⟨fun x hx => ?_, ih hrest hnew.2⟩
      rcases List.mem_cons.mp ((enqueue_perm id rest).mem_iff.mp hx) with rfl | hx
      · exact (older_or_older hnew.1).resolve_left hyoung
      · exact hnext x hx

lemma byAge_ids : ByAge g.ids := by
  have hle : g.ids.Pairwise fun a b => (!older b a) = true := by
    refine List.pairwise_mergeSort (fun a b c hab hbc => ?_) (fun a b => ?_) _
    · simp only [Bool.not_eq_true', ← Bool.not_eq_true, older_iff] at hab hbc ⊢
      omega
    · simp only [Bool.or_eq_true, Bool.not_eq_true', ← Bool.not_eq_true, older_iff]
      omega
  have hne : g.ids.Pairwise (· ≠ ·) :=
    List.Nodup.of_map (·.slot) (map_slot_ids.nodup_iff.mpr nodup_liveSlots)
  refine hle.imp₂ (fun a b hab hab' => ?_) hne
  exact (older_or_older hab').resolve_right (by simpa using hab)

end Age

namespace Pending
variable {p : Pending} {ids : List BlockId} {n : Nat → Nat}

/-- The state of counting while `ids` are left and `n` links into every slot: the blocks without one
are queued, and the counters of the others are right. -/
structure Holds (g : CircuitGraph α) (p : Pending) (ids : List BlockId) (n : Nat → Nat) : Prop where
  nodup : ids.Nodup
  named : ∀ id ∈ ids, g.idAt? id.slot = some id
  byAge : ByAge p.ready
  queued : p.ready.Perm (ids.filter fun id => n id.slot = 0)
  sorted : OrderedMap.Sorted compare p.inDegree
  waits : ∀ id ∈ ids, 0 < n id.slot → OrderedMap.get? compare id.slot p.inDegree = some (n id.slot)
  absent : ∀ slot, 0 < n slot → (∀ id ∈ ids, id.slot ≠ slot) →
    OrderedMap.get? compare slot p.inDegree = none

lemma Holds.perm (h : Holds g p ids n) {ids' : List BlockId} (hp : ids.Perm ids') :
    Holds g p ids' n where
  nodup := hp.nodup_iff.mp h.nodup
  named id hid := h.named id (hp.mem_iff.mpr hid)
  byAge := h.byAge
  queued := h.queued.trans (hp.filter _)
  sorted := h.sorted
  waits id hid := h.waits id (hp.mem_iff.mpr hid)
  absent slot hn hids := h.absent slot hn fun id hid => hids id (hp.mem_iff.mp hid)

lemma Holds.eq_of_slot (h : Holds g p ids n) {x y : BlockId} (hx : x ∈ ids) (hy : y ∈ ids)
    (hslot : x.slot = y.slot) : x = y := by
  have hname := h.named x hx
  rw [hslot, h.named y hy] at hname
  exact (Option.some.inj hname).symm

/-- A block that is not in the queue yet goes where its age puts it. -/
lemma Holds.byAge_enqueue (h : Holds g p ids n) {id : BlockId} (hid : id ∈ ids → n id.slot ≠ 0) :
    ByAge (enqueue id p.ready) := by
  refine h.byAge.enqueue fun hmem => ?_
  obtain ⟨hmem, hzero⟩ := List.mem_filter.mp (h.queued.mem_iff.mp hmem)
  exact hid hmem (of_decide_eq_true hzero)

lemma get?_insert_of_ne {slot slot' left : Nat} (hne : slot' ≠ slot) (m : OrderedMap Nat Nat) :
    OrderedMap.get? compare slot' (OrderedMap.insert compare slot left m) =
      OrderedMap.get? compare slot' m :=
  OrderedMap.get?_upsert_of_ne (fun heq => hne (Std.LawfulEqOrd.eq_of_compare heq)) _ _

/-- Counting the links into another block. -/
lemma Holds.count (h : Holds g p ids n) {id : BlockId} (hname : g.idAt? id.slot = some id)
    (hnew : ∀ x ∈ ids, x.slot ≠ id.slot) (hn : n id.slot = (g.predecessors id.slot).length) :
    Holds g (p.count g id.slot) (id :: ids) n := by
  have hnot : id ∉ ids := fun hid => hnew id hid rfl
  have hnodup : (id :: ids).Nodup := List.nodup_cons.mpr ⟨hnot, h.nodup⟩
  have hnamed : ∀ x ∈ id :: ids, g.idAt? x.slot = some x :=
    List.forall_mem_cons.mpr ⟨hname, h.named⟩
  rw [Pending.count, hname]
  dsimp only
  rw [← hn]
  split
  case isTrue hzero =>
    refine ⟨hnodup, hnamed, h.byAge_enqueue fun hid => absurd hid hnot, ?_, h.sorted,
      List.forall_mem_cons.mpr ⟨fun hpos => absurd hzero hpos.ne', h.waits⟩,
      fun slot hpos hids => ?_⟩
    · rw [List.filter_cons_of_pos (by simpa using hzero)]
      exact (enqueue_perm _ _).trans (h.queued.cons id)
    · exact h.absent slot hpos (List.forall_mem_cons.mp hids).2
  case isFalse hpos =>
    refine ⟨hnodup, hnamed, h.byAge, ?_, h.sorted.insert _ _,
      List.forall_mem_cons.mpr ⟨fun _ => ?_, fun x hx hx' => ?_⟩, fun slot hpos' hids => ?_⟩
    · rw [List.filter_cons_of_neg (by simpa using hpos)]
      exact h.queued
    · exact h.sorted.get?_upsert_self _ _
    · rw [get?_insert_of_ne (hnew x hx)]
      exact h.waits x hx hx'
    · obtain ⟨hne, hids⟩ := List.forall_mem_cons.mp hids
      rw [get?_insert_of_ne (Ne.symm hne)]
      exact h.absent slot hpos' hids

lemma Holds.foldl_count (hn : ∀ slot, n slot = (g.predecessors slot).length) {slots : List Nat}
    (hslots : slots.Nodup) (h : Holds g p ids n) (hnew : ∀ x ∈ ids, x.slot ∉ slots) :
    Holds g (slots.foldl (Pending.count g) p) (slots.filterMap g.idAt? ++ ids) n := by
  induction slots generalizing p ids with
  | nil => exact h
  | cons slot slots ih =>
    obtain ⟨hslot, hrest⟩ := List.nodup_cons.mp hslots
    have hnew' : ∀ x ∈ ids, x.slot ≠ slot ∧ x.slot ∉ slots := by simpa using hnew
    rw [List.foldl_cons]
    cases hname : g.idAt? slot with
    | none =>
      have hcount : p.count g slot = p := by rw [Pending.count, hname]
      rw [List.filterMap_cons_none hname, hcount]
      exact ih hrest h fun x hx => (hnew' x hx).2
    | some id =>
      obtain rfl := slot_of_idAt? hname
      rw [List.filterMap_cons_some hname]
      have hcount := h.count hname (fun x hx => (hnew' x hx).1) (hn _)
      refine (ih hrest hcount
        (List.forall_mem_cons.mpr ⟨hslot, fun x hx => (hnew' x hx).2⟩)).perm ?_
      exact List.perm_middle

/-- When a link into a block is done, the block is queued if it was the last one. -/
lemma Holds.queued_release (h : Holds g p ids n) {id : BlockId} (hid : id ∈ ids)
    (hpos : 0 < n id.slot) : (p.release g id.slot).ready.Perm
      (ids.filter fun x => Function.update n id.slot (n id.slot - 1) x.slot = 0) ∧
        ByAge (p.release g id.slot).ready := by
  have hothers : ∀ x ∈ ids.erase id,
      Function.update n id.slot (n id.slot - 1) x.slot = n x.slot := by
    intro x hx
    obtain ⟨hne, hx⟩ := h.nodup.mem_erase_iff.mp hx
    exact Function.update_of_ne (fun hslot => hne (h.eq_of_slot hx hid hslot)) _ _
  have hsplit := List.perm_cons_erase hid
  have hrest : (ids.erase id).filter (fun x =>
      Function.update n id.slot (n id.slot - 1) x.slot = 0) =
        (ids.erase id).filter fun x => n x.slot = 0 :=
    List.filter_congr fun x hx => by rw [hothers x hx]
  have hready : p.ready.Perm ((ids.erase id).filter fun x => n x.slot = 0) := by
    refine (h.queued.trans (hsplit.filter _)).trans (.of_eq ?_)
    exact List.filter_cons_of_neg (by simpa using hpos.ne')
  rw [release, h.waits id hid hpos, h.named id hid]
  dsimp only
  by_cases hlast : n id.slot - 1 = 0
  · rw [hlast] at hrest ⊢
    refine ⟨?_, h.byAge_enqueue fun _ => hpos.ne'⟩
    refine ((enqueue_perm _ _).trans (hready.cons id)).trans ((hsplit.filter _).trans ?_).symm
    rw [List.filter_cons_of_pos (by simp), hrest]
  · split
    · rename_i heq _
      exact absurd heq hlast
    · refine ⟨hready.trans ((hsplit.filter _).trans ?_).symm, h.byAge⟩
      rw [List.filter_cons_of_neg (by simpa using hlast), hrest]

/-- Counting a link as done lowers the number of links into its target. -/
lemma Holds.release (h : Holds g p ids n) {slot : Nat} (hpos : 0 < n slot) :
    Holds g (p.release g slot) ids (Function.update n slot (n slot - 1)) := by
  by_cases hslot : ∃ id ∈ ids, id.slot = slot
  · obtain ⟨id, hid, rfl⟩ := hslot
    obtain ⟨hqueued, hbyAge⟩ := h.queued_release hid hpos
    have hmap : (p.release g id.slot).inDegree =
        OrderedMap.insert compare id.slot (n id.slot - 1) p.inDegree := by
      rw [Pending.release, h.waits id hid hpos]
    refine ⟨h.nodup, h.named, hbyAge, hqueued, hmap ▸ h.sorted.insert _ _, fun x hx hx' => ?_,
      fun slot hslot hids => ?_⟩
    · rw [hmap]
      by_cases hne : x.slot = id.slot
      · rw [hne, Function.update_self]
        exact h.sorted.get?_upsert_self _ _
      · rw [Function.update_of_ne hne] at hx' ⊢
        rw [get?_insert_of_ne hne]
        exact h.waits x hx hx'
    · have hne : slot ≠ id.slot := (hids id hid).symm
      rw [Function.update_of_ne hne] at hslot
      rw [hmap, get?_insert_of_ne hne]
      exact h.absent slot hslot hids
  · -- a slot without a block has no counter
    have hids : ∀ id ∈ ids, id.slot ≠ slot := fun id hid heq => hslot ⟨id, hid, heq⟩
    have hsame : ∀ id ∈ ids, Function.update n slot (n slot - 1) id.slot = n id.slot :=
      fun id hid => Function.update_of_ne (hids id hid) _ _
    have hrelease : p.release g slot = p := by rw [Pending.release, h.absent slot hpos hids]
    rw [hrelease]
    refine ⟨h.nodup, h.named, h.byAge, ?_, h.sorted, fun id hid hn => ?_, fun slot' hn hids' => ?_⟩
    · refine h.queued.trans (.of_eq (List.filter_congr fun id hid => ?_))
      rw [hsame id hid]
    · rw [hsame id hid] at hn ⊢
      exact h.waits id hid hn
    · by_cases hne : slot' = slot
      · exact hne ▸ h.absent slot hpos hids
      · rw [Function.update_of_ne hne] at hn
        exact h.absent slot' hn hids'

/-- Counting several links as done, as many of them into a slot as it appears in the list. -/
lemma Holds.foldl_release {targets : List Nat} (h : Holds g p ids n)
    (hn : ∀ slot, targets.count slot ≤ n slot) :
    Holds g (targets.foldl (Pending.release g) p) ids fun slot => n slot - targets.count slot := by
  induction targets generalizing p n with
  | nil => exact h
  | cons slot targets ih =>
    have hpos : 0 < n slot := by
      have hslot := hn slot
      rw [List.count_cons_self] at hslot
      omega
    have hstep : ∀ s, Function.update n slot (n slot - 1) s - targets.count s =
        n s - (slot :: targets).count s ∧
          targets.count s ≤ Function.update n slot (n slot - 1) s := by
      intro s
      have hs := hn s
      by_cases hne : s = slot
      · subst hne
        rw [List.count_cons_self] at hs ⊢
        rw [Function.update_self]
        omega
      · rw [List.count_cons_of_ne (Ne.symm hne)] at hs ⊢
        rw [Function.update_of_ne hne]
        omega
    have hrest := ih (h.release hpos) fun s => (hstep s).2
    rwa [funext fun s => (hstep s).1] at hrest

end Pending

/-- The number of links into a slot. -/
def incoming (links : List Link) (slot : Nat) : Nat := links.countP fun l => l.target = slot

section Take
variable {ids : List BlockId} {links : List Link} {p : Pending}

lemma ready?_eq_head? (hids : ByAge ids) (h : Pending.Holds g p ids (incoming links)) :
    ready? ids links = p.ready.head? := by
  have hready : p.ready = ids.filter fun id => incoming links id.slot = 0 :=
    h.byAge.eq_of_perm (hids.filter _) h.queued
  rw [hready, List.head?_filter, ready?]
  congr 1
  funext id
  rw [Bool.eq_iff_iff]
  simp [incoming, List.countP_eq_zero]

/-- Once a block has been taken, the number of links is that without the links from it. -/
lemma incoming_withoutSource (id : BlockId) (slot : Nat) : incoming (withoutSource id links) slot +
    ((links.filter fun l => l.source = id.slot).map (·.target)).count slot =
      incoming links slot := by
  have hcount : ((links.filter fun l => l.source = id.slot).map (·.target)).count slot =
      (links.filter fun l => l.source = id.slot).countP fun l => l.target = slot := by
    rw [List.count, List.countP_map]
    exact List.countP_congr fun l _ => by simp
  rw [hcount, incoming, incoming, withoutSource,
    List.countP_eq_countP_filter_add links _ fun l => l.source = id.slot, Nat.add_comm]
  simp

/-- Taking the first block of the queue and counting its links as done. -/
lemma Pending.Holds.take {id : BlockId} {rest : List BlockId}
    (h : Pending.Holds g p ids (incoming links)) (hready : p.ready = id :: rest)
    (hlinks : links.filter (fun l => l.source = id.slot) =
      g.links.filter fun l => l.source = id.slot) :
    Pending.Holds g ((g.successors id.slot).foldl (Pending.release g) ⟨rest, p.inDegree⟩)
      (ids.erase id) (incoming (withoutSource id links)) := by
  have hmem : id ∈ ids.filter fun id => incoming links id.slot = 0 :=
    h.queued.mem_iff.mp (by simp [hready])
  obtain ⟨hid, hzero⟩ := List.mem_filter.mp hmem
  have htaken : Pending.Holds g ⟨rest, p.inDegree⟩ (ids.erase id) (incoming links) := by
    have hqueued := h.queued.trans ((List.perm_cons_erase hid).filter _)
    have hbyAge := h.byAge
    rw [List.filter_cons, if_pos hzero, hready] at hqueued
    rw [hready] at hbyAge
    refine ⟨h.nodup.erase id, fun x hx => h.named x (List.mem_of_mem_erase hx),
      (List.pairwise_cons.mp hbyAge).2, hqueued.cons_inv, h.sorted,
      fun x hx => h.waits x (List.mem_of_mem_erase hx), fun slot hpos hids => ?_⟩
    refine h.absent slot hpos fun x hx heq => ?_
    by_cases hne : x = id
    · rw [← heq, hne] at hpos
      exact hpos.ne' (of_decide_eq_true hzero)
    · exact hids x ((List.mem_erase_of_ne hne).mpr hx) heq
  have hcount : ∀ slot, incoming (withoutSource id links) slot +
      (g.successors id.slot).count slot = incoming links slot := by
    intro slot
    rw [successors, ← hlinks]
    exact incoming_withoutSource id slot
  have hreleased := htaken.foldl_release fun slot => (hcount slot).le.trans' (Nat.le_add_left _ _)
  have hleft : (fun slot => incoming links slot - (g.successors id.slot).count slot) =
      incoming (withoutSource id links) := by
    funext slot
    exact Nat.sub_eq_of_eq_add (hcount slot).symm
  rwa [hleft] at hreleased

/-- Taking blocks by counters is draining. -/
lemma take_eq_drain {fuel : Nat} (hfuel : ids.length ≤ fuel) (hids : ByAge ids)
    (h : Pending.Holds g p ids (incoming links))
    (hlinks : ∀ id ∈ ids, links.filter (fun l => l.source = id.slot) =
      g.links.filter fun l => l.source = id.slot) :
    Pending.take g fuel p = drain ids links := by
  induction fuel generalizing ids links p with
  | zero =>
    rw [List.length_eq_zero_iff.mp (Nat.le_zero.mp hfuel), drain_of_none rfl]
    rfl
  | succ fuel ih =>
    have hhead := ready?_eq_head? hids h
    rw [Pending.take]
    cases hready : p.ready with
    | nil =>
      rw [hready] at hhead
      rw [drain_of_none hhead]
    | cons id rest =>
      rw [hready] at hhead
      have hid := (of_ready?_eq_some hhead).1
      have hlen := List.length_erase_of_mem hid
      rw [drain_of_some hhead]
      refine congrArg (id :: ·) (ih (by omega) (hids.sublist List.erase_sublist)
        (h.take hready (hlinks id hid)) fun x hx => ?_)
      -- no other block loses a link
      obtain ⟨hne, hx⟩ := h.nodup.mem_erase_iff.mp hx
      rw [← hlinks x hx, withoutSource, List.filter_filter]
      refine List.filter_congr fun l _ => ?_
      by_cases hsource : l.source = x.slot
      · have hslot : x.slot ≠ id.slot := fun heq => hne (h.eq_of_slot hx hid heq)
        simp [hsource, hslot]
      · simp [hsource]

end Take

/-- The execution order drains the graph. -/
theorem order_eq_drain : g.order = drain g.ids g.links := by
  have hempty : Pending.Holds g ⟨[], []⟩ [] (incoming g.links) :=
    ⟨.nil, by simp, .nil, .refl _, .nil, by simp, fun _ _ _ => rfl⟩
  have hpredecessors : ∀ slot, incoming g.links slot = (g.predecessors slot).length := by
    intro slot
    rw [incoming, predecessors, List.length_map, List.countP_eq_length_filter]
  have hstart := hempty.foldl_count hpredecessors (nodup_liveSlots (g := g)) (by simp)
  have hperm : (g.liveSlots.filterMap g.idAt? ++ []).Perm g.ids := by
    rw [List.append_nil]
    exact (List.mergeSort_perm _ _).symm
  exact take_eq_drain length_ids.le byAge_ids (hstart.perm hperm) fun _ _ => rfl

end GateFusion.CircuitGraph
