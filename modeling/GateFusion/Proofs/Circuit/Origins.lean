import GateFusion.Proofs.Circuit.Fusable
import GateFusion.Proofs.Circuit.Listing
import GateFusion.Proofs.Circuit.Reachable

/-!
# Origins

The accepted gates are numbered in the order of their acceptance, and every block knows the numbers
of the gates that were merged into it. No number is lost, doubled or moved: on the wire of a qubit,
the blocks hold the gates on that qubit in the order in which they were added. A merge keeps to this
because the two blocks stand next to each other on every wire they share.
-/

namespace GateFusion

/-- Sorting two ascending lists of numbers together leaves alone what already is in order. -/
lemma filter_mergeSort {xs ys : List Nat} {p : Nat → Bool}
    (h : (xs.filter p ++ ys.filter p).Pairwise (· < ·)) :
    (xs ++ ys).mergeSort.filter p = xs.filter p ++ ys.filter p := by
  have hperm : ((xs ++ ys).mergeSort.filter p).Perm (xs.filter p ++ ys.filter p) := by
    rw [← List.filter_append]
    exact (List.mergeSort_perm _ _).filter p
  have hsorted : (xs ++ ys).mergeSort.Pairwise (· ≤ ·) := List.pairwise_mergeSort' (· ≤ ·) _
  exact hperm.eq_of_pairwise' (hsorted.filter p) (h.imp Nat.le_of_lt)

namespace CircuitGraph
variable {α : Type} {g g' : CircuitGraph α} {w : Qubit → List Nat} {gates : List (Gate α)}

/-- The numbers of the gates in the block of a slot. -/
def originsAt (g : CircuitGraph α) (slot : Nat) : List Nat :=
  match g.blockAt? slot with
  | some b => b.origins
  | none => []

/-- Whether the gate with a number acts on a qubit. -/
def numberActs (gates : List (Gate α)) (q : Qubit) (i : Nat) : Bool :=
  match gates[i]? with
  | some gate => gate.actsOn q
  | none => false

lemma numberActs_eq_true {q : Qubit} {i : Nat} :
    numberActs gates q i = true ↔ ∃ gate, gates[i]? = some gate ∧ q ∈ gate.qubits := by
  unfold numberActs
  cases gates[i]? with
  | none => simp
  | some gate => simp [Gate.actsOn]

lemma mem_originsAt {s i : Nat} :
    i ∈ g.originsAt s ↔ ∃ b, g.blockAt? s = some b ∧ i ∈ b.origins := by
  unfold originsAt
  cases g.blockAt? s with
  | none => simp
  | some b => simp

/-- Slots hold the numbers of all accepted gates, each number once, and act where the gates act. On
every wire the numbers of the gates on it ascend. -/
structure Traced (g : CircuitGraph α) (w : Qubit → List Nat) (gates : List (Gate α)) : Prop where
  count : g.nextOrigin = gates.length
  lt_iff : ∀ i, i < gates.length ↔ ∃ s, i ∈ g.originsAt s
  inj : ∀ s t i, i ∈ g.originsAt s → i ∈ g.originsAt t → s = t
  ascending : ∀ s, (g.originsAt s).Pairwise (· < ·)
  acts : ∀ s q, g.touches s q = true ↔ ∃ i ∈ g.originsAt s, numberActs gates q i = true
  wire : ∀ q, ((w q).flatMap g.originsAt).filter (numberActs gates q) =
    (List.range gates.length).filter (numberActs gates q)

lemma Traced.ascending_mergeSort (h : Traced g w gates) {s t : Nat} (hne : s ≠ t) :
    (g.originsAt s ++ g.originsAt t).mergeSort.Pairwise (· < ·) := by
  have hnodup : (g.originsAt s ++ g.originsAt t).mergeSort.Nodup := by
    rw [(List.mergeSort_perm _ _).nodup_iff, List.nodup_append]
    refine ⟨(h.ascending s).nodup, (h.ascending t).nodup, fun i hi j hj => ?_⟩
    rintro rfl
    exact hne (h.inj s t i hi hj)
  have hsorted := List.pairwise_mergeSort' (· ≤ ·) (g.originsAt s ++ g.originsAt t)
  exact (hsorted.and hnodup).imp fun hij => lt_of_le_of_ne hij.1 hij.2

lemma Traced.start {n : Nat} (h : CircuitGraph.empty n = .ok g) : Traced g (fun _ => []) [] := by
  obtain ⟨-, rfl⟩ := empty_eq_ok h
  constructor <;> simp [originsAt, blockAt?, touches]

section Add
variable {gate : Gate α} {id : BlockId}

lemma numberActs_append_of_lt (q : Qubit) {i : Nat} (hi : i < gates.length) :
    numberActs (gates ++ [gate]) q i = numberActs gates q i := by
  rw [numberActs, numberActs, List.getElem?_append_left hi]

lemma numberActs_length (q : Qubit) :
    numberActs (gates ++ [gate]) q gates.length = gate.actsOn q := by
  rw [numberActs, List.getElem?_concat_length]

variable (hs : Sound g w) (hgate : gate.WellFormed) (hadd : g.addBlock gate = .ok (id, g'))
include hs hgate hadd

lemma originsAt_addBlock (s : Nat) :
    g'.originsAt s = if s = id.slot then [g.nextOrigin] else g.originsAt s := by
  obtain ⟨-, -, -, hat, -⟩ := hs.addBlock hgate hadd
  rw [originsAt, hat]
  by_cases hslot : s = id.slot
  · rw [if_pos hslot, if_pos hslot]
  · rw [if_neg hslot, if_neg hslot, originsAt]

lemma touches_addBlock (s : Nat) (q : Qubit) :
    g'.touches s q = if s = id.slot then gate.actsOn q else g.touches s q := by
  obtain ⟨-, -, -, hat, -⟩ := hs.addBlock hgate hadd
  rw [touches, hat]
  by_cases hslot : s = id.slot
  · rw [if_pos hslot, if_pos hslot]
  · rw [if_neg hslot, if_neg hslot, touches]

lemma ne_slot_of_addBlock {s : Nat} {b : Block α} (hb : g.blockAt? s = some b) : s ≠ id.slot := by
  obtain ⟨-, -, hempty, -⟩ := hs.addBlock hgate hadd
  rintro rfl
  rw [hempty] at hb
  nomatch hb

/-- A wire shows the numbers that it showed before, and the new one if the gate acts on it. -/
lemma Traced.wire_add (h : Traced g w gates) (q : Qubit) :
    ((if q ∈ gate.qubits then w q ++ [id.slot] else w q).flatMap g'.originsAt).filter
        (numberActs (gates ++ [gate]) q) =
      (List.range (gates ++ [gate]).length).filter (numberActs (gates ++ [gate]) q) := by
  have horigins := originsAt_addBlock hs hgate hadd
  have hslots : (w q).flatMap g'.originsAt = (w q).flatMap g.originsAt := by
    refine List.flatMap_congr fun s hmem => ?_
    obtain ⟨b, hb, -⟩ := (hs.wired.mem_iff q s).mp hmem
    rw [horigins, if_neg (ne_slot_of_addBlock hs hgate hadd hb)]
  have hwire : ((w q).flatMap g'.originsAt).filter (numberActs (gates ++ [gate]) q) =
      (List.range gates.length).filter (numberActs (gates ++ [gate]) q) := by
    rw [hslots, List.filter_congr (q := numberActs gates q), h.wire]
    · refine List.filter_congr fun i hi => ?_
      exact (numberActs_append_of_lt q (List.mem_range.mp hi)).symm
    · intro i hi
      obtain ⟨s, -, hi⟩ := List.mem_flatMap.mp hi
      exact numberActs_append_of_lt q ((h.lt_iff i).mpr ⟨s, hi⟩)
  rw [List.length_append, List.length_singleton, List.range_succ, List.filter_append, ← hwire]
  by_cases hq : q ∈ gate.qubits
  · simp [hq, horigins, h.count]
  · simp [hq, numberActs_length, Gate.actsOn]

/-- An accepted gate takes the next number. -/
lemma Traced.add (h : Traced g w gates) :
    Traced g' (fun q => if q ∈ gate.qubits then w q ++ [id.slot] else w q) (gates ++ [gate]) := by
  have horigins := originsAt_addBlock hs hgate hadd
  rw [h.count] at horigins
  have hlt : ∀ {s i}, i ∈ g.originsAt s → i < gates.length := fun hi => (h.lt_iff _).mpr ⟨_, hi⟩
  constructor
  case count =>
    obtain ⟨-, -, -, -, -, -, hnext⟩ := hs.addBlock hgate hadd
    rw [hnext, h.count, List.length_append, List.length_singleton]
  case lt_iff =>
    intro i
    rw [List.length_append, List.length_singleton, Nat.lt_succ_iff_lt_or_eq, h.lt_iff]
    constructor
    · rintro (⟨s, hi⟩ | rfl)
      · obtain ⟨b, hb, -⟩ := mem_originsAt.mp hi
        exact ⟨s, by rwa [horigins, if_neg (ne_slot_of_addBlock hs hgate hadd hb)]⟩
      · exact ⟨id.slot, by simp [horigins]⟩
    · rintro ⟨s, hi⟩
      rw [horigins] at hi
      split at hi
      · exact Or.inr (List.mem_singleton.mp hi)
      · exact Or.inl ⟨s, hi⟩
  case inj =>
    intro s t i hi hj
    rw [horigins] at hi hj
    split at hi <;> split at hj
    · simp_all
    · exact absurd (List.mem_singleton.mp hi) (hlt hj).ne
    · exact absurd (List.mem_singleton.mp hj) (hlt hi).ne
    · exact h.inj s t i hi hj
  case ascending =>
    intro s
    rw [horigins]
    split
    · exact List.pairwise_singleton _ _
    · exact h.ascending s
  case acts =>
    intro s q
    rw [horigins, touches_addBlock hs hgate hadd]
    split
    · simp [numberActs_length]
    · rw [h.acts]
      refine exists_congr fun i => and_congr_right fun hi => ?_
      rw [numberActs_append_of_lt q (hlt hi)]
  case wire =>
    intro q
    exact h.wire_add hs hgate hadd q

end Add

section Merged
variable {e l id : BlockId} {first second : Block α} {fused : Gate α}
  (hm : Mergeable g w e l first second) (hg' : Merged g w e l first second fused id g')
include hm hg'

/-- What a slot has after a merge, the slots that it stands for had before. -/
lemma Merged.exists_block_iff {P : Block α → Prop}
    (hnew : ∀ rank, P ⟨fused, g.nextSeq, rank, (first.origins ++ second.origins).mergeSort⟩ ↔
      P first ∨ P second)
    (hold : ∀ b rank, P { b with rank := rank } ↔ P b) (t : Nat) :
    (∃ b, g'.blockAt? t = some b ∧ P b) ↔
      ∃ s, renamed e.slot l.slot id.slot s = t ∧ ∃ b, g.blockAt? s = some b ∧ P b := by
  obtain ⟨rank, hat⟩ := hg'.blockAt
  have hfirst := (block?_eq_some.mp hm.earlier).1
  have hsecond := (block?_eq_some.mp hm.later).1
  constructor
  · rintro ⟨b, hb, hP⟩
    rw [hat] at hb
    split at hb
    · rename_i ht
      obtain rfl := Option.some.inj hb
      rcases (hnew _).mp hP with hP | hP
      · exact ⟨e.slot, by simp [renamed, ht], first, hfirst, hP⟩
      · exact ⟨l.slot, by simp [renamed, ht], second, hsecond, hP⟩
    · split at hb
      · simp at hb
      · rename_i hpair
        obtain ⟨c, hc, rfl⟩ := Option.map_eq_some_iff.mp hb
        exact ⟨t, if_neg hpair, c, hc, (hold c _).mp hP⟩
  · rintro ⟨s, rfl, b, hb, hP⟩
    by_cases hpair : s = e.slot ∨ s = l.slot
    · have hP' : P first ∨ P second := by
        rcases hpair with rfl | rfl
        · exact Or.inl (Option.some.inj (hb.symm.trans hfirst) ▸ hP)
        · exact Or.inr (Option.some.inj (hb.symm.trans hsecond) ▸ hP)
      rw [renamed, if_pos hpair, hat, if_pos rfl]
      exact ⟨_, rfl, (hnew _).mpr hP'⟩
    · have hne : s ≠ id.slot := by
        rintro rfl
        rcases hg'.fresh with h | h | h
        · exact hpair (Or.inl h)
        · exact hpair (Or.inr h)
        · simp [h] at hb
      rw [renamed, if_neg hpair, hat, if_neg hne, if_neg hpair, hb]
      exact ⟨_, rfl, (hold b _).mpr hP⟩

lemma Merged.mem_originsAt {t i : Nat} : i ∈ g'.originsAt t ↔
    ∃ s, renamed e.slot l.slot id.slot s = t ∧ i ∈ g.originsAt s := by
  simp only [CircuitGraph.mem_originsAt]
  refine hg'.exists_block_iff hm (fun rank => ?_) (fun b rank => Iff.rfl) t
  rw [List.mem_mergeSort, List.mem_append]

lemma Merged.touches_iff (hf : Fuses first second fused) {t : Nat} {q : Qubit} :
    g'.touches t q = true ↔ ∃ s, renamed e.slot l.slot id.slot s = t ∧ g.touches s q = true := by
  simp only [touches_eq_true]
  exact hg'.exists_block_iff hm (fun rank => hf.mem_iff q) (fun b rank => Iff.rfl) t

omit hm in
lemma Merged.originsAt_kept {s : Nat} (hpair : s ≠ e.slot ∧ s ≠ l.slot) (hid : s ≠ id.slot) :
    g'.originsAt s = g.originsAt s := by
  obtain ⟨rank, hat⟩ := hg'.blockAt
  rw [originsAt, originsAt, hat, if_neg hid, if_neg (not_or.mpr hpair)]
  cases g.blockAt? s with
  | none => rfl
  | some b => rfl

omit hm in
/-- Slots outside the pair keep their numbers. -/
lemma Merged.flatMap_originsAt {slots : List Nat} (hslots : ∀ s ∈ slots, s ≠ e.slot ∧ s ≠ l.slot)
    (hid : id.slot ∉ slots) : slots.flatMap g'.originsAt = slots.flatMap g.originsAt :=
  List.flatMap_congr fun s hs => hg'.originsAt_kept (hslots s hs) (ne_of_mem_of_not_mem hs hid)

lemma Merged.originsAt_new :
    g'.originsAt id.slot = (g.originsAt e.slot ++ g.originsAt l.slot).mergeSort := by
  obtain ⟨rank, hat⟩ := hg'.blockAt
  rw [originsAt, originsAt, originsAt, hat, if_pos rfl, (block?_eq_some.mp hm.earlier).1,
    (block?_eq_some.mp hm.later).1]

/-- A wire that the new block is spliced into shows the same numbers as before. -/
lemma Traced.wire_merge (h : Traced g w gates) (hw : Wired g w) (q : Qubit) :
    ((mergeWire e.slot l.slot id.slot (w q)).flatMap g'.originsAt).filter (numberActs gates q) =
      (List.range gates.length).filter (numberActs gates q) := by
  by_cases hq : q ∈ unionInOrder first.gate second.gate
  · obtain ⟨front, back, hp, -, -, heq, hfront, hback⟩ := hm.wire_of_mem hw hg'.fresh hq
    -- a block that is not on the wire holds no gate on the qubit
    have hpart : ∀ s, ((if s ∈ w q then [s] else []).flatMap g.originsAt).filter
        (numberActs gates q) = (g.originsAt s).filter (numberActs gates q) := by
      intro s
      by_cases hs : s ∈ w q
      · rw [if_pos hs, List.flatMap_singleton]
      · rw [if_neg hs, List.flatMap_nil, List.filter_nil, eq_comm, List.filter_eq_nil_iff]
        intro i hi hact
        obtain ⟨b, hb, hacts⟩ := touches_eq_true.mp ((h.acts s q).mpr ⟨i, hi, hact⟩)
        exact hs (hw.mem_of_acts hb hacts)
    have hwhole := (congrArg (fun slots => (slots.flatMap g.originsAt).filter (numberActs gates q))
      (hp.eq_of_mem (hm.ne hw))).symm.trans (h.wire q)
    simp only [List.flatMap_append, List.filter_append, hpart] at hwhole
    have hascending : ((List.range gates.length).filter (numberActs gates q)).Pairwise (· < ·) :=
      List.pairwise_lt_range.filter _
    rw [← hwhole] at hascending ⊢
    have hmiddle := (List.pairwise_append.mp (List.pairwise_append.mp hascending).2.1).1
    rw [heq, List.flatMap_append, List.flatMap_cons, List.filter_append, List.filter_append,
      hg'.originsAt_new hm, filter_mergeSort hmiddle, hg'.flatMap_originsAt hp.left hfront,
      hg'.flatMap_originsAt hp.right hback]
  · obtain ⟨⟨he, hl⟩, heq⟩ := hm.wire_of_notMem (m := id.slot) hw hq
    have hid : id.slot ∉ w q := by
      intro hmem
      obtain ⟨b, hb, -⟩ := (hw.mem_iff q _).mp hmem
      rcases hg'.fresh with hf | hf | hf
      · exact he (hf ▸ hmem)
      · exact hl (hf ▸ hmem)
      · simp [hf] at hb
    rw [heq, hg'.flatMap_originsAt (fun s hs => ⟨ne_of_mem_of_not_mem hs he,
      ne_of_mem_of_not_mem hs hl⟩) hid, h.wire]

/-- A merge hands the numbers of both blocks to the new one. -/
lemma Traced.merge (h : Traced g w gates) (hw : Wired g w) (hf : Fuses first second fused) :
    Traced g' (fun q => mergeWire e.slot l.slot id.slot (w q)) gates := by
  constructor
  case count => rw [hg'.nextOrigin, h.count]
  case lt_iff =>
    intro i
    rw [h.lt_iff]
    simp only [hg'.mem_originsAt hm]
    constructor
    · rintro ⟨s, hi⟩
      exact ⟨_, s, rfl, hi⟩
    · rintro ⟨_, s, -, hi⟩
      exact ⟨s, hi⟩
  case inj =>
    intro s t i hi hj
    obtain ⟨s', rfl, hi'⟩ := (hg'.mem_originsAt hm).mp hi
    obtain ⟨t', rfl, hj'⟩ := (hg'.mem_originsAt hm).mp hj
    rw [h.inj s' t' i hi' hj']
  case ascending =>
    intro s
    by_cases hs : s = id.slot
    · rw [hs, hg'.originsAt_new hm]
      exact h.ascending_mergeSort (hm.ne hw)
    · by_cases hpair : s = e.slot ∨ s = l.slot
      · obtain ⟨rank, hat⟩ := hg'.blockAt
        rw [originsAt, hat, if_neg hs, if_pos hpair]
        exact List.Pairwise.nil
      · rw [hg'.originsAt_kept (not_or.mp hpair) hs]
        exact h.ascending s
  case acts =>
    intro s q
    rw [hg'.touches_iff hm hf]
    simp only [hg'.mem_originsAt hm, h.acts]
    constructor
    · rintro ⟨s', rfl, i, hi, hact⟩
      exact ⟨i, ⟨s', rfl, hi⟩, hact⟩
    · rintro ⟨i, ⟨s', rfl, hi⟩, hact⟩
      exact ⟨s', rfl, i, hi, hact⟩
  case wire =>
    intro q
    exact h.wire_merge hm hg' hw q

end Merged

lemma Traced.perform (h : Traced g w gates) (hs : Sound g w) (c : Call α) :
    ∃ w', Sound (g.perform c) w' ∧ Traced (g.perform c) w' (gates ++ g.admitted c) := by
  rcases hs.perform_cases c with ⟨hg', hnone⟩ | ⟨gate, id, hgate, hadd, hone⟩ |
    ⟨e, l, first, second, fused, id, hm, hf, hmerge, hnone⟩
  · rw [hg', hnone, List.append_nil]
    exact ⟨w, hs, h⟩
  · rw [hone]
    exact ⟨_, (hs.addBlock hgate hadd).1, h.add hs hgate hadd⟩
  · have hg' := hs.merge hm hf hmerge
    rw [hnone, List.append_nil]
    exact ⟨_, hg'.sound, h.merge hm hg' hs.wired hf⟩

theorem Traced.run (h : Traced g w gates) (hs : Sound g w) (calls : List (Call α)) :
    ∃ w', Sound (g.run calls) w' ∧ Traced (g.run calls) w' (gates ++ g.accepted calls) := by
  induction calls generalizing g w gates with
  | nil => exact ⟨w, hs, by rwa [accepted, List.append_nil]⟩
  | cons c calls ih =>
    obtain ⟨w', hs', h'⟩ := h.perform hs c
    rw [accepted, ← List.append_assoc]
    exact ih h' hs'

/-- The numbers of the gates in a block. -/
def originsOf (g : CircuitGraph α) (id : BlockId) : List Nat :=
  match g.block? id with
  | some b => b.origins
  | none => []

/-- Every accepted gate is in one block. Blocks list their gates in order and act where they act,
and a wire shows the gates on its qubit in the order of their acceptance. -/
structure Accounted (g : CircuitGraph α) (gates : List (Gate α)) : Prop where
  count : g.nextOrigin = gates.length
  once : ∀ i < gates.length, ∃! id, i ∈ g.originsOf id
  numbered : ∀ id, ∀ i ∈ g.originsOf id, i < gates.length
  ascending : ∀ id, (g.originsOf id).Pairwise (· < ·)
  acts : ∀ id b, g.block? id = some b → ∀ q, q ∈ b.gate.qubits ↔
    ∃ i ∈ b.origins, ∃ gate, gates[i]? = some gate ∧ q ∈ gate.qubits
  wire : ∀ q, ((g.wire q).flatMap g.originsOf).filter (numberActs gates q) =
    (List.range gates.length).filter (numberActs gates q)

lemma originsOf_eq {id : BlockId} {b : Block α} (hb : g.block? id = some b) :
    g.originsOf id = g.originsAt id.slot := by
  rw [originsOf, hb, originsAt, (block?_eq_some.mp hb).1]

lemma mem_originsOf {id : BlockId} {i : Nat} :
    i ∈ g.originsOf id ↔ ∃ b, g.block? id = some b ∧ i ∈ b.origins := by
  unfold originsOf
  cases g.block? id with
  | none => simp
  | some b => simp

theorem Traced.accounted (h : Traced g w gates) (hw : Wired g w) : Accounted g gates := by
  have hslot : ∀ {id i}, i ∈ g.originsOf id → i ∈ g.originsAt id.slot := by
    intro id i hi
    obtain ⟨b, hb, -⟩ := mem_originsOf.mp hi
    rwa [← originsOf_eq hb]
  constructor
  · exact h.count
  · intro i hi
    obtain ⟨s, hs⟩ := (h.lt_iff i).mp hi
    obtain ⟨b, hb, hmem⟩ := mem_originsAt.mp hs
    have hlive := block?_of_blockAt? hb
    refine ⟨⟨s, b.seq⟩, mem_originsOf.mpr ⟨b, hlive, hmem⟩, fun id hid => ?_⟩
    obtain ⟨c, hc, -⟩ := mem_originsOf.mp hid
    exact eq_of_block? hc hlive (h.inj _ _ i (hslot hid) hs)
  · intro id i hi
    exact (h.lt_iff i).mpr ⟨_, hslot hi⟩
  · intro id
    cases hb : g.block? id with
    | none =>
      rw [originsOf, hb]
      exact List.Pairwise.nil
    | some b =>
      rw [originsOf_eq hb]
      exact h.ascending _
  · intro id b hb q
    have hat := (block?_eq_some.mp hb).1
    have hacts := h.acts id.slot q
    rw [originsAt, touches, hat] at hacts
    simpa [numberActs_eq_true, Gate.actsOn] using hacts
  · intro q
    have horigins : (g.wire q).flatMap g.originsOf = (w q).flatMap g.originsAt := by
      rw [← hw.map_slot_wire, List.flatMap_map]
      refine List.flatMap_congr fun id hid => ?_
      obtain ⟨b, hb, -⟩ := hw.mem_wire.mp hid
      exact originsOf_eq hb
    rw [horigins, h.wire]

/-- Whatever calls a graph comes from, its blocks account for the gates that were accepted. -/
theorem accounted_of_reachable {n : Nat} (calls : List (Call α))
    (h : CircuitGraph.empty n = .ok g) : Accounted (g.run calls) (g.accepted calls) := by
  obtain ⟨w, hs, htraced⟩ := (Traced.start h).run (Sound.empty h) calls
  exact htraced.accounted hs.wired

theorem accounted_fourCalls : ∃ g : CircuitGraph Nat, CircuitGraph.empty 1 = .ok g ∧
    g.accepted fourCalls = [cleared, cleared] ∧ Accounted (g.run fourCalls) [cleared, cleared] :=
  ⟨_, rfl, rfl, accounted_of_reachable fourCalls (n := 1) rfl⟩

end CircuitGraph
end GateFusion
