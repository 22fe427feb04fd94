import GateFusion.Proofs.Circuit.Fusable
import GateFusion.Proofs.Circuit.Order
import GateFusion.Circuit.Integrity

/-!
# Listings of a graph

A list of slots that shows every wire in its order is a listing of the graph. The execution order is
one. Listings carry over: a new block is appended, and around a merged block the pair may be put
back in its place.
-/

namespace GateFusion

/-- A list without a step back along another one is that list. -/
lemma eq_of_not_follows {xs ys : List Nat} (hx : xs.Nodup) (hy : ys.Nodup)
    (hmem : ∀ s, s ∈ xs ↔ s ∈ ys) (h : xs.Pairwise fun a b => ¬ Follows ys b a) : xs = ys := by
  induction ys generalizing xs with
  | nil => exact List.eq_nil_iff_forall_not_mem.mpr fun s hs => by simpa using (hmem s).mp hs
  | cons y ys ih =>
    cases xs with
    | nil => simpa using (hmem y).mpr List.mem_cons_self
    | cons x xs =>
      obtain ⟨hhead, htail⟩ := List.pairwise_cons.mp h
      obtain ⟨hxs, hx⟩ := List.nodup_cons.mp hx
      obtain ⟨hys, hy'⟩ := List.nodup_cons.mp hy
      obtain rfl : x = y := by
        by_contra hne
        obtain ⟨front, back, hsplit⟩ := List.append_of_mem ((hmem x).mp List.mem_cons_self)
        cases front with
        | nil => exact hne (List.cons.inj hsplit).1.symm
        | cons f front =>
          obtain ⟨p, hp⟩ : ∃ p, (f :: front).getLast? = some p :=
            ⟨_, List.getLast?_eq_some_getLast (List.cons_ne_nil f front)⟩
          have hfollows := (follows_iff_getLast? hy hsplit).mpr hp
          have hpx : p ∈ x :: xs := (hmem p).mpr hfollows.mem_left
          rcases List.mem_cons.mp hpx with rfl | hpx
          · exact hfollows.ne hy rfl
          · exact hhead p hpx hfollows
      refine congrArg (x :: ·) (ih hx hy' (fun s => ?_) (htail.imp fun hnot hf => hnot ?_))
      · have hs := hmem s
        simp only [List.mem_cons] at hs
        constructor
        · intro h
          exact (hs.mp (Or.inr h)).resolve_left fun heq => hxs (heq ▸ h)
        · intro h
          exact (hs.mpr (Or.inr h)).resolve_left fun heq => hys (heq ▸ h)
      · exact (follows_cons ..).mpr (Or.inr hf)

namespace CircuitGraph
variable {α : Type} {g g' : CircuitGraph α} {w : Qubit → List Nat}

/-- A list of slots in which the blocks on every wire stand in the order of the wire. -/
structure Listing (g : CircuitGraph α) (w : Qubit → List Nat) (slots : List Nat) : Prop where
  live : ∀ s ∈ slots, ∃ b, g.blockAt? s = some b
  wire : ∀ q, slots.filter (g.touches · q) = w q

/-- The gates in the slots of a list. -/
def gatesAlong (g : CircuitGraph α) (slots : List Nat) : List (Gate α) :=
  slots.filterMap fun s => (g.blockAt? s).map (·.gate)

/-- All gates in execution order. -/
def gates (g : CircuitGraph α) : List (Gate α) := g.blocks.map fun b => b.2.gate

/-- The gates of listed blocks. -/
def gatesOf (g : CircuitGraph α) (ids : List BlockId) : List (Gate α) :=
  ids.filterMap fun id => (g.block? id).map (·.gate)

lemma gates_eq_gatesOf : g.gates = g.gatesOf g.order := by
  unfold gates blocks gatesOf
  rw [List.map_filterMap]
  simp only [Option.map_map, Function.comp_def]

lemma touches_eq_true {s : Nat} {q : Qubit} :
    g.touches s q = true ↔ ∃ b, g.blockAt? s = some b ∧ q ∈ b.gate.qubits := by
  unfold touches
  cases g.blockAt? s with
  | none => simp
  | some b => simp [Gate.actsOn]

lemma filter_touches_cons (s : Nat) (slots : List Nat) (q : Qubit) :
    (s :: slots).filter (g.touches · q) = if g.touches s q = true
      then s :: slots.filter (g.touches · q) else slots.filter (g.touches · q) :=
  List.filter_cons

/-- The execution order is a listing. -/
theorem Sound.listing_order (hs : Sound g w) : Listing g w (g.order.map (·.slot)) := by
  have hperm : (g.order.map (·.slot)).Perm g.liveSlots :=
    (hs.order_perm.map _).trans map_slot_ids
  refine ⟨fun s hmem => mem_liveSlots.mp (hperm.subset hmem), fun q => ?_⟩
  refine eq_of_not_follows ((hperm.nodup_iff.mpr nodup_liveSlots).filter _) (hs.wired.nodup q)
    (fun s => ?_) ?_
  · rw [List.mem_filter, touches_eq_true, hs.wired.mem_iff, hperm.mem_iff, mem_liveSlots]
    exact and_iff_right_of_imp fun ⟨b, hb, _⟩ => ⟨b, hb⟩
  · refine List.Pairwise.filter _ (List.pairwise_map.mpr (order_pairwise.imp ?_))
    exact fun hnot hf => hnot (hs.wired.precedes_iff.mpr ⟨q, hf⟩)

lemma Sound.gates_eq (hs : Sound g w) : g.gates = g.gatesAlong (g.order.map (·.slot)) := by
  unfold gates blocks gatesAlong
  rw [List.map_filterMap, List.filterMap_map]
  refine List.filterMap_congr fun id hid => ?_
  obtain ⟨b, hb⟩ := mem_ids.mp (hs.order_perm.subset hid)
  simp [hb, (block?_eq_some.mp hb).1]

/-- The gates on a qubit are those of the slots on its wire. -/
lemma filter_gatesAlong (slots : List Nat) (q : Qubit) :
    (g.gatesAlong slots).filter (·.actsOn q) = g.gatesAlong (slots.filter (g.touches · q)) := by
  rw [gatesAlong, gatesAlong, List.filter_filterMap, List.filterMap_filter]
  refine List.filterMap_congr fun s _ => ?_
  unfold touches
  cases g.blockAt? s with
  | none => rfl
  | some b => by_cases hq : b.gate.actsOn q = true <;> simp [hq]

lemma Listing.filter_gates {slots : List Nat} (hl : Listing g w slots) (q : Qubit) :
    (g.gatesAlong slots).filter (·.actsOn q) = g.gatesAlong (w q) := by
  rw [filter_gatesAlong, hl.wire]

lemma gatesAlong_append (xs ys : List Nat) :
    g.gatesAlong (xs ++ ys) = g.gatesAlong xs ++ g.gatesAlong ys :=
  List.filterMap_append

lemma gatesAlong_cons {s : Nat} {b : Block α} (hb : g.blockAt? s = some b) (xs : List Nat) :
    g.gatesAlong (s :: xs) = b.gate :: g.gatesAlong xs := by
  rw [gatesAlong, List.filterMap_cons_some (by rw [hb, Option.map_some]), gatesAlong]

lemma gatesAlong_congr {slots : List Nat}
    (h : ∀ s ∈ slots, (g'.blockAt? s).map (·.gate) = (g.blockAt? s).map (·.gate)) :
    g'.gatesAlong slots = g.gatesAlong slots :=
  List.filterMap_congr h

lemma touches_congr {s : Nat} (h : (g'.blockAt? s).map (·.gate) = (g.blockAt? s).map (·.gate))
    (q : Qubit) : g'.touches s q = g.touches s q := by
  rw [Bool.eq_iff_iff, touches_eq_true, touches_eq_true]
  cases h' : g'.blockAt? s <;> cases h'' : g.blockAt? s <;> simp_all

lemma mem_gatesAlong {slots : List Nat} {gate : Gate α} :
    gate ∈ g.gatesAlong slots ↔ ∃ s ∈ slots, ∃ b, g.blockAt? s = some b ∧ b.gate = gate := by
  simp [gatesAlong, List.mem_filterMap, Option.map_eq_some_iff]

lemma Sound.mem_gates (hs : Sound g w) {gate : Gate α} :
    gate ∈ g.gates ↔ ∃ s b, g.blockAt? s = some b ∧ b.gate = gate := by
  have hi := hs.listing_order
  rw [hs.gates_eq, mem_gatesAlong]
  constructor
  · rintro ⟨s, -, hb⟩
    exact ⟨s, hb⟩
  · rintro ⟨s, b, hb, hgate⟩
    obtain ⟨q, hq⟩ := List.exists_mem_of_ne_nil _ (hs.stored.placed s b hb).nonempty
    have hmem := hs.wired.mem_of_acts hb hq
    rw [← hi.wire] at hmem
    exact ⟨s, List.mem_of_mem_filter hmem, b, hb, hgate⟩

lemma Sound.wellFormed_gates (hs : Sound g w) : ∀ gate ∈ g.gates, gate.WellFormed := by
  intro gate hgate
  obtain ⟨s, b, hb, rfl⟩ := hs.mem_gates.mp hgate
  exact (hs.stored.placed s b hb).wellFormed

lemma Sound.inside_gates (hs : Sound g w) :
    ∀ gate ∈ g.gates, ∀ q ∈ gate.qubits, q < g.numQubits := by
  intro gate hgate
  obtain ⟨s, b, hb, rfl⟩ := hs.mem_gates.mp hgate
  exact (hs.stored.placed s b hb).inside

lemma Sound.gates_perm (hs : Sound g w) : g.gates.Perm (g.gatesAlong g.liveSlots) := by
  rw [hs.gates_eq]
  exact ((hs.order_perm.map _).trans map_slot_ids).filterMap _

/-- A listing has every block once, since every block stands on a wire. -/
lemma Listing.perm (hs : Sound g w) {slots : List Nat} (hl : Listing g w slots) :
    slots.Perm g.liveSlots := by
  refine (List.perm_ext_iff_of_nodup (List.nodup_iff_count_le_one.mpr fun s => ?_)
    nodup_liveSlots).mpr fun s => ⟨fun h => mem_liveSlots.mpr (hl.live s h), fun h => ?_⟩
  · by_cases hmem : s ∈ slots
    · obtain ⟨b, hb⟩ := hl.live s hmem
      obtain ⟨q, hq⟩ := List.exists_mem_of_ne_nil _ (hs.stored.placed s b hb).nonempty
      have hcount := List.nodup_iff_count_le_one.mp (hs.wired.nodup q) s
      have htouches : g.touches s q = true := touches_eq_true.mpr ⟨b, hb, hq⟩
      rwa [← hl.wire, List.count_filter (p := (g.touches · q)) htouches] at hcount
    · rw [List.count_eq_zero_of_not_mem hmem]
      exact Nat.zero_le 1
  · obtain ⟨b, hb⟩ := mem_liveSlots.mp h
    obtain ⟨q, hq⟩ := List.exists_mem_of_ne_nil _ (hs.stored.placed s b hb).nonempty
    have hwire := hs.wired.mem_of_acts hb hq
    rw [← hl.wire] at hwire
    exact List.mem_of_mem_filter hwire

lemma Listing.gates_perm (hs : Sound g w) {slots : List Nat} (hl : Listing g w slots) :
    g.gates.Perm (g.gatesAlong slots) :=
  hs.gates_perm.trans ((hl.perm hs).symm.filterMap _)

/-- A listing goes on with a new block at the end. -/
lemma Listing.add (hs : Sound g w) {gate : Gate α} (hgate : gate.WellFormed) {id : BlockId}
    (hadd : g.addBlock gate = .ok (id, g')) {slots : List Nat} (hl : Listing g w slots) :
    Listing g' (fun q => if q ∈ gate.qubits then w q ++ [id.slot] else w q)
        (slots ++ [id.slot]) ∧
      g'.gatesAlong (slots ++ [id.slot]) = g.gatesAlong slots ++ [gate] := by
  obtain ⟨-, -, hempty, hat, -⟩ := hs.addBlock hgate hadd
  have hnew : g'.blockAt? id.slot = some ⟨gate, g.nextSeq, g.nextSeq, [g.nextOrigin]⟩ := by
    rw [hat, if_pos rfl]
  have hold : ∀ s ∈ slots, g'.blockAt? s = g.blockAt? s := by
    intro s hmem
    rw [hat, if_neg]
    rintro rfl
    obtain ⟨b, hb⟩ := hl.live _ hmem
    simp [hempty] at hb
  refine ⟨⟨fun s hmem => ?_, fun q => ?_⟩, ?_⟩
  · rcases List.mem_append.mp hmem with hmem | hmem
    · rw [hold s hmem]
      exact hl.live s hmem
    · rw [List.mem_singleton.mp hmem]
      exact ⟨_, hnew⟩
  · have htouches : g'.touches id.slot q = decide (q ∈ gate.qubits) := by
      rw [touches, hnew]
      simp [Gate.actsOn]
    rw [List.filter_append, List.filter_congr fun s hmem =>
      touches_congr (congrArg (Option.map (·.gate)) (hold s hmem)) q, hl.wire]
    rw [filter_touches_cons, htouches, List.filter_nil]
    by_cases hq : q ∈ gate.qubits <;> simp [hq]
  · have hsame : g'.gatesAlong slots = g.gatesAlong slots :=
      gatesAlong_congr fun s hmem => by rw [hold s hmem]
    have hnil : g'.gatesAlong [] = [] := rfl
    rw [gatesAlong_append, gatesAlong_cons hnew, hsame, hnil]

/-- A new block adds its gate. -/
lemma Sound.gates_perm_add (hs : Sound g w) {gate : Gate α} (hgate : gate.WellFormed)
    {id : BlockId} (hadd : g.addBlock gate = .ok (id, g')) : g'.gates.Perm (g.gates ++ [gate]) := by
  obtain ⟨hl, hgates⟩ := hs.listing_order.add hs hgate hadd
  rw [hs.gates_eq, ← hgates]
  exact hl.gates_perm (hs.addBlock hgate hadd).1

section Merged
variable {e l id : BlockId} {first second : Block α} {fused : Gate α}

/-- Around the new block of a merge, the other slots of a listing hold what they held. -/
lemma Merged.gate_eq (hg' : Merged g w e l first second fused id g') {s : Nat} (hs : s ≠ id.slot)
    (hlive : ∃ b, g'.blockAt? s = some b) : s ≠ e.slot ∧ s ≠ l.slot ∧
      (g'.blockAt? s).map (·.gate) = (g.blockAt? s).map (·.gate) := by
  obtain ⟨rank, hat⟩ := hg'.blockAt
  obtain ⟨b, hb⟩ := hlive
  rw [hat, if_neg hs] at hb ⊢
  by_cases hpair : s = e.slot ∨ s = l.slot
  · simp [hpair] at hb
  · rw [if_neg hpair, Option.map_map]
    exact ⟨fun h => hpair (Or.inl h), fun h => hpair (Or.inr h), rfl⟩

lemma Merged.blockAt_new (hg' : Merged g w e l first second fused id g') :
    ∃ b, g'.blockAt? id.slot = some b ∧ b.gate = fused := by
  obtain ⟨rank, hat⟩ := hg'.blockAt
  exact ⟨_, by rw [hat, if_pos rfl], rfl⟩

section Listed
variable (hm : Mergeable g w e l first second) (hf : Fuses first second fused) (hw : Wired g w)
  (hg' : Merged g w e l first second fused id g')
include hm

lemma Mergeable.filter_touches (hw : Wired g w) (q : Qubit) (back : List Nat) :
    (e.slot :: l.slot :: back).filter (g.touches · q) =
      (if e.slot ∈ w q then [e.slot] else []) ++ (if l.slot ∈ w q then [l.slot] else []) ++
        back.filter (g.touches · q) := by
  have he : g.touches e.slot q = decide (e.slot ∈ w q) := by
    simp [touches, (block?_eq_some.mp hm.earlier).1, Gate.actsOn, (hm.mem_wire hw q).1]
  have hl : g.touches l.slot q = decide (l.slot ∈ w q) := by
    simp [touches, (block?_eq_some.mp hm.later).1, Gate.actsOn, (hm.mem_wire hw q).2]
  rw [filter_touches_cons, filter_touches_cons, he, hl]
  by_cases h1 : e.slot ∈ w q <;> by_cases h2 : l.slot ∈ w q <;> simp [h1, h2]

include hf hg' in
omit hm in
lemma Merged.touches_new (q : Qubit) :
    g'.touches id.slot q = true ↔ q ∈ unionInOrder first.gate second.gate := by
  obtain ⟨new, hnew, hgate⟩ := hg'.blockAt_new
  rw [touches_eq_true, mem_unionInOrder, ← hf.mem_iff, hnew]
  simp [hgate]

include hf hw hg'

/-- The new block stands once in a listing, between blocks that hold what they held. -/
lemma Merged.split {slots : List Nat}
    (hl : Listing g' (fun q => mergeWire e.slot l.slot id.slot (w q)) slots) :
    ∃ front back, slots = front ++ id.slot :: back ∧ id.slot ∉ front ∧ id.slot ∉ back ∧
      (∀ s ∈ front, (g'.blockAt? s).map (·.gate) = (g.blockAt? s).map (·.gate)) ∧
      ∀ s ∈ back, (g'.blockAt? s).map (·.gate) = (g.blockAt? s).map (·.gate) := by
  obtain ⟨q, hq, -⟩ := hm.shared
  have hunion : q ∈ unionInOrder first.gate second.gate := mem_unionInOrder.mpr (Or.inl hq)
  have htouch := (hg'.touches_new hf q).mpr hunion
  have hmem : id.slot ∈ slots.filter (g'.touches · q) := by
    rw [hl.wire, hm.mem_mergeWire hw hg'.fresh, if_pos rfl]
    exact hunion
  obtain ⟨front, back, rfl⟩ := List.append_of_mem (List.mem_of_mem_filter hmem)
  have hn := hm.nodup_mergeWire hw hg'.fresh (q := q)
  rw [← hl.wire, List.filter_append, filter_touches_cons, if_pos htouch, List.nodup_middle,
    List.nodup_cons, List.mem_append, not_or] at hn
  have hfront : id.slot ∉ front := fun h => hn.1.1 (List.mem_filter.mpr ⟨h, htouch⟩)
  have hback : id.slot ∉ back := fun h => hn.1.2 (List.mem_filter.mpr ⟨h, htouch⟩)
  refine ⟨front, back, rfl, hfront, hback, fun s hs => ?_, fun s hs => ?_⟩
  · exact (hg'.gate_eq (ne_of_mem_of_not_mem hs hfront) (hl.live s (by simp [hs]))).2.2
  · exact (hg'.gate_eq (ne_of_mem_of_not_mem hs hback) (hl.live s (by simp [hs]))).2.2

/-- In a listing after a merge, the pair may stand in the place of the new block. -/
theorem Merged.listing {slots : List Nat}
    (hl : Listing g' (fun q => mergeWire e.slot l.slot id.slot (w q)) slots) :
    ∃ front back, Listing g w (front ++ e.slot :: l.slot :: back) ∧
      g'.gatesAlong slots = g.gatesAlong front ++ fused :: g.gatesAlong back ∧
      g.gatesAlong (front ++ e.slot :: l.slot :: back) =
        g.gatesAlong front ++ first.gate :: second.gate :: g.gatesAlong back := by
  obtain ⟨new, hnew, hgate⟩ := hg'.blockAt_new
  have hfirst := (block?_eq_some.mp hm.earlier).1
  have hsecond := (block?_eq_some.mp hm.later).1
  obtain ⟨front, back, rfl, hnot, hnot', hfront, hback⟩ := hg'.split hm hf hw hl
  have hlive : ∀ {s}, s ∈ front ++ id.slot :: back →
      (g'.blockAt? s).map (·.gate) = (g.blockAt? s).map (·.gate) → ∃ b, g.blockAt? s = some b := by
    intro s hs hsame
    obtain ⟨b, hb⟩ := hl.live s hs
    rw [hb, Option.map_some, eq_comm, Option.map_eq_some_iff] at hsame
    obtain ⟨c, hc, -⟩ := hsame
    exact ⟨c, hc⟩
  refine ⟨front, back, ⟨fun s hs => ?_, fun q => ?_⟩, ?_, ?_⟩
  · simp only [List.mem_append, List.mem_cons] at hs
    rcases hs with hs | rfl | rfl | hs
    · exact hlive (by simp [hs]) (hfront s hs)
    · exact ⟨first, hfirst⟩
    · exact ⟨second, hsecond⟩
    · exact hlive (by simp [hs]) (hback s hs)
  · have hwire := hl.wire q
    have hbackq : (id.slot :: back).filter (g'.touches · q) =
        if q ∈ unionInOrder first.gate second.gate then id.slot :: back.filter (g.touches · q)
        else back.filter (g.touches · q) := by
      rw [← List.filter_congr fun s hs => touches_congr (hback s hs) q]
      simp only [filter_touches_cons, hg'.touches_new hf]
    rw [List.filter_append, List.filter_congr fun s hs => touches_congr (hfront s hs) q,
      hbackq] at hwire
    rw [List.filter_append, hm.filter_touches hw]
    by_cases hq : q ∈ unionInOrder first.gate second.gate
    · -- the new block occurs once, so both sides of it agree with the wire
      obtain ⟨f, k, hp, -, -, heq, -⟩ := hm.wire_of_mem hw hg'.fresh hq
      rw [if_pos hq, heq, List.append_cons_inj_of_notMem
        (fun h => hnot (List.mem_of_mem_filter h))
        (fun h => hnot' (List.mem_of_mem_filter h))] at hwire
      rw [hwire.1, hwire.2.2]
      exact (hp.eq_of_mem (hm.ne hw)).symm
    · obtain ⟨⟨he, hl'⟩, heq⟩ := hm.wire_of_notMem (m := id.slot) hw hq
      rw [if_neg hq, heq] at hwire
      rw [if_neg he, if_neg hl', List.nil_append, List.nil_append, hwire]
  · rw [gatesAlong_append, gatesAlong_cons hnew, hgate, gatesAlong_congr hfront,
      gatesAlong_congr hback]
  · rw [gatesAlong_append, gatesAlong_cons hfirst, gatesAlong_cons hsecond]

end Listed

/-- A merge exchanges the gates of the pair for the fused one. -/
lemma Merged.gates_perm (hm : Mergeable g w e l first second) (hs : Sound g w)
    (hmerged : Merged g w e l first second fused id g') : ∃ rest,
      g.gates.Perm (first.gate :: second.gate :: rest) ∧ g'.gates.Perm (fused :: rest) := by
  obtain ⟨slots, hbefore, hafter, hother⟩ := hmerged.liveSlots_perm hm hs
  obtain ⟨rank, hat⟩ := hmerged.blockAt
  have hfirst := (block?_eq_some.mp hm.earlier).1
  have hsecond := (block?_eq_some.mp hm.later).1
  have hnew := hat id.slot
  rw [if_pos rfl] at hnew
  have hrest : g'.gatesAlong slots = g.gatesAlong slots := by
    apply gatesAlong_congr
    intro s hmem
    obtain ⟨hse, hsl, hsid⟩ := hother s hmem
    rw [hat, if_neg hsid, if_neg (not_or.mpr ⟨hse, hsl⟩), Option.map_map]
    rfl
  refine ⟨g.gatesAlong slots, ?_, ?_⟩
  · rw [← gatesAlong_cons hsecond, ← gatesAlong_cons hfirst]
    exact hs.gates_perm.trans (hbefore.symm.filterMap _)
  · rw [← hrest]
    have hcons := gatesAlong_cons hnew slots
    rw [← hcons]
    exact hmerged.sound.gates_perm.trans (hafter.symm.filterMap _)

end Merged
end CircuitGraph
end GateFusion
