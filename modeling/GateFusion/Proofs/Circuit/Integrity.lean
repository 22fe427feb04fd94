import GateFusion.Proofs.Circuit.Listing
import GateFusion.Proofs.Circuit.Trail

/-!
# Integrity

The check of integrity is the sum of its parts: the order is complete, the links are in order, the
walk along every wire comes to its tail, and counting the blocks by wires or by their qubits gives
the same number. Where the newest links spell out wires, as in a sound graph, it finds nothing.
-/

namespace GateFusion.CircuitGraph
open Relation
variable {α : Type} {g : CircuitGraph α} {w : Qubit → List Nat}

section Counting
variable {β γ : Type}

lemma total_map_add (xs : List β) (k m : β → Nat) :
    total (xs.map fun x => k x + m x) = total (xs.map k) + total (xs.map m) := by
  induction xs with
  | nil => rfl
  | cons x xs ih =>
    simp only [total, List.map_cons, List.foldr_cons] at ih ⊢
    omega

lemma total_map_toNat (xs : List β) (p : β → Bool) :
    total (xs.map fun x => (p x).toNat) = xs.countP p := by
  induction xs with
  | nil => rfl
  | cons x xs ih =>
    rw [List.countP_cons, ← ih, total, total, List.map_cons, List.foldr_cons]
    cases p x <;> simp [Nat.add_comm]

/-- Pairs in a relation, counted by rows or by columns. -/
lemma total_countP_comm (xs : List β) (ys : List γ) (p : β → γ → Bool) :
    total (xs.map fun x => ys.countP (p x)) = total (ys.map fun y => xs.countP (p · y)) := by
  induction xs with
  | nil =>
    induction ys with
    | nil => rfl
    | cons y ys ih => simpa [total] using ih
  | cons x xs ih =>
    have hstep : ∀ y, (x :: xs).countP (p · y) = xs.countP (p · y) + (p x y).toNat := by
      intro y
      rw [List.countP_cons]
      cases p x y <;> rfl
    simp only [hstep]
    rw [total_map_add, total_map_toNat, ← ih, Nat.add_comm]
    rfl

end Counting

/-- The newest links spell out the wire of a qubit. -/
structure Chain (g : CircuitGraph α) (q : Qubit) (wire : List Nat) : Prop where
  nodup : wire.Nodup
  mem_iff : ∀ s, s ∈ wire ↔ ∃ b, g.blockAt? s = some b ∧ q ∈ b.gate.qubits
  head : g.heads[q]?.join = wire.head?
  tail : g.tails[q]?.join = wire.getLast?
  follower : ∀ s t, g.follower? q s = some t ↔ Follows wire s t
  leader : ∀ s t, g.leader? q t = some s ↔ Follows wire s t

/-- Every link joins two blocks on its qubit. -/
def Touching (g : CircuitGraph α) : Prop :=
  ∀ l ∈ g.links, g.touches l.source l.qubit = true ∧ g.touches l.target l.qubit = true

/-- What the check of integrity makes sure of. -/
structure Verified (g : CircuitGraph α) (w : Qubit → List Nat) : Prop where
  ranked : g.Ranked
  touching : g.Touching
  inside : ∀ s b, g.blockAt? s = some b → ∀ q ∈ b.gate.qubits, q < g.numQubits
  chain : ∀ q, g.Chain q (w q)

/-- The live slots that act on a qubit. -/
def actors (g : CircuitGraph α) (q : Qubit) : List Nat := g.liveSlots.filter (g.touches · q)

/-- The declared qubits that a slot acts on. -/
def declared (g : CircuitGraph α) (s : Nat) : List Qubit :=
  (List.range g.numQubits).filter (g.touches s)

lemma mem_actors {q : Qubit} {s : Nat} :
    s ∈ g.actors q ↔ ∃ b, g.blockAt? s = some b ∧ q ∈ b.gate.qubits := by
  rw [actors, List.mem_filter, touches_eq_true, mem_liveSlots]
  exact and_iff_right_of_imp fun ⟨b, hb, _⟩ => ⟨b, hb⟩

/-- Counting by wires is counting by slots. -/
lemma total_actors : total ((List.range g.numQubits).map fun q => (g.actors q).length) =
    total (g.liveSlots.map fun s => (g.declared s).length) := by
  simp only [actors, declared, ← List.countP_eq_length_filter]
  exact total_countP_comm _ _ _

/-- Number of qubits of the block in a slot. -/
def widthAt (g : CircuitGraph α) (s : Nat) : Nat := (g.blockAt? s).elim 0 fun b => b.gate.numQubits

lemma total_widthAt : total ((g.liveSlots.filterMap g.blockAt?).map fun b => b.gate.numQubits) =
    total (g.liveSlots.map g.widthAt) := by
  congr 1
  rw [List.map_filterMap, ← List.filterMap_eq_map]
  refine List.filterMap_congr fun s hlive => ?_
  obtain ⟨b, hb⟩ := mem_liveSlots.mp hlive
  simp [widthAt, hb]

lemma mem_declared {s : Nat} {b : Block α} (hb : g.blockAt? s = some b) {q : Qubit} :
    q ∈ g.declared s ↔ q < g.numQubits ∧ q ∈ b.gate.qubits := by
  rw [declared, List.mem_filter, List.mem_range, touches, hb]
  simp [Gate.actsOn]

lemma checkLink_eq_ok_iff {l : Link} : g.checkLink l = .ok () ↔
    g.rankAt l.source < g.rankAt l.target ∧
      g.touches l.source l.qubit = true ∧ g.touches l.target l.qubit = true := by
  unfold checkLink
  by_cases hrank : g.rankAt l.source < g.rankAt l.target
  · cases g.touches l.source l.qubit <;> cases g.touches l.target l.qubit <;> simp [hrank]
  · simp [hrank]

/-- The check as its parts. -/
lemma verifyIntegrity_eq_ok_iff : g.verifyIntegrity = .ok () ↔
    g.order.length = g.numBlocks ∧ (∀ l ∈ g.links, g.checkLink l = .ok ()) ∧
      ∃ visits : Qubit → Nat, (∀ q < g.numQubits, g.checkWire q = .ok (visits q)) ∧
        total ((List.range g.numQubits).map visits) = total (g.liveSlots.map g.widthAt) := by
  have heq : g.verifyIntegrity = if g.order.length ≠ g.numBlocks then .error (.wiring .cycle) else
      g.links.forM g.checkLink >>= fun _ => (List.range g.numQubits).mapM g.checkWire >>=
        fun visits =>
          if total visits = total ((g.liveSlots.filterMap g.blockAt?).map fun b => b.gate.numQubits)
          then .ok () else .error (.wiring (.visitCount (total visits)
            (total ((g.liveSlots.filterMap g.blockAt?).map fun b => b.gate.numQubits)))) := by
    unfold verifyIntegrity
    split <;> rfl
  rw [heq]
  by_cases horder : g.order.length = g.numBlocks
  · rw [if_neg (not_not_intro horder), and_iff_right horder, bind_eq_ok]
    constructor
    · rintro ⟨_, hlinks, h⟩
      obtain ⟨counts, hcounts, h⟩ := bind_eq_ok.mp h
      have hwires := forall₂_of_mapM hcounts
      have hvisits : ∀ q, ∃ k, q < g.numQubits → g.checkWire q = .ok k := by
        intro q
        by_cases hq : q < g.numQubits
        · obtain ⟨k, -, hk⟩ := exists_of_forall₂ hwires (List.mem_range.mpr hq)
          exact ⟨k, fun _ => hk⟩
        · exact ⟨0, fun hlt => absurd hlt hq⟩
      choose visits hvisits using hvisits
      have hsame : (List.range g.numQubits).mapM g.checkWire =
          .ok ((List.range g.numQubits).map visits) :=
        mapM_eq_ok fun q hq => hvisits q (List.mem_range.mp hq)
      obtain rfl := Except.ok.inj (hcounts.symm.trans hsame)
      refine ⟨forall_of_forM hlinks, visits, hvisits, ?_⟩
      rw [← total_widthAt]
      split at h
      · assumption
      · nomatch h
    · rintro ⟨hlinks, visits, hvisits, htotal⟩
      have hwires : (List.range g.numQubits).mapM g.checkWire =
          .ok ((List.range g.numQubits).map visits) :=
        mapM_eq_ok fun q hq => hvisits q (List.mem_range.mp hq)
      refine ⟨(), forM_eq_ok hlinks, ?_⟩
      rw [hwires]
      change (if _ then _ else _) = _
      rw [if_pos (htotal.trans total_widthAt.symm)]
  · rw [if_pos horder]
    simp [horder]

/-- The first part of the check finds the cycles. -/
lemma Shaped.order_length_iff (hg : Shaped g) :
    g.order.length = g.numBlocks ↔ ∀ s, ¬ TransGen g.Precedes s s := by
  refine CircuitGraph.order_length_iff fun l hl => ?_
  obtain ⟨b, hb⟩ := hg.source l hl
  exact ⟨⟨l.source, b.seq⟩, mem_ids.mpr ⟨b, block?_of_blockAt? hb⟩, rfl⟩

/-- A wire is a trail. -/
lemma Chain.trail {q : Qubit} {wire : List Nat} (h : g.Chain q wire) :
    g.Trail q none g.heads[q]?.join wire := by
  rw [h.head]
  refine trail_of_neighbors (List.nil_append wire).symm (fun s hs => ?_)
    fun front s back hsplit => ⟨?_, ?_⟩
  · exact touches_eq_true.mpr ((h.mem_iff s).mp hs)
  · ext t
    rw [h.follower, follows_iff_head? h.nodup hsplit]
  · ext t
    rw [h.leader, follows_iff_getLast? h.nodup hsplit]

lemma Chain.perm_actors {q : Qubit} {wire : List Nat} (h : g.Chain q wire) :
    wire.Perm (g.actors q) := by
  refine (List.perm_ext_iff_of_nodup h.nodup (nodup_liveSlots.filter _)).mpr fun s => ?_
  rw [h.mem_iff]
  exact mem_actors.symm

/-- What has wires passes the check. -/
lemma Shaped.verifyIntegrity_eq_ok (hg : Shaped g) (h : Verified g w) :
    g.verifyIntegrity = .ok () := by
  refine verifyIntegrity_eq_ok_iff.mpr ⟨hg.order_length_iff.mpr h.ranked.acyclic, fun l hl => ?_,
    fun q => (w q).length, fun q _ => ?_, ?_⟩
  · exact checkLink_eq_ok_iff.mpr ⟨h.ranked l hl, h.touching l hl⟩
  · have hlength : (w q).length ≤ g.numBlocks :=
      (h.chain q).perm_actors.length_eq.trans_le (List.length_filter_le _ _)
    exact hg.checkWire_eq_ok_iff.mpr ⟨w q, (h.chain q).trail, hlength, (h.chain q).tail.symm, rfl⟩
  · have hrows : (List.range g.numQubits).map (fun q => (w q).length) =
        (List.range g.numQubits).map fun q => (g.actors q).length :=
      List.map_congr_left fun q _ => (h.chain q).perm_actors.length_eq
    rw [hrows, total_actors]
    congr 1
    refine List.map_congr_left fun s hs => ?_
    obtain ⟨b, hb⟩ := mem_liveSlots.mp hs
    have hperm : (g.declared s).Perm b.gate.qubits :=
      (List.perm_ext_iff_of_nodup (List.nodup_range.filter _) (hg.distinct s b hb)).mpr fun q => by
        rw [← declared, mem_declared hb]
        exact and_iff_right_of_imp (h.inside s b hb q)
    rw [hperm.length_eq, widthAt, hb]
    rfl

/-- What is sound is shaped. -/
lemma Sound.shaped (hs : Sound g w) : Shaped g := by
  have hw := hs.wired
  refine ⟨hw.ends, fun l hl => ?_, fun l hl => ?_, fun q s h => ?_,
    fun s b hb => (hs.stored.placed s b hb).wellFormed.nodup⟩
  · exact hw.live_of_mem ((hw.link_iff l).mp hl).mem_left
  · exact hw.live_of_mem ((hw.link_iff l).mp hl).mem_right
  · rw [hw.head] at h
    exact hw.live_of_mem (List.mem_of_mem_head? h)

lemma Wired.chain (hw : Wired g w) (q : Qubit) : g.Chain q (w q) :=
  ⟨hw.nodup q, hw.mem_iff q, hw.head q, hw.tail q, fun _ _ => hw.follower?_eq_some,
    fun _ _ => hw.leader?_eq_some⟩

lemma Wired.touching (hw : Wired g w) : g.Touching := by
  intro l hl
  have hstep := (hw.link_iff l).mp hl
  rw [touches_eq_true, touches_eq_true, ← hw.mem_iff, ← hw.mem_iff]
  exact ⟨hstep.mem_left, hstep.mem_right⟩

lemma Sound.verified (hs : Sound g w) : Verified g w :=
  ⟨hs.ranked, hs.wired.touching, fun s b hb => (hs.stored.placed s b hb).inside, hs.wired.chain⟩

/-- The check of integrity accepts every sound graph. -/
theorem Sound.verifyIntegrity_eq_ok (hs : Sound g w) : g.verifyIntegrity = .ok () :=
  hs.shaped.verifyIntegrity_eq_ok hs.verified

end GateFusion.CircuitGraph
