import GateFusion.Proofs.Circuit.Contraction
import GateFusion.Proofs.Circuit.Merge

/-!
# Replacing two blocks

The new block of a merge may rank below blocks that now precede it, but the links never close a
cycle: a block that led into the pair does not depend on it. So the repair of the ranks applies, and
a replacement keeps the graph sound.
-/

namespace GateFusion.CircuitGraph
open Relation
variable {α : Type} {g g' : CircuitGraph α} {w : Qubit → List Nat}

lemma Stored.removeBlock (h : Stored g) {slot : Nat} {b : Block α}
    (hb : g.blockAt? slot = some b) : Stored (g.removeBlock slot) := by
  have hat : ∀ {s c}, (g.removeBlock slot).blockAt? s = some c → g.blockAt? s = some c := by
    intro s c hc
    rw [blockAt?_removeBlock] at hc
    split at hc
    · simp at hc
    · exact hc
  refine ⟨h.toFreeList.removeBlock hb, fun s c hc => ?_, fun s t c d hc hd => ?_,
    fun s t c d hc hd => ?_⟩
  · exact (h.placed s c (hat hc)).mono rfl le_rfl
  · exact h.seq_inj s t c d (hat hc) (hat hd)
  · exact h.rank_inj s t c d (hat hc) (hat hd)

lemma Stored.nodup_ranks (h : Stored g) : (g.liveSlots.map g.rankAt).Nodup := by
  refine List.Nodup.map_on ?_ nodup_liveSlots
  intro s hs t ht heq
  obtain ⟨b, hb⟩ := mem_liveSlots.mp hs
  obtain ⟨c, hc⟩ := mem_liveSlots.mp ht
  rw [rankAt_of_blockAt? hb, rankAt_of_blockAt? hc] at heq
  exact h.rank_inj s t b c hb hc heq

section Reranked
variable {rank : Nat → Nat} (hr : Reranked g g' rank)
include hr

/-- A permutation of the ranks leaves the stored blocks in order. -/
lemma Reranked.stored (h : Stored g)
    (hp : (g.liveSlots.map rank).Perm (g.liveSlots.map g.rankAt)) : Stored g' := by
  have hat : ∀ {s c}, g'.blockAt? s = some c →
      ∃ b, g.blockAt? s = some b ∧ c = { b with rank := rank s } := by
    intro s c hc
    rw [hr.blockAt, Option.map_eq_some_iff] at hc
    obtain ⟨b, hb, rfl⟩ := hc
    exact ⟨b, hb, rfl⟩
  refine ⟨hr.freeList h.toFreeList, fun s c hc => ?_, fun s t c d hc hd heq => ?_,
    fun s t c d hc hd heq => ?_⟩
  · obtain ⟨b, hb, rfl⟩ := hat hc
    obtain ⟨hwf, hne, hin, hseq, -⟩ := h.placed s b hb
    refine ⟨hwf, hne, fun q hq => ?_, hr.nextSeq ▸ hseq, ?_⟩
    · rw [numQubits, hr.heads]
      exact hin q hq
    · have hmem := hp.subset (List.mem_map_of_mem (mem_liveSlots.mpr ⟨b, hb⟩))
      obtain ⟨t, ht, hrank⟩ := List.mem_map.mp hmem
      obtain ⟨c, hc⟩ := mem_liveSlots.mp ht
      rw [hr.nextSeq, ← hrank, rankAt_of_blockAt? hc]
      exact (h.placed t c hc).rank_lt
  · obtain ⟨b, hb, rfl⟩ := hat hc
    obtain ⟨b', hb', rfl⟩ := hat hd
    exact h.seq_inj s t b b' hb hb' heq
  · obtain ⟨b, hb, rfl⟩ := hat hc
    obtain ⟨b', hb', rfl⟩ := hat hd
    exact List.inj_on_of_nodup_map (hp.nodup_iff.mpr h.nodup_ranks)
      (mem_liveSlots.mpr ⟨b, hb⟩) (mem_liveSlots.mpr ⟨b', hb'⟩) heq

lemma Reranked.wired (hw : Wired g w) : Wired g' w := by
  refine ⟨by rw [hr.heads, hr.tails, hw.ends], hw.nodup, fun q s => ?_, fun q => ?_, fun q => ?_,
    fun k => ?_⟩
  · rw [hw.mem_iff, hr.blockAt]
    cases g.blockAt? s <;> simp
  · rw [hr.heads, hw.head]
  · rw [hr.tails, hw.tail]
  · rw [hr.links, hw.link_iff]

lemma Reranked.ranked (hw : Wired g w) (hinc : ∀ a b, g.Precedes a b → rank a < rank b) :
    Ranked g' := by
  intro k hk
  rw [hr.links] at hk
  have hp : g.Precedes k.source k.target := ⟨k, hk, rfl, rfl⟩
  obtain ⟨hs, ht⟩ := hw.live_of_precedes hp
  rw [hr.rankAt hs, hr.rankAt ht]
  exact hinc _ _ hp

end Reranked

section Mergeable
variable {e l : BlockId} {first second : Block α} {fused : Gate α} {m : Nat}

/-- What a splice names before a block leads into the pair. -/
lemma Mergeable.precedes_of_before (hm : Mergeable g w e l first second) (hw : Wired g w)
    {q : Qubit} {a : Nat} (h : (g.spliceOf e l first second q).before = some a) :
    g.Precedes a e.slot ∨ g.Precedes a l.slot := by
  obtain ⟨id, hid, rfl⟩ := Option.map_eq_some_iff.mp h
  split at hid
  · exact Or.inl (hw.precedes_iff.mpr ⟨q, ((hw.prevOn?_eq_some hm.earlier).mp hid).1⟩)
  · exact Or.inr (hw.precedes_iff.mpr ⟨q, ((hw.prevOn?_eq_some hm.later).mp hid).1⟩)

/-- The pair leads into what a splice names after a block. -/
lemma Mergeable.precedes_of_after (hm : Mergeable g w e l first second) (hw : Wired g w)
    {q : Qubit} {b : Nat} (h : (g.spliceOf e l first second q).after = some b) :
    g.Precedes e.slot b ∨ g.Precedes l.slot b := by
  obtain ⟨id, hid, rfl⟩ := Option.map_eq_some_iff.mp h
  split at hid
  · exact Or.inr (hw.precedes_iff.mpr ⟨q, ((hw.nextOn?_eq_some hm.later).mp hid).1⟩)
  · exact Or.inl (hw.precedes_iff.mpr ⟨q, ((hw.nextOn?_eq_some hm.earlier).mp hid).1⟩)

/-- The links around the new block: those of old between other blocks, those into the new block from
what led into the pair, and those out of it to what the pair led to. -/
lemma Joined.precedes (hj : Joined g w e l first second fused m g')
    (hm : Mergeable g w e l first second) (hw : Wired g w) {a b : Nat} (h : g'.Precedes a b) :
    (g.Precedes a b ∧ (a ≠ e.slot ∧ a ≠ l.slot ∧ a ≠ m) ∧ b ≠ e.slot ∧ b ≠ l.slot ∧ b ≠ m) ∨
      (b = m ∧ a ≠ m ∧ (a ≠ e.slot ∧ a ≠ l.slot) ∧ (g.Precedes a e.slot ∨ g.Precedes a l.slot)) ∨
      (a = m ∧ b ≠ m ∧ (b ≠ e.slot ∧ b ≠ l.slot) ∧
        (g.Precedes e.slot b ∨ g.Precedes l.slot b)) := by
  obtain ⟨q, hf⟩ := hj.wired.precedes_iff.mp h
  have hmem := fun s => hm.mem_mergeWire hw hj.fresh (q := q) s
  have hne := hf.ne (hj.wired.nodup q)
  have ha := (hmem a).mp hf.mem_left
  have hb := (hmem b).mp hf.mem_right
  rcases (hm.follows_mergeWire hw hj.fresh a b).mp hf with
    ⟨hold, ⟨hae, hal⟩, hbe, hbl⟩ | ⟨hq, ⟨rfl, hbefore⟩ | ⟨rfl, hafter⟩⟩
  · have hold := hw.precedes_iff.mpr ⟨q, hold⟩
    obtain ⟨hla, hlb⟩ := hw.live_of_precedes hold
    have hlive : ∀ {s}, s ∈ g.liveSlots → s ≠ e.slot → s ≠ l.slot → s ≠ m := by
      rintro s hs hse hsl rfl
      obtain ⟨c, hc⟩ := mem_liveSlots.mp hs
      rcases hj.fresh with h | h | h
      · exact hse h
      · exact hsl h
      · simp [h] at hc
    exact Or.inl ⟨hold, ⟨hae, hal, hlive hla hae hal⟩, hbe, hbl, hlive hlb hbe hbl⟩
  · rw [if_neg hne] at ha
    exact Or.inr (Or.inl ⟨rfl, hne, ha.2, hm.precedes_of_before hw hbefore⟩)
  · rw [if_neg hne.symm] at hb
    exact Or.inr (Or.inr ⟨rfl, hne.symm, hb.2, hm.precedes_of_after hw hafter⟩)

lemma Joined.rankAt (hj : Joined g w e l first second fused m g') (s : Nat) :
    g'.rankAt s = if s = m then first.rank
      else if s = e.slot ∨ s = l.slot then 0 else g.rankAt s := by
  rw [CircuitGraph.rankAt, hj.blockAt]
  by_cases hsm : s = m
  · simp [hsm]
  · by_cases hpair : s = e.slot ∨ s = l.slot
    · simp [hsm, hpair]
    · simp [hsm, hpair, CircuitGraph.rankAt]

/-- The links around the new block are those left when the pair is contracted, so they close no
cycle. -/
lemma Joined.acyclic (hj : Joined g w e l first second fused m g')
    (hm : Mergeable g w e l first second) (hs : Sound g w) (a : Nat) :
    ¬ TransGen g'.Precedes a a := by
  have hcontracted := (hs.ranked.acyclic_contracted_iff (hm.precedes hs.wired)).mpr hm.direct
  have hlink : ∀ a b, g'.Precedes a b →
      g.Contracted e.slot l.slot (if a = m then e.slot else a) (if b = m then e.slot else b) := by
    intro a b hab
    rcases hj.precedes hm hs.wired hab with
      ⟨hold, ⟨hae, hal, ham⟩, hbe, hbl, hbm⟩ | ⟨rfl, ham, ⟨hae, hal⟩, hin⟩ |
      ⟨rfl, hbm, ⟨hbe, hbl⟩, hout⟩
    · rw [if_neg ham, if_neg hbm]
      refine ⟨?_, a, b, hold, renamed_of_not (not_or.mpr ⟨hae, hal⟩),
        renamed_of_not (not_or.mpr ⟨hbe, hbl⟩)⟩
      rintro rfl
      exact hs.ranked.acyclic _ (.single hold)
    · rw [if_neg ham, if_pos rfl]
      have ha : renamed e.slot l.slot e.slot a = a := renamed_of_not (not_or.mpr ⟨hae, hal⟩)
      rcases hin with h | h
      · exact ⟨hae, a, e.slot, h, ha, renamed_of_or (Or.inl rfl)⟩
      · exact ⟨hae, a, l.slot, h, ha, renamed_of_or (Or.inr rfl)⟩
    · rw [if_pos rfl, if_neg hbm]
      have hb : renamed e.slot l.slot e.slot b = b := renamed_of_not (not_or.mpr ⟨hbe, hbl⟩)
      rcases hout with h | h
      · exact ⟨hbe.symm, e.slot, b, h, renamed_of_or (Or.inl rfl), hb⟩
      · exact ⟨hbe.symm, l.slot, b, h, renamed_of_or (Or.inr rfl), hb⟩
  intro hcycle
  exact hcontracted _ (hcycle.lift (fun s => if s = m then e.slot else s) hlink)

/-- Ranks fall only along links into the new block. -/
lemma Joined.lt_of_precedes (hj : Joined g w e l first second fused m g')
    (hm : Mergeable g w e l first second) (hw : Wired g w) (hr : Ranked g) {a b : Nat}
    (h : g'.Precedes a b) (hb : b ≠ m) : g'.rankAt a < g'.rankAt b := by
  rcases hj.precedes hm hw h with ⟨hold, ⟨hae, hal, ham⟩, hbe, hbl, -⟩ | ⟨rfl, -⟩ |
    ⟨rfl, -, ⟨hbe, hbl⟩, hout⟩
  · rw [hj.rankAt, hj.rankAt, if_neg ham, if_neg hb, if_neg (by tauto), if_neg (by tauto)]
    exact hr.lt_of_precedes hold
  · exact absurd rfl hb
  · have hfirst := rankAt_of_blockAt? (block?_eq_some.mp hm.earlier).1
    have hel := hr.lt_of_precedes (hm.precedes hw)
    rw [hj.rankAt, hj.rankAt, if_pos rfl, if_neg hb, if_neg (by tauto), ← hfirst]
    rcases hout with h | h
    · exact hr.lt_of_precedes h
    · exact hel.trans (hr.lt_of_precedes h)

lemma Joined.stored (hj : Joined g w e l first second fused m g')
    (hm : Mergeable g w e l first second) (hw : Wired g w) (hs : Stored g)
    (hf : Fuses first second fused) : Stored g' := by
  have hfirst := (block?_eq_some.mp hm.earlier).1
  have hsecond := (block?_eq_some.mp hm.later).1
  have hsecond' : (g.removeBlock e.slot).blockAt? l.slot = some second := by
    rw [blockAt?_removeBlock, if_neg (hm.ne hw).symm, hsecond]
  have hremoved : ∀ s, ((g.removeBlock e.slot).removeBlock l.slot).blockAt? s =
      if s = e.slot ∨ s = l.slot then none else g.blockAt? s := by
    intro s
    rw [blockAt?_removeBlock, blockAt?_removeBlock]
    by_cases hse : s = e.slot <;> by_cases hsl : s = l.slot <;> simp [hse, hsl]
  have hat : ∀ s, g'.blockAt? s = if s = m then
      some ⟨fused, g.nextSeq, first.rank, (first.origins ++ second.origins).mergeSort⟩
      else ((g.removeBlock e.slot).removeBlock l.slot).blockAt? s := by
    intro s
    rw [hj.blockAt, hremoved]
  refine ((hs.removeBlock hfirst).removeBlock hsecond').insert hat hj.free
    ⟨hf.wellFormed, ?_, ?_, ?_, ?_⟩ rfl ?_ hj.numQubits ?_
  · obtain ⟨q, hq, -⟩ := hm.shared
    exact List.ne_nil_of_mem ((hf.mem_iff q).mpr (Or.inl hq))
  · intro q hq
    rw [hj.numQubits]
    rcases (hf.mem_iff q).mp hq with h | h
    · exact (hs.placed _ _ hfirst).inside q h
    · exact (hs.placed _ _ hsecond).inside q h
  · simp [hj.nextSeq]
  · have := (hs.placed _ _ hfirst).rank_lt
    rw [hj.nextSeq]
    exact this.trans (Nat.lt_succ_self _)
  · intro s b hb hrank
    rw [hremoved] at hb
    split at hb
    · simp at hb
    · rename_i hne
      exact hne (Or.inl (hs.rank_inj s e.slot b first hb hfirst hrank))
  · simp [hj.nextSeq]

end Mergeable

/-- The graph after a merge: sound, with the new block in the place of the pair on every wire, and
all other blocks unchanged but for their ranks. -/
structure Merged (g : CircuitGraph α) (w : Qubit → List Nat) (e l : BlockId)
    (first second : Block α) (fused : Gate α) (id : BlockId) (g' : CircuitGraph α) : Prop where
  sound : Sound g' fun q => mergeWire e.slot l.slot id.slot (w q)
  seq : id.seq = g.nextSeq
  fresh : id.slot = e.slot ∨ id.slot = l.slot ∨ g.blockAt? id.slot = none
  blockAt : ∃ rank : Nat → Nat, ∀ s, g'.blockAt? s = if s = id.slot then
      some ⟨fused, g.nextSeq, rank s, (first.origins ++ second.origins).mergeSort⟩
    else if s = e.slot ∨ s = l.slot then none
    else (g.blockAt? s).map fun b => { b with rank := rank s }
  numQubits : g'.numQubits = g.numQubits
  nextSeq : g'.nextSeq = g.nextSeq + 1
  nextOrigin : g'.nextOrigin = g.nextOrigin

/-- Merging a pair that may be merged keeps a graph sound. -/
theorem Sound.merge (hs : Sound g w) {e l id : BlockId} {first second : Block α} {fused : Gate α}
    (hm : Mergeable g w e l first second) (hf : Fuses first second fused)
    (hg' : g.merge e l first second fused = (id, g')) :
    Merged g w e l first second fused id g' := by
  rw [merge_eq, Prod.mk.injEq] at hg'
  obtain ⟨hid, hg'⟩ := hg'
  generalize hslot : ((g.removeBlock e.slot).removeBlock l.slot).nextSlot = m at hid hg'
  generalize hg₁ : g.staged e.slot l.slot fused (first.origins ++ second.origins).mergeSort
    first.rank = g₁ at hg'
  generalize hg₂ : ((unionInOrder first.gate second.gate).map
    (g.spliceOf e l first second)).foldl (spliceIn m) g₁ = g₂ at hg'
  have hj := hm.joined_spec hs.stored hs.wired hf hslot hg₁ hg₂
  have hstored := hj.stored hm hs.wired hs.stored hf
  have hlive : m ∈ g₂.liveSlots := mem_liveSlots.mpr ⟨_, by rw [hj.blockAt, if_pos rfl]⟩
  obtain ⟨rank, hr, hinc, hperm, -⟩ := restoreOrder_spec
    (fun _ _ => hj.wired.live_of_precedes) hlive (hj.acyclic hm hs)
    (fun _ _ h hb => hj.lt_of_precedes hm hs.wired hs.ranked h hb) hstored.nodup_ranks
  rw [hg'] at hr
  subst hid
  refine ⟨⟨hr.stored hstored hperm, hr.wired hj.wired, hr.ranked hj.wired hinc⟩, rfl, hj.fresh,
    ⟨rank, fun s => ?_⟩, ?_, hr.nextSeq.trans hj.nextSeq, hr.nextOrigin.trans hj.nextOrigin⟩
  · rw [hr.blockAt, hj.blockAt]
    by_cases hsm : s = m
    · simp [hsm]
    · simp only [hsm, if_false]
      split <;> rfl
  · rw [numQubits, hr.heads, ← numQubits, hj.numQubits]

/-- Adjacent blocks without a path through a third one may be merged. -/
lemma Sound.mergeable (hs : Sound g w) {a b e l : BlockId} (h : g.adjacency a b = some (e, l))
    (hp : g.hasIndirectPath e l = false) : ∃ first second, Mergeable g w e l first second := by
  obtain ⟨A, B, ha, hb⟩ := live_of_adjacency h
  obtain ⟨hside, ⟨q, hq, hq'⟩, hfollows⟩ := (hs.wired.adjacency_eq_some ha hb).mp h
  have hdirect : ∀ {C D}, g.block? e = some C → g.block? l = some D →
      ¬ ∃ x, TransGen g.Precedes e.slot x ∧ TransGen g.Precedes x l.slot := by
    intro C D he hl hx
    have hlive := And.intro (contains_iff.mpr ⟨C, he⟩) (contains_iff.mpr ⟨D, hl⟩)
    rw [(hasIndirectPath_iff hs.wired hs.ranked hlive.1 hlive.2).mpr hx] at hp
    simp at hp
  rcases hside with ⟨rfl, rfl⟩ | ⟨rfl, rfl⟩
  · exact ⟨A, B, ha, hb, ⟨q, hq, hq'⟩, hfollows, hdirect ha hb⟩
  · exact ⟨B, A, hb, ha, ⟨q, hq', hq⟩, fun r hr hr' => hfollows r hr' hr, hdirect hb ha⟩

lemma nodup_unionInOrder {a b : Gate α} (ha : a.qubits.Nodup) (hb : b.qubits.Nodup) :
    (unionInOrder a b).Nodup := by
  refine List.nodup_append.mpr ⟨ha, hb.filter _, fun q hq r hr heq => ?_⟩
  subst heq
  have hnot := (List.mem_filter.mp hr).2
  simp [Gate.actsOn, hq] at hnot

/-- A gate on as many qubits as a pair, all of the pair's qubits among them, acts on no others. -/
lemma fuses_iff {first second : Block α} {fused : Gate α} (hfused : fused.WellFormed)
    (ha : first.gate.qubits.Nodup) (hb : second.gate.qubits.Nodup) :
    (fused.numQubits = (unionInOrder first.gate second.gate).length ∧
      (unionInOrder first.gate second.gate).all fused.actsOn = true) ↔
        Fuses first second fused := by
  have hn := nodup_unionInOrder ha hb
  simp only [List.all_eq_true, Gate.actsOn, List.contains_eq_mem, decide_eq_true_eq,
    Gate.numQubits]
  constructor
  · rintro ⟨hlen, hsub⟩
    have hperm := (List.subperm_of_subset hn hsub).perm_of_length_le hlen.le
    refine ⟨hfused, fun q => ?_⟩
    rw [← hperm.mem_iff, mem_unionInOrder]
  · intro hf
    have hmem : ∀ q, q ∈ unionInOrder first.gate second.gate ↔ q ∈ fused.qubits := by
      intro q
      rw [mem_unionInOrder, hf.mem_iff]
    exact ⟨((List.perm_ext_iff_of_nodup hn hfused.nodup).mpr hmem).length_eq.symm,
      fun q hq => (hmem q).mp hq⟩

/-- Neighbours that no path leads around pass the check with a gate on the qubits of both. -/
lemma checkPair_of_adjacency {a b e l : BlockId} {first second : Block α} {fused : Gate α}
    (hadj : g.adjacency a b = some (e, l)) (hfirst : g.block? e = some first)
    (hsecond : g.block? l = some second) (hdirect : g.hasIndirectPath e l = false)
    (hunion : fused.numQubits = (unionInOrder first.gate second.gate).length ∧
      (unionInOrder first.gate second.gate).all fused.actsOn = true) :
    g.checkPair a b fused = .ok ((e, first), (l, second)) := by
  obtain ⟨A, B, ha, hb⟩ := live_of_adjacency hadj
  simp only [checkPair, hadj, live_eq_ok.mpr ha, live_eq_ok.mpr hb, hdirect, live_eq_ok.mpr hfirst,
    live_eq_ok.mpr hsecond, bind, Except.bind, Bool.false_eq_true, if_false, if_pos hunion]

/-- The check passes exactly pairs that may be merged, with a gate on their qubits. -/
lemma Sound.checkPair_eq_ok (hs : Sound g w) {a b e l : BlockId} {first second : Block α}
    {fused : Gate α} (hfused : fused.WellFormed) :
    g.checkPair a b fused = .ok ((e, first), (l, second)) ↔ g.adjacency a b = some (e, l) ∧
      Mergeable g w e l first second ∧ Fuses first second fused := by
  have hnodup : ∀ {id C}, g.block? id = some C → C.gate.qubits.Nodup := fun hC =>
    (hs.stored.placed _ _ (block?_eq_some.mp hC).1).wellFormed.nodup
  constructor
  · intro h
    unfold checkPair at h
    cases hadj : g.adjacency a b with
    | none =>
      rw [hadj] at h
      cases ha : g.live a <;> cases hb : g.live b <;> simp [ha, hb, bind, Except.bind] at h
    | some p =>
      obtain ⟨e', l'⟩ := p
      obtain ⟨A, B, ha, hb⟩ := live_of_adjacency hadj
      rw [hadj, live_eq_ok.mpr ha, live_eq_ok.mpr hb] at h
      cases hp : g.hasIndirectPath e' l' with
      | true => simp [hp, bind, Except.bind] at h
      | false =>
        obtain ⟨first', second', hm⟩ := hs.mergeable hadj hp
        simp only [hp, bind, Except.bind, live_eq_ok.mpr hm.earlier, live_eq_ok.mpr hm.later,
          Bool.false_eq_true, if_false] at h
        split at h
        · rename_i hunion
          have hf := (fuses_iff hfused (hnodup hm.earlier) (hnodup hm.later)).mp hunion
          simp only [Except.ok.injEq, Prod.mk.injEq] at h
          obtain ⟨⟨rfl, rfl⟩, rfl, rfl⟩ := h
          exact ⟨rfl, hm, hf⟩
        · simp at h
  · rintro ⟨hadj, hm, hf⟩
    have hlive : g.contains e = true ∧ g.contains l = true := by
      simp [contains, hm.earlier, hm.later]
    have hp : g.hasIndirectPath e l = false := by
      rw [← Bool.not_eq_true, hasIndirectPath_iff hs.wired hs.ranked hlive.1 hlive.2]
      exact hm.direct
    exact checkPair_of_adjacency hadj hm.earlier hm.later hp
      ((fuses_iff hfused (hnodup hm.earlier) (hnodup hm.later)).mpr hf)

/-- The check stands before the first write, so a refusal has written nothing. -/
lemma run_exchange (a b : BlockId) (fused : Gate α) : (exchange a b fused).run g =
    match g.checkPair a b fused with
    | .error e => (.error e, g)
    | .ok (e, l) => (.ok (g.merge e.1 l.1 e.2 l.2 fused).1, (g.merge e.1 l.1 e.2 l.2 fused).2) := by
  have hrun : (exchange a b fused).run g = (liftExcept (g.checkPair a b fused) >>= fun p =>
      (modifyGet (merge · p.1.1 p.2.1 p.1.2 p.2.2 fused) : Change α BlockId)).run g := rfl
  rw [hrun]
  cases g.checkPair a b fused with
  | error e => rfl
  | ok p => rfl

lemma replace_eq (a b : BlockId) (fused : Gate α) : g.replace a b fused =
    (g.checkPair a b fused).map fun p => g.merge p.1.1 p.2.1 p.1.2 p.2.2 fused := by
  unfold replace Change.result
  rw [run_exchange]
  cases g.checkPair a b fused with
  | error e => rfl
  | ok p => rfl

/-- A replacement that is refused leaves the graph as it was. -/
theorem graph_exchange_of_error {a b : BlockId} {fused : Gate α} {e : CircuitError α}
    (h : g.replace a b fused = .error e) : (exchange a b fused).graph g = g := by
  rw [replace_eq] at h
  rw [Change.graph, run_exchange]
  cases hcheck : g.checkPair a b fused with
  | error e => rfl
  | ok p =>
    rw [hcheck] at h
    simp [Except.map] at h

/-- A replacement succeeds exactly on pairs that may be merged, with a gate on their qubits. -/
theorem Sound.replace_eq_ok (hs : Sound g w) {a b : BlockId} {fused : Gate α}
    (hfused : fused.WellFormed) {r : BlockId × CircuitGraph α} :
    g.replace a b fused = .ok r ↔ ∃ e l first second, g.adjacency a b = some (e, l) ∧
      Mergeable g w e l first second ∧ Fuses first second fused ∧
        g.merge e l first second fused = r := by
  rw [replace_eq]
  constructor
  · intro h
    cases hcheck : g.checkPair a b fused with
    | error err =>
      rw [hcheck] at h
      simp [Except.map] at h
    | ok p =>
      obtain ⟨⟨e, first⟩, l, second⟩ := p
      obtain ⟨hadj, hm, hf⟩ := (hs.checkPair_eq_ok hfused).mp hcheck
      rw [hcheck] at h
      exact ⟨e, l, first, second, hadj, hm, hf, Except.ok.inj h⟩
  · rintro ⟨e, l, first, second, hadj, hm, hf, rfl⟩
    rw [(hs.checkPair_eq_ok hfused).mpr ⟨hadj, hm, hf⟩]
    rfl

end GateFusion.CircuitGraph
