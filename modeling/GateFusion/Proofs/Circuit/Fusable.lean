import GateFusion.Proofs.Circuit.Replace

/-!
# Fusable pairs

Which pairs are fusable in terms of wires and dependencies. A fusable pair can be replaced by any
gate on its qubits, and both orders in which the pair may be named give the same answer.
-/

namespace GateFusion.CircuitGraph
open Relation
variable {α : Type} {g : CircuitGraph α} {w : Qubit → List Nat} {a b e l : BlockId} {k : Nat}

lemma unionArity_eq {A B : Block α} (ha : g.block? a = some A) (hb : g.block? b = some B) :
    g.unionArity a b = some (unionInOrder A.gate B.gate).length := by
  rw [unionArity, ha, hb, unionInOrder, List.length_append, ← List.countP_eq_length_filter]
  rfl

lemma length_unionInOrder_comm {first second : Gate α} (ha : first.qubits.Nodup)
    (hb : second.qubits.Nodup) :
    (unionInOrder first second).length = (unionInOrder second first).length := by
  refine List.Perm.length_eq ((List.perm_ext_iff_of_nodup (nodup_unionInOrder ha hb)
    (nodup_unionInOrder hb ha)).mpr fun q => ?_)
  rw [mem_unionInOrder, mem_unionInOrder, or_comm]

lemma Sound.nodup_qubits (hs : Sound g w) {A : Block α} (ha : g.block? a = some A) :
    A.gate.qubits.Nodup :=
  (hs.stored.placed _ _ (block?_eq_some.mp ha).1).wellFormed.nodup

lemma Mergeable.contains {first second : Block α} (hm : Mergeable g w e l first second) :
    g.contains e = true ∧ g.contains l = true := by
  simp [CircuitGraph.contains, hm.earlier, hm.later]

/-- A pair is fusable if one block directly follows the other, nothing leads from one to the other
through a third, and together they act on few enough qubits. -/
theorem Sound.fusable_eq_some (hs : Sound g w) : g.fusable a b k = some (e, l) ↔
    ((e = a ∧ l = b) ∨ (e = b ∧ l = a)) ∧ ∃ first second, Mergeable g w e l first second ∧
      (unionInOrder first.gate second.gate).length ≤ k := by
  rw [CircuitGraph.fusable_eq_some]
  constructor
  · rintro ⟨hadj, ⟨n, hn, hle⟩, hp⟩
    obtain ⟨A, B, ha, hb⟩ := live_of_adjacency hadj
    obtain ⟨first, second, hm⟩ := hs.mergeable hadj hp
    have hside := ((hs.wired.adjacency_eq_some ha hb).mp hadj).1
    refine ⟨hside, first, second, hm, ?_⟩
    rw [unionArity_eq ha hb] at hn
    obtain rfl := Option.some.inj hn
    rcases hside with ⟨rfl, rfl⟩ | ⟨rfl, rfl⟩
    · obtain rfl := Option.some.inj (ha.symm.trans hm.earlier)
      obtain rfl := Option.some.inj (hb.symm.trans hm.later)
      exact hle
    · obtain rfl := Option.some.inj (hb.symm.trans hm.earlier)
      obtain rfl := Option.some.inj (ha.symm.trans hm.later)
      rwa [length_unionInOrder_comm (hs.nodup_qubits hb) (hs.nodup_qubits ha)]
  · rintro ⟨hside, first, second, hm, hle⟩
    have hp : g.hasIndirectPath e l = false := by
      rw [← Bool.not_eq_true, hasIndirectPath_iff hs.wired hs.ranked hm.contains.1 hm.contains.2]
      exact hm.direct
    rcases hside with ⟨rfl, rfl⟩ | ⟨rfl, rfl⟩
    · refine ⟨(hs.wired.adjacency_eq_some hm.earlier hm.later).mpr
        ⟨Or.inl ⟨rfl, rfl⟩, hm.shared, hm.follows⟩, ⟨_, unionArity_eq hm.earlier hm.later, hle⟩, hp⟩
    · obtain ⟨q, hq, hq'⟩ := hm.shared
      refine ⟨(hs.wired.adjacency_eq_some hm.later hm.earlier).mpr
        ⟨Or.inr ⟨rfl, rfl⟩, ⟨q, hq', hq⟩, fun r hr hr' => hm.follows r hr' hr⟩,
        ⟨_, unionArity_eq hm.later hm.earlier, ?_⟩, hp⟩
      rwa [length_unionInOrder_comm (hs.nodup_qubits hm.later) (hs.nodup_qubits hm.earlier)]

lemma Sound.fusable_comm (hs : Sound g w) (a b : BlockId) (k : Nat) :
    g.fusable a b k = g.fusable b a k := by
  refine Option.ext fun p => ?_
  rw [hs.fusable_eq_some (l := p.2) (e := p.1), hs.fusable_eq_some (l := p.2) (e := p.1), or_comm]

/-- A pair that may be merged is replaced by a gate on its qubits. -/
theorem Sound.replace_eq_merge (hs : Sound g w) {first second : Block α} {fused : Gate α}
    (hm : Mergeable g w e l first second) (hf : Fuses first second fused) :
    g.replace e l fused = .ok (g.merge e l first second fused) :=
  (hs.replace_eq_ok hf.wellFormed).mpr ⟨e, l, first, second,
    (hs.wired.adjacency_eq_some hm.earlier hm.later).mpr
      ⟨Or.inl ⟨rfl, rfl⟩, hm.shared, hm.follows⟩, hm, hf, rfl⟩

section Neighbors

lemma mem_foldl_distinct {β : Type} [DecidableEq β] {x : β} (xs acc : List β) :
    x ∈ xs.foldl (fun acc n => if acc.contains n then acc else acc ++ [n]) acc ↔
      x ∈ acc ∨ x ∈ xs := by
  induction xs generalizing acc with
  | nil => simp
  | cons y ys ih =>
    rw [List.foldl_cons, ih, List.mem_cons]
    split
    · rename_i hy
      rw [List.contains_iff_mem] at hy
      constructor
      · exact Or.imp_right Or.inr
      · rintro (h | rfl | h)
        · exact Or.inl h
        · exact Or.inl hy
        · exact Or.inr h
    · rw [List.mem_append, List.mem_singleton, or_assoc]

lemma mem_neighbors {n : BlockId} : n ∈ g.neighbors a ↔ ∃ A, g.block? a = some A ∧
    ∃ q ∈ A.gate.qubits, g.prevOn? a q = some n ∨ g.nextOn? a q = some n := by
  unfold neighbors
  cases ha : g.block? a with
  | none => simp
  | some A =>
    dsimp only
    rw [mem_foldl_distinct, List.mem_flatMap]
    simp

/-- Fusable blocks are neighbours. -/
lemma Sound.mem_neighbors_of_fusable (hs : Sound g w) (h : g.fusable a b k = some (e, l)) :
    b ∈ g.neighbors a := by
  obtain ⟨hside, first, second, hm, -⟩ := hs.fusable_eq_some.mp h
  obtain ⟨q, hq, hq'⟩ := hm.shared
  have hf := hm.follows q hq hq'
  rw [mem_neighbors]
  rcases hside with ⟨rfl, rfl⟩ | ⟨rfl, rfl⟩
  · exact ⟨first, hm.earlier, q, hq, Or.inr
      ((hs.wired.nextOn?_eq_some hm.earlier).mpr ⟨hf, idAt?_of_block? hm.later⟩)⟩
  · exact ⟨second, hm.later, q, hq', Or.inl
      ((hs.wired.prevOn?_eq_some hm.later).mpr ⟨hf, idAt?_of_block? hm.earlier⟩)⟩

end Neighbors

lemma eq_of_block? {x y : BlockId} {b c : Block α} (hx : g.block? x = some b)
    (hy : g.block? y = some c) (h : x.slot = y.slot) : x = y := by
  obtain ⟨hb, hseq⟩ := block?_eq_some.mp hx
  obtain ⟨hc, hseq'⟩ := block?_eq_some.mp hy
  rw [h, hc] at hb
  obtain rfl := Option.some.inj hb
  obtain ⟨slot, seq⟩ := x
  obtain ⟨slot', seq'⟩ := y
  rw [BlockId.mk.injEq]
  exact ⟨h, hseq.symm.trans hseq'⟩

lemma Sound.eq_of_seq (hs : Sound g w) {x y : BlockId} {b c : Block α} (hx : g.block? x = some b)
    (hy : g.block? y = some c) (h : x.seq = y.seq) : x = y := by
  obtain ⟨hb, hseq⟩ := block?_eq_some.mp hx
  obtain ⟨hc, hseq'⟩ := block?_eq_some.mp hy
  exact eq_of_block? hx hy (hs.stored.seq_inj _ _ b c hb hc (by rw [hseq, hseq', h]))

section Elsewhere
variable {g' : CircuitGraph α} {first second : Block α} {fused : Gate α} {id : BlockId}
  (hm : Mergeable g w e l first second) (hg' : Merged g w e l first second fused id g')

include hg' in
lemma Merged.block?_new : ∃ b, g'.block? id = some b ∧ b.gate = fused ∧
    b.origins = (first.origins ++ second.origins).mergeSort := by
  obtain ⟨rank, hat⟩ := hg'.blockAt
  have hb := hat id.slot
  rw [if_pos rfl] at hb
  exact ⟨_, block?_eq_some.mpr ⟨hb, hg'.seq.symm⟩, rfl, rfl⟩

include hg'

/-- Every other block was there before the merge. -/
lemma Merged.block?_old {x : BlockId} {b' : Block α} (hx : x ≠ id) (h : g'.block? x = some b') :
    (x ≠ e ∧ x ≠ l) ∧ ∃ b, g.block? x = some b ∧ b'.gate = b.gate ∧ b'.seq = b.seq ∧
      b'.origins = b.origins := by
  obtain ⟨rank, hat⟩ := hg'.blockAt
  obtain ⟨hb', hseq⟩ := block?_eq_some.mp h
  rw [hat] at hb'
  split at hb'
  · rename_i hslot
    obtain rfl := Option.some.inj hb'
    refine absurd ?_ hx
    obtain ⟨slot, seq⟩ := x
    obtain ⟨slot', seq'⟩ := id
    rw [BlockId.mk.injEq]
    exact ⟨hslot, hseq.symm.trans hg'.seq.symm⟩
  · split at hb'
    · simp at hb'
    · rename_i hpair
      obtain ⟨b, hb, rfl⟩ := Option.map_eq_some_iff.mp hb'
      refine ⟨⟨fun h => hpair (Or.inl (h ▸ rfl)), fun h => hpair (Or.inr (h ▸ rfl))⟩, b, ?_, rfl,
        rfl, rfl⟩
      exact block?_eq_some.mpr ⟨hb, hseq⟩

/-- A block with a name that was in use before the merge keeps its gate. -/
lemma Merged.exists_old {x : BlockId} {b' : Block α} (hx : x.seq < g.nextSeq)
    (h : g'.block? x = some b') : ∃ b, g.block? x = some b ∧ b'.gate = b.gate := by
  have hne : x ≠ id := by
    rintro rfl
    rw [hg'.seq] at hx
    exact lt_irrefl _ hx
  obtain ⟨-, b, hb, hgate, -⟩ := hg'.block?_old hne h
  exact ⟨b, hb, hgate⟩

include hm

lemma Merged.block?_kept {x : BlockId} {b : Block α} (h : g.block? x = some b) (he : x ≠ e)
    (hl : x ≠ l) : x.slot ≠ id.slot ∧
      ∃ b', g'.block? x = some b' ∧ b'.gate = b.gate ∧ b'.seq = b.seq ∧
        b'.origins = b.origins := by
  have hse : x.slot ≠ e.slot := fun heq => he (eq_of_block? h hm.earlier heq)
  have hsl : x.slot ≠ l.slot := fun heq => hl (eq_of_block? h hm.later heq)
  obtain ⟨hb, hseq⟩ := block?_eq_some.mp h
  have hne : x.slot ≠ id.slot := by
    intro heq
    rcases hg'.fresh with hf | hf | hf
    · exact hse (heq.trans hf)
    · exact hsl (heq.trans hf)
    · rw [← heq, hb] at hf
      simp at hf
  obtain ⟨rank, hat⟩ := hg'.blockAt
  have hb' := hat x.slot
  rw [if_neg hne, if_neg (not_or.mpr ⟨hse, hsl⟩), hb] at hb'
  exact ⟨hne, _, block?_eq_some.mpr ⟨hb', hseq⟩, rfl, rfl, rfl⟩

/-- A link of the graph is one of the merged graph, unless it joins the pair. -/
lemma Merged.precedes_renamed (hs : Sound g w) {a b : Nat} (h : g.Precedes a b) :
    renamed e.slot l.slot id.slot a = renamed e.slot l.slot id.slot b ∨
      g'.Precedes (renamed e.slot l.slot id.slot a) (renamed e.slot l.slot id.slot b) := by
  obtain ⟨q, hf⟩ := hs.wired.precedes_iff.mp h
  by_cases hq : q ∈ unionInOrder first.gate second.gate
  · obtain ⟨front, back, hp, -, -, hwire, -⟩ := hm.wire_of_mem hs.wired hg'.fresh hq
    refine (hp.follows_renamed hf).imp_right fun hf' => ?_
    exact hg'.sound.wired.precedes_iff.mpr ⟨q, by rwa [hwire]⟩
  · obtain ⟨⟨he, hl⟩, hwire⟩ := hm.wire_of_notMem hs.wired (m := id.slot) hq
    have hother : ∀ s ∈ w q, renamed e.slot l.slot id.slot s = s := by
      intro s hsw
      have hse : s ≠ e.slot := fun heq => he (heq ▸ hsw)
      have hsl : s ≠ l.slot := fun heq => hl (heq ▸ hsw)
      exact if_neg (not_or.mpr ⟨hse, hsl⟩)
    rw [hother a hf.mem_left, hother b hf.mem_right]
    exact Or.inr (hg'.sound.wired.precedes_iff.mpr ⟨q, by rwa [hwire]⟩)

lemma Merged.path_renamed (hs : Sound g w) {a b : Nat} (h : TransGen g.Precedes a b) :
    ReflTransGen g'.Precedes (renamed e.slot l.slot id.slot a)
      (renamed e.slot l.slot id.slot b) := by
  induction h with
  | single h =>
    rcases hg'.precedes_renamed hm hs h with heq | hp
    · rw [heq]
    · exact .single hp
  | tail _ h ih =>
    rcases hg'.precedes_renamed hm hs h with heq | hp
    · rwa [← heq]
    · exact ih.tail hp

/-- A pair elsewhere that may be merged afterwards may be merged before. -/
lemma Merged.mergeable_before (hs : Sound g w) {c d : BlockId} {third fourth : Block α}
    (hc : c ≠ id) (hd : d ≠ id)
    (h : Mergeable g' (fun q => mergeWire e.slot l.slot id.slot (w q)) c d third fourth) :
    ∃ C D, Mergeable g w c d C D ∧ third.gate = C.gate ∧ fourth.gate = D.gate := by
  obtain ⟨⟨hce, hcl⟩, C, hC, hgate, -⟩ := hg'.block?_old hc h.earlier
  obtain ⟨⟨hde, hdl⟩, D, hD, hgate', -⟩ := hg'.block?_old hd h.later
  obtain ⟨hcm, -⟩ := hg'.block?_kept hm hC hce hcl
  obtain ⟨hdm, -⟩ := hg'.block?_kept hm hD hde hdl
  have hsame : ∀ {x : BlockId} {b : Block α}, g.block? x = some b → x ≠ e → x ≠ l →
      renamed e.slot l.slot id.slot x.slot = x.slot := by
    intro x b hx he hl
    exact if_neg (not_or.mpr ⟨fun heq => he (eq_of_block? hx hm.earlier heq),
      fun heq => hl (eq_of_block? hx hm.later heq)⟩)
  refine ⟨C, D, ⟨hC, hD, ?_, fun q hq hq' => ?_, ?_⟩, hgate, hgate'⟩
  · obtain ⟨q, hq, hq'⟩ := h.shared
    exact ⟨q, hgate ▸ hq, hgate' ▸ hq'⟩
  · rcases (hm.follows_mergeWire hs.wired hg'.fresh _ _).mp
      (h.follows q (hgate ▸ hq) (hgate' ▸ hq')) with hf | ⟨-, ⟨heq, -⟩ | ⟨heq, -⟩⟩
    · exact hf.1
    · exact absurd heq hdm
    · exact absurd heq hcm
  · -- a detour before the merge is one afterwards
    rintro ⟨x, hcx, hxd⟩
    have hcx' := hg'.path_renamed hm hs hcx
    have hxd' := hg'.path_renamed hm hs hxd
    rw [hsame hC hce hcl, reflTransGen_iff_eq_or_transGen] at hcx'
    rw [hsame hD hde hdl, reflTransGen_iff_eq_or_transGen] at hxd'
    have hself : ∀ {s}, renamed e.slot l.slot id.slot x = s → s ≠ id.slot → x = s := by
      intro s heq hne
      unfold renamed at heq
      split at heq
      · exact absurd heq.symm hne
      · exact heq
    rcases hcx' with heq | hcx'
    · exact hs.ranked.acyclic _ (hself heq hcm ▸ hcx)
    · rcases hxd' with heq | hxd'
      · exact hs.ranked.acyclic _ (hself heq.symm hdm ▸ hxd)
      · exact h.direct ⟨_, hcx', hxd'⟩

/-- A merge makes no pair elsewhere fusable. -/
theorem Merged.fusable_before (hs : Sound g w) {c d : BlockId} (hc : c ≠ id) (hd : d ≠ id)
    {p : BlockId × BlockId} (h : g'.fusable c d k = some p) : g.fusable c d k = some p := by
  obtain ⟨hside, third, fourth, hm', hle⟩ := hg'.sound.fusable_eq_some.mp h
  refine hs.fusable_eq_some.mpr ⟨hside, ?_⟩
  have hne : p.1 ≠ id ∧ p.2 ≠ id := by
    rcases hside with ⟨hp, hp'⟩ | ⟨hp, hp'⟩
    · rw [hp, hp']
      exact ⟨hc, hd⟩
    · rw [hp, hp']
      exact ⟨hd, hc⟩
  obtain ⟨C, D, hm'', hgate, hgate'⟩ := hg'.mergeable_before hm hs hne.1 hne.2 hm'
  exact ⟨C, D, hm'', by rwa [← hgate, ← hgate']⟩

/-- A merge frees the slots of the pair and fills that of the new block. -/
theorem Merged.liveSlots_perm (hs : Sound g w) : ∃ rest,
    (e.slot :: l.slot :: rest).Perm g.liveSlots ∧ (id.slot :: rest).Perm g'.liveSlots ∧
      ∀ s ∈ rest, s ≠ e.slot ∧ s ≠ l.slot ∧ s ≠ id.slot := by
  obtain ⟨rank, hat⟩ := hg'.blockAt
  have hfirst := (block?_eq_some.mp hm.earlier).1
  have hsecond := (block?_eq_some.mp hm.later).1
  have hne := hm.ne hs.wired
  set rest := g.liveSlots.filter fun s => s ≠ e.slot ∧ s ≠ l.slot with hrest
  have hmem : ∀ s, s ∈ rest ↔ s ∈ g.liveSlots ∧ s ≠ e.slot ∧ s ≠ l.slot := by
    intro s
    rw [hrest, List.mem_filter, decide_eq_true_eq]
  have hnodup : rest.Nodup := nodup_liveSlots.filter _
  have hnew : id.slot ∉ rest := by
    intro h
    obtain ⟨hlive, hse, hsl⟩ := (hmem _).mp h
    obtain ⟨b, hb⟩ := mem_liveSlots.mp hlive
    rcases hg'.fresh with hf | hf | hf
    · exact hse hf
    · exact hsl hf
    · simp [hf] at hb
  have hbefore : (e.slot :: l.slot :: rest).Perm g.liveSlots := by
    refine (List.perm_ext_iff_of_nodup ?_ nodup_liveSlots).mpr fun s => ?_
    · simp [hne, hnodup, hmem]
    · rw [List.mem_cons, List.mem_cons, hmem]
      constructor
      · rintro (rfl | rfl | h)
        · exact mem_liveSlots.mpr ⟨_, hfirst⟩
        · exact mem_liveSlots.mpr ⟨_, hsecond⟩
        · exact h.1
      · intro h
        tauto
  have hafter : (id.slot :: rest).Perm g'.liveSlots := by
    refine (List.perm_ext_iff_of_nodup (List.nodup_cons.mpr ⟨hnew, hnodup⟩)
      nodup_liveSlots).mpr fun s => ?_
    rw [List.mem_cons, hmem, mem_liveSlots, mem_liveSlots, hat]
    by_cases hsm : s = id.slot
    · simp [hsm]
    · by_cases hpair : s = e.slot ∨ s = l.slot
      · rw [if_neg hsm, if_pos hpair]
        simp only [reduceCtorEq, exists_false, iff_false]
        tauto
      · rw [if_neg hsm, if_neg hpair]
        cases g.blockAt? s <;> simp [hsm, not_or.mp hpair]
  refine ⟨rest, hbefore, hafter, fun s hmem' => ?_⟩
  obtain ⟨-, hse, hsl⟩ := (hmem s).mp hmem'
  exact ⟨hse, hsl, fun heq => hnew (heq ▸ hmem')⟩

/-- A merge leaves one block less. -/
theorem Merged.numBlocks (hs : Sound g w) : g'.numBlocks + 1 = g.numBlocks := by
  obtain ⟨rest, hbefore, hafter, -⟩ := hg'.liveSlots_perm hm hs
  rw [CircuitGraph.numBlocks, CircuitGraph.numBlocks, ← hbefore.length_eq, ← hafter.length_eq]
  rfl

end Elsewhere

end GateFusion.CircuitGraph
