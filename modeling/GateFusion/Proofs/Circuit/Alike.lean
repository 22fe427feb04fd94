import GateFusion.Proofs.Circuit.Mirror

/-!
# Merging in graphs of the same circuit

When corresponding pairs are merged in two graphs that mirror each other, the merged graphs do, with
the two new blocks for each other. Graphs that list the same creation numbers on their wires and
hold equal blocks under equal numbers mirror each other, and the other way round.
-/

namespace GateFusion.CircuitGraph
open Relator
variable {α : Type} {g g' g₁ g₁' : CircuitGraph α} {w w' : Qubit → List Nat}

section Merge
variable {e l id : BlockId} {first second : Block α} {fused : Gate α}

lemma Merged.map_content (hm : Mergeable g w e l first second)
    (hmerged : Merged g w e l first second fused id g₁) {x : BlockId} (hx : x ≠ id) :
    (g₁.block? x).map Block.content =
      if x = e ∨ x = l then none else (g.block? x).map Block.content := by
  by_cases hpair : x = e ∨ x = l
  · rw [if_pos hpair, Option.map_eq_none_iff]
    by_contra hsome
    obtain ⟨b', hb'⟩ := Option.ne_none_iff_exists'.mp hsome
    exact not_or.mpr (hmerged.block?_old hx hb').1 hpair
  · rw [if_neg hpair]
    rw [not_or] at hpair
    cases hb : g.block? x with
    | none =>
      rw [Option.map_none, Option.map_eq_none_iff]
      by_contra hsome
      obtain ⟨b', hb'⟩ := Option.ne_none_iff_exists'.mp hsome
      obtain ⟨-, b, hb', -⟩ := hmerged.block?_old hx hb'
      rw [hb] at hb'
      nomatch hb'
    | some b =>
      obtain ⟨-, b', hb', hgate, -, horigins⟩ := hmerged.block?_kept hm hb hpair.1 hpair.2
      rw [hb', Option.map_some, Option.map_some, Block.content, Block.content, hgate, horigins]

/-- A correspondence, and two new names for each other. -/
def Extended (T : BlockId → BlockId → Prop) (id id' x x' : BlockId) : Prop :=
  T x x' ∨ (x = id ∧ x' = id')

variable {T : BlockId → BlockId → Prop} {e' l' id' : BlockId} {first' second' : Block α}
  (h : Mirrored T g w g' w') (hm : Mergeable g w e l first second)
  (hm' : Mergeable g' w' e' l' first' second')
  (hmerged : Merged g w e l first second fused id g₁)
  (hmerged' : Merged g' w' e' l' first' second' fused id' g₁') (he : T e e') (hl : T l l')
include h hmerged hmerged'

lemma Mirrored.ne_new {x x' : BlockId} (hx : T x x') : x ≠ id ∧ x' ≠ id' := by
  obtain ⟨hseq, hlt⟩ := h.seq hx
  constructor
  · rintro rfl
    rw [hmerged.seq] at hlt
    exact lt_irrefl _ hlt
  · rintro rfl
    rw [hseq, hmerged'.seq, h.nextSeq] at hlt
    exact lt_irrefl _ hlt

lemma Mirrored.unique_extended : BiUnique (Extended T id id') := by
  have hne : ∀ {x x'}, T x x' → x ≠ id ∧ x' ≠ id' := h.ne_new hmerged hmerged'
  constructor
  · rintro a b c (ha | ⟨rfl, rfl⟩) (hc | ⟨rfl, hc⟩)
    · exact h.unique.1 ha hc
    · exact absurd hc (hne ha).2
    · exact absurd rfl (hne hc).2
    · rfl
  · rintro a b c (hb | ⟨rfl, rfl⟩) (hc | ⟨ha, rfl⟩)
    · exact h.unique.2 hb hc
    · exact absurd ha (hne hb).1
    · exact absurd rfl (hne hc).1
    · rfl

include hm hm' he hl

lemma Mirrored.facing_renamed {s s' : Nat} (hs : Facing T g g' s s') :
    Facing (Extended T id id') g₁ g₁' (renamed e.slot l.slot id.slot s)
      (renamed e'.slot l'.slot id'.slot s') := by
  have hpair : (s = e.slot ∨ s = l.slot) ↔ (s' = e'.slot ∨ s' = l'.slot) :=
    or_congr (rel_eq h.unique_facing hs (h.facing he hm.earlier))
      (rel_eq h.unique_facing hs (h.facing hl hm.later))
  unfold renamed
  by_cases hin : s = e.slot ∨ s = l.slot
  · rw [if_pos hin, if_pos (hpair.mp hin)]
    obtain ⟨b, hb, -⟩ := hmerged.block?_new
    obtain ⟨b', hb', -⟩ := hmerged'.block?_new
    exact ⟨id, id', Or.inr ⟨rfl, rfl⟩, idAt?_of_block? hb, idAt?_of_block? hb'⟩
  · rw [if_neg hin, if_neg (mt hpair.mpr hin)]
    have hout := mt hpair.mpr hin
    obtain ⟨x, x', hx, hat, hat'⟩ := hs
    obtain rfl := slot_of_idAt? hat
    obtain rfl := slot_of_idAt? hat'
    rw [not_or] at hin hout
    obtain ⟨b, hb⟩ := idAt?_slot.mp hat
    obtain ⟨b', hb'⟩ := idAt?_slot.mp hat'
    obtain ⟨-, c, hc, -⟩ := hmerged.block?_kept hm hb (fun heq => hin.1 (heq ▸ rfl))
      (fun heq => hin.2 (heq ▸ rfl))
    obtain ⟨-, c', hc', -⟩ := hmerged'.block?_kept hm' hb' (fun heq => hout.1 (heq ▸ rfl))
      (fun heq => hout.2 (heq ▸ rfl))
    exact ⟨x, x', Or.inl hx, idAt?_of_block? hc, idAt?_of_block? hc'⟩

/-- Merging corresponding pairs into one gate keeps two graphs mirrored. -/
theorem Mirrored.merge :
    Mirrored (Extended T id id') g₁ (fun q => mergeWire e.slot l.slot id.slot (w q))
      g₁' (fun q => mergeWire e'.slot l'.slot id'.slot (w' q)) := by
  constructor
  case sound => exact hmerged.sound
  case sound' => exact hmerged'.sound
  case unique => exact h.unique_extended hmerged hmerged'
  case nextSeq => rw [hmerged.nextSeq, hmerged'.nextSeq, h.nextSeq]
  case seq =>
    rintro x x' (hx | ⟨rfl, rfl⟩)
    · obtain ⟨hseq, hlt⟩ := h.seq hx
      exact ⟨hseq, by rw [hmerged.nextSeq]; omega⟩
    · rw [hmerged.seq, hmerged'.seq, hmerged.nextSeq]
      exact ⟨h.nextSeq, Nat.lt_succ_self _⟩
  case content =>
    rintro x x' (hx | ⟨rfl, rfl⟩)
    · obtain ⟨hne, hne'⟩ := h.ne_new hmerged hmerged' hx
      rw [hmerged.map_content hm hne, hmerged'.map_content hm' hne', h.content hx]
      have hpair := or_congr (rel_eq h.unique hx he) (rel_eq h.unique hx hl)
      simp only [hpair]
    · obtain ⟨b, hb, hgate, horigins⟩ := hmerged.block?_new
      obtain ⟨b', hb', hgate', horigins'⟩ := hmerged'.block?_new
      have hfirst := h.content he
      have hsecond := h.content hl
      rw [hm.earlier, hm'.earlier] at hfirst
      rw [hm.later, hm'.later] at hsecond
      have hfront : first.origins = first'.origins := congrArg Prod.snd (Option.some.inj hfirst)
      have hback : second.origins = second'.origins := congrArg Prod.snd (Option.some.inj hsecond)
      rw [hb, hb', Option.map_some, Option.map_some, Block.content, Block.content, hgate, hgate',
        horigins, horigins', hfront, hback]
  case wire =>
    intro q
    have hfe := h.facing he hm.earlier
    have hmem := List.rel_mem h.unique_facing hfe (h.wire q)
    have hpieces : List.Forall₂ (Facing T g g')
        (if e.slot ∈ w q then (w q).erase l.slot else w q)
        (if e'.slot ∈ w' q then (w' q).erase l'.slot else w' q) := by
      by_cases hin : e.slot ∈ w q
      · rw [if_pos hin, if_pos (hmem.mp hin)]
        exact forall₂_erase h.unique_facing (h.wire q) (h.facing hl hm.later)
      · rw [if_neg hin, if_neg (mt hmem.mpr hin)]
        exact h.wire q
    exact List.rel_map (fun s s' hs => h.facing_renamed hm hm' hmerged hmerged' he hl hs) hpieces

end Merge

section Alike

/-- Graphs of the same circuit: the wires list the same creation numbers, and blocks of equal number
hold the same gate and origins. Slots, ranks and the order of the links may differ. -/
structure Alike (g g' : CircuitGraph α) : Prop where
  nextSeq : g.nextSeq = g'.nextSeq
  wire : ∀ q, (g.wire q).map (·.seq) = (g'.wire q).map (·.seq)
  block : ∀ x x' b b', g.block? x = some b → g'.block? x' = some b' → x.seq = x'.seq →
    b.gate = b'.gate ∧ b.origins = b'.origins

/-- Names of live blocks with one creation number. -/
def SameSeq (g g' : CircuitGraph α) (x x' : BlockId) : Prop :=
  x.seq = x'.seq ∧ g.contains x = true ∧ g'.contains x' = true

lemma Alike.mirrored (h : Alike g g') (hs : Sound g w) (hs' : Sound g' w') :
    Mirrored (SameSeq g g') g w g' w' := by
  constructor
  case sound => exact hs
  case sound' => exact hs'
  case nextSeq => exact h.nextSeq
  case unique =>
    constructor
    · rintro a b c ⟨hac, ha, -⟩ ⟨hbc, hb, -⟩
      obtain ⟨A, hA⟩ := contains_iff.mp ha
      obtain ⟨B, hB⟩ := contains_iff.mp hb
      exact hs.eq_of_seq hA hB (hac.trans hbc.symm)
    · rintro a b c ⟨hab, -, hb⟩ ⟨hac, -, hc⟩
      obtain ⟨B, hB⟩ := contains_iff.mp hb
      obtain ⟨C, hC⟩ := contains_iff.mp hc
      exact hs'.eq_of_seq hB hC (hab.symm.trans hac)
  case seq =>
    rintro x x' ⟨hseq, hx, -⟩
    obtain ⟨b, hb⟩ := contains_iff.mp hx
    obtain ⟨hat, hb⟩ := block?_eq_some.mp hb
    exact ⟨hseq, hb ▸ (hs.stored.placed _ _ hat).seq_lt⟩
  case content =>
    rintro x x' ⟨hseq, hx, hx'⟩
    obtain ⟨b, hb⟩ := contains_iff.mp hx
    obtain ⟨b', hb'⟩ := contains_iff.mp hx'
    obtain ⟨hgate, horigins⟩ := h.block x x' b b' hb hb' hseq
    rw [hb, hb', Option.map_some, Option.map_some, Block.content, Block.content, hgate, horigins]
  case wire =>
    intro q
    have hnames : List.Forall₂ (SameSeq g g') (g.wire q) (g'.wire q) := by
      refine forall₂_of_map_eq (h.wire q) fun x hx y hy hseq => ⟨hseq, ?_, ?_⟩
      · obtain ⟨b, hb, -⟩ := hs.wired.mem_wire.mp hx
        exact contains_iff.mpr ⟨b, hb⟩
      · obtain ⟨b, hb, -⟩ := hs'.wired.mem_wire.mp hy
        exact contains_iff.mpr ⟨b, hb⟩
    rw [← hs.wired.map_slot_wire, ← hs'.wired.map_slot_wire]
    refine List.rel_map (fun x x' hx => ?_) hnames
    obtain ⟨b, hb⟩ := contains_iff.mp hx.2.1
    obtain ⟨b', hb'⟩ := contains_iff.mp hx.2.2
    exact ⟨x, x', hx, idAt?_of_block? hb, idAt?_of_block? hb'⟩

variable {T : BlockId → BlockId → Prop}

lemma Mirrored.alike (h : Mirrored T g w g' w') : Alike g g' := by
  constructor
  case nextSeq => exact h.nextSeq
  case wire =>
    intro q
    rw [h.sound.wired.wire_eq, h.sound'.wired.wire_eq]
    refine map_eq_of_forall₂ (List.rel_filterMap ?_ (h.wire q)) fun x x' hx => (h.seq hx).1
    rintro s s' ⟨x, x', hx, hs, hs'⟩
    rw [hs, hs']
    exact .some hx
  case block =>
    intro x y' b b' hb hb' hseq
    obtain ⟨x', hx⟩ := h.exists_twin hb
    obtain ⟨c, hc, hgate, horigins⟩ := h.twin hx hb
    obtain rfl := h.sound'.eq_of_seq hc hb' ((h.seq hx).1.symm.trans hseq)
    obtain rfl := Option.some.inj (hc.symm.trans hb')
    exact ⟨hgate.symm, horigins.symm⟩

end Alike
end GateFusion.CircuitGraph
