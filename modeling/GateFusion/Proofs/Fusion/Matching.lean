import GateFusion.Fusion.Candidates
import GateFusion.Proofs.Related

/-!
# Matching candidates

Two sets of candidates match along a correspondence of names if they hold the same keys in one
order, with candidates that name corresponding blocks. What is put in or taken out on both sides
leaves them matching.
-/

namespace GateFusion
open Relator
variable {α : Type} {T : BlockId → BlockId → Prop}

section Maps
variable {κ ν : Type} {cmp : κ → κ → Ordering} {V : ν → ν → Prop} {m m' : OrderedMap κ ν}

/-- Entries at one key with related values. -/
def SameKey (V : ν → ν → Prop) (p p' : κ × ν) : Prop := p.1 = p'.1 ∧ V p.2 p'.2

namespace OrderedMap
variable (h : List.Forall₂ (SameKey V) m m')
include h

lemma forall₂_insert (key : κ) {v v' : ν} (hv : V v v') :
    List.Forall₂ (SameKey V) (insert cmp key v m) (insert cmp key v' m') := by
  unfold insert
  induction h with
  | nil => exact .cons ⟨rfl, hv⟩ .nil
  | @cons p p' rest rest' hp hrest ih =>
    obtain ⟨k, x⟩ := p
    obtain ⟨k', x'⟩ := p'
    obtain rfl : k = k' := hp.1
    rw [upsert, upsert]
    cases cmp key k with
    | lt => exact .cons ⟨rfl, hv⟩ (.cons hp hrest)
    | eq => exact .cons ⟨rfl, hv⟩ hrest
    | gt => exact .cons hp ih

lemma forall₂_get? (key : κ) : Option.Rel V (get? cmp key m) (get? cmp key m') := by
  induction h with
  | nil => exact .none
  | @cons p p' rest rest' hp hrest ih =>
    obtain ⟨k, x⟩ := p
    obtain ⟨k', x'⟩ := p'
    obtain rfl : k = k' := hp.1
    rw [get?, get?]
    by_cases hk : cmp key k = .eq
    · rw [if_pos hk, if_pos hk]
      exact .some hp.2
    · rw [if_neg hk, if_neg hk]
      exact ih

lemma forall₂_erase (key : κ) :
    List.Forall₂ (SameKey V) (erase cmp key m) (erase cmp key m') := by
  refine List.rel_filter (fun p p' hp => ?_) h
  dsimp only
  rw [hp.1]

end OrderedMap
end Maps

/-- Candidates that merge corresponding blocks into one gate. -/
structure Candidate.Counterpart (T : BlockId → BlockId → Prop) (c c' : Candidate α) : Prop where
  earlier : T c.earlier c'.earlier
  later : T c.later c'.later
  fused : c.fused = c'.fused

namespace CandidateSet
variable [Scalar α] {s s' : CandidateSet α} {c c' : Candidate α}

/-- Block by block the same keys. -/
def SameKeys (T : BlockId → BlockId → Prop)
    (p p' : BlockId × List (CandidateKey α)) : Prop := T p.1 p'.1 ∧ p.2 = p'.2

/-- Candidates of corresponding blocks under the same keys. -/
structure Matches (T : BlockId → BlockId → Prop) (s s' : CandidateSet α) : Prop where
  queue : List.Forall₂ (SameKey (Candidate.Counterpart T)) s.queue s'.queue
  byBlock : List.Forall₂ (SameKeys T) s.byBlock s'.byBlock

section Index
variable {x x' : BlockId} (hT : BiUnique T) (hx : T x x') (key : CandidateKey α)
  {m m' : List (BlockId × List (CandidateKey α))}
include hT hx

omit [Scalar α] in
lemma forall₂_index (h : List.Forall₂ (SameKeys T) m m') :
    List.Forall₂ (SameKeys T) (index x key m) (index x' key m') := by
  induction h with
  | nil => exact .cons ⟨hx, rfl⟩ .nil
  | @cons p p' rest rest' hp hrest ih =>
    obtain ⟨i, keys⟩ := p
    obtain ⟨i', keys'⟩ := p'
    obtain ⟨hi, rfl⟩ : T i i' ∧ keys = keys' := hp
    have heq : i = x ↔ i' = x' := rel_eq hT hi hx
    rw [index, index]
    by_cases hix : i = x
    · rw [if_pos hix, if_pos (heq.mp hix)]
      exact .cons ⟨hi, rfl⟩ hrest
    · rw [if_neg hix, if_neg (mt heq.mpr hix)]
      exact .cons ⟨hi, rfl⟩ ih

lemma forall₂_unindex (h : List.Forall₂ (SameKeys T) m m') :
    List.Forall₂ (SameKeys T) (unindex x key m) (unindex x' key m') := by
  induction h with
  | nil => exact .nil
  | @cons p p' rest rest' hp hrest ih =>
    obtain ⟨i, keys⟩ := p
    obtain ⟨i', keys'⟩ := p'
    obtain ⟨hi, rfl⟩ : T i i' ∧ keys = keys' := hp
    have heq : i = x ↔ i' = x' := rel_eq hT hi hx
    rw [unindex, unindex]
    by_cases hix : i = x
    · rw [if_pos hix, if_pos (heq.mp hix)]
      dsimp only
      split
      · exact hrest
      · exact .cons ⟨hi, rfl⟩ hrest
    · rw [if_neg hix, if_neg (mt heq.mpr hix)]
      exact .cons ⟨hi, rfl⟩ ih

omit [Scalar α] in
lemma lookup_eq (h : List.Forall₂ (SameKeys T) m m') : m.lookup x = m'.lookup x' := by
  induction h with
  | nil => rfl
  | @cons p p' rest rest' hp hrest ih =>
    obtain ⟨i, keys⟩ := p
    obtain ⟨i', keys'⟩ := p'
    obtain ⟨hi, rfl⟩ : T i i' ∧ keys = keys' := hp
    have heq : (x == i) = (x' == i') := by
      rw [Bool.eq_iff_iff, beq_iff_eq, beq_iff_eq]
      exact rel_eq hT hx hi
    rw [List.lookup_cons, List.lookup_cons, heq, ih]

end Index

namespace Matches
variable (h : Matches T s s')
include h

omit [Scalar α] in
lemma mono {S : BlockId → BlockId → Prop} (hle : ∀ x x', T x x' → S x x') :
    Matches S s s' := by
  constructor
  · exact h.queue.imp fun p p' hp => ⟨hp.1, hle _ _ hp.2.earlier, hle _ _ hp.2.later, hp.2.fused⟩
  · exact h.byBlock.imp fun p p' hp => ⟨hle _ _ hp.1, hp.2⟩

variable (hT : BiUnique T)
include hT

lemma insert (key : CandidateKey α) (hc : c.Counterpart T c') :
    Matches T (s.insert key c) (s'.insert key c') :=
  ⟨OrderedMap.forall₂_insert h.queue key hc,
    forall₂_index hT hc.later key (forall₂_index hT hc.earlier key h.byBlock)⟩

lemma pop? : Option.Rel (fun r r' => r.1.Counterpart T r'.1 ∧ Matches T r.2 r'.2)
    s.pop? s'.pop? := by
  obtain ⟨hqueue, hblocks⟩ := h
  unfold CandidateSet.pop?
  generalize s.queue = q at hqueue
  generalize s'.queue = q' at hqueue
  cases hqueue with
  | nil => exact .none
  | @cons p p' rest rest' hp hrest =>
    obtain ⟨key, c⟩ := p
    obtain ⟨key', c'⟩ := p'
    obtain ⟨rfl, hc⟩ : key = key' ∧ c.Counterpart T c' := hp
    exact .some ⟨hc, hrest, forall₂_unindex hT hc.later key
      (forall₂_unindex hT hc.earlier key hblocks)⟩

variable {x x' : BlockId} (hx : T x x')
include hx

lemma dropKey (key : CandidateKey α) : Matches T (dropKey x s key) (dropKey x' s' key) := by
  have hget : Option.Rel (Candidate.Counterpart T)
      (OrderedMap.get? CandidateKey.cmp key s.queue)
      (OrderedMap.get? CandidateKey.cmp key s'.queue) := OrderedMap.forall₂_get? h.queue key
  unfold CandidateSet.dropKey
  generalize OrderedMap.get? CandidateKey.cmp key s.queue = o at hget
  generalize OrderedMap.get? CandidateKey.cmp key s'.queue = o' at hget
  cases hget with
  | none => exact h
  | @some c c' hc =>
    have heq : c.earlier = x ↔ c'.earlier = x' := rel_eq hT hc.earlier hx
    have hother : T (if c.earlier = x then c.later else c.earlier)
        (if c'.earlier = x' then c'.later else c'.earlier) := by
      by_cases hc' : c.earlier = x
      · rw [if_pos hc', if_pos (heq.mp hc')]
        exact hc.later
      · rw [if_neg hc', if_neg (mt heq.mpr hc')]
        exact hc.earlier
    exact ⟨OrderedMap.forall₂_erase h.queue key, forall₂_unindex hT hother key h.byBlock⟩

lemma retire : Matches T (s.retire x) (s'.retire x') := by
  have hdrop : ∀ (keys : List (CandidateKey α)) {t t' : CandidateSet α}, Matches T t t' →
      Matches T (keys.foldl (CandidateSet.dropKey x) t)
        (keys.foldl (CandidateSet.dropKey x') t') := by
    intro keys
    induction keys with
    | nil => exact fun ht => ht
    | cons key keys ih => exact fun ht => ih (ht.dropKey hT hx key)
  unfold CandidateSet.retire keysOf
  rw [lookup_eq hT hx h.byBlock]
  apply hdrop
  refine ⟨h.queue, List.rel_filter (fun p p' hp => ?_) h.byBlock⟩
  dsimp only
  rw [decide_eq_true_iff, decide_eq_true_iff]
  exact not_congr (rel_eq hT hp.1 hx)

end Matches
end CandidateSet

end GateFusion
