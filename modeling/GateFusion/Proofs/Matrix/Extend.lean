import GateFusion.Proofs.Matrix.Product
import GateFusion.Proofs.State.Operator

/-!
# Extending a matrix

A matrix that is extended to more qubits, in whatever order, acts as before. Where two indices
differ at a new qubit the extended matrix is zero; everywhere else it has the entry of the gathered
bits.
-/

namespace GateFusion.GateMatrix

/-- Where the own qubits stand in the target list. -/
def places (own target : List Qubit) : List Nat := own.map target.idxOf

lemma length_places (own target : List Qubit) : (places own target).length = own.length :=
  List.length_map _

lemma gather_places_lt (own target : List Qubit) (i : Nat) :
    gather (places own target) i < 2 ^ own.length := by
  have hlt := gather_lt (places own target) i
  rwa [length_places] at hlt

section Places
variable {own target : List Qubit} (hsub : ∀ q ∈ own, q ∈ target)
include hsub

lemma getElem?_target_of_places {j p : Nat} (hj : (places own target)[j]? = some p) :
    ∃ q, own[j]? = some q ∧ target[p]? = some q := by
  rw [places, List.getElem?_map, Option.map_eq_some_iff] at hj
  obtain ⟨q, hq, rfl⟩ := hj
  have hlt := List.idxOf_lt_length_iff.mpr (hsub q (List.mem_of_getElem? hq))
  exact ⟨q, hq, by rw [List.getElem?_eq_getElem hlt, List.getElem_idxOf hlt]⟩

lemma places_lt : ∀ p ∈ places own target, p < target.length := by
  intro p hp
  obtain ⟨q, hq, rfl⟩ := List.mem_map.mp hp
  exact List.idxOf_lt_length_iff.mpr (hsub q hq)

lemma nodup_places (hown : own.Nodup) : (places own target).Nodup := by
  refine List.Nodup.map_on (fun q hq r _ heq => ?_) hown
  exact (List.idxOf_inj (hsub q hq)).mp heq

lemma positions_eq_ok {α : Type} :
    (positions own target : Except (CircuitError α) (List Nat)) = .ok (places own target) := by
  refine mapM_eq_ok fun q hq => ?_
  have hidx := List.idxOf_eq_getD_idxOf? q target
  cases h : target.idxOf? q with
  | none => exact absurd (hsub q hq) (List.idxOf?_eq_none_iff.mp h)
  | some p => rw [hidx, h, Option.getD_some]

/-- Bits gathered from gathered bits, wherever the latter come from. -/
lemma gather_places_map (f : Qubit → Nat) (i : Nat) :
    gather (places own target) (gather (target.map f) i) = gather (own.map f) i := by
  refine Nat.eq_of_testBit_eq fun j => ?_
  rw [testBit_gather, testBit_gather, List.getElem?_map]
  cases hj : (places own target)[j]? with
  | none =>
    have hnone : own[j]? = none := by simpa [places] using hj
    rw [hnone]
    rfl
  | some p =>
    obtain ⟨q, hq, hp⟩ := getElem?_target_of_places hsub hj
    rw [hq, Option.map_some, Option.getD_some, testBit_gather, List.getElem?_map, hp]

/-- Gathering the own bits from gathered bits. -/
lemma gather_places (i : Nat) :
    gather (places own target) (gather target i) = gather own i := by
  have h := gather_places_map hsub id i
  rwa [List.map_id, List.map_id] at h

/-- Replacing the own bits among gathered bits, and putting those back, is replacing the own
bits. -/
lemma patch_places (hown : own.Nodup) (htarget : target.Nodup) (i c : Nat) :
    patch target i (patch (places own target) (gather target i) c) = patch own i c := by
  have hps := nodup_places hsub hown
  refine eq_of_testBit own (fun j b hj => ?_) fun b hb => ?_
  · have hp : (places own target)[j]? = some (target.idxOf b) := by
      rw [places, List.getElem?_map, hj, Option.map_some]
    obtain ⟨q, hq, hp'⟩ := getElem?_target_of_places hsub hp
    obtain rfl : b = q := Option.some.inj (hj.symm.trans hq)
    rw [testBit_patch_of_getElem? htarget hp', testBit_patch_of_getElem? hps hp,
      testBit_patch_of_getElem? hown hj]
  · rw [testBit_patch_of_notMem hb]
    by_cases hb' : b ∈ target
    · obtain ⟨p, hp⟩ := List.mem_iff_getElem?.mp hb'
      have hnot : p ∉ places own target := by
        intro hmem
        obtain ⟨j, hj⟩ := List.mem_iff_getElem?.mp hmem
        obtain ⟨q, hq, hp'⟩ := getElem?_target_of_places hsub hj
        rw [hp] at hp'
        exact hb (Option.some.inj hp' ▸ List.mem_of_getElem? hq)
      rw [testBit_patch_of_getElem? htarget hp, testBit_patch_of_notMem hnot, testBit_gather, hp,
        Option.map_some, Option.getD_some]
    · rw [testBit_patch_of_notMem hb']

end Places

/-- Indices agree outside positions if replacing the bits there turns one into the other. -/
lemma agreeOutside_iff {ps : List Nat} (hps : ps.Nodup) {width r c : Nat} (hr : r < 2 ^ width)
    (hc : c < 2 ^ width) : agreeOutside ps width r c = true ↔ patch ps r (gather ps c) = c := by
  simp only [agreeOutside, List.all_eq_true, List.mem_range, Bool.or_eq_true, beq_iff_eq,
    List.contains_eq_mem, decide_eq_true_eq]
  constructor
  · intro h
    refine eq_of_testBit ps (fun j b hj => ?_) fun b hb => ?_
    · rw [testBit_patch_of_getElem? hps hj, testBit_gather, hj, Option.map_some, Option.getD_some]
    · rw [testBit_patch_of_notMem hb]
      by_cases hlt : b < width
      · exact (h b hlt).resolve_left hb
      · have hpow := Nat.pow_le_pow_right Nat.two_pos (Nat.not_lt.mp hlt)
        rw [Nat.testBit_lt_two_pow (hr.trans_le hpow), Nat.testBit_lt_two_pow (hc.trans_le hpow)]
  · intro h b _
    by_cases hb : b ∈ ps
    · exact Or.inl hb
    · rw [← h, testBit_patch_of_notMem hb]
      exact Or.inr rfl

section Extend
variable {α : Type} [Scalar α]

/-- An entry of the extended matrix. -/
def extendedEntry (m : GateMatrix α) (own target : List Qubit) (r c : Nat) : Entry α :=
  if agreeOutside (places own target) target.length r c then
    m.entry (gather (places own target) r) (gather (places own target) c)
  else 0

/-- An entry of the extended matrix is zero or one of the matrix. -/
lemma extendedEntry_cases (m : GateMatrix α) (own target : List Qubit) (r c : Nat) :
    extendedEntry m own target r c = 0 ∨
      ∃ r' c', extendedEntry m own target r c = m.entry r' c' := by
  unfold extendedEntry
  split
  · exact Or.inr ⟨_, _, rfl⟩
  · exact Or.inl rfl

/-- Whatever extends is of the right size and has no entries but zeros and those of the matrix. -/
lemma extend_spec {m m' : GateMatrix α} {own target : List Qubit}
    (h : m.extend own target = .ok m') :
    m'.WellFormed ∧ ∀ e ∈ m'.entries.toList, e = 0 ∨ e ∈ m.entries.toList := by
  unfold extend at h
  obtain ⟨-, -, h⟩ := bind_eq_ok.mp h
  obtain ⟨ps, -, h⟩ := bind_eq_ok.mp h
  obtain ⟨-, -, h⟩ := bind_eq_ok.mp h
  obtain ⟨entries, hentries, h⟩ := bind_eq_ok.mp h
  obtain rfl := Except.ok.inj h
  have hall := forall₂_of_mapM hentries
  constructor
  · have hlen := hall.length_eq
    rw [List.length_range] at hlen
    exact hlen.symm
  · intro e he
    obtain ⟨i, -, hi⟩ := exists_of_forall₂ hall.flip he
    dsimp only at hi
    split at hi
    · split at hi
      · rename_i e' hget
        obtain rfl := Except.ok.inj hi
        rw [get?] at hget
        exact Or.inr (Array.mem_toList_iff.mpr (Array.mem_of_getElem? hget))
      · simp at hi
    · exact Or.inl (Except.ok.inj hi).symm

/-- Extending fails only if the target is too wide. -/
lemma extend_eq {m : GateMatrix α} {own target : List Qubit} (hm : m.WellFormed)
    (hk : m.numQubits = own.length) (hsub : ∀ q ∈ own, q ∈ target) :
    m.extend own target = do
      checkIndexWidth target.length "matrix extension"
      let _ ← entryCount (α := α) target.length
      return ofFn target.length (extendedEntry m own target) := by
  have hlt : ∀ x, gather (places own target) x < m.dim := by
    intro x
    have h := gather_places_lt own target x
    rwa [← hk] at h
  unfold extend
  rw [positions_eq_ok hsub]
  cases checkIndexWidth (α := α) target.length "matrix extension" with
  | error e => rfl
  | ok u =>
    cases entryCount (α := α) target.length with
    | error e => rfl
    | ok n =>
      change (List.mapM _ _ >>= fun es => Except.ok (GateMatrix.mk target.length es.toArray)) = _
      rw [mapM_eq_ok (k := fun i => extendedEntry m own target (i / Nat.pow 2 target.length)
        (i % Nat.pow 2 target.length))]
      · rfl
      · intro i _
        dsimp only
        by_cases h : agreeOutside (places own target) target.length (i / Nat.pow 2 target.length)
            (i % Nat.pow 2 target.length) = true
        · obtain ⟨e, -, he⟩ := get?_eq_some hm (hlt (i / Nat.pow 2 target.length))
            (hlt (i % Nat.pow 2 target.length))
          rw [extendedEntry, if_pos h, if_pos h, entry, he, Option.getD_some]
        · rw [extendedEntry, if_neg h, if_neg h]

end Extend

section Act
variable {α : Type} [Exact α] {m : GateMatrix α} {own target : List Qubit}

/-- Extending brings in no symbols. -/
lemma mem_symbols_extended {k : Nat} {n : String}
    (h : n ∈ (ofFn k (extendedEntry m own target)).symbols) : n ∈ m.symbols := by
  obtain ⟨e, he, hn⟩ := mem_symbols.mp h
  refine forall_mem_ofFn (P := fun e => ∀ n ∈ e.symbols, n ∈ m.symbols) ?_ e he n hn
  intro r c _ _ n hn
  rcases extendedEntry_cases m own target r c with hzero | ⟨r', c', hentry⟩
  · simp [hzero, Entry.symbols_zero] at hn
  · exact mem_symbols_entry (hentry ▸ hn)

/-- The extended matrix acts on the target qubits as the matrix does on its own. -/
theorem act_extendedEntry (hsub : ∀ q ∈ own, q ∈ target) (hown : own.Nodup)
    (htarget : target.Nodup) (v : String → α) (amp : Nat → Cartesian α) :
    act target (fun r c => (extendedEntry m own target r c).value v) amp =
      act own (m.value v) amp := by
  funext i
  have hps := nodup_places hsub hown
  have hterm : ∀ c ∈ Finset.range (2 ^ target.length),
      (extendedEntry m own target (gather target i) c).value v * amp (patch target i c) =
        if patch (places own target) (gather target i) (gather (places own target) c) = c then
          m.value v (gather own i) (gather (places own target) c) * amp (patch target i c)
        else 0 := by
    intro c hc
    rw [extendedEntry, ← gather_places hsub i]
    have hiff := agreeOutside_iff hps (gather_lt target i) (Finset.mem_range.mp hc)
    by_cases h : patch (places own target) (gather target i) (gather (places own target) c) = c
    · rw [if_pos (hiff.mpr h), if_pos h]
      rfl
    · rw [if_neg (mt hiff.mp h), if_neg h, Entry.value_zero, zero_mul]
  rw [act, act, Finset.sum_congr rfl hterm, ← Finset.sum_filter]
  refine Finset.sum_nbij' (gather (places own target))
    (fun c => patch (places own target) (gather target i) c) ?_ ?_ ?_ ?_ ?_
  · intro c _
    exact Finset.mem_range.mpr (gather_places_lt own target c)
  · intro c hc
    rw [Finset.mem_range, ← length_places own target] at hc
    rw [Finset.mem_filter, Finset.mem_range]
    exact ⟨patch_lt (places_lt hsub) (gather_lt target i), by rw [gather_patch hps hc]⟩
  · intro c hc
    exact (Finset.mem_filter.mp hc).2
  · intro c hc
    rw [Finset.mem_range, ← length_places own target] at hc
    exact gather_patch hps hc
  · intro c hc
    have h := (Finset.mem_filter.mp hc).2
    rw [← patch_places hsub hown htarget, h]

end Act
end GateFusion.GateMatrix
