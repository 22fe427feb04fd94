import GateFusion.Proofs.Gate.Compose

/-!
# Applying gates in place

A gate is applied group by group, where a group holds the amplitudes whose indices differ at the
qubits of the gate only. Groups do not overlap, so the amplitudes left are those of the operator.
-/

namespace GateFusion.Statevector
open GateMatrix
variable {α : Type} [Exact α]

/-- As many amplitudes as the number of qubits asks for. -/
def WellFormed (s : Statevector α) : Prop := s.amplitudes.size = 2 ^ s.numQubits

/-- The amplitude at an index, and zero outside. -/
def amp (s : Statevector α) (i : Nat) : Cartesian α := s.amplitudes.getD i 0

lemma amp_of_le {s : Statevector α} (hs : s.WellFormed) {i : Nat} (hi : 2 ^ s.numQubits ≤ i) :
    s.amp i = 0 := by
  rw [amp, Array.getD_eq_getD_getElem?, Array.getElem?_eq_none (hs ▸ hi), Option.getD_none]

/-- States are equal if their amplitudes are. -/
lemma ext_of_amp {s t : Statevector α} (hs : s.WellFormed) (ht : t.WellFormed)
    (hn : s.numQubits = t.numQubits) (h : s.amp = t.amp) : s = t := by
  obtain ⟨xs, n⟩ := s
  obtain ⟨ys, n'⟩ := t
  obtain rfl : n = n' := hn
  have hsize : xs.size = ys.size := hs.trans ht.symm
  have hxs : xs = ys := by
    refine Array.ext hsize fun i hi hi' => ?_
    have hamp := congrFun h i
    simpa [amp, hi, hi'] using hamp
  rw [hxs]

section Places
variable {ι : Type} (place : ι → Nat) (x : ι → Cartesian α)

omit [Exact α] in
lemma size_foldl_set (js : List ι) (amps : Array (Cartesian α)) :
    (js.foldl (fun amps j => amps.setIfInBounds (place j) (x j)) amps).size = amps.size := by
  induction js generalizing amps with
  | nil => rfl
  | cons j js ih => rw [List.foldl_cons, ih, Array.size_setIfInBounds]

lemma getD_foldl_set_of_ne {js : List ι} {i : Nat} (h : ∀ j ∈ js, place j ≠ i)
    (amps : Array (Cartesian α)) :
    (js.foldl (fun amps j => amps.setIfInBounds (place j) (x j)) amps).getD i 0 =
      amps.getD i 0 := by
  induction js generalizing amps with
  | nil => rfl
  | cons j js ih =>
    rw [List.foldl_cons, ih fun k hk => h k (by simp [hk]), Array.getD_eq_getD_getElem?,
      Array.getElem?_setIfInBounds_ne (h j (by simp)), ← Array.getD_eq_getD_getElem?]

lemma getD_foldl_set_of_mem {js : List ι} (hn : (js.map place).Nodup) {j : ι} (hj : j ∈ js)
    {amps : Array (Cartesian α)} (hlt : place j < amps.size) :
    (js.foldl (fun amps j => amps.setIfInBounds (place j) (x j)) amps).getD (place j) 0 = x j := by
  induction js generalizing amps with
  | nil => simp at hj
  | cons k js ih =>
    rw [List.map_cons, List.nodup_cons] at hn
    rw [List.foldl_cons]
    by_cases hjs : j ∈ js
    · exact ih hn.2 hjs (by rwa [Array.size_setIfInBounds])
    · obtain rfl := (List.mem_cons.mp hj).resolve_right hjs
      have hne : ∀ k ∈ js, place k ≠ place j := fun k hk heq =>
        hn.1 (heq ▸ List.mem_map_of_mem (f := place) hk)
      rw [getD_foldl_set_of_ne place x hne,
        Array.getD_eq_getD_getElem?, Array.getElem?_setIfInBounds_self_of_lt hlt, Option.getD_some]

end Places

section Group
variable {qs : List Qubit} (m : Nat → Nat → Cartesian α)

omit [Exact α] in
lemma sum_range_eq {M : Type} [AddCommMonoid M] (k : Nat → M) (n : Nat) :
    ((List.range n).map k).sum = ∑ i ∈ Finset.range n, k i := by
  induction n with
  | zero => rfl
  | succ n ih => rw [List.range_succ, List.map_append, List.sum_append, ih, Finset.sum_range_succ,
      List.map_singleton, List.sum_singleton]

lemma scatter_zero (qs : List Qubit) : scatter qs 0 = 0 := by
  induction qs with
  | nil => rfl
  | cons q qs ih => simp [scatter, ih]

lemma base_or_scatter {base : Nat} (hbase : base &&& maskBits qs = 0) (c : Nat) :
    base ||| scatter qs c = patch qs base c := by
  rw [patch, hbase, Nat.xor_zero]

/-- An index is the base of a group if its bits at the qubits are clear. -/
lemma base_iff {i : Nat} : i &&& maskBits qs = 0 ↔ patch qs i 0 = i := by
  rw [patch, scatter_zero, Nat.or_zero]
  constructor
  · intro h
    rw [h, Nat.xor_zero]
  · intro h
    have hx : i ^^^ (i ^^^ (i &&& maskBits qs)) = i ^^^ i := congrArg (i ^^^ ·) h
    rwa [← Nat.xor_assoc, Nat.xor_self, Nat.zero_xor] at hx

/-- The rows of a matrix. -/
def rowsOf (k : Nat) (m : Nat → Nat → Cartesian α) : List (List (Cartesian α)) :=
  (List.range (2 ^ k)).map fun r => (List.range (2 ^ k)).map (m r)

/-- One group: the amplitudes at its indices are replaced, all others stay. -/
lemma applyGroup_spec (hn : qs.Nodup) {n base : Nat} (hq : ∀ q ∈ qs, q < n) (hlt : base < 2 ^ n)
    (hbase : base &&& maskBits qs = 0) {amps : Array (Cartesian α)} (hsize : amps.size = 2 ^ n) :
    (applyGroup (rowsOf qs.length m) ((List.range (2 ^ qs.length)).map (scatter qs)) amps
        base).size = amps.size ∧
      ∀ i, (applyGroup (rowsOf qs.length m) ((List.range (2 ^ qs.length)).map (scatter qs)) amps
        base).getD i 0 =
        if patch qs i 0 = base then act qs m (fun j => amps.getD j 0) i else amps.getD i 0 := by
  have hplace : ∀ c, base ||| scatter qs c = patch qs base c := base_or_scatter hbase
  have hnodup : ((List.range (2 ^ qs.length)).map fun r => patch qs base r).Nodup := by
    refine List.Nodup.map_on (fun r hr c hc heq => ?_) List.nodup_range
    have h := congrArg (gather qs) heq
    rwa [gather_patch hn (List.mem_range.mp hr), gather_patch hn (List.mem_range.mp hc)] at h
  unfold applyGroup rowsOf
  rw [List.zip_map', List.foldl_map]
  simp only [hplace, List.map_map, Function.comp_def]
  refine ⟨size_foldl_set _ _ _ _, fun i => ?_⟩
  by_cases hi : patch qs i 0 = base
  · have hplaced : patch qs base (gather qs i) = i := by
      rw [← hi, patch_patch hn, patch_gather hn]
    have hlt' : patch qs base (gather qs i) < amps.size := by
      rw [hplaced, hsize]
      exact lt_of_patch_lt hn hq (hi ▸ hlt)
    have hset := getD_foldl_set_of_mem (fun r => patch qs base r) (fun r => rowValue
      ((List.range (2 ^ qs.length)).map (m r))
      ((List.range (2 ^ qs.length)).map fun c => amps.getD (patch qs base c) 0)) hnodup
      (List.mem_range.mpr (gather_lt qs i)) hlt'
    rw [hplaced] at hset
    rw [hset, if_pos hi, rowValue, List.zip_map', List.map_map, Cartesian.sum_eq, sum_range_eq, act]
    refine Finset.sum_congr rfl fun c _ => ?_
    rw [← hi, Function.comp_apply, patch_patch hn]
  · rw [if_neg hi]
    refine getD_foldl_set_of_ne _ _ (fun r _ heq => hi ?_) _
    rw [← heq, patch_patch hn]
    exact base_iff.mp hbase

/-- All groups: where the base of an index has been treated, its amplitude is that of the
operator. -/
lemma foldl_applyGroup (hn : qs.Nodup) {n : Nat} (hq : ∀ q ∈ qs, q < n) {bases : List Nat}
    (hnodup : bases.Nodup) (hbases : ∀ b ∈ bases, b < 2 ^ n ∧ b &&& maskBits qs = 0)
    {amps : Array (Cartesian α)} (hsize : amps.size = 2 ^ n) :
    let left := bases.foldl (applyGroup (rowsOf qs.length m)
      ((List.range (2 ^ qs.length)).map (scatter qs))) amps
    left.size = amps.size ∧ ∀ i, left.getD i 0 =
      if patch qs i 0 ∈ bases then act qs m (fun j => amps.getD j 0) i else amps.getD i 0 := by
  induction bases generalizing amps with
  | nil => exact ⟨rfl, by simp⟩
  | cons base bases ih =>
    obtain ⟨hnot, hnodup⟩ := List.nodup_cons.mp hnodup
    obtain ⟨hlt, hbase⟩ := hbases base (by simp)
    obtain ⟨hs, hgroup⟩ := applyGroup_spec m hn hq hlt hbase hsize
    obtain ⟨hsize', hrest⟩ := ih hnodup (fun b hb => hbases b (by simp [hb])) (hs.trans hsize)
    refine ⟨hsize'.trans hs, fun i => ?_⟩
    rw [List.foldl_cons, hrest]
    by_cases hi : patch qs i 0 ∈ bases
    · rw [if_pos hi, if_pos (List.mem_cons_of_mem _ hi), act, act]
      refine Finset.sum_congr rfl fun c _ => ?_
      have hne : patch qs (patch qs i c) 0 ≠ base := by
        rw [patch_patch hn]
        exact fun h => hnot (h ▸ hi)
      rw [hgroup, if_neg hne]
    · rw [if_neg hi, hgroup]
      by_cases hi' : patch qs i 0 = base
      · rw [if_pos hi', if_pos (List.mem_cons.mpr (Or.inl hi'))]
      · rw [if_neg hi', if_neg (fun h => (List.mem_cons.mp h).elim hi' hi)]

end Group

/-- Treating every group once leaves the amplitudes of the operator. -/
theorem foldl_applyGroup_act (m : Nat → Nat → Cartesian α) {s : Statevector α} (hs : s.WellFormed)
    {qs : List Qubit} (hn : qs.Nodup) (hq : ∀ q ∈ qs, q < s.numQubits) {bases : List Nat}
    (hnodup : bases.Nodup)
    (hbases : ∀ i, i ∈ bases ↔ i < 2 ^ s.numQubits ∧ i &&& maskBits qs = 0) :
    let left : Statevector α := { s with amplitudes := bases.foldl (applyGroup
      (rowsOf qs.length m) ((List.range (2 ^ qs.length)).map (scatter qs))) s.amplitudes }
    left.WellFormed ∧ left.amp = act qs m s.amp := by
  obtain ⟨hsize, hamp⟩ := foldl_applyGroup m hn hq hnodup (fun b hb => (hbases b).mp hb) hs
  refine ⟨hsize.trans hs, funext fun i => (hamp i).trans ?_⟩
  by_cases hi : i < 2 ^ s.numQubits
  · have hbase : patch qs i 0 ∈ bases :=
      (hbases _).mpr ⟨patch_lt hq hi, base_iff.mpr (patch_patch hn 0)⟩
    rw [if_pos hbase]
    rfl
  · have hnot : patch qs i 0 ∉ bases := fun h => hi (lt_of_patch_lt hn hq ((hbases _).mp h).1)
    rw [if_neg hnot, act]
    refine (amp_of_le hs (Nat.not_lt.mp hi)).trans (Finset.sum_eq_zero fun c _ => ?_).symm
    have hle : 2 ^ s.numQubits ≤ patch qs i c :=
      Nat.not_lt.mp fun h => hi (lt_of_patch_lt hn hq h)
    rw [amp_of_le hs hle, mul_zero]

/-- Applying a matrix in place leaves the amplitudes of the operator. -/
theorem applyMatrix_spec {s : Statevector α} (hs : s.WellFormed) {qs : List Qubit} (hn : qs.Nodup)
    (hq : ∀ q ∈ qs, q < s.numQubits) {m : GateMatrix α} (hm : m.WellFormed)
    (hk : m.numQubits = qs.length) (v : String → α) :
    (applyMatrix (m.entries.toList.map fun e => e.value v) qs s).WellFormed ∧
      (applyMatrix (m.entries.toList.map fun e => e.value v) qs s).amp =
        act qs (m.value v) s.amp := by
  have hdim : Nat.pow 2 qs.length = m.dim := by rw [dim_eq, hk]; rfl
  have hrows : (List.range (Nat.pow 2 qs.length)).map (fun r =>
      ((m.entries.toList.map fun e => e.value v).drop (r * Nat.pow 2 qs.length)).take
        (Nat.pow 2 qs.length)) = rowsOf qs.length (m.value v) := by
    refine List.map_congr_left fun r hr => ?_
    rw [hdim] at hr ⊢
    rw [row_eq hm v (List.mem_range.mp hr), dim_eq, hk]
  have hmask : ((List.range (Nat.pow 2 qs.length)).map (scatter qs)).getLastD 0 = maskBits qs := by
    have hpos : 2 ^ qs.length = 2 ^ qs.length - 1 + 1 := by
      have := Nat.two_pow_pos qs.length
      omega
    change ((List.range (2 ^ qs.length)).map (scatter qs)).getLastD 0 = maskBits qs
    rw [hpos, List.range_succ, List.map_append, List.map_singleton, List.getLastD_concat, maskBits]
  unfold applyMatrix
  dsimp only
  rw [hrows, hmask]
  set bases := (List.range (Nat.pow 2 s.numQubits)).filter fun i => i &&& maskBits qs = 0 with hdef
  have hmem : ∀ i, i ∈ bases ↔ i < 2 ^ s.numQubits ∧ i &&& maskBits qs = 0 := by
    intro i
    rw [hdef, List.mem_filter, List.mem_range, decide_eq_true_eq]
    rfl
  exact foldl_applyGroup_act (m.value v) hs hn hq (List.nodup_range.filter _) hmem

end GateFusion.Statevector
