import Mathlib.Data.List.Sort
import Mathlib.Data.Nat.Count
import Mathlib.Data.Set.Function
import GateFusion.Proofs.Kernel.Checked
import GateFusion.Proofs.State.Apply

/-!
# Groups partition the amplitudes

Inserting zeros and depositing put a bit of the group number at the same place: the free place with
as many free places below it as the bit has bits below. An index is then the base of its group with
the offset of its own bits at the targets, in one way only.
-/

namespace GateFusion
open GateMatrix Statevector

section Rank

/-- The rank of a place depends on the places below only. -/
lemma count_congr {p q : Nat → Prop} [DecidablePred p] [DecidablePred q] {b : Nat}
    (h : ∀ c < b, p c ↔ q c) : Nat.count p b = Nat.count q b := by
  apply le_antisymm
  · exact Nat.count_mono_left fun c hc => (h c hc).mp
  · exact Nat.count_mono_left fun c hc => (h c hc).mpr

lemma length_filter_range (p : Nat → Bool) (m : Nat) :
    ((List.range m).filter p).length = Nat.count (p ·) m := by
  induction m with
  | zero => rfl
  | succ m ih =>
    rw [List.range_succ, List.filter_append, List.length_append, ih, Nat.count_succ]
    cases hm : p m <;> simp [hm]

lemma scatter_concat (qs : List Qubit) (q : Qubit) (j : Nat) :
    scatter (qs ++ [q]) j = scatter qs j ||| if j.testBit qs.length then 2 ^ q else 0 := by
  induction qs generalizing j with
  | nil =>
    rw [List.nil_append, scatter, scatter, scatter, Nat.or_zero, Nat.zero_or, List.length_nil,
      Nat.testBit_zero]
    simp
  | cons r qs ih =>
    rw [List.cons_append, scatter, scatter, ih, List.length_cons, Nat.testBit_succ, Nat.or_assoc]

/-- A place that is kept receives the bit whose number is the number of kept places below. -/
lemma testBit_scatter_filter (p : Nat → Bool) (m j b : Nat) :
    (scatter ((List.range m).filter p) j).testBit b =
      (decide (b < m) && (p b && j.testBit (Nat.count (p ·) b))) := by
  induction m with
  | zero => simp [scatter]
  | succ m ih =>
    rw [List.range_succ, List.filter_append]
    cases hm : p m with
    | false =>
      rw [List.filter_cons_of_neg (by simp [hm]), List.filter_nil, List.append_nil, ih]
      rcases Nat.lt_trichotomy b m with hb | rfl | hb
      · rw [decide_eq_true hb, decide_eq_true (by omega)]
      · rw [hm, Bool.false_and, Bool.and_false, Bool.and_false]
      · rw [decide_eq_false (by omega), decide_eq_false (by omega)]
    | true =>
      rw [List.filter_cons_of_pos hm, List.filter_nil, scatter_concat, Nat.testBit_or, ih,
        length_filter_range]
      have hlast : (if j.testBit (Nat.count (p ·) m) then 2 ^ m else 0).testBit b =
          (decide (m = b) && j.testBit (Nat.count (p ·) m)) := by
        split
        · rename_i h
          rw [Nat.testBit_two_pow, h, Bool.and_true]
        · rename_i h
          rw [Nat.zero_testBit, Bool.eq_false_iff.mpr h, Bool.and_false]
      rw [hlast]
      rcases Nat.lt_trichotomy b m with hb | rfl | hb
      · rw [decide_eq_true hb, decide_eq_true (by omega : b < m + 1),
          decide_eq_false (by omega : ¬m = b), Bool.false_and, Bool.or_false]
      · rw [decide_eq_false (Nat.lt_irrefl b), decide_eq_true rfl,
          decide_eq_true (Nat.lt_succ_self b), hm, Bool.false_and, Bool.false_or, Bool.true_and,
          Bool.true_and]
      · rw [decide_eq_false (by omega), decide_eq_false (by omega), decide_eq_false (by omega)]
        rfl

end Rank

namespace Indexing

section Insert
variable {base : UInt64} {x : Nat}

lemma toNat_insertZero (hbase : base.toNat < 2 ^ 63) (hx : x < 64) :
    (insertZero base x).toNat =
      2 ^ 1 * (base.toNat ^^^ base.toNat % 2 ^ x) ||| base.toNat % 2 ^ x := by
  have hbelow : ((1 : UInt64) <<< UInt64.ofNat x - 1).toNat = 2 ^ x - 1 := by
    have hfull := toNat_fullMask hx
    rwa [Bits.fullMask, if_neg (by omega)] at hfull
  have hlow : (base &&& ((1 : UInt64) <<< UInt64.ofNat x - 1)).toNat = base.toNat % 2 ^ x := by
    rw [UInt64.toNat_and, hbelow, Nat.and_two_pow_sub_one_eq_mod]
  have hfits : base.toNat ^^^ base.toNat % 2 ^ x < 2 ^ 63 :=
    Nat.xor_lt_two_pow hbase ((Nat.mod_le _ _).trans_lt hbase)
  have hone : (1 : UInt64).toNat % 64 = 1 := rfl
  unfold insertZero
  rw [UInt64.toNat_or, UInt64.toNat_shiftLeft, UInt64.toNat_xor, hlow, hone, Nat.shiftLeft_eq,
    Nat.mod_eq_of_lt (by omega), Nat.mul_comm]

/-- The bits from the place on move up by one. -/
lemma testBit_insertZero (hbase : base.toNat < 2 ^ 63) (hx : x < 64) (b : Nat) :
    (insertZero base x).toNat.testBit b =
      if b < x then base.toNat.testBit b
      else if b = x then false else base.toNat.testBit (b - 1) := by
  have hhigh : ∀ c, (base.toNat ^^^ base.toNat % 2 ^ x).testBit c =
      (decide (x ≤ c) && base.toNat.testBit c) := by
    intro c
    rw [Nat.testBit_xor, Nat.testBit_mod_two_pow]
    by_cases hc : c < x
    · rw [decide_eq_true hc, decide_eq_false (by omega), Bool.true_and, Bool.xor_self,
        Bool.false_and]
    · rw [decide_eq_false hc, decide_eq_true (by omega), Bool.false_and, Bool.xor_false,
        Bool.true_and]
  rw [toNat_insertZero hbase hx, Nat.testBit_or, Nat.testBit_two_pow_mul, hhigh,
    Nat.testBit_mod_two_pow]
  rcases Nat.lt_trichotomy b x with hb | rfl | hb
  · rw [if_pos hb, decide_eq_true hb, decide_eq_false (by omega : ¬x ≤ b - 1), Bool.false_and,
      Bool.and_false, Bool.false_or, Bool.true_and]
  · rw [if_neg (by omega), if_pos rfl, decide_eq_false (Nat.lt_irrefl b), Bool.false_and,
      Bool.or_false]
    by_cases hb : b = 0
    · rw [hb]
      rfl
    · rw [decide_eq_false (by omega : ¬b ≤ b - 1), Bool.false_and, Bool.and_false]
  · rw [if_neg (by omega), if_neg (by omega), decide_eq_false (by omega : ¬b < x),
      decide_eq_true (by omega), decide_eq_true (by omega), Bool.false_and, Bool.or_false,
      Bool.true_and, Bool.true_and]

lemma insertZero_lt {m : Nat} (hm : m < 64) (hx : x < 64) (hbase : base.toNat < 2 ^ m) :
    (insertZero base x).toNat < 2 ^ (m + 1) := by
  have hfits : base.toNat < 2 ^ 63 :=
    hbase.trans_le (Nat.pow_le_pow_right Nat.two_pos (by omega))
  have hclear : ∀ b, m ≤ b → base.toNat.testBit b = false := fun b hb =>
    Nat.testBit_lt_two_pow (hbase.trans_le (Nat.pow_le_pow_right Nat.two_pos hb))
  refine Nat.lt_pow_two_of_testBit _ fun b hb => ?_
  rw [testBit_insertZero hfits hx, hclear b (by omega), hclear (b - 1) (by omega)]
  simp

/-- Past the last place struck out, a place has one more place struck out below. -/
lemma count_concat {xs : List Nat} (hxs : ∀ y ∈ xs, y < x) {b : Nat} (hb : x < b) :
    Nat.count (· ∉ xs ++ [x]) b = Nat.count (· ∉ xs) (b - 1) := by
  obtain ⟨t, rfl⟩ : ∃ t, b = x + 1 + t := ⟨b - (x + 1), by omega⟩
  have hsame : Nat.count (· ∉ xs ++ [x]) x = Nat.count (· ∉ xs) x := by
    apply count_congr
    intro c hc
    rw [List.mem_append, List.mem_singleton, or_iff_left hc.ne]
  have habove : ∀ k, x + k ∉ xs := fun k hk => Nat.not_lt.mpr (Nat.le_add_right x k) (hxs _ hk)
  have hall : Nat.count (fun k => x + 1 + k ∉ xs ++ [x]) t = t := by
    refine Nat.count_of_forall fun k _ => ?_
    rw [List.mem_append, List.mem_singleton, not_or, Nat.add_assoc]
    exact ⟨habove _, by omega⟩
  have hrest : Nat.count (fun k => x + k ∉ xs) t = t := Nat.count_of_forall fun k _ => habove k
  have hpred : x + 1 + t - 1 = x + t := by omega
  rw [hpred, Nat.count_add, Nat.count_succ, hall, if_neg (by simp), hsame, Nat.count_add, hrest,
    Nat.add_zero]

end Insert

/-- Inserting zeros at ascending places moves every bit to the free place of its rank. -/
lemma foldl_insertZero {g : UInt64} {m : Nat} (hg : g.toNat < 2 ^ m) {xs : List Nat}
    (hsorted : xs.Pairwise (· < ·)) (hxs : ∀ x ∈ xs, x < 64) (hm : m + xs.length ≤ 64) :
    (xs.foldl insertZero g).toNat < 2 ^ (m + xs.length) ∧
      ∀ b, (xs.foldl insertZero g).toNat.testBit b =
        (decide (b ∉ xs) && g.toNat.testBit (Nat.count (· ∉ xs) b)) := by
  induction xs using List.reverseRecOn with
  | nil => exact ⟨hg, fun b => by simp [Nat.count_of_forall]⟩
  | append_singleton xs x ih =>
    rw [List.length_append, List.length_singleton] at hm ⊢
    obtain ⟨hsorted, -, hlast⟩ := List.pairwise_append.mp hsorted
    have hbelow : ∀ y ∈ xs, y < x := fun y hy => hlast y hy x (by simp)
    obtain ⟨hlt, hbits⟩ := ih hsorted (fun y hy => hxs y (by simp [hy])) (by omega)
    have hx : x < 64 := hxs x (by simp)
    have hfits : (xs.foldl insertZero g).toNat < 2 ^ 63 :=
      hlt.trans_le (Nat.pow_le_pow_right Nat.two_pos (by omega))
    have hroom : m + xs.length < 64 := by omega
    rw [List.foldl_append, List.foldl_cons, List.foldl_nil]
    refine ⟨insertZero_lt hroom hx hlt, fun b => ?_⟩
    rw [testBit_insertZero hfits hx, hbits, hbits]
    rcases Nat.lt_trichotomy b x with hb | rfl | hb
    · have hmem : ∀ c < x, (c ∉ xs ++ [x] ↔ c ∉ xs) := fun c hc => by simp [hc.ne]
      have hcount : Nat.count (· ∉ xs ++ [x]) b = Nat.count (· ∉ xs) b :=
        count_congr fun c hc => hmem c (hc.trans hb)
      rw [if_pos hb, hcount, decide_eq_decide.mpr (hmem b hb)]
    · rw [if_neg (Nat.lt_irrefl b), if_pos rfl, decide_eq_false (by simp), Bool.false_and]
    · have hout : b ∉ xs ++ [x] := by
        rw [List.mem_append, List.mem_singleton, not_or]
        exact ⟨fun h => Nat.lt_asymm hb (hbelow b h), hb.ne'⟩
      have hprev : b - 1 ∉ xs := fun h => Nat.not_lt.mpr (by omega) (hbelow _ h)
      rw [if_neg (by omega), if_neg hb.ne', decide_eq_true hout, decide_eq_true hprev,
        count_concat hbelow hb]

lemma pairwise_mergeSort {qs : List Qubit} (hnodup : qs.Nodup) :
    (qs.mergeSort).Pairwise (· < ·) := by
  have hle : (qs.mergeSort).Pairwise (· ≤ ·) := List.pairwise_mergeSort' (· ≤ ·) qs
  have hne : (qs.mergeSort).Pairwise (· ≠ ·) := (List.mergeSort_perm qs _).nodup_iff.mpr hnodup
  exact hle.imp₂ (fun _ _ => lt_of_le_of_ne) hne

/-- The places of a register that are no targets, ascending. -/
def freeBits (qs : List Qubit) (n : Nat) : List Nat :=
  Bits.setBits (~~~Qubit.maskOf qs &&& Bits.fullMask n).toNat

/-- The amplitude index at a place of a group. -/
def member (d : Indexing) (g : UInt64) (j : Nat) : UInt64 :=
  d.baseMasked g ||| d.offsets.getD j 0

lemma nodup_freeBits (qs : List Qubit) (n : Nat) : (freeBits qs n).Nodup :=
  List.nodup_range.filter _

section Register
variable {α : Type} {qs : List Qubit} {n : Nat} {d : Indexing} {g : UInt64} {j : Nat}

lemma lt_width (h : ofQubits (α := α) qs n = .ok d) {q : Qubit} (hmem : q ∈ qs) : q < 64 := by
  obtain ⟨hn, hq, -⟩ := ofQubits_eq_ok.mp h
  unfold maxIndexWidth at hn
  exact (hq q hmem).trans_le (by omega : n ≤ 64)

lemma mem_freeBits (h : ofQubits (α := α) qs n = .ok d) {b : Nat} :
    b ∈ freeBits qs n ↔ b < n ∧ b ∉ qs := by
  obtain ⟨hn, -⟩ := ofQubits_eq_ok.mp h
  unfold maxIndexWidth at hn
  exact mem_setBits_free (by omega) fun _ => lt_width h

lemma getElem?_offsets (h : ofQubits (α := α) qs n = .ok d) (hj : j < 2 ^ qs.length) :
    d.offsets[j]? = some (offset qs j) := by
  obtain ⟨-, -, rfl⟩ := ofQubits_eq_ok.mp h
  simp [hj]

variable (hnodup : qs.Nodup) (h : ofQubits (α := α) qs n = .ok d)
include hnodup h

lemma length_freeBits : (freeBits qs n).length = n - qs.length :=
  length_free hnodup (ofQubits_eq_ok.mp h).2.1 (fun _ => mem_freeBits h) (nodup_freeBits qs n)

/-- A free place of the base has the bit of the group number whose number is the rank of the
place. -/
lemma testBit_baseMasked (hg : g.toNat < 2 ^ (n - qs.length)) :
    (d.baseMasked g).toNat < 2 ^ n ∧ ∀ b, (d.baseMasked g).toNat.testBit b =
      (decide (b ∉ qs) && g.toNat.testBit (Nat.count (· ∉ qs) b)) := by
  have hmem : ∀ {q}, q ∈ qs.mergeSort ↔ q ∈ qs := (List.mergeSort_perm qs _).mem_iff
  have hwidth := fun q (hq : q ∈ qs.mergeSort) => lt_width h (hmem.mp hq)
  obtain ⟨hn, hq, rfl⟩ := ofQubits_eq_ok.mp h
  unfold maxIndexWidth at hn
  have hlen := length_le hnodup hq
  have hsize : n - qs.length + (qs.mergeSort).length = n := by
    rw [List.length_mergeSort]
    omega
  obtain ⟨hlt, hbits⟩ := foldl_insertZero hg (pairwise_mergeSort hnodup) hwidth (by omega)
  rw [hsize] at hlt
  refine ⟨hlt, fun b => (hbits b).trans ?_⟩
  have hcount : Nat.count (· ∉ qs.mergeSort) b = Nat.count (· ∉ qs) b :=
    count_congr fun c _ => not_congr hmem
  rw [hcount, decide_eq_decide.mpr (not_congr hmem)]

omit hnodup in
lemma testBit_baseDeposit (b : Nat) : (d.baseDeposit g).toNat.testBit b =
    (decide (b < n ∧ b ∉ qs) && g.toNat.testBit (Nat.count (· ∉ qs) b)) := by
  have hfree : ∀ c, (decide (c < 64) && (~~~Qubit.maskOf qs &&& Bits.fullMask n).toNat.testBit c) =
      decide (c < n ∧ c ∉ qs) := by
    intro c
    have hc := mem_freeBits h (b := c)
    rw [freeBits, Bits.setBits, List.mem_filter, List.mem_range] at hc
    rw [Bool.eq_iff_iff, Bool.and_eq_true, decide_eq_true_iff, decide_eq_true_iff]
    exact hc
  obtain ⟨hn, -, rfl⟩ := ofQubits_eq_ok.mp h
  unfold maxIndexWidth at hn
  unfold baseDeposit
  rw [Bits.toNat_deposit, Bits.setBits, testBit_scatter_filter, ← Bool.and_assoc, hfree]
  by_cases hb : b < n
  · have hcount : Nat.count
        ((~~~Qubit.maskOf qs &&& Bits.fullMask n).toNat.testBit ·) b = Nat.count (· ∉ qs) b := by
      apply count_congr
      intro c hc
      have hbit := hfree c
      rw [decide_eq_true (by omega), Bool.true_and] at hbit
      rw [hbit, decide_eq_true_iff, and_iff_right (hc.trans hb)]
    rw [hcount]
  · rw [decide_eq_false fun hin => hb hin.1, Bool.false_and, Bool.false_and]

/-- Both ways to the base of a group agree. -/
theorem baseMasked_eq_baseDeposit (hg : g.toNat < 2 ^ (n - qs.length)) :
    d.baseMasked g = d.baseDeposit g := by
  obtain ⟨hlt, hbits⟩ := testBit_baseMasked hnodup h hg
  apply UInt64.toNat_inj.mp
  apply Nat.eq_of_testBit_eq
  intro b
  rw [testBit_baseDeposit h]
  by_cases hb : b < n
  · rw [hbits, decide_eq_decide.mpr (and_iff_right hb)]
  · rw [decide_eq_false fun hin => hb hin.1, Bool.false_and]
    exact Nat.testBit_lt_two_pow (hlt.trans_le (Nat.pow_le_pow_right Nat.two_pos (by omega)))

/-- The base of a group scatters its number over the free places. -/
lemma baseMasked_spec (hg : g.toNat < 2 ^ (n - qs.length)) :
    (d.baseMasked g).toNat = scatter (freeBits qs n) g.toNat ∧ (d.baseMasked g).toNat < 2 ^ n ∧
      (d.baseMasked g).toNat &&& maskBits qs = 0 := by
  have hnat : (d.baseMasked g).toNat = scatter (freeBits qs n) g.toNat := by
    rw [baseMasked_eq_baseDeposit hnodup h hg]
    obtain ⟨-, -, rfl⟩ := ofQubits_eq_ok.mp h
    exact Bits.toNat_deposit _ _
  obtain ⟨-, hbases⟩ := bases_spec (fun _ => mem_freeBits h) (nodup_freeBits qs n)
  rw [length_freeBits hnodup h] at hbases
  refine ⟨hnat, (hbases _).mp ?_⟩
  rw [hnat]
  exact List.mem_map_of_mem (List.mem_range.mpr hg)

/-- A place of a group is the base with its bits at the targets replaced. -/
lemma toNat_member (hg : g.toNat < 2 ^ (n - qs.length)) (hj : j < 2 ^ qs.length) :
    (d.member g j).toNat = patch qs (d.baseMasked g).toNat j := by
  obtain ⟨-, -, hclear⟩ := baseMasked_spec hnodup h hg
  rw [member, List.getD_eq_getElem?_getD, getElem?_offsets h hj, Option.getD_some, UInt64.toNat_or,
    toNat_offset fun _ => lt_width h, base_or_scatter hclear]

omit hnodup in
lemma getElem?_group (hj : j < 2 ^ qs.length) : (d.group g)[j]? = some (d.member g j) := by
  rw [group, List.getElem?_map, getElem?_offsets h hj, Option.map_some, member,
    List.getD_eq_getElem?_getD, getElem?_offsets h hj, Option.getD_some]

/-- The place of an index is read off its bits at the targets, its group off the others. -/
lemma member_inj {g' : UInt64} {j' : Nat} (hg : g.toNat < 2 ^ (n - qs.length))
    (hj : j < 2 ^ qs.length) (hg' : g'.toNat < 2 ^ (n - qs.length)) (hj' : j' < 2 ^ qs.length)
    (heq : d.member g j = d.member g' j') : g = g' ∧ j = j' := by
  have hnat := congrArg UInt64.toNat heq
  rw [toNat_member hnodup h hg hj, toNat_member hnodup h hg' hj'] at hnat
  have hplace := congrArg (gather qs) hnat
  rw [gather_patch hnodup hj, gather_patch hnodup hj'] at hplace
  obtain ⟨hbase, -, hclear⟩ := baseMasked_spec hnodup h hg
  obtain ⟨hbase', -, hclear'⟩ := baseMasked_spec hnodup h hg'
  have hgroup := congrArg (fun x => gather (freeBits qs n) (patch qs x 0)) hnat
  have hlen := length_freeBits hnodup h
  rw [patch_patch hnodup, patch_patch hnodup, base_iff.mp hclear, base_iff.mp hclear', hbase,
    hbase', gather_scatter (nodup_freeBits qs n) (hlen ▸ hg),
    gather_scatter (nodup_freeBits qs n) (hlen ▸ hg')] at hgroup
  exact ⟨UInt64.toNat_inj.mp hgroup, hplace⟩

/-- Every index of the register is a member of a group. -/
lemma exists_member {x : UInt64} (hx : x.toNat < 2 ^ n) :
    ∃ g : UInt64, g.toNat < 2 ^ (n - qs.length) ∧ d.member g (gather qs x.toNat) = x := by
  obtain ⟨hn, hq, -⟩ := ofQubits_eq_ok.mp h
  unfold maxIndexWidth at hn
  obtain ⟨-, hbases⟩ := bases_spec (fun _ => mem_freeBits h) (nodup_freeBits qs n)
  rw [length_freeBits hnodup h] at hbases
  obtain ⟨c, hc, hscatter⟩ := List.mem_map.mp ((hbases (patch qs x.toNat 0)).mpr
    ⟨patch_lt hq hx, base_iff.mpr (patch_patch hnodup 0)⟩)
  have hfits : 2 ^ (n - qs.length) ≤ 2 ^ 64 := Nat.pow_le_pow_right Nat.two_pos (by omega)
  have hword : (UInt64.ofNat c).toNat = c :=
    UInt64.toNat_ofNat_of_lt' ((List.mem_range.mp hc).trans_le hfits)
  have hg : (UInt64.ofNat c).toNat < 2 ^ (n - qs.length) := hword.symm ▸ List.mem_range.mp hc
  refine ⟨UInt64.ofNat c, hg, UInt64.toNat_inj.mp ?_⟩
  rw [toNat_member hnodup h hg (gather_lt qs x.toNat), (baseMasked_spec hnodup h hg).1, hword,
    hscatter, patch_patch hnodup, patch_gather hnodup]

omit hnodup h

/-- Every amplitude index belongs to one group, and to one place in it: the place whose bits are
those of the index at the targets. -/
structure Partitions (d : Indexing) (qs : List Qubit) (n : Nat) : Prop where
  numGroups : d.numGroups = 2 ^ (n - qs.length)
  groupSize : d.groupSize = 2 ^ qs.length
  agree : ∀ g : UInt64, g.toNat < 2 ^ (n - qs.length) → d.baseMasked g = d.baseDeposit g
  clear : ∀ g : UInt64, g.toNat < 2 ^ (n - qs.length) →
    ∀ q ∈ qs, (d.baseMasked g).toNat.testBit q = false
  bijOn : Set.BijOn (fun p : UInt64 × Nat => d.baseMasked p.1 ||| d.offsets.getD p.2 0)
    {p | p.1.toNat < 2 ^ (n - qs.length) ∧ p.2 < 2 ^ qs.length} {x | x.toNat < 2 ^ n}
  bits : ∀ g : UInt64, g.toNat < 2 ^ (n - qs.length) → ∀ j < 2 ^ qs.length,
    ∃ x, (d.group g)[j]? = some x ∧ ∀ i q, qs[i]? = some q → x.toNat.testBit q = j.testBit i

include hnodup h in
lemma partitions_of_ofQubits : d.Partitions qs n := by
  obtain ⟨-, hq, hd⟩ := ofQubits_eq_ok.mp h
  refine ⟨?numGroups, ?groupSize, fun g => baseMasked_eq_baseDeposit hnodup h, ?clear,
    ⟨?mapsTo, ?injOn, ?surjOn⟩, ?bits⟩
  case numGroups =>
    rw [hd]
    rfl
  case groupSize => rw [groupSize, hd, List.length_map, List.length_range]
  case clear =>
    intro g hg q hmem
    have hbit := congrArg (·.testBit q) (baseMasked_spec hnodup h hg).2.2
    simpa [testBit_maskBits, hmem] using hbit
  case mapsTo =>
    rintro ⟨g, j⟩ ⟨hg, hj⟩
    change (d.member g j).toNat < 2 ^ n
    rw [toNat_member hnodup h hg hj]
    exact patch_lt hq (baseMasked_spec hnodup h hg).2.1
  case injOn =>
    rintro ⟨g, j⟩ ⟨hg, hj⟩ ⟨g', j'⟩ ⟨hg', hj'⟩ heq
    obtain ⟨hgroup, hplace⟩ := member_inj hnodup h hg hj hg' hj' heq
    exact Prod.ext hgroup hplace
  case surjOn =>
    intro x hx
    obtain ⟨g, hg, hmember⟩ := exists_member hnodup h hx
    exact ⟨(g, gather qs x.toNat), ⟨hg, gather_lt qs x.toNat⟩, hmember⟩
  case bits =>
    intro g hg j hj
    refine ⟨d.member g j, getElem?_group h hj, fun i q hi => ?_⟩
    rw [toNat_member hnodup h hg hj, testBit_patch_of_getElem? hnodup hi]

end Register

/-- The groups of distinct qubits of a register of at most 63 qubits partition its amplitudes, in
whatever order the qubits come, and no step of their arithmetic overflows. -/
theorem ofQubits_partitions (α : Type) {qs : List Qubit} {n : Nat} (hn : n ≤ 63)
    (hnodup : qs.Nodup) (hq : ∀ q ∈ qs, q < n) :
    ∃ d, ofQubits (α := α) qs n = .ok d ∧ d.Partitions qs n ∧ d.NoOverflow := by
  have h := ofQubits_eq_ok (α := α).mpr ⟨hn, hq, rfl⟩
  exact ⟨_, h, partitions_of_ofQubits hnodup h, noOverflow_of_ofQubits hnodup h⟩

/-- The widest register, with its highest and its lowest qubit as targets, unsorted. -/
theorem ofQubits_partitions_widest :
    ∃ d, ofQubits (α := Unit) [62, 0, 5] 63 = .ok d ∧ d.Partitions [62, 0, 5] 63 ∧ d.NoOverflow :=
  ofQubits_partitions Unit (by decide) (by decide) (by decide)

end Indexing
end GateFusion
