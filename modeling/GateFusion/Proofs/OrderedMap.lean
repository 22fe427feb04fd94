import GateFusion.OrderedMap
import Mathlib.Data.List.Perm.Basic

/-!
# Ordered maps

An update at a key either finds the entry of the key and changes its value, or puts a new entry
between the others. Under a lawful comparison the keys keep ascending. Sets of names are read
through their members.
-/

namespace GateFusion
namespace OrderedMap
variable {κ ν : Type} {cmp : κ → κ → Ordering}

/-- The keys of a map ascend. -/
def Sorted (cmp : κ → κ → Ordering) (m : OrderedMap κ ν) : Prop :=
  m.Pairwise fun s t => cmp s.1 t.1 = .lt

/-- An update adds an entry or changes the value of one. -/
lemma upsert_cases (cmp : κ → κ → Ordering) (key : κ) (f : Option ν → ν) (m : OrderedMap κ ν) :
    (∃ front back, m = front ++ back ∧ upsert cmp key f m = front ++ (key, f none) :: back) ∨
      ∃ front k v back, cmp key k = .eq ∧ m = front ++ (k, v) :: back ∧
        upsert cmp key f m = front ++ (k, f (some v)) :: back := by
  induction m with
  | nil => exact Or.inl ⟨[], [], rfl, rfl⟩
  | cons e rest ih =>
    obtain ⟨k, v⟩ := e
    rw [upsert]
    cases hc : cmp key k with
    | lt => exact Or.inl ⟨[], (k, v) :: rest, rfl, rfl⟩
    | eq => exact Or.inr ⟨[], k, v, rest, hc, rfl, rfl⟩
    | gt =>
      rcases ih with ⟨front, back, hm, hu⟩ | ⟨front, k', v', back, hk, hm, hu⟩
      · exact Or.inl ⟨(k, v) :: front, back, by rw [hm, List.cons_append], by
          rw [hu, List.cons_append]⟩
      · exact Or.inr ⟨(k, v) :: front, k', v', back, hk, by rw [hm, List.cons_append], by
          rw [hu, List.cons_append]⟩

/-- The same up to the order of the entries. -/
lemma upsert_perm_cases (cmp : κ → κ → Ordering) (key : κ) (f : Option ν → ν)
    (m : OrderedMap κ ν) : (upsert cmp key f m).Perm ((key, f none) :: m) ∨
      ∃ k v rest, cmp key k = .eq ∧ m.Perm ((k, v) :: rest) ∧
        (upsert cmp key f m).Perm ((k, f (some v)) :: rest) := by
  rcases upsert_cases cmp key f m with ⟨front, back, hm, hu⟩ | ⟨front, k, v, back, hk, hm, hu⟩
  · left
    rw [hu, hm]
    exact List.perm_middle
  · right
    refine ⟨k, v, front ++ back, hk, ?_, ?_⟩
    · rw [hm]
      exact List.perm_middle
    · rw [hu]
      exact List.perm_middle

lemma upsert_perm {key : κ} {m : OrderedMap κ ν} (h : ∀ t ∈ m, cmp key t.1 ≠ .eq)
    (f : Option ν → ν) : (upsert cmp key f m).Perm ((key, f none) :: m) := by
  rcases upsert_perm_cases cmp key f m with hu | ⟨k, v, rest, hk, hm, -⟩
  · exact hu
  · exact absurd hk (h (k, v) (hm.symm.subset (by simp)))

/-- Entries of an updated map are old ones, or the entry of the key. -/
lemma mem_upsert {key : κ} {f : Option ν → ν} {m : OrderedMap κ ν} {t : κ × ν}
    (h : t ∈ upsert cmp key f m) :
    t ∈ m ∨ t = (key, f none) ∨ ∃ v, (t.1, v) ∈ m ∧ cmp key t.1 = .eq ∧ t.2 = f (some v) := by
  rcases upsert_cases cmp key f m with ⟨front, back, hm, hu⟩ |
    ⟨front, k, v, back, hk, hm, hu⟩
  · rw [hu, List.mem_append, List.mem_cons] at h
    rw [hm, List.mem_append]
    tauto
  · rw [hu, List.mem_append, List.mem_cons] at h
    rw [hm, List.mem_append, List.mem_cons]
    rcases h with h | rfl | h
    · exact Or.inl (Or.inl h)
    · exact Or.inr (Or.inr ⟨v, by simp, hk, rfl⟩)
    · exact Or.inl (Or.inr (Or.inr h))

/-- Entries of an updated map are old ones, or the one found at the key. -/
lemma mem_or_get?_upsert {key : κ} (hself : cmp key key = .eq) {f : Option ν → ν}
    {m : OrderedMap κ ν} {t : κ × ν} (h : t ∈ upsert cmp key f m) :
    t ∈ m ∨ get? cmp key (upsert cmp key f m) = some t.2 := by
  induction m with
  | nil =>
    obtain rfl := List.mem_singleton.mp h
    exact Or.inr (if_pos hself)
  | cons e rest ih =>
    obtain ⟨k, v⟩ := e
    rw [upsert] at h ⊢
    cases hc : cmp key k with
    | lt =>
      rw [hc] at h
      rcases List.mem_cons.mp h with rfl | h
      · exact Or.inr (if_pos hself)
      · exact Or.inl h
    | eq =>
      rw [hc] at h
      rcases List.mem_cons.mp h with rfl | h
      · exact Or.inr (if_pos hc)
      · exact Or.inl (List.mem_cons_of_mem _ h)
    | gt =>
      rw [hc] at h
      rcases List.mem_cons.mp h with rfl | h
      · exact Or.inl List.mem_cons_self
      · have hne : cmp key k ≠ .eq := by simp [hc]
        exact (ih h).imp (List.mem_cons_of_mem _) fun hget => (if_neg hne).trans hget

lemma Sorted.upsert [Std.TransCmp cmp] {m : OrderedMap κ ν} (hm : Sorted cmp m) (key : κ)
    (f : Option ν → ν) : Sorted cmp (upsert cmp key f m) := by
  induction m with
  | nil => exact List.pairwise_singleton _ _
  | cons e rest ih =>
    obtain ⟨k, v⟩ := e
    obtain ⟨hk, hrest⟩ := List.pairwise_cons.mp hm
    rw [OrderedMap.upsert]
    cases hc : cmp key k with
    | lt =>
      refine List.pairwise_cons.mpr ⟨fun t ht => ?_, hm⟩
      rcases List.mem_cons.mp ht with rfl | ht
      · exact hc
      · exact Std.TransCmp.lt_trans hc (hk t ht)
    | eq => exact List.pairwise_cons.mpr ⟨hk, hrest⟩
    | gt =>
      have hgt := Std.OrientedCmp.gt_iff_lt.mp hc
      refine List.pairwise_cons.mpr ⟨fun t ht => ?_, ih hrest⟩
      rcases mem_upsert ht with ht | rfl | ⟨w, ht, -⟩
      · exact hk t ht
      · exact hgt
      · exact hk (t.1, w) ht

lemma Sorted.pairwise_ne [Std.OrientedCmp cmp] {m : OrderedMap κ ν} (hm : Sorted cmp m) :
    m.Pairwise fun s t => cmp t.1 s.1 ≠ .eq := by
  refine hm.imp fun h heq => ?_
  rw [Std.OrientedCmp.eq_comm, h] at heq
  simp at heq

lemma Sorted.eq_of_cmp [Std.OrientedCmp cmp] {m : OrderedMap κ ν} (hm : Sorted cmp m)
    {s t : κ × ν} (hs : s ∈ m) (ht : t ∈ m) (h : cmp s.1 t.1 = .eq) : s = t := by
  induction m with
  | nil => simp at hs
  | cons e rest ih =>
    obtain ⟨he, hrest⟩ := List.pairwise_cons.mp hm
    rcases List.mem_cons.mp hs with rfl | hs'
    · rcases List.mem_cons.mp ht with rfl | ht'
      · rfl
      · rw [he t ht'] at h
        simp at h
    · rcases List.mem_cons.mp ht with rfl | ht'
      · rw [Std.OrientedCmp.eq_comm, he s hs'] at h
        simp at h
      · exact ih hrest hs' ht'

lemma Sorted.nodup [Std.ReflCmp cmp] {m : OrderedMap κ ν} (hm : Sorted cmp m) : m.Nodup := by
  refine hm.imp fun {s t} hlt heq => ?_
  have hself : cmp s.1 s.1 = .eq := Std.ReflCmp.compare_self
  rw [heq] at hlt hself
  rw [hlt] at hself
  simp at hself

/-- Maps with the same entries list them in the same order. -/
lemma Sorted.ext [Std.OrientedCmp cmp] {m m' : OrderedMap κ ν} (hm : Sorted cmp m)
    (hm' : Sorted cmp m') (h : ∀ t, t ∈ m ↔ t ∈ m') : m = m' := by
  have hperm : m.Perm m' := (List.perm_ext_iff_of_nodup hm.nodup hm'.nodup).mpr h
  refine hperm.eq_of_pairwise (fun s t _ _ hst hts => ?_) hm hm'
  have hswap : cmp s.1 t.1 = (cmp t.1 s.1).swap := Std.OrientedCmp.eq_swap
  rw [hswap, hts] at hst
  simp at hst

lemma Sorted.get?_eq_some [Std.TransCmp cmp] {m : OrderedMap κ ν} (hm : Sorted cmp m) {key : κ}
    {v : ν} : get? cmp key m = some v ↔ ∃ k, cmp key k = .eq ∧ (k, v) ∈ m := by
  induction m with
  | nil => simp [get?]
  | cons e rest ih =>
    obtain ⟨k, x⟩ := e
    rw [get?]
    split
    · rename_i hk
      constructor
      · intro h
        exact ⟨k, hk, by rw [Option.some.inj h]; exact List.mem_cons_self⟩
      · rintro ⟨k', hk', hmem⟩
        have heq := hm.eq_of_cmp hmem List.mem_cons_self
          (Std.TransCmp.eq_trans (Std.OrientedCmp.eq_symm hk') hk)
        rw [(Prod.mk.inj heq).2]
    · rename_i hk
      rw [ih (List.pairwise_cons.mp hm).2]
      constructor
      · rintro ⟨k', hk', hmem⟩
        exact ⟨k', hk', List.mem_cons_of_mem _ hmem⟩
      · rintro ⟨k', hk', hmem⟩
        rcases List.mem_cons.mp hmem with heq | hmem
        · exact absurd ((Prod.mk.inj heq).1 ▸ hk') hk
        · exact ⟨k', hk', hmem⟩

/-- An update shows at its key. -/
lemma Sorted.get?_upsert_self [Std.TransCmp cmp] {m : OrderedMap κ ν} (hm : Sorted cmp m) (key : κ)
    (f : Option ν → ν) : get? cmp key (OrderedMap.upsert cmp key f m) =
      some (f (get? cmp key m)) := by
  have hself : cmp key key = .eq := Std.ReflCmp.compare_self
  induction m with
  | nil => exact if_pos hself
  | cons e rest ih =>
    obtain ⟨k, v⟩ := e
    obtain ⟨hk, hrest⟩ := List.pairwise_cons.mp hm
    rw [OrderedMap.upsert]
    cases hc : cmp key k with
    | lt =>
      -- the keys ascend, so none of them is the new one
      have hnone : get? cmp key ((k, v) :: rest) = none := by
        refine Option.eq_none_iff_forall_ne_some.mpr fun w hw => ?_
        obtain ⟨k', heq, hmem⟩ := hm.get?_eq_some.mp hw
        have hlt : cmp key k' = .lt := by
          rcases List.mem_cons.mp hmem with h | hmem
          · rw [(Prod.mk.inj h).1]
            exact hc
          · exact Std.TransCmp.lt_trans hc (hk (k', w) hmem)
        simp [hlt] at heq
      rw [hnone]
      exact if_pos hself
    | eq => rw [get?, get?, if_pos hc, if_pos hc]
    | gt =>
      have hne : cmp key k ≠ .eq := by simp [hc]
      rw [get?, get?, if_neg hne, if_neg hne, ih hrest]

/-- An update shows at no other key. -/
lemma get?_upsert_of_ne [Std.TransCmp cmp] {key key' : κ} (h : cmp key' key ≠ .eq)
    (f : Option ν → ν) (m : OrderedMap κ ν) :
    get? cmp key' (upsert cmp key f m) = get? cmp key' m := by
  induction m with
  | nil => exact if_neg h
  | cons e rest ih =>
    obtain ⟨k, v⟩ := e
    rw [upsert]
    cases hc : cmp key k with
    | lt => exact if_neg h
    | eq =>
      have hne : cmp key' k ≠ .eq := fun heq =>
        h (Std.TransCmp.eq_trans heq (Std.OrientedCmp.eq_symm hc))
      rw [get?, get?, if_neg hne, if_neg hne]
    | gt => rw [get?, get?, ih]

lemma Sorted.get?_eq_some_iff_mem [Std.TransCmp cmp] [Std.LawfulEqCmp cmp] {m : OrderedMap κ ν}
    (hm : Sorted cmp m) {key : κ} {v : ν} : get? cmp key m = some v ↔ (key, v) ∈ m := by
  rw [hm.get?_eq_some]
  constructor
  · rintro ⟨k, hk, hmem⟩
    obtain rfl := Std.LawfulEqCmp.eq_of_compare hk
    exact hmem
  · intro hmem
    exact ⟨key, Std.ReflCmp.compare_self, hmem⟩

lemma Sorted.get?_filter [Std.TransCmp cmp] [Std.LawfulEqCmp cmp] {m : OrderedMap κ ν}
    (hm : Sorted cmp m) (keep : ν → Bool) {key : κ} :
    get? cmp key (m.filter fun t => keep t.2) = (get? cmp key m).filter keep := by
  have hkept : Sorted cmp (m.filter fun t => keep t.2) := List.Pairwise.filter _ hm
  ext1 v
  rw [hkept.get?_eq_some_iff_mem, List.mem_filter, Option.filter_eq_some_iff,
    hm.get?_eq_some_iff_mem]

lemma Sorted.insert [Std.TransCmp cmp] {m : OrderedMap κ ν} (hm : Sorted cmp m) (key : κ) (v : ν) :
    Sorted cmp (insert cmp key v m) := hm.upsert key _

/-- Inserting at a key that is written in one way puts the entry in place of the one it had. -/
lemma Sorted.mem_insert [Std.TransCmp cmp] {m : OrderedMap κ ν} (hm : Sorted cmp m) {key : κ}
    {v : ν} (h : ∀ t ∈ m, cmp key t.1 = .eq → t.1 = key) {t : κ × ν} :
    t ∈ OrderedMap.insert cmp key v m ↔ (t ∈ m ∧ cmp key t.1 ≠ .eq) ∨ t = (key, v) := by
  have hentry : (key, v) ∈ OrderedMap.insert cmp key v m := by
    rcases upsert_cases cmp key (fun _ => v) m with ⟨front, back, hm, hu⟩ |
      ⟨front, k, x, back, hk, hm, hu⟩
    · rw [OrderedMap.insert, hu]
      simp
    · obtain rfl : k = key := h (k, x) (by rw [hm]; simp) hk
      rw [OrderedMap.insert, hu]
      simp
  constructor
  · intro ht
    by_cases heq : cmp key t.1 = .eq
    · exact Or.inr ((hm.insert key v).eq_of_cmp hentry ht heq).symm
    · rcases mem_upsert ht with ht | rfl | ⟨x, -, hcmp, -⟩
      · exact Or.inl ⟨ht, heq⟩
      · exact Or.inr rfl
      · exact absurd hcmp heq
  · rintro (⟨ht, hne⟩ | rfl)
    · rcases upsert_perm_cases cmp key (fun _ => v) m with hu | ⟨k, x, rest, hk, hperm, hu⟩
      · exact hu.symm.subset (List.mem_cons_of_mem _ ht)
      · rcases List.mem_cons.mp (hperm.subset ht) with rfl | ht
        · exact absurd hk hne
        · exact hu.symm.subset (List.mem_cons_of_mem _ ht)
    · exact hentry

lemma Sorted.ofList [Std.TransCmp cmp] (entries : List (κ × ν)) :
    Sorted cmp (ofList cmp entries) := by
  have hfold : ∀ m : OrderedMap κ ν, Sorted cmp m →
      Sorted cmp (entries.foldl (fun m e => OrderedMap.insert cmp e.1 e.2 m) m) := by
    induction entries with
    | nil => exact fun m hm => hm
    | cons e entries ih => exact fun m hm => ih _ (hm.insert e.1 e.2)
  exact hfold [] .nil

/-- Of entries with different keys a map holds all. -/
lemma ofList_perm [Std.LawfulEqCmp cmp] {entries : List (κ × ν)}
    (hn : (entries.map (·.1)).Nodup) : (ofList cmp entries).Perm entries := by
  have hfold : ∀ m : OrderedMap κ ν, ((m ++ entries).map (·.1)).Nodup →
      (entries.foldl (fun m e => OrderedMap.insert cmp e.1 e.2 m) m).Perm (m ++ entries) := by
    clear hn
    induction entries with
    | nil => simp
    | cons e entries ih =>
      intro m hm
      have hmiddle : (m ++ e :: entries).Perm (e :: m ++ entries) := List.perm_middle
      have hkeys := (hmiddle.map Prod.fst).nodup_iff.mp hm
      have hnew : (OrderedMap.insert cmp e.1 e.2 m).Perm (e :: m) := by
        refine upsert_perm (fun t ht heq => ?_) _
        refine (List.nodup_cons.mp hkeys).1 (List.mem_map.mpr ⟨t, ?_, ?_⟩)
        · exact List.mem_append_left _ ht
        · exact (Std.LawfulEqCmp.eq_of_compare heq).symm
      have hall := hnew.append_right entries
      exact (ih _ ((hall.map Prod.fst).nodup_iff.mpr hkeys)).trans (hall.trans hmiddle.symm)
  exact hfold [] hn

lemma mem_erase {m : OrderedMap κ ν} {key : κ} {t : κ × ν} :
    t ∈ erase cmp key m ↔ t ∈ m ∧ cmp key t.1 ≠ .eq := by
  rw [erase, List.mem_filter, bne_iff_ne]

section Compare
variable {cmpKey : κ → κ → Ordering} {cmpValue : ν → ν → Ordering}

lemma compareBy_eq (a b : OrderedMap κ ν) : compareBy cmpKey cmpValue a b =
    List.compareLex (fun s t => (cmpKey s.1 t.1).then (cmpValue s.2 t.2)) a b := by
  induction a generalizing b with
  | nil =>
    cases b with
    | nil => rfl
    | cons t b => rfl
  | cons s a ih =>
    cases b with
    | nil => rfl
    | cons t b => rw [compareBy, ih, List.compareLex_cons_cons]

/-- The first entries in which two maps differ decide, and if one map is a prefix of the other,
their lengths do. -/
lemma compareBy_eq_find? (m m' : OrderedMap κ ν) : compareBy cmpKey cmpValue m m' =
      (((m.zip m').map fun e => (cmpKey e.1.1 e.2.1).then (cmpValue e.1.2 e.2.2)).find?
        (· != .eq)).getD (compare m.length m'.length) := by
  induction m generalizing m' with
  | nil =>
    cases m' with
    | nil => rfl
    | cons t m' =>
      have hlt : compare 0 (m'.length + 1) = .lt := Nat.compare_eq_lt.mpr m'.length.succ_pos
      exact hlt.symm
  | cons s m ih =>
    cases m' with
    | nil =>
      have hgt : compare (m.length + 1) 0 = .gt := Nat.compare_eq_gt.mpr m.length.succ_pos
      exact hgt.symm
    | cons t m' =>
      have hlength : compare (s :: m).length (t :: m').length = compare m.length m'.length := by
        simp only [List.length_cons, Nat.compare_eq_ite_lt]
        simp only [Nat.add_lt_add_iff_right]
      rw [compareBy, ih, hlength, List.zip_cons_cons, List.map_cons, List.find?_cons]
      cases (cmpKey s.1 t.1).then (cmpValue s.2 t.2) <;> rfl

/-- Comparing by a part of a value is as lawful as comparing the parts. -/
lemma transCmp_comap {β : Type} [Std.TransCmp cmp] (part : β → κ) :
    Std.TransCmp fun a b => cmp (part a) (part b) where
  eq_swap := Std.OrientedCmp.eq_swap
  isLE_trans := Std.TransCmp.isLE_trans

instance [Std.TransCmp cmpKey] [Std.TransCmp cmpValue] :
    Std.TransCmp fun s t : κ × ν => (cmpKey s.1 t.1).then (cmpValue s.2 t.2) := by
  have hkey : Std.TransCmp fun s t : κ × ν => cmpKey s.1 t.1 := transCmp_comap Prod.fst
  have hvalue : Std.TransCmp fun s t : κ × ν => cmpValue s.2 t.2 := transCmp_comap Prod.snd
  exact inferInstanceAs (Std.TransCmp (compareLex (fun s t : κ × ν => cmpKey s.1 t.1)
    fun s t => cmpValue s.2 t.2))

instance [Std.LawfulEqCmp cmpKey] [Std.LawfulEqCmp cmpValue] :
    Std.LawfulEqCmp fun s t : κ × ν => (cmpKey s.1 t.1).then (cmpValue s.2 t.2) where
  compare_self := by simp
  eq_of_compare {s t} h := by
    rw [Ordering.then_eq_eq] at h
    exact Prod.ext (Std.LawfulEqCmp.eq_of_compare h.1) (Std.LawfulEqCmp.eq_of_compare h.2)

instance [Std.LawfulEqCmp cmpKey] [Std.LawfulEqCmp cmpValue] :
    Std.LawfulEqCmp (compareBy cmpKey cmpValue) := by
  have h : compareBy cmpKey cmpValue =
      List.compareLex fun s t => (cmpKey s.1 t.1).then (cmpValue s.2 t.2) :=
    funext₂ compareBy_eq
  rw [h]
  infer_instance

instance [Std.TransCmp cmpKey] [Std.TransCmp cmpValue] :
    Std.TransCmp (compareBy cmpKey cmpValue) := by
  have h : compareBy cmpKey cmpValue =
      List.compareLex fun s t => (cmpKey s.1 t.1).then (cmpValue s.2 t.2) :=
    funext₂ compareBy_eq
  rw [h]
  infer_instance

/-- Sorted maps compare equal exactly if they have the same entries. -/
lemma Sorted.compareBy_eq_iff [Std.LawfulEqCmp cmpKey] [Std.LawfulEqCmp cmpValue]
    [Std.OrientedCmp cmpKey] {m m' : OrderedMap κ ν} (hm : Sorted cmpKey m)
    (hm' : Sorted cmpKey m') :
    compareBy cmpKey cmpValue m m' = .eq ↔ ∀ k v, (k, v) ∈ m ↔ (k, v) ∈ m' := by
  constructor
  · intro h k v
    rw [Std.LawfulEqCmp.eq_of_compare h]
  · intro h
    obtain rfl := hm.ext hm' fun t => h t.1 t.2
    exact Std.ReflCmp.compare_self

end Compare
end OrderedMap

namespace NameSet

lemma mem_insert {name n : String} {s : NameSet} : n ∈ insert name s ↔ n = name ∨ n ∈ s := by
  induction s with
  | nil => simp [insert]
  | cons m rest ih =>
    rw [insert]
    cases hc : compare name m with
    | lt => rw [List.mem_cons]
    | eq =>
      obtain rfl := Std.LawfulEqOrd.eq_of_compare hc
      rw [List.mem_cons]
      tauto
    | gt =>
      rw [List.mem_cons, ih, List.mem_cons]
      tauto

lemma mem_union {n : String} {s t : NameSet} : n ∈ union s t ↔ n ∈ s ∨ n ∈ t := by
  unfold union
  induction t generalizing s with
  | nil => simp
  | cons m t ih =>
    rw [List.foldl_cons, ih, mem_insert, List.mem_cons]
    tauto

lemma mem_ofList {n : String} {names : List String} : n ∈ ofList names ↔ n ∈ names := by
  rw [ofList, mem_union]
  simp

lemma compare_eq_lt {m n : String} : compare m n = .lt ↔ m < n := compareOfLessAndEq_eq_lt

lemma pairwise_insert {name : String} {s : NameSet} (hs : s.Pairwise (· < ·)) :
    (insert name s).Pairwise (· < ·) := by
  induction s with
  | nil => exact List.pairwise_singleton _ _
  | cons m rest ih =>
    obtain ⟨hm, hrest⟩ := List.pairwise_cons.mp hs
    rw [insert]
    cases hc : compare name m with
    | lt =>
      have hlt := compare_eq_lt.mp hc
      refine List.pairwise_cons.mpr ⟨fun n hn => ?_, hs⟩
      rcases List.mem_cons.mp hn with rfl | hn
      · exact hlt
      · exact String.lt_trans hlt (hm n hn)
    | eq => exact hs
    | gt =>
      have hlt := compare_eq_lt.mp (Std.OrientedCmp.gt_iff_lt.mp hc)
      refine List.pairwise_cons.mpr ⟨fun n hn => ?_, ih hrest⟩
      rcases mem_insert.mp hn with rfl | hn
      · exact hlt
      · exact hm n hn

/-- The names of a set ascend. -/
lemma pairwise_ofList (names : List String) : (ofList names).Pairwise (· < ·) := by
  have hunion : ∀ (s : NameSet), s.Pairwise (· < ·) →
      (names.foldl (fun acc n => insert n acc) s).Pairwise (· < ·) := by
    induction names with
    | nil => exact fun s hs => hs
    | cons name names ih => exact fun s hs => ih _ (pairwise_insert hs)
  exact hunion [] .nil

end NameSet
end GateFusion
