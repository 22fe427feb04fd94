import GateFusion.Proofs.Exact
import GateFusion.Parameter.Angle
import GateFusion.Proofs.OrderedMap

/-!
# Values of angles

With a number for every symbol an angle has a value, and sums and multiples of angles have the sums
and multiples of the values. Evaluation gives that value if all symbols of the angle are bound, and
nothing otherwise.
-/

namespace GateFusion

/-- An assignment has a value for each of the names. -/
def Binds {α : Type} (lookup : String → Option α) (names : NameSet) : Prop :=
  ∀ n ∈ names, (lookup n).isSome = true

/-- An assignment with zero for names that have no value. -/
def valuation {α : Type} [Zero α] (lookup : String → Option α) (name : String) : α :=
  (lookup name).getD 0

lemma lookup_eq_some {α : Type} [Zero α] {lookup : String → Option α} {n : String} {x : α} :
    lookup n = some x ↔ (lookup n).isSome = true ∧ x = valuation lookup n := by
  rw [valuation]
  cases lookup n with
  | none => simp
  | some y => simp [eq_comm]

lemma Binds.mono {α : Type} {lookup : String → Option α} {names names' : NameSet}
    (h : Binds lookup names') (hsub : ∀ n ∈ names, n ∈ names') : Binds lookup names :=
  fun n hn => h n (hsub n hn)

lemma Binds.union {α : Type} {lookup : String → Option α} {names names' both : NameSet}
    (h : Binds lookup names) (h' : Binds lookup names')
    (hsub : ∀ n ∈ both, n ∈ names ∨ n ∈ names') : Binds lookup both :=
  fun n hn => (hsub n hn).elim (h n) (h' n)

/-- A fold over parts that may be missing succeeds exactly if none is. -/
lemma foldlM_map_eq_some {β γ μ : Type} {step : μ → γ → β → μ} {part : γ → Option β}
    {value : γ → β} {ok : γ → Prop} (h : ∀ t x, part t = some x ↔ ok t ∧ x = value t)
    (ts : List γ) (acc y : μ) :
    ts.foldlM (fun acc t => (part t).map fun x => step acc t x) acc = some y ↔
      (∀ t ∈ ts, ok t) ∧ y = ts.foldl (fun acc t => step acc t (value t)) acc := by
  induction ts generalizing acc with
  | nil => simp [eq_comm]
  | cons t ts ih =>
    rw [List.foldlM_cons, List.forall_mem_cons, List.foldl_cons]
    cases hp : part t with
    | none =>
      have hnot : ¬ ok t := fun hok => by simp [(h t (value t)).mpr ⟨hok, rfl⟩] at hp
      simp [hnot]
    | some x =>
      obtain ⟨hok, rfl⟩ := (h t x).mp hp
      simp only [Option.map_some, Option.bind_eq_bind, Option.bind_some, ih, hok, true_and]

namespace Angle

section Order
variable {α : Type} [Scalar α]

instance [Std.TransCmp (Scalar.totalCmp (α := α))] : Std.TransCmp (cmp (α := α)) := by
  have hconst : Std.TransCmp fun a b : Angle α =>
    Scalar.totalCmp a.constantPart b.constantPart := OrderedMap.transCmp_comap constantPart
  have hterms : Std.TransCmp fun a b : Angle α =>
      OrderedMap.compareBy compare Scalar.totalCmp a.terms b.terms :=
    OrderedMap.transCmp_comap terms
  exact inferInstanceAs (Std.TransCmp (compareLex
    (fun a b : Angle α => Scalar.totalCmp a.constantPart b.constantPart)
    fun a b => OrderedMap.compareBy compare Scalar.totalCmp a.terms b.terms))

instance [Std.LawfulEqCmp (Scalar.totalCmp (α := α))] : Std.LawfulEqCmp (cmp (α := α)) where
  compare_self := by simp [cmp]
  eq_of_compare {a b} h := by
    rw [cmp, Ordering.then_eq_eq] at h
    cases a
    cases b
    exact congrArg₂ mk (Std.LawfulEqCmp.eq_of_compare h.1) (Std.LawfulEqCmp.eq_of_compare h.2)

end Order

variable {α : Type} [Exact α]

/-- The value of an angle with a number for every symbol. -/
def value (v : String → α) (a : Angle α) : α :=
  a.constantPart + (a.terms.map fun t => t.2 * v t.1).sum

lemma value_congr {v v' : String → α} {a : Angle α} (h : ∀ n ∈ a.symbols, v n = v' n) :
    a.value v = a.value v' := by
  rw [value, value, List.map_congr_left fun t ht => ?_]
  rw [h t.1 (List.mem_map_of_mem ht)]

lemma foldl_add_mul (v : String → α) (ts : List (String × α)) (acc : α) :
    ts.foldl (fun acc t => acc + t.2 * v t.1) acc = acc + (ts.map fun t => t.2 * v t.1).sum := by
  induction ts generalizing acc with
  | nil => simp
  | cons t ts ih => rw [List.foldl_cons, ih, List.map_cons, List.sum_cons, add_assoc]

/-- Evaluation succeeds if every symbol is bound, with the value of the angle. -/
theorem evaluate_eq_some {a : Angle α} {lookup : String → Option α} {x : α} :
    a.evaluate lookup = some x ↔ Binds lookup a.symbols ∧ x = a.value (valuation lookup) := by
  refine (foldlM_map_eq_some (fun t y => lookup_eq_some) a.terms a.constantPart x).trans ?_
  rw [foldl_add_mul, Binds, symbols, List.forall_mem_map]
  rfl

@[simp] lemma value_constant (v : String → α) (x : α) : (constant x).value v = x := by
  simp [constant, value]

@[simp] lemma value_symbol (v : String → α) (n : String) : (symbol n).value v = v n := by
  simp [symbol, value]

/-- Terms of weight zero do not count. -/
lemma sum_filter_ne_zero (v : String → α) (ts : List (String × α)) :
    ((ts.filter fun t => !(t.2 == 0)).map fun t => t.2 * v t.1).sum =
      (ts.map fun t => t.2 * v t.1).sum := by
  induction ts with
  | nil => rfl
  | cons t ts ih =>
    rw [List.filter_cons]
    split
    · rw [List.map_cons, List.sum_cons, ih, List.map_cons, List.sum_cons]
    · rename_i h
      have hzero : t.2 = 0 := by simpa using h
      rw [ih, List.map_cons, List.sum_cons, hzero, zero_mul, zero_add]

theorem value_scale (v : String → α) (a : Angle α) (r : α) :
    (a.scale r).value v = a.value v * r := by
  simp only [scale, value, sum_filter_ne_zero, List.map_map, add_mul, add_zero]
  congr 1
  induction a.terms with
  | nil => simp
  | cons t ts ih =>
    simp only [List.map_cons, List.sum_cons, Function.comp_apply, ih]
    ring

lemma sum_upsert (v : String → α) (n : String) (w : α) (ts : OrderedMap String α) :
    ((OrderedMap.upsert compare n (fun old => old.getD 0 + w) ts).map fun t => t.2 * v t.1).sum =
      (ts.map fun t => t.2 * v t.1).sum + w * v n := by
  rcases OrderedMap.upsert_perm_cases compare n (fun old => old.getD 0 + w) ts with hu |
    ⟨k, x, rest, hk, hm, hu⟩
  · rw [(hu.map _).sum_eq]
    simp [add_comm]
  · obtain rfl := Std.LawfulEqOrd.eq_of_compare hk
    rw [(hu.map _).sum_eq, (hm.map _).sum_eq]
    simp only [List.map_cons, List.sum_cons, Option.getD_some]
    ring

theorem value_add (v : String → α) (a b : Angle α) :
    (a.add b).value v = a.value v + b.value v := by
  have hfold : ∀ (ts acc : OrderedMap String α),
      ((ts.foldl (fun acc t =>
        OrderedMap.upsert compare t.1 (fun old => old.getD 0 + t.2) acc) acc).map
          fun t => t.2 * v t.1).sum =
        (acc.map fun t => t.2 * v t.1).sum + (ts.map fun t => t.2 * v t.1).sum := by
    intro ts
    induction ts with
    | nil => simp
    | cons t ts ih =>
      intro acc
      rw [List.foldl_cons, ih, sum_upsert, List.map_cons, List.sum_cons, add_assoc]
  simp only [add, value, sum_filter_ne_zero, hfold, add_zero]
  ring

lemma mem_symbols_scale {a : Angle α} {r : α} {n : String} (h : n ∈ (a.scale r).symbols) :
    n ∈ a.symbols := by
  simp only [symbols, scale, List.mem_map, List.mem_filter] at h ⊢
  obtain ⟨t, ⟨⟨s, hs, rfl⟩, -⟩, rfl⟩ := h
  exact ⟨s, hs, rfl⟩

lemma mem_symbols_add {a b : Angle α} {n : String} (h : n ∈ (a.add b).symbols) :
    n ∈ a.symbols ∨ n ∈ b.symbols := by
  have hfold : ∀ (ts acc : OrderedMap String α) (t : String × α),
      t ∈ ts.foldl (fun acc t =>
        OrderedMap.upsert compare t.1 (fun old => old.getD 0 + t.2) acc) acc →
        t.1 ∈ acc.map (·.1) ∨ t.1 ∈ ts.map (·.1) := by
    intro ts
    induction ts with
    | nil => exact fun acc t ht => Or.inl (List.mem_map_of_mem ht)
    | cons s ts ih =>
      intro acc t ht
      rcases ih _ t ht with ht | ht
      · obtain ⟨u, hu, hut⟩ := List.mem_map.mp ht
        rcases OrderedMap.mem_upsert hu with hu | rfl | ⟨x, hu, -⟩
        · exact Or.inl (hut ▸ List.mem_map_of_mem hu)
        · exact Or.inr (by simp [← hut])
        · exact Or.inl (hut ▸ List.mem_map_of_mem (f := (·.1)) hu)
      · exact Or.inr (List.mem_cons_of_mem _ ht)
  obtain ⟨t, ht, rfl⟩ := List.mem_map.mp h
  exact hfold _ _ t (List.mem_of_mem_filter ht)

lemma value_of_isConstant (v : String → α) {a : Angle α} (h : a.isConstant = true) :
    a.value v = a.constantPart := by
  rw [isConstant, List.isEmpty_iff] at h
  simp [value, h]

end Angle
end GateFusion
