import GateFusion.Proofs.Parameter.Polynomial

/-!
# Evaluation in any arithmetic

Whatever the arithmetic, an evaluation succeeds if all symbols are bound, and its result depends on
their values only.
-/

namespace GateFusion

section Fold
variable {β γ μ : Type} (step : μ → γ → β → μ)

/-- A loop over parts that may be missing fails at a missing part only. -/
lemma isSome_foldlM_map (part : γ → Option β) (ts : List γ) (acc : μ) :
    (ts.foldlM (fun acc t => (part t).map fun x => step acc t x) acc).isSome = true ↔
      ∀ t ∈ ts, (part t).isSome = true := by
  induction ts generalizing acc with
  | nil => simp
  | cons t ts ih =>
    rw [List.foldlM_cons, List.forall_mem_cons]
    cases part t with
    | none => simp
    | some x =>
      rw [Option.map_some, Option.bind_eq_bind, Option.bind_some, ih, Option.isSome_some]
      exact (and_iff_right rfl).symm

lemma foldlM_map_congr {part part' : γ → Option β} {ts : List γ} (h : ∀ t ∈ ts, part t = part' t)
    (acc : μ) : ts.foldlM (fun acc t => (part t).map fun x => step acc t x) acc =
      ts.foldlM (fun acc t => (part' t).map fun x => step acc t x) acc := by
  induction ts generalizing acc with
  | nil => rfl
  | cons t ts ih =>
    rw [List.foldlM_cons, List.foldlM_cons, h t (by simp)]
    exact congrArg _ (funext fun acc => ih (fun s hs => h s (by simp [hs])) acc)

end Fold

variable {α : Type} [Scalar α] {lookup lookup' : String → Option α}

lemma Angle.isSome_evaluate {a : Angle α} :
    (a.evaluate lookup).isSome = true ↔ Binds lookup a.symbols := by
  refine (isSome_foldlM_map _ _ _ _).trans ?_
  rw [Binds, symbols, List.forall_mem_map]

lemma Angle.evaluate_congr {a : Angle α} (h : ∀ n ∈ a.symbols, lookup n = lookup' n) :
    a.evaluate lookup = a.evaluate lookup' :=
  foldlM_map_congr _ (fun _ ht => h _ (List.mem_map_of_mem ht)) _

lemma Factors.isSome_evaluate {f : Factors α} {c : Cartesian α} :
    (f.evaluate c lookup).isSome = true ↔ ∀ n ∈ f.symbols, (lookup n).isSome = true := by
  refine (isSome_foldlM_map _ _ _ _).trans ⟨fun h n hn => ?_, fun h t ht => ?_⟩
  · obtain ⟨t, ht, hn⟩ := mem_symbols.mp hn
    exact Angle.isSome_evaluate.mp (h t ht) n hn
  · exact Angle.isSome_evaluate.mpr fun n hn => h n (mem_symbols.mpr ⟨t, ht, hn⟩)

lemma Factors.evaluate_congr {f : Factors α} {c : Cartesian α}
    (h : ∀ n ∈ f.symbols, lookup n = lookup' n) : f.evaluate c lookup = f.evaluate c lookup' :=
  foldlM_map_congr _
    (fun t ht => Angle.evaluate_congr fun n hn => h n (mem_symbols.mpr ⟨t, ht, hn⟩)) _

/-- Evaluation succeeds exactly if every symbol is bound. -/
theorem Polynomial.isSome_evaluate {p : Polynomial α} :
    (p.evaluate lookup).isSome = true ↔ Binds lookup p.symbols := by
  refine (isSome_foldlM_map _ _ _ _).trans ⟨fun h n hn => ?_, fun h t ht => ?_⟩
  · obtain ⟨t, ht, hn⟩ := mem_symbols.mp hn
    exact Factors.isSome_evaluate.mp (h t ht) n hn
  · exact Factors.isSome_evaluate.mpr fun n hn => h n (mem_symbols.mpr ⟨t, ht, hn⟩)

/-- Assignments that agree on the symbols give the same value. -/
theorem Polynomial.evaluate_congr {p : Polynomial α} (h : ∀ n ∈ p.symbols, lookup n = lookup' n) :
    p.evaluate lookup = p.evaluate lookup' :=
  foldlM_map_congr _
    (fun t ht => Factors.evaluate_congr fun n hn => h n (mem_symbols.mpr ⟨t, ht, hn⟩)) _

end GateFusion
