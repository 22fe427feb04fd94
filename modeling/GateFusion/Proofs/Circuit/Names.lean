import GateFusion.Proofs.Circuit.Alike
import GateFusion.Proofs.Circuit.Origins

/-!
# Names of blocks

A call that succeeds names the block it makes, and a replacement uses up the two names it is given.
Slots are handed out again, names are not: a name stands for its block until a replacement uses it
up, and for none afterwards. It pairs the slot with a creation number, and those only grow.
-/

namespace GateFusion.CircuitGraph
variable {α : Type} {g g' : CircuitGraph α} {w : Qubit → List Nat}

/-- A name that a call hands out, with what its block holds, and the names that the call uses up. -/
structure Issue (α : Type) where
  id : BlockId
  gate : Gate α
  origins : List Nat
  consumed : List BlockId

/-- What a call hands out and uses up, unless it is refused. -/
def issue? (g : CircuitGraph α) : Call α → Option (Issue α)
  | .add gate _ =>
    match g.addBlock gate with
    | .ok (id, _) => some ⟨id, gate, [g.nextOrigin], []⟩
    | .error _ => none
  | .replace a b fused _ =>
    match g.replace a b fused with
    | .ok (id, _) => some ⟨id, fused, (g.originsOf a ++ g.originsOf b).mergeSort, [a, b]⟩
    | .error _ => none

/-- What a sequence of calls hands out and uses up. -/
def issues (g : CircuitGraph α) : List (Call α) → List (Issue α)
  | [] => []
  | c :: calls => (g.issue? c).toList ++ (g.perform c).issues calls

/-- The names that a sequence of calls uses up. -/
def consumed (g : CircuitGraph α) (calls : List (Call α)) : List BlockId :=
  (g.issues calls).flatMap (·.consumed)

section Dead
variable {id : BlockId}

/-- A name that stands for nothing: queries about it have no answer, and a replacement that is given
it is refused and changes nothing. -/
structure Dead (g : CircuitGraph α) (id : BlockId) : Prop where
  contains : g.contains id = false
  block : g.block? id = none
  prevOn : ∀ q, g.prevOn? id q = none
  nextOn : ∀ q, g.nextOn? id q = none
  neighbors : g.neighbors id = []
  adjacency : ∀ other, g.adjacency id other = none ∧ g.adjacency other id = none
  unionArity : ∀ other, g.unionArity id other = none ∧ g.unionArity other id = none
  fusable : ∀ other k, g.fusable id other k = none ∧ g.fusable other id k = none
  indirect : ∀ other, g.hasIndirectPath id other = false ∧ g.hasIndirectPath other id = false
  replace : ∀ other fused, g.replace id other fused = .error (.invalidBlock id) ∧
    g.replace other id fused = .error (.invalidBlock (if g.contains other then id else other))
  unchanged : ∀ other fused hfused, g.perform (.replace id other fused hfused) = g ∧
    g.perform (.replace other id fused hfused) = g

lemma live_eq_error (h : g.block? id = none) : g.live id = .error (.invalidBlock id) := by
  rw [live, h]

lemma adjacency_eq_none (h : g.block? id = none) (other : BlockId) :
    g.adjacency id other = none ∧ g.adjacency other id = none := by
  constructor
  · rw [Option.eq_none_iff_forall_ne_some]
    intro p hp
    obtain ⟨A, -, hA, -⟩ := live_of_adjacency hp
    rw [h] at hA
    nomatch hA
  · rw [Option.eq_none_iff_forall_ne_some]
    intro p hp
    obtain ⟨-, B, -, hB⟩ := live_of_adjacency hp
    rw [h] at hB
    nomatch hB

lemma replace_eq_invalid (h : g.block? id = none) (other : BlockId) (fused : Gate α) :
    g.replace id other fused = .error (.invalidBlock id) ∧
      g.replace other id fused =
        .error (.invalidBlock (if g.contains other then id else other)) := by
  constructor
  · rw [replace_eq, checkPair, live_eq_error h]
    rfl
  · rw [replace_eq, checkPair, contains]
    cases hother : g.block? other with
    | none =>
      rw [live_eq_error hother]
      rfl
    | some b =>
      rw [live_eq_ok.mpr hother, live_eq_error h]
      rfl

/-- A name without a block is dead on every path by which it may be used. -/
theorem dead_of_block? (h : g.block? id = none) : Dead g id := by
  constructor
  case contains => rw [contains, h, Option.isSome_none]
  case block => exact h
  case prevOn =>
    intro q
    rw [prevOn?, h]
    rfl
  case nextOn =>
    intro q
    rw [nextOn?, h]
    rfl
  case neighbors => rw [neighbors, h]
  case adjacency => exact adjacency_eq_none h
  case unionArity =>
    intro other
    rw [unionArity, unionArity, h]
    exact ⟨rfl, Option.bind_eq_none_iff.mpr fun _ _ => rfl⟩
  case fusable =>
    intro other k
    rw [fusable, fusable, (adjacency_eq_none h other).1, (adjacency_eq_none h other).2]
    exact ⟨rfl, rfl⟩
  case indirect =>
    intro other
    have hnot : g.contains id = false := by rw [contains, h, Option.isSome_none]
    rw [hasIndirectPath, hasIndirectPath, hnot, Bool.false_and, Bool.false_and, Bool.and_false,
      Bool.false_and]
    exact ⟨rfl, rfl⟩
  case replace => exact replace_eq_invalid h
  case unchanged =>
    intro other fused hfused
    obtain ⟨hfirst, hsecond⟩ := replace_eq_invalid h other fused
    exact ⟨graph_exchange_of_error hfirst, graph_exchange_of_error hsecond⟩

end Dead

/-- An added block takes no name that stood for another one. -/
lemma Sound.map_content_addBlock (hs : Sound g w) {gate : Gate α} (hgate : gate.WellFormed)
    {id : BlockId} (hadd : g.addBlock gate = .ok (id, g')) (x : BlockId) :
    (g'.block? x).map Block.content =
      if x = id then some (gate, [g.nextOrigin]) else (g.block? x).map Block.content := by
  obtain ⟨-, hid, hempty, hat, -⟩ := hs.addBlock hgate hadd
  by_cases hx : x = id
  · have hnew : g'.block? x = some ⟨gate, g.nextSeq, g.nextSeq, [g.nextOrigin]⟩ := by
      rw [block?_eq_some, hat, hx, if_pos rfl, hid]
      exact ⟨rfl, rfl⟩
    rw [if_pos hx, hnew]
    rfl
  · rw [if_neg hx, block?, block?, hat]
    by_cases hslot : x.slot = id.slot
    · have hseq : g.nextSeq ≠ x.seq := by
        rintro heq
        obtain ⟨slot, seq⟩ := x
        rw [hid] at hx hslot
        exact hx (congrArg₂ BlockId.mk hslot heq.symm)
      rw [if_pos hslot, hslot, hempty]
      simp [hseq]
    · rw [if_neg hslot]

/-- The numbers of both blocks are handed on, whichever is named first. -/
lemma originsOf_merge {a b e l : BlockId} {first second : Block α}
    (hside : (e = a ∧ l = b) ∨ (e = b ∧ l = a)) (he : g.block? e = some first)
    (hl : g.block? l = some second) :
    (g.originsOf a ++ g.originsOf b).mergeSort = (first.origins ++ second.origins).mergeSort := by
  have hperm : (g.originsOf a ++ g.originsOf b).Perm (first.origins ++ second.origins) := by
    rcases hside with ⟨rfl, rfl⟩ | ⟨rfl, rfl⟩
    · rw [originsOf, originsOf, he, hl]
    · rw [originsOf, originsOf, he, hl]
      exact List.perm_append_comm
  have hsorted : (g.originsOf a ++ g.originsOf b).mergeSort.Perm
      (first.origins ++ second.origins).mergeSort :=
    ((List.mergeSort_perm _ _).trans hperm).trans (List.mergeSort_perm _ _).symm
  exact hsorted.eq_of_pairwise' (List.pairwise_mergeSort' (· ≤ ·) _)
    (List.pairwise_mergeSort' (· ≤ ·) _)

/-- What a call does to names: nothing, or it hands out one that is younger than all others and uses
up those it consumes, and the rest stand for what they stood for. -/
theorem Sound.issue_cases (hs : Sound g w) (c : Call α) :
    (g.issue? c = none ∧ g.perform c = g) ∨
    ∃ i w', g.issue? c = some i ∧ Sound (g.perform c) w' ∧ i.id.seq = g.nextSeq ∧
      (g.perform c).nextSeq = g.nextSeq + 1 ∧
      ∀ x, ((g.perform c).block? x).map Block.content =
        if x = i.id then some (i.gate, i.origins)
        else if x ∈ i.consumed then none else (g.block? x).map Block.content := by
  cases c with
  | add gate hgate =>
    rw [issue?, CircuitGraph.perform]
    cases h : g.addBlock gate with
    | error err => exact Or.inl ⟨rfl, graph_append_of_error h⟩
    | ok r =>
      rw [Change.graph_of_result h]
      obtain ⟨hs', hid, -, -, -, hseq, -⟩ := hs.addBlock hgate h
      refine Or.inr ⟨_, _, rfl, hs', ?_, hseq, fun x => ?_⟩
      · rw [hid]
      · rw [hs.map_content_addBlock hgate h, if_neg List.not_mem_nil]
  | replace a b fused hfused =>
    rw [issue?, CircuitGraph.perform]
    cases h : g.replace a b fused with
    | error err => exact Or.inl ⟨rfl, graph_exchange_of_error h⟩
    | ok r =>
      obtain ⟨id, g'⟩ := r
      rw [Change.graph_of_result h]
      obtain ⟨e, l, first, second, hadj, hm, hf, hmerge⟩ := (hs.replace_eq_ok hfused).mp h
      obtain ⟨A, B, ha, hb⟩ := live_of_adjacency hadj
      have hside := ((hs.wired.adjacency_eq_some ha hb).mp hadj).1
      have hmerged := hs.merge hm hf hmerge
      refine Or.inr ⟨_, _, rfl, hmerged.sound, hmerged.seq, hmerged.nextSeq, fun x => ?_⟩
      dsimp only
      by_cases hx : x = id
      · obtain ⟨c, hc, hgate, horigins⟩ := hmerged.block?_new
        rw [if_pos hx, hx, hc, Option.map_some, Block.content, hgate, horigins,
          originsOf_merge hside hm.earlier hm.later]
      · have hpair : (x = e ∨ x = l) ↔ x ∈ [a, b] := by
          rw [List.mem_pair]
          rcases hside with ⟨rfl, rfl⟩ | ⟨rfl, rfl⟩
          · rfl
          · exact or_comm
        rw [if_neg hx, hmerged.map_content hm hx]
        simp only [hpair]

/-- Names that are in use stand for what they stood for until they are used up, and then for
nothing. -/
theorem Sound.map_content_run (hs : Sound g w) (calls : List (Call α)) {x : BlockId}
    (hx : x.seq < g.nextSeq) : ((g.run calls).block? x).map Block.content =
      if x ∈ g.consumed calls then none else (g.block? x).map Block.content := by
  induction calls generalizing g w with
  | nil => rw [consumed, issues, List.flatMap_nil, if_neg List.not_mem_nil]; rfl
  | cons c calls ih =>
    have hrun : g.run (c :: calls) = (g.perform c).run calls := rfl
    rw [hrun, consumed, issues, List.flatMap_append]
    rcases hs.issue_cases c with ⟨hnone, hsame⟩ | ⟨i, w', hi, hs', hid, hseq, hcontent⟩
    · rw [hnone, hsame]
      exact ih hs hx
    · have hne : x ≠ i.id := by
        rintro rfl
        exact hx.ne hid
      rw [ih hs' (by omega), hcontent, if_neg hne, hi, consumed]
      by_cases hnow : x ∈ i.consumed <;> simp [hnow]

lemma Sound.nextSeq_le_run (hs : Sound g w) (calls : List (Call α)) :
    g.nextSeq ≤ (g.run calls).nextSeq := by
  induction calls generalizing g w with
  | nil => exact le_rfl
  | cons c calls ih =>
    have hrun : g.run (c :: calls) = (g.perform c).run calls := rfl
    rcases hs.issue_cases c with ⟨-, hsame⟩ | ⟨i, w', -, hs', -, hseq, -⟩
    · rw [hrun, hsame]
      exact ih hs
    · have := ih hs'
      rw [hrun]
      omega

/-- Names that have been handed out are older than the next one. -/
lemma Sound.seq_lt_of_mem_issues (hs : Sound g w) (calls : List (Call α)) {i : Issue α}
    (hi : i ∈ g.issues calls) : i.id.seq < (g.run calls).nextSeq := by
  induction calls generalizing g w with
  | nil => exact absurd hi List.not_mem_nil
  | cons c calls ih =>
    have hrun : g.run (c :: calls) = (g.perform c).run calls := rfl
    rw [hrun]
    rw [issues, List.mem_append] at hi
    rcases hs.issue_cases c with ⟨hnone, hsame⟩ | ⟨j, w', hj, hs', hid, hseq, -⟩
    · rw [hnone, hsame] at hi
      rw [hsame]
      exact ih hs (hi.resolve_left List.not_mem_nil)
    · rcases hi with hi | hi
      · rw [hj, Option.toList_some, List.mem_singleton] at hi
        have := hs'.nextSeq_le_run calls
        rw [hi]
        omega
      · exact ih hs' hi

/-- In every history of a graph a call that succeeds hands out a new name. From then on the name
stands for the gate and the origins of the block that was made, until a replacement uses it up;
after that it is dead, whatever its slot holds. -/
theorem lifetime_of_reachable {n : Nat} (h : CircuitGraph.empty n = .ok g)
    (before after : List (Call α)) {c : Call α} {i : Issue α}
    (hi : (g.run before).issue? c = some i) :
    (∀ j ∈ g.issues before, j.id ≠ i.id) ∧
      (i.id ∉ ((g.run before).perform c).consumed after →
        (g.run (before ++ c :: after)).contains i.id = true ∧
          ∃ b, (g.run (before ++ c :: after)).block? i.id = some b ∧ b.gate = i.gate ∧
            b.origins = i.origins) ∧
      (i.id ∈ ((g.run before).perform c).consumed after →
        Dead (g.run (before ++ c :: after)) i.id) := by
  obtain ⟨w, hs⟩ := (Sound.empty h).run before
  rcases hs.issue_cases c with ⟨hnone, -⟩ | ⟨i', w', hi', hs', hid, hseq, hcontent⟩
  · rw [hi] at hnone
    nomatch hnone
  obtain rfl := Option.some.inj (hi'.symm.trans hi)
  have hrun : g.run (before ++ c :: after) = ((g.run before).perform c).run after :=
    List.foldl_append
  have hlater := hs'.map_content_run after (x := i'.id) (by omega)
  rw [hcontent, if_pos rfl] at hlater
  rw [hrun]
  refine ⟨fun j hj heq => ?_, fun hlive => ?_, fun hgone => ?_⟩
  · have hlt := (Sound.empty h).seq_lt_of_mem_issues before hj
    rw [heq, hid] at hlt
    exact lt_irrefl _ hlt
  · rw [if_neg hlive, Option.map_eq_some_iff] at hlater
    obtain ⟨b, hb, hholds⟩ := hlater
    obtain ⟨hgate, horigins⟩ := Prod.mk.inj hholds
    exact ⟨Option.isSome_iff_exists.mpr ⟨b, hb⟩, b, hb, hgate, horigins⟩
  · rw [if_pos hgone, Option.map_eq_none_iff] at hlater
    exact dead_of_block? hlater

section Sample

/-- One qubit without gates. -/
def bareWire : CircuitGraph Nat := ⟨#[], [], [], #[none], #[none], 0, 0⟩

/-- The addition of a gate. -/
def addition : Call Nat := .add cleared wellFormed_cleared

/-- The replacement of the first two blocks. -/
def replacement : Call Nat := .replace ⟨0, 0⟩ ⟨1, 1⟩ cleared wellFormed_cleared

/-- The name of a block that was merged is dead, while its slot holds the merged block. -/
theorem lifetime_reusedSlot : CircuitGraph.empty 1 = .ok bareWire ∧
    (bareWire.run [addition]).issue? addition = some ⟨⟨1, 1⟩, cleared, [1], []⟩ ∧
    ⟨1, 1⟩ ∈ (bareWire.run [addition, addition]).consumed [replacement] ∧
    (bareWire.run [addition, addition, replacement]).contains ⟨1, 2⟩ = true ∧
    Dead (bareWire.run [addition, addition, replacement]) ⟨1, 1⟩ := by
  have hempty : CircuitGraph.empty 1 = .ok bareWire := rfl
  have hissue : (bareWire.run [addition]).issue? addition =
    some ⟨⟨1, 1⟩, cleared, [1], []⟩ := rfl
  have hadj : (bareWire.run [addition, addition]).adjacency ⟨0, 0⟩ ⟨1, 1⟩ =
    some (⟨0, 0⟩, ⟨1, 1⟩) := rfl
  have hreplace : (bareWire.run [addition, addition]).replace ⟨0, 0⟩ ⟨1, 1⟩ cleared = .ok _ :=
    replace_of_adjacency hadj rfl rfl rfl ⟨rfl, rfl⟩
  have hconsumed : (bareWire.run [addition, addition]).consumed [replacement] =
      [⟨0, 0⟩, ⟨1, 1⟩] := by
    rw [consumed, issues, replacement, issue?, hreplace]
    rfl
  have hmem : ⟨1, 1⟩ ∈ (bareWire.run [addition, addition]).consumed [replacement] := by
    rw [hconsumed]
    decide
  have hcontains : (bareWire.run [addition, addition, replacement]).contains ⟨1, 2⟩ = true := by
    have hrun : bareWire.run [addition, addition, replacement] = _ :=
      perform_of_adjacency hadj rfl rfl rfl ⟨rfl, rfl⟩ wellFormed_cleared (by decide)
    rw [hrun]
    rfl
  exact ⟨hempty, hissue, hmem, hcontains,
    (lifetime_of_reachable hempty [addition] [replacement] hissue).2.2 hmem⟩

end Sample

end GateFusion.CircuitGraph
