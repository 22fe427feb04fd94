import GateFusion.Circuit.Integrity
import GateFusion.Proofs.Circuit.Dependency
import GateFusion.Proofs.Loops

/-!
# Walks as trails

The check of a wire goes from the head to whatever the newest link leads to, and looks back along
the newest link at every block. What such a walk visits is a trail; the walk succeeds exactly if
there is a trail to its end that is no longer than the number of blocks.
-/

namespace GateFusion.CircuitGraph
variable {α : Type} {g : CircuitGraph α}

/-- What holds of every graph, however it is wired: links and heads name live blocks, gates act on
distinct qubits, and every wire has two ends. -/
structure Shaped (g : CircuitGraph α) : Prop where
  ends : g.tails.size = g.heads.size
  source : ∀ l ∈ g.links, ∃ b, g.blockAt? l.source = some b
  target : ∀ l ∈ g.links, ∃ b, g.blockAt? l.target = some b
  head : ∀ (q : Qubit) s, g.heads[q]?.join = some s → ∃ b, g.blockAt? s = some b
  distinct : ∀ s b, g.blockAt? s = some b → b.gate.qubits.Nodup

lemma Shaped.slot_prevOn? (hg : Shaped g) {id : BlockId} {b : Block α} (hb : g.block? id = some b)
    (q : Qubit) : (g.prevOn? id q).map (·.slot) = g.leader? q id.slot := by
  rw [prevOn?_eq hb, slot_bind_idAt?]
  intro s hs
  exact hg.source _ (link_of_leader? hs)

/-- The slots that a walk visits from `current` on, having come from `last`. -/
def Trail (g : CircuitGraph α) (q : Qubit) : Option Nat → Option Nat → List Nat → Prop
  | _, current, [] => current = none
  | last, current, s :: path => current = some s ∧ g.touches s q = true ∧ g.leader? q s = last ∧
      g.Trail q (some s) (g.follower? q s) path

section Step
variable {id : BlockId} {b : Block α} (hb : g.block? id = some b) {q : Qubit} {steps : Nat}
  {last : Option Nat} {out : Option Nat × Nat}
include hb

/-- One step of a walk. -/
lemma walk_succ_eq_ok {fuel : Nat} : g.walk q (fuel + 1) steps last (some id) = .ok out ↔
    b.gate.actsOn q = true ∧ (g.prevOn? id q).map (·.slot) = last ∧
      g.walk q fuel (steps + 1) (some id.slot) (g.nextOn? id q) = .ok out := by
  have heq : g.walk q (fuel + 1) steps last (some id) = g.live id >>= fun block =>
      if !block.gate.actsOn q then .error (.wiring (.onForeignWire id q))
      else if (g.prevOn? id q).map (·.slot) ≠ last then .error (.wiring (.broken q id))
      else g.walk q fuel (steps + 1) (some id.slot) (g.nextOn? id q) := rfl
  rw [heq, live_eq_ok.mpr hb]
  change (if !b.gate.actsOn q then _ else _) = _ ↔ _
  cases b.gate.actsOn q with
  | false => simp
  | true =>
    by_cases hlast : (g.prevOn? id q).map (·.slot) = last
    · simp [hlast]
    · simp [hlast]

/-- A walk that may not visit another block does not end at one. -/
lemma walk_zero_ne_ok : g.walk q 0 steps last (some id) ≠ .ok out := by
  have heq : g.walk q 0 steps last (some id) = g.live id >>= fun block =>
      if !block.gate.actsOn q then .error (.wiring (.onForeignWire id q))
      else if (g.prevOn? id q).map (·.slot) ≠ last then .error (.wiring (.broken q id))
      else .error (.wiring (.unending q)) := rfl
  rw [heq, live_eq_ok.mpr hb]
  change (if !b.gate.actsOn q then _ else _) ≠ _
  split
  · simp
  · split <;> simp

end Step

section Ends
variable {q : Qubit} {fuel steps k : Nat} {last l : Option Nat}

lemma trail_none_iff {path : List Nat} : g.Trail q last none path ↔ path = [] := by
  cases path <;> simp [Trail]

lemma walk_none : g.walk q fuel steps last none = .ok (last, steps) := by
  cases fuel <;> rfl

/-- A walk that has nowhere to go has come to its end. -/
lemma walk_none_eq_ok_iff : g.walk q fuel steps last none = .ok (l, k) ↔
    ∃ path, g.Trail q last none path ∧ path.length ≤ fuel ∧ l = path.getLast?.or last ∧
      k = steps + path.length := by
  simp only [walk_none, trail_none_iff, exists_eq_left, Except.ok.injEq, Prod.mk.injEq]
  simp [eq_comm]

end Ends

/-- A walk succeeds exactly along a trail that is short enough. -/
theorem Shaped.walk_eq_ok_iff (hg : Shaped g) {q : Qubit} {fuel steps k : Nat}
    {last current l : Option Nat} (hcurrent : ∀ s ∈ current, ∃ b, g.blockAt? s = some b) :
    g.walk q fuel steps last (current.bind g.idAt?) = .ok (l, k) ↔
      ∃ path, g.Trail q last current path ∧ path.length ≤ fuel ∧ l = path.getLast?.or last ∧
        k = steps + path.length := by
  induction fuel generalizing steps last current with
  | zero =>
    cases current with
    | none => exact walk_none_eq_ok_iff
    | some s =>
      obtain ⟨b, hb⟩ := hcurrent s rfl
      rw [Option.bind_some, idAt?_eq_some.mpr ⟨b, hb, rfl⟩]
      refine iff_of_false (walk_zero_ne_ok (block?_of_blockAt? hb)) ?_
      rintro ⟨path, htrail, hlength, -⟩
      obtain rfl := List.length_eq_zero_iff.mp (Nat.le_zero.mp hlength)
      nomatch htrail
  | succ fuel ih =>
    cases current with
    | none => exact walk_none_eq_ok_iff
    | some s =>
      obtain ⟨b, hb⟩ := hcurrent s rfl
      have hblock := block?_of_blockAt? hb
      have htouches : b.gate.actsOn q = g.touches s q := by rw [touches, hb]
      have hfollower : ∀ t ∈ g.follower? q s, ∃ c, g.blockAt? t = some c := fun t ht =>
        hg.target _ (link_of_follower? ht)
      rw [Option.bind_some, idAt?_eq_some.mpr ⟨b, hb, rfl⟩, walk_succ_eq_ok hblock,
        hg.slot_prevOn? hblock, nextOn?_eq hblock, htouches, ih hfollower]
      constructor
      · rintro ⟨hacts, hleader, path, htrail, hlength, rfl, rfl⟩
        refine ⟨s :: path, ⟨rfl, hacts, hleader, htrail⟩, Nat.succ_le_succ hlength, ?_, ?_⟩
        · rw [List.getLast?_cons, Option.or_some, Option.some_or]
        · rw [List.length_cons]
          omega
      · rintro ⟨path, htrail, hlength, rfl, rfl⟩
        cases path with
        | nil => nomatch htrail
        | cons t path =>
          obtain ⟨hst, hacts, hleader, hrest⟩ := htrail
          obtain rfl := Option.some.inj hst
          refine ⟨hacts, hleader, path, hrest, Nat.le_of_succ_le_succ hlength, ?_, ?_⟩
          · rw [List.getLast?_cons, Option.or_some, Option.some_or]
          · rw [List.length_cons]
            omega

/-- A wire is accepted exactly if a trail leads from its head to its tail. -/
theorem Shaped.checkWire_eq_ok_iff (hg : Shaped g) {q : Qubit} {k : Nat} :
    g.checkWire q = .ok k ↔ ∃ path, g.Trail q none g.heads[q]?.join path ∧
      path.length ≤ g.numBlocks ∧ path.getLast? = g.tails[q]?.join ∧ k = path.length := by
  have hhead : g.head? q = g.heads[q]?.join.bind g.idAt? := rfl
  have hcheck : g.checkWire q = g.walk q g.numBlocks 0 none (g.head? q) >>= fun out =>
      if out.1 = g.tails[q]?.join then .ok out.2 else .error (.wiring (.wrongTail q)) := rfl
  rw [hcheck, bind_eq_ok, hhead]
  constructor
  · rintro ⟨⟨l, k'⟩, hwalk, htail⟩
    obtain ⟨path, htrail, hlength, rfl, rfl⟩ := (hg.walk_eq_ok_iff (hg.head q)).mp hwalk
    rw [Option.or_none, Nat.zero_add] at htail
    split at htail
    · rename_i hlast
      exact ⟨path, htrail, hlength, hlast, (Except.ok.inj htail).symm⟩
    · nomatch htail
  · rintro ⟨path, htrail, hlength, hlast, rfl⟩
    refine ⟨(path.getLast?, path.length), ?_, ?_⟩
    · refine (hg.walk_eq_ok_iff (hg.head q)).mpr ⟨path, htrail, hlength, ?_, ?_⟩
      · rw [Option.or_none]
      · rw [Nat.zero_add]
    · rw [if_pos hlast]

section Along
variable {q : Qubit} {last current : Option Nat} {path : List Nat}

lemma Trail.touches (h : g.Trail q last current path) : ∀ s ∈ path, g.touches s q = true := by
  induction path generalizing last current with
  | nil => simp
  | cons s path ih => exact List.forall_mem_cons.mpr ⟨h.2.1, ih h.2.2.2⟩

lemma Trail.head? (h : g.Trail q last current path) : path.head? = current := by
  cases path with
  | nil => exact h.symm
  | cons s path => exact h.1.symm

/-- The newest links at a slot of a trail join it to its neighbours. -/
lemma Trail.neighbors {front back : List Nat} {s : Nat}
    (h : g.Trail q last current (front ++ s :: back)) :
    g.follower? q s = back.head? ∧ g.leader? q s = front.getLast?.or last := by
  induction front generalizing last current with
  | nil => exact ⟨h.2.2.2.head?.symm, h.2.2.1⟩
  | cons t front ih =>
    obtain ⟨hfollower, hleader⟩ := ih h.2.2.2
    refine ⟨hfollower, hleader.trans ?_⟩
    rw [List.getLast?_cons, Option.or_some, Option.some_or]

/-- Ranks increase along a trail, so it visits no slot twice. -/
lemma Trail.pairwise (hr : g.Ranked) (h : g.Trail q last current path) :
    path.Pairwise fun s t => g.rankAt s < g.rankAt t := by
  induction path generalizing last current with
  | nil => exact .nil
  | cons s path ih =>
    have hrest := ih h.2.2.2
    refine List.pairwise_cons.mpr ⟨?_, hrest⟩
    cases path with
    | nil => simp
    | cons t path =>
      have hlt : g.rankAt s < g.rankAt t := hr _ (link_of_follower? h.2.2.2.1)
      refine List.forall_mem_cons.mpr ⟨hlt, fun u hu => hlt.trans ?_⟩
      exact (List.pairwise_cons.mp hrest).1 u hu

lemma Trail.nodup (hr : g.Ranked) (h : g.Trail q last current path) : path.Nodup :=
  (h.pairwise hr).imp fun hlt heq => by
    rw [heq] at hlt
    exact lt_irrefl _ hlt

/-- A list whose neighbours are those of the newest links is a trail. -/
lemma trail_of_neighbors {whole front : List Nat} (hwhole : whole = front ++ path)
    (htouches : ∀ s ∈ path, g.touches s q = true)
    (hneighbors : ∀ front s back, whole = front ++ s :: back →
      g.follower? q s = back.head? ∧ g.leader? q s = front.getLast?) :
    g.Trail q front.getLast? path.head? path := by
  induction path generalizing front with
  | nil => rfl
  | cons s path ih =>
    obtain ⟨hfollower, hleader⟩ := hneighbors front s path hwhole
    have hnext : whole = (front ++ [s]) ++ path := by simpa using hwhole
    have hrest := ih hnext fun t ht => htouches t (List.mem_cons_of_mem s ht)
    rw [List.getLast?_append, List.getLast?_singleton, Option.some_or, ← hfollower] at hrest
    exact ⟨rfl, htouches s List.mem_cons_self, hleader, hrest⟩

end Along

end GateFusion.CircuitGraph
