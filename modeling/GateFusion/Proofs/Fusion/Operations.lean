import GateFusion.Proofs.Fusion.Candidates
import Mathlib.Data.List.Induction
import Mathlib.Data.List.Infix

/-!
# The candidate set under any calls

Candidates are inserted, the cheapest is taken and blocks are retired, in any order. As long as keys
hold the numbers of the blocks and no two blocks share a number, the index is exact after every
call: for every block it lists the keys of the queued candidates that mention it, and no others. So
a retired block takes all its candidates with it, and the cheapest candidate is the first in the
queue.
-/

namespace GateFusion
variable {α : Type} [Scalar α]

/-- Keys that compare equal are equal, if costs that compare equal are. -/
lemma CandidateKey.eq_of_cmp [Std.LawfulEqCmp (Scalar.totalCmp (α := α))] {a b : CandidateKey α}
    (h : a.cmp b = .eq) : a = b := by
  obtain ⟨hearlier, hlater⟩ := cmp_eq h
  rw [cmp, Ordering.then_eq_eq, Ordering.then_eq_eq] at h
  have hcost : a.cost = b.cost := Std.LawfulEqCmp.eq_of_compare h.1.1
  cases a
  cases b
  simp_all only

namespace CandidateSet

/-- A call on a set of candidates. -/
inductive Call (α : Type) where
  | insert (key : CandidateKey α) (c : Candidate α)
  | pop
  | retire (id : BlockId)

/-- The key that a call inserts at. -/
def Call.key? : Call α → Option (CandidateKey α)
  | .insert key _ => some key
  | .pop => none
  | .retire _ => none

/-- The set that a call leaves. Where there is no candidate to take it stays as it is. -/
def perform (s : CandidateSet α) : Call α → CandidateSet α
  | .insert key c => s.insert key c
  | .pop => (s.pop?.map Prod.snd).getD s
  | .retire id => s.retire id

/-- The set that calls lead to from no candidates. -/
def after (calls : List (Call α)) : CandidateSet α := calls.foldl perform empty

lemma after_concat (calls : List (Call α)) (call : Call α) :
    after (calls ++ [call]) = (after calls).perform call := by
  rw [after, List.foldl_append]
  rfl

variable {s t : CandidateSet α} {id : BlockId} {key : CandidateKey α} {c : Candidate α}
  {m : List (BlockId × List (CandidateKey α))} {call : Call α} {calls : List (Call α)}

section Preserved
variable {P : List (BlockId × List (CandidateKey α)) → Prop}
  (hunindex : ∀ m id key, P m → P (unindex id key m))
  (hfilter : ∀ m (id : BlockId), P m → P (m.filter fun e => e.1 ≠ id))

include hunindex hfilter in
/-- Retiring a block only strikes keys and removes the list of the block. -/
lemma byBlock_retire (h : P s.byBlock) : P (s.retire id).byBlock := by
  have hdrop : ∀ (keys : List (CandidateKey α)) (t : CandidateSet α), P t.byBlock →
      P (keys.foldl (dropKey id) t).byBlock := by
    intro keys
    induction keys with
    | nil => exact fun t ht => ht
    | cons key keys ih =>
      intro t ht
      refine ih _ ?_
      unfold dropKey
      split
      · exact ht
      · exact hunindex _ _ _ ht
  exact hdrop _ _ (hfilter _ _ h)

include hunindex hfilter in
/-- What striking keys and removing lists preserve holds after a call if it holds after an
insertion. -/
lemma byBlock_perform (hinsert : ∀ key c, call = .insert key c → P (s.insert key c).byBlock)
    (h : P s.byBlock) : P (s.perform call).byBlock := by
  cases call with
  | insert key c => exact hinsert key c rfl
  | pop =>
    cases hpop : s.pop? with
    | none => simpa only [perform, hpop, Option.map_none, Option.getD_none] using h
    | some r =>
      simp only [perform, hpop, Option.map_some, Option.getD_some]
      unfold pop? at hpop
      split at hpop
      · simp at hpop
      · rw [← Option.some.inj hpop]
        exact hunindex _ _ _ (hunindex _ _ _ h)
  | retire id => exact byBlock_retire hunindex hfilter h

end Preserved

/-- No list of the index is empty. -/
def Inhabited (m : List (BlockId × List (CandidateKey α))) : Prop := ∀ e ∈ m, e.2 ≠ []

omit [Scalar α] in
lemma Inhabited.index (h : Inhabited m) : Inhabited (index id key m) := by
  induction m with
  | nil => simp [Inhabited, CandidateSet.index]
  | cons e rest ih =>
    obtain ⟨i, keys⟩ := e
    obtain ⟨hkeys, hrest⟩ := List.forall_mem_cons.mp h
    rw [CandidateSet.index]
    split
    · exact List.forall_mem_cons.mpr ⟨by simp, hrest⟩
    · exact List.forall_mem_cons.mpr ⟨hkeys, ih hrest⟩

lemma Inhabited.unindex (h : Inhabited m) : Inhabited (unindex id key m) := by
  induction m with
  | nil => simp [Inhabited, CandidateSet.unindex]
  | cons e rest ih =>
    obtain ⟨i, keys⟩ := e
    obtain ⟨hkeys, hrest⟩ := List.forall_mem_cons.mp h
    rw [CandidateSet.unindex]
    split
    · dsimp only
      split
      · exact hrest
      · rename_i hleft
        exact List.forall_mem_cons.mpr ⟨fun hnil => hleft (List.isEmpty_iff.mpr hnil), hrest⟩
    · exact List.forall_mem_cons.mpr ⟨hkeys, ih hrest⟩

/-- An empty list is removed with its last key. -/
lemma inhabited_after (calls : List (Call α)) : Inhabited (after calls).byBlock := by
  induction calls using List.reverseRecOn with
  | nil => simp [Inhabited, after, empty]
  | append_singleton calls call ih =>
    rw [after_concat]
    refine byBlock_perform (fun m id key h => h.unindex) (fun m id h e he => ?_)
      (fun key c _ => ih.index.index) ih
    exact h e (List.mem_of_mem_filter he)

/-- The inserted candidates join two different blocks each, their keys hold the numbers of their
blocks, and no two of the blocks have the same number. -/
structure Numbered (number : BlockId → Nat) (calls : List (Call α)) : Prop where
  distinct : ∀ key c, .insert key c ∈ calls → c.earlier ≠ c.later
  holds : ∀ key c, .insert key c ∈ calls →
    key.earlierSeq = number c.earlier ∧ key.laterSeq = number c.later
  injective : ∀ key c key' c', .insert key c ∈ calls → .insert key' c' ∈ calls →
    ∀ id id', c.Mentions id → c'.Mentions id' → number id = number id' → id = id'

variable {number : BlockId → Nat}

omit [Scalar α] in
lemma Numbered.front {back : List (Call α)} (h : Numbered number (calls ++ back)) :
    Numbered number calls := by
  have hsub : ∀ {call}, call ∈ calls → call ∈ calls ++ back := List.mem_append_left _
  exact ⟨fun key c hc => h.distinct key c (hsub hc), fun key c hc => h.holds key c (hsub hc),
    fun key c key' c' hc hc' => h.injective key c key' c' (hsub hc) (hsub hc')⟩

omit [Scalar α] in
/-- A key belongs to one pair of blocks. -/
lemma Numbered.blocks_eq (h : Numbered number calls) {c' : Candidate α}
    (hc : .insert key c ∈ calls) (hc' : .insert key c' ∈ calls) :
    c.earlier = c'.earlier ∧ c.later = c'.later := by
  obtain ⟨hearlier, hlater⟩ := h.holds key c hc
  obtain ⟨hearlier', hlater'⟩ := h.holds key c' hc'
  exact ⟨h.injective key c key c' hc hc' _ _ (.inl rfl) (.inl rfl) (hearlier.symm.trans hearlier'),
    h.injective key c key c' hc hc' _ _ (.inr rfl) (.inr rfl) (hlater.symm.trans hlater')⟩

section Exact
variable [Ordered α] [Std.LawfulEqCmp (Scalar.totalCmp (α := α))]

/-- After a call the index is exact if it was before, and what is queued was inserted. -/
lemma Indexed.perform (hs : s.Indexed) (hinserted : ∀ e ∈ s.queue, .insert e.1 e.2 ∈ calls)
    (h : Numbered number (calls ++ [call])) : (s.perform call).Indexed ∧
      ∀ e ∈ (s.perform call).queue, .insert e.1 e.2 ∈ calls ++ [call] := by
  have hold : ∀ e ∈ s.queue, .insert e.1 e.2 ∈ calls ++ [call] := fun e he =>
    List.mem_append_left _ (hinserted e he)
  cases call with
  | insert key c =>
    have hlast : Call.insert key c ∈ calls ++ [.insert key c] := by simp
    obtain ⟨hindexed, hmem⟩ := hs.insert key c fun e he heq => by
      obtain rfl := CandidateKey.eq_of_cmp heq
      exact ⟨rfl, h.blocks_eq (hold e he) hlast⟩
    refine ⟨hindexed, fun e he => ?_⟩
    rcases (hmem e).mp he with ⟨he, -⟩ | rfl
    · exact hold e he
    · exact hlast
  | pop =>
    cases hpop : s.pop? with
    | none => simpa only [CandidateSet.perform, hpop] using ⟨hs, hold⟩
    | some r =>
      obtain ⟨hindexed, key, hqueue, -⟩ := hs.pop? hpop
      simp only [CandidateSet.perform, hpop, Option.map_some, Option.getD_some]
      exact ⟨hindexed, fun e he => hold e (hqueue ▸ List.mem_cons_of_mem _ he)⟩
  | retire id =>
    obtain ⟨hindexed, hmem⟩ := hs.retire id
    exact ⟨hindexed, fun e he => hold e ((hmem e).mp he).1⟩

/-- The index is exact after any calls. -/
theorem Numbered.indexed (h : Numbered number calls) : (after calls).Indexed ∧
    ∀ e ∈ (after calls).queue, .insert e.1 e.2 ∈ calls := by
  induction calls using List.reverseRecOn with
  | nil => exact ⟨.empty, by simp [after, empty]⟩
  | append_singleton calls call ih =>
    obtain ⟨hindexed, hinserted⟩ := ih h.front
    rw [after_concat]
    exact hindexed.perform hinserted h

/-- No call inserts at a key that is queued then. -/
def Fresh (calls : List (Call α)) : Prop :=
  ∀ front key c, front ++ [.insert key c] <+: calls → ∀ d, (key, d) ∉ (after front).queue

/-- Every block has one list, and every list holds a key once. -/
def Unrepeated (m : List (BlockId × List (CandidateKey α))) : Prop :=
  (m.map (·.1)).Nodup ∧ ∀ id, ((m.lookup id).getD []).Nodup

omit [Ordered α] [Std.LawfulEqCmp (Scalar.totalCmp (α := α))] in
lemma Unrepeated.unindex (h : Unrepeated m) : Unrepeated (unindex id key m) := by
  refine ⟨h.1.sublist sublist_unindex, fun x => ?_⟩
  rw [lookup_unindex h.1]
  split
  · exact (h.2 x).filter _
  · exact h.2 x

omit [Scalar α] [Ordered α] [Std.LawfulEqCmp (Scalar.totalCmp (α := α))] in
lemma Unrepeated.filter (h : Unrepeated m) : Unrepeated (m.filter fun e => e.1 ≠ id) := by
  refine ⟨h.1.sublist (List.filter_sublist.map _), fun x => ?_⟩
  by_cases hx : x = id
  · have hnone : (m.filter fun e => e.1 ≠ id).lookup x = none := by
      refine lookup_eq_none_of_notMem ?_
      simp [hx]
    rw [hnone]
    exact List.nodup_nil
  · rw [lookup_filter_of_ne hx]
    exact h.2 x

omit [Scalar α] [Ordered α] [Std.LawfulEqCmp (Scalar.totalCmp (α := α))] in
lemma Unrepeated.index (h : Unrepeated m) (hkey : key ∉ (m.lookup id).getD []) :
    Unrepeated (index id key m) := by
  refine ⟨nodup_index h.1, fun x => ?_⟩
  rw [lookup_index]
  split
  · rename_i hx
    subst hx
    exact List.nodup_append.mpr ⟨h.2 x, List.pairwise_singleton _ _, fun k hk k' hk' heq =>
      hkey (List.mem_singleton.mp hk' ▸ heq ▸ hk)⟩
  · rw [List.append_nil]
    exact h.2 x

/-- As long as no queued key is inserted again, each key is listed once for each of its blocks. -/
lemma Numbered.unrepeated (h : Numbered number calls) (hfresh : Fresh calls) :
    Unrepeated (after calls).byBlock := by
  induction calls using List.reverseRecOn with
  | nil => exact ⟨List.nodup_nil, fun id => List.nodup_nil⟩
  | append_singleton calls call ih =>
    have hfront : Fresh calls := fun front key c hpre =>
      hfresh front key c (hpre.trans (List.prefix_append _ _))
    have hold := ih h.front hfront
    rw [after_concat]
    refine byBlock_perform (fun m id key hm => hm.unindex) (fun m id hm => hm.filter)
      (fun key c hcall => ?_) hold
    have hnew : ∀ id, key ∉ (after calls).keysOf id := by
      intro id hmem
      obtain ⟨d, hd, -⟩ := (h.front.indexed.1.mem_keysOf id trivial key).mp hmem
      exact hfresh calls key c (by rw [hcall]) d hd
    refine (hold.index (hnew c.earlier)).index ?_
    rw [mem_lookup_index]
    rintro (hmem | ⟨heq, -⟩)
    · exact hnew _ hmem
    · exact h.distinct key c (by simp [hcall]) heq.symm

/-- Calls that insert at no key twice are fresh. -/
lemma Numbered.fresh (h : Numbered number calls) (hkeys : (calls.filterMap Call.key?).Nodup) :
    Fresh calls := by
  rintro front key c ⟨back, rfl⟩ d hmem
  rw [List.append_assoc] at h hkeys
  have hd : Call.insert key d ∈ front := h.front.indexed.2 _ hmem
  rw [List.filterMap_append] at hkeys
  exact (List.nodup_append.mp hkeys).2.2 key (List.mem_filterMap.mpr ⟨_, hd, rfl⟩) key
    (List.mem_filterMap.mpr ⟨.insert key c, by simp, rfl⟩) rfl

/-- What holds of a set whose index is exact: the lists of the index, the candidate taken next and
what retiring a block leaves. -/
structure Accurate (s : CandidateSet α) : Prop where
  listed : ∀ id key, key ∈ s.keysOf id ↔ ∃ c, (key, c) ∈ s.queue ∧ (c.earlier = id ∨ c.later = id)
  inhabited : ∀ e ∈ s.byBlock, e.2 ≠ []
  cheapest : (s.queue = [] ∧ s.pop? = none) ∨ ∃ key c t, s.pop? = some (c, t) ∧
    s.queue = (key, c) :: t.queue ∧ ∀ e ∈ t.queue, key.cmp e.1 = .lt
  retired : ∀ id, (s.retire id).queue =
    s.queue.filter fun e => e.2.earlier ≠ id ∧ e.2.later ≠ id

omit [Std.LawfulEqCmp (Scalar.totalCmp (α := α))] in
/-- Retiring a block keeps the other candidates in their order. -/
lemma Indexed.queue_retire (hs : s.Indexed) (id : BlockId) : (s.retire id).queue =
    s.queue.filter fun e => e.2.earlier ≠ id ∧ e.2.later ≠ id := by
  obtain ⟨hindexed, hmem⟩ := hs.retire id
  refine hindexed.sorted.ext (hs.sorted.filter _) fun e => ?_
  rw [hmem, List.mem_filter, decide_eq_true_eq, Candidate.Mentions, not_or]

omit [Std.LawfulEqCmp (Scalar.totalCmp (α := α))] in
lemma Indexed.cheapest (hs : s.Indexed) : (s.queue = [] ∧ s.pop? = none) ∨
    ∃ key c t, s.pop? = some (c, t) ∧ s.queue = (key, c) :: t.queue ∧
      ∀ e ∈ t.queue, key.cmp e.1 = .lt := by
  cases hqueue : s.queue with
  | nil =>
    left
    refine ⟨rfl, ?_⟩
    unfold CandidateSet.pop?
    rw [hqueue]
  | cons e rest =>
    right
    cases hpop : s.pop? with
    | none =>
      unfold CandidateSet.pop? at hpop
      rw [hqueue] at hpop
      simp at hpop
    | some r =>
      obtain ⟨-, key, hfirst, hlt⟩ := hs.pop? hpop
      exact ⟨key, r.1, r.2, rfl, hqueue.symm.trans hfirst, hlt⟩

/-- After any insertions, removals of the cheapest candidate and retirements, the index lists for
every block the keys of its queued candidates and no others, without empty lists, and each once
unless a queued key was inserted again. The candidate taken next is the one with the least key, and
retiring a block drops its candidates and no others. -/
theorem accurate_of_calls (h : Numbered number calls) :
    Accurate (after calls) ∧ (Fresh calls → ∀ id, ((after calls).keysOf id).Nodup) := by
  obtain ⟨hindexed, -⟩ := h.indexed
  refine ⟨?_, fun hfresh => (h.unrepeated hfresh).2⟩
  constructor
  case listed => exact fun id key => hindexed.mem_keysOf id trivial key
  case inhabited => exact inhabited_after calls
  case cheapest => exact hindexed.cheapest
  case retired => exact hindexed.queue_retire

end Exact

section Sample

/-- A candidate of two blocks, whatever its gate. -/
def joined (earlier later : BlockId) : Candidate Binary64 :=
  ⟨earlier, later, ⟨"joint", [], ⟨0, #[]⟩⟩⟩

/-- All pairs of three blocks: two cost the same, and the third, which costs less, is taken. -/
def threePairs : List (Call Binary64) :=
  [.insert ⟨.ofNat 8, 1, 2⟩ (joined ⟨1, 1⟩ ⟨0, 2⟩),
    .insert ⟨.ofNat 8, 0, 1⟩ (joined ⟨2, 0⟩ ⟨1, 1⟩),
    .insert ⟨.ofNat 6, 0, 2⟩ (joined ⟨2, 0⟩ ⟨0, 2⟩), .pop]

lemma numbered_threePairs : Numbered BlockId.seq threePairs := by
  have hcalls : ∀ key c, Call.insert key c ∈ threePairs → c.earlier ≠ c.later ∧
      (key.earlierSeq = c.earlier.seq ∧ key.laterSeq = c.later.seq) ∧
      ∀ id, c.Mentions id → id = ⟨2, 0⟩ ∨ id = ⟨1, 1⟩ ∨ id = ⟨0, 2⟩ := by
    intro key c hc
    simp only [threePairs, List.mem_cons, Call.insert.injEq, List.not_mem_nil, reduceCtorEq,
      or_false] at hc
    rcases hc with ⟨rfl, rfl⟩ | ⟨rfl, rfl⟩ | ⟨rfl, rfl⟩
    · exact ⟨by decide, ⟨rfl, rfl⟩, by simp [joined, Candidate.Mentions, eq_comm]⟩
    · exact ⟨by decide, ⟨rfl, rfl⟩, by simp [joined, Candidate.Mentions, eq_comm]⟩
    · exact ⟨by decide, ⟨rfl, rfl⟩, by simp [joined, Candidate.Mentions, eq_comm]⟩
  refine ⟨fun key c hc => (hcalls key c hc).1, fun key c hc => (hcalls key c hc).2.1,
    fun key c key' c' hc hc' id id' hid hid' heq => ?_⟩
  rcases (hcalls key c hc).2.2 id hid with rfl | rfl | rfl <;>
    rcases (hcalls key' c' hc').2.2 id' hid' with rfl | rfl | rfl <;>
    simp_all

/-- The least of the two pairs left is the one whose earlier block is older; it goes with the block
that both have. -/
theorem accurate_threePairs : Numbered BlockId.seq threePairs ∧ Fresh threePairs ∧
    Accurate (after threePairs) ∧ (∀ id, ((after threePairs).keysOf id).Nodup) ∧
    (after threePairs).keysOf ⟨1, 1⟩ = [⟨.ofNat 8, 1, 2⟩, ⟨.ofNat 8, 0, 1⟩] ∧
    (after threePairs).queue.map (·.1.earlierSeq) = [0, 1] ∧
    ((after threePairs).retire ⟨1, 1⟩).queue = [] := by
  have hfresh : Fresh threePairs := by
    refine numbered_threePairs.fresh ?_
    simp [threePairs, Call.key?, List.filterMap_cons]
  obtain ⟨haccurate, hnodup⟩ := accurate_of_calls numbered_threePairs
  refine ⟨numbered_threePairs, hfresh, haccurate, hnodup hfresh, rfl, rfl, ?_⟩
  rw [haccurate.retired]
  rfl

end Sample

end CandidateSet
end GateFusion
