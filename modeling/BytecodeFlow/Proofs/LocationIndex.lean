import BytecodeFlow.Proofs.Exploration
import BytecodeFlow.Proofs.ExplorationOrder

/-! # Reached sets by location

Forgetting the buckets of a located reached set leaves a plain one with the same states in the same order. If
policies look at no other states than those at the location of a successor, this commutes with every operation of a
search: a plain set offers more states for comparison, but these are neither merged with nor cover anything. Runs
with the two kinds of reached sets therefore go on in lock-step.
-/
namespace BytecodeFlow

/-- Domains in which states at different locations are neither related nor joined. -/
class LocalDomain (S : Type) [JoinDomain S] [Located S] : Prop where
  location_of_le {a b : S} : Domain.le a b = true → location a = location b
  location_of_joinable {a b : S} : JoinDomain.joinable a b = true → location a = location b

instance {S : Type} [JoinDomain S] [Located S] [LocatedLattice S] : LocalDomain S where
  location_of_le := LocatedLattice.location_of_le
  location_of_joinable := LocatedLattice.joinable_iff.1

namespace Operators

variable {S P : Type} [Located S]

/-- Merging changes and coverage counts only states at the location of the new state, and adjusting does not look
at reached states. -/
structure Local (O : Operators S P) : Prop where
  merge_eq {c r : S} (p : P) : location r ≠ location c → O.merge c r p = r
  stop_filter (c : S) (l : List S) (p : P) :
    O.stop c (l.filter fun r => location r = location c) p = O.stop c l p
  adjust_eq (s : S) (p : P) (l k : List S) : O.adjust s p l = O.adjust s p k

variable [JoinDomain S] [LocalDomain S]

theorem mergeJoin_of_ne {c r : S} (p : P) (h : location r ≠ location c) : mergeJoin c r p = r := by
  unfold mergeJoin
  rw [if_neg fun hjoinable => h (LocalDomain.location_of_joinable hjoinable).symm]

theorem stopSep_filter (c : S) (l : List S) (p : P) :
    stopSep c (l.filter fun r => location r = location c) p = stopSep c l p := by
  rw [Bool.eq_iff_iff]
  simp only [stopSep, List.any_eq_true, List.mem_filter, decide_eq_true_eq]
  constructor
  · rintro ⟨r, ⟨hr, _⟩, hle⟩
    exact ⟨r, hr, hle⟩
  · rintro ⟨r, hr, hle⟩
    exact ⟨r, ⟨hr, (LocalDomain.location_of_le hle).symm⟩, hle⟩

omit [JoinDomain S] [LocalDomain S] in
theorem stopContained_filter [DecidableEq S] (c : S) (l : List S) (p : P) :
    stopContained c (l.filter fun r => location r = location c) p = stopContained c l p := by
  simp [stopContained]

theorem local_of_policies [DecidableEq S] {O : Operators S P} (hmerge : O.merge = mergeSep ∨ O.merge = mergeJoin)
    (hstop : O.stop = stopSep ∨ O.stop = stopContained ∨ O.stop = stopAlways) (hadjust : O.adjust = adjustNone) :
    O.Local where
  merge_eq p h := by
    rcases hmerge with heq | heq
    · rw [heq]
      rfl
    · rw [heq]
      exact mergeJoin_of_ne p h
  stop_filter c l p := by
    rcases hstop with heq | heq | heq
    · rw [heq]
      exact stopSep_filter c l p
    · rw [heq]
      exact stopContained_filter c l p
    · rw [heq]
      rfl
  adjust_eq s p l k := by
    rw [hadjust]
    rfl

end Operators

namespace LocatedStates

variable {S : Type} [DecidableEq S] [Located S]

theorem all_add (r : LocatedStates S) (s : S) : (r.add s).all = r.all.insert s := by
  rw [add_eq]
  split
  · rename_i hs
    unfold OrderedSet.insert
    rw [dif_pos (contains_iff.1 hs)]
  · rfl

theorem all_remove (r : LocatedStates S) (s : S) : (r.remove s).all = r.all.erase s := by
  rw [remove_eq]
  split
  · rfl
  · rename_i hs
    have herase : r.all.toList.erase s = r.all.toList :=
      List.erase_of_not_mem fun hmem => hs (contains_iff.2 hmem)
    simp only [OrderedSet.erase, herase]

theorem all_addAll (r : LocatedStates S) (l : List S) :
    (ReachedSet.addAll r l).all = ReachedSet.addAll r.all l := by
  induction l generalizing r with
  | nil => rfl
  | cons s l ih =>
    change (ReachedSet.addAll (r.add s) l).all = ReachedSet.addAll (r.all.insert s) l
    rw [ih, all_add]

theorem all_removeAll (r : LocatedStates S) (l : List S) :
    (ReachedSet.removeAll r l).all = ReachedSet.removeAll r.all l := by
  induction l generalizing r with
  | nil => rfl
  | cons s l ih =>
    change (ReachedSet.removeAll (r.remove s) l).all = ReachedSet.removeAll (r.all.erase s) l
    rw [ih, all_remove]

theorem indexed_addAll {r : LocatedStates S} (l : List S) (h : r.Indexed) : (ReachedSet.addAll r l).Indexed := by
  induction l generalizing r with
  | nil => exact h
  | cons s l ih => exact ih (indexed_add s h)

end LocatedStates

namespace Search

variable {S P : Type} [DecidableEq S] [Located S] {O : Operators S P} {p : P}

def plain (q : Search (LocatedStates S) S) : Search (OrderedSet S) S := ⟨q.reached.all, q.waiting⟩

theorem plain_add (q : Search (LocatedStates S) S) (s : S) : (q.add s).plain = q.plain.add s := by
  change (⟨(q.reached.add s).all, q.waiting.add s⟩ : Search (OrderedSet S) S) = _
  rw [LocatedStates.all_add]
  rfl

theorem plain_addAll (q : Search (LocatedStates S) S) (l : List S) : (q.addAll l).plain = q.plain.addAll l := by
  induction l generalizing q with
  | nil => rfl
  | cons s l ih =>
    change ((q.add s).addAll l).plain = (q.plain.add s).addAll l
    rw [ih, plain_add]

theorem plain_replace (q : Search (LocatedStates S) S) (changes : List (S × S)) :
    (q.replace changes).plain = q.plain.replace changes := by
  unfold replace
  simp only
  rw [plain_addAll]
  simp only [plain]
  rw [LocatedStates.all_removeAll]

variable {q : Search (LocatedStates S) S}

theorem comparable_eq_filter (hv : q.Valid) (c : S) :
    ReachedSet.comparable q.reached c =
      (ReachedSet.comparable q.plain.reached c).filter fun r => location r = location c := hv (location c)

/-- No state at another location is changed by merging, and the others are listed in the same order. -/
theorem replacements_plain (hO : O.Local) (hv : q.Valid) (c : S) :
    q.plain.replacements O p c = q.replacements O p c := by
  unfold replacements
  rw [comparable_eq_filter hv, List.filter_map, List.filter_map, List.filter_filter]
  congr 1
  apply List.filter_congr
  intro r _
  by_cases hloc : location r = location c
  · simp [hloc]
  · simp [hloc, hO.merge_eq p hloc]

theorem plain_incorporate (hO : O.Local) (hv : q.Valid) (c : S) :
    (q.incorporate O p c).plain = q.plain.incorporate O p c := by
  have hstop : ∀ {t : Search (LocatedStates S) S}, t.Valid →
      O.stop c (ReachedSet.comparable t.reached c) p = O.stop c (ReachedSet.comparable t.plain.reached c) p := by
    intro t ht
    rw [comparable_eq_filter ht, hO.stop_filter]
  unfold incorporate
  simp only
  rw [replacements_plain hO hv, ← plain_replace, hstop (valid_replace _ hv)]
  split
  · rfl
  · exact plain_add _ c

theorem plain_incorporateAll (hO : O.Local) (hv : q.Valid) (l : List S) :
    (q.incorporateAll O p l).plain = q.plain.incorporateAll O p l := by
  induction l generalizing q with
  | nil => rfl
  | cons c l ih =>
    change ((q.incorporate O p c).incorporateAll O p l).plain =
      (q.plain.incorporate O p c).incorporateAll O p l
    rw [ih (valid_incorporate O p c hv), plain_incorporate hO hv]

end Search

def Iteration.plain {σ S : Type} [DecidableEq S] [Located S] :
    Iteration σ (LocatedStates S) S → Iteration σ (OrderedSet S) S
  | .next q s => .next q.plain s
  | .stop o q s => .stop o q.plain s

namespace Analysis

variable {σ S P : Type} [DecidableEq S] [Located S] {A : Analysis σ S P} {p : P}

/-- One iteration does the same with and without buckets. -/
theorem iterate_plain (hO : A.operators.Local) {q : Search (LocatedStates S) S} (hv : q.Valid) (s : σ) :
    A.iterate p q.plain s = (A.iterate p q s).plain := by
  have hadjusted : ∀ x, A.adjusted p q.plain x = A.adjusted p q x := fun x => hO.adjust_eq x p _ _
  rcases hpoll : A.poll s with ⟨fires, s₁⟩
  cases fires with
  | true =>
    unfold iterate
    rw [hpoll]
    rfl
  | false =>
    cases hpop : q.waiting.pop? with
    | none =>
      rw [iterate_of_empty hpoll hpop, iterate_of_empty (q := q.plain) hpoll hpop]
      rfl
    | some next =>
      obtain ⟨x, w⟩ := next
      cases htransfer : A.transfer (A.adjusted p q x).1 (A.adjusted p q x).2 s₁ with
      | error e s' =>
        rw [iterate_of_error hpoll hpop htransfer,
          iterate_of_error (q := q.plain) hpoll hpop (by rw [hadjusted, htransfer])]
        rfl
      | ok l s' =>
        rw [iterate_of_ok hpoll hpop htransfer,
          iterate_of_ok (q := q.plain) hpoll hpop (by rw [hadjusted, htransfer]), hadjusted]
        have hvalid : (⟨q.reached, w⟩ : Search (LocatedStates S) S).Valid := hv
        exact congrArg (Iteration.next · s') (Search.plain_incorporateAll hO hvalid l).symm

theorem run_plain (hO : A.operators.Local) {q : Search (LocatedStates S) S} (hv : q.Valid) (s : σ) (n : Nat) :
    A.run p n q.plain s = ((A.run p n q s).1, (A.run p n q s).2.1.plain, (A.run p n q s).2.2) := by
  induction n generalizing q s with
  | zero => rfl
  | succ n ih =>
    have hplain := iterate_plain (p := p) hO hv s
    cases hiterate : A.iterate p q s with
    | stop o q' s' =>
      rw [hiterate] at hplain
      rw [run_succ_of_stop hiterate, run_succ_of_stop hplain]
    | next q' s' =>
      rw [hiterate] at hplain
      rw [run_succ_of_next hiterate, run_succ_of_next hplain]
      obtain ⟨_, x, w, l, _, _, _, rfl⟩ := iterate_next hiterate
      have hpopped : (⟨q.reached, w⟩ : Search (LocatedStates S) S).Valid := hv
      exact ih (Search.valid_incorporateAll _ _ l hpopped) s'

/-- A located reached set is only faster. From the same seeds, with the same pending states, a run that compares all
reached states and one that compares those at one location agree after any number of iterations: in the sequence of
reached states, in the pending ones and their order, in what the relation and the abort signal have seen, and in
whether and how they have ended. -/
theorem located_run_agrees {σ S P : Type} [DecidableEq S] [JoinDomain S] [Located S] [LocalDomain S]
    (A : Analysis σ S P) (hmerge : A.operators.merge = Operators.mergeSep ∨ A.operators.merge = Operators.mergeJoin)
    (hstop : A.operators.stop = Operators.stopSep ∨ A.operators.stop = Operators.stopContained ∨
      A.operators.stop = Operators.stopAlways)
    (hadjust : A.operators.adjust = Operators.adjustNone) (p : P) (seeds : List S) (w : Waitlist S) (s : σ) (n : Nat) :
    ∃ o q q' s', A.run p n ⟨ReachedSet.addAll (OrderedSet.empty : OrderedSet S) seeds, w⟩ s = (o, q, s') ∧
      A.run p n ⟨ReachedSet.addAll (LocatedStates.empty : LocatedStates S) seeds, w⟩ s = (o, q', s') ∧
      ReachedSet.states q.reached = ReachedSet.states q'.reached ∧ q.waiting = q'.waiting := by
  have hO := Operators.local_of_policies hmerge hstop hadjust
  have hvalid : (⟨ReachedSet.addAll LocatedStates.empty seeds, w⟩ : Search (LocatedStates S) S).Valid :=
    LocatedStates.indexed_addAll seeds LocatedStates.indexed_empty
  have hrun := run_plain (p := p) hO hvalid s n
  unfold Search.plain at hrun
  rw [LocatedStates.all_addAll] at hrun
  exact ⟨_, _, _, _, hrun, rfl, rfl, rfl⟩

end Analysis

namespace Passage

def crossingSeeds : List Positioned := [⟨3, 0⟩, ⟨1, 0⟩, ⟨1, 2⟩]

def crossingPending : Waitlist Positioned := ⟨.depthFirst, .ofList [⟨1, 0⟩, ⟨1, 2⟩]⟩

/-- After two iterations two states at one point have been replaced by their common join. -/
theorem located_run_agrees_crossing :
    ∃ q q' j, ((relation roundabout).analysis .join).run () 2
        ⟨ReachedSet.addAll (OrderedSet.empty : OrderedSet Positioned) crossingSeeds, crossingPending⟩
        ⟨.never, []⟩ = (.halted .exhausted, q, j) ∧
      ((relation roundabout).analysis .join).run () 2
        ⟨ReachedSet.addAll (LocatedStates.empty : LocatedStates Positioned) crossingSeeds, crossingPending⟩
        ⟨.never, []⟩ = (.halted .exhausted, q', j) ∧
      ReachedSet.states q'.reached = [⟨2, 4⟩, ⟨3, 3⟩, ⟨1, 4⟩] ∧ q'.waiting.toList = [⟨1, 4⟩, ⟨2, 4⟩] := by
  obtain ⟨o, q, q', j, hplain, hlocated, hstates, hwaiting⟩ := Analysis.located_run_agrees
    ((relation roundabout).analysis .join) (.inr rfl) (.inl rfl) rfl () crossingSeeds crossingPending ⟨.never, []⟩ 2
  have ho : o = .halted .exhausted := (congrArg Prod.fst hplain).symm
  have hq : q.reached.toList = [⟨2, 4⟩, ⟨3, 3⟩, ⟨1, 4⟩] ∧ q.waiting.toList = [⟨1, 4⟩, ⟨2, 4⟩] := by
    rw [← show _ = q from congrArg (·.2.1) hplain]
    decide +kernel
  subst ho
  exact ⟨q, q', j, hplain, hlocated, hstates.symm.trans hq.1, hwaiting ▸ hq.2⟩

end Passage

end BytecodeFlow
