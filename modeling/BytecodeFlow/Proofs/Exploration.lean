import BytecodeFlow.Proofs.Iteration
import Mathlib.Data.Set.Card

/-! # The states that a run explores

The states whose successors a run asks for, in their order. A run that never merges, and that drops a
successor only if the very same state has been reached, explores no state twice. If its states stay in a
finite set it therefore ends before its bound does.
-/
namespace BytecodeFlow

namespace Analysis

variable {σ R S P : Type} [ReachedSet R S] [DecidableEq S]

/-- The states whose successors a run of at most `fuel` iterations asks for, each with its precision. -/
def explored (A : Analysis σ S P) (p : P) : Nat → Search R S → σ → List (S × P)
  | 0, _, _ => []
  | fuel + 1, q, s =>
    match A.poll s, q.waiting.pop? with
    | (false, _), some (x, _) =>
      A.adjusted p q x :: match A.iterate p q s with
        | .stop _ _ _ => []
        | .next q s => A.explored p fuel q s
    | _, _ => []

variable {A : Analysis σ S P} {p : P} {q q' : Search R S} {s s' : σ} {o : Outcome} {fuel : Nat}

theorem iterate_of_empty {s₁ : σ} (hpoll : A.poll s = (false, s₁)) (hpop : q.waiting.pop? = none) :
    A.iterate p q s = .stop .completed q s₁ := by
  unfold iterate
  rw [hpoll, hpop]

theorem iterate_of_ok {s₁ : σ} {x : S} {w : Waitlist S} {l : List S} (hpoll : A.poll s = (false, s₁))
    (hpop : q.waiting.pop? = some (x, w))
    (h : A.transfer (A.adjusted p q x).1 (A.adjusted p q x).2 s₁ = .ok l s') :
    A.iterate p q s =
      .next (Search.incorporateAll A.operators (A.adjusted p q x).2 ⟨q.reached, w⟩ l) s' := by
  unfold adjusted at h
  unfold iterate
  simp only [hpoll, hpop, h]
  rfl

theorem iterate_of_error {s₁ : σ} {x : S} {w : Waitlist S} {e : Halt} (hpoll : A.poll s = (false, s₁))
    (hpop : q.waiting.pop? = some (x, w))
    (h : A.transfer (A.adjusted p q x).1 (A.adjusted p q x).2 s₁ = .error e s') :
    A.iterate p q s = .stop (.halted e) ⟨q.reached, w⟩ s' := by
  unfold adjusted at h
  unfold iterate
  simp only [hpoll, hpop, h]

/-- An iteration that leads to another one explores the state that it takes out. -/
theorem explored_succ_of_next (h : A.iterate p q s = .next q' s') (fuel : Nat) :
    ∃ x w, q.waiting.pop? = some (x, w) ∧
      A.explored p (fuel + 1) q s = A.adjusted p q x :: A.explored p fuel q' s' := by
  obtain ⟨s₁, x, w, l, hpoll, hpop, _, _⟩ := iterate_next h
  refine ⟨x, w, hpop, ?_⟩
  rw [explored, hpoll, hpop, h]

/-- The last iteration explores at most the state that it takes out. -/
theorem explored_succ_of_stop (h : A.iterate p q s = .stop o q' s') (fuel : Nat) :
    A.explored p (fuel + 1) q s = [] ∨
      ∃ x w, q.waiting.pop? = some (x, w) ∧ A.explored p (fuel + 1) q s = [A.adjusted p q x] := by
  rw [explored, h]
  rcases A.poll s with ⟨fires, s₁⟩
  cases fires with
  | true => exact .inl rfl
  | false =>
    cases hpop : q.waiting.pop? with
    | none => exact .inl rfl
    | some a => exact .inr ⟨a.1, a.2, rfl, rfl⟩

/-- More iterations do not change a run that has ended. -/
theorem run_of_le {n m : Nat} (hrun : A.run p n q s = (o, q', s')) (ho : o ≠ .halted .exhausted)
    (hle : n ≤ m) : A.run p m q s = (o, q', s') := by
  induction n generalizing m q s with
  | zero =>
    rw [run] at hrun
    exact absurd (congrArg Prod.fst hrun).symm ho
  | succ n ih =>
    obtain ⟨m, rfl⟩ : ∃ k, m = k + 1 := ⟨m - 1, by omega⟩
    cases hiter : A.iterate p q s with
    | stop o₁ q₁ s₁ =>
      rw [run_succ_of_stop hiter] at hrun ⊢
      exact hrun
    | next q₁ s₁ =>
      rw [run_succ_of_next hiter] at hrun ⊢
      apply ih hrun
      omega

/-- A run that exhausts its bound has explored a state in each iteration. -/
theorem length_explored_of_exhausted
    (hfault : ∀ x p s s', A.transfer x p s ≠ .error .exhausted s')
    (hrun : (A.run p fuel q s).1 = .halted .exhausted) : (A.explored p fuel q s).length = fuel := by
  induction fuel generalizing q s with
  | zero => rfl
  | succ fuel ih =>
    cases hiter : A.iterate p q s with
    | stop o₁ q₁ s₁ =>
      rw [run_succ_of_stop hiter] at hrun
      rcases iterate_stop hiter with ⟨ho, _, _⟩ | ⟨ho, _, _, _⟩ | ⟨_, x, w, f, ho, _, _, htransfer, _⟩
      · rw [ho] at hrun
        cases hrun
      · rw [ho] at hrun
        cases hrun
      · rw [ho] at hrun
        cases hrun
        exact absurd htransfer (hfault _ _ _ _)
    | next q₁ s₁ =>
      rw [run_succ_of_next hiter] at hrun
      obtain ⟨x, w, _, hexplored⟩ := explored_succ_of_next hiter fuel
      rw [hexplored, List.length_cons, ih hrun]

end Analysis

/-! ### Dropping only what has been reached -/

/-- Neither merges nor adjusts, and drops a state only if it has been reached itself. -/
abbrev Operators.contained {S P : Type} [DecidableEq S] : Operators S P :=
  ⟨mergeSep, stopContained, adjustNone⟩

namespace Search

variable {S P : Type} [DecidableEq S] {p : P} {q : Search (OrderedSet S) S} {c x : S} {l : List S}

theorem incorporate_contained :
    q.incorporate .contained p c = if c ∈ q.reached then q else q.add c := by
  have hnone : q.replacements .contained p c = [] := by
    rw [List.eq_nil_iff_forall_not_mem]
    intro m hm
    obtain ⟨_, heq, hne⟩ := mem_replacements.1 hm
    exact hne heq
  have hreplace : q.replace [] = q := rfl
  unfold incorporate
  rw [hnone, hreplace]
  simp only [Operators.stopContained, decide_eq_true_eq]
  rfl

theorem reaches_incorporateAll_contained :
    (q.incorporateAll .contained p l).Reaches x ↔ q.Reaches x ∨ x ∈ l := by
  induction l generalizing q with
  | nil => simp [incorporateAll]
  | cons c l ih =>
    change ((q.incorporate .contained p c).incorporateAll .contained p l).Reaches x ↔ _
    rw [ih, incorporate_contained, List.mem_cons]
    split
    · rename_i hc
      have hreached : x = c → q.Reaches x := fun h => h ▸ hc
      tauto
    · rw [reaches_add]
      tauto

/-- Exactly the successors that had not been reached become pending. -/
theorem awaits_incorporateAll_contained :
    (q.incorporateAll .contained p l).Awaits x ↔ q.Awaits x ∨ (x ∈ l ∧ ¬ q.Reaches x) := by
  induction l generalizing q with
  | nil => simp [incorporateAll]
  | cons c l ih =>
    change ((q.incorporate .contained p c).incorporateAll .contained p l).Awaits x ↔ _
    rw [ih, incorporate_contained, List.mem_cons]
    split
    · rename_i hc
      have hreached : x = c → q.Reaches x := fun h => h ▸ hc
      tauto
    · rename_i hc
      have hfresh : x = c → ¬ q.Reaches x := fun h => h ▸ hc
      rw [awaits_add, reaches_add]
      tauto

end Search

namespace Analysis

variable {σ S P : Type} [DecidableEq S] {A : Analysis σ S P} {p : P} {q q' : Search (OrderedSet S) S}
  {s s' : σ} {o : Outcome} {fuel : Nat}

theorem adjusted_contained (hO : A.operators = .contained) (q : Search (OrderedSet S) S) (x : S) :
    A.adjusted p q x = (x, p) := by
  unfold adjusted
  rw [hO]
  rfl

/-- An iteration explores the state that it takes out; its successors are reached, and those that had not been
reached before are pending. -/
theorem next_contained (hO : A.operators = .contained) (h : A.iterate p q s = .next q' s') (fuel : Nat) :
    ∃ x w l s₁, q.waiting.pop? = some (x, w) ∧ A.transfer x p s₁ = .ok l s' ∧
      A.explored p (fuel + 1) q s = (x, p) :: A.explored p fuel q' s' ∧
      (∀ y, q'.Reaches y ↔ q.Reaches y ∨ y ∈ l) ∧
      ∀ y, q'.Awaits y ↔ y ∈ w.pending ∨ (y ∈ l ∧ ¬ q.Reaches y) := by
  obtain ⟨s₁, x, w, l, _, hpop, htransfer, hq'⟩ := iterate_next h
  obtain ⟨x', w', hpop', hexplored⟩ := explored_succ_of_next h fuel
  obtain ⟨rfl, rfl⟩ : x = x' ∧ w = w' := by simpa using hpop.symm.trans hpop'
  rw [adjusted_contained hO] at htransfer hexplored hq'
  rw [hO] at hq'
  refine ⟨x, w, l, s₁, hpop, htransfer, hexplored, fun y => ?_, fun y => ?_⟩
  · rw [hq', Search.reaches_incorporateAll_contained]
    rfl
  · rw [hq', Search.awaits_incorporateAll_contained]
    rfl

theorem awaits_of_stop (hO : A.operators = .contained) (h : A.iterate p q s = .stop o q' s') (fuel : Nat)
    {y : S × P} (hy : y ∈ A.explored p (fuel + 1) q s) : q.Awaits y.1 := by
  rcases explored_succ_of_stop h fuel with hnil | ⟨x, w, hpop, hone⟩
  · rw [hnil] at hy
    cases hy
  · rw [hone, adjusted_contained hO, List.mem_singleton] at hy
    rw [hy]
    exact (Waitlist.mem_of_pop? hpop).2 (.inl rfl)

/-- What holds of the pending states and is handed on to successors holds of all states that are explored. -/
theorem forall_explored (hO : A.operators = .contained) {U : S → Prop} (hpending : ∀ x, q.Awaits x → U x)
    (hclosed : ∀ x l s s', U x → A.transfer x p s = .ok l s' → ∀ y ∈ l, U y) :
    ∀ y ∈ A.explored p fuel q s, U y.1 := by
  intro y hy
  induction fuel generalizing q s with
  | zero => cases hy
  | succ fuel ih =>
    cases hiter : A.iterate p q s with
    | stop o₁ q₁ s₁ => exact hpending _ (awaits_of_stop hO hiter fuel hy)
    | next q₁ s₁ =>
      obtain ⟨x, w, l, _, hpop, htransfer, hexplored, _, hawaits⟩ := next_contained hO hiter fuel
      have hmem : ∀ y, y = x ∨ y ∈ w.pending → U y := fun y hy =>
        hpending y ((Waitlist.mem_of_pop? hpop).2 hy)
      rw [hexplored, List.mem_cons] at hy
      rcases hy with rfl | hy
      · exact hmem x (.inl rfl)
      · apply ih ?_ hy
        intro z hz
        rcases (hawaits z).1 hz with hw | ⟨hl, _⟩
        · exact hmem z (.inr hw)
        · exact hclosed x l _ _ (hmem x (.inl rfl)) htransfer z hl

/-- A state that is explored was pending at the start or had not been reached then. -/
theorem awaits_or_not_reaches_of_explored (hO : A.operators = .contained) {y : S × P}
    (hy : y ∈ A.explored p fuel q s) : q.Awaits y.1 ∨ ¬ q.Reaches y.1 := by
  induction fuel generalizing q s with
  | zero => cases hy
  | succ fuel ih =>
    cases hiter : A.iterate p q s with
    | stop o₁ q₁ s₁ => exact .inl (awaits_of_stop hO hiter fuel hy)
    | next q₁ s₁ =>
      obtain ⟨x, w, l, _, hpop, _, hexplored, hreaches, hawaits⟩ := next_contained hO hiter fuel
      rw [hexplored, List.mem_cons] at hy
      rcases hy with rfl | hy
      · exact .inl ((Waitlist.mem_of_pop? hpop).2 (.inl rfl))
      · rcases ih hy with hy | hy
        · rcases (hawaits y.1).1 hy with hw | ⟨_, hnot⟩
          · exact .inl ((Waitlist.mem_of_pop? hpop).2 (.inr hw))
          · exact .inr hnot
        · exact .inr fun h => hy ((hreaches y.1).2 (.inl h))

/-- No state is explored twice. -/
theorem nodup_explored (hO : A.operators = .contained) (hpending : ∀ x, q.Awaits x → q.Reaches x) :
    ((A.explored p fuel q s).map Prod.fst).Nodup := by
  induction fuel generalizing q s with
  | zero => exact List.nodup_nil
  | succ fuel ih =>
    cases hiter : A.iterate p q s with
    | stop o₁ q₁ s₁ =>
      rcases explored_succ_of_stop hiter fuel with hnil | ⟨x, w, _, hone⟩
      · simp [hnil]
      · simp [hone]
    | next q₁ s₁ =>
      obtain ⟨x, w, l, _, hpop, _, hexplored, hreaches, hawaits⟩ := next_contained hO hiter fuel
      rw [hexplored, List.map_cons, List.nodup_cons]
      constructor
      · -- the state stays reached, and it is not put back among the pending ones
        intro hmem
        obtain ⟨y, hy, rfl⟩ := List.mem_map.1 hmem
        have hreached : q.Reaches y.1 := hpending _ ((Waitlist.mem_of_pop? hpop).2 (.inl rfl))
        rcases awaits_or_not_reaches_of_explored hO hy with hy | hy
        · rcases (hawaits y.1).1 hy with hw | ⟨_, hnot⟩
          · exact Waitlist.not_mem_of_pop? hpop hw
          · exact hnot hreached
        · exact hy ((hreaches y.1).2 (.inl hreached))
      · apply ih
        intro y hy
        rw [hreaches]
        rcases (hawaits y).1 hy with hw | ⟨hl, _⟩
        · exact .inl (hpending y ((Waitlist.mem_of_pop? hpop).2 (.inr hw)))
        · exact .inr hl

/-- A run whose states stay in a finite set ends within that many iterations and one more. -/
theorem not_exhausted_of_finite (hO : A.operators = .contained)
    (hfault : ∀ x p s s', A.transfer x p s ≠ .error .exhausted s') {U : Set S} (hU : U.Finite)
    (hreached : ∀ x, q.Awaits x → q.Reaches x) (hpending : ∀ x, q.Awaits x → x ∈ U)
    (hclosed : ∀ x l s s', x ∈ U → A.transfer x p s = .ok l s' → ∀ y ∈ l, y ∈ U) (hfuel : U.ncard < fuel) :
    (A.run p fuel q s).1 ≠ .halted .exhausted := by
  intro hexhausted
  have hlength := length_explored_of_exhausted hfault hexhausted
  have hsub : ((A.explored p fuel q s).map Prod.fst).toFinset ⊆ hU.toFinset := by
    intro x hx
    obtain ⟨y, hy, rfl⟩ := List.mem_map.1 (List.mem_toFinset.1 hx)
    exact hU.mem_toFinset.2 (forall_explored hO hpending hclosed y hy)
  have hcard := Finset.card_le_card hsub
  rw [List.toFinset_card_of_nodup (nodup_explored hO hreached), List.length_map, hlength,
    ← Set.ncard_eq_toFinset_card U hU] at hcard
  omega

end Analysis

end BytecodeFlow
