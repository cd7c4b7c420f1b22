import BytecodeFlow.Proofs.Exploration
import BytecodeFlow.Proofs.ExplorationOrder

/-! # Pending work

Whatever the policies and the transfer relation are, every insertion into the reached states goes with one into the
pending states, and so does every removal but that of the state that an iteration takes out. So all pending states
are reached, and a reached state that is not pending was so from the start or has been explored since it was last
inserted.
-/
namespace BytecodeFlow

namespace Search

variable {R S P : Type} [ReachedSet R S] [DecidableEq S]

/-- The states that are inserted when a successor is incorporated: first the merged ones, then the successor itself
unless it is covered. -/
def insertions (O : Operators S P) (p : P) (q : Search R S) (c : S) : List S :=
  (q.replacements O p c).map (·.2) ++
    if O.stop c (ReachedSet.comparable (q.replace (q.replacements O p c)).reached c) p then [] else [c]

/-- What is left when the states that merging changes have been taken out. -/
def without (O : Operators S P) (p : P) (q : Search R S) (c : S) : Search R S :=
  let old := (q.replacements O p c).map (·.1)
  ⟨ReachedSet.removeAll q.reached old, q.waiting.removeAll old⟩

/-- The states that are inserted while successors are incorporated, in their order. -/
def insertionsAll (O : Operators S P) (p : P) : Search R S → List S → List S
  | _, [] => []
  | q, c :: l => q.insertions O p c ++ insertionsAll O p (q.incorporate O p c) l

/-- Incorporating takes out the states that are replaced and then inserts, both at once into the reached and the
pending states. -/
theorem incorporate_eq (O : Operators S P) (p : P) (q : Search R S) (c : S) :
    q.incorporate O p c = (q.without O p c).addAll (q.insertions O p c) := by
  have hreplace : q.replace (q.replacements O p c) = (q.without O p c).addAll ((q.replacements O p c).map (·.2)) := rfl
  rcases incorporate_cases O p q c with ⟨hstop, heq⟩ | ⟨hstop, heq⟩
  · rw [heq, insertions, if_pos hstop, List.append_nil, hreplace]
  · rw [heq, insertions, hstop, hreplace]
    exact (List.foldl_concat _ _ _ _).symm

theorem awaits_of_mem_insertions {O : Operators S P} {p : P} {q : Search R S} {c x : S}
    (hx : x ∈ q.insertions O p c) : (q.incorporate O p c).Awaits x := by
  rw [incorporate_eq, awaits_addAll]
  exact .inr hx

/-- All pending states are reached. -/
def Backed (q : Search R S) : Prop := ∀ x, q.Awaits x → q.Reaches x

variable [LawfulReachedSet R S]

theorem Backed.incorporate {O : Operators S P} {p : P} {q : Search R S} (h : q.Backed) (c : S) :
    (q.incorporate O p c).Backed := by
  intro x hx
  rw [incorporate_eq, awaits_addAll] at hx
  rw [incorporate_eq, reaches_addAll]
  refine hx.imp_left fun hleft => ?_
  obtain ⟨hkept, hpending⟩ := Waitlist.mem_removeAll.1 hleft
  exact LawfulReachedSet.mem_removeAll.2 ⟨hkept, h x hpending⟩

theorem Backed.incorporateAll {O : Operators S P} {p : P} {q : Search R S} (h : q.Backed) (l : List S) :
    (q.incorporateAll O p l).Backed := by
  induction l generalizing q with
  | nil => exact h
  | cons c l ih => exact ih (h.incorporate c)

/-- What is reached and not pending after successors have been incorporated was not inserted meanwhile. -/
theorem not_mem_insertionsAll {O : Operators S P} {p : P} {q : Search R S} {l : List S} {x : S}
    (hx : (q.incorporateAll O p l).Reaches x) (hnot : ¬ (q.incorporateAll O p l).Awaits x) :
    x ∉ insertionsAll O p q l := by
  induction l generalizing q with
  | nil => exact List.not_mem_nil
  | cons c l ih =>
    obtain ⟨_, hsettled⟩ := settled_incorporateAll O p l hx hnot
    rw [insertionsAll, List.mem_append, not_or]
    exact ⟨fun hmem => hsettled (awaits_of_mem_insertions hmem), ih hx hnot⟩

/-- Nothing gets reached without being inserted. -/
theorem reaches_or_mem_insertionsAll {O : Operators S P} {p : P} {q : Search R S} {l : List S} {x : S}
    (hx : (q.incorporateAll O p l).Reaches x) : q.Reaches x ∨ x ∈ insertionsAll O p q l := by
  induction l generalizing q with
  | nil => exact .inl hx
  | cons c l ih =>
    rw [insertionsAll, List.mem_append]
    rcases ih hx with hreached | hlater
    · rw [incorporate_eq, reaches_addAll] at hreached
      rcases hreached with hkept | hinserted
      · exact .inl (LawfulReachedSet.mem_removeAll.1 hkept).2
      · exact .inr (.inl hinserted)
    · exact .inr (.inr hlater)

end Search

namespace Analysis

variable {σ R S P : Type} [ReachedSet R S] [DecidableEq S]

/-- An iteration takes `x` out, so that `w` is left to do, and the adjusted state has the successors `l`. -/
structure Turn (A : Analysis σ S P) (p : P) (q : Search R S) (s : σ) (x : S) (w : Waitlist S) (l : List S) (s' : σ) :
    Prop where
  pop : q.waiting.pop? = some (x, w)
  successors : ∃ s₁, A.poll s = (false, s₁) ∧
    A.transfer (A.adjusted p q x).1 (A.adjusted p q x).2 s₁ = .ok l s'

/-- Iteration `k` takes the state out, adjusts it and incorporates all its successors. -/
def ExploresAt (A : Analysis σ S P) (p : P) (q₀ : Search R S) (s₀ : σ) (k : Nat) (x : S) : Prop :=
  ∃ q s w l s', A.head p k q₀ s₀ = some (q, s) ∧ A.Turn p q s x w l s' ∧
    A.head p (k + 1) q₀ s₀ = some (Search.incorporateAll A.operators (A.adjusted p q x).2 ⟨q.reached, w⟩ l, s')

def InsertsAt (A : Analysis σ S P) (p : P) (q₀ : Search R S) (s₀ : σ) (k : Nat) (x : S) : Prop :=
  ∃ q s y w l s', A.head p k q₀ s₀ = some (q, s) ∧ A.Turn p q s y w l s' ∧
    x ∈ Search.insertionsAll A.operators (A.adjusted p q y).2 ⟨q.reached, w⟩ l

/-- The state has not been inserted from iteration `k` on, before iteration `n`. -/
def QuietSince (A : Analysis σ S P) (p : P) (q₀ : Search R S) (s₀ : σ) (k n : Nat) (x : S) : Prop :=
  ∀ j, k ≤ j → j < n → ¬ A.InsertsAt p q₀ s₀ j x

variable {A : Analysis σ S P} {p : P} {q₀ q q' : Search R S} {s₀ s s' : σ} {n : Nat} {x : S}

/-- The iteration that has led to the head of the next one. -/
theorem exists_turn (h : A.head p (n + 1) q₀ s₀ = some (q', s')) :
    ∃ q s x w l, A.head p n q₀ s₀ = some (q, s) ∧ A.Turn p q s x w l s' ∧
      q' = Search.incorporateAll A.operators (A.adjusted p q x).2 ⟨q.reached, w⟩ l := by
  obtain ⟨q, s, hhead, hiterate⟩ := head_succ_eq_some.1 h
  obtain ⟨s₁, x, w, l, hpoll, hpop, hok, heq⟩ := iterate_next hiterate
  exact ⟨q, s, x, w, l, hhead, ⟨hpop, s₁, hpoll, hok⟩, heq⟩

omit [DecidableEq S] in
theorem Turn.unique {y : S} {w w' : Waitlist S} {l l' : List S} {t : σ} (h : A.Turn p q s x w l s')
    (h' : A.Turn p q s y w' l' t) : x = y ∧ w = w' ∧ l = l' := by
  obtain ⟨hpop, s₁, hpoll, hok⟩ := h
  obtain ⟨hpop', t₁, hpoll', hok'⟩ := h'
  obtain ⟨rfl, rfl⟩ := Prod.mk.inj (Option.some.inj (hpop.symm.trans hpop'))
  obtain ⟨-, rfl⟩ := Prod.mk.inj (hpoll.symm.trans hpoll')
  rw [hok] at hok'
  cases hok'
  exact ⟨rfl, rfl, rfl⟩

theorem Turn.not_insertsAt {y : S} {w : Waitlist S} {l : List S} (h : A.Turn p q s y w l s')
    (hhead : A.head p n q₀ s₀ = some (q, s))
    (hx : x ∉ Search.insertionsAll A.operators (A.adjusted p q y).2 ⟨q.reached, w⟩ l) : ¬ A.InsertsAt p q₀ s₀ n x := by
  rintro ⟨q₁, s₁, y₁, w₁, l₁, s₁', hhead₁, hturn, hmem⟩
  obtain ⟨rfl, rfl⟩ := Prod.mk.inj (Option.some.inj (hhead.symm.trans hhead₁))
  obtain ⟨rfl, rfl, rfl⟩ := h.unique hturn
  exact hx hmem

theorem QuietSince.succ {k : Nat} (h : A.QuietSince p q₀ s₀ k n x) (hn : ¬ A.InsertsAt p q₀ s₀ n x) :
    A.QuietSince p q₀ s₀ k (n + 1) x := by
  intro j hk hj
  rcases Nat.lt_succ_iff_lt_or_eq.1 hj with hj | rfl
  · exact h j hk hj
  · exact hn

theorem quietSince_self : A.QuietSince p q₀ s₀ n n x := fun _ hk hj => absurd hj (Nat.not_lt.2 hk)

variable [LawfulReachedSet R S]

/-- One iteration: what is reached and not pending at its end is not inserted by it, and either has been taken out or
was reached and not pending at its beginning. -/
theorem Turn.settled {y : S} {w : Waitlist S} {l : List S} (h : A.Turn p q s y w l s')
    (hx : (Search.incorporateAll A.operators (A.adjusted p q y).2 ⟨q.reached, w⟩ l).Reaches x)
    (hnot : ¬ (Search.incorporateAll A.operators (A.adjusted p q y).2 ⟨q.reached, w⟩ l).Awaits x) :
    x ∉ Search.insertionsAll A.operators (A.adjusted p q y).2 ⟨q.reached, w⟩ l ∧
      (x = y ∨ q.Reaches x ∧ ¬ q.Awaits x) := by
  refine ⟨Search.not_mem_insertionsAll hx hnot, ?_⟩
  obtain ⟨hreached, hleft⟩ := Search.settled_incorporateAll _ _ l hx hnot
  by_cases hxy : x = y
  · exact .inl hxy
  · exact .inr ⟨hreached, fun hawaits => ((Waitlist.mem_of_pop? h.pop).1 hawaits).elim hxy hleft⟩

theorem backed_head (hstart : q₀.Backed) (h : A.head p n q₀ s₀ = some (q, s)) : q.Backed := by
  refine head_invariant (fun q _ => q.Backed) (fun q s q' s' hq hnext => ?_) h hstart
  obtain ⟨_, y, w, l, _, hpop, _, rfl⟩ := iterate_next hnext
  have hleft : Search.Backed ⟨q.reached, w⟩ := fun x hx => hq x ((Waitlist.mem_of_pop? hpop).2 (.inr hx))
  exact hleft.incorporateAll l

theorem reaches_head (h : A.head p n q₀ s₀ = some (q, s)) (hx : q.Reaches x) :
    q₀.Reaches x ∨ ∃ j, j < n ∧ A.InsertsAt p q₀ s₀ j x := by
  induction n generalizing q s with
  | zero =>
    cases h
    exact .inl hx
  | succ n ih =>
    obtain ⟨q₁, s₁, y, w, l, hhead, hturn, rfl⟩ := exists_turn h
    rcases Search.reaches_or_mem_insertionsAll hx with hreached | hinserted
    · obtain hstart | ⟨j, hj, hinserts⟩ := ih hhead hreached
      · exact .inl hstart
      · exact .inr ⟨j, Nat.lt_succ_of_lt hj, hinserts⟩
    · exact .inr ⟨n, Nat.lt_succ_self n, q₁, s₁, y, w, l, s, hhead, hturn, hinserted⟩

theorem settled_head (h : A.head p n q₀ s₀ = some (q, s)) (hx : q.Reaches x) (hnot : ¬ q.Awaits x) :
    (q₀.Reaches x ∧ ¬ q₀.Awaits x ∧ A.QuietSince p q₀ s₀ 0 n x) ∨
      ∃ k, k < n ∧ A.ExploresAt p q₀ s₀ k x ∧ A.QuietSince p q₀ s₀ k n x := by
  induction n generalizing q s with
  | zero =>
    cases h
    exact .inl ⟨hx, hnot, quietSince_self⟩
  | succ n ih =>
    obtain ⟨q₁, s₁, y, w, l, hhead, hturn, rfl⟩ := exists_turn h
    obtain ⟨hmem, hbefore⟩ := hturn.settled hx hnot
    have hquiet : ¬ A.InsertsAt p q₀ s₀ n x := hturn.not_insertsAt hhead hmem
    -- Either this iteration explores the state, or the state was settled before and stays so.
    rcases hbefore with rfl | ⟨hreached, hsettled⟩
    · exact .inr ⟨n, Nat.lt_succ_self n, ⟨q₁, s₁, w, l, s, hhead, hturn, h⟩, quietSince_self.succ hquiet⟩
    · rcases ih hhead hreached hsettled with ⟨hstart, hstart', hsince⟩ | ⟨k, hk, hexplores, hsince⟩
      · exact .inl ⟨hstart, hstart', hsince.succ hquiet⟩
      · exact .inr ⟨k, Nat.lt_succ_of_lt hk, hexplores, hsince.succ hquiet⟩

/-- If all pending states are reached at first, then they are when an iteration begins, and no work is lost: a state
that is reached then and not pending either was so at first and has not been inserted since, or some iteration has
taken it out, adjusted it and incorporated all its successors, and it has not been inserted since that iteration took
it out. What is reached was so at first or has been inserted. -/
theorem no_work_lost (A : Analysis σ S P) (p : P) (q₀ : Search R S) (s₀ : σ) (hstart : ∀ x, q₀.Awaits x → q₀.Reaches x)
    (n : Nat) (q : Search R S) (s : σ) (h : A.head p n q₀ s₀ = some (q, s)) :
    (∀ fuel, A.run p (n + fuel) q₀ s₀ = A.run p fuel q s) ∧
      (∀ x, q.Awaits x → q.Reaches x) ∧
      (∀ x, q.Reaches x → q₀.Reaches x ∨ ∃ j, j < n ∧ A.InsertsAt p q₀ s₀ j x) ∧
      ∀ x, q.Reaches x → ¬ q.Awaits x →
        (q₀.Reaches x ∧ ¬ q₀.Awaits x ∧ A.QuietSince p q₀ s₀ 0 n x) ∨
          ∃ k, k < n ∧ A.ExploresAt p q₀ s₀ k x ∧ A.QuietSince p q₀ s₀ k n x :=
  ⟨run_head h, backed_head hstart h, fun _ => reaches_head h, fun _ => settled_head h⟩

end Analysis

/-- Counters on the roundabout: when the fifth iteration begins the third point is reached and not pending. Its counter,
which has replaced a lower one, has been explored since. -/
theorem Passage.no_work_lost_roundabout :
    ∃ q j, ((relation roundabout).analysis .join).head () 4 roundaboutPlain ⟨.never, []⟩ = some (q, j) ∧
      q.reached.toList = [⟨2, 4⟩, ⟨3, 3⟩, ⟨1, 4⟩] ∧ q.waiting.pending.toList = [⟨2, 4⟩, ⟨1, 4⟩] ∧
      ∃ k, k < 4 ∧ ((relation roundabout).analysis .join).ExploresAt () roundaboutPlain ⟨.never, []⟩ k ⟨3, 3⟩ ∧
        ((relation roundabout).analysis .join).QuietSince () roundaboutPlain ⟨.never, []⟩ k 4 ⟨3, 3⟩ := by
  have hstart : ∀ x, roundaboutPlain.Awaits x → roundaboutPlain.Reaches x := fun _ h => h
  have hhead : ((relation roundabout).analysis .join).head () 4 roundaboutPlain ⟨.never, []⟩ = some (_, _) := rfl
  obtain ⟨_, _, _, hsettled⟩ := Analysis.no_work_lost ((relation roundabout).analysis .join) () roundaboutPlain
    ⟨.never, []⟩ hstart 4 _ _ hhead
  have hreached : (⟨3, 3⟩ : Positioned) ∈ [⟨2, 4⟩, ⟨3, 3⟩, ⟨1, 4⟩] := by decide
  have hnot : (⟨3, 3⟩ : Positioned) ∉ [⟨2, 4⟩, ⟨1, 4⟩] := by decide
  have hnew : (⟨3, 3⟩ : Positioned) ∉ [⟨1, 0⟩] := by decide
  refine ⟨_, _, hhead, rfl, rfl, ?_⟩
  rcases hsettled ⟨3, 3⟩ hreached hnot with ⟨hfirst, _⟩ | hexplored
  · exact absurd hfirst hnew
  · exact hexplored

end BytecodeFlow
