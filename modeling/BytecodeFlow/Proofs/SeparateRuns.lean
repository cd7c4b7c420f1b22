import BytecodeFlow.Proofs.Resumption

/-! # Runs that never merge

A run that leaves reached states as they are, and drops a state that has been reached, only ever adds to its
reached states. Each state that it adds becomes pending once, and is explored once unless it was pending at the
start. If nothing but reached states is dropped, a run that ends has added exactly the states that are found from
the pending ones without passing through a state that was reached before.
-/
namespace BytecodeFlow

/-- Neither merges nor adjusts, and drops at least the states that have been reached. -/
structure Operators.Separate {S P : Type} (O : Operators S P) : Prop where
  merge : O.merge = mergeSep
  adjust : O.adjust = adjustNone
  stop : ∀ {c : S} {l : List S} {p : P}, c ∈ l → O.stop c l p = true

theorem Operators.separate_contained {S P : Type} [DecidableEq S] : (contained : Operators S P).Separate where
  merge := rfl
  adjust := rfl
  stop h := decide_eq_true h

namespace Search

variable {S P : Type} [DecidableEq S] {O : Operators S P} {p : P} {q : Search (OrderedSet S) S} {c : S}

theorem incorporate_separate (hO : O.Separate) :
    q.incorporate O p c = if O.stop c q.reached.toList p then q else q.add c := by
  have hnone : q.replacements O p c = [] := by
    apply List.eq_nil_iff_forall_not_mem.2
    intro m hm
    obtain ⟨_, heq, hne⟩ := mem_replacements.1 hm
    rw [hO.merge] at heq
    exact hne heq
  unfold incorporate
  rw [hnone]
  rfl

/-- The states that are added follow those that have been reached, and are pending. -/
theorem incorporateAll_separate (hO : O.Separate) (p : P) (q : Search (OrderedSet S) S) (l : List S) :
    ∃ new, (q.incorporateAll O p l).reached.toList = q.reached.toList ++ new ∧ new ⊆ l ∧
      ∀ x, (q.incorporateAll O p l).Awaits x ↔ q.Awaits x ∨ x ∈ new := by
  induction l generalizing q with
  | nil => exact ⟨[], by simp [incorporateAll], by simp, by simp [incorporateAll]⟩
  | cons c l ih =>
    change ∃ new, ((q.incorporate O p c).incorporateAll O p l).reached.toList = _ ∧ _ ∧
      ∀ x, ((q.incorporate O p c).incorporateAll O p l).Awaits x ↔ _
    obtain ⟨new, hreached, hsub, hawaits⟩ := ih (q.incorporate O p c)
    by_cases hstop : O.stop c q.reached.toList p = true
    · rw [incorporate_separate hO, if_pos hstop] at hreached hawaits ⊢
      exact ⟨new, hreached, List.subset_cons_of_subset c hsub, hawaits⟩
    · rw [incorporate_separate hO, if_neg hstop] at hreached hawaits ⊢
      have hfresh : c ∉ q.reached.toList := fun hc => hstop (hO.stop hc)
      have hadd : (q.add c).reached.toList = q.reached.toList ++ [c] := by
        change (q.reached.insert c).toList = _
        rw [OrderedSet.toList_insert, if_neg hfresh]
      refine ⟨c :: new, ?_, List.cons_subset_cons c hsub, fun x => ?_⟩
      · rw [hreached, hadd, List.append_assoc, List.singleton_append]
      · rw [hawaits, awaits_add, List.mem_cons, or_assoc]

end Search

namespace Relation

variable {S P : Type} {T : Relation S P} {O : Operators S P} {p : P} {q₀ q q' : Search (OrderedSet S) S}
  {j₀ j j' : Journal S P} {found explored : List S}

/-- The least set that holds every successor, unless it was reached at the start, of its own states and of those
that were pending at the start. -/
inductive Discovered (T : Relation S P) (p : P) (q₀ : Search (OrderedSet S) S) : S → Prop where
  | pending {s c : S} : q₀.Awaits s → T.Steps p s c → c ∉ q₀.reached → Discovered T p q₀ c
  | discovered {s c : S} : Discovered T p q₀ s → T.Steps p s c → c ∉ q₀.reached → Discovered T p q₀ c

variable [DecidableEq S]

/-- Between two iterations of a run: the states that were found follow those that were reached at the start, and
each of them is pending or has been explored. -/
structure Growing (T : Relation S P) (p : P) (q₀ : Search (OrderedSet S) S) (j₀ : Journal S P)
    (q : Search (OrderedSet S) S) (j : Journal S P) (found explored : List S) : Prop where
  reached : q.reached.toList = q₀.reached.toList ++ found
  journal : j.explored = j₀.explored ++ explored.map (·, p)
  sound : ∀ x ∈ found, T.Discovered p q₀ x
  pending : ∀ x, q.Awaits x → q₀.Awaits x ∨ x ∈ found
  left : ∀ x, q₀.Awaits x ∨ x ∈ found → q.Awaits x ∨ x ∈ explored
  asked : ∀ x ∈ explored, q₀.Awaits x ∨ x ∈ found
  once : ∀ x ∈ found, ¬ q₀.Awaits x → explored.count x = if x ∈ q.waiting.pending then 0 else 1

theorem growing_start (T : Relation S P) (p : P) (q₀ : Search (OrderedSet S) S) (j₀ : Journal S P) :
    T.Growing p q₀ j₀ q₀ j₀ [] [] := by
  constructor <;> simp

omit [DecidableEq S] in
theorem adjusted_separate {R : Type} [ReachedSet R S] (hO : O.Separate) (q : Search R S) (x : S) :
    (T.analysis O).adjusted p q x = (x, p) := by
  change O.adjust x p _ = (x, p)
  rw [hO.adjust]
  rfl

/-- An iteration explores the state that it takes out; some of its successors are added to the reached and to the
pending states. -/
theorem next_separate (hO : O.Separate) (h : (T.analysis O).iterate p q j = .next q' j') :
    ∃ x w l new, q.waiting.pop? = some (x, w) ∧ T x p = .ok l ∧
      q' = Search.incorporateAll O p ⟨q.reached, w⟩ l ∧ j'.explored = j.explored ++ [(x, p)] ∧
      q'.reached.toList = q.reached.toList ++ new ∧ new ⊆ l ∧
      ∀ y, q'.Awaits y ↔ y ∈ w.pending ∨ y ∈ new := by
  obtain ⟨j₁, x, w, l, hpoll, hpop, htransfer, hq'⟩ := Analysis.iterate_next h
  rw [adjusted_separate hO] at htransfer hq'
  have hT : T x p = .ok l := transfer_eq_ok htransfer
  have hjournal : j'.explored = j.explored ++ [(x, p)] := by
    rw [transfer_eq, hT] at htransfer
    obtain ⟨_, rfl⟩ := EStateM.Result.ok.inj htransfer
    change j₁.explored ++ [(x, p)] = _
    rw [explored_of_poll hpoll]
  obtain ⟨new, hreached, hsub, hawaits⟩ := Search.incorporateAll_separate hO p ⟨q.reached, w⟩ l
  exact ⟨x, w, l, new, hpop, hT, hq', hjournal, hq' ▸ hreached, hsub, hq' ▸ hawaits⟩

/-- The states that an iteration adds are found, and the state that it takes out has been explored. -/
theorem Growing.next (h : T.Growing p q₀ j₀ q j found explored) {x : S} {w : Waitlist S} {l new : List S}
    (hpop : q.waiting.pop? = some (x, w)) (hT : T x p = .ok l) (hjournal : j'.explored = j.explored ++ [(x, p)])
    (hreached : q'.reached.toList = q.reached.toList ++ new) (hsub : new ⊆ l)
    (hawaits : ∀ y, q'.Awaits y ↔ y ∈ w.pending ∨ y ∈ new) :
    T.Growing p q₀ j₀ q' j' (found ++ new) (explored ++ [x]) := by
  rw [h.reached, List.append_assoc] at hreached
  have hmem : ∀ y, q.Awaits y ↔ y = x ∨ y ∈ w.pending := fun y => Waitlist.mem_of_pop? hpop
  have hx : x ∉ w.pending := Waitlist.not_mem_of_pop? hpop
  have horigin : q₀.Awaits x ∨ x ∈ found := h.pending x ((hmem x).2 (.inl rfl))
  -- no state is reached twice, so the new ones are neither seeds nor found before
  have hnodup : (q₀.reached.toList ++ (found ++ new)).Nodup := hreached ▸ q'.reached.nodup
  have hseed : ∀ y ∈ new, y ∉ q₀.reached.toList := by
    intro y hy hseed
    exact (List.nodup_append.1 hnodup).2.2 y hseed y (List.mem_append_right _ hy) rfl
  have hfresh : ∀ y ∈ new, y ∉ found := by
    intro y hy hfound
    exact (List.nodup_append.1 (List.nodup_append.1 hnodup).2.1).2.2 y hfound y hy rfl
  constructor
  · exact hreached
  · simp [hjournal, h.journal]
  · intro y hy
    rcases List.mem_append.1 hy with hy | hy
    · exact h.sound y hy
    · have hstep : T.Steps p x y := ⟨l, hT, hsub hy⟩
      rcases horigin with hx | hx
      · exact .pending hx hstep (hseed y hy)
      · exact .discovered (h.sound x hx) hstep (hseed y hy)
  · intro y hy
    have hbefore := h.pending y
    rw [hawaits] at hy
    rw [hmem] at hbefore
    rw [List.mem_append]
    tauto
  · intro y hy
    have hbefore := h.left y
    rw [List.mem_append] at hy
    rw [hmem] at hbefore
    rw [hawaits, List.mem_append, List.mem_singleton]
    tauto
  · intro y hy
    rw [List.mem_append, List.mem_singleton] at hy
    rw [List.mem_append, ← or_assoc]
    rcases hy with hy | rfl
    · exact .inl (h.asked y hy)
    · exact .inl horigin
  · intro y hy hnot
    rw [List.count_append, List.count_singleton]
    rcases List.mem_append.1 hy with hy | hy
    · have hwait : y ∈ q'.waiting.pending ↔ y ∈ w.pending :=
        (hawaits y).trans (or_iff_left fun hnew => hfresh y hnew hy)
      have hbefore : y ∈ q.waiting.pending ↔ y = x ∨ y ∈ w.pending := hmem y
      simp only [h.once y hy hnot, hwait, hbefore]
      by_cases hyx : y = x
      · simp [hyx, hx]
      · simp [hyx, Ne.symm hyx]
    · have hne : x ≠ y := by
        rintro rfl
        exact horigin.elim hnot (hfresh x hy)
      have hnone : y ∉ explored := fun hasked => (h.asked y hasked).elim hnot (hfresh y hy)
      have hwait : y ∈ q'.waiting.pending := (hawaits y).2 (.inr hy)
      simp [List.count_eq_zero.2 hnone, hne, hwait]

def Closed (T : Relation S P) (p : P) (q : Search (OrderedSet S) S) (explored : List S) : Prop :=
  ∀ x ∈ explored, ∀ c, T.Steps p x c → c ∈ q.reached

/-- If nothing but reached states is dropped, the successors of every explored state are reached. -/
theorem Growing.completed {fuel : Nat} (hrun : (T.analysis .contained).run p fuel q₀ j₀ = (.completed, q, j)) :
    ∃ found explored, T.Growing p q₀ j₀ q j found explored ∧ T.Closed p q explored ∧ ∀ x, ¬ q.Awaits x := by
  let Inv (q : Search (OrderedSet S) S) (j : Journal S P) : Prop :=
    ∃ found explored, T.Growing p q₀ j₀ q j found explored ∧ T.Closed p q explored
  have hstep : ∀ q j q' j', Inv q j → (T.analysis .contained).iterate p q j = .next q' j' → Inv q' j' := by
    rintro q j q' j' ⟨found, explored, h, hclosed⟩ hnext
    obtain ⟨x, w, l, new, hpop, hT, hq', hjournal, hreached, hsub, hawaits⟩ :=
      next_separate Operators.separate_contained hnext
    refine ⟨_, _, h.next hpop hT hjournal hreached hsub hawaits, fun y hy c hc => ?_⟩
    have hiff : c ∈ q'.reached ↔ c ∈ q.reached ∨ c ∈ l := by
      rw [hq']
      exact Search.reaches_incorporateAll_contained
    rw [hiff]
    rcases List.mem_append.1 hy with hy | hy
    · exact .inl (hclosed y hy c hc)
    · obtain rfl := List.mem_singleton.1 hy
      obtain ⟨l', hl', hc⟩ := hc
      obtain rfl : l = l' := Except.ok.inj (hT.symm.trans hl')
      exact .inr hc
  have hstart : Inv q₀ j₀ := ⟨[], [], growing_start T p q₀ j₀, by simp [Closed]⟩
  obtain ⟨j₁, ⟨found, explored, h, hclosed⟩, hpoll, hnone⟩ := Analysis.run_completed Inv hstep hrun hstart
  have hjournal : j.explored = j₀.explored ++ explored.map (·, p) := by rw [explored_of_poll hpoll, h.journal]
  exact ⟨found, explored, { h with journal := hjournal }, hclosed, hnone⟩

/-- A run that never merges, and drops a successor only if the very same state has been reached, ends with the
states that were reached at the start, followed by those that are discovered, each once. It explores the states that
were pending at the start and those that are discovered, and no others; a discovered state that was not pending at
the start is explored exactly once. -/
theorem separate_run_eq_closure (T : Relation S P) (p : P) {fuel : Nat}
    (hrun : (T.analysis .contained).run p fuel q₀ j₀ = (.completed, q, j)) :
    ∃ found explored : List S, q.reached.toList = q₀.reached.toList ++ found ∧ found.Nodup ∧
      (∀ x, x ∈ found ↔ T.Discovered p q₀ x) ∧ j.explored = j₀.explored ++ explored.map (·, p) ∧
      (∀ x, x ∈ explored ↔ q₀.Awaits x ∨ T.Discovered p q₀ x) ∧
      ∀ x, T.Discovered p q₀ x → ¬ q₀.Awaits x → explored.count x = 1 := by
  obtain ⟨found, explored, h, hclosed, hnone⟩ := Growing.completed hrun
  have hasked : ∀ x, x ∈ explored ↔ q₀.Awaits x ∨ x ∈ found := fun x =>
    ⟨h.asked x, fun hx => (h.left x hx).resolve_left (hnone x)⟩
  have hadmitted : ∀ x c, q₀.Awaits x ∨ x ∈ found → T.Steps p x c → c ∉ q₀.reached → c ∈ found := by
    intro x c hx hc hnot
    have hreached : c ∈ q.reached.toList := hclosed x ((hasked x).2 hx) c hc
    rw [h.reached, List.mem_append] at hreached
    exact hreached.resolve_left hnot
  have hfound : ∀ x, x ∈ found ↔ T.Discovered p q₀ x := by
    refine fun x => ⟨h.sound x, fun hx => ?_⟩
    induction hx with
    | pending hs hstep hnot => exact hadmitted _ _ (.inl hs) hstep hnot
    | discovered _ hstep hnot ih => exact hadmitted _ _ (.inr ih) hstep hnot
  have hnodup : (q₀.reached.toList ++ found).Nodup := h.reached ▸ q.reached.nodup
  refine ⟨found, explored, h.reached, (List.nodup_append.1 hnodup).2.1, hfound, h.journal, fun x => ?_,
    fun x hx hnot => ?_⟩
  · rw [hasked, hfound]
  · rw [h.once x ((hfound x).2 hx) hnot]
    exact if_neg (hnone x)

/-- Successors by a table, with a way back to zero from everywhere. -/
def looped : Relation Nat Unit :=
  Rules.relation ⟨none, [(0, [1, 5]), (1, [2, 0]), (2, [1, 7]), (7, [0])], []⟩

/-- Five is reached but not pending, zero and seven are pending but not reached. -/
def loopedStart : Search (OrderedSet Nat) Nat := ⟨.ofList [5], ⟨.depthFirst, .ofList [7, 0]⟩⟩

/-- Five is not explored. Zero has been explored when it is discovered, and is explored again; seven is still pending
when it is discovered. -/
theorem separate_run_eq_closure_looped :
    ∃ q j, (looped.analysis .contained).run () 10 loopedStart ⟨.never, []⟩ = (.completed, q, j) ∧
      q.reached.toList = [5, 1, 2, 0, 7] ∧ j.explored.map Prod.fst = [0, 1, 0, 2, 7] ∧
      ∀ x, looped.Discovered () loopedStart x ↔ x ∈ [1, 2, 0, 7] := by
  have hrun : (looped.analysis .contained).run () 10 loopedStart ⟨.never, []⟩ = (.completed, _, _) := rfl
  refine ⟨_, _, hrun, rfl, rfl, fun x => ?_⟩
  obtain ⟨found, _, hreached, _, hfound, _⟩ := separate_run_eq_closure looped () hrun
  have hsplit : [5] ++ [1, 2, 0, 7] = [5] ++ found := hreached
  rw [List.append_cancel_left hsplit, hfound]

end Relation

end BytecodeFlow
