import BytecodeFlow.Proofs.Exploration
import BytecodeFlow.Proofs.Refinement

/-! # The course of a computation

The states that a list of computations and a run of an analysis go through, in their order. Which of them belong to a
single step is given; a run adds those at which its iterations begin and end. What holds of single steps and is kept by
sequencing holds of the whole.
-/
namespace BytecodeFlow

/-- The relation between the state before, the moments and the state after is kept by sequencing. -/
structure Sequential {σ : Type} (R : σ → List σ → σ → Prop) : Prop where
  nil (s : σ) : R s [] s
  append {s t u : σ} {l k : List σ} : R s l t → R t k u → R s (l ++ k) u

/-- From the beginning to the end, over all moments in their order, the relation holds. -/
structure Along {σ : Type} (ext : σ → σ → Prop) (s : σ) (l : List σ) (t : σ) : Prop where
  between : ∀ x ∈ l, ext s x ∧ ext x t
  pairwise : l.Pairwise ext
  ends : ext s t

/-- If `I` holds before, it holds after, and `Q` holds at all moments. -/
def Watched {σ : Type} (I Q : σ → Prop) (s : σ) (l : List σ) (t : σ) : Prop := I s → I t ∧ ∀ x ∈ l, Q x

section Sequential

variable {σ : Type} {ext : σ → σ → Prop} {I Q : σ → Prop} {s t u : σ} {l : List σ}

theorem along_nil (h : ext s t) : Along ext s [] t := ⟨nofun, .nil, h⟩

theorem along_singleton (hs : ext s t) (ht : ext t u) (h : ext s u) : Along ext s [t] u := by
  refine ⟨fun x hx => ?_, List.pairwise_singleton _ _, h⟩
  rw [List.mem_singleton.1 hx]
  exact ⟨hs, ht⟩

theorem sequential_along (hrefl : ∀ s, ext s s) (htrans : ∀ {s t u}, ext s t → ext t u → ext s u) :
    Sequential (Along ext) where
  nil s := along_nil (hrefl s)
  append {s t u l k} h h' := by
    refine ⟨fun x hx => ?_, ?_, htrans h.ends h'.ends⟩
    · rcases List.mem_append.1 hx with hx | hx
      · exact ⟨(h.between x hx).1, htrans (h.between x hx).2 h'.ends⟩
      · exact ⟨htrans h.ends (h'.between x hx).1, (h'.between x hx).2⟩
    · refine List.pairwise_append.2 ⟨h.pairwise, h'.pairwise, fun x hx y hy => ?_⟩
      exact htrans (h.between x hx).2 (h'.between y hy).1

theorem Along.pairwise_all (h : Along ext s l t) : (s :: (l ++ [t])).Pairwise ext := by
  refine List.pairwise_cons.2 ⟨fun x hx => ?_, List.pairwise_append.2 ⟨h.pairwise, List.pairwise_singleton _ _, ?_⟩⟩
  · rcases List.mem_append.1 hx with hx | hx
    · exact (h.between x hx).1
    · rw [List.mem_singleton.1 hx]
      exact h.ends
  · intro x hx y hy
    rw [List.mem_singleton.1 hy]
    exact (h.between x hx).2

theorem sequential_watched : Sequential (Watched I Q) where
  nil _ hs := ⟨hs, nofun⟩
  append h h' hs := by
    obtain ⟨ht, hl⟩ := h hs
    obtain ⟨hu, hk⟩ := h' ht
    exact ⟨hu, fun x hx => (List.mem_append.1 hx).elim (hl x) (hk x)⟩

end Sequential

namespace Effect

variable {σ α β : Type} {f : α → Effect σ β} {μ : α → σ → List σ} {l : List α} {a : α} {s t : σ}

/-- The moments of dealing with the elements of a list one after the other, up to the first that fails. -/
def momentsAll (f : α → Effect σ β) (μ : α → σ → List σ) : List α → σ → List σ
  | [], _ => []
  | a :: l, s => μ a s ++ match f a s with
    | .ok _ t => momentsAll f μ l t
    | .error _ _ => []

theorem final_ofExcept (r : Except Fault α) (s : σ) : (ofExcept r : Effect σ α).final s = s := by
  cases r <;> rfl

theorem final_mapM_cons_of_ok {b : β} (h : f a s = .ok b t) : ((a :: l).mapM f).final s = (l.mapM f).final t := by
  unfold final
  rw [List.mapM_cons, bind_eq, h]
  simp only [bind_eq]
  cases l.mapM f t <;> rfl

theorem final_mapM_cons_of_error {e : Halt} (h : f a s = .error e t) : ((a :: l).mapM f).final s = t := by
  unfold final
  rw [List.mapM_cons, bind_eq, h]

theorem sequential_mapM {R : σ → List σ → σ → Prop} (hR : Sequential R)
    (h : ∀ a ∈ l, ∀ s, R s (μ a s) ((f a).final s)) : R s (momentsAll f μ l s) ((l.mapM f).final s) := by
  induction l generalizing s with
  | nil => exact hR.nil s
  | cons a l ih =>
    have hfirst := h a List.mem_cons_self s
    rw [momentsAll]
    cases hc : f a s with
    | error e t =>
      rw [(outcome_final_of_error hc).2] at hfirst
      rw [final_mapM_cons_of_error hc]
      exact hR.append hfirst (hR.nil t)
    | ok b t =>
      rw [(outcome_final_of_ok hc).2] at hfirst
      rw [final_mapM_cons_of_ok hc]
      exact hR.append hfirst (ih fun a ha => h a (List.mem_cons_of_mem _ ha))

end Effect

def Iteration.state {σ R S : Type} : Iteration σ R S → σ
  | .next _ s => s
  | .stop _ _ s => s

namespace Analysis

variable {σ R S P : Type} [ReachedSet R S] [DecidableEq S] {A : Analysis σ S P} {μ : S → P → σ → List σ} {p : P}
  {q : Search R S} {s : σ} {fuel : Nat} {X : σ → List σ → σ → Prop}

def explorationMoments (A : Analysis σ S P) (μ : S → P → σ → List σ) (p : P) (q : Search R S) (s : σ) : List σ :=
  match A.poll s, q.waiting.pop? with
  | (false, t), some (x, _) => μ (A.adjusted p q x).1 (A.adjusted p q x).2 t
  | _, _ => []

def iterationMoments (A : Analysis σ S P) (μ : S → P → σ → List σ) (p : P) (q : Search R S) (s : σ) : List σ :=
  A.explorationMoments μ p q s ++ [(A.iterate p q s).state]

def moments (A : Analysis σ S P) (μ : S → P → σ → List σ) (p : P) (fuel : Nat) (q : Search R S) (s : σ) : List σ :=
  [s] ++ (List.range fuel).flatMap fun n =>
    match A.head p n q s with
    | some (q, s) => A.iterationMoments μ p q s
    | none => []

theorem sequential_exploration (hX : Sequential X) (hpoll : ∀ s, X s [] (A.poll s).2)
    (h : ∀ x p s, X s (μ x p s) ((A.transfer x p).final s)) :
    X s (A.explorationMoments μ p q s) (A.iterate p q s).state := by
  have hpolled := hpoll s
  unfold explorationMoments
  cases hiterate : A.iterate p q s with
  | next q' s' =>
    obtain ⟨t, x, w, l, hanswer, hpop, hok, _⟩ := iterate_next hiterate
    have hsuccessors := h (A.adjusted p q x).1 (A.adjusted p q x).2 t
    rw [(Effect.outcome_final_of_ok hok).2] at hsuccessors
    rw [hanswer] at hpolled
    rw [hanswer, hpop]
    exact hX.append hpolled hsuccessors
  | stop o q' s' =>
    rcases iterate_stop hiterate with ⟨_, _, hanswer⟩ | ⟨_, _, hanswer, hpop⟩ |
      ⟨t, x, w, e, _, hanswer, hpop, herror, _⟩
    · rw [hanswer] at hpolled
      rw [hanswer]
      exact hpolled
    · rw [hanswer] at hpolled
      rw [hanswer, hpop]
      exact hpolled
    · have hsuccessors := h (A.adjusted p q x).1 (A.adjusted p q x).2 t
      rw [(Effect.outcome_final_of_error herror).2] at hsuccessors
      rw [hanswer] at hpolled
      rw [hanswer, hpop]
      exact hX.append hpolled hsuccessors

theorem state_run_one : (A.run p 1 q s).2.2 = (A.iterate p q s).state := by
  unfold run
  cases A.iterate p q s <;> rfl

theorem sequential_run (hX : Sequential X) (hhere : ∀ s, X s [s] s) (hpoll : ∀ s, X s [] (A.poll s).2)
    (h : ∀ x p s, X s (μ x p s) ((A.transfer x p).final s)) :
    X s (A.moments μ p fuel q s) (A.run p fuel q s).2.2 := by
  induction fuel with
  | zero => exact hhere s
  | succ fuel ih =>
    have hsplit : A.moments μ p (fuel + 1) q s = A.moments μ p fuel q s ++
        match A.head p fuel q s with
        | some (q, s) => A.iterationMoments μ p q s
        | none => [] := by
      simp [moments, List.range_succ]
    rw [hsplit]
    cases hhead : A.head p fuel q s with
    | none =>
      rw [run_of_head_eq_none hhead fuel.le_succ]
      exact hX.append ih (hX.nil _)
    | some here =>
      obtain ⟨q₁, s₁⟩ := here
      have hbefore : A.run p fuel q s = A.run p 0 q₁ s₁ := run_head hhead 0
      rw [hbefore] at ih
      rw [run_head hhead 1, state_run_one]
      exact hX.append ih (hX.append (sequential_exploration hX hpoll h) (hhere _))

end Analysis

end BytecodeFlow
