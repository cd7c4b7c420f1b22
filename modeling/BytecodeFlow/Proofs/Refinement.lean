import BytecodeFlow.Proofs.Effects
import BytecodeFlow.Proofs.Iteration

/-! # Computations that agree up to their bounds

A computation with a state and a computation without one are both bounded, and running out of the bound is
an outcome of either. The first refines the second if they come to the same outcomes, whatever the state, as
soon as the bounds are large enough. The relation is kept by sequencing, by lists of computations and by the
fixpoint loop.
-/
namespace BytecodeFlow

namespace Effect

variable {σ α β : Type}

def outcome (c : Effect σ α) (s : σ) : Except Halt α :=
  match c s with
  | .ok a _ => .ok a
  | .error h _ => .error h

theorem outcome_congr {c c' : Effect σ α} {s s' : σ} (h : c s = c' s') : c.outcome s = c'.outcome s' := by
  unfold outcome
  rw [h]

theorem final_congr {c c' : Effect σ α} {s s' : σ} (h : c s = c' s') : c.final s = c'.final s' := by
  unfold final
  rw [h]

theorem outcome_final_of_ok {c : Effect σ α} {s t : σ} {a : α} (h : c s = .ok a t) :
    c.outcome s = .ok a ∧ c.final s = t := by
  unfold outcome final
  simp [h]

theorem outcome_final_of_error {c : Effect σ α} {s t : σ} {e : Halt} (h : c s = .error e t) :
    c.outcome s = .error e ∧ c.final s = t := by
  unfold outcome final
  simp [h]

theorem outcome_bind (c : Effect σ α) (f : α → Effect σ β) (s : σ) :
    (c >>= f).outcome s = c.outcome s >>= fun a => (f a).outcome (c.final s) := by
  unfold outcome final
  rw [bind_eq]
  cases c s <;> rfl

theorem final_bind_ok {c : Effect σ α} {f : α → Effect σ β} {s : σ} {a : α} (h : c.outcome s = .ok a) :
    (c >>= f).final s = (f a).final (c.final s) := by
  unfold outcome at h
  unfold final
  rw [bind_eq]
  cases hc : c s with
  | ok b t =>
    obtain rfl : b = a := by simpa [hc] using h
    rfl
  | error e t => simp [hc] at h

theorem final_bind_error {c : Effect σ α} {f : α → Effect σ β} {s : σ} {e : Halt}
    (h : c.outcome s = .error e) : (c >>= f).final s = c.final s := by
  unfold outcome at h
  unfold final
  rw [bind_eq]
  cases hc : c s with
  | ok b t => simp [hc] at h
  | error e t => rfl

theorem outcome_bind_pure (c : Effect σ α) (f : α → β) (s : σ) :
    (c >>= fun a => pure (f a)).outcome s = (c.outcome s).map f := by
  unfold outcome
  rw [bind_eq]
  cases c s <;> rfl

theorem final_bind_pure (c : Effect σ α) (f : α → β) (s : σ) :
    (c >>= fun a => pure (f a)).final s = c.final s := by
  unfold final
  rw [bind_eq]
  cases c s <;> rfl

/-- For every bound, the outcome of `c` is that of `d` at some bound unless `c` runs out; and where `d` does
not run out at a bound, `c` agrees with it from that bound on. Meanwhile the state keeps `I`. -/
structure Refines (I : σ → Prop) (c : Nat → Effect σ α) (d : Nat → Except Halt α) : Prop where
  stable {j k : Nat} : j ≤ k → d j ≠ .error .exhausted → d k = d j
  keeps {n : Nat} {s : σ} : I s → I ((c n).final s)
  sound {n : Nat} {s : σ} : I s → (c n).outcome s ≠ .error .exhausted → ∃ k, d k = (c n).outcome s
  complete {n k : Nat} {s : σ} : I s → k ≤ n → d k ≠ .error .exhausted → (c n).outcome s = d k

variable {I : σ → Prop} {c : Nat → Effect σ α} {d : Nat → Except Halt α}

theorem Refines.of_eq {r : Except Halt α}
    (h : ∀ n s, I s → I ((c n).final s) ∧ (c n).outcome s = r) : Refines I c (fun _ => r) where
  stable _ _ := rfl
  keeps hs := (h _ _ hs).1
  sound hs _ := ⟨0, (h _ _ hs).2.symm⟩
  complete hs _ _ := (h _ _ hs).2

theorem refines_pure (a : α) : Refines I (fun _ => (pure a : Effect σ α)) (fun _ => .ok a) :=
  .of_eq fun _ _ hs => ⟨hs, rfl⟩

theorem refines_ofExcept (r : Except Fault α) :
    Refines I (fun _ => (ofExcept r : Effect σ α)) (fun _ => r.mapError .fault) := by
  refine .of_eq fun _ s hs => ?_
  cases r <;> exact ⟨hs, rfl⟩

theorem Refines.bind {f : Nat → α → Effect σ β} {g : Nat → α → Except Halt β} (h : Refines I c d)
    (hf : ∀ a, Refines I (f · a) (g · a)) :
    Refines I (fun n => c n >>= f n) (fun n => d n >>= g n) where
  stable {j k} hjk hne := by
    cases hd : d j with
    | error e =>
      have hk : d k = .error e := by
        rw [← hd]
        refine h.stable hjk fun hex => hne ?_
        rw [hex]
        rfl
      rw [hk]
      rfl
    | ok a =>
      have hk : d k = .ok a := by
        rw [← hd]
        exact h.stable hjk (by simp [hd])
      rw [hd] at hne
      rw [hk]
      exact (hf a).stable hjk hne
  keeps {n s} hs := by
    cases hc : (c n).outcome s with
    | error e =>
      rw [final_bind_error hc]
      exact h.keeps hs
    | ok a =>
      rw [final_bind_ok hc]
      exact (hf a).keeps (h.keeps hs)
  sound {n s} hs hne := by
    rw [outcome_bind] at hne ⊢
    cases hc : (c n).outcome s with
    | error e =>
      rw [hc] at hne
      have hex : (c n).outcome s ≠ .error .exhausted := by
        rw [hc]
        rintro ⟨⟩
        exact hne rfl
      obtain ⟨k, hk⟩ := h.sound hs hex
      exact ⟨k, by rw [hk, hc]; rfl⟩
    | ok a =>
      rw [hc] at hne
      obtain ⟨j, hj⟩ := h.sound (n := n) hs (by simp [hc])
      obtain ⟨k, hk⟩ := (hf a).sound (h.keeps hs) hne
      rw [hc] at hj
      have hd : d (max j k) = .ok a := by
        rw [h.stable (Nat.le_max_left j k) (by simp [hj]), hj]
      have hg : g (max j k) a = g k a := (hf a).stable (Nat.le_max_right j k) (hk ▸ hne)
      refine ⟨max j k, ?_⟩
      rw [hd]
      exact hg.trans hk
  complete {n k s} hs hkn hne := by
    rw [outcome_bind]
    cases hd : d k with
    | error e =>
      rw [h.complete hs hkn (fun hex => hne (by rw [hex]; rfl)), hd]
      rfl
    | ok a =>
      rw [h.complete hs hkn (by simp [hd]), hd]
      rw [hd] at hne
      exact (hf a).complete (h.keeps hs) hkn hne

theorem Refines.map (h : Refines I c d) (f : α → β) :
    Refines I (fun n => c n >>= fun a => pure (f a)) (fun n => (d n).map f) := by
  have hbind := h.bind (f := fun _ a => pure (f a)) fun a => refines_pure (f a)
  have heq : (fun n => (d n).map f) = fun n => d n >>= fun a => .ok (f a) := by
    funext n
    cases d n <;> rfl
  rw [heq]
  exact hbind

theorem Refines.mapM {f : Nat → α → Effect σ β} {g : Nat → α → Except Halt β} {l : List α}
    (hf : ∀ a ∈ l, Refines I (f · a) (g · a)) :
    Refines I (fun n => l.mapM (f n)) (fun n => l.mapM (g n)) := by
  induction l with
  | nil => exact refines_pure []
  | cons a l ih =>
    simp only [List.mapM_cons]
    refine (hf a (by simp)).bind fun b => ?_
    refine (ih fun a ha => hf a (by simp [ha])).bind fun bs => ?_
    exact refines_pure (b :: bs)

/-- What the computation comes to from one state, it comes to from any other, once the bound is large. -/
theorem Refines.transparent (h : Refines I c d) {s t : σ} (hs : I s) (ht : I t) {n : Nat}
    (hne : (c n).outcome s ≠ .error .exhausted) :
    ∃ k, ∀ j, k ≤ j → (c j).outcome t = (c n).outcome s := by
  obtain ⟨k, hk⟩ := h.sound hs hne
  refine ⟨k, fun j hj => ?_⟩
  rw [h.complete ht hj (by rw [hk]; exact hne), hk]

/-- A computation that wraps another one refines what the other one does. -/
theorem Refines.wrap {τ : Type} {J : τ → Prop} {w : Nat → Effect τ β} (h : Refines I c d) (f : α → β)
    (hwrap : ∀ n t, J t → ∃ s, I s ∧ (w n).outcome t = ((c n).outcome s).map f ∧
      (I ((c n).final s) → J ((w n).final t))) : Refines J w (fun n => (d n).map f) where
  stable hjk hne := by
    rw [h.stable hjk fun hex => hne (by rw [hex]; rfl)]
  keeps {n t} ht := by
    obtain ⟨s, hs, _, hfinal⟩ := hwrap n t ht
    exact hfinal (h.keeps hs)
  sound {n t} ht hne := by
    obtain ⟨s, hs, hout, _⟩ := hwrap n t ht
    obtain ⟨k, hk⟩ := h.sound (n := n) hs fun hex => hne (by rw [hout, hex]; rfl)
    exact ⟨k, by rw [hk, hout]⟩
  complete {n k t} ht hkn hne := by
    obtain ⟨s, hs, hout, _⟩ := hwrap n t ht
    rw [hout, h.complete hs hkn fun hex => hne (by rw [hex]; rfl)]

/-- A bound that is larger by one than needed does no harm. -/
theorem Refines.succ (h : Refines I c d) {e : Nat → Except Halt α} (hzero : e 0 = .error .exhausted)
    (hsucc : ∀ n, e (n + 1) = d n) : Refines I c e where
  stable {j k} hjk hne := by
    cases j with
    | zero => exact absurd hzero hne
    | succ j =>
      obtain ⟨i, rfl⟩ : ∃ i, k = i + 1 := ⟨k - 1, by omega⟩
      rw [hsucc] at hne ⊢
      rw [hsucc]
      exact h.stable (by omega) hne
  keeps := h.keeps
  sound hs hne := by
    obtain ⟨k, hk⟩ := h.sound hs hne
    exact ⟨k + 1, by rw [hsucc, hk]⟩
  complete {n k s} hs hkn hne := by
    cases k with
    | zero => exact absurd hzero hne
    | succ k =>
      rw [hsucc] at hne ⊢
      exact h.complete hs (by omega) hne

end Effect

/-! ### The fixpoint loop -/

/-- The fixpoint loop over a relation without state, which nothing aborts. -/
def explore {R S P : Type} [ReachedSet R S] [DecidableEq S] (O : Operators S P)
    (T : S → P → Except Halt (List S)) (p : P) : Nat → Search R S → Except Halt (Search R S)
  | 0, _ => .error .exhausted
  | fuel + 1, q =>
    match q.waiting.pop? with
    | none => .ok q
    | some (x, w) =>
      let a := O.adjust x p (ReachedSet.comparable q.reached x)
      T a.1 a.2 >>= fun l => explore O T p fuel (Search.incorporateAll O a.2 ⟨q.reached, w⟩ l)

namespace Analysis

variable {σ R S P : Type} [ReachedSet R S] [DecidableEq S]

def search (A : Analysis σ S P) (p : P) (fuel : Nat) (q : Search R S) : Effect σ (Search R S) := fun s =>
  match A.run p fuel q s with
  | (.completed, q, t) => .ok q t
  | (.aborted, _, t) => .error .exhausted t
  | (.halted h, _, t) => .error h t

theorem search_succ {A : Analysis σ S P} {s : σ} (hpoll : (A.poll s).1 = false) (p : P) (fuel : Nat)
    (q : Search R S) :
    A.search p (fuel + 1) q s = match q.waiting.pop? with
      | none => .ok q (A.poll s).2
      | some (x, w) =>
        (A.transfer (A.adjusted p q x).1 (A.adjusted p q x).2 >>= fun l =>
          A.search p fuel (Search.incorporateAll A.operators (A.adjusted p q x).2 ⟨q.reached, w⟩ l))
          (A.poll s).2 := by
  rcases hp : A.poll s with ⟨fires, s₁⟩
  obtain rfl : fires = false := by simpa [hp] using hpoll
  rw [search, run, iterate, hp]
  cases q.waiting.pop? with
  | none => rfl
  | some a =>
    obtain ⟨x, w⟩ := a
    simp only [Effect.bind_eq, adjusted]
    cases A.transfer (A.operators.adjust x p (ReachedSet.comparable q.reached x)).1
      (A.operators.adjust x p (ReachedSet.comparable q.reached x)).2 s₁ <;> rfl

variable [LawfulReachedSet R S]

/-- The analyses `C` follow the relations `D` on states with `U`, which their operators keep, and nothing
aborts them while their own state has `I`. -/
structure Tracks (R : Type) [ReachedSet R S] [LawfulReachedSet R S] (I : σ → Prop) (U : S → Prop)
    (C : Nat → Analysis σ S P) (O : Operators S P) (D : Nat → S → P → Except Halt (List S)) : Prop where
  operators (n : Nat) : (C n).operators = O
  poll {n : Nat} {s : σ} : I s → ((C n).poll s).1 = false ∧ I ((C n).poll s).2
  transfer {x : S} (p : P) : U x → Effect.Refines I (fun n => (C n).transfer x p) (fun n => D n x p)
  adjust {x : S} (p : P) (l : List S) : U x → U (O.adjust x p l).1
  successors {n : Nat} {x : S} {p : P} {l : List S} : U x → D n x p = .ok l → ∀ t ∈ l, U t
  merge {r : R} {c x : S} (p : P) : LawfulReachedSet.Valid r → x ∈ ReachedSet.comparable r c →
    U c → U x → U (O.merge c x p)

variable {I : σ → Prop} {U : S → Prop} {C : Nat → Analysis σ S P} {O : Operators S P}
  {D : Nat → S → P → Except Halt (List S)} {p : P} {q : Search R S} {x : S} {w : Waitlist S}

omit [DecidableEq S] in
theorem Tracks.explored (hC : Tracks R I U C O D) (hU : q.All U) (hpop : q.waiting.pop? = some (x, w)) :
    U (O.adjust x p (ReachedSet.comparable q.reached x)).1 :=
  hC.adjust p _ (hU.pending x ((Waitlist.mem_of_pop? hpop).2 (.inl rfl)))

theorem Tracks.next (hC : Tracks R I U C O D) (hU : q.All U) (hv : q.Valid)
    (hpop : q.waiting.pop? = some (x, w)) {l : List S} (hl : ∀ t ∈ l, U t) (p : P) :
    (Search.incorporateAll O p ⟨q.reached, w⟩ l).All U ∧
      (Search.incorporateAll O p ⟨q.reached, w⟩ l).Valid := by
  have hpopped : Search.All U (⟨q.reached, w⟩ : Search R S) :=
    ⟨hU.reached, fun y hy => hU.pending y ((Waitlist.mem_of_pop? hpop).2 (.inr hy))⟩
  exact ⟨Search.all_incorporateAll hpopped hl hv fun _ _ _ hr hx hc hUx => hC.merge p hr hx hc hUx,
    Search.valid_incorporateAll O p l hv⟩

/-- More steps and a better relation do not change an outcome. -/
theorem Tracks.explore_stable (hC : Tracks R I U C O D) {j k f g : Nat} (hjk : j ≤ k) (hfg : f ≤ g)
    (hU : q.All U) (hv : q.Valid) (hne : explore O (D j) p f q ≠ .error .exhausted) :
    explore O (D k) p g q = explore O (D j) p f q := by
  induction f generalizing q g with
  | zero => exact absurd rfl hne
  | succ f ih =>
    obtain ⟨g, rfl⟩ : ∃ i, g = i + 1 := ⟨g - 1, by omega⟩
    rw [explore] at hne ⊢
    rw [explore]
    cases hpop : q.waiting.pop? with
    | none => rfl
    | some a =>
      obtain ⟨x, w⟩ := a
      simp only [hpop] at hne ⊢
      have hx := hC.explored (p := p) hU hpop
      have hT := hC.transfer (O.adjust x p (ReachedSet.comparable q.reached x)).2 hx
      cases hj : D j (O.adjust x p (ReachedSet.comparable q.reached x)).1
          (O.adjust x p (ReachedSet.comparable q.reached x)).2 with
      | error e =>
        rw [hj] at hne
        rw [hT.stable hjk (by rw [hj]; exact fun h => hne (by cases h; rfl)), hj]
        rfl
      | ok l =>
        rw [hj] at hne
        rw [hT.stable hjk (by simp [hj]), hj]
        obtain ⟨hU', hv'⟩ := hC.next hU hv hpop (hC.successors hx hj)
          (O.adjust x p (ReachedSet.comparable q.reached x)).2
        exact ih (by omega) hU' hv' hne

/-- One step of the loop, once something is pending. -/
theorem Tracks.search_eq (hC : Tracks R I U C O D) {n f : Nat} {s : σ} (hs : I s)
    (hpop : q.waiting.pop? = some (x, w)) :
    (C n).search p (f + 1) q s =
      ((C n).transfer (O.adjust x p (ReachedSet.comparable q.reached x)).1
          (O.adjust x p (ReachedSet.comparable q.reached x)).2 >>= fun l =>
        (C n).search p f (Search.incorporateAll O (O.adjust x p (ReachedSet.comparable q.reached x)).2
          ⟨q.reached, w⟩ l)) ((C n).poll s).2 := by
  rw [search_succ (hC.poll hs).1, hpop]
  simp only [adjusted, hC.operators]

theorem Tracks.search_none (hC : Tracks R I U C O D) {n f : Nat} {s : σ} (hs : I s)
    (hpop : q.waiting.pop? = none) : (C n).search p (f + 1) q s = .ok q ((C n).poll s).2 := by
  rw [search_succ (hC.poll hs).1, hpop]

/-- What a search keeps, and where its outcome comes from. -/
theorem Tracks.search_sound (hC : Tracks R I U C O D) (n : Nat) {fuel : Nat} {s : σ} (hs : I s)
    (hU : q.All U) (hv : q.Valid) :
    I (((C n).search p fuel q).final s) ∧ (((C n).search p fuel q).outcome s ≠ .error .exhausted →
      ∃ k, explore O (D k) p k q = ((C n).search p fuel q).outcome s) := by
  induction fuel generalizing q s with
  | zero => exact ⟨hs, fun hne => absurd rfl hne⟩
  | succ fuel ih =>
    cases hpop : q.waiting.pop? with
    | none =>
      have heq := hC.search_none (p := p) (n := n) (f := fuel) hs hpop
      unfold Effect.final Effect.outcome
      rw [heq]
      exact ⟨(hC.poll hs).2, fun _ => ⟨1, by rw [explore, hpop]⟩⟩
    | some a =>
      obtain ⟨x, w⟩ := a
      have heq := hC.search_eq (p := p) (n := n) (f := fuel) hs hpop
      have hx := hC.explored (p := p) hU hpop
      have hT := hC.transfer (O.adjust x p (ReachedSet.comparable q.reached x)).2 hx
      have hs₁ := (hC.poll (n := n) hs).2
      rw [Effect.final_congr heq, Effect.outcome_congr heq, Effect.outcome_bind]
      generalize hs' : ((C n).poll s).2 = s₁ at hs₁
      cases htransfer : ((C n).transfer (O.adjust x p (ReachedSet.comparable q.reached x)).1
          (O.adjust x p (ReachedSet.comparable q.reached x)).2).outcome s₁ with
      | error e =>
        rw [Effect.final_bind_error htransfer]
        refine ⟨hT.keeps hs₁, fun hne => ?_⟩
        obtain ⟨k, hk⟩ := hT.sound (n := n) hs₁ (by rw [htransfer]; exact fun h => hne (by cases h; rfl))
        refine ⟨k + 1, ?_⟩
        have hstable := hT.stable (Nat.le_succ k) (by
          rw [hk, htransfer]
          exact fun h => hne (by cases h; rfl))
        rw [explore, hpop]
        simp only
        rw [hstable, hk, htransfer]
        rfl
      | ok l =>
        rw [Effect.final_bind_ok htransfer]
        obtain ⟨j, hj⟩ := hT.sound (n := n) hs₁ (by simp [htransfer])
        rw [htransfer] at hj
        obtain ⟨hU', hv'⟩ := hC.next hU hv hpop (hC.successors hx hj)
          (O.adjust x p (ReachedSet.comparable q.reached x)).2
        obtain ⟨hkeep, hsound⟩ := ih (hT.keeps (n := n) hs₁) hU' hv'
        refine ⟨hkeep, fun hne => ?_⟩
        obtain ⟨k, hk⟩ := hsound hne
        -- a bound at which both the successors and the rest of the search are known
        refine ⟨max j k + 1, ?_⟩
        rw [explore, hpop]
        simp only
        rw [hT.stable (Nat.le_succ_of_le (Nat.le_max_left j k)) (by simp [hj]), hj]
        change explore O (D (max j k + 1)) p (max j k) _ = _
        rw [hC.explore_stable (Nat.le_succ_of_le (Nat.le_max_right j k)) (Nat.le_max_right j k) hU' hv'
          (by rw [hk]; exact hne), hk]
        rfl

theorem Tracks.search_complete (hC : Tracks R I U C O D) {n k f fuel : Nat} {s : σ} (hs : I s)
    (hkn : k ≤ n) (hf : f ≤ fuel) (hU : q.All U) (hv : q.Valid)
    (hne : explore O (D k) p f q ≠ .error .exhausted) :
    ((C n).search p fuel q).outcome s = explore O (D k) p f q := by
  induction f generalizing q s fuel with
  | zero => exact absurd rfl hne
  | succ f ih =>
    obtain ⟨fuel, rfl⟩ : ∃ i, fuel = i + 1 := ⟨fuel - 1, by omega⟩
    rw [explore] at hne ⊢
    cases hpop : q.waiting.pop? with
    | none =>
      unfold Effect.outcome
      rw [hC.search_none (p := p) (n := n) (f := fuel) hs hpop]
    | some a =>
      obtain ⟨x, w⟩ := a
      simp only [hpop] at hne ⊢
      have hx := hC.explored (p := p) hU hpop
      have hT := hC.transfer (O.adjust x p (ReachedSet.comparable q.reached x)).2 hx
      have hs₁ := (hC.poll (n := n) hs).2
      rw [Effect.outcome_congr (hC.search_eq (p := p) (n := n) (f := fuel) hs hpop), Effect.outcome_bind]
      cases hk : D k (O.adjust x p (ReachedSet.comparable q.reached x)).1
          (O.adjust x p (ReachedSet.comparable q.reached x)).2 with
      | error e =>
        rw [hk] at hne
        rw [hT.complete hs₁ hkn (by rw [hk]; exact fun h => hne (by cases h; rfl)), hk]
        rfl
      | ok l =>
        rw [hk] at hne
        rw [hT.complete hs₁ hkn (by simp [hk]), hk]
        obtain ⟨hU', hv'⟩ := hC.next hU hv hpop (hC.successors hx hk)
          (O.adjust x p (ReachedSet.comparable q.reached x)).2
        exact ih (hT.keeps hs₁) (by omega) hU' hv' hne

/-- The loop refines the loop without state. -/
theorem Tracks.refines_search (hC : Tracks R I U C O D) (hU : q.All U) (hv : q.Valid) :
    Effect.Refines I (fun n => (C n).search p n q) (fun n => explore O (D n) p n q) where
  stable hjk hne := hC.explore_stable hjk hjk hU hv hne
  keeps hs := (hC.search_sound _ hs hU hv).1
  sound hs hne := (hC.search_sound _ hs hU hv).2 hne
  complete hs hkn hne := hC.search_complete hs hkn hkn hU hv hne

theorem Tracks.not_aborted (hC : Tracks R I U C O D) {n fuel : Nat} {s s' : σ} {q' : Search R S}
    {o : Outcome} (hs : I s) (hU : q.All U) (hv : q.Valid)
    (hrun : (C n).run p fuel q s = (o, q', s')) : o ≠ .aborted := by
  have hstep : ∀ (q : Search R S) s q' s', (q.All U ∧ q.Valid ∧ I s) →
      (C n).iterate p q s = .next q' s' → q'.All U ∧ q'.Valid ∧ I s' := by
    rintro q s q' s' ⟨hU, hv, hs⟩ hnext
    obtain ⟨s₁, x, w, l, hpoll, hpop, htransfer, rfl⟩ := iterate_next hnext
    rw [adjusted, hC.operators] at htransfer ⊢
    have hx := hC.explored (p := p) hU hpop
    have hT := hC.transfer (O.adjust x p (ReachedSet.comparable q.reached x)).2 hx
    have hs₁ : I s₁ := by simpa [hpoll] using (hC.poll (n := n) hs).2
    obtain ⟨hout, hfinal⟩ := Effect.outcome_final_of_ok htransfer
    obtain ⟨k, hk⟩ := hT.sound (n := n) hs₁ (by simp [hout])
    obtain ⟨hU', hv'⟩ := hC.next hU hv hpop (hC.successors hx (hk.trans hout))
      (O.adjust x p (ReachedSet.comparable q.reached x)).2
    exact ⟨hU', hv', hfinal ▸ hT.keeps (n := n) hs₁⟩
  rcases run_invariant _ hstep hrun ⟨hU, hv, hs⟩ with ⟨rfl, _⟩ | ⟨q₁, s₁, ⟨_, _, hs₁⟩, hstop⟩
  · exact nofun
  · rcases iterate_stop hstop with ⟨_, _, hpoll⟩ | ⟨rfl, _⟩ | ⟨_, _, _, _, rfl, _⟩
    · have hquiet := (hC.poll (n := n) hs₁).1
      simp [hpoll] at hquiet
    · exact nofun
    · exact nofun

end Analysis

end BytecodeFlow
