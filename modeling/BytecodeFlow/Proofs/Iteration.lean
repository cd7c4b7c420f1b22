import BytecodeFlow.Fixpoint.Loop
import BytecodeFlow.Proofs.Collections

/-! # What one iteration of the loop can do

Membership in the reached and pending states after a successor has been incorporated, the ways in
which an iteration ends, and the course of a run: the searches at the heads of its iterations, and the
induction over them. Everything that is proved about runs goes through these facts.
-/
namespace BytecodeFlow

namespace Search

variable {R S P : Type} [ReachedSet R S]

def Reaches (q : Search R S) (s : S) : Prop := s ∈ ReachedSet.states q.reached

def Awaits (q : Search R S) (s : S) : Prop := s ∈ q.waiting.pending

structure All (U : S → Prop) (q : Search R S) : Prop where
  reached : ∀ s, q.Reaches s → U s
  pending : ∀ s, q.Awaits s → U s

theorem All.mono {U V : S → Prop} {q : Search R S} (h : q.All U) (hUV : ∀ s, U s → V s) :
    q.All V :=
  ⟨fun s hs => hUV s (h.reached s hs), fun s hs => hUV s (h.pending s hs)⟩

variable [LawfulReachedSet R S]

def Valid (q : Search R S) : Prop := LawfulReachedSet.Valid q.reached

variable [DecidableEq S]

theorem reaches_add {q : Search R S} {s x : S} : (q.add s).Reaches x ↔ q.Reaches x ∨ x = s :=
  LawfulReachedSet.mem_add

omit [LawfulReachedSet R S] in
theorem awaits_add {q : Search R S} {s x : S} : (q.add s).Awaits x ↔ q.Awaits x ∨ x = s :=
  Waitlist.mem_add

theorem reaches_addAll {q : Search R S} {l : List S} {x : S} :
    (q.addAll l).Reaches x ↔ q.Reaches x ∨ x ∈ l := by
  induction l generalizing q with
  | nil => simp [addAll]
  | cons a l ih =>
    change ((q.add a).addAll l).Reaches x ↔ _
    rw [ih, reaches_add]
    simp [or_assoc]

omit [LawfulReachedSet R S] in
theorem awaits_addAll {q : Search R S} {l : List S} {x : S} :
    (q.addAll l).Awaits x ↔ q.Awaits x ∨ x ∈ l := by
  induction l generalizing q with
  | nil => simp [addAll]
  | cons a l ih =>
    change ((q.add a).addAll l).Awaits x ↔ _
    rw [ih, awaits_add]
    simp [or_assoc]

theorem valid_add {q : Search R S} (s : S) (h : q.Valid) : (q.add s).Valid :=
  LawfulReachedSet.valid_add s h

theorem valid_addAll {q : Search R S} (l : List S) (h : q.Valid) : (q.addAll l).Valid := by
  induction l generalizing q with
  | nil => exact h
  | cons a l ih => exact ih (valid_add a h)

theorem reaches_replace {q : Search R S} {changes : List (S × S)} {x : S} :
    (q.replace changes).Reaches x ↔
      (x ∉ changes.map (·.1) ∧ q.Reaches x) ∨ x ∈ changes.map (·.2) := by
  unfold replace
  rw [reaches_addAll]
  exact or_congr_left LawfulReachedSet.mem_removeAll

omit [LawfulReachedSet R S] in
theorem awaits_replace {q : Search R S} {changes : List (S × S)} {x : S} :
    (q.replace changes).Awaits x ↔
      (x ∉ changes.map (·.1) ∧ q.Awaits x) ∨ x ∈ changes.map (·.2) := by
  unfold replace
  rw [awaits_addAll]
  exact or_congr_left Waitlist.mem_removeAll

theorem valid_replace {q : Search R S} (changes : List (S × S)) (h : q.Valid) :
    (q.replace changes).Valid := by
  unfold replace
  exact valid_addAll _ (LawfulReachedSet.valid_removeAll _ h)

omit [LawfulReachedSet R S] in
theorem mem_replacements {O : Operators S P} {p : P} {q : Search R S} {c : S} {m : S × S} :
    m ∈ q.replacements O p c ↔
      m.1 ∈ ReachedSet.comparable q.reached c ∧ m.2 = O.merge c m.1 p ∧ m.2 ≠ m.1 := by
  obtain ⟨r, t⟩ := m
  simp only [replacements, List.mem_filter, List.mem_map, Prod.mk.injEq, decide_eq_true_eq]
  constructor
  · rintro ⟨⟨r', hr', rfl, rfl⟩, hne⟩
    exact ⟨hr', rfl, hne⟩
  · rintro ⟨hr, rfl, hne⟩
    exact ⟨⟨r, hr, rfl, rfl⟩, hne⟩

omit [LawfulReachedSet R S] in
/-- A successor is merged, and then either covered or added. -/
theorem incorporate_cases (O : Operators S P) (p : P) (q : Search R S) (c : S) :
    let merged := q.replace (q.replacements O p c)
    (O.stop c (ReachedSet.comparable merged.reached c) p = true ∧ q.incorporate O p c = merged) ∨
      (O.stop c (ReachedSet.comparable merged.reached c) p = false ∧
        q.incorporate O p c = merged.add c) := by
  intro merged
  cases hstop : O.stop c (ReachedSet.comparable merged.reached c) p with
  | true => exact .inl ⟨rfl, if_pos hstop⟩
  | false => exact .inr ⟨rfl, if_neg (by rw [hstop]; exact Bool.false_ne_true)⟩

theorem valid_incorporate (O : Operators S P) (p : P) {q : Search R S} (c : S) (h : q.Valid) :
    (q.incorporate O p c).Valid := by
  rcases incorporate_cases O p q c with ⟨_, heq⟩ | ⟨_, heq⟩
  · rw [heq]
    exact valid_replace _ h
  · rw [heq]
    exact valid_add c (valid_replace _ h)

theorem valid_incorporateAll (O : Operators S P) (p : P) {q : Search R S} (l : List S)
    (h : q.Valid) : (q.incorporateAll O p l).Valid := by
  induction l generalizing q with
  | nil => exact h
  | cons c l ih => exact ih (valid_incorporate O p c h)

/-- What holds of the successor and of all states before, and is kept by merging, holds after. -/
theorem all_incorporate {O : Operators S P} {p : P} {U : S → Prop} {q : Search R S} {c : S}
    (h : q.All U) (hc : U c) (hv : q.Valid)
    (hmerge : ∀ r ∈ ReachedSet.comparable q.reached c, U r → U (O.merge c r p)) :
    (q.incorporate O p c).All U := by
  have hmerged : (q.replace (q.replacements O p c)).All U := by
    have hnew : ∀ x ∈ (q.replacements O p c).map (·.2), U x := by
      intro x hx
      obtain ⟨m, hm, rfl⟩ := List.mem_map.1 hx
      obtain ⟨hr, heq, _⟩ := mem_replacements.1 hm
      rw [heq]
      exact hmerge m.1 hr (h.reached _ (LawfulReachedSet.mem_of_comparable hv hr))
    constructor
    · intro x hx
      rcases reaches_replace.1 hx with ⟨_, hx⟩ | hx
      · exact h.reached x hx
      · exact hnew x hx
    · intro x hx
      rcases awaits_replace.1 hx with ⟨_, hx⟩ | hx
      · exact h.pending x hx
      · exact hnew x hx
  rcases incorporate_cases O p q c with ⟨_, heq⟩ | ⟨_, heq⟩
  · rw [heq]
    exact hmerged
  · rw [heq]
    constructor
    · intro x hx
      rcases reaches_add.1 hx with hx | rfl
      · exact hmerged.reached x hx
      · exact hc
    · intro x hx
      rcases awaits_add.1 hx with hx | rfl
      · exact hmerged.pending x hx
      · exact hc

theorem all_incorporateAll {O : Operators S P} {p : P} {U : S → Prop} {q : Search R S} {l : List S}
    (h : q.All U) (hl : ∀ c ∈ l, U c) (hv : q.Valid)
    (hmerge : ∀ (r : R) (c x : S), LawfulReachedSet.Valid r → x ∈ ReachedSet.comparable r c →
      U c → U x → U (O.merge c x p)) :
    (q.incorporateAll O p l).All U := by
  induction l generalizing q with
  | nil => exact h
  | cons c l ih =>
    have hc : U c := hl c (by simp)
    refine ih ?_ (fun x hx => hl x (by simp [hx])) (valid_incorporate O p c hv)
    exact all_incorporate h hc hv fun r hr hUr => hmerge q.reached c r hv hr hc hUr

/-! ### States that are no longer pending -/

theorem settled_replace {q : Search R S} {changes : List (S × S)} {x : S} (hx : (q.replace changes).Reaches x)
    (hnot : ¬ (q.replace changes).Awaits x) : q.Reaches x ∧ ¬ q.Awaits x := by
  rw [awaits_replace, not_or] at hnot
  rcases reaches_replace.1 hx with ⟨hkept, hx⟩ | hx
  · exact ⟨hx, fun hpending => hnot.1 ⟨hkept, hpending⟩⟩
  · exact absurd hx hnot.2

theorem settled_add {q : Search R S} {c x : S} (hx : (q.add c).Reaches x) (hnot : ¬ (q.add c).Awaits x) :
    q.Reaches x ∧ ¬ q.Awaits x := by
  rw [awaits_add, not_or] at hnot
  exact ⟨(reaches_add.1 hx).resolve_right hnot.2, hnot.1⟩

/-- What is reached and not pending after successors have been incorporated was so before. -/
theorem settled_incorporateAll (O : Operators S P) (p : P) {q : Search R S} (l : List S) {x : S}
    (hx : (q.incorporateAll O p l).Reaches x) (hnot : ¬ (q.incorporateAll O p l).Awaits x) :
    q.Reaches x ∧ ¬ q.Awaits x := by
  induction l generalizing q with
  | nil => exact ⟨hx, hnot⟩
  | cons c l ih =>
    obtain ⟨hx, hnot⟩ := ih hx hnot
    rcases incorporate_cases O p q c with ⟨_, heq⟩ | ⟨_, heq⟩
    · rw [heq] at hx hnot
      exact settled_replace hx hnot
    · rw [heq] at hx hnot
      obtain ⟨hx, hnot⟩ := settled_add hx hnot
      exact settled_replace hx hnot

end Search

namespace Analysis

variable {σ R S P : Type} [ReachedSet R S] [DecidableEq S]
variable {A : Analysis σ S P} {p : P} {q q' : Search R S} {s s' : σ} {o : Outcome}

def adjusted (A : Analysis σ S P) (p : P) (q : Search R S) (x : S) : S × P :=
  A.operators.adjust x p (ReachedSet.comparable q.reached x)

/-- An iteration that leads to another one has explored a pending state. -/
theorem iterate_next (h : A.iterate p q s = .next q' s') :
    ∃ s₁ x w l, A.poll s = (false, s₁) ∧ q.waiting.pop? = some (x, w) ∧
      A.transfer (A.adjusted p q x).1 (A.adjusted p q x).2 s₁ = .ok l s' ∧
      q' = Search.incorporateAll A.operators (A.adjusted p q x).2 ⟨q.reached, w⟩ l := by
  unfold iterate at h
  split at h
  · simp at h
  · rename_i s₁ hpoll
    split at h
    · simp at h
    · rename_i x w hpop
      simp only at h
      split at h
      · simp at h
      · rename_i l s₂ htransfer
        obtain ⟨rfl, rfl⟩ := Iteration.next.inj h
        exact ⟨s₁, x, w, l, hpoll, hpop, htransfer, rfl⟩

/-- A run ends because it was aborted, because nothing is pending, or because the successors of the
state that was taken out could not be computed. -/
theorem iterate_stop (h : A.iterate p q s = .stop o q' s') :
    (o = .aborted ∧ q' = q ∧ A.poll s = (true, s')) ∨
    (o = .completed ∧ q' = q ∧ A.poll s = (false, s') ∧ q.waiting.pop? = none) ∨
    ∃ s₁ x w f, o = .halted f ∧ A.poll s = (false, s₁) ∧ q.waiting.pop? = some (x, w) ∧
      A.transfer (A.adjusted p q x).1 (A.adjusted p q x).2 s₁ = .error f s' ∧
      q' = ⟨q.reached, w⟩ := by
  unfold iterate at h
  split at h
  · rename_i s₁ hpoll
    obtain ⟨rfl, rfl, rfl⟩ := Iteration.stop.inj h
    exact .inl ⟨rfl, rfl, hpoll⟩
  · rename_i s₁ hpoll
    split at h
    · rename_i hpop
      obtain ⟨rfl, rfl, rfl⟩ := Iteration.stop.inj h
      exact .inr (.inl ⟨rfl, rfl, hpoll, hpop⟩)
    · rename_i x w hpop
      simp only at h
      split at h
      · rename_i f s₂ htransfer
        obtain ⟨rfl, rfl, rfl⟩ := Iteration.stop.inj h
        exact .inr (.inr ⟨s₁, x, w, f, rfl, hpoll, hpop, htransfer, rfl⟩)
      · simp at h

/-! ### The course of a run -/

theorem run_succ_of_next (h : A.iterate p q s = .next q' s') (fuel : Nat) :
    A.run p (fuel + 1) q s = A.run p fuel q' s' := by
  rw [run, h]

theorem run_succ_of_stop (h : A.iterate p q s = .stop o q' s') (fuel : Nat) :
    A.run p (fuel + 1) q s = (o, q', s') := by
  rw [run, h]

/-- The search and the state when iteration `n` begins, counted from 0, if the run gets that far. -/
def head (A : Analysis σ S P) (p : P) : Nat → Search R S → σ → Option (Search R S × σ)
  | 0, q, s => some (q, s)
  | n + 1, q, s =>
    match A.iterate p q s with
    | .next q s => A.head p n q s
    | .stop _ _ _ => none

/-- The head of an iteration comes from that of the one before. -/
theorem head_succ_eq_some {n : Nat} {q₀ : Search R S} {s₀ : σ} : A.head p (n + 1) q₀ s₀ = some (q', s') ↔
    ∃ q s, A.head p n q₀ s₀ = some (q, s) ∧ A.iterate p q s = .next q' s' := by
  induction n generalizing q₀ s₀ with
  | zero =>
    rw [head]
    cases hiterate : A.iterate p q₀ s₀ with
    | next q s => simp [head, hiterate]
    | stop o q s => simp [head, hiterate]
  | succ n ih =>
    rw [head, head]
    cases hiterate : A.iterate p q₀ s₀ with
    | next q s => exact ih
    | stop o q s => simp

/-- From the head of an iteration on, a run goes on as one that is begun there. -/
theorem run_head {n : Nat} {q₀ : Search R S} {s₀ : σ} (h : A.head p n q₀ s₀ = some (q, s)) (fuel : Nat) :
    A.run p (n + fuel) q₀ s₀ = A.run p fuel q s := by
  induction n generalizing q₀ s₀ with
  | zero =>
    cases h
    rw [Nat.zero_add]
  | succ n ih =>
    rw [head] at h
    cases hiterate : A.iterate p q₀ s₀ with
    | stop o q₁ s₁ =>
      rw [hiterate] at h
      cases h
    | next q₁ s₁ =>
      rw [hiterate] at h
      rw [show n + 1 + fuel = n + fuel + 1 by omega, run_succ_of_next hiterate, ih h]

/-- A run ends at the head of an iteration for which there is no fuel left, or in an iteration that stops. -/
theorem exists_head_of_run {fuel : Nat} (hrun : A.run p fuel q s = (o, q', s')) :
    ∃ n q₁ s₁, A.head p n q s = some (q₁, s₁) ∧
      (n = fuel ∧ o = .halted .exhausted ∧ q₁ = q' ∧ s₁ = s' ∨ n < fuel ∧ A.iterate p q₁ s₁ = .stop o q' s') := by
  induction fuel generalizing q s with
  | zero =>
    obtain ⟨rfl, rfl, rfl⟩ : .halted .exhausted = o ∧ q = q' ∧ s = s' := by simpa [run] using hrun
    exact ⟨0, q, s, rfl, .inl ⟨rfl, rfl, rfl, rfl⟩⟩
  | succ fuel ih =>
    cases hiterate : A.iterate p q s with
    | stop o₁ q₁ s₁ =>
      rw [run_succ_of_stop hiterate] at hrun
      cases hrun
      exact ⟨0, q, s, rfl, .inr ⟨fuel.succ_pos, hiterate⟩⟩
    | next q₁ s₁ =>
      rw [run_succ_of_next hiterate] at hrun
      obtain ⟨n, q₂, s₂, hhead, hends⟩ := ih hrun
      refine ⟨n + 1, q₂, s₂, by rw [head, hiterate]; exact hhead, ?_⟩
      exact hends.imp (fun ⟨hn, h⟩ => ⟨congrArg (· + 1) hn, h⟩) fun ⟨hn, h⟩ => ⟨Nat.succ_lt_succ hn, h⟩

/-- A run that ended before an iteration could begin has come to its end. -/
theorem run_of_head_eq_none {n m : Nat} (h : A.head p n q s = none) (hle : n ≤ m) : A.run p m q s = A.run p n q s := by
  rcases hrun : A.run p n q s with ⟨o, q', s'⟩
  obtain ⟨k, q₁, s₁, hhead, ⟨rfl, _⟩ | ⟨hk, hstop⟩⟩ := exists_head_of_run hrun
  · rw [h] at hhead
    cases hhead
  · obtain ⟨j, rfl⟩ : ∃ j, m = k + (j + 1) := ⟨m - k - 1, by omega⟩
    rw [run_head hhead, run_succ_of_stop hstop]

/-- What every iteration keeps holds whenever one begins. -/
theorem head_invariant (Inv : Search R S → σ → Prop)
    (hstep : ∀ q s q' s', Inv q s → A.iterate p q s = .next q' s' → Inv q' s') {n : Nat}
    (h : A.head p n q s = some (q', s')) (hinv : Inv q s) : Inv q' s' := by
  induction n generalizing q' s' with
  | zero =>
    cases h
    exact hinv
  | succ n ih =>
    obtain ⟨q₁, s₁, hhead, hnext⟩ := head_succ_eq_some.1 h
    exact hstep q₁ s₁ q' s' (ih hhead) hnext

/-- What every iteration keeps holds when the last iteration of a run begins. -/
theorem run_invariant (Inv : Search R S → σ → Prop)
    (hstep : ∀ q s q' s', Inv q s → A.iterate p q s = .next q' s' → Inv q' s') {fuel : Nat}
    (hrun : A.run p fuel q s = (o, q', s')) (hinv : Inv q s) :
    (o = .halted .exhausted ∧ Inv q' s') ∨
      ∃ q₁ s₁, Inv q₁ s₁ ∧ A.iterate p q₁ s₁ = .stop o q' s' := by
  obtain ⟨n, q₁, s₁, hhead, hends⟩ := exists_head_of_run hrun
  have h : Inv q₁ s₁ := head_invariant Inv hstep hhead hinv
  rcases hends with ⟨_, ho, rfl, rfl⟩ | ⟨_, hstop⟩
  · exact .inl ⟨ho, h⟩
  · exact .inr ⟨q₁, s₁, h, hstop⟩

/-- A completed run ends at the head of an iteration at which nothing is pending. -/
theorem head_of_completed {fuel : Nat} (hrun : A.run p fuel q s = (.completed, q', s')) :
    ∃ n s₁, A.head p n q s = some (q', s₁) ∧ A.poll s₁ = (false, s') ∧ ∀ x, ¬ q'.Awaits x := by
  obtain ⟨n, q₁, s₁, hhead, ⟨_, hcontra, _⟩ | ⟨_, hstop⟩⟩ := exists_head_of_run hrun
  · cases hcontra
  · rcases iterate_stop hstop with ⟨hcontra, _⟩ | ⟨_, rfl, hpoll, hpop⟩ | ⟨_, _, _, _, hcontra, _⟩
    · cases hcontra
    · exact ⟨n, s₁, hhead, hpoll, Waitlist.not_mem_of_pop?_eq_none hpop⟩
    · cases hcontra

/-- What every iteration keeps holds at the end of a completed run, where nothing is pending. -/
theorem run_completed (Inv : Search R S → σ → Prop)
    (hstep : ∀ q s q' s', Inv q s → A.iterate p q s = .next q' s' → Inv q' s') {fuel : Nat}
    (hrun : A.run p fuel q s = (.completed, q', s')) (hinv : Inv q s) :
    ∃ s₁, Inv q' s₁ ∧ A.poll s₁ = (false, s') ∧ ∀ x, ¬ q'.Awaits x := by
  obtain ⟨_, s₁, hhead, hend⟩ := head_of_completed hrun
  exact ⟨s₁, head_invariant Inv hstep hhead hinv, hend⟩

/-- However a run ends, its reached states are those at the head of an iteration. -/
theorem head_of_run {fuel : Nat} (hrun : A.run p fuel q s = (o, q', s')) :
    ∃ n q₁ s₁, A.head p n q s = some (q₁, s₁) ∧ q'.reached = q₁.reached := by
  obtain ⟨n, q₁, s₁, hhead, ⟨_, _, rfl, _⟩ | ⟨_, hstop⟩⟩ := exists_head_of_run hrun
  · exact ⟨n, q₁, s₁, hhead, rfl⟩
  · refine ⟨n, q₁, s₁, hhead, ?_⟩
    rcases iterate_stop hstop with ⟨_, rfl, _⟩ | ⟨_, rfl, _, _⟩ | ⟨_, _, _, _, _, _, _, _, rfl⟩
    · rfl
    · rfl
    · rfl

/-- However a run ends, its reached states are those of a search of which every iteration keeps this. -/
theorem run_reached (Inv : Search R S → σ → Prop)
    (hstep : ∀ q s q' s', Inv q s → A.iterate p q s = .next q' s' → Inv q' s') {fuel : Nat}
    (hrun : A.run p fuel q s = (o, q', s')) (hinv : Inv q s) :
    ∃ q₁ s₁, Inv q₁ s₁ ∧ q'.reached = q₁.reached := by
  obtain ⟨_, q₁, s₁, hhead, heq⟩ := head_of_run hrun
  exact ⟨q₁, s₁, head_invariant Inv hstep hhead hinv, heq⟩

end Analysis

/-! ### One state at each node -/

/-- Reached sets in which a state is compared at least with the states at its location. -/
class ComparesLocally (R : Type) (S : outParam Type) [ReachedSet R S] [LawfulReachedSet R S] [Located S] :
    Prop where
  mem_comparable {r : R} {s x : S} : LawfulReachedSet.Valid r → x ∈ ReachedSet.states r →
    location x = location s → x ∈ ReachedSet.comparable r s

instance {S : Type} [DecidableEq S] [Located S] : ComparesLocally (OrderedSet S) S where
  mem_comparable _ hx _ := hx

instance {S : Type} [DecidableEq S] [Located S] : ComparesLocally (LocatedStates S) S where
  mem_comparable hv hx hloc := (LocatedStates.mem_statesAt hv).2 ⟨hx, hloc⟩

/-- A state merged with the only state at its node is covered by the result, which stays at the node. -/
def Operators.Unifying {S P : Type} [Located S] (O : Operators S P) : Prop :=
  ∀ (c r : S) (p : P), location c = location r →
    location (O.merge c r p) = location r ∧ O.stop c [O.merge c r p] p = true

/-- With reached sets of this kind, merging affects only the states at the node of a successor. If there is one, it
becomes a state there that covers the successor. -/
structure Operators.Uniting {S P : Type} (O : Operators S P) (R : Type) [ReachedSet R S] [LawfulReachedSet R S]
    [Located S] : Prop where
  location_merge {c r : S} (p : P) : location c = location r → location (O.merge c r p) = location r
  merge_apart {reached : R} {c r : S} (p : P) : LawfulReachedSet.Valid reached →
    r ∈ ReachedSet.comparable reached c → location c ≠ location r → O.merge c r p = r
  stop_merged {reached : R} {c r : S} (p : P) : LawfulReachedSet.Valid reached → location c = location r →
    (∀ x, x ∈ ReachedSet.states reached ∧ location x = location c ↔ x = O.merge c r p) →
      O.stop c (ReachedSet.comparable reached c) p = true

theorem Operators.Unifying.uniting {S P : Type} [DecidableEq S] [Located S] {O : Operators S P} (h : O.Unifying) :
    O.Uniting (LocatedStates S) where
  location_merge p hloc := (h _ _ p hloc).1
  merge_apart p hv hr hloc := absurd ((LocatedStates.mem_statesAt hv).1 hr).2.symm hloc
  stop_merged {reached c r} p hv hloc honly := by
    have hone : reached.statesAt (location c) = [O.merge c r p] := LocatedStates.statesAt_eq_singleton hv honly
    change O.stop c (reached.statesAt (location c)) p = true
    rw [hone]
    exact (h c r p hloc).2

namespace Search

/-- No two reached states are at the same node. -/
def Single {R S : Type} [ReachedSet R S] [Located S] (q : Search R S) : Prop :=
  ∀ s t, q.Reaches s → q.Reaches t → location s = location t → s = t

theorem Single.statesAt_eq {S : Type} [DecidableEq S] [Located S] {q : Search (LocatedStates S) S} (h : q.Single)
    (hv : q.Valid) {s : S} (hs : q.Reaches s) : q.reached.statesAt (location s) = [s] := by
  refine LocatedStates.statesAt_eq_singleton hv fun x => ⟨fun hx => h x s hx.1 hs hx.2, ?_⟩
  rintro rfl
  exact ⟨hs, rfl⟩

section Uniting

variable {R S P : Type} [ReachedSet R S] [LawfulReachedSet R S] [DecidableEq S] [Located S] {O : Operators S P}
  {q q' : Search R S} {c : S} {p : P}

/-- What becomes of a search when a successor is united with the state at its node. -/
inductive Unites (O : Operators S P) (p : P) (q : Search R S) (c : S) (q' : Search R S) : Prop
  /-- The state at the node stays as it is. -/
  | covered {r : S} : q.Reaches r → location c = location r → O.merge c r p = r → q' = q → Unites O p q c q'
  /-- The state at the node gives way to the merged one, which is pending. -/
  | raised {r : S} : q.Reaches r → location c = location r → O.merge c r p ≠ r →
    (∀ x, q'.Reaches x ↔ (x ≠ r ∧ q.Reaches x) ∨ x = O.merge c r p) →
    (∀ x, q'.Awaits x ↔ (x ≠ r ∧ q.Awaits x) ∨ x = O.merge c r p) → Unites O p q c q'
  /-- The node had no state, and the successor is pending. -/
  | fresh : (∀ r, q.Reaches r → location c ≠ location r) → q' = q.add c → Unites O p q c q'
  /-- The node had no state, and the successor is dropped. -/
  | dropped : (∀ r, q.Reaches r → location c ≠ location r) →
    O.stop c (ReachedSet.comparable q.reached c) p = true → q' = q → Unites O p q c q'

/-- Only the state at the node of the successor is replaced. -/
theorem mem_replacements_uniting (hO : O.Uniting R) (hv : q.Valid) {m : S × S} (hm : m ∈ q.replacements O p c) :
    q.Reaches m.1 ∧ location c = location m.1 ∧ m.2 = O.merge c m.1 p ∧ m.2 ≠ m.1 := by
  obtain ⟨hcomparable, hmerge, hne⟩ := mem_replacements.1 hm
  refine ⟨LawfulReachedSet.mem_of_comparable hv hcomparable, ?_, hmerge, hne⟩
  by_contra hloc
  exact hne (hmerge.trans (hO.merge_apart p hv hcomparable hloc))

theorem replacements_of_fresh (hO : O.Uniting R) (hv : q.Valid)
    (hfresh : ∀ r, q.Reaches r → location c ≠ location r) : q.replacements O p c = [] := by
  rw [List.eq_nil_iff_forall_not_mem]
  intro m hm
  obtain ⟨hr, hloc, _⟩ := mem_replacements_uniting hO hv hm
  exact hfresh m.1 hr hloc

/-- Nothing is added to the merged states if one of them is at the node of the successor. -/
theorem incorporate_of_merged (hO : O.Uniting R) (hv : q.Valid) {r : S} (hloc : location c = location r)
    (honly : ∀ x, (q.replace (q.replacements O p c)).Reaches x ∧ location x = location c ↔ x = O.merge c r p) :
    q.incorporate O p c = q.replace (q.replacements O p c) := by
  rcases incorporate_cases O p q c with ⟨_, heq⟩ | ⟨hstop, _⟩
  · exact heq
  · have hcovered := hO.stop_merged p (valid_replace (q.replacements O p c) hv) hloc honly
    exact absurd (hcovered.symm.trans hstop) (by decide)

/-- The only state that may be replaced is the one at the node of the successor. -/
theorem mem_replacements_of_single [ComparesLocally R S] (hO : O.Uniting R) (hv : q.Valid) (hs : q.Single) {r : S}
    (hr : q.Reaches r) (hloc : location c = location r) {m : S × S} :
    m ∈ q.replacements O p c ↔ m = (r, O.merge c r p) ∧ O.merge c r p ≠ r := by
  constructor
  · intro hm
    obtain ⟨hreached, hmloc, hmerge, hne⟩ := mem_replacements_uniting hO hv hm
    have heq : m.1 = r := hs m.1 r hreached hr (hmloc.symm.trans hloc)
    rw [heq] at hmerge hne
    exact ⟨Prod.ext heq hmerge, hmerge ▸ hne⟩
  · rintro ⟨rfl, hne⟩
    exact mem_replacements.2 ⟨ComparesLocally.mem_comparable hv hr hloc.symm, rfl, hne⟩

theorem unites_of_merge_eq [ComparesLocally R S] (hO : O.Uniting R) (hv : q.Valid) (hs : q.Single) {r : S}
    (hr : q.Reaches r) (hloc : location c = location r) (hmerge : O.merge c r p = r) :
    q.Unites O p c (q.incorporate O p c) := by
  have hnone : q.replacements O p c = [] := by
    rw [List.eq_nil_iff_forall_not_mem]
    intro m hm
    exact ((mem_replacements_of_single hO hv hs hr hloc).1 hm).2 hmerge
  have honly : ∀ x, q.Reaches x ∧ location x = location c ↔ x = r := by
    intro x
    constructor
    · rintro ⟨hx, hxc⟩
      exact hs x r hx hr (hxc.trans hloc)
    · rintro rfl
      exact ⟨hr, hloc.symm⟩
  have heq : q.incorporate O p c = q.replace (q.replacements O p c) := by
    refine incorporate_of_merged hO hv hloc ?_
    rw [hnone, hmerge]
    exact honly
  rw [hnone] at heq
  exact .covered hr hloc hmerge heq

theorem unites_of_merge_ne [ComparesLocally R S] (hO : O.Uniting R) (hv : q.Valid) (hs : q.Single) {r : S}
    (hr : q.Reaches r) (hloc : location c = location r) (hmerge : O.merge c r p ≠ r) :
    q.Unites O p c (q.incorporate O p c) := by
  have hold : ∀ x, x ∈ (q.replacements O p c).map (·.1) ↔ x = r := by
    intro x
    simp [mem_replacements_of_single hO hv hs hr hloc, hmerge, eq_comm]
  have hnew : ∀ x, x ∈ (q.replacements O p c).map (·.2) ↔ x = O.merge c r p := by
    intro x
    simp [mem_replacements_of_single hO hv hs hr hloc, hmerge, eq_comm]
  have hreaches : ∀ x, (q.replace (q.replacements O p c)).Reaches x ↔
      (x ≠ r ∧ q.Reaches x) ∨ x = O.merge c r p := by
    intro x
    rw [reaches_replace, hold, hnew]
  rw [incorporate_of_merged hO hv hloc ?_]
  · refine .raised hr hloc hmerge hreaches fun x => ?_
    rw [awaits_replace, hold, hnew]
  · intro x
    rw [hreaches x]
    constructor
    · rintro ⟨⟨hne, hx⟩ | heq, hxc⟩
      · exact absurd (hs x r hx hr (hxc.trans hloc)) hne
      · exact heq
    · rintro rfl
      exact ⟨.inr rfl, (hO.location_merge p hloc).trans hloc.symm⟩

theorem unites_incorporate [ComparesLocally R S] (hO : O.Uniting R) (hv : q.Valid) (hs : q.Single) (c : S) (p : P) :
    q.Unites O p c (q.incorporate O p c) := by
  by_cases hfresh : ∀ r, q.Reaches r → location c ≠ location r
  · have hnone : q.replacements O p c = [] := replacements_of_fresh hO hv hfresh
    rcases incorporate_cases O p q c with ⟨hstop, heq⟩ | ⟨_, heq⟩
    · rw [hnone] at hstop heq
      exact .dropped hfresh hstop heq
    · rw [hnone] at heq
      exact .fresh hfresh heq
  · push Not at hfresh
    obtain ⟨r, hr, hloc⟩ := hfresh
    by_cases hmerge : O.merge c r p = r
    · exact unites_of_merge_eq hO hv hs hr hloc hmerge
    · exact unites_of_merge_ne hO hv hs hr hloc hmerge

theorem Unites.single (hO : O.Uniting R) (h : q.Unites O p c q') (hs : q.Single) : q'.Single := by
  cases h with
  | covered _ _ _ heq | dropped _ _ heq =>
    rw [heq]
    exact hs
  | @raised r hr hloc _ hreaches _ =>
    have hstay : location (O.merge c r p) = location r := hO.location_merge p hloc
    -- a state that stays cannot be where the replaced one was
    have hother : ∀ y, y ≠ r → q.Reaches y → location y ≠ location (O.merge c r p) := by
      intro y hne hy heq
      exact hne (hs y r hy hr (heq.trans hstay))
    intro x y hx hy heq
    rcases (hreaches x).1 hx with ⟨hxr, hx⟩ | rfl <;> rcases (hreaches y).1 hy with ⟨hyr, hy⟩ | rfl
    · exact hs x y hx hy heq
    · exact absurd heq (hother x hxr hx)
    · exact absurd heq.symm (hother y hyr hy)
    · rfl
  | fresh hfresh heq =>
    rw [heq]
    intro x y hx hy hxy
    rcases reaches_add.1 hx with hx₁ | rfl <;> rcases reaches_add.1 hy with hy₁ | rfl
    · exact hs x y hx₁ hy₁ hxy
    · exact absurd hxy.symm (hfresh x hx₁)
    · exact absurd hxy (hfresh y hy₁)
    · rfl

theorem single_incorporateAll [ComparesLocally R S] (hO : O.Uniting R) (hs : q.Single) (hv : q.Valid) (p : P)
    (l : List S) : (q.incorporateAll O p l).Single := by
  induction l generalizing q with
  | nil => exact hs
  | cons c l ih => exact ih ((unites_incorporate hO hv hs c p).single hO hs) (valid_incorporate O p c hv)

end Uniting

end Search

/-- A run that merges all states at a node never keeps two of them. -/
theorem Analysis.run_single {σ R S P : Type} [ReachedSet R S] [LawfulReachedSet R S] [DecidableEq S] [Located S]
    [ComparesLocally R S] {A : Analysis σ S P} {p : P} {q q' : Search R S} {s s' : σ} {o : Outcome} {fuel : Nat}
    (hO : A.operators.Uniting R) (hrun : A.run p fuel q s = (o, q', s')) (h : q.Single) (hv : q.Valid) :
    q'.Single := by
  have hstep : ∀ (q : Search R S) (s : σ) (q' : Search R S) (s' : σ),
      q.Single ∧ q.Valid → A.iterate p q s = .next q' s' → q'.Single ∧ q'.Valid := by
    intro q s q' s' hq hnext
    obtain ⟨_, x, w, l, _, _, _, rfl⟩ := iterate_next hnext
    have hsingle : Search.Single ⟨q.reached, w⟩ := hq.1
    exact ⟨Search.single_incorporateAll hO hsingle hq.2 _ l, Search.valid_incorporateAll _ _ l hq.2⟩
  obtain ⟨q₁, _, hq, heq⟩ := run_reached (fun q _ => q.Single ∧ q.Valid) hstep hrun ⟨h, hv⟩
  intro x y hx hy
  unfold Search.Reaches at hx hy
  rw [heq] at hx hy
  exact hq.1 x y hx hy

end BytecodeFlow
