import BytecodeFlow.Domain.Integer
import BytecodeFlow.Fixpoint.Relation
import BytecodeFlow.Proofs.Iteration
import Mathlib.Logic.Relation

/-! # Runs cover what they explore

A completed run has explored every reached state, and covers every successor that it has found. The
invariant is that a state which is reached and no longer pending has all its successors covered: merging
only moves reached states upwards, and a state that merging brings in is pending again.

The relation that a run follows may keep state of its own. What it says about the successors of a state
then refers to that state and has to remain true as it grows.
-/
namespace BytecodeFlow

class PreorderedDomain (S : Type) [Domain S] : Prop where
  le_refl (a : S) : Domain.le a a = true
  le_trans {a b c : S} : Domain.le a b = true → Domain.le b c = true → Domain.le a c = true

/-- Preordered domains in which the join of two states that can be joined covers both. -/
class LawfulJoinDomain (S : Type) [JoinDomain S] : Prop extends PreorderedDomain S where
  le_join_left {a b : S} : JoinDomain.joinable a b = true → Domain.le a (JoinDomain.join a b) = true
  le_join_right {a b : S} : JoinDomain.joinable a b = true → Domain.le b (JoinDomain.join a b) = true

namespace Operators

variable {S P : Type}

/-- Merging moves reached states upwards, covered states lie below a reached one, and states are
explored as they are. -/
structure Covering [Domain S] (O : Operators S P) : Prop where
  le_merge (c r : S) (p : P) : Domain.le r (O.merge c r p) = true
  covered {c : S} {l : List S} {p : P} : O.stop c l p = true → ∃ r ∈ l, Domain.le c r = true
  adjust_eq (s : S) (p : P) (l : List S) : O.adjust s p l = (s, p)

theorem covered_of_stopSep [Domain S] {c : S} {l : List S} (p : P) (h : stopSep c l p = true) :
    ∃ r ∈ l, Domain.le c r = true :=
  List.any_eq_true.1 h

theorem covering_sep [Domain S] [PreorderedDomain S] : (sep : Operators S P).Covering where
  le_merge _ r _ := PreorderedDomain.le_refl r
  covered {_ _ p} := covered_of_stopSep p
  adjust_eq _ _ _ := rfl

theorem covering_join [JoinDomain S] [LawfulJoinDomain S] : (join : Operators S P).Covering where
  le_merge c r _ := by
    change Domain.le r (if JoinDomain.joinable c r then JoinDomain.join c r else r) = true
    split
    · rename_i h
      exact LawfulJoinDomain.le_join_right h
    · exact PreorderedDomain.le_refl r
  covered {_ _ p} := covered_of_stopSep p
  adjust_eq _ _ _ := rfl

end Operators

namespace Search

variable {R S P : Type} [ReachedSet R S] [Domain S]

def Covers (q : Search R S) (s : S) : Prop := ∃ r, q.Reaches r ∧ Domain.le s r = true

/-- Nothing that was reached is lost, and what is reached and not pending was so before. -/
structure Advances (q q' : Search R S) : Prop where
  covers : ∀ s, q.Reaches s → q'.Covers s
  settled : ∀ s, q'.Reaches s → ¬ q'.Awaits s → q.Reaches s ∧ ¬ q.Awaits s
  dropped : ∀ s, q.Awaits s → q'.Awaits s ∨ q'.Covers s

variable [PreorderedDomain S]

theorem covers_of_reaches {q : Search R S} {s : S} (h : q.Reaches s) : q.Covers s :=
  ⟨s, h, PreorderedDomain.le_refl s⟩

theorem Covers.of_le {q : Search R S} {s t : S} (h : q.Covers t) (hst : Domain.le s t = true) :
    q.Covers s := by
  obtain ⟨r, hr, htr⟩ := h
  exact ⟨r, hr, PreorderedDomain.le_trans hst htr⟩

theorem Covers.mono {q q' : Search R S} {s : S} (h : q.Covers s)
    (hq : ∀ r, q.Reaches r → q'.Covers r) : q'.Covers s := by
  obtain ⟨r, hr, hsr⟩ := h
  exact (hq r hr).of_le hsr

theorem Advances.refl (q : Search R S) : q.Advances q :=
  ⟨fun _ h => covers_of_reaches h, fun _ h h' => ⟨h, h'⟩, fun _ h => .inl h⟩

theorem Advances.trans {q₁ q₂ q₃ : Search R S} (h : q₁.Advances q₂) (h' : q₂.Advances q₃) :
    q₁.Advances q₃ where
  covers s hs := (h.covers s hs).mono h'.covers
  settled s hs hw := (fun h₂ => h.settled s h₂.1 h₂.2) (h'.settled s hs hw)
  dropped s hs := by
    rcases h.dropped s hs with hs | hs
    · exact h'.dropped s hs
    · exact .inr (hs.mono h'.covers)

variable [LawfulReachedSet R S] [DecidableEq S] {O : Operators S P}

theorem advances_replace (hO : O.Covering) (q : Search R S) (p : P) (c : S) :
    q.Advances (q.replace (q.replacements O p c)) := by
  -- a replaced state lies below the one that takes its place
  have hold : ∀ s ∈ (q.replacements O p c).map (·.1),
      (q.replace (q.replacements O p c)).Covers s := by
    intro s hs
    obtain ⟨m, hm, rfl⟩ := List.mem_map.1 hs
    obtain ⟨_, heq, _⟩ := mem_replacements.1 hm
    refine ⟨m.2, reaches_replace.2 (.inr (List.mem_map.2 ⟨m, hm, rfl⟩)), ?_⟩
    rw [heq]
    exact hO.le_merge c m.1 p
  constructor
  · intro s hs
    by_cases h : s ∈ (q.replacements O p c).map (·.1)
    · exact hold s h
    · exact covers_of_reaches (reaches_replace.2 (.inl ⟨h, hs⟩))
  · exact fun _ hs hw => settled_replace hs hw
  · intro s hs
    by_cases h : s ∈ (q.replacements O p c).map (·.1)
    · exact .inr (hold s h)
    · exact .inl (awaits_replace.2 (.inl ⟨h, hs⟩))

theorem advances_add (q : Search R S) (c : S) : q.Advances (q.add c) where
  covers _ hs := covers_of_reaches (reaches_add.2 (.inl hs))
  settled _ hs hw := settled_add hs hw
  dropped _ hs := .inl (awaits_add.2 (.inl hs))

theorem advances_incorporate (hO : O.Covering) (q : Search R S) (p : P) (c : S) :
    q.Advances (q.incorporate O p c) := by
  have hreplace := advances_replace hO q p c
  rcases incorporate_cases O p q c with ⟨_, heq⟩ | ⟨_, heq⟩
  · rw [heq]
    exact hreplace
  · rw [heq]
    exact hreplace.trans (advances_add _ c)

theorem covers_incorporate (hO : O.Covering) {q : Search R S} (p : P) (c : S) (hv : q.Valid) :
    (q.incorporate O p c).Covers c := by
  rcases incorporate_cases O p q c with ⟨hstop, heq⟩ | ⟨_, heq⟩
  · rw [heq]
    obtain ⟨r, hr, hle⟩ := hO.covered hstop
    exact ⟨r, LawfulReachedSet.mem_of_comparable (valid_replace _ hv) hr, hle⟩
  · rw [heq]
    exact covers_of_reaches (reaches_add.2 (.inr rfl))

theorem advances_incorporateAll (hO : O.Covering) (q : Search R S) (p : P) (l : List S) :
    q.Advances (q.incorporateAll O p l) := by
  induction l generalizing q with
  | nil => exact .refl q
  | cons c l ih =>
    exact (advances_incorporate hO q p c).trans (ih (q.incorporate O p c))

theorem covers_incorporateAll (hO : O.Covering) {q : Search R S} (p : P) {l : List S}
    (hv : q.Valid) : ∀ c ∈ l, (q.incorporateAll O p l).Covers c := by
  induction l generalizing q with
  | nil => simp
  | cons d l ih =>
    have hv' := valid_incorporate O p d hv
    intro c hc
    rcases List.mem_cons.1 hc with rfl | hc
    · exact (covers_incorporate hO p c hv).mono (advances_incorporateAll hO _ p l).covers
    · exact ih hv' c hc

end Search

namespace Analysis

variable {σ R S P : Type} [ReachedSet R S] [LawfulReachedSet R S] [DecidableEq S] [Domain S]

/-- How an analysis accounts for the states that it explores: `I` is what it keeps true of its own
state, `ext` how that state grows, `U` what holds of every state of a run, and `post` what is known of
the successors that were found for a state. -/
structure Accounts (R : Type) [ReachedSet R S] [LawfulReachedSet R S] (A : Analysis σ S P) (p : P)
    (I : σ → Prop) (ext : σ → σ → Prop) (U : σ → S → Prop) (post : σ → S → List S → Prop) : Prop where
  ext_refl (s : σ) : ext s s
  ext_trans {s t u : σ} : ext s t → ext t u → ext s u
  mono {s t : σ} {x : S} : ext s t → U s x → U t x
  post_mono {s t : σ} {x : S} {l : List S} : ext s t → post s x l → post t x l
  poll {s : σ} : I s → I (A.poll s).2 ∧ ext s (A.poll s).2
  ok {s t : σ} {x : S} {l : List S} : I s → U s x → A.transfer x p s = .ok l t →
    I t ∧ ext s t ∧ post t x l ∧ ∀ c ∈ l, U t c
  error {s t : σ} {x : S} {f : Halt} : I s → U s x → A.transfer x p s = .error f t → I t ∧ ext s t
  merge {s : σ} {r : R} {c x : S} : LawfulReachedSet.Valid r → x ∈ ReachedSet.comparable r c →
    U s c → U s x → U s (A.operators.merge c x p)

def Settled (post : σ → S → List S → Prop) (s : σ) (q : Search R S) (x : S) : Prop :=
  ∃ l, post s x l ∧ ∀ c ∈ l, q.Covers c

structure Underway (I : σ → Prop) (ext : σ → σ → Prop) (U : σ → S → Prop)
    (post : σ → S → List S → Prop) (q₀ : Search R S) (s₀ : σ) (q : Search R S) (s : σ) : Prop where
  valid : q.Valid
  inv : I s
  ext : ext s₀ s
  all : q.All (U s)
  covers : ∀ x, q₀.Reaches x → q.Covers x
  settled : ∀ x, q.Reaches x → ¬ q.Awaits x → Settled post s q x
  started : ∀ x, q₀.Awaits x → q.Awaits x ∨ q.Covers x ∨ Settled post s q x

variable {A : Analysis σ S P} {p : P} {I : σ → Prop} {ext : σ → σ → Prop} {U : σ → S → Prop}
  {post : σ → S → List S → Prop} {q₀ q q' : Search R S} {s₀ s s' : σ} {o : Outcome}

omit [LawfulReachedSet R S] [DecidableEq S] in
theorem adjusted_eq (hO : A.operators.Covering) (q : Search R S) (x : S) :
    A.adjusted p q x = (x, p) := hO.adjust_eq _ _ _

variable [PreorderedDomain S]

omit [LawfulReachedSet R S] [DecidableEq S] in
theorem Settled.mono {x : S} (h : Settled post s q x) (hpost : ∀ l, post s x l → post s' x l)
    (hq : ∀ r, q.Reaches r → q'.Covers r) : Settled post s' q' x := by
  obtain ⟨l, hl, hcovers⟩ := h
  exact ⟨l, hpost l hl, fun c hc => (hcovers c hc).mono hq⟩

/-- One iteration: the explored state is settled, and whatever else was settled stays so. -/
theorem Accounts.step (hA : A.Accounts R p I ext U post) (hO : A.operators.Covering)
    (h : Underway I ext U post q₀ s₀ q s) (hnext : A.iterate p q s = .next q' s') :
    Underway I ext U post q₀ s₀ q' s' := by
  obtain ⟨s₁, x, w, l, hpoll, hpop, htransfer, rfl⟩ := iterate_next hnext
  rw [adjusted_eq hO] at htransfer ⊢
  simp only at htransfer ⊢
  obtain ⟨hI₁, hext₁⟩ := hA.poll h.inv
  rw [hpoll] at hI₁ hext₁
  have hawaits : ∀ y, q.Awaits y ↔ y = x ∨ y ∈ w.pending := fun y => Waitlist.mem_of_pop? hpop
  have hUx : U s₁ x := hA.mono hext₁ (h.all.pending x ((hawaits x).2 (.inl rfl)))
  obtain ⟨hI', hext', hpost, hUl⟩ := hA.ok hI₁ hUx htransfer
  have hgrow : ext s s' := hA.ext_trans hext₁ hext'
  let popped : Search R S := ⟨q.reached, w⟩
  have hadv : popped.Advances (popped.incorporateAll A.operators p l) :=
    Search.advances_incorporateAll hO popped p l
  have hx : Settled post s' (popped.incorporateAll A.operators p l) x :=
    ⟨l, hpost, Search.covers_incorporateAll hO p h.valid⟩
  have hkeep : ∀ y, Settled post s q y → Settled post s' (popped.incorporateAll A.operators p l) y :=
    fun y hy => hy.mono (fun _ => hA.post_mono hgrow) hadv.covers
  constructor
  · exact Search.valid_incorporateAll _ _ _ h.valid
  · exact hI'
  · exact hA.ext_trans h.ext hgrow
  · refine Search.all_incorporateAll ?_ hUl h.valid fun r c y hr hy hc hUy => hA.merge hr hy hc hUy
    exact ⟨fun y hy => hA.mono hgrow (h.all.reached y hy),
      fun y hy => hA.mono hgrow (h.all.pending y ((hawaits y).2 (.inr hy)))⟩
  · exact fun y hy => (h.covers y hy).mono hadv.covers
  · intro y hy hnot
    obtain ⟨hreached, hwait⟩ := hadv.settled y hy hnot
    by_cases hyx : y = x
    · exact hyx ▸ hx
    · exact hkeep y (h.settled y hreached fun hq => ((hawaits y).1 hq).elim hyx hwait)
  · intro y hy
    rcases h.started y hy with hq | hcov | hset
    · rcases (hawaits y).1 hq with rfl | hw
      · exact .inr (.inr hx)
      · exact (hadv.dropped y hw).imp_right .inl
    · exact .inr (.inl (hcov.mono hadv.covers))
    · exact .inr (.inr (hkeep y hset))

structure Finished (A : Analysis σ S P) (I : σ → Prop) (ext : σ → σ → Prop) (U : σ → S → Prop)
    (post : σ → S → List S → Prop) (q₀ : Search R S) (s₀ : σ) (o : Outcome) (q : Search R S) (s : σ) :
    Prop where
  valid : q.Valid
  inv : I s
  ext : ext s₀ s
  all : q.All (U s)
  covers : ∀ x, q₀.Reaches x → q.Covers x
  settled : o = .completed → ∀ x, q.Reaches x → Settled post s q x
  started : o = .completed → ∀ x, q₀.Awaits x → q.Covers x ∨ Settled post s q x
  aborted : o = .aborted → ∃ s₁, I s₁ ∧ (A.poll s₁).1 = true

theorem Accounts.stop (hA : A.Accounts R p I ext U post) (hO : A.operators.Covering)
    (h : Underway I ext U post q₀ s₀ q s) (hstop : A.iterate p q s = .stop o q' s') :
    Finished A I ext U post q₀ s₀ o q' s' := by
  obtain ⟨hIpoll, hextpoll⟩ := hA.poll h.inv
  have hextpoll' := hA.ext_trans h.ext hextpoll
  rcases iterate_stop hstop with ⟨rfl, rfl, hpoll⟩ | ⟨rfl, rfl, hpoll, hpop⟩ |
    ⟨s₁, x, w, f, rfl, hpoll, hpop, htransfer, rfl⟩
  · rw [hpoll] at hIpoll hextpoll hextpoll'
    exact ⟨h.valid, hIpoll, hextpoll', h.all.mono fun _ => hA.mono hextpoll, h.covers, nofun, nofun,
      fun _ => ⟨s, h.inv, by rw [hpoll]⟩⟩
  · rw [hpoll] at hIpoll hextpoll hextpoll'
    have hempty : ∀ x, ¬ q'.Awaits x := Waitlist.not_mem_of_pop?_eq_none hpop
    have hkeep : ∀ x, Settled post s q' x → Settled post s' q' x := fun x hx =>
      hx.mono (fun _ => hA.post_mono hextpoll) fun _ => Search.covers_of_reaches
    refine ⟨h.valid, hIpoll, hextpoll', h.all.mono fun _ => hA.mono hextpoll, h.covers, ?_, ?_, nofun⟩
    · exact fun _ x hx => hkeep x (h.settled x hx (hempty x))
    · intro _ x hx
      rcases h.started x hx with hw | hcov | hset
      · exact absurd hw (hempty x)
      · exact .inl hcov
      · exact .inr (hkeep x hset)
  · rw [adjusted_eq hO] at htransfer
    rw [hpoll] at hIpoll hextpoll hextpoll'
    have hawaits : ∀ y, q.Awaits y ↔ y = x ∨ y ∈ w.pending := fun y => Waitlist.mem_of_pop? hpop
    have hUx : U s₁ x := hA.mono hextpoll (h.all.pending x ((hawaits x).2 (.inl rfl)))
    obtain ⟨hI', hext'⟩ := hA.error hIpoll hUx htransfer
    have hgrow : ext s s' := hA.ext_trans hextpoll hext'
    refine ⟨h.valid, hI', hA.ext_trans h.ext hgrow, ⟨?_, ?_⟩, h.covers, nofun, nofun, nofun⟩
    · exact fun y hy => hA.mono hgrow (h.all.reached y hy)
    · exact fun y hy => hA.mono hgrow (h.all.pending y ((hawaits y).2 (.inr hy)))

/-- Every run keeps what its iterations keep, and a completed run has settled all that it reached. -/
theorem Accounts.run (hA : A.Accounts R p I ext U post) (hO : A.operators.Covering) (hv : q.Valid)
    (hI : I s) (hU : q.All (U s)) (hsettled : ∀ x, q.Reaches x → ¬ q.Awaits x → Settled post s q x)
    {fuel : Nat} (hrun : A.run p fuel q s = (o, q', s')) : Finished A I ext U post q s o q' s' := by
  have hstart : Underway I ext U post q s q s :=
    ⟨hv, hI, hA.ext_refl s, hU, fun _ => Search.covers_of_reaches, hsettled, fun _ => .inl⟩
  rcases run_invariant (Underway I ext U post q s) (fun _ _ _ _ => hA.step hO) hrun hstart with
    ⟨rfl, h⟩ | ⟨q₁, s₁, h, hstop⟩
  · exact ⟨h.valid, h.inv, h.ext, h.all, h.covers, nofun, nofun, nofun⟩
  · exact hA.stop hO h hstop

end Analysis

namespace Relation

variable {S P : Type}

def Steps (T : Relation S P) (p : P) (s c : S) : Prop := ∃ l, T s p = .ok l ∧ c ∈ l

def Monotone [Domain S] (T : Relation S P) (p : P) : Prop :=
  ∀ s t, Domain.le s t = true → ∀ c, T.Steps p s c → ∃ d, T.Steps p t d ∧ Domain.le c d = true

variable [DecidableEq S] [Domain S]

omit [Domain S] in
/-- A relation without state accounts for a state by listing all its successors. -/
theorem accounts (T : Relation S P) (O : Operators S P) (p : P) :
    (T.analysis O).Accounts (OrderedSet S) p (fun _ => True) (fun _ _ => True) (fun _ _ => True)
      (fun _ x l => ∀ c, T.Steps p x c → c ∈ l) where
  ext_refl _ := trivial
  ext_trans _ _ := trivial
  mono _ _ := trivial
  post_mono _ h := h
  poll _ := ⟨trivial, trivial⟩
  ok {s t x l} _ _ htransfer := by
    refine ⟨trivial, trivial, ?_, fun _ _ => trivial⟩
    rintro c ⟨l', hl', hc⟩
    change (Effect.ofExcept (T x p) : Effect _ _) _ = _ at htransfer
    rw [hl'] at htransfer
    obtain ⟨rfl, -⟩ := EStateM.Result.ok.inj htransfer
    exact hc
  error _ _ _ := ⟨trivial, trivial⟩
  merge _ _ _ _ := trivial

/-- A state below a reached one leads only to covered states, if all successors of reached states are
covered and the relation is monotone. -/
theorem covers_of_reachable [PreorderedDomain S] {T : Relation S P} {p : P}
    {q : Search (OrderedSet S) S} (hmono : T.Monotone p)
    (hclosed : ∀ r, q.Reaches r → ∀ c, T.Steps p r c → q.Covers c) {s c : S} (hs : q.Covers s)
    (hsteps : Relation.ReflTransGen (T.Steps p) s c) : q.Covers c := by
  induction hsteps with
  | refl => exact hs
  | tail _ hstep ih =>
    obtain ⟨r, hr, hle⟩ := ih
    obtain ⟨d, hd, hcd⟩ := hmono _ r hle _ hstep
    exact (hclosed r hr d hd).of_le hcd

/-- A completed run loses no reached state and leaves a reached set that is closed under the relation up to
coverage; under a monotone relation it covers all that can be reached from where it started. -/
theorem completed_run_covers {S P : Type} [DecidableEq S] [JoinDomain S] [LawfulJoinDomain S]
    (T : Relation S P) (O : Operators S P) (hO : O = .sep ∨ O = .join) (p : P) (R₀ : OrderedSet S)
    (W₀ : Waitlist S)
    (hstart : ∀ s ∈ R₀, s ∉ W₀.pending → ∀ c, T.Steps p s c → ∃ r ∈ R₀, Domain.le c r = true)
    {fuel : Nat} {j j' : Journal S P} {q : Search (OrderedSet S) S}
    (hrun : (T.analysis O).run p fuel ⟨R₀, W₀⟩ j = (.completed, q, j')) :
    (∀ s ∈ R₀, ∃ r ∈ q.reached, Domain.le s r = true) ∧
    (∀ r ∈ q.reached, ∀ c, T.Steps p r c → ∃ r' ∈ q.reached, Domain.le c r' = true) ∧
    (T.Monotone p → ∀ s, s ∈ R₀ ∨ s ∈ W₀.pending → ∀ c, Relation.TransGen (T.Steps p) s c →
      ∃ r ∈ q.reached, Domain.le c r = true) := by
  have hcovering : (T.analysis O).operators.Covering := by
    rcases hO with rfl | rfl
    · exact Operators.covering_sep
    · exact Operators.covering_join
  have hbegin : ∀ x, Search.Reaches ⟨R₀, W₀⟩ x → ¬ Search.Awaits (R := OrderedSet S) ⟨R₀, W₀⟩ x →
      Analysis.Settled (fun _ x l => ∀ c, T.Steps p x c → c ∈ l) j ⟨R₀, W₀⟩ x := by
    intro x hx hnot
    cases hT : T x p with
    | error f => exact ⟨[], fun c ⟨l, hl, _⟩ => by simp [hT] at hl, by simp⟩
    | ok l =>
      refine ⟨l, fun c ⟨l', hl', hc⟩ => ?_, fun c hc => ?_⟩
      · obtain rfl : l = l' := by simpa [hT] using hl'
        exact hc
      · exact hstart x hx hnot c ⟨l, hT, hc⟩
  have h := (accounts T O p).run hcovering trivial trivial ⟨fun _ _ => trivial, fun _ _ => trivial⟩
    hbegin hrun
  have hsettled : ∀ x, Analysis.Settled (fun _ x l => ∀ c, T.Steps p x c → c ∈ l) j' q x →
      ∀ c, T.Steps p x c → q.Covers c := fun x ⟨l, hl, hcovers⟩ c hc => hcovers c (hl c hc)
  have hclosed : ∀ r, q.Reaches r → ∀ c, T.Steps p r c → q.Covers c :=
    fun r hr => hsettled r (h.settled rfl r hr)
  refine ⟨h.covers, hclosed, ?_⟩
  intro hmono s hs c hsteps
  obtain ⟨d, hd, hrest⟩ := Relation.TransGen.head'_iff.1 hsteps
  have hcov : q.Covers s ∨ ∀ c, T.Steps p s c → q.Covers c := by
    rcases hs with hs | hs
    · exact .inl (h.covers s hs)
    · exact (h.started rfl s hs).imp_right (hsettled s)
  rcases hcov with hcov | hcov
  · exact covers_of_reachable hmono hclosed hcov (.head hd hrest)
  · exact covers_of_reachable hmono hclosed (hcov d hd) hrest

end Relation

instance : LawfulJoinDomain Counter where
  le_refl a := decide_eq_true (Int.le_refl a.value)
  le_trans h h' := decide_eq_true (Int.le_trans (of_decide_eq_true h) (of_decide_eq_true h'))
  le_join_left _ := decide_eq_true (Int.le_max_left _ _)
  le_join_right _ := decide_eq_true (Int.le_max_right _ _)

namespace Relation

/-- Counters that climb by two up to three, and fall back to one from there. -/
def climbing : Relation Counter Unit :=
  Rules.relation ⟨none, [(⟨3⟩, [⟨1⟩])], [fun s => ((IntegerRule.climb 2 3).apply s.value).map .mk]⟩

/-- Zero is reached, and one is pending besides it. -/
def climbingStart : Search (OrderedSet Counter) Counter :=
  ⟨.ofList [⟨0⟩], ⟨.depthFirst, .ofList [⟨0⟩, ⟨1⟩]⟩⟩

theorem completed_run_covers_climbing :
    ∃ q j', (climbing.analysis .join).run () 5 climbingStart ⟨.never, []⟩ = (.completed, q, j') ∧
      ∀ r ∈ q.reached, ∀ c, climbing.Steps () r c → ∃ r' ∈ q.reached, Domain.le c r' = true := by
  have hrun : (climbing.analysis .join).run () 5 climbingStart ⟨.never, []⟩ = (.completed, _, _) := rfl
  have hpending : ∀ s ∈ climbingStart.reached, s ∈ climbingStart.waiting.pending := by
    simp +contextual [climbingStart, OrderedSet.ofList]
  exact ⟨_, _, hrun, (completed_run_covers climbing .join (.inr rfl) () _ _
    (fun s hs hnot => absurd (hpending s hs) hnot) hrun).2.1⟩

end Relation

end BytecodeFlow
