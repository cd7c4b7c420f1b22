import BytecodeFlow.Proofs.SessionChange

/-! # The moments of an analysis

What can be seen of the session while a procedure is run: when an iteration or an edge begins, when a call is to be
resolved and when it has been, inside the runs of callees, and at the end. Blocks that are cached at one moment are
cached at all later ones. While a procedure is run no block is added for it or for its callers, and it is not entered
but at one of these moments.
-/
namespace BytecodeFlow

namespace Interprocedural

variable {S P : Type} [DecidableEq S] [DecidableEq P] {A : Interprocedural S P} {nested : Runner S P}
  {σ τ υ : Session S P} {m : Method} {k s : S} {p : P} {fuel room : Nat} {d : Edge × Call}

/-! ### Moments -/

/-- The entry state with which a call has to be run, if no block is cached for it. -/
def missed? (A : Interprocedural S P) (s : S) (p : P) (d : Edge × Call) (σ : Session S P) : Option S :=
  if d.2.target ∈ σ.callStack ∨ A.depthReached σ.callStack.length = true then none
  else match A.reduce s d.1.target d.2 with
    | .error _ => none
    | .ok k => if σ.cache.get? d.2.target k p = none then some k else none

theorem missed?_eq_some : A.missed? s p d σ = some k ↔ A.Misses s p d σ k := by
  unfold missed?
  constructor
  · intro h
    split at h
    · cases h
    · rename_i hfree
      rw [not_or, Bool.not_eq_true] at hfree
      cases hreduce : A.reduce s d.1.target d.2 with
      | error f => simp [hreduce] at h
      | ok k' =>
        by_cases hget : σ.cache.get? d.2.target k' p = none
        · simp only [hreduce, hget, if_true, Option.some.injEq] at h
          subst h
          exact ⟨hfree.1, hfree.2, hreduce, hget⟩
        · simp [hreduce, hget] at h
  · intro h
    rw [if_neg (by simp [h.absent, h.shallow]), h.reduced]
    simp only [h.missing, if_true]

abbrev Watch (S P : Type) := Method → S → P → Session S P → List (Session S P)

/-- The moments of resolving a call: when it begins, while the callee is run, and when it ends. -/
def callMoments (A : Interprocedural S P) (nested : Runner S P) (watch : Watch S P) (s : S) (p : P)
    (d : Edge × Call) (σ : Session S P) : List (Session S P) :=
  [σ] ++ ((match A.missed? s p d σ with
    | some k => watch d.2.target k p σ
    | none => []) ++ [(A.resolve nested s p d.1 d.2).final σ])

variable [Located S]

def edgeMoments (A : Interprocedural S P) (nested : Runner S P) (watch : Watch S P) (s : S) (p : P) (e : Edge)
    (σ : Session S P) : List (Session S P) :=
  [σ] ++ if e.label.isInvoke then
      Effect.momentsAll (fun d => A.resolve nested s p d.1 d.2) (A.callMoments nested watch s p)
        (A.graph.knownCalls (location s)) (if A.apart (location s) then σ.countFallback else σ)
    else []

def transferMoments (A : Interprocedural S P) (nested : Runner S P) (watch : Watch S P) (s : S) (p : P)
    (σ : Session S P) : List (Session S P) :=
  Effect.momentsAll (A.arrive nested s p) (A.edgeMoments nested watch s p)
    (A.graph.leavingIntraprocedural (location s)) σ

def moments (A : Interprocedural S P) (fuel : Nat) : Nat → Watch S P
  | 0 => fun _ _ _ _ => []
  | room + 1 => fun m k p σ =>
    (A.analysis (A.procedure fuel room)).moments (A.transferMoments (A.procedure fuel room) (A.moments fuel room)) p
      fuel (A.begin k) (σ.enter m)

/-! ### What holds of all moments -/

/-- What sequencing keeps holds of a run and its moments if it holds of calls, whether or not they have to be run. -/
theorem sequential_moments {watch : Watch S P} {X : Session S P → List (Session S P) → Session S P → Prop}
    (hX : Sequential X) (hhere : ∀ σ, X σ [σ] σ) (hpoll : ∀ σ : Session S P, X σ [] σ.poll.2)
    (hcount : ∀ σ : Session S P, X σ [] σ.countFallback)
    (hcall : ∀ n, ∀ d ∈ A.graph.knownCalls n, ∀ s p σ,
      X σ (A.callMoments nested watch s p d σ) ((A.resolve nested s p d.1 d.2).final σ))
    (q : Search (LocatedStates S) S) :
    X σ ((A.analysis nested).moments (A.transferMoments nested watch) p fuel q σ)
      ((A.analysis nested).run p fuel q σ).2.2 := by
  refine Analysis.sequential_run hX hhere hpoll fun s p τ => ?_
  change X τ _ ((A.transfer nested s p).final τ)
  rw [final_transfer]
  refine Effect.sequential_mapM hX fun e _ υ => ?_
  rw [final_arrive]
  refine hX.append (hhere υ) ?_
  cases hinvoke : e.label.isInvoke with
  | false =>
    rw [final_follow_plain hinvoke]
    exact hX.nil υ
  | true =>
    have hapart : X υ [] (if A.apart (location s) then υ.countFallback else υ) := by
      split
      · exact hcount υ
      · exact hX.nil υ
    rw [final_follow_invoke hinvoke]
    exact hX.append hapart (Effect.sequential_mapM hX fun d hd ρ => hcall (location s) d hd s p ρ)

/-- What holds where `I` does holds at all moments, if evolving keeps `I` and it holds at the moments of callees. -/
theorem Enclosed.watched (h : Enclosed nested) {watch : Watch S P} {I Q : Session S P → Prop}
    (hI : ∀ σ τ, I σ → Evolves σ τ → I τ) (hQ : ∀ σ, I σ → Q σ)
    (hcallee : ∀ n, ∀ d ∈ A.graph.knownCalls n, ∀ s p σ k, I σ → A.Misses s p d σ k →
      ∀ x ∈ watch d.2.target k p σ, Q x)
    (q : Search (LocatedStates S) S) (hσ : I σ) :
    ∀ x ∈ (A.analysis nested).moments (A.transferMoments nested watch) p fuel q σ, Q x := by
  have hall : Watched I Q σ ((A.analysis nested).moments (A.transferMoments nested watch) p fuel q σ)
      ((A.analysis nested).run p fuel q σ).2.2 := by
    refine sequential_moments sequential_watched ?_ ?_ ?_ ?_ q
    · intro τ hτ
      exact ⟨hτ, fun x hx => List.mem_singleton.1 hx ▸ hQ τ hτ⟩
    · exact fun τ hτ => ⟨hI τ _ hτ (evolves_poll τ), nofun⟩
    · exact fun τ hτ => ⟨hI τ _ hτ (.of_eq rfl rfl rfl rfl), nofun⟩
    · intro n d hd s p τ hτ
      have hresolve := hI τ _ hτ (h.resolve (A := A) s p d τ)
      refine ⟨hresolve, fun x hx => ?_⟩
      rcases List.mem_append.1 hx with hx | hx
      · exact List.mem_singleton.1 hx ▸ hQ τ hτ
      · rcases List.mem_append.1 hx with hx | hx
        · cases hmissed : A.missed? s p d τ with
          | none => simp [hmissed] at hx
          | some k =>
            rw [hmissed] at hx
            exact hcallee n d hd s p τ k hτ (missed?_eq_some.1 hmissed) x hx
        · exact List.mem_singleton.1 hx ▸ hQ _ hresolve
  exact (hall hσ).2

/-- While a procedure is run, no block is added for it or for its callers. -/
theorem entriesOf_of_mem_moments (hτ : τ ∈ A.moments fuel room m k p σ) :
    ∀ n ∈ σ.callStack ++ [m], τ.cache.entriesOf n = σ.cache.entriesOf n := by
  induction room generalizing m k p σ τ with
  | zero => cases hτ
  | succ room ih =>
    refine (enclosed_procedure A fuel room).watched (I := Evolves (σ.enter m)) (fun _ _ => .trans)
      (fun υ hυ => hυ.guarded) ?_ (A.begin k) (.refl _) τ hτ
    intro _ d _ s p υ k' hυ _ x hx n hn
    have hstack : υ.callStack = σ.callStack ++ [m] := hυ.callStack
    rw [ih hx n (List.mem_append_left _ (hstack ▸ hn))]
    exact hυ.guarded n hn

omit [Located S] in
theorem Evolves.grows (h : Evolves σ τ) : Grows σ τ := BlockCache.extends_of_prefix h.entries

/-- Blocks stay cached from each moment of a run to the next. -/
theorem along_moments (A : Interprocedural S P) (fuel room : Nat) (m : Method) (k : S) (p : P) (σ : Session S P) :
    Along Grows σ (A.moments fuel room m k p σ) ((A.procedure fuel room m k p).final σ) := by
  have hgrows : Sequential (Along (Grows (S := S) (P := P))) := sequential_along .refl .trans
  induction room generalizing m k p σ with
  | zero => exact along_nil (.refl σ)
  | succ room ih =>
    have henclosed := enclosed_procedure A fuel room
    have hhere : ∀ τ : Session S P, Along Grows τ [τ] τ := fun τ => along_singleton (.refl τ) (.refl τ) (.refl τ)
    have hrun : Along Grows (σ.enter m) (A.moments fuel (room + 1) m k p σ)
        ((A.analysis (A.procedure fuel room)).run p fuel (A.begin k) (σ.enter m)).2.2 := by
      refine sequential_moments hgrows hhere (fun τ => along_nil (evolves_poll τ).grows)
        (fun τ => along_nil (.refl τ)) ?_ (A.begin k)
      intro _ d _ s p τ
      have hresolve := (henclosed.resolve (A := A) s p d τ).grows
      refine hgrows.append (hhere τ) ?_
      cases hmissed : A.missed? s p d τ with
      | none => exact along_singleton hresolve (.refl _) hresolve
      | some k' =>
        have hstored := BlockCache.extends_of_prefix
          ((missed?_eq_some.1 hmissed).prefix_resolve (A.procedure fuel room))
        exact hgrows.append (ih d.2.target k' p τ) (along_singleton hstored (.refl _) hstored)
    rw [procedure, final_runWith rfl]
    exact ⟨hrun.between, hrun.pairwise, hrun.ends⟩

/-! ### Procedures that have been entered -/

/-- Procedures have been entered with further call stacks, all of which satisfy `X`. -/
def Entered (X : List Method → Prop) (σ τ : Session S P) : Prop :=
  ∃ l, τ.enteredStacks = σ.enteredStacks ++ l ∧ ∀ stack ∈ l, X stack

section Entered

variable {X Y : List Method → Prop}

omit [DecidableEq S] [DecidableEq P] [Located S]

theorem Entered.of_eq (h : τ.enteredStacks = σ.enteredStacks) : Entered X σ τ :=
  ⟨[], by rw [h, List.append_nil], nofun⟩

theorem Entered.trans (h : Entered X σ τ) (h' : Entered X τ υ) : Entered X σ υ := by
  obtain ⟨l, hl, hX⟩ := h
  obtain ⟨l', hl', hX'⟩ := h'
  refine ⟨l ++ l', by rw [hl', hl, List.append_assoc], fun stack hstack => ?_⟩
  exact (List.mem_append.1 hstack).elim (hX stack) (hX' stack)

theorem Entered.mono (h : Entered X σ τ) (hXY : ∀ stack, X stack → Y stack) : Entered Y σ τ := by
  obtain ⟨l, hl, hX⟩ := h
  exact ⟨l, hl, fun stack hstack => hXY stack (hX stack hstack)⟩

theorem enteredStacks_gaveUp (c : Call) (reason : Fallback) (σ : Session S P) :
    (gaveUp c reason σ).enteredStacks = σ.enteredStacks :=
  (Session.enteredStacks_noteAll [.notEntered c reason] σ).trans (List.append_nil _)

theorem enteredStacks_report (A : Interprocedural S P) (m : Method) (σ : Session S P) :
    (A.report m σ).enteredStacks = σ.enteredStacks := by
  unfold report
  split
  · exact (Session.enteredStacks_noteAll [.analyzed m σ.statistics σ.cache.size] σ).trans (List.append_nil _)
  · rfl

end Entered

omit [Located S] in
/-- Procedures are entered while a call is resolved only by running the callee. -/
theorem entered_resolve {X : List Method → Prop}
    (h : ∀ k, A.Misses s p d σ k → Entered X σ ((nested d.2.target k p).final σ)) :
    Entered X σ ((A.resolve nested s p d.1 d.2).final σ) := by
  rcases final_resolve_cases A nested s p d σ with ⟨k, hmiss⟩ | heq | heq | ⟨reason, _, heq⟩
  · have hnested := h k hmiss
    rw [hmiss.final_resolve]
    cases hrun : nested d.2.target k p σ with
    | error e τ => rwa [(Effect.outcome_final_of_error hrun).2] at hnested
    | ok run τ =>
      rw [(Effect.outcome_final_of_ok hrun).2] at hnested
      simp only
      split
      · exact hnested.trans (.of_eq (enteredStacks_gaveUp d.2 .abortedCallee τ.countNested))
      · exact hnested.trans (.of_eq rfl)
  · rw [heq]
    exact .of_eq rfl
  · rw [heq]
    exact .of_eq rfl
  · rw [heq]
    exact .of_eq (enteredStacks_gaveUp d.2 reason σ)

/-- The call stacks with which procedures have been entered are those of moments. -/
def Witnessed (σ : Session S P) (l : List (Session S P)) (τ : Session S P) : Prop :=
  Entered (fun stack => ∃ x ∈ l, x.callStack = stack) σ τ

omit [DecidableEq S] [DecidableEq P] [Located S] in
theorem sequential_witnessed : Sequential (Witnessed (S := S) (P := P)) where
  nil _ := .of_eq rfl
  append h h' := by
    refine (h.mono ?_).trans (h'.mono ?_)
    · rintro stack ⟨x, hx, hstack⟩
      exact ⟨x, List.mem_append_left _ hx, hstack⟩
    · rintro stack ⟨x, hx, hstack⟩
      exact ⟨x, List.mem_append_right _ hx, hstack⟩

theorem witnessed_moments (A : Interprocedural S P) (fuel room : Nat) (m : Method) (k : S) (p : P)
    (σ : Session S P) : Witnessed σ (A.moments fuel room m k p σ) ((A.procedure fuel room m k p).final σ) := by
  induction room generalizing m k p σ with
  | zero => exact .of_eq rfl
  | succ room ih =>
    have hrun : Witnessed (σ.enter m) (A.moments fuel (room + 1) m k p σ)
        ((A.analysis (A.procedure fuel room)).run p fuel (A.begin k) (σ.enter m)).2.2 := by
      refine sequential_moments sequential_witnessed (fun _ => .of_eq rfl) (fun _ => .of_eq rfl)
        (fun _ => .of_eq rfl) ?_ (A.begin k)
      intro _ d _ s p τ
      refine entered_resolve fun k' hmiss => (ih d.2.target k' p τ).mono ?_
      rintro stack ⟨x, hx, hstack⟩
      refine ⟨x, List.mem_append_right _ (List.mem_append_left _ ?_), hstack⟩
      rw [missed?_eq_some.2 hmiss]
      exact hx
    have henter : Witnessed σ (A.moments fuel (room + 1) m k p σ) (σ.enter m) := by
      refine ⟨[σ.callStack ++ [m]], Session.enteredStacks_noteAll [.entered (σ.callStack ++ [m])] σ, ?_⟩
      intro stack hstack
      refine ⟨σ.enter m, ?_, (List.mem_singleton.1 hstack).symm⟩
      cases fuel <;> exact List.mem_cons_self
    rw [procedure, final_runWith rfl]
    refine henter.trans (hrun.trans (.of_eq ((Session.enteredStacks_noteAll _ _).trans ?_)))
    cases ((A.analysis (A.procedure fuel room)).run p fuel (A.begin k) (σ.enter m)).1 <;> exact List.append_nil _

end Interprocedural

end BytecodeFlow
