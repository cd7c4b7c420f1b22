import BytecodeFlow.Proofs.Procedures

/-! # Where cached blocks come from

Every cached block holds what a completed run of its procedure has reached, and that run has found the successors
of each of these states. No laws of the domain are needed for this. The argument follows the recursion: resolving
a call, following an edge, computing successors, running a procedure, and any sequence of analyses.
-/
namespace BytecodeFlow

namespace Analysis

variable {σ R S P : Type} [ReachedSet R S] [DecidableEq S] {A : Analysis σ S P} {p : P} {q q' : Search R S}
  {s s' : σ} {o : Outcome} {fuel : Nat}

/-- What polling and computing successors keep true of the state of an analysis, a run keeps. -/
theorem run_keeps {I : σ → Prop} (hpoll : ∀ s, I s → I (A.poll s).2)
    (htransfer : ∀ x p, Effect.Keeps I (fun _ _ => True) (fun _ _ => True) (A.transfer x p))
    (hrun : A.run p fuel q s = (o, q', s')) (hs : I s) : I s' := by
  have hpolled : ∀ {s s₁ b}, I s → A.poll s = (b, s₁) → I s₁ := by
    intro s s₁ b hs heq
    have hkept := hpoll s hs
    rw [heq] at hkept
    exact hkept
  have hstep : ∀ (q : Search R S) s q' s', I s → A.iterate p q s = .next q' s' → I s' := by
    intro q s q' s' hs hnext
    obtain ⟨s₁, x, w, l, heq, _, hok, _⟩ := iterate_next hnext
    exact ((htransfer _ _).ok (hpolled hs heq) hok).1
  rcases run_invariant (fun _ s => I s) hstep hrun hs with ⟨_, h⟩ | ⟨q₁, s₁, h, hstop⟩
  · exact h
  · rcases iterate_stop hstop with ⟨_, _, heq⟩ | ⟨_, _, heq, _⟩ | ⟨s₂, x, w, f, _, heq, _, herror, _⟩
    · exact hpolled h heq
    · exact hpolled h heq
    · exact ((htransfer _ _).error (hpolled h heq) herror).1

variable [LawfulReachedSet R S]

/-- A completed run that does not adjust states has found the successors of each state that it has reached. -/
theorem transfer_of_completed (hadjust : ∀ x l, A.operators.adjust x p l = (x, p))
    (hstart : ∀ x, q.Reaches x → q.Awaits x) (hrun : A.run p fuel q s = (.completed, q', s')) :
    ∀ x, q'.Reaches x → ∃ s₁ l s₂, A.transfer x p s₁ = .ok l s₂ := by
  have hstep : ∀ (q : Search R S) s q' s',
      (∀ x, q.Reaches x → ¬ q.Awaits x → ∃ s₁ l s₂, A.transfer x p s₁ = .ok l s₂) →
      A.iterate p q s = .next q' s' →
      ∀ x, q'.Reaches x → ¬ q'.Awaits x → ∃ s₁ l s₂, A.transfer x p s₁ = .ok l s₂ := by
    intro q s q' s' h hnext x hx hnot
    obtain ⟨s₁, y, w, l, _, hpop, hok, rfl⟩ := iterate_next hnext
    obtain ⟨hx, hwait⟩ := Search.settled_incorporateAll _ _ l hx hnot
    by_cases hxy : x = y
    · have hadjusted : A.adjusted p q y = (x, p) := by
        rw [hxy]
        exact hadjust y _
      rw [hadjusted] at hok
      exact ⟨s₁, l, s', hok⟩
    · exact h x hx fun hq => ((Waitlist.mem_of_pop? hpop).1 hq).elim hxy hwait
  obtain ⟨_, h, _, hnone⟩ := run_completed
    (fun q _ => ∀ x, q.Reaches x → ¬ q.Awaits x → ∃ s₁ l s₂, A.transfer x p s₁ = .ok l s₂) hstep hrun
    fun x hx hnot => absurd (hstart x hx) hnot
  exact fun x hx => h x hx (hnone x)

theorem run_valid (hrun : A.run p fuel q s = (o, q', s')) (hv : q.Valid) : q'.Valid := by
  have hstep : ∀ (q : Search R S) s q' s', q.Valid → A.iterate p q s = .next q' s' → q'.Valid := by
    intro q s q' s' hv hnext
    obtain ⟨_, _, w, l, _, _, _, rfl⟩ := iterate_next hnext
    exact Search.valid_incorporateAll _ _ l hv
  obtain ⟨q₁, _, h, heq⟩ := run_reached (fun q _ => q.Valid) hstep hrun hv
  unfold Search.Valid
  rw [heq]
  exact h

end Analysis

namespace Interprocedural

variable {S P : Type} [DecidableEq S] [DecidableEq P] [Located S] {A : Interprocedural S P}
  {nested : Runner S P} {σ τ : Session S P} {m : Method} {k s : S} {p : P} {b : Block S}

/-- The block holds what a completed run of the procedure has reached from the entry state. -/
def Computed (A : Interprocedural S P) (m : Method) (k : S) (p : P) (b : Block S) : Prop :=
  ∃ (fuel room : Nat) (σ : Session S P) (q : Search (LocatedStates S) S) (τ : Session S P),
    (A.analysis (A.procedure fuel room)).run p fuel (A.begin k) (σ.enter m) = (.completed, q, τ) ∧
      b = A.block m q.reached

def Stored (A : Interprocedural S P) (σ : Session S P) : Prop :=
  ∀ m, ∀ e ∈ σ.cache.entriesOf m, A.Computed m e.entry e.precision e.block

abbrev Stores {α : Type} (A : Interprocedural S P) (c : Effect (Session S P) α) : Prop :=
  Effect.Keeps A.Stored (fun _ _ => True) (fun _ _ => True) c

/-- Running a procedure keeps all cached blocks computed, and unless it is aborted its block is so too. -/
def Fills (A : Interprocedural S P) (nested : Runner S P) : Prop :=
  ∀ m k p, Effect.Keeps A.Stored (fun _ _ => True)
    (fun _ run => run.aborted = false → A.Computed m k p run.block) (nested m k p)

theorem Stored.of_get? (h : A.Stored σ) (hget : σ.cache.get? m k p = some b) : A.Computed m k p b := by
  obtain ⟨e, he, rfl⟩ := Option.map_eq_some_iff.1 hget
  obtain ⟨rfl, rfl⟩ : e.entry = k ∧ e.precision = p := by simpa using List.find?_some he
  exact h m e (List.mem_of_find?_eq_some he)

theorem Stored.of_block? {id : BlockId} (h : A.Stored σ) (hb : σ.cache.block? id = some b) :
    ∃ k p, A.Computed id.method k p b := by
  obtain ⟨e, he, rfl⟩ := Option.map_eq_some_iff.1 hb
  exact ⟨e.entry, e.precision, h id.method e (List.mem_of_getElem? he)⟩

theorem Stored.insert (h : A.Stored σ) (hb : A.Computed m k p b) :
    A.Stored { σ with cache := σ.cache.insert m k p b } := by
  intro m' e he
  unfold BlockCache.insert at he
  split at he
  · exact h m' e he
  · rw [BlockCache.entriesOf_insertIn] at he
    split at he
    · rename_i hm
      subst hm
      rcases List.mem_append.1 he with he | he
      · exact h m' e he
      · rw [List.mem_singleton.1 he]
        exact hb
    · exact h m' e he

theorem Stored.expandAll (h : A.Stored σ) (d : Edge × Call) (exits : List S) :
    Effect.Leads A.Stored (fun _ _ => True) (fun _ _ => True) σ (A.expandAll s d.1 d.2 exits σ) := by
  rw [expandAll_eq]
  cases A.afterCall s d exits with
  | error f => exact ⟨h, trivial⟩
  | ok l => exact ⟨h, trivial, trivial⟩

theorem stores_mapM {α β : Type} {f : α → Effect (Session S P) β} {l : List α} (h : ∀ a ∈ l, A.Stores (f a)) :
    A.Stores (l.mapM f) := by
  have hall : Effect.Keeps A.Stored (fun _ _ => True) (fun _ bs => List.Forall₂ (fun _ _ => True) l bs)
      (l.mapM f) :=
    Effect.Keeps.mapM (fun _ => trivial) (fun _ _ => trivial) (fun _ _ => trivial) h
  intro σ hσ
  cases hc : l.mapM f σ with
  | error e τ => exact hall.error hσ hc
  | ok bs τ => exact ⟨(hall.ok hσ hc).1, trivial, trivial⟩

theorem Fills.resolve (h : A.Fills nested) (s : S) (p : P) (d : Edge × Call) :
    A.Stores (A.resolve nested s p d.1 d.2) := by
  intro σ hσ
  rw [resolve_eq]
  split
  · exact ⟨hσ, trivial, trivial⟩
  · split
    · exact ⟨hσ, trivial, trivial⟩
    · cases A.reduce s d.1.target d.2 with
      | error f => exact ⟨hσ, trivial⟩
      | ok k =>
        simp only
        cases σ.cache.get? d.2.target k p with
        | some b => exact Stored.expandAll (σ := σ.countHit) hσ d b.exits
        | none =>
          simp only
          cases hrun : nested d.2.target k p σ with
          | error h' τ => exact (h d.2.target k p).error hσ hrun
          | ok run τ =>
            obtain ⟨hτ, _, hcomputed⟩ := (h d.2.target k p).ok hσ hrun
            simp only
            split
            · exact ⟨hτ, trivial, trivial⟩
            · rename_i haborted
              have hstored : A.Stored (stored d.2.target k p run.block τ) :=
                hτ.insert (hcomputed (by simpa using haborted))
              exact hstored.expandAll d _

theorem Fills.follow (h : A.Fills nested) (s : S) (p : P) (e : Edge) :
    A.Stores (A.follow nested s p e) := by
  intro σ hσ
  by_cases hinvoke : e.label.isInvoke = true
  · rw [follow_invoke A nested s p σ hinvoke]
    have hstart : A.Stored (if A.apart (location s) then σ.countFallback else σ) := by
      split <;> exact hσ
    have hresolve : A.Stores ((A.graph.knownCalls (location s)).mapM fun d => A.resolve nested s p d.1 d.2) :=
      stores_mapM fun d _ => h.resolve s p d
    cases hresults : ((A.graph.knownCalls (location s)).mapM fun d => A.resolve nested s p d.1 d.2)
        (if A.apart (location s) then σ.countFallback else σ) with
    | error f τ => exact hresolve.error hstart hresults
    | ok results τ =>
      have hτ := (hresolve.ok hstart hresults).1
      simp only
      split
      · cases A.along s e p with
        | error f => exact ⟨hτ, trivial⟩
        | ok l => exact ⟨hτ, trivial, trivial⟩
      · exact ⟨hτ, trivial, trivial⟩
  · rw [follow_plain A nested s p σ (by simpa using hinvoke)]
    cases A.along s e p with
    | error f => exact ⟨hσ, trivial⟩
    | ok l => exact ⟨hσ, trivial, trivial⟩

theorem Fills.transfer (h : A.Fills nested) (s : S) (p : P) : A.Stores (A.transfer nested s p) := by
  have hparts : A.Stores ((A.graph.leavingIntraprocedural (location s)).mapM fun e => do
      return (← A.follow nested s p e).map (relocate e.target)) :=
    stores_mapM fun e _ => (h.follow s p e).map fun _ _ _ => trivial
  exact hparts.map fun _ _ _ => trivial

theorem fills_procedure (A : Interprocedural S P) (fuel room : Nat) : A.Fills (A.procedure fuel room) := by
  induction room with
  | zero => exact fun m k p σ hσ => ⟨hσ, trivial⟩
  | succ room ih =>
    intro m k p σ hσ
    rcases hrun : (A.analysis (A.procedure fuel room)).run p fuel (A.begin k) (σ.enter m) with ⟨o, q, τ⟩
    have hτ : A.Stored τ := Analysis.run_keeps (fun _ hs => hs) (fun x p => ih.transfer x p) hrun hσ
    change Effect.Leads _ _ _ σ (A.runWith fuel (A.procedure fuel room) m k p σ)
    rw [runWith_eq hrun]
    cases o with
    | halted h => exact ⟨hτ, trivial⟩
    | aborted => exact ⟨hτ, trivial, nofun⟩
    | completed => exact ⟨hτ, trivial, fun _ => ⟨fuel, room, σ, q, τ, hrun, rfl⟩⟩

theorem stored_analyze (A : Interprocedural S P) (fuel : Nat) (m : Method) (s : S) (p : P) :
    A.Stores (A.analyze fuel m s p) := by
  have hreport : ∀ {τ : Session S P}, A.Stored τ → A.Stored (A.report m τ) := by
    intro τ hτ
    unfold report
    split <;> exact hτ
  intro σ hσ
  rw [analyze_eq]
  cases A.graph.entry? m with
  | none => exact ⟨hσ, trivial⟩
  | some entry =>
    simp only
    split
    · exact ⟨hσ, trivial⟩
    · cases hrun : A.procedure fuel A.room m s p σ with
      | error h τ => exact (fills_procedure A fuel A.room m s p).error hσ hrun
      | ok run τ =>
        obtain ⟨hτ, _, hcomputed⟩ := (fills_procedure A fuel A.room m s p).ok hσ hrun
        simp only
        split
        · exact ⟨hreport hτ, trivial, trivial⟩
        · rename_i haborted
          exact ⟨hreport (hτ.insert (hcomputed (by simpa using haborted))), trivial, trivial⟩

/-- Whatever analyses have been made, all cached blocks have been computed. -/
theorem Visited.stored {allowed : AbortSignal → Prop} (h : A.Visited allowed σ) : A.Stored σ := by
  induction h with
  | start => exact nofun
  | analyze fuel m s p _ ih => exact ((stored_analyze A fuel m s p).final ih).1
  | signal _ _ ih => exact ih

theorem Computed.indexed (h : A.Computed m k p b) : b.reached.Indexed := by
  obtain ⟨_, _, _, q, _, hrun, rfl⟩ := h
  exact Analysis.run_valid hrun valid_begin

theorem Computed.mem_exits {n : NodeId} (h : A.Computed m k p b) (hexit : A.graph.returnExit? m = some n)
    (hs : b.reached.firstAt? n = some s) : s ∈ b.exits := by
  obtain ⟨_, _, _, q, _, _, rfl⟩ := h
  unfold block
  rw [hexit]
  exact List.mem_of_head? hs

/-- The successors of each state of a computed block have been found. -/
theorem Computed.transfer (h : A.Computed m k p b) (hadjust : ∀ x l, A.operators.adjust x p l = (x, p))
    (hs : s ∈ b.reached.all.toList) : ∃ nested σ l τ, A.transfer nested s p σ = .ok l τ := by
  obtain ⟨fuel, room, _, q, _, hrun, rfl⟩ := h
  have hstart : ∀ x, (A.begin k).Reaches x → (A.begin k).Awaits x := fun x hx =>
    awaits_begin.2 (reaches_begin.1 hx)
  obtain ⟨σ, l, τ, htransfer⟩ := Analysis.transfer_of_completed hadjust hstart hrun s hs
  exact ⟨_, σ, l, τ, htransfer⟩

end Interprocedural

end BytecodeFlow
