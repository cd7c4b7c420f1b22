import BytecodeFlow.Proofs.Memoisation
import BytecodeFlow.Proofs.RunCourse

/-! # How sessions change

Resolving a call, computing successors and running a procedure all change the session in the same restricted way: in
the end the same procedures are being analysed as before, blocks have only been added, and none for a procedure that
was being analysed all the time. With each nested run that is counted, one block has been added or one abort noted.
The argument follows the recursion, from calls to procedures; it does not matter whether a step fails.
-/
namespace BytecodeFlow

namespace BlockCache

variable {S P : Type} {c d : BlockCache S P} {m : Method} {k : S} {p : P} {b : Block S}

theorem size_eq_sum (c : BlockCache S P) : c.size = (c.procedures.map (·.2.length)).sum := by
  unfold size toList
  rw [List.length_flatMap]
  simp

theorem size_insertIn (c : BlockCache S P) (m : Method) (e : CacheEntry S P) :
    size ⟨insertIn m e c.procedures⟩ = c.size + 1 := by
  rw [size_eq_sum, size_eq_sum]
  induction c.procedures with
  | nil => rfl
  | cons g l ih =>
    unfold insertIn
    split
    · simp
      omega
    · simp only [List.map_cons, List.sum_cons, ih]
      omega

variable [DecidableEq S] [DecidableEq P]

theorem get?_congr (h : c.entriesOf m = d.entriesOf m) : c.get? m k p = d.get? m k p := by
  unfold get?
  rw [h]

theorem insert_of_none (h : c.get? m k p = none) :
    c.insert m k p b = ⟨insertIn m ⟨k, p, b⟩ c.procedures⟩ := by
  unfold insert
  rw [h]
  rfl

theorem get?_insert_of_none (h : c.get? m k p = none) : (c.insert m k p b).get? m k p = some b := by
  rw [get?_insert, if_pos ⟨rfl, rfl, rfl⟩, h]
  rfl

theorem prefix_insert (c : BlockCache S P) (m n : Method) (k : S) (p : P) (b : Block S) :
    c.entriesOf n <+: (c.insert m k p b).entriesOf n := by
  unfold insert
  split
  · exact List.prefix_rfl
  · rw [entriesOf_insertIn]
    split
    · rename_i hn
      rw [hn]
      exact List.prefix_append _ _
    · exact List.prefix_rfl

/-- A cache whose blocks have only been added to holds the same blocks. -/
theorem extends_of_prefix (h : ∀ m, c.entriesOf m <+: d.entriesOf m) : c.Extends d := by
  intro m k p b hget
  obtain ⟨more, hmore⟩ := h m
  obtain ⟨e, he, rfl⟩ := Option.map_eq_some_iff.1 hget
  unfold get?
  rw [← hmore, List.find?_append, he]
  rfl

end BlockCache

/-! ### What the log says -/

def Notice.isAbortedCallee : Notice → Bool
  | .notEntered _ .abortedCallee => true
  | _ => false

def Notice.entered? : Notice → Option (List Method)
  | .entered stack => some stack
  | _ => none

namespace Session

variable {S P : Type}

def abortedRuns (σ : Session S P) : Nat := σ.log.countP Notice.isAbortedCallee

def enteredStacks (σ : Session S P) : List (List Method) := σ.log.filterMap Notice.entered?

theorem abortedRuns_noteAll (l : List Notice) (σ : Session S P) :
    (σ.noteAll l).abortedRuns = σ.abortedRuns + l.countP Notice.isAbortedCallee :=
  List.countP_append

theorem enteredStacks_noteAll (l : List Notice) (σ : Session S P) :
    (σ.noteAll l).enteredStacks = σ.enteredStacks ++ l.filterMap Notice.entered? :=
  List.filterMap_append

end Session

namespace Interprocedural

variable {S P : Type} [DecidableEq S] [DecidableEq P] {A : Interprocedural S P} {nested : Runner S P}
  {σ τ υ : Session S P} {m : Method} {k s : S} {p p' : P} {fuel room : Nat} {d : Edge × Call}

/-! ### Calls -/

/-- The call is to be followed, and no block is cached for it. -/
structure Misses (A : Interprocedural S P) (s : S) (p : P) (d : Edge × Call) (σ : Session S P) (k : S) : Prop where
  absent : d.2.target ∉ σ.callStack
  shallow : A.depthReached σ.callStack.length = false
  reduced : A.reduce s d.1.target d.2 = .ok k
  missing : σ.cache.get? d.2.target k p = none

theorem Misses.resolve (h : A.Misses s p d σ k) (nested : Runner S P) :
    A.resolve nested s p d.1 d.2 σ = match nested d.2.target k p σ with
      | .error h τ => .error h τ
      | .ok run τ =>
        if run.aborted then .ok none (gaveUp d.2 .abortedCallee τ.countNested)
        else A.expandAll s d.1 d.2
          (((τ.cache.insert d.2.target k p run.block).get? d.2.target k p).getD run.block).exits
          (stored d.2.target k p run.block τ) := by
  rw [resolve_eq, if_neg h.absent, if_neg (by simp [h.shallow]), h.reduced]
  cases hrun : nested d.2.target k p σ <;> simp only [h.missing, hrun]

/-- The session after a call that was not in the cache: the run of the callee is taken into account. -/
theorem Misses.final_resolve (h : A.Misses s p d σ k) :
    (A.resolve nested s p d.1 d.2).final σ = match nested d.2.target k p σ with
      | .error _ τ => τ
      | .ok run τ =>
        if run.aborted then gaveUp d.2 .abortedCallee τ.countNested else stored d.2.target k p run.block τ := by
  have hresolve := h.resolve nested
  cases hrun : nested d.2.target k p σ with
  | error e τ =>
    rw [hrun] at hresolve
    exact (Effect.outcome_final_of_error hresolve).2
  | ok run τ =>
    rw [hrun] at hresolve
    simp only at hresolve ⊢
    split
    · rename_i haborted
      rw [if_pos haborted] at hresolve
      exact (Effect.outcome_final_of_ok hresolve).2
    · rename_i haborted
      rw [if_neg haborted] at hresolve
      rw [Effect.final_congr hresolve, final_expandAll]

/-- Otherwise a call is given up, fails at once, or is found in the cache. -/
theorem final_resolve_cases (A : Interprocedural S P) (nested : Runner S P) (s : S) (p : P) (d : Edge × Call)
    (σ : Session S P) :
    (∃ k, A.Misses s p d σ k) ∨ (A.resolve nested s p d.1 d.2).final σ = σ ∨
      (A.resolve nested s p d.1 d.2).final σ = σ.countHit ∨
      ∃ reason, reason ≠ .abortedCallee ∧ (A.resolve nested s p d.1 d.2).final σ = gaveUp d.2 reason σ := by
  have hresolve := resolve_eq A nested s p σ d
  by_cases hmem : d.2.target ∈ σ.callStack
  · rw [if_pos hmem] at hresolve
    exact .inr (.inr (.inr ⟨.recursion, nofun, (Effect.outcome_final_of_ok hresolve).2⟩))
  · by_cases hdepth : A.depthReached σ.callStack.length = true
    · rw [if_neg hmem, if_pos hdepth] at hresolve
      exact .inr (.inr (.inr ⟨.depthLimit, nofun, (Effect.outcome_final_of_ok hresolve).2⟩))
    · rw [if_neg hmem, if_neg hdepth] at hresolve
      cases hreduce : A.reduce s d.1.target d.2 with
      | error f =>
        rw [hreduce] at hresolve
        exact .inr (.inl (Effect.outcome_final_of_error hresolve).2)
      | ok k =>
        cases hget : σ.cache.get? d.2.target k p with
        | some b =>
          simp only [hreduce, hget] at hresolve
          rw [Effect.final_congr hresolve, final_expandAll]
          exact .inr (.inr (.inl rfl))
        | none => exact .inl ⟨k, hmem, by simpa using hdepth, hreduce, hget⟩

/-- When its run has ended, at most the block of the callee is added. -/
theorem Misses.prefix_resolve (h : A.Misses s p d σ k) (nested : Runner S P) (n : Method) :
    ((nested d.2.target k p).final σ).cache.entriesOf n <+:
      ((A.resolve nested s p d.1 d.2).final σ).cache.entriesOf n := by
  rw [h.final_resolve]
  cases hrun : nested d.2.target k p σ with
  | error e τ =>
    rw [(Effect.outcome_final_of_error hrun).2]
  | ok run τ =>
    rw [(Effect.outcome_final_of_ok hrun).2]
    simp only
    split
    · exact List.prefix_rfl
    · exact BlockCache.prefix_insert τ.cache d.2.target n k p run.block

/-! ### What steps change -/

/-- The same procedures are being analysed as before, and each of them has the same blocks. Other blocks have only
been added, and every counted run has added one or was aborted. -/
structure Evolves (σ τ : Session S P) : Prop where
  callStack : τ.callStack = σ.callStack
  entries (n : Method) : σ.cache.entriesOf n <+: τ.cache.entriesOf n
  guarded : ∀ n ∈ σ.callStack, τ.cache.entriesOf n = σ.cache.entriesOf n
  balance : τ.cache.size + τ.abortedRuns + σ.statistics.nestedRuns =
    σ.cache.size + σ.abortedRuns + τ.statistics.nestedRuns

/-- However a run of a procedure ends, the session has evolved, and the procedure has the same blocks. -/
def Enclosed (nested : Runner S P) : Prop :=
  ∀ m k p σ, Evolves σ ((nested m k p).final σ) ∧
    ((nested m k p).final σ).cache.entriesOf m = σ.cache.entriesOf m

omit [DecidableEq S] [DecidableEq P] in
theorem Evolves.refl (σ : Session S P) : Evolves σ σ := ⟨rfl, fun _ => List.prefix_rfl, fun _ _ => rfl, rfl⟩

omit [DecidableEq S] [DecidableEq P] in
theorem Evolves.trans (h : Evolves σ τ) (h' : Evolves τ υ) : Evolves σ υ where
  callStack := h'.callStack.trans h.callStack
  entries n := (h.entries n).trans (h'.entries n)
  guarded n hn := (h'.guarded n (h.callStack ▸ hn)).trans (h.guarded n hn)
  balance := by
    have hfirst := h.balance
    have hsecond := h'.balance
    omega

omit [DecidableEq S] [DecidableEq P] in
theorem Evolves.of_eq (hcache : τ.cache = σ.cache) (hstack : τ.callStack = σ.callStack)
    (hruns : τ.statistics.nestedRuns = σ.statistics.nestedRuns) (haborted : τ.abortedRuns = σ.abortedRuns) :
    Evolves σ τ := by
  constructor
  · exact hstack
  · intro n
    rw [hcache]
  · intro n _
    rw [hcache]
  · rw [hcache, hruns, haborted]

omit [DecidableEq S] [DecidableEq P] in
theorem evolves_gaveUp (c : Call) {reason : Fallback} (hreason : reason ≠ .abortedCallee) (σ : Session S P) :
    Evolves σ (gaveUp c reason σ) := by
  refine .of_eq rfl rfl rfl ((Session.abortedRuns_noteAll [.notEntered c reason] σ).trans ?_)
  cases reason with
  | abortedCallee => exact absurd rfl hreason
  | recursion => rfl
  | depthLimit => rfl

omit [DecidableEq S] [DecidableEq P] in
/-- An aborted run is counted and noted. -/
theorem Evolves.aborted (h : Evolves σ τ) (c : Call) : Evolves σ (gaveUp c .abortedCallee τ.countNested) where
  callStack := h.callStack
  entries := h.entries
  guarded := h.guarded
  balance := by
    have hnoted : (gaveUp c .abortedCallee τ.countNested).abortedRuns = τ.abortedRuns + 1 :=
      Session.abortedRuns_noteAll [.notEntered c .abortedCallee] τ
    have hbalance := h.balance
    rw [hnoted]
    change τ.cache.size + (τ.abortedRuns + 1) + _ = _ + (τ.statistics.nestedRuns + 1)
    omega

/-- A run that was not aborted is counted and adds a block. -/
theorem Evolves.stored (h : Evolves σ τ) (hm : m ∉ σ.callStack) (hget : τ.cache.get? m k p = none) (b : Block S) :
    Evolves σ (stored m k p b τ) := by
  have hcache : (Interprocedural.stored m k p b τ).cache =
      ⟨BlockCache.insertIn m ⟨k, p, b⟩ τ.cache.procedures⟩ := BlockCache.insert_of_none hget
  constructor
  · exact h.callStack
  · intro n
    exact (h.entries n).trans (BlockCache.prefix_insert τ.cache m n k p b)
  · intro n hn
    have hne : n ≠ m := fun heq => hm (heq ▸ hn)
    rw [hcache, BlockCache.entriesOf_insertIn, if_neg hne]
    exact h.guarded n hn
  · have hbalance := h.balance
    rw [hcache, BlockCache.size_insertIn]
    change τ.cache.size + 1 + τ.abortedRuns + _ = _ + (τ.statistics.nestedRuns + 1)
    omega

/-- While a callee is run, no block is added for it. -/
theorem Enclosed.missing (h : Enclosed nested) (hmiss : A.Misses s p d σ k) {r : ProcedureRun S}
    (hrun : nested d.2.target k p σ = .ok r τ) :
    Evolves σ τ ∧ τ.cache.entriesOf d.2.target = σ.cache.entriesOf d.2.target ∧
      τ.cache.get? d.2.target k p = none := by
  obtain ⟨hevolves, hsame⟩ := h d.2.target k p σ
  rw [(Effect.outcome_final_of_ok hrun).2] at hevolves hsame
  exact ⟨hevolves, hsame, (BlockCache.get?_congr hsame).trans hmiss.missing⟩

theorem Enclosed.resolve (h : Enclosed nested) (s : S) (p : P) (d : Edge × Call) (σ : Session S P) :
    Evolves σ ((A.resolve nested s p d.1 d.2).final σ) := by
  rcases final_resolve_cases A nested s p d σ with ⟨k, hmiss⟩ | heq | heq | ⟨reason, hreason, heq⟩
  · rw [hmiss.final_resolve]
    cases hrun : nested d.2.target k p σ with
    | error e τ =>
      have hevolves := (h d.2.target k p σ).1
      rwa [(Effect.outcome_final_of_error hrun).2] at hevolves
    | ok run τ =>
      obtain ⟨hevolves, _, hnone⟩ := h.missing hmiss hrun
      simp only
      split
      · exact hevolves.aborted d.2
      · exact hevolves.stored hmiss.absent hnone run.block
  · rw [heq]
    exact .refl σ
  · rw [heq]
    exact .of_eq rfl rfl rfl rfl
  · rw [heq]
    exact evolves_gaveUp d.2 hreason σ

variable [Located S]

theorem final_follow_invoke {e : Edge} (h : e.label.isInvoke = true) :
    (A.follow nested s p e).final σ = ((A.graph.knownCalls (location s)).mapM fun d =>
      A.resolve nested s p d.1 d.2).final (if A.apart (location s) then σ.countFallback else σ) := by
  unfold Effect.final
  rw [follow_invoke A nested s p σ h]
  cases ((A.graph.knownCalls (location s)).mapM fun d => A.resolve nested s p d.1 d.2)
      (if A.apart (location s) then σ.countFallback else σ) with
  | error e τ => rfl
  | ok results τ =>
    by_cases hcond : (A.apart (location s) || results.any Option.isNone) = true
    · simp only [if_pos hcond]
      cases A.along s e p <;> rfl
    · simp only [if_neg hcond]

theorem final_follow_plain {e : Edge} (h : e.label.isInvoke = false) : (A.follow nested s p e).final σ = σ := by
  rw [Effect.final_congr (follow_plain A nested s p σ h), Effect.final_ofExcept]

def arrive (A : Interprocedural S P) (nested : Runner S P) (s : S) (p : P) (e : Edge) :
    Effect (Session S P) (List S) := do
  return (← A.follow nested s p e).map (relocate e.target)

theorem final_arrive {e : Edge} : (A.arrive nested s p e).final σ = (A.follow nested s p e).final σ :=
  Effect.final_bind_pure _ _ _

theorem final_transfer : (A.transfer nested s p).final σ =
    ((A.graph.leavingIntraprocedural (location s)).mapM (A.arrive nested s p)).final σ :=
  Effect.final_bind_pure _ _ _

omit [DecidableEq S] [DecidableEq P] in
theorem evolves_apart (A : Interprocedural S P) (s : S) (σ : Session S P) :
    Evolves σ (if A.apart (location s) then σ.countFallback else σ) := by
  split
  · exact .of_eq rfl rfl rfl rfl
  · exact .refl σ

omit [DecidableEq S] [DecidableEq P] [Located S] in
theorem sequential_evolves : Sequential fun (σ : Session S P) _ τ => Evolves σ τ := ⟨.refl, .trans⟩

theorem Enclosed.arrive (h : Enclosed nested) (s : S) (p : P) (e : Edge) (σ : Session S P) :
    Evolves σ ((A.arrive nested s p e).final σ) := by
  rw [final_arrive]
  cases hinvoke : e.label.isInvoke with
  | true =>
    rw [final_follow_invoke hinvoke]
    exact (evolves_apart A s σ).trans
      (Effect.sequential_mapM (μ := fun _ _ => []) sequential_evolves fun d _ τ => h.resolve s p d τ)
  | false =>
    rw [final_follow_plain hinvoke]
    exact .refl σ

/-! ### What runs change -/

theorem Enclosed.transfer (h : Enclosed nested) (s : S) (p : P) (σ : Session S P) :
    Evolves σ ((A.transfer nested s p).final σ) := by
  rw [final_transfer]
  exact Effect.sequential_mapM (μ := fun _ _ => []) sequential_evolves fun e _ τ => h.arrive s p e τ

omit [DecidableEq S] [DecidableEq P] [Located S] in
theorem evolves_poll (σ : Session S P) : Evolves σ σ.poll.2 := .of_eq rfl rfl rfl rfl

theorem Enclosed.run (h : Enclosed nested) (p : P) (fuel : Nat) (q : Search (LocatedStates S) S) (σ : Session S P) :
    Evolves σ ((A.analysis nested).run p fuel q σ).2.2 :=
  Analysis.sequential_run (μ := fun _ _ _ => []) sequential_evolves .refl evolves_poll fun s p τ => h.transfer s p τ

omit [DecidableEq P] in
/-- Whatever happened in a procedure, once it is left the callers are being analysed as before. -/
theorem Evolves.leave (h : Evolves (σ.enter m) τ) (q : Search (LocatedStates S) S) (o : Outcome) :
    Evolves σ (τ.leave.noteAll (q.notices o)) := by
  have hnotices : (τ.leave.noteAll (q.notices o)).abortedRuns = τ.abortedRuns := by
    rw [Session.abortedRuns_noteAll]
    cases o <;> rfl
  have hentered : (σ.enter m).abortedRuns = σ.abortedRuns :=
    Session.abortedRuns_noteAll [.entered (σ.callStack ++ [m])] σ
  have hbalance := h.balance
  constructor
  · change τ.callStack.dropLast = σ.callStack
    rw [h.callStack]
    exact List.dropLast_concat
  · exact h.entries
  · intro n hn
    exact h.guarded n (List.mem_append_left _ hn)
  · rw [hnotices]
    rw [hentered] at hbalance
    exact hbalance

theorem final_runWith {q : Search (LocatedStates S) S} {o : Outcome}
    (hrun : (A.analysis nested).run p fuel (A.begin k) (σ.enter m) = (o, q, τ)) :
    (A.runWith fuel nested m k p).final σ = τ.leave.noteAll (q.notices o) := by
  unfold Effect.final
  rw [runWith_eq hrun]
  cases o <;> rfl

theorem enclosed_procedure (A : Interprocedural S P) (fuel room : Nat) : Enclosed (A.procedure fuel room) := by
  induction room with
  | zero => exact fun m k p σ => ⟨.refl σ, rfl⟩
  | succ room ih =>
    intro m k p σ
    rcases hrun : (A.analysis (A.procedure fuel room)).run p fuel (A.begin k) (σ.enter m) with ⟨o, q, τ⟩
    have hτ := ih.run (A := A) p fuel (A.begin k) (σ.enter m)
    rw [hrun] at hτ
    rw [procedure, final_runWith hrun]
    exact ⟨hτ.leave q o, hτ.guarded m (List.mem_append_right _ (List.mem_singleton_self m))⟩

/-! ### What an analysis changes -/

omit [DecidableEq S] [DecidableEq P] [Located S] in
theorem evolves_report (A : Interprocedural S P) (m : Method) (σ : Session S P) : Evolves σ (A.report m σ) := by
  unfold report
  split
  · exact .of_eq rfl rfl rfl (Session.abortedRuns_noteAll [.analyzed m σ.statistics σ.cache.size] σ)
  · exact .refl σ

/-- The session in which an analysis ends. -/
theorem final_analyze (A : Interprocedural S P) (fuel : Nat) (m : Method) (s : S) (p : P) (σ : Session S P) :
    (A.analyze fuel m s p).final σ =
      if A.graph.entry? m = some (location s) then match A.procedure fuel A.room m s p σ with
        | .error _ τ => τ
        | .ok run τ =>
          A.report m (if run.aborted then τ else { τ with cache := τ.cache.insert m s p run.block })
      else σ := by
  unfold Effect.final
  rw [analyze_eq]
  cases A.graph.entry? m with
  | none => rfl
  | some n =>
    by_cases hloc : location s = n
    · subst hloc
      simp only [ne_eq, not_true_eq_false, if_false, if_true]
      cases A.procedure fuel A.room m s p σ with
      | error h τ => rfl
      | ok run τ =>
        obtain ⟨b, aborted⟩ := run
        cases aborted <;> rfl
    · have hne : ¬ some n = some (location s) := fun h => hloc (Option.some.inj h).symm
      rw [if_neg hne]
      simp only [ne_eq, hloc, not_false_eq_true, if_true]

end Interprocedural

end BytecodeFlow
