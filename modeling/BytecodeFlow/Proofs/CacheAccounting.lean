import BytecodeFlow.Proofs.CallStack

/-! # What has been cached and what has been counted

A block that is cached stays. When a callee has to be run, no block for it is cached before its run has ended, since it
is on the call stack all the time; so its own block is cached then, and it is not run again from the same entry state.
Every run of a callee therefore adds a block, unless it is aborted, and so does every analysis whose block is new.
-/
namespace BytecodeFlow

/-- The blocks that do not come from runs of callees. -/
def Session.ownBlocks {S P : Type} (σ : Session S P) : Int :=
  σ.cache.size - (σ.statistics.nestedRuns - σ.abortedRuns)

namespace Interprocedural

variable {S P : Type} [DecidableEq S] [DecidableEq P] {A : Interprocedural S P} {σ τ υ : Session S P} {m : Method}
  {k s : S} {p : P} {fuel room n : Nat} {b : Block S} {d : Edge × Call}

omit [DecidableEq S] [DecidableEq P] in
theorem Evolves.ownBlocks (h : Evolves σ τ) : τ.ownBlocks = σ.ownBlocks := by
  have hbalance := h.balance
  unfold Session.ownBlocks
  omega

/-- Inserting a block adds one if its key is new. -/
theorem ownBlocks_insert (σ : Session S P) (m : Method) (k : S) (p : P) (b : Block S) :
    ({ σ with cache := σ.cache.insert m k p b } : Session S P).ownBlocks =
      σ.ownBlocks + (σ.cache.get? m k p).isNone.toNat := by
  unfold Session.ownBlocks
  change ((σ.cache.insert m k p b).size : Int) - (σ.statistics.nestedRuns - σ.abortedRuns) = _
  cases hget : σ.cache.get? m k p with
  | some b' =>
    have hsame : σ.cache.insert m k p b = σ.cache := by
      unfold BlockCache.insert
      rw [hget]
      rfl
    rw [hsame]
    exact (Int.add_zero _).symm
  | none =>
    rw [BlockCache.insert_of_none hget, BlockCache.size_insertIn, Option.isNone_none, Bool.toNat_true]
    omega

/-- Storing a block that is not cached adds it, and gives it back. -/
theorem store_of_none (hget : σ.cache.get? m k p = none) (b : Block S) :
    store m k p b σ = .ok b { σ with cache := ⟨BlockCache.insertIn m ⟨k, p, b⟩ σ.cache.procedures⟩ } := by
  have hinsert := BlockCache.insert_of_none (b := b) hget
  have hstored := BlockCache.get?_insert_of_none (b := b) hget
  change EStateM.Result.ok (((σ.cache.insert m k p b).get? m k p).getD b)
    { σ with cache := σ.cache.insert m k p b } = _
  rw [hstored, hinsert]
  rfl

theorem Misses.resolve_of_ok {nested : Runner S P} (h : A.Misses s p d σ k)
    (hrun : nested d.2.target k p σ = .ok ⟨b, false⟩ τ) (hget : τ.cache.get? d.2.target k p = none) :
    A.resolve nested s p d.1 d.2 σ = A.expandAll s d.1 d.2 b.exits (stored d.2.target k p b τ) := by
  have hstored := BlockCache.get?_insert_of_none (b := b) hget
  rw [h.resolve, hrun]
  simp only [hstored]
  rfl

/-- The run of a callee is counted once, and once more if it was aborted. -/
theorem Misses.counted {nested : Runner S P} (h : A.Misses s p d σ k) {run : ProcedureRun S}
    (hrun : nested d.2.target k p σ = .ok run τ) :
    ((A.resolve nested s p d.1 d.2).final σ).statistics.nestedRuns = τ.statistics.nestedRuns + 1 ∧
      ((A.resolve nested s p d.1 d.2).final σ).abortedRuns = τ.abortedRuns + run.aborted.toNat := by
  rw [h.final_resolve, hrun]
  obtain ⟨b, aborted⟩ := run
  cases aborted with
  | true => exact ⟨rfl, Session.abortedRuns_noteAll [.notEntered d.2 .abortedCallee] τ⟩
  | false => exact ⟨rfl, rfl⟩

/-- A context whose block has been cached is not run again. -/
theorem not_misses_of_grows (hgrows : Grows σ τ) (hget : σ.cache.get? d.2.target k p = some b) :
    ¬ A.Misses s p d τ k := by
  intro hmiss
  have hsome := hgrows d.2.target k p b hget
  rw [hmiss.missing] at hsome
  cases hsome

variable [Located S]

/-- Whether the analysis completes, without being aborted, and then finds no block for its key in the cache. -/
def adds (A : Interprocedural S P) (fuel : Nat) (m : Method) (s : S) (p : P) (σ : Session S P) : Bool :=
  A.graph.entry? m == some (location s) && match A.procedure fuel A.room m s p σ with
    | .ok run τ => !run.aborted && (τ.cache.get? m s p).isNone
    | .error _ _ => false

/-- Sessions that arise from `σ₀` by analyses, `n` of which have added a block of their own. Between two analyses the
abort signal may be changed. -/
inductive Course (A : Interprocedural S P) (σ₀ : Session S P) : Nat → Session S P → Prop
  | start : Course A σ₀ 0 σ₀
  | analyze {n : Nat} {σ : Session S P} (fuel : Nat) (m : Method) (s : S) (p : P) : Course A σ₀ n σ →
    Course A σ₀ (n + (A.adds fuel m s p σ).toNat) ((A.analyze fuel m s p).final σ)
  | signal {n : Nat} {σ : Session S P} (signal : AbortSignal) : Course A σ₀ n σ → Course A σ₀ n { σ with signal }

/-- An analysis adds at most one block to those of the callees. -/
theorem ownBlocks_analyze (A : Interprocedural S P) (fuel : Nat) (m : Method) (s : S) (p : P) (σ : Session S P) :
    ((A.analyze fuel m s p).final σ).ownBlocks = σ.ownBlocks + (A.adds fuel m s p σ).toNat := by
  unfold adds
  rw [final_analyze]
  by_cases hentry : A.graph.entry? m = some (location s)
  · have hτ := (enclosed_procedure A fuel A.room m s p σ).1.ownBlocks
    rw [if_pos hentry, hentry, beq_self_eq_true, Bool.true_and]
    cases hrun : A.procedure fuel A.room m s p σ with
    | error h τ =>
      rw [(Effect.outcome_final_of_error hrun).2] at hτ
      simp [hτ]
    | ok run τ =>
      rw [(Effect.outcome_final_of_ok hrun).2] at hτ
      simp only [(evolves_report A m _).ownBlocks]
      cases haborted : run.aborted with
      | true => simp [hτ]
      | false => simp [ownBlocks_insert, hτ]
  · rw [if_neg hentry]
    simp [hentry]

/-- From each moment of an analysis to the next, and to its end, blocks stay cached. -/
theorem along_analyze (hentry : A.graph.entry? m = some (location s)) :
    Along Grows σ (A.moments fuel A.room m s p σ) ((A.analyze fuel m s p).final σ) := by
  have hrun := along_moments A fuel A.room m s p σ
  have hlast : Grows ((A.procedure fuel A.room m s p).final σ) ((A.analyze fuel m s p).final σ) := by
    rw [final_analyze, if_pos hentry]
    cases hprocedure : A.procedure fuel A.room m s p σ with
    | error h τ =>
      rw [(Effect.outcome_final_of_error hprocedure).2]
      exact .refl τ
    | ok run τ =>
      rw [(Effect.outcome_final_of_ok hprocedure).2]
      refine Grows.trans ?_ (grows_report A m _)
      split
      · exact .refl τ
      · exact BlockCache.extends_insert _ _ _ _ _
  exact ⟨fun x hx => ⟨(hrun.between x hx).1, (hrun.between x hx).2.trans hlast⟩, hrun.pairwise, hrun.ends.trans hlast⟩

theorem grows_analyze (A : Interprocedural S P) (fuel : Nat) (m : Method) (s : S) (p : P) (σ : Session S P) :
    Grows σ ((A.analyze fuel m s p).final σ) := by
  by_cases hentry : A.graph.entry? m = some (location s)
  · exact (along_analyze hentry).ends
  · rw [final_analyze, if_neg hentry]
    exact .refl σ

theorem Course.grows (h : A.Course σ n τ) : Grows σ τ := by
  induction h with
  | start => exact .refl σ
  | analyze fuel m s p _ ih => exact ih.trans (grows_analyze A fuel m s p _)
  | signal _ _ ih => exact ih

theorem Course.ownBlocks (h : A.Course σ n τ) : τ.ownBlocks = σ.ownBlocks + n := by
  induction h with
  | start => exact (Int.add_zero _).symm
  | analyze fuel m s p _ ih =>
    rw [ownBlocks_analyze, ih]
    omega
  | signal _ _ ih => exact ih

/-- However analyses follow one another and end, a cached block stays, also from moment to moment. A callee that has to
be run finds no further block of its own at the end, so that its new block is cached and used, and never computed
again. Runs of callees that were not aborted, and analyses whose block was new, make up the size of the cache; each run
of a callee is counted where it ends. -/
theorem blocks_computed_once {S P : Type} [DecidableEq S] [DecidableEq P] [Located S] {A : Interprocedural S P}
    {signal : AbortSignal} {n : Nat} {σ : Session S P} (hσ : A.Course (.start signal) n σ) :
    (σ.cache.size : Int) = σ.statistics.nestedRuns - σ.abortedRuns + n ∧
      (∀ n τ, A.Course σ n τ → Grows σ τ) ∧
      (∀ fuel m s p, A.graph.entry? m = some (location s) →
        (σ :: (A.moments fuel A.room m s p σ ++ [(A.analyze fuel m s p).final σ])).Pairwise Grows) ∧
      (∀ fuel room s p d k τ run υ, A.Misses s p d τ k → A.procedure fuel room d.2.target k p τ = .ok run υ →
        ((A.resolve (A.procedure fuel room) s p d.1 d.2).final τ).statistics.nestedRuns =
            υ.statistics.nestedRuns + 1 ∧
          ((A.resolve (A.procedure fuel room) s p d.1 d.2).final τ).abortedRuns =
            υ.abortedRuns + run.aborted.toNat) ∧
      ∀ fuel room s p d k τ b υ, A.Misses s p d τ k →
        A.procedure fuel room d.2.target k p τ = .ok ⟨b, false⟩ υ →
        (∀ ρ ∈ A.moments fuel room d.2.target k p τ ++ [υ],
          ρ.cache.entriesOf d.2.target = τ.cache.entriesOf d.2.target) ∧
        (∃ ρ, store d.2.target k p b υ = .ok b ρ ∧
          ρ.cache.entriesOf d.2.target = τ.cache.entriesOf d.2.target ++ [⟨k, p, b⟩]) ∧
        A.resolve (A.procedure fuel room) s p d.1 d.2 τ =
          A.expandAll s d.1 d.2 b.exits (stored d.2.target k p b υ) ∧
        ∀ ρ, Grows (stored d.2.target k p b υ) ρ → ∀ s' d', d'.2.target = d.2.target → ¬ A.Misses s' p d' ρ k := by
  refine ⟨?_, fun _ _ hτ => hτ.grows, fun fuel m s p hentry => (along_analyze hentry).pairwise_all,
    fun _ _ _ _ _ _ _ _ _ hmiss hrun => hmiss.counted hrun, ?_⟩
  · have hown := hσ.ownBlocks
    have hempty : (Session.start signal : Session S P).ownBlocks = 0 := rfl
    rw [hempty] at hown
    unfold Session.ownBlocks at hown
    omega
  · intro fuel room s p d k τ b υ hmiss hrun
    obtain ⟨_, hsame, hnone⟩ := (enclosed_procedure A fuel room).missing hmiss hrun
    have hstored : (stored d.2.target k p b υ).cache.get? d.2.target k p = some b :=
      BlockCache.get?_insert_of_none hnone
    refine ⟨fun ρ hρ => ?_, ⟨_, store_of_none hnone b, ?_⟩, hmiss.resolve_of_ok hrun hnone, ?_⟩
    · rcases List.mem_append.1 hρ with hρ | hρ
      · exact entriesOf_of_mem_moments hρ d.2.target (List.mem_append_right _ (List.mem_singleton_self _))
      · rw [List.mem_singleton.1 hρ]
        exact hsame
    · rw [BlockCache.entriesOf_insertIn, if_pos rfl, hsame]
    · intro ρ hgrows s' d' htarget
      rw [← htarget] at hstored hgrows
      exact not_misses_of_grows hgrows hstored

end Interprocedural

namespace Interpreter

/-- After the analysis that was aborted inside the callee, another one. -/
def volleyRepeated : Session (MachineState (Powerset Nat)) Unit :=
  (volleyAnalysis.analyze 5 ping volleyEntry ()).final volleyAborted

def volleyReturn : MachineState (Powerset Nat) := ⟨6, .empty, .empty⟩

def volleyCall : Edge × Call := (⟨1, 3, 6, .call ⟨ping, 0, pong, .static⟩⟩, ⟨ping, 0, pong, .static⟩)

/-- The callee was run twice, since its first run was aborted; its caller was cached by the first analysis. -/
theorem blocks_computed_once_volley :
    volleyRepeated.statistics.nestedRuns = 2 ∧ volleyRepeated.abortedRuns = 1 ∧
      (volleyRepeated.cache.size : Int) = 2 - 1 + 1 ∧
      volleyAnalysis.Misses volleyEntry () volleyCall (volleyAborted.enter ping) volleyReturn ∧
      ∃ b τ, volleyAnalysis.procedure 5 1 pong volleyReturn () (volleyAborted.enter ping) = .ok ⟨b, false⟩ τ ∧
        ∀ ρ ∈ volleyAnalysis.moments 5 1 pong volleyReturn () (volleyAborted.enter ping),
          ρ.cache.entriesOf pong = [] := by
  have hcourse : volleyAnalysis.Course (.start (.atPolls [1])) (0 +
      (volleyAnalysis.adds 5 ping volleyEntry () (.start (.atPolls [1]))).toNat +
      (volleyAnalysis.adds 5 ping volleyEntry () volleyAborted).toNat) volleyRepeated :=
    .analyze 5 ping volleyEntry () (.analyze 5 ping volleyEntry () .start)
  have hfirst : volleyAnalysis.adds 5 ping volleyEntry () (.start (.atPolls [1])) = true := by decide +kernel
  have hsecond : volleyAnalysis.adds 5 ping volleyEntry () volleyAborted = false := by decide +kernel
  have hruns : volleyRepeated.statistics.nestedRuns = 2 := by decide +kernel
  have haborted : volleyRepeated.abortedRuns = 1 := by decide +kernel
  have hmiss : volleyAnalysis.Misses volleyEntry () volleyCall (volleyAborted.enter ping) volleyReturn := by
    constructor <;> decide +kernel
  obtain ⟨hsize, _, _, _, hmissed⟩ := Interprocedural.blocks_computed_once hcourse
  rw [hfirst, hsecond, hruns, haborted] at hsize
  refine ⟨hruns, haborted, hsize, hmiss, ?_⟩
  have hcompleted : (match volleyAnalysis.procedure 5 1 pong volleyReturn () (volleyAborted.enter ping) with
      | .ok run _ => !run.aborted
      | .error _ _ => false) = true := by
    decide +kernel
  cases hrun : volleyAnalysis.procedure 5 1 pong volleyReturn () (volleyAborted.enter ping) with
  | error e τ => simp [hrun] at hcompleted
  | ok run τ =>
    obtain ⟨b, aborted⟩ := run
    obtain rfl : aborted = false := by simpa [hrun] using hcompleted
    refine ⟨b, τ, rfl, fun ρ hρ => ?_⟩
    have hnone : (volleyAborted.enter ping).cache.entriesOf pong = [] := by decide +kernel
    have hsame := (hmissed 5 1 volleyEntry () volleyCall volleyReturn _ b τ hmiss hrun).1 ρ (List.mem_append_left _ hρ)
    exact hsame.trans hnone

end Interpreter

end BytecodeFlow
