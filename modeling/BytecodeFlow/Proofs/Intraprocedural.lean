import BytecodeFlow.Proofs.CachedRuns
import BytecodeFlow.Proofs.CallStack
import BytecodeFlow.Proofs.FiniteDomains

/-! # Analyses that enter no callee

If runs may not be nested, or if there is nothing to call, every call is treated like an instruction. Following an
edge then comes to asking the edge relation once, with the same faults, and changes nothing else in the session that a
later decision depends on. The analysis of a procedure therefore goes on in lock-step with a run of the plain relation of
the flow graph: it finds the same states in the same order, asks the edge relation and the signal as often, and ends in
the same way. The edge relation may keep state of its own, which the two runs change alike.
-/
namespace BytecodeFlow

/-- The first block is stored alone. -/
theorem BlockCache.insert_empty {S P : Type} [DecidableEq S] [DecidableEq P] (m : Method) (k : S) (p : P)
    (b : Block S) :
    ((empty.insert m k p b).get? m k p).getD b = b ∧ (empty.insert m k p b).toList = [(⟨m, 0⟩, ⟨k, p, b⟩)] := by
  have hnone : (empty : BlockCache S P).get? m k p = none := rfl
  rw [get?_insert_of_none hnone, insert_of_none hnone]
  exact ⟨rfl, rfl⟩

namespace Effect

variable {σ τ α β : Type}

/-- A computation has ended like a step on a part of its state, and `I` holds then. -/
inductive Shows (I : σ → Prop) (part : σ → τ) : EStateM.Result Halt σ α → Except Fault α × τ → Prop
  | ok {a : α} {s : σ} : I s → Shows I part (.ok a s) (.ok a, part s)
  | error {f : Fault} {s : σ} : I s → Shows I part (.error (.fault f) s) (.error f, part s)

/-- From every state with `I` the computation ends like the step. -/
def Mirrors (I : σ → Prop) (part : σ → τ) (c : Effect σ α) (step : τ → Except Fault α × τ) : Prop :=
  ∀ s, I s → Shows I part (c s) (step (part s))

variable {I : σ → Prop} {part : σ → τ}

/-- A second step is made only if the first one has not failed. -/
theorem Mirrors.bind {c : Effect σ α} {step : τ → Except Fault α × τ} {d : α → Effect σ β}
    {next : α → τ → Except Fault β × τ} (h : Mirrors I part c step) (hd : ∀ a, Mirrors I part (d a) (next a)) :
    Mirrors I part (c >>= d) fun t => andThen (step t) next := by
  intro s hs
  rw [bind_eq]
  have hfirst := h s hs
  revert hfirst
  simp only
  generalize c s = result
  generalize step (part s) = first
  intro hfirst
  cases hfirst with
  | ok hs' => exact hd _ _ hs'
  | error hs' => exact .error hs'

theorem Mirrors.pure (a : α) : Mirrors I part (Pure.pure a) fun t => (.ok a, t) := fun _ hs => .ok hs

theorem Mirrors.map {c : Effect σ α} {step : τ → Except Fault α × τ} (h : Mirrors I part c step) (f : α → β) :
    Mirrors I part (c >>= fun a => Pure.pure (f a)) fun t => ((step t).1.map f, (step t).2) := by
  have hstep : (fun t => ((step t).1.map f, (step t).2)) = fun t => andThen (step t) fun a t => (.ok (f a), t) := by
    funext t
    rcases step t with ⟨_ | a, t⟩ <;> rfl
  rw [hstep]
  exact h.bind fun a => .pure (f a)

/-- Steps for the elements of a list, one after the other. -/
theorem Mirrors.gather {c : α → Effect σ (List β)} {step : α → τ → Except Fault (List β) × τ} {l : List α}
    (h : ∀ a ∈ l, Mirrors I part (c a) (step a)) :
    Mirrors I part (do return (← l.mapM c).flatten) (gather step l) := by
  induction l with
  | nil => exact .pure []
  | cons a l ih =>
    have hrest := ih fun b hb => h b (List.mem_cons_of_mem a hb)
    have hcons : (do return (← (a :: l).mapM c).flatten : Effect σ (List β)) =
        c a >>= fun bs => (do return (← l.mapM c).flatten : Effect σ (List β)) >>= fun cs => Pure.pure (bs ++ cs) := by
      simp
    rw [hcons]
    exact (h a List.mem_cons_self).bind fun bs => hrest.bind fun cs => .pure (bs ++ cs)

end Effect

namespace Interprocedural

variable {S P τ : Type}

/-! ### Calls that are not entered -/

/-- The first run that is nested would already be too deep, or there is no call that could be followed. -/
def Flat (A : Interprocedural S P τ) : Prop :=
  A.options.maxDepth = some 0 ∨ A.options.maxDepth = some 1 ∨ ∀ n, A.graph.knownCalls n = []

/-- Just this procedure is being analysed, with these blocks cached and with this signal. -/
structure Outermost (m : Method) (c : BlockCache S P) (signal : AbortSignal) (σ : Session S P τ) : Prop where
  callStack : σ.callStack = [m]
  cache : σ.cache = c
  signal : σ.signal = signal

/-- The session has only changed where no later decision depends on it. -/
structure Outermost.Same (σ ρ : Session S P τ) : Prop where
  callStack : ρ.callStack = σ.callStack
  cache : ρ.cache = σ.cache
  signal : ρ.signal = σ.signal
  relation : ρ.relation = σ.relation

variable [DecidableEq S] [DecidableEq P] {A : Interprocedural S P τ} {m : Method} {c : BlockCache S P}
  {signal : AbortSignal} {σ ρ : Session S P τ}

omit [DecidableEq S] [DecidableEq P] in
theorem Outermost.congr (h : Outermost m c signal σ) (hsame : Same σ ρ) : Outermost m c signal ρ :=
  ⟨hsame.callStack.trans h.callStack, hsame.cache.trans h.cache, hsame.signal.trans h.signal⟩

/-- A call is given up, and that is noted. -/
theorem Flat.resolve (hA : A.Flat) (nested : Runner S P τ) (s : S) (p : P) {n : NodeId} {d : Edge × Call}
    (hd : d ∈ A.graph.knownCalls n) (hσ : Outermost m c signal σ) :
    ∃ ρ, A.resolve nested s p d.1 d.2 σ = .ok none ρ ∧ Outermost.Same σ ρ := by
  have hdepth : A.depthReached σ.callStack.length = true := by
    unfold depthReached
    rw [hσ.callStack]
    rcases hA with h | h | h
    · rw [h]
      rfl
    · rw [h]
      rfl
    · rw [h] at hd
      cases hd
  rw [resolve_eq, if_pos hdepth]
  split
  · exact ⟨_, rfl, rfl, rfl, rfl, rfl⟩
  · exact ⟨_, rfl, rfl, rfl, rfl, rfl⟩

/-- All calls of a node are given up, one after the other. -/
theorem Flat.resolve_all (hA : A.Flat) (nested : Runner S P τ) (s : S) (p : P) {n : NodeId}
    {calls : List (Edge × Call)} (hcalls : ∀ d ∈ calls, d ∈ A.graph.knownCalls n) (hσ : Outermost m c signal σ) :
    ∃ ρ, (calls.mapM fun d => A.resolve nested s p d.1 d.2) σ = .ok (calls.map fun _ => none) ρ ∧
      Outermost.Same σ ρ := by
  induction calls generalizing σ with
  | nil => exact ⟨σ, rfl, rfl, rfl, rfl, rfl⟩
  | cons d calls ih =>
    obtain ⟨υ, hd, hsame⟩ := hA.resolve nested s p (hcalls d List.mem_cons_self) hσ
    obtain ⟨ρ, hrest, hsame'⟩ := ih (fun d' hd' => hcalls d' (List.mem_cons_of_mem d hd')) (hσ.congr hsame)
    refine ⟨ρ, ?_, hsame'.callStack.trans hsame.callStack, hsame'.cache.trans hsame.cache,
      hsame'.signal.trans hsame.signal, hsame'.relation.trans hsame.relation⟩
    rw [List.mapM_cons, Effect.bind_eq, hd]
    simp only [Effect.bind_eq, hrest]
    rfl

omit [DecidableEq S] [DecidableEq P] in
/-- Asking the edge relation changes its state and nothing else. -/
theorem mirrors_ask (A : Interprocedural S P τ) (s : S) (p : P) (e : Edge) :
    Effect.Mirrors (Outermost m c signal) (·.relation) (A.ask s p e) (A.relation s e p) := by
  intro σ hσ
  have hask : A.ask s p e σ =
      Effect.ofExcept (A.relation s e p σ.relation).1 { σ with relation := (A.relation s e p σ.relation).2 } := rfl
  have hkept : Outermost m c signal { σ with relation := (A.relation s e p σ.relation).2 } :=
    ⟨hσ.callStack, hσ.cache, hσ.signal⟩
  rw [hask]
  revert hkept
  generalize A.relation s e p σ.relation = answer
  intro hkept
  rcases answer with ⟨f | l, t⟩
  · exact .error hkept
  · exact .ok hkept

variable [Located S]

/-- Following an edge comes to what the edge relation gives: a call contributes nothing, and so the instruction is
followed as well. -/
theorem Flat.follow (hA : A.Flat) (nested : Runner S P τ) (s : S) (p : P) (e : Edge) :
    Effect.Mirrors (Outermost m c signal) (·.relation) (A.follow nested s p e) (A.relation s e p) := by
  cases hinvoke : e.label.isInvoke with
  | false =>
    rw [follow_of_plain A nested s p hinvoke]
    exact mirrors_ask A s p e
  | true =>
    intro σ hσ
    have hcounted : Outermost.Same σ (if A.apart (location s) then σ.countFallback else σ) := by
      split <;> exact ⟨rfl, rfl, rfl, rfl⟩
    obtain ⟨ρ, hresults, hsame⟩ := hA.resolve_all nested s p (fun _ hd => hd) (hσ.congr hcounted)
    -- a node without calls is followed apart from them, and otherwise some call was given up
    have hcond : (A.apart (location s) ||
        ((A.graph.knownCalls (location s)).map fun _ => (none : Option (List S))).any Option.isNone) = true := by
      unfold apart
      cases A.graph.knownCalls (location s) with
      | nil => rfl
      | cons d l => simp
    have hempty : ((A.graph.knownCalls (location s)).map fun _ => (none : Option (List S))).flatMap (·.getD []) =
        [] := by simp
    have hfollow : A.follow nested s p e σ = A.ask s p e ρ := by
      rw [follow_of_invoke A nested s p σ hinvoke, hresults]
      simp only [if_pos hcond, hempty, List.nil_append]
      cases A.ask s p e ρ <;> rfl
    have hasked := mirrors_ask A s p e ρ ((hσ.congr hcounted).congr hsame)
    simp only [hsame.relation, hcounted.relation] at hasked
    rw [hfollow]
    exact hasked

/-- So do all edges of a node, and thus the relation of the flow graph. -/
theorem Flat.transfer (hA : A.Flat) (nested : Runner S P τ) (s : S) (p : P) :
    Effect.Mirrors (Outermost m c signal) (·.relation) (A.transfer nested s p) (A.graph.relation A.relation s p) :=
  Effect.Mirrors.gather fun e _ => (hA.follow nested s p e).map (List.map (relocate e.target))

/-- As long as no callee is entered, the analysis inside a procedure decides like the plain relation. -/
theorem Flat.alike (hA : A.Flat) (nested : Runner S P τ) (m : Method) (c : BlockCache S P) :
    ((A.graph.relation A.relation).analysis A.operators).Alike (A.analysis nested)
      (fun (j, t) σ => Outermost m c j.signal σ ∧ σ.relation = t) where
  operators := rfl
  poll {s σ} hσ := by
    obtain ⟨j, t⟩ := s
    obtain ⟨hσ, hrelation⟩ := hσ
    change j.signal.poll.1 = σ.signal.poll.1 ∧
      Outermost m c j.signal.poll.2 { σ with signal := σ.signal.poll.2 } ∧ σ.relation = t
    rw [hσ.signal]
    exact ⟨rfl, ⟨hσ.callStack, hσ.cache, rfl⟩, hrelation⟩
  transfer {s σ} x p hσ := by
    obtain ⟨j, t⟩ := s
    obtain ⟨hσ, rfl⟩ := hσ
    have hmirrors := hA.transfer nested x p σ hσ
    have hplain : ((A.graph.relation A.relation).analysis A.operators).transfer x p (j, σ.relation) =
        Effect.ofExcept (A.graph.relation A.relation x p σ.relation).1
          ({ j with explored := j.explored ++ [(x, p)] }, (A.graph.relation A.relation x p σ.relation).2) := rfl
    rw [Effect.outcome_congr hplain, Effect.final_congr hplain, Effect.outcome_ofExcept, Effect.final_ofExcept]
    have hanalysis : (A.analysis nested).transfer x p = A.transfer nested x p := rfl
    rw [hanalysis]
    revert hmirrors
    generalize A.graph.relation A.relation x p σ.relation = answer
    generalize hresult : A.transfer nested x p σ = result
    intro hmirrors
    cases hmirrors with
    | ok hρ =>
      obtain ⟨hout, hfinal⟩ := Effect.outcome_final_of_ok hresult
      rw [hout, hfinal]
      exact ⟨rfl, hρ, rfl⟩
    | error hρ =>
      obtain ⟨hout, hfinal⟩ := Effect.outcome_final_of_error hresult
      rw [hout, hfinal]
      exact ⟨rfl, hρ, rfl⟩

/-! ### Analyses of one procedure -/

omit [DecidableEq S] [DecidableEq P] [Located S] in
theorem report_keeps (A : Interprocedural S P τ) (m : Method) (σ : Session S P τ) :
    (A.report m σ).cache = σ.cache ∧ (A.report m σ).signal = σ.signal ∧ (A.report m σ).relation = σ.relation := by
  unfold report
  split <;> exact ⟨rfl, rfl, rfl⟩

omit [DecidableEq S] [DecidableEq P] in
theorem exits_block (A : Interprocedural S P τ) (m : Method) {reached : LocatedStates S} (h : reached.Indexed) :
    (A.block m reached).exits =
      (A.graph.returnExit? m).elim [] (fun n => reached.all.toList.filter fun x => location x = n) := by
  unfold block
  cases A.graph.returnExit? m with
  | none => rfl
  | some n => exact h n

/-- Where no callee is entered, analysing a procedure is the plain run inside it: it fails in the same way, or gives a
block with the same reached states in the same order, whose exits are those at the return exit of the procedure. The
edge relation, which may keep state, and the signal are asked alike, and the block is cached just in case the plain
run completes. -/
theorem analyze_intraprocedural (hA : A.Flat) {s : S} {p : P} {fuel : Nat} {o : Outcome}
    {q : Search (LocatedStates S) S} {j : Journal S P} {t : τ} (hentry : A.graph.entry? m = some (location s))
    (hcache : σ.cache = .empty) (hstack : σ.callStack = [])
    (hrun : ((A.graph.relation A.relation).analysis A.operators).run p fuel (A.begin s)
      (⟨σ.signal, []⟩, σ.relation) = (o, q, j, t)) :
    (∀ h, (A.analyze fuel m s p).outcome σ = .error h ↔ o = .halted h) ∧
    (∀ r, (A.analyze fuel m s p).outcome σ = .ok r → r.block.reached = q.reached ∧
      r.block.exits = (A.graph.returnExit? m).elim [] (fun n => q.reached.all.toList.filter fun x => location x = n) ∧
      (o = .completed → ((A.analyze fuel m s p).final σ).cache.toList = [(⟨m, 0⟩, ⟨s, p, r.block⟩)])) ∧
    (o ≠ .completed → ((A.analyze fuel m s p).final σ).cache = .empty) ∧
    ((A.analyze fuel m s p).final σ).signal = j.signal ∧ ((A.analyze fuel m s p).final σ).relation = t := by
  obtain ⟨room, hroom⟩ : ∃ n, A.room = n + 1 := by
    have hmem := List.length_pos_of_mem (FlowGraph.mem_entered_of_entry hentry)
    exact ⟨A.room - 1, (Nat.succ_pred_eq_of_pos hmem).symm⟩
  have hσ : Outermost m .empty σ.signal (σ.enter m) := ⟨congrArg (· ++ [m]) hstack, hcache, rfl⟩
  obtain ⟨ρ, hnested, hρ, hrelation⟩ := (hA.alike (A.procedure fuel room) m .empty).run ⟨hσ, rfl⟩ hrun
  have hprocedure : A.procedure fuel A.room m s p σ = A.conclude m o q ρ := by
    rw [hroom]
    exact runWith_eq hnested
  have hvalid : q.reached.Indexed := Analysis.run_valid hrun valid_begin
  have hanalyze := analyze_eq A fuel m s p σ
  rw [hentry, hprocedure] at hanalyze
  simp only [ne_eq, not_true_eq_false, if_false] at hanalyze
  cases o with
  | halted e =>
    obtain ⟨hout, hfinal⟩ := Effect.outcome_final_of_error hanalyze
    rw [hout, hfinal]
    exact ⟨fun h => by simp, (fun r hr => by cases hr), fun _ => hρ.cache, hρ.signal, hrelation⟩
  | aborted =>
    obtain ⟨hout, hfinal⟩ := Effect.outcome_final_of_ok hanalyze
    obtain ⟨hkept, hsignal, hasked⟩ := report_keeps A m (ρ.leave.noteAll (q.notices .aborted))
    rw [hout, hfinal, hkept, hsignal, hasked]
    refine ⟨fun h => by simp, ?_, fun _ => hρ.cache, hρ.signal, hrelation⟩
    rintro r ⟨⟩
    exact ⟨rfl, exits_block A m hvalid, fun h => by cases h⟩
  | completed =>
    have hempty : (ρ.leave.noteAll (q.notices .completed)).cache = .empty := hρ.cache
    simp only [conclude, Bool.false_eq_true, if_false, hempty, (BlockCache.insert_empty m s p _).1] at hanalyze
    obtain ⟨hout, hfinal⟩ := Effect.outcome_final_of_ok hanalyze
    obtain ⟨hkept, hsignal, hasked⟩ := report_keeps A m
      { ρ.leave.noteAll (q.notices .completed) with cache := BlockCache.empty.insert m s p (A.block m q.reached) }
    rw [hout, hfinal, hkept, hsignal, hasked]
    refine ⟨fun h => by simp, ?_, fun h => absurd rfl h, hρ.signal, hrelation⟩
    rintro r ⟨⟩
    exact ⟨rfl, exits_block A m hvalid, fun _ => (BlockCache.insert_empty m s p _).2⟩

end Interprocedural

namespace Interpreter

/-- The creator, whose call of the identity must not be followed; the edge relation remembers the edges that it was
asked about. -/
def creatorFlat : Interprocedural (MachineState (Powerset Nat)) Unit (List Nat) where
  graph := creatorGraph
  relation s e _ asked := (s.along counting e, asked ++ [e.id])
  operators := .join
  reduce := MachineState.reduce
  expand s x _ call := s.expand x call
  options := ⟨some 1, .depthFirst, false⟩

/-- The plain run inside the creator, with its call taken as an instruction. -/
def creatorPlain (signal : AbortSignal) :=
  ((creatorFlat.graph.relation creatorFlat.relation).analysis creatorFlat.operators).run () 9
    (creatorFlat.begin (creatorEntry 0)) (⟨signal, []⟩, [])

/-- The creator has a call that could be followed. Its analysis completes with four states and one block after asking
about three edges, and one that is aborted at the third poll leaves no block behind. -/
theorem analyze_intraprocedural_creator :
    (creatorGraph.knownCalls 8).length = 1 ∧ (creatorPlain .never).1 = .completed ∧
      (creatorPlain (.atPolls [2])).1 = .aborted ∧
      (∃ r, (creatorFlat.analyze 9 creator (creatorEntry 0) ()).outcome (.startWith .never []) = .ok r ∧
        r.block.reached = (creatorPlain .never).2.1.reached ∧
        r.block.reached.all.toList.map (·.node) = [3, 8, 9, 1] ∧
        ((creatorFlat.analyze 9 creator (creatorEntry 0) ()).final (.startWith .never [])).cache.toList =
          [(⟨creator, 0⟩, ⟨creatorEntry 0, (), r.block⟩)]) ∧
      (((creatorFlat.analyze 9 creator (creatorEntry 0) ()).final (.startWith .never [])).relation).length = 3 ∧
      ((creatorFlat.analyze 9 creator (creatorEntry 0) ()).final (.startWith (.atPolls [2]) [])).cache = .empty := by
  have hentry : creatorFlat.graph.entry? creator = some (location (creatorEntry 0)) := by decide +kernel
  have hflat : creatorFlat.Flat := .inr (.inl rfl)
  have hcompleted : (creatorPlain .never).1 = .completed := by decide +kernel
  have haborted : (creatorPlain (.atPolls [2])).1 = .aborted := by decide +kernel
  have hnodes : (creatorPlain .never).2.1.reached.all.toList.map (·.node) = [3, 8, 9, 1] := by decide +kernel
  have hasked : (creatorPlain .never).2.2.2.length = 3 := by decide +kernel
  have hrun : ∀ signal, creatorPlain signal = ((creatorPlain signal).1, (creatorPlain signal).2.1,
      (creatorPlain signal).2.2.1, (creatorPlain signal).2.2.2) := fun _ => rfl
  obtain ⟨herror, hblock, _, _, hrelation⟩ := Interprocedural.analyze_intraprocedural (σ := .startWith .never [])
    hflat hentry rfl rfl (hrun .never)
  obtain ⟨_, _, hnone, _⟩ := Interprocedural.analyze_intraprocedural (σ := .startWith (.atPolls [2]) []) hflat hentry
    rfl rfl (hrun (.atPolls [2]))
  refine ⟨by decide +kernel, hcompleted, haborted, ?_, hrelation ▸ hasked, hnone (by rw [haborted]; nofun)⟩
  cases hout : (creatorFlat.analyze 9 creator (creatorEntry 0) ()).outcome (.startWith .never []) with
  | error e => cases hcompleted.symm.trans ((herror e).1 hout)
  | ok r =>
    obtain ⟨hreached, _, hcached⟩ := hblock r hout
    exact ⟨r, rfl, hreached, by rw [hreached]; exact hnodes, hcached hcompleted⟩

end Interpreter

end BytecodeFlow
