import BytecodeFlow.Proofs.MachineAnalysis
import BytecodeFlow.Proofs.Refinement

/-! # The cache does not show

Without a cache every call would run its target anew. That is a second way to compute blocks, and a simple
one: it keeps no session. When no method calls itself and states stay inside their methods, the analysis
with a cache comes to the same blocks and the same faults, whatever it has cached before.
-/
namespace BytecodeFlow

namespace Interprocedural

variable {S P : Type} [DecidableEq S] [DecidableEq P] [Located S]

/-! ### Blocks without a cache -/

abbrev BlockOf (S P : Type) := Method → S → P → Except Halt (Block S)

def directCall (A : Interprocedural S P) (nested : BlockOf S P) (s : S) (p : P) (d : Edge × Call) :
    Except Halt (List S) := do
  let k ← (A.reduce s d.1.target d.2).mapError .fault
  let b ← nested d.2.target k p
  (A.afterCall s d b.exits).mapError .fault

def directFollow (A : Interprocedural S P) (nested : BlockOf S P) (s : S) (p : P) (e : Edge) :
    Except Halt (List S) :=
  if e.label.isInvoke then do
    let entered ← (A.graph.knownCalls (location s)).mapM (A.directCall nested s p)
    if A.apart (location s) then
      return entered.flatten ++ (← (A.along s e p).mapError .fault)
    else return entered.flatten
  else (A.along s e p).mapError .fault

def directTransfer (A : Interprocedural S P) (nested : BlockOf S P) (s : S) (p : P) :
    Except Halt (List S) := do
  let parts ← (A.graph.leavingIntraprocedural (location s)).mapM fun e =>
    (A.directFollow nested s p e).map (List.map (relocate e.target))
  return parts.flatten

/-- The block of a procedure, with every call run anew. The bound is on the steps of each run and on the
depth of calls. -/
def direct (A : Interprocedural S P) : Nat → BlockOf S P
  | 0 => fun _ _ _ => .error .exhausted
  | n + 1 => fun m k p =>
    (explore A.operators (A.directTransfer (A.direct n)) p n (A.begin k)).map fun q => A.block m q.reached

/-! ### Sessions -/

/-- Every cached block is the one that would be computed anew, nothing aborts, and these procedures are being
analysed. -/
structure Faithful (A : Interprocedural S P) (callers : List Method) (σ : Session S P) : Prop where
  blocks : ∀ m k p b, σ.cache.get? m k p = some b → ∃ n, A.direct n m k p = .ok b
  quiet : σ.signal.Quiet
  callStack : σ.callStack = callers

def Delivers (A : Interprocedural S P) (nested : Nat → Runner S P) (callers : List Method) (m : Method)
    (k : S) (p : P) : Prop :=
  Effect.Refines (A.Faithful callers) (fun n => nested n m k p) (fun n => (A.direct n m k p).map (⟨·, false⟩))

variable {A : Interprocedural S P} {callers : List Method} {nested : Nat → Runner S P} {σ τ : Session S P}
  {m : Method} {k s : S} {p : P} {b : Block S} {i j : Nat}

theorem Faithful.congr (h : A.Faithful callers σ) (hcache : τ.cache = σ.cache)
    (hsignal : τ.signal = σ.signal) (hstack : τ.callStack = σ.callStack) : A.Faithful callers τ :=
  ⟨hcache ▸ h.blocks, hsignal ▸ h.quiet, hstack ▸ h.callStack⟩

theorem Faithful.insert (h : A.Faithful callers σ) (hb : A.direct j m k p = .ok b) :
    A.Faithful callers { σ with cache := σ.cache.insert m k p b } := by
  refine ⟨fun m' k' p' b' hget => ?_, h.quiet, h.callStack⟩
  rcases BlockCache.get?_insert_cases hget with hget | ⟨rfl, rfl, rfl, rfl⟩
  · exact h.blocks m' k' p' b' hget
  · exact ⟨j, hb⟩

/-- Bounds that suffice give the same block. -/
theorem Delivers.stable (h : A.Delivers nested callers m k p) (hij : i ≤ j)
    (hne : A.direct i m k p ≠ .error .exhausted) : A.direct j m k p = A.direct i m k p := by
  have heq := Effect.Refines.stable h hij fun hex => hne (map_eq_error.1 hex)
  exact map_injective (fun _ _ hrun => congrArg ProcedureRun.block hrun) heq

theorem Delivers.unique (h : A.Delivers nested callers m k p) (hi : A.direct i m k p = .ok b)
    (hne : A.direct j m k p ≠ .error .exhausted) : A.direct j m k p = .ok b := by
  rw [← hi, ← h.stable (Nat.le_max_left i j) (by simp [hi]), h.stable (Nat.le_max_right i j) hne]

/-- A block that was cached meanwhile is the one that was computed. -/
theorem Delivers.getD_cached (h : A.Delivers nested callers m k p) (hσ : A.Faithful callers σ)
    (hj : A.direct j m k p = .ok b) : (σ.cache.get? m k p).getD b = b := by
  cases hget : σ.cache.get? m k p with
  | none => rfl
  | some b' =>
    obtain ⟨i, hi⟩ := hσ.blocks m k p b' hget
    have hij := h.unique hi (j := j) (by simp [hj])
    simpa [hj, eq_comm] using hij

/-! ### Calls -/

omit [DecidableEq S] [DecidableEq P] [Located S] in
theorem outcome_expandAll (d : Edge × Call) (exits : List S) :
    (A.expandAll s d.1 d.2 exits).outcome σ = ((A.afterCall s d exits).mapError .fault).map some := by
  unfold Effect.outcome
  rw [expandAll_eq]
  cases A.afterCall s d exits <;> rfl

omit [DecidableEq S] [DecidableEq P] [Located S] in
theorem final_expandAll (d : Edge × Call) (exits : List S) :
    (A.expandAll s d.1 d.2 exits).final σ = σ := by
  unfold Effect.final
  rw [expandAll_eq]
  cases A.afterCall s d exits <;> rfl

omit [DecidableEq S] [DecidableEq P] [Located S] in
theorem directCall_of_reduce {f : BlockOf S P} {d : Edge × Call} (h : A.reduce s d.1.target d.2 = .ok k) :
    A.directCall f s p d =
      f d.2.target k p >>= fun b => (A.afterCall s d b.exits).mapError .fault := by
  unfold directCall
  rw [h]
  rfl

section Resolve

variable {r : Runner S P} {d : Edge × Call} (hmem : d.2.target ∉ σ.callStack)
  (hdepth : A.options.maxDepth = none)

include hmem hdepth

omit [Located S] in
theorem resolve_fault {f : Fault} (hreduce : A.reduce s d.1.target d.2 = .error f) :
    A.resolve r s p d.1 d.2 σ = .error (.fault f) σ := by
  rw [resolve_eq, if_neg hmem, if_neg (by simp [depthReached, hdepth]), hreduce]

omit [Located S] in
theorem resolve_hit (hreduce : A.reduce s d.1.target d.2 = .ok k)
    (hget : σ.cache.get? d.2.target k p = some b) :
    A.resolve r s p d.1 d.2 σ = A.expandAll s d.1 d.2 b.exits σ.countHit := by
  rw [resolve_eq, if_neg hmem, if_neg (by simp [depthReached, hdepth]), hreduce]
  simp only [hget]

omit [Located S] in
theorem resolve_halt {h : Halt} (hreduce : A.reduce s d.1.target d.2 = .ok k)
    (hget : σ.cache.get? d.2.target k p = none) (hrun : r d.2.target k p σ = .error h τ) :
    A.resolve r s p d.1 d.2 σ = .error h τ := by
  rw [resolve_eq, if_neg hmem, if_neg (by simp [depthReached, hdepth]), hreduce]
  simp only [hget, hrun]

omit [Located S] in
theorem resolve_miss (hreduce : A.reduce s d.1.target d.2 = .ok k)
    (hget : σ.cache.get? d.2.target k p = none) (hrun : r d.2.target k p σ = .ok ⟨b, false⟩ τ) :
    A.resolve r s p d.1 d.2 σ =
      A.expandAll s d.1 d.2 ((τ.cache.get? d.2.target k p).getD b).exits (stored d.2.target k p b τ) := by
  rw [resolve_eq, if_neg hmem, if_neg (by simp [depthReached, hdepth]), hreduce]
  simp only [hget, hrun, BlockCache.get?_insert]
  simp

end Resolve

theorem Delivers.run_ok {run : ProcedureRun S} {n : Nat} (h : A.Delivers nested callers m k p)
    (hσ : A.Faithful callers σ) (hrun : nested n m k p σ = .ok run τ) :
    run.aborted = false ∧ A.Faithful callers τ ∧ ∃ j, A.direct j m k p = .ok run.block := by
  obtain ⟨hout, hfinal⟩ := Effect.outcome_final_of_ok hrun
  obtain ⟨j, hj⟩ := Effect.Refines.sound h (n := n) hσ (by simp [hout])
  rw [hout] at hj
  obtain ⟨b, hb, rfl⟩ := map_eq_ok.1 hj
  exact ⟨rfl, hfinal ▸ Effect.Refines.keeps h (n := n) hσ, j, hb⟩

theorem Delivers.run_error {h : Halt} {n : Nat} (hnested : A.Delivers nested callers m k p)
    (hσ : A.Faithful callers σ) (hrun : nested n m k p σ = .error h τ) :
    A.Faithful callers τ ∧ (h ≠ .exhausted → ∃ j, A.direct j m k p = .error h) := by
  obtain ⟨hout, hfinal⟩ := Effect.outcome_final_of_error hrun
  refine ⟨hfinal ▸ Effect.Refines.keeps hnested (n := n) hσ, fun hne => ?_⟩
  obtain ⟨j, hj⟩ := Effect.Refines.sound hnested (n := n) hσ (by simp [hout, hne])
  rw [hout] at hj
  exact ⟨j, map_eq_error.1 hj⟩

/-- A call ends with the exits of the block that is computed anew, or as the run of its target ends. -/
theorem resolve_cases {d : Edge × Call} {n : Nat} (hmem : d.2.target ∉ callers)
    (hdepth : A.options.maxDepth = none) (hreduce : A.reduce s d.1.target d.2 = .ok k)
    (hnested : A.Delivers nested callers d.2.target k p) (hσ : A.Faithful callers σ) :
    A.Faithful callers ((A.resolve (nested n) s p d.1 d.2).final σ) ∧
      ((∃ b j, A.direct j d.2.target k p = .ok b ∧ (A.resolve (nested n) s p d.1 d.2).outcome σ =
        ((A.afterCall s d b.exits).mapError .fault).map some) ∨
      ∃ h, (A.resolve (nested n) s p d.1 d.2).outcome σ = .error h ∧
        (nested n d.2.target k p).outcome σ = .error h) := by
  have hstack : d.2.target ∉ σ.callStack := hσ.callStack ▸ hmem
  cases hget : σ.cache.get? d.2.target k p with
  | some b =>
    have heq := resolve_hit (r := nested n) hstack hdepth hreduce hget
    obtain ⟨j, hj⟩ := hσ.blocks _ _ _ _ hget
    rw [Effect.final_congr heq, Effect.outcome_congr heq, final_expandAll, outcome_expandAll]
    exact ⟨hσ.congr rfl rfl rfl, .inl ⟨b, j, hj, rfl⟩⟩
  | none =>
    cases hrun : nested n d.2.target k p σ with
    | error h τ =>
      have heq := resolve_halt (r := nested n) hstack hdepth hreduce hget hrun
      unfold Effect.final Effect.outcome
      rw [heq, hrun]
      exact ⟨(hnested.run_error hσ hrun).1, .inr ⟨h, rfl, rfl⟩⟩
    | ok run τ =>
      obtain ⟨hrun', hτ, j, hj⟩ := hnested.run_ok hσ hrun
      obtain ⟨b, aborted⟩ := run
      obtain rfl : aborted = false := hrun'
      have heq := resolve_miss (r := nested n) hstack hdepth hreduce hget hrun
      rw [Effect.final_congr heq, Effect.outcome_congr heq, final_expandAll, outcome_expandAll,
        hnested.getD_cached hτ hj]
      exact ⟨(hτ.insert hj).congr rfl rfl rfl, .inl ⟨b, j, hj, rfl⟩⟩

/-- A call comes to the states that it would come to if its target was run anew. -/
theorem refines_resolve {d : Edge × Call} (hmem : d.2.target ∉ callers)
    (hdepth : A.options.maxDepth = none)
    (hnested : ∀ k, A.reduce s d.1.target d.2 = .ok k → A.Delivers nested callers d.2.target k p) :
    Effect.Refines (A.Faithful callers) (fun n => A.resolve (nested n) s p d.1 d.2)
      (fun n => (A.directCall (A.direct n) s p d).map some) := by
  cases hreduce : A.reduce s d.1.target d.2 with
  | error f =>
    have hdirect : (fun n => (A.directCall (A.direct n) s p d).map some) =
        fun _ => .error (.fault f) := by
      funext n
      unfold directCall
      rw [hreduce]
      rfl
    rw [hdirect]
    refine .of_eq fun n σ hσ => ?_
    unfold Effect.final Effect.outcome
    rw [resolve_fault (hσ.callStack ▸ hmem) hdepth hreduce]
    exact ⟨hσ, rfl⟩
  | ok k =>
    have hrun := hnested k hreduce
    have hbound : ∀ {j}, (A.directCall (A.direct j) s p d).map some ≠ .error .exhausted →
        A.direct j d.2.target k p ≠ .error .exhausted := by
      intro j hne hex
      rw [directCall_of_reduce hreduce, hex] at hne
      exact hne rfl
    have hsame : ∀ {i j}, A.direct i d.2.target k p = A.direct j d.2.target k p →
        (A.directCall (A.direct i) s p d).map some = (A.directCall (A.direct j) s p d).map some := by
      intro i j hij
      rw [directCall_of_reduce hreduce, directCall_of_reduce hreduce, hij]
    refine ⟨fun hjk hne => hsame (hrun.stable hjk (hbound hne)),
      fun hσ => (resolve_cases hmem hdepth hreduce hrun hσ).1, ?_, ?_⟩
    · intro n σ hσ hne
      rcases (resolve_cases (n := n) hmem hdepth hreduce hrun hσ).2 with ⟨b, j, hj, hout⟩ | ⟨h, hout, hn⟩
      · refine ⟨j, ?_⟩
        rw [hout, directCall_of_reduce hreduce, hj]
        rfl
      · obtain ⟨j, hj⟩ := Effect.Refines.sound hrun (n := n) hσ (by
          rw [hn]
          exact fun hex => hne (by rw [hout]; cases hex; rfl))
        refine ⟨j, ?_⟩
        rw [hn] at hj
        rw [hout, directCall_of_reduce hreduce, map_eq_error.1 hj]
        rfl
    · intro n j σ hσ hjn hne
      have hj := hbound hne
      rcases (resolve_cases (n := n) hmem hdepth hreduce hrun hσ).2 with ⟨b, i, hi, hout⟩ | ⟨h, hout, hn⟩
      · rw [hout, directCall_of_reduce hreduce, hrun.unique hi hj]
        rfl
      · have heq := Effect.Refines.complete hrun (n := n) hσ hjn fun hex => hj (map_eq_error.1 hex)
        rw [hn] at heq
        rw [hout, directCall_of_reduce hreduce, map_eq_error.1 heq.symm]
        rfl

/-! ### Edges and successors -/

theorem mapM_map_some {α β ε : Type} (f : α → Except ε β) (l : List α) :
    (l.mapM fun a => (f a).map some) = (l.mapM f).map (List.map some) := by
  induction l with
  | nil => rfl
  | cons a l ih =>
    rw [List.mapM_cons, List.mapM_cons, ih]
    cases f a with
    | error e => rfl
    | ok b => cases l.mapM f <;> rfl

omit [DecidableEq S] [DecidableEq P] in
/-- Calls are collected alike whether or not each of them could have been given up. -/
theorem directFollow_invoke {f : BlockOf S P} {e : Edge} (hinvoke : e.label.isInvoke = true) :
    A.directFollow f s p e =
      ((A.graph.knownCalls (location s)).mapM fun d => (A.directCall f s p d).map some) >>=
        fun results => if A.apart (location s) || results.any Option.isNone then
          ((A.along s e p).mapError .fault).map (results.flatMap (·.getD []) ++ ·)
          else .ok (results.flatMap (·.getD [])) := by
  unfold directFollow
  rw [if_pos hinvoke, mapM_map_some]
  cases (A.graph.knownCalls (location s)).mapM (A.directCall f s p) with
  | error h => rfl
  | ok entered =>
    have hany : (entered.map some).any Option.isNone = false := by simp
    have hflat : (entered.map some).flatMap (·.getD []) = entered.flatten := by
      simp [List.flatMap, Function.comp_def]
    change (if A.apart (location s) = true then _ else _) =
      if (A.apart (location s) || (entered.map some).any Option.isNone) = true then _ else _
    rw [hany, hflat, Bool.or_false]
    split
    · cases A.along s e p <;> rfl
    · rfl

theorem refines_countFallback : Effect.Refines (A.Faithful callers)
    (fun _ => (modify fun σ => if A.apart (location s) then σ.countFallback else σ : Effect _ _))
    (fun _ => .ok PUnit.unit) := by
  refine .of_eq fun _ σ hσ => ⟨?_, rfl⟩
  change A.Faithful callers (if A.apart (location s) then σ.countFallback else σ)
  split
  · exact hσ.congr rfl rfl rfl
  · exact hσ

theorem refines_follow {e : Edge} (hmem : ∀ d ∈ A.graph.knownCalls (location s), d.2.target ∉ callers)
    (hdepth : A.options.maxDepth = none)
    (hnested : ∀ d ∈ A.graph.knownCalls (location s), ∀ k, A.reduce s d.1.target d.2 = .ok k →
      A.Delivers nested callers d.2.target k p) :
    Effect.Refines (A.Faithful callers) (fun n => A.follow (nested n) s p e)
      (fun n => A.directFollow (A.direct n) s p e) := by
  by_cases hinvoke : e.label.isInvoke = true
  · have hcalls := Effect.Refines.mapM (l := A.graph.knownCalls (location s))
      fun d hd => refines_resolve (hmem d hd) hdepth (hnested d hd)
    have hrest : ∀ results : List (Option (List S)), Effect.Refines (A.Faithful callers)
        (fun _ => if A.apart (location s) || results.any Option.isNone then
          Effect.ofExcept (A.along s e p) >>= fun l => pure (results.flatMap (·.getD []) ++ l)
          else pure (results.flatMap (·.getD [])))
        (fun _ => if A.apart (location s) || results.any Option.isNone then
          ((A.along s e p).mapError .fault).map (results.flatMap (·.getD []) ++ ·)
          else .ok (results.flatMap (·.getD []))) := by
      intro results
      split
      · exact (Effect.refines_ofExcept _).map _
      · exact Effect.refines_pure _
    have hall := (refines_countFallback (A := A) (s := s)).bind fun _ => hcalls.bind hrest
    have hfollow : (fun n => A.follow (nested n) s p e) = fun n =>
        (modify fun σ => if A.apart (location s) then σ.countFallback else σ : Effect _ _) >>= fun _ =>
          ((A.graph.knownCalls (location s)).mapM fun d => A.resolve (nested n) s p d.1 d.2) >>=
          fun results => if A.apart (location s) || results.any Option.isNone then
            Effect.ofExcept (A.along s e p) >>= fun l => pure (results.flatMap (·.getD []) ++ l)
            else pure (results.flatMap (·.getD [])) := by
      funext n σ
      rw [follow_of_invoke A (nested n) s p σ hinvoke, ← collect_eq]
      rfl
    simp only [hfollow, directFollow_invoke hinvoke]
    exact hall
  · have hplain : e.label.isInvoke = false := by simpa using hinvoke
    have hfollow : (fun n => A.follow (nested n) s p e) = fun _ => Effect.ofExcept (A.along s e p) := by
      funext n σ
      exact follow_plain A (nested n) s p σ hplain
    have hdirect : (fun n => A.directFollow (A.direct n) s p e) = fun _ => (A.along s e p).mapError .fault := by
      funext n
      unfold directFollow
      rw [if_neg hinvoke]
    rw [hfollow, hdirect]
    exact Effect.refines_ofExcept _

theorem refines_transfer (hmem : ∀ d ∈ A.graph.knownCalls (location s), d.2.target ∉ callers)
    (hdepth : A.options.maxDepth = none)
    (hnested : ∀ d ∈ A.graph.knownCalls (location s), ∀ k, A.reduce s d.1.target d.2 = .ok k →
      A.Delivers nested callers d.2.target k p) :
    Effect.Refines (A.Faithful callers) (fun n => A.transfer (nested n) s p)
      (fun n => A.directTransfer (A.direct n) s p) := by
  have hparts := Effect.Refines.mapM (l := A.graph.leavingIntraprocedural (location s)) fun e _ =>
    (refines_follow (e := e) hmem hdepth hnested).map (List.map (relocate e.target))
  have hall := hparts.map List.flatten
  have hdirect : (fun n => A.directTransfer (A.direct n) s p) = fun n =>
      ((A.graph.leavingIntraprocedural (location s)).mapM fun e =>
        (A.directFollow (A.direct n) s p e).map (List.map (relocate e.target))).map List.flatten := by
    funext n
    unfold directTransfer
    cases (A.graph.leavingIntraprocedural (location s)).mapM fun e =>
      (A.directFollow (A.direct n) s p e).map (List.map (relocate e.target)) <;> rfl
  rw [hdirect]
  exact hall

/-! ### Procedures -/

/-- The method is entered in this state from these callers, with room for the runs that it may need. -/
structure Fits (A : Interprocedural S P) (room : Nat) (callers : List Method) (m : Method) (k : S) : Prop where
  inside : A.graph.methodAt? (location k) = some m
  awaited : A.graph.Awaited callers m
  nodup : callers.Nodup
  entered : callers ++ [m] ⊆ A.graph.entered
  enough : A.graph.entered.length ≤ callers.length + room

omit [DecidableEq S] [DecidableEq P] in
theorem Fits.nodup_concat (hA : A.Modular) {room : Nat} (h : A.Fits room callers m k) :
    (callers ++ [m]).Nodup := by
  rw [List.nodup_append]
  refine ⟨h.nodup, by simp, fun c hc t ht => ?_⟩
  rw [List.mem_singleton.1 ht]
  exact fun heq => h.awaited.not_mem hA.acyclic (heq ▸ hc)

omit [DecidableEq S] [DecidableEq P] in
/-- The callers and the method are different methods with entries, so there is room for the method. -/
theorem Fits.room_pos (hA : A.Modular) {room : Nat} (h : A.Fits room callers m k) : 0 < room := by
  have hlength := (h.nodup_concat hA).length_le_of_subset h.entered
  have henough := h.enough
  simp only [List.length_append, List.length_singleton] at hlength
  omega

omit [DecidableEq S] [DecidableEq P] in
theorem Fits.call (hA : A.Modular) {room : Nat} {k' : S} {d : Edge × Call}
    (h : A.Fits (room + 1) callers m k) (hs : A.graph.methodAt? (location s) = some m)
    (hd : d ∈ A.graph.knownCalls (location s)) (hreduce : A.reduce s d.1.target d.2 = .ok k') :
    A.Fits room (callers ++ [m]) d.2.target k' where
  inside := hA.reduced hd hreduce
  awaited := h.awaited.call ⟨location s, hs, d, hd, rfl⟩
  nodup := h.nodup_concat hA
  entered := by
    intro c hc
    rcases List.mem_append.1 hc with hc | hc
    · exact h.entered hc
    · rw [List.mem_singleton.1 hc]
      exact FlowGraph.mem_entered_of_entry (hA.built.entry?_of_knownCall hd)
  enough := by
    have henough := h.enough
    simp only [List.length_append, List.length_singleton]
    omega

omit [DecidableEq S] [DecidableEq P] in
/-- Successors stay in the method. -/
theorem Modular.successors (hA : A.Modular) {f : BlockOf S P} {l : List S}
    (hs : A.graph.methodAt? (location s) = some m) (h : A.directTransfer f s p = .ok l) :
    ∀ t ∈ l, A.graph.methodAt? (location t) = some m := by
  unfold directTransfer at h
  cases hparts : (A.graph.leavingIntraprocedural (location s)).mapM fun e =>
      (A.directFollow f s p e).map (List.map (relocate e.target)) with
  | error e => simp [hparts, bind, Except.bind] at h
  | ok parts =>
    obtain rfl : parts.flatten = l := by simpa [hparts, bind, Except.bind, pure, Except.pure] using h
    intro t ht
    obtain ⟨part, hpart, htp⟩ := List.mem_flatten.1 ht
    obtain ⟨e, he, hfollow⟩ := exists_of_forall₂_right (mapM_eq_ok.1 hparts) hpart
    obtain ⟨hedge, hsource, hintra⟩ := FlowGraph.mem_leavingIntraprocedural.1 he
    obtain ⟨found, _, rfl⟩ := map_eq_ok.1 hfollow
    obtain ⟨x, _, rfl⟩ := List.mem_map.1 htp
    rw [hA.location_relocate, hA.confined e hedge hintra, hsource, hs]

theorem tracks_analysis (hA : A.Modular) {room : Nat} (hfits : A.Fits (room + 1) callers m k)
    (hnested : ∀ callers m k p, A.Fits room callers m k → A.Delivers nested callers m k p) :
    Analysis.Tracks (LocatedStates S) (A.Faithful (callers ++ [m]))
      (fun x => A.graph.methodAt? (location x) = some m) (fun n => A.analysis (nested n)) A.operators
      (fun n => A.directTransfer (A.direct n)) where
  operators _ := rfl
  poll hσ := ⟨hσ.quiet.poll.1, hσ.blocks, hσ.quiet.poll.2, hσ.callStack⟩
  transfer p hx := by
    refine refines_transfer (fun d hd => ?_) hA.unbounded fun d hd k' hreduce => ?_
    · have hcall := hfits.awaited.call ⟨_, hx, d, hd, rfl⟩
      exact hcall.not_mem hA.acyclic
    · exact hnested _ _ _ _ (hfits.call hA hx hd hreduce)
  adjust p l hx := by rw [hA.adjusted, hx]
  successors hx hl := hA.successors hx hl
  merge p hr hx hc _ := by
    rw [hA.merged p ((LocatedStates.mem_statesAt hr).1 hx).2, hc]

/-- A run whose callees are delivered is delivered. -/
theorem delivers_runWith (hA : A.Modular) {room : Nat} (hfits : A.Fits (room + 1) callers m k)
    (hnested : ∀ callers m k p, A.Fits room callers m k → A.Delivers nested callers m k p) (p : P) :
    A.Delivers (fun n => A.runWith n (nested n)) callers m k p := by
  have htracks := tracks_analysis hA hfits hnested
  have hall : (A.begin k).All (fun x => A.graph.methodAt? (location x) = some m) := by
    constructor
    · intro x hx
      rw [reaches_begin.1 hx, hfits.inside]
    · intro x hx
      rw [awaits_begin.1 hx, hfits.inside]
  have hsearch := htracks.refines_search (p := p) hall valid_begin
  have hrun := hsearch.wrap (J := A.Faithful callers) (w := fun n => A.runWith n (nested n) m k p)
    (fun q => (⟨A.block m q.reached, false⟩ : ProcedureRun S)) fun n σ hσ => by
      have henter : A.Faithful (callers ++ [m]) (σ.enter m) :=
        ⟨hσ.blocks, hσ.quiet, by rw [← hσ.callStack]; rfl⟩
      refine ⟨σ.enter m, henter, ?_⟩
      rcases hrun : (A.analysis (nested n)).run p n (A.begin k) (σ.enter m) with ⟨o, q, τ⟩
      have hleave : A.Faithful (callers ++ [m]) τ → A.Faithful callers (τ.leave.noteAll (q.notices o)) := by
        intro hτ
        refine ⟨hτ.blocks, hτ.quiet, ?_⟩
        change τ.callStack.dropLast = callers
        rw [hτ.callStack, List.dropLast_concat]
      unfold Effect.outcome Effect.final Analysis.search
      rw [runWith_eq hrun, hrun]
      cases o with
      | completed => exact ⟨rfl, hleave⟩
      | halted h => exact ⟨rfl, hleave⟩
      | aborted => exact absurd rfl (htracks.not_aborted (n := n) henter hall valid_begin hrun)
  refine hrun.succ rfl fun n => ?_
  simp only [direct]
  cases explore A.operators (A.directTransfer (A.direct n)) p n (A.begin k) <;> rfl

theorem delivers_procedure (hA : A.Modular) {room : Nat} (hfits : A.Fits room callers m k) (p : P) :
    A.Delivers (fun n => A.procedure n room) callers m k p := by
  induction room generalizing callers m k p with
  | zero => exact absurd (hfits.room_pos hA) (Nat.lt_irrefl 0)
  | succ room ih => exact delivers_runWith hA hfits (fun _ _ _ p h => ih h p) p

/-! ### Analyses -/

/-- The block that an analysis comes to when everything is computed anew. -/
def directAnalyze (A : Interprocedural S P) (n : Nat) (m : Method) (s : S) (p : P) : Except Halt (Block S) :=
  match A.graph.entry? m with
  | none => .error (.fault (.contract (.missingProcedure m.qualifiedName)))
  | some entry =>
    if location s ≠ entry then
      .error (.fault (.contract (.state (.misplacedEntry m.qualifiedName (location s) entry))))
    else A.direct n m s p

omit [DecidableEq S] [DecidableEq P] in
theorem fits_entry {entry : NodeId} (hentry : A.graph.entry? m = some entry)
    (hloc : location s = entry) : A.Fits A.room [] m s where
  inside := by rw [hloc, FlowGraph.methodAt?_entry hentry]
  awaited := FlowGraph.awaited_nil m
  nodup := List.nodup_nil
  entered := by
    intro c hc
    rw [List.mem_singleton.1 hc]
    exact FlowGraph.mem_entered_of_entry hentry
  enough := by simp [room]

theorem Faithful.report (h : A.Faithful callers σ) (m : Method) : A.Faithful callers (A.report m σ) := by
  unfold Interprocedural.report
  split
  · exact h.congr rfl rfl rfl
  · exact h

/-- An analysis comes to the block that it would come to if everything was computed anew. -/
theorem refines_analyze (hA : A.Modular) (m : Method) (s : S) (p : P) :
    Effect.Refines (A.Faithful []) (fun n => A.analyze n m s p >>= fun r => pure r.block)
      (fun n => A.directAnalyze n m s p) := by
  unfold directAnalyze
  cases hentry : A.graph.entry? m with
  | none =>
    refine .of_eq fun n σ hσ => ?_
    have heq := A.analyze_eq n m s p σ
    simp only [hentry] at heq
    unfold Effect.final Effect.outcome
    rw [Effect.bind_eq, heq]
    exact ⟨hσ, rfl⟩
  | some entry =>
    simp only
    split
    · rename_i hloc
      refine .of_eq fun n σ hσ => ?_
      have heq := A.analyze_eq n m s p σ
      simp only [hentry, if_pos hloc] at heq
      unfold Effect.final Effect.outcome
      rw [Effect.bind_eq, heq]
      exact ⟨hσ, rfl⟩
    · rename_i hloc
      have hdelivers := delivers_procedure hA (fits_entry hentry (of_not_not hloc)) p
      have hwrap := Effect.Refines.wrap (J := A.Faithful [])
        (w := fun n => A.analyze n m s p >>= fun r => pure r.block) hdelivers
        (fun run => run.block) fun n σ hσ => by
          refine ⟨σ, hσ, ?_⟩
          have heq := A.analyze_eq n m s p σ
          simp only [hentry, if_neg hloc] at heq
          unfold Effect.final Effect.outcome
          rw [Effect.bind_eq, heq]
          cases hrun : A.procedure n A.room m s p σ with
          | error h τ =>
            simp only [hrun]
            exact ⟨rfl, fun hτ => hτ⟩
          | ok run τ =>
            obtain ⟨hrun', hτ, j, hj⟩ := hdelivers.run_ok hσ hrun
            have hblock : ((τ.cache.insert m s p run.block).get? m s p).getD run.block = run.block :=
              hdelivers.getD_cached (hτ.insert hj) hj
            simp only [hrun, hrun', Bool.false_eq_true, if_false, hblock]
            exact ⟨rfl, fun _ => (hτ.insert hj).report m⟩
      have hdirect : (fun n => ((A.direct n m s p).map (⟨·, false⟩ : Block S → ProcedureRun S)).map
          fun run => run.block) = fun n => A.direct n m s p := by
        funext n
        cases A.direct n m s p <;> rfl
      rw [hdirect] at hwrap
      exact hwrap

theorem Visited.faithful (hA : A.Modular) (h : A.Visited AbortSignal.Quiet σ) : A.Faithful [] σ := by
  induction h with
  | start hquiet => exact ⟨nofun, hquiet, rfl⟩
  | analyze fuel m s p _ ih =>
    have hkeeps := (refines_analyze hA m s p).keeps (n := fuel) ih
    rwa [Effect.final_bind_pure] at hkeeps
  | signal hquiet _ ih => exact ⟨ih.blocks, hquiet, ih.callStack⟩

/-! ### Where states are -/

/-- The steps of an analysis that decide at which node a state is. -/
inductive Placement where
  | relocation
  | adjustment
  | merging
  | reduction
  deriving DecidableEq

/-- The step leaves states in their method, and enters a callee in a state of its own. -/
def Respects (A : Interprocedural S P) : Placement → Prop
  | .relocation => ∀ (n : NodeId) (s : S), location (relocate n s) = n
  | .adjustment => ∀ (s : S) (p : P) (l : List S),
    A.graph.methodAt? (location (A.operators.adjust s p l).1) = A.graph.methodAt? (location s)
  | .merging => ∀ (c r : S) (p : P), location r = location c →
    A.graph.methodAt? (location (A.operators.merge c r p)) = A.graph.methodAt? (location c)
  | .reduction => ∀ (n : NodeId) (d : Edge × Call) (s k : S), d ∈ A.graph.knownCalls n →
    A.reduce s d.1.target d.2 = .ok k → A.graph.methodAt? (location k) = some d.2.target

omit [DecidableEq S] [DecidableEq P] in
theorem modular_iff : A.Modular ↔ A.graph.Built ∧ A.graph.Confined ∧ A.graph.Acyclic ∧
    A.options.maxDepth = none ∧ ∀ step, A.Respects step := by
  constructor
  · rintro ⟨hbuilt, hconfined, hacyclic, hdepth, hrelocate, hadjust, hmerge, hreduce⟩
    refine ⟨hbuilt, hconfined, hacyclic, hdepth, fun step => ?_⟩
    cases step with
    | relocation => exact hrelocate
    | adjustment => exact hadjust
    | merging => exact fun _ _ p => hmerge p
    | reduction => exact fun _ _ _ _ => hreduce
  · rintro ⟨hbuilt, hconfined, hacyclic, hdepth, hsteps⟩
    exact ⟨hbuilt, hconfined, hacyclic, hdepth, hsteps .relocation, hsteps .adjustment,
      fun p => hsteps .merging _ _ p, hsteps .reduction _ _ _ _⟩

/-- What was analysed before does not show if states stay in their methods. An analysis that ends comes to the same
block or the same fault as it does in a new session, where it ends, too; and so the other way round. -/
theorem analyze_transparent {S P : Type} [DecidableEq S] [DecidableEq P] [Located S] {A : Interprocedural S P}
    (hbuilt : A.graph.Built) (hconfined : A.graph.Confined) (hacyclic : A.graph.Acyclic)
    (hdepth : A.options.maxDepth = none) (hsteps : ∀ step, A.Respects step)
    {σ : Session S P} (hσ : A.Visited AbortSignal.Quiet σ) {signal : AbortSignal} (hsignal : signal.Quiet)
    (m : Method) (s : S) (p : P) (fuel : Nat) :
    ((A.analyze fuel m s p).outcome σ ≠ .error .exhausted → ∃ n, ∀ j, n ≤ j →
      ((A.analyze j m s p).outcome (.start signal)).map (·.block) =
        ((A.analyze fuel m s p).outcome σ).map (·.block)) ∧
    ((A.analyze fuel m s p).outcome (.start signal) ≠ .error .exhausted → ∃ n, ∀ j, n ≤ j →
      ((A.analyze j m s p).outcome σ).map (·.block) =
        ((A.analyze fuel m s p).outcome (.start signal)).map (·.block)) := by
  have hA : A.Modular := modular_iff.2 ⟨hbuilt, hconfined, hacyclic, hdepth, hsteps⟩
  have hrefines := refines_analyze hA m s p
  have hfresh : A.Faithful [] (.start signal) := Visited.faithful hA (.start hsignal)
  have hused : A.Faithful [] σ := hσ.faithful hA
  have hends : ∀ {τ : Session S P}, (A.analyze fuel m s p).outcome τ ≠ .error .exhausted →
      (A.analyze fuel m s p >>= fun r => pure r.block).outcome τ ≠ .error .exhausted := by
    intro τ hne
    rw [Effect.outcome_bind_pure]
    cases hout : (A.analyze fuel m s p).outcome τ with
    | ok r => exact nofun
    | error h => exact fun heq => hne (by rw [hout]; cases heq; rfl)
  simp only [← Effect.outcome_bind_pure]
  exact ⟨fun hne => hrefines.transparent hused hfresh (hends hne),
    fun hne => hrefines.transparent hfresh hused (hends hne)⟩

end Interprocedural

namespace Interpreter

theorem creatorAnalysis_modular : creatorAnalysis.Modular := by
  refine modular counting (.inr rfl) (FlowGraph.built_assemble _) ?_ ?_ rfl
  · unfold FlowGraph.Confined
    decide +kernel
  · refine FlowGraph.acyclic_of_rank (fun m => if m = creator then 1 else 0) ?_
    decide +kernel

/-- The creator was analysed before, with another entry state. -/
def creatorWarm : Session (MachineState (Powerset Nat)) Unit :=
  (creatorAnalysis.analyze 5 creator (creatorEntry 0) ()).final (.start .never)

/-- The call of the identity is resolved by the cache, and the block is the one of a new session. -/
theorem analyze_transparent_creator :
    ((creatorAnalysis.analyze 5 creator (creatorEntry 1) ()).final creatorWarm).statistics.cacheHits = 1 ∧
      ∃ n, ∀ j, n ≤ j →
        ((creatorAnalysis.analyze j creator (creatorEntry 1) ()).outcome (.start .never)).map (·.block) =
          ((creatorAnalysis.analyze 5 creator (creatorEntry 1) ()).outcome creatorWarm).map (·.block) := by
  refine ⟨by decide +kernel, ?_⟩
  have hwarm : creatorAnalysis.Visited AbortSignal.Quiet creatorWarm := .analyze _ _ _ _ (.start trivial)
  have hends : ((creatorAnalysis.analyze 5 creator (creatorEntry 1) ()).outcome creatorWarm).isOk = true := by
    decide +kernel
  have hnever : AbortSignal.never.Quiet := trivial
  obtain ⟨hbuilt, hconfined, hacyclic, hdepth, hsteps⟩ := Interprocedural.modular_iff.1 creatorAnalysis_modular
  have htransparent := Interprocedural.analyze_transparent hbuilt hconfined hacyclic hdepth hsteps hwarm hnever
    creator (creatorEntry 1) () 5
  exact htransparent.1 fun hexhausted => by simp [hexhausted, Except.isOk, Except.toBool] at hends

/-! ### Steps that leave the method -/

def outer : Method := ⟨"Main", "outer", ⟨[], some (.base .int)⟩, true⟩

def middle : Method := ⟨"Main", "middle", ⟨[], some (.base .int)⟩, true⟩

def inner : Method := ⟨"Main", "inner", ⟨[], some (.base .int)⟩, true⟩

def visitor : Method := ⟨"Main", "visit", ⟨[], some (.base .int)⟩, true⟩

/-- The outer method calls the middle one, which calls the inner one, as a visitor does. Two states meet inside the
inner method. -/
def strayGraph : FlowGraph :=
  (FlowGraph.assemble [.method outer, .method middle, .method inner,
    .instruction inner (some 0) (some 1) (.getStatic "A" false),
    .instruction inner (some 0) (some 1) (.getStatic "B" false),
    .instruction inner (some 0) (some 2) (.getStatic "A" false),
    .instruction inner (some 2) (some (-1)) (.ret 1),
    .invoke middle (some 0) (some 1) .static inner,
    .instruction middle (some 1) (some (-1)) (.ret 1),
    .invoke outer (some 5) (some 6) .static middle,
    .method visitor,
    .invoke visitor (some 0) (some 1) .static inner]).graph

theorem strayGraph_confined : strayGraph.Confined := by
  unfold FlowGraph.Confined
  decide +kernel

theorem strayGraph_acyclic : strayGraph.Acyclic := by
  refine FlowGraph.acyclic_of_rank (fun m => if m = outer then 2 else if m = inner then 0 else 1) ?_
  decide +kernel

def strayState (n : NodeId) (count : Nat) : MachineState (Powerset Nat) :=
  ⟨n, ⟨List.replicate count .empty, []⟩, .ofList [("A", .singleton 1), ("B", .singleton 2)]⟩

/-- Where two states meet, exploration goes on at the call in the outer method. -/
def strayAnalysis : Interprocedural (MachineState (Powerset Nat)) Int :=
  counting.interprocedural strayGraph
    ⟨Operators.mergeSep, Operators.stopSep, Operators.adjustFrom 2 (some (strayState 13 0)) 0⟩ .initial

def strayWarm : Session (MachineState (Powerset Nat)) Int :=
  (strayAnalysis.analyze 20 middle (strayState 6 0) 0).final (.start .never)

/-- From these two nodes of the inner method, states stray to the call in the outer one. -/
def stray (n : NodeId) : NodeId := if n = 9 ∨ n = 10 then 13 else n

/-- A state that is nothing but its node, and that relocation may lead astray. -/
structure Walker (drifts : Bool) where
  node : NodeId
  deriving DecidableEq

instance (drifts : Bool) : Located (Walker drifts) where
  location := Walker.node
  relocate n _ := ⟨if drifts then stray n else n⟩

instance (drifts : Bool) : Domain (Walker drifts) := ⟨fun s t => decide (s = t)⟩

/-- States stray in the given step only. The call in the middle method is followed by entering the inner one or not at
all. -/
def strayingAt (step : Interprocedural.Placement) : Interprocedural (Walker (decide (step = .relocation))) Unit where
  graph := strayGraph
  relation := .stateless fun s e _ =>
    if s.node = 6 ∧ e.label.isInvoke = true then .error (.contract (.state .emptyStack)) else .ok [s]
  operators :=
    { merge := fun c r _ => if step = .merging then ⟨stray c.node⟩ else r
      stop := Operators.stopSep
      adjust := fun s p _ => (if step = .adjustment then ⟨stray s.node⟩ else s, p) }
  reduce _ n _ := .ok ⟨if step = .reduction then stray n else n⟩
  expand _ x _ _ := .ok x
  options := .initial

theorem strayingAt_respects {step other : Interprocedural.Placement} (h : other ≠ step) :
    (strayingAt step).Respects other := by
  cases other with
  | relocation =>
    intro n s
    exact if_neg (by simpa using Ne.symm h)
  | adjustment =>
    intro s p l
    exact congrArg (fun t => strayGraph.methodAt? (location t)) (if_neg h.symm)
  | merging =>
    intro c r p hloc
    exact (congrArg (fun t => strayGraph.methodAt? (location t)) (if_neg h.symm)).trans
      (congrArg strayGraph.methodAt? hloc)
  | reduction =>
    intro n d s k hd hreduce
    cases hreduce
    have hentry := FlowGraph.methodAt?_entry ((FlowGraph.built_assemble _).entry?_of_knownCall hd)
    exact (congrArg strayGraph.methodAt? (if_neg h.symm)).trans hentry

def strayingWarm (step : Interprocedural.Placement) : Session (Walker (decide (step = .relocation))) Unit :=
  ((strayingAt step).analyze 20 middle ⟨6⟩ ()).final (.start .never)

/-- Once states leave their methods, an acyclic program can be entered recursively, and then it shows whether
the middle method was analysed before. Each of the steps by itself is enough for that. -/
theorem analyze_not_transparent_stray :
    strayGraph.Built ∧ strayGraph.Confined ∧ strayGraph.Acyclic ∧
      (strayAnalysis.options.maxDepth = none ∧ strayAnalysis.Visited AbortSignal.Quiet strayWarm ∧
        ((strayAnalysis.analyze 20 inner (strayState 9 1) 0).outcome strayWarm).isOk = true ∧
        ((strayAnalysis.analyze 20 inner (strayState 9 1) 0).outcome (.start .never)).isOk = true ∧
        ((strayAnalysis.analyze 20 inner (strayState 9 1) 0).outcome strayWarm).toOption.map
            (·.block.reached.all.toList) ≠
          ((strayAnalysis.analyze 20 inner (strayState 9 1) 0).outcome (.start .never)).toOption.map
            (·.block.reached.all.toList)) ∧
      ∀ step, (strayingAt step).options.maxDepth = none ∧
        (∀ other, other ≠ step → (strayingAt step).Respects other) ∧
        (strayingAt step).Visited AbortSignal.Quiet (strayingWarm step) ∧
        (((strayingAt step).analyze 20 visitor ⟨17⟩ ()).outcome (strayingWarm step)).isOk = true ∧
        (((strayingAt step).analyze 20 visitor ⟨17⟩ ()).outcome (.start .never)).map (·.block) =
          .error (.fault (.contract (.state .emptyStack))) := by
  refine ⟨FlowGraph.built_assemble _, strayGraph_confined, strayGraph_acyclic,
    ⟨rfl, .analyze _ _ _ _ (.start trivial), ?_, ?_, ?_⟩,
    fun step => ⟨rfl, fun _ => strayingAt_respects, .analyze _ _ _ _ (.start trivial), ?_, ?_⟩⟩
  · decide +kernel
  · decide +kernel
  · decide +kernel
  · cases step <;> decide +kernel
  · cases step <;> decide +kernel

end Interpreter

end BytecodeFlow
