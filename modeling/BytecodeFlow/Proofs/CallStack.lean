import BytecodeFlow.Proofs.LockStep
import BytecodeFlow.Proofs.MachineAnalysis
import BytecodeFlow.Proofs.Moments

/-! # The call stack of an analysis

A call is followed only to a procedure that is not being analysed yet, and only up to the limit on the depth. Thus at
every moment the procedures that are being analysed are different ones, each can be entered, and they are at most as
many as can be entered. In particular the bound on the recursion of `procedure` is never reached, and a larger one
would not change any run. Every procedure that is entered is left again, however its run ends.
-/
namespace BytecodeFlow

/-! ### Computations that agree -/

/-- Computations that agree as long as `I` holds agree one after the other. -/
theorem Effect.mapM_congr {σ α β : Type} {f g : α → Effect σ β} {l : List α} {I : σ → Prop} {s : σ}
    (hkeeps : ∀ a s, I s → I ((f a).final s)) (heq : ∀ a ∈ l, ∀ s, I s → f a s = g a s) (hs : I s) :
    l.mapM f s = l.mapM g s := by
  induction l generalizing s with
  | nil => rfl
  | cons a l ih =>
    have ht := hkeeps a s hs
    rw [List.mapM_cons, List.mapM_cons, bind_eq, bind_eq, ← heq a List.mem_cons_self s hs]
    cases hc : f a s with
    | error e t => rfl
    | ok b t =>
      rw [(outcome_final_of_ok hc).2] at ht
      simp only [bind_eq, ih (fun a ha => heq a (List.mem_cons_of_mem _ ha)) ht]

/-- Analyses that find the same successors as long as `I` holds run alike. -/
theorem Analysis.run_congr {σ R S P : Type} [ReachedSet R S] [DecidableEq S] {A B : Analysis σ S P} {p : P}
    {I : σ → Prop} (hpoll : A.poll = B.poll) (hoperators : A.operators = B.operators)
    (hpolled : ∀ s, I s → I (A.poll s).2) (hkeeps : ∀ x p s, I s → I ((A.transfer x p).final s))
    (htransfer : ∀ x p s, I s → A.transfer x p s = B.transfer x p s) {fuel : Nat} {q : Search R S} {s : σ}
    (hs : I s) : A.run p fuel q s = B.run p fuel q s := by
  have halike : A.Alike B fun s t => s = t ∧ I s := by
    constructor
    · exact hoperators
    · rintro s _ ⟨rfl, hs⟩
      rw [← hpoll]
      exact ⟨rfl, rfl, hpolled s hs⟩
    · rintro s _ x p ⟨rfl, hs⟩
      have hsame := htransfer x p s hs
      exact ⟨Effect.outcome_congr hsame, Effect.final_congr hsame, hkeeps x p s hs⟩
  obtain ⟨t, hrun, ht, _⟩ := halike.run ⟨rfl, hs⟩ (Prod.eta (A.run p fuel q s)).symm
  rw [hrun, ← ht]

namespace Interprocedural

variable {S P : Type} {A : Interprocedural S P} {root m n : Method} {stack : List Method}

/-! ### Stacks of procedures -/

/-- The stack lists different procedures from the root on, all of which can be entered; they are no more than can be
entered, and no more than the limit allows, the root aside. -/
structure Orderly (A : Interprocedural S P) (root : Method) (stack : List Method) : Prop where
  nodup : stack.Nodup
  root : stack.head? = some root
  entry : ∀ n ∈ stack, (A.graph.entry? n).isSome = true
  length_le : stack.length ≤ {n | (A.graph.entry? n).isSome = true}.ncard
  limited : ∀ limit, A.options.maxDepth = some limit → stack.length ≤ max 1 limit

theorem mem_entered (h : (A.graph.entry? n).isSome = true) : n ∈ A.graph.entered := by
  obtain ⟨e, he⟩ := Option.isSome_iff_exists.1 h
  exact FlowGraph.mem_entered_of_entry he

theorem length_le_ncard (hnodup : stack.Nodup) (hentry : ∀ n ∈ stack, (A.graph.entry? n).isSome = true) :
    stack.length ≤ {n | (A.graph.entry? n).isSome = true}.ncard := by
  have hfinite : {n | (A.graph.entry? n).isSome = true}.Finite :=
    (List.finite_toSet A.graph.entered).subset fun n hn => mem_entered hn
  have hsub : (stack.toFinset : Set Method) ⊆ {n | (A.graph.entry? n).isSome = true} := by
    intro n hn
    exact hentry n (List.mem_toFinset.1 hn)
  have hcard := Set.ncard_le_ncard hsub hfinite
  rwa [Set.ncard_coe_finset, List.toFinset_card_of_nodup hnodup] at hcard

theorem Orderly.length_le_room (h : A.Orderly root stack) : stack.length ≤ A.room :=
  (List.subperm_of_subset h.nodup fun n hn => mem_entered (h.entry n hn)).length_le

theorem orderly_root (h : (A.graph.entry? root).isSome = true) : A.Orderly root [root] := by
  have hentry : ∀ n ∈ [root], (A.graph.entry? n).isSome = true := by
    intro n hn
    rw [List.mem_singleton.1 hn]
    exact h
  exact ⟨List.nodup_singleton root, rfl, hentry, length_le_ncard (List.nodup_singleton root) hentry,
    fun limit _ => Nat.le_max_left 1 limit⟩

/-- A callee that is entered keeps the stack orderly. -/
theorem Orderly.push (h : A.Orderly root stack) (hn : n ∉ stack) (hentry : (A.graph.entry? n).isSome = true)
    (hdepth : A.depthReached stack.length = false) : A.Orderly root (stack ++ [n]) := by
  have hnodup : (stack ++ [n]).Nodup := by
    rw [← List.concat_eq_append]
    exact h.nodup.concat hn
  have hentries : ∀ n' ∈ stack ++ [n], (A.graph.entry? n').isSome = true := by
    intro n' hn'
    rcases List.mem_append.1 hn' with hn' | hn'
    · exact h.entry n' hn'
    · rw [List.mem_singleton.1 hn']
      exact hentry
  refine ⟨hnodup, ?_, hentries, length_le_ncard hnodup hentries, fun limit hlimit => ?_⟩
  · rw [List.head?_append, h.root]
    rfl
  · have hless : stack.length < limit := by simpa [depthReached, hlimit] using hdepth
    rw [List.length_append, List.length_singleton]
    exact Nat.le_trans hless (Nat.le_max_right 1 limit)

variable [DecidableEq S] [DecidableEq P] [Located S] {nested nested' : Runner S P} {σ τ : Session S P} {k s : S}
  {p : P} {d : Edge × Call} {fuel room room' : Nat}

omit [DecidableEq S] [DecidableEq P] [Located S] in
theorem isSome_entry?_of_knownCall (hbuilt : A.graph.Built) {n : NodeId} (hd : d ∈ A.graph.knownCalls n) :
    (A.graph.entry? d.2.target).isSome = true := by
  rw [hbuilt.entry?_of_knownCall hd]
  rfl

/-- The stack is orderly at every moment of a run that has been entered in an orderly way. -/
theorem orderly_of_mem_moments (hbuilt : A.graph.Built) (hσ : A.Orderly root (σ.callStack ++ [m]))
    (hτ : τ ∈ A.moments fuel room m k p σ) : A.Orderly root τ.callStack := by
  induction room generalizing m k p σ τ with
  | zero => cases hτ
  | succ room ih =>
    refine (enclosed_procedure A fuel room).watched (I := fun υ => υ.callStack = σ.callStack ++ [m])
      (Q := fun υ => A.Orderly root υ.callStack) (fun _ _ hυ hevolves => hevolves.callStack.trans hυ)
      (fun _ hυ => hυ ▸ hσ) ?_ (A.begin k) rfl τ hτ
    intro n d hd s p υ k' hυ hmiss x hx
    rw [← hυ] at hσ
    exact ih (hσ.push hmiss.absent (isSome_entry?_of_knownCall hbuilt hd) hmiss.shallow) hx

/-! ### The bound on the recursion -/

/-- The runners agree on the calls that are followed while exactly these procedures are being analysed. -/
def Agree (A : Interprocedural S P) (stack : List Method) (nested nested' : Runner S P) : Prop :=
  ∀ n, ∀ d ∈ A.graph.knownCalls n, d.2.target ∉ stack → A.depthReached stack.length = false →
    ∀ k p (σ : Session S P), σ.callStack = stack → nested d.2.target k p σ = nested' d.2.target k p σ

omit [Located S] in
theorem Agree.resolve (h : A.Agree stack nested nested') {n : NodeId} (hd : d ∈ A.graph.knownCalls n)
    (hσ : σ.callStack = stack) : A.resolve nested s p d.1 d.2 σ = A.resolve nested' s p d.1 d.2 σ := by
  rw [resolve_eq, resolve_eq]
  by_cases hmem : d.2.target ∈ σ.callStack
  · rw [if_pos hmem, if_pos hmem]
  · by_cases hdepth : A.depthReached σ.callStack.length = true
    · rw [if_neg hmem, if_neg hmem, if_pos hdepth, if_pos hdepth]
    · rw [hσ, Bool.not_eq_true] at hdepth
      rw [hσ] at hmem
      have hsame : ∀ k, nested d.2.target k p σ = nested' d.2.target k p σ := fun k => h n d hd hmem hdepth k p σ hσ
      simp only [hsame]

theorem Agree.arrive (h : A.Agree stack nested nested') (hnested : Enclosed nested) (hσ : σ.callStack = stack)
    (e : Edge) : A.arrive nested s p e σ = A.arrive nested' s p e σ := by
  have hfollow : A.follow nested s p e σ = A.follow nested' s p e σ := by
    cases hinvoke : e.label.isInvoke with
    | true =>
      have hstart : (if A.apart (location s) then σ.countFallback else σ).callStack = stack :=
        (evolves_apart A s σ).callStack.trans hσ
      have hcalls := Effect.mapM_congr (l := A.graph.knownCalls (location s))
        (fun d τ hτ => (hnested.resolve s p d τ).callStack.trans hτ)
        (fun d hd τ hτ => h.resolve (s := s) (p := p) hd hτ) hstart
      rw [follow_invoke A nested s p σ hinvoke, follow_invoke A nested' s p σ hinvoke, hcalls]
    | false => rw [follow_plain A nested s p σ hinvoke, follow_plain A nested' s p σ hinvoke]
  unfold Interprocedural.arrive
  rw [Effect.bind_eq, Effect.bind_eq, hfollow]

theorem Agree.transfer (h : A.Agree stack nested nested') (hnested : Enclosed nested) (hσ : σ.callStack = stack) :
    A.transfer nested s p σ = A.transfer nested' s p σ := by
  have hedges := Effect.mapM_congr (l := A.graph.leavingIntraprocedural (location s))
    (fun e τ hτ => (hnested.arrive s p e τ).callStack.trans hτ)
    (fun e _ τ hτ => h.arrive (s := s) (p := p) hnested hτ e) hσ
  change (List.mapM (A.arrive nested s p) _ >>= _) σ = (List.mapM (A.arrive nested' s p) _ >>= _) σ
  rw [Effect.bind_eq, Effect.bind_eq, hedges]

theorem Agree.runWith (h : A.Agree (σ.callStack ++ [m]) nested nested') (hnested : Enclosed nested) :
    A.runWith fuel nested m k p σ = A.runWith fuel nested' m k p σ := by
  have hrun : (A.analysis nested).run p fuel (A.begin k) (σ.enter m) =
      (A.analysis nested').run p fuel (A.begin k) (σ.enter m) := by
    refine Analysis.run_congr (A := A.analysis nested) (B := A.analysis nested')
      (I := fun τ => τ.callStack = σ.callStack ++ [m]) rfl rfl ?_ ?_ ?_ rfl
    · exact fun τ hτ => hτ
    · exact fun x p τ hτ => (hnested.transfer x p τ).callStack.trans hτ
    · exact fun x p τ hτ => h.transfer hnested hτ
  rcases hresult : (A.analysis nested').run p fuel (A.begin k) (σ.enter m) with ⟨o, q, τ⟩
  rw [runWith_eq hresult, runWith_eq (hrun.trans hresult)]

/-- Bounds that leave room for all procedures that are not yet being analysed make no difference. -/
theorem procedure_eq_of_room (hbuilt : A.graph.Built) (hσ : A.Orderly root (σ.callStack ++ [m]))
    (hroom : A.room ≤ σ.callStack.length + room) (hroom' : A.room ≤ σ.callStack.length + room') :
    A.procedure fuel room m k p σ = A.procedure fuel room' m k p σ := by
  have hlength : σ.callStack.length + 1 ≤ A.room := by
    have hle := hσ.length_le_room
    rwa [List.length_append, List.length_singleton] at hle
  induction room generalizing room' m k p σ with
  | zero => omega
  | succ room ih =>
    obtain ⟨room', rfl⟩ : ∃ n, room' = n + 1 := ⟨room' - 1, by omega⟩
    refine Agree.runWith ?_ (enclosed_procedure A fuel room)
    intro n d hd hmem hdepth k p τ hτ
    have hpush := hσ.push hmem (isSome_entry?_of_knownCall hbuilt hd) hdepth
    have hdeeper := hpush.length_le_room
    rw [← hτ] at hpush
    rw [List.length_append, List.length_append, List.length_singleton, List.length_singleton] at hdeeper
    have hstack : τ.callStack.length = σ.callStack.length + 1 := by
      rw [hτ, List.length_append, List.length_singleton]
    exact ih hpush (by omega) (by omega) (by omega)

/-! ### Analyses -/

/-- An analysis ends as the run of its procedure does, apart from the cache and from what is noted at the end. -/
theorem analyze_ends (A : Interprocedural S P) (fuel : Nat) (m : Method) (s : S) (p : P) (σ : Session S P)
    (hentry : A.graph.entry? m = some (location s)) :
    ((A.analyze fuel m s p).final σ).callStack = ((A.procedure fuel A.room m s p).final σ).callStack ∧
      ((A.analyze fuel m s p).final σ).enteredStacks = ((A.procedure fuel A.room m s p).final σ).enteredStacks := by
  rw [final_analyze, if_pos hentry]
  cases hrun : A.procedure fuel A.room m s p σ with
  | error h τ =>
    rw [(Effect.outcome_final_of_error hrun).2]
    exact ⟨rfl, rfl⟩
  | ok run τ =>
    rw [(Effect.outcome_final_of_ok hrun).2]
    simp only [(evolves_report A m _).callStack, enteredStacks_report]
    split <;> exact ⟨rfl, rfl⟩

theorem callStack_analyze (A : Interprocedural S P) (fuel : Nat) (m : Method) (s : S) (p : P) (σ : Session S P) :
    ((A.analyze fuel m s p).final σ).callStack = σ.callStack := by
  by_cases hentry : A.graph.entry? m = some (location s)
  · rw [(analyze_ends A fuel m s p σ hentry).1]
    exact (enclosed_procedure A fuel A.room m s p σ).1.callStack
  · rw [final_analyze, if_neg hentry]

theorem Visited.callStack {allowed : AbortSignal → Prop} (h : A.Visited allowed σ) : σ.callStack = [] := by
  induction h with
  | start => rfl
  | analyze fuel m s p _ ih => exact (callStack_analyze A fuel m s p _).trans ih
  | signal _ _ ih => exact ih

/-- Whatever was analysed before and however it ended: during an analysis the call stack is orderly at every moment and
whenever a procedure is entered, so that the bound on the recursion does not matter; and at the end it is empty again. -/
theorem callStack_disciplined {S P : Type} [DecidableEq S] [DecidableEq P] [Located S] {A : Interprocedural S P}
    (hbuilt : A.graph.Built) {σ : Session S P} (hσ : A.Visited (fun _ => True) σ) (fuel : Nat) (m : Method) (s : S)
    (p : P) :
    ((A.analyze fuel m s p).final σ).callStack = [] ∧
      (A.graph.entry? m = some (location s) →
        (∀ room, ∀ τ ∈ A.moments fuel room m s p σ, A.Orderly m τ.callStack) ∧
        Entered (A.Orderly m) σ ((A.analyze fuel m s p).final σ) ∧
        ∀ room, A.room ≤ room → A.procedure fuel room m s p σ = A.procedure fuel A.room m s p σ) := by
  have hempty := hσ.callStack
  refine ⟨(callStack_analyze A fuel m s p σ).trans hempty, fun hentry => ?_⟩
  have hroot : A.Orderly m (σ.callStack ++ [m]) := by
    rw [hempty]
    exact orderly_root (Option.isSome_iff_exists.2 ⟨_, hentry⟩)
  have horderly : ∀ room, ∀ τ ∈ A.moments fuel room m s p σ, A.Orderly m τ.callStack :=
    fun room τ hτ => orderly_of_mem_moments hbuilt hroot hτ
  refine ⟨horderly, ?_, fun room hroom => ?_⟩
  · have hentered : Entered (A.Orderly m) σ ((A.procedure fuel A.room m s p).final σ) := by
      refine Entered.mono (witnessed_moments A fuel A.room m s p σ) ?_
      rintro stack ⟨τ, hτ, rfl⟩
      exact horderly A.room τ hτ
    exact hentered.trans (.of_eq (analyze_ends A fuel m s p σ hentry).2)
  · exact procedure_eq_of_room hbuilt hroot (by omega) (by omega)

end Interprocedural

namespace Interpreter

def ping : Method := ⟨"Main", "ping", ⟨[], none⟩, true⟩

def pong : Method := ⟨"Main", "pong", ⟨[], none⟩, true⟩

def volleyGraph : FlowGraph :=
  (FlowGraph.assemble [.method ping, .method pong,
    .invoke ping (some 0) (some (-1)) .static pong,
    .invoke pong (some 0) (some (-1)) .static ping]).graph

def volleyAnalysis : Interprocedural (MachineState (Powerset Nat)) Unit :=
  counting.interprocedural volleyGraph .join ⟨some 3, .depthFirst, false⟩

def volleyEntry : MachineState (Powerset Nat) := ⟨3, .empty, .empty⟩

/-- The first analysis is aborted inside the callee. -/
def volleyAborted : Session (MachineState (Powerset Nat)) Unit :=
  (volleyAnalysis.analyze 5 ping volleyEntry ()).final (.start (.atPolls [1]))

/-- The second analysis enters the callee again, and gives up on the call that leads back. -/
theorem callStack_disciplined_volley :
    (volleyAnalysis.moments 5 volleyAnalysis.room ping volleyEntry () volleyAborted).map (·.callStack) =
        List.replicate 3 [ping] ++ List.replicate 7 [ping, pong] ++ List.replicate 4 [ping] ∧
      volleyAnalysis.Orderly ping [ping, pong] ∧
      ((volleyAnalysis.analyze 5 ping volleyEntry ()).final volleyAborted).callStack = [] := by
  have hstacks : (volleyAnalysis.moments 5 volleyAnalysis.room ping volleyEntry () volleyAborted).map (·.callStack) =
      List.replicate 3 [ping] ++ List.replicate 7 [ping, pong] ++ List.replicate 4 [ping] := by
    decide +kernel
  have hmem : [ping, pong] ∈
      (volleyAnalysis.moments 5 volleyAnalysis.room ping volleyEntry () volleyAborted).map (·.callStack) := by
    rw [hstacks]
    decide
  obtain ⟨τ, hτ, hstack⟩ := List.mem_map.1 hmem
  have hvisited : volleyAnalysis.Visited (fun _ => True) volleyAborted := .analyze _ _ _ _ (.start trivial)
  have hbuilt : volleyAnalysis.graph.Built := FlowGraph.built_assemble _
  obtain ⟨hempty, hrest⟩ := Interprocedural.callStack_disciplined hbuilt hvisited 5 ping volleyEntry ()
  have horderly := (hrest (by decide +kernel)).1 volleyAnalysis.room τ hτ
  rw [hstack] at horderly
  exact ⟨hstacks, horderly, hempty⟩

end Interpreter

end BytecodeFlow
