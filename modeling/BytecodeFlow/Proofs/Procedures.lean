import BytecodeFlow.Proofs.Resolution

/-! # What an analysis keeps

Every step of an analysis leaves a cache that holds complete blocks only, whether the step succeeds or not.
A block is cached after its run has ended, so the runs that are still going on never show in the cache. The
argument follows the recursion: resolving a call, following an edge, computing successors, running a
procedure, analysing, and at last any sequence of analyses.
-/
namespace BytecodeFlow

namespace Interprocedural

variable {S P τ : Type} [DecidableEq S] [DecidableEq P] [Located S]

/-! ### The steps, as functions of the session -/

section Equations

variable (A : Interprocedural S P τ) (nested : Runner S P τ) (s : S) (p : P) (σ : Session S P τ)

omit [DecidableEq S] [DecidableEq P] [Located S] in
theorem expandAll_eq (d : Edge × Call) (exits : List S) :
    A.expandAll s d.1 d.2 exits σ = match A.afterCall s d exits with
      | .ok l => .ok (some l) σ
      | .error f => .error (.fault f) σ := by
  unfold expandAll
  rw [Effect.mapM_ofExcept, Effect.bind_eq, afterCall]
  cases exits.mapM fun x => A.expand s x d.1.target d.2 <;> rfl

def gaveUp (call : Call) (reason : Fallback) (σ : Session S P τ) : Session S P τ :=
  (σ.note (.notEntered call reason)).countFallback

def stored (m : Method) (k : S) (p : P) (b : Block S) (σ : Session S P τ) : Session S P τ :=
  { σ.countNested with cache := σ.cache.insert m k p b }

omit [Located S] in
theorem resolve_eq (d : Edge × Call) :
    A.resolve nested s p d.1 d.2 σ =
      if d.2.target ∈ σ.callStack then .ok none (gaveUp d.2 .recursion σ)
      else if A.depthReached σ.callStack.length then .ok none (gaveUp d.2 .depthLimit σ)
      else match A.reduce s d.1.target d.2 with
        | .error f => .error (.fault f) σ
        | .ok k => match σ.cache.get? d.2.target k p with
          | some b => A.expandAll s d.1 d.2 b.exits σ.countHit
          | none => match nested d.2.target k p σ with
            | .error h ρ => .error h ρ
            | .ok run ρ =>
              if run.aborted then .ok none (gaveUp d.2 .abortedCallee ρ.countNested)
              else A.expandAll s d.1 d.2
                (((ρ.cache.insert d.2.target k p run.block).get? d.2.target k p).getD run.block).exits
                (stored d.2.target k p run.block ρ) := by
  unfold resolve
  rw [Effect.bind_eq]
  change (if d.2.target ∈ σ.callStack then _ else _ : Effect _ _) σ = _
  split
  · rfl
  · split
    · rfl
    · rw [Effect.bind_eq]
      cases A.reduce s d.1.target d.2 with
      | error f => rfl
      | ok k =>
        simp only [Effect.ofExcept_ok]
        cases σ.cache.get? d.2.target k p with
        | some b => rfl
        | none =>
          simp only [Effect.bind_eq]
          cases nested d.2.target k p σ with
          | error h ρ => rfl
          | ok run ρ =>
            obtain ⟨block, aborted⟩ := run
            cases aborted <;> rfl

omit [DecidableEq S] [DecidableEq P] [Located S] in
/-- A relation without state leaves the session as it is. -/
theorem ask_eq (A : Interprocedural S P) (s : S) (p : P) (e : Edge) : A.ask s p e = Effect.ofExcept (A.along s e p) :=
  rfl

theorem follow_of_plain {e : Edge} (h : e.label.isInvoke = false) : A.follow nested s p e = A.ask s p e := by
  unfold follow
  rw [if_neg (by simp [h])]

omit [Located S] in
theorem collect_eq (e : Edge) (apart : Bool) (calls : List (Edge × Call)) :
    (do
      let results ← calls.mapM fun d => A.resolve nested s p d.1 d.2
      let entered := results.flatMap (·.getD [])
      if apart || results.any Option.isNone then
        return entered ++ (← A.ask s p e)
      else return entered : Effect (Session S P τ) (List S)) σ =
    match (calls.mapM fun d => A.resolve nested s p d.1 d.2) σ with
    | .error h ρ => .error h ρ
    | .ok results ρ =>
      if apart || results.any Option.isNone then
        match A.ask s p e ρ with
        | .ok l υ => .ok (results.flatMap (·.getD []) ++ l) υ
        | .error h υ => .error h υ
      else .ok (results.flatMap (·.getD [])) ρ := by
  rw [Effect.bind_eq]
  cases (calls.mapM fun d => A.resolve nested s p d.1 d.2) σ with
  | error h ρ => rfl
  | ok results ρ =>
    simp only
    split
    · rw [Effect.bind_eq]
      cases A.ask s p e ρ <;> rfl
    · rfl

theorem follow_of_invoke {e : Edge} (h : e.label.isInvoke = true) :
    A.follow nested s p e σ =
      match ((A.graph.knownCalls (location s)).mapM fun d => A.resolve nested s p d.1 d.2)
        (if A.apart (location s) then σ.countFallback else σ) with
      | .error h ρ => .error h ρ
      | .ok results ρ =>
        if A.apart (location s) || results.any Option.isNone then
          match A.ask s p e ρ with
          | .ok l υ => .ok (results.flatMap (·.getD []) ++ l) υ
          | .error h υ => .error h υ
        else .ok (results.flatMap (·.getD [])) ρ := by
  rw [← collect_eq]
  unfold follow apart
  rw [if_pos h]
  by_cases hapart : ((A.graph.knownCalls (location s)).isEmpty || A.graph.callsUnknown (location s)) = true
  · rw [if_pos hapart, if_pos hapart]
    rfl
  · rw [if_neg hapart, if_neg hapart]

omit [DecidableEq P] in
theorem valid_begin {A : Interprocedural S P τ} {k : S} : (A.begin k).Valid :=
  Search.valid_add k LocatedStates.indexed_empty

def conclude (A : Interprocedural S P τ) (m : Method) (o : Outcome) (q : Search (LocatedStates S) S)
    (ρ : Session S P τ) : EStateM.Result Halt (Session S P τ) (ProcedureRun S) :=
  match o with
  | .completed => .ok ⟨A.block m q.reached, false⟩ (ρ.leave.noteAll (q.notices o))
  | .aborted => .ok ⟨A.block m q.reached, true⟩ (ρ.leave.noteAll (q.notices o))
  | .halted h => .error h (ρ.leave.noteAll (q.notices o))

theorem runWith_eq {A : Interprocedural S P τ} {nested : Runner S P τ} {k : S} {p : P} {m : Method}
    {σ ρ : Session S P τ} {fuel : Nat} {o : Outcome} {q : Search (LocatedStates S) S}
    (hrun : (A.analysis nested).run p fuel (A.begin k) (σ.enter m) = (o, q, ρ)) :
    A.runWith fuel nested m k p σ = A.conclude m o q ρ := by
  simp only [runWith, begin] at hrun ⊢
  rw [hrun]
  cases o <;> rfl

def report (A : Interprocedural S P τ) (m : Method) (σ : Session S P τ) : Session S P τ :=
  if A.options.statistics then σ.note (.analyzed m σ.statistics σ.cache.size) else σ

theorem analyze_eq (A : Interprocedural S P τ) (fuel : Nat) (m : Method) (s : S) (p : P) (σ : Session S P τ) :
    A.analyze fuel m s p σ = match A.graph.entry? m with
      | none => .error (.fault (.contract (.missingProcedure m.qualifiedName))) σ
      | some entry =>
        if location s ≠ entry then
          .error (.fault (.contract (.state (.misplacedEntry m.qualifiedName (location s) entry)))) σ
        else match A.procedure fuel A.room m s p σ with
          | .error h ρ => .error h ρ
          | .ok run ρ =>
            if run.aborted then .ok ⟨run.block, none⟩ (A.report m ρ)
            else
              .ok ⟨((ρ.cache.insert m s p run.block).get? m s p).getD run.block,
                (ρ.cache.insert m s p run.block).find? m s p⟩
                (A.report m { ρ with cache := ρ.cache.insert m s p run.block }) := by
  unfold analyze
  cases A.graph.entry? m with
  | none => rfl
  | some entry =>
    simp only
    by_cases hloc : location s ≠ entry
    · rw [if_pos hloc, if_pos hloc]
      rfl
    · rw [if_neg hloc, if_neg hloc]
      rw [Effect.bind_eq]
      cases A.procedure fuel A.room m s p σ with
      | error h ρ => rfl
      | ok run ρ =>
        obtain ⟨block, aborted⟩ := run
        unfold report
        cases aborted <;> cases A.options.statistics <;> rfl

end Equations

section Stateless

variable (A : Interprocedural S P) (nested : Runner S P) (s : S) (p : P) (σ : Session S P)

theorem follow_plain {e : Edge} (h : e.label.isInvoke = false) :
    A.follow nested s p e σ = Effect.ofExcept (A.along s e p) σ := by
  rw [follow_of_plain A nested s p h, ask_eq]

theorem follow_invoke {e : Edge} (h : e.label.isInvoke = true) :
    A.follow nested s p e σ =
      match ((A.graph.knownCalls (location s)).mapM fun d => A.resolve nested s p d.1 d.2)
        (if A.apart (location s) then σ.countFallback else σ) with
      | .error h τ => .error h τ
      | .ok results τ =>
        if A.apart (location s) || results.any Option.isNone then
          match A.along s e p with
          | .ok l => .ok (results.flatMap (·.getD []) ++ l) τ
          | .error f => .error (.fault f) τ
        else .ok (results.flatMap (·.getD [])) τ := by
  rw [follow_of_invoke A nested s p σ h]
  cases ((A.graph.knownCalls (location s)).mapM fun d => A.resolve nested s p d.1 d.2)
      (if A.apart (location s) then σ.countFallback else σ) with
  | error h τ => rfl
  | ok results τ =>
    simp only [ask_eq]
    cases A.along s e p <;> rfl

end Stateless

/-! ### Sessions between steps -/

def Grows (σ τ : Session S P) : Prop := σ.cache.Extends τ.cache

variable [Domain S]

/-- All cached blocks are complete, and unless calls may be given up, the signal is quiet and exactly these
procedures are being analysed. -/
structure Ready (A : Interprocedural S P) (given : Prop) (callers : List Method) (σ : Session S P) :
    Prop where
  blocks : ∀ m k p b, σ.cache.get? m k p = some b → A.Complete given σ.cache m k p b
  orderly : given ∨ σ.signal.Quiet ∧ σ.callStack = callers

/-- Running the procedure gives a complete block, or is aborted where calls may be given up. -/
def Computes (A : Interprocedural S P) (given : Prop) (nested : Runner S P) (callers : List Method)
    (m : Method) (k : S) (p : P) : Prop :=
  Effect.Keeps (A.Ready given callers) Grows
    (fun σ run => (run.aborted = true → given) ∧
      (run.aborted = false → A.Complete given σ.cache m k p run.block)) (nested m k p)

variable {A : Interprocedural S P} {given : Prop} {callers : List Method} {nested : Runner S P}
  {σ τ : Session S P} {p : P} {s k : S} {m : Method}

omit [Located S] [Domain S] in
theorem Grows.refl (σ : Session S P) : Grows σ σ := BlockCache.Extends.refl _

omit [Located S] [Domain S] in
theorem Grows.trans {σ τ υ : Session S P} (h : Grows σ τ) (h' : Grows τ υ) : Grows σ υ :=
  BlockCache.Extends.trans h h'

theorem Ready.congr (h : A.Ready given callers σ) (hcache : τ.cache = σ.cache)
    (hstack : τ.callStack = σ.callStack) (hsignal : τ.signal = σ.signal) : A.Ready given callers τ :=
  ⟨hcache ▸ h.blocks, hstack ▸ hsignal ▸ h.orderly⟩

theorem Ready.insert (h : A.Ready given callers σ) {b : Block S}
    (hb : A.Complete given σ.cache m k p b) :
    A.Ready given callers { σ with cache := σ.cache.insert m k p b } := by
  refine ⟨fun n k' p' b' hget => ?_, h.orderly⟩
  have hgrows : σ.cache.Extends (σ.cache.insert m k p b) := BlockCache.extends_insert _ _ _ _ _
  rcases BlockCache.get?_insert_cases hget with hget | ⟨rfl, rfl, rfl, rfl⟩
  · exact (h.blocks n k' p' b' hget).mono hgrows
  · exact hb.mono hgrows

/-! ### Calls, edges and successors -/

theorem keeps_expandAll {d : Edge × Call} {b : Block S} (hreduce : A.reduce s d.1.target d.2 = .ok k)
    (hσ : A.Ready given callers σ) (hget : σ.cache.get? d.2.target k p = some b) :
    Effect.Leads (A.Ready given callers) Grows (fun τ r => A.Resolved given τ.cache p s d r) σ
      (A.expandAll s d.1 d.2 b.exits σ) := by
  rw [expandAll_eq]
  cases hafter : A.afterCall s d b.exits with
  | error f => exact ⟨hσ, .refl σ⟩
  | ok l => exact ⟨hσ, .refl σ, .entered hreduce hget hafter⟩

/-- A call is given up only where this is allowed, and otherwise its target has a block afterwards. -/
theorem keeps_resolve {d : Edge × Call}
    (hfree : given ∨ d.2.target ∉ callers ∧ A.options.maxDepth = none)
    (hnested : ∀ k, A.reduce s d.1.target d.2 = .ok k →
      A.Computes given nested callers d.2.target k p) :
    Effect.Keeps (A.Ready given callers) Grows (fun τ r => A.Resolved given τ.cache p s d r)
      (A.resolve nested s p d.1 d.2) := by
  intro σ hσ
  rw [resolve_eq]
  split
  · rename_i hmem
    have hgiven : given := by
      rcases hσ.orderly with hgiven | ⟨_, hstack⟩
      · exact hgiven
      · exact hfree.resolve_right fun h => h.1 (hstack ▸ hmem)
    exact ⟨hσ.congr rfl rfl rfl, .refl σ, .givenUp hgiven⟩
  · split
    · rename_i hdepth
      have hgiven : given := hfree.resolve_right fun h => by simp [depthReached, h.2] at hdepth
      exact ⟨hσ.congr rfl rfl rfl, .refl σ, .givenUp hgiven⟩
    · cases hreduce : A.reduce s d.1.target d.2 with
      | error f => exact ⟨hσ, .refl σ⟩
      | ok k =>
        simp only
        cases hget : σ.cache.get? d.2.target k p with
        | some b => exact keeps_expandAll (σ := σ.countHit) hreduce (hσ.congr rfl rfl rfl) hget
        | none =>
          simp only
          cases hrun : nested d.2.target k p σ with
          | error h τ => exact (hnested k hreduce).error hσ hrun
          | ok run τ =>
            obtain ⟨hτ, hgrows, haborted, hcomplete⟩ := (hnested k hreduce).ok hσ hrun
            simp only
            split
            · rename_i h
              exact ⟨hτ.congr rfl rfl rfl, hgrows, .givenUp (haborted h)⟩
            · rename_i h
              have hstored : A.Ready given callers (stored d.2.target k p run.block τ) :=
                (hτ.insert (hcomplete (by simpa using h))).congr rfl rfl rfl
              have hb := BlockCache.get?_insert τ.cache d.2.target d.2.target k k p p run.block
              rw [if_pos ⟨rfl, rfl, rfl⟩] at hb
              rw [hb]
              have hmore : Grows σ (stored d.2.target k p run.block τ) :=
                hgrows.trans (BlockCache.extends_insert _ _ _ _ _)
              exact (keeps_expandAll hreduce hstored hb).trans Grows.trans hmore

theorem keeps_follow {e : Edge}
    (hfree : ∀ d ∈ A.graph.knownCalls (location s),
      given ∨ d.2.target ∉ callers ∧ A.options.maxDepth = none)
    (hnested : ∀ d ∈ A.graph.knownCalls (location s), ∀ k, A.reduce s d.1.target d.2 = .ok k →
      A.Computes given nested callers d.2.target k p) :
    Effect.Keeps (A.Ready given callers) Grows (fun τ l => A.Followed given τ.cache p s e l)
      (A.follow nested s p e) := by
  intro σ hσ
  by_cases hinvoke : e.label.isInvoke = true
  · rw [follow_invoke A nested s p σ hinvoke]
    have hstart : A.Ready given callers (if A.apart (location s) then σ.countFallback else σ) := by
      split
      · exact hσ.congr rfl rfl rfl
      · exact hσ
    have hsame : Grows σ (if A.apart (location s) then σ.countFallback else σ) := by
      split <;> exact .refl σ
    have hresolve := Effect.Keeps.mapM (I := A.Ready given callers)
      (Q := fun τ d r => A.Resolved given τ.cache p s d r) Grows.refl Grows.trans
      (fun hgrows hr => hr.mono hgrows) fun d hd => keeps_resolve (hfree d hd) (hnested d hd)
    cases hresults : ((A.graph.knownCalls (location s)).mapM fun d => A.resolve nested s p d.1 d.2)
        (if A.apart (location s) then σ.countFallback else σ) with
    | error h τ =>
      obtain ⟨hτ, hgrows⟩ := hresolve.error hstart hresults
      exact ⟨hτ, hsame.trans hgrows⟩
    | ok results τ =>
      obtain ⟨hτ, hgrows, hforall⟩ := hresolve.ok hstart hresults
      simp only
      split
      · rename_i hcond
        have hapart : A.apart (location s) = true ∨ given := by
          rw [Bool.or_eq_true, List.any_eq_true] at hcond
          refine hcond.imp_right fun ⟨r, hr, hnone⟩ => ?_
          obtain ⟨d, _, hresolved⟩ := exists_of_forall₂_right hforall hr
          cases hresolved with
          | givenUp hgiven => exact hgiven
          | entered => simp at hnone
        cases halong : A.along s e p with
        | error f => exact ⟨hτ, hsame.trans hgrows⟩
        | ok l => exact ⟨hτ, hsame.trans hgrows, .both hinvoke hapart hforall halong⟩
      · rename_i hcond
        rw [Bool.or_eq_true, List.any_eq_true, not_or] at hcond
        exact ⟨hτ, hsame.trans hgrows, .calls hinvoke (by simpa using hcond.1)
          (fun hnone => hcond.2 ⟨none, hnone, rfl⟩) hforall⟩
  · have hplain : e.label.isInvoke = false := by simpa using hinvoke
    rw [follow_plain A nested s p σ hplain]
    cases halong : A.along s e p with
    | error f => exact ⟨hσ, .refl σ⟩
    | ok l => exact ⟨hσ, .refl σ, .plain hplain halong⟩

theorem keeps_transfer
    (hfree : ∀ d ∈ A.graph.knownCalls (location s),
      given ∨ d.2.target ∉ callers ∧ A.options.maxDepth = none)
    (hnested : ∀ d ∈ A.graph.knownCalls (location s), ∀ k, A.reduce s d.1.target d.2 = .ok k →
      A.Computes given nested callers d.2.target k p) :
    Effect.Keeps (A.Ready given callers) Grows (fun τ l => A.Succeeded given τ.cache p s l)
      (A.transfer nested s p) := by
  have hparts := Effect.Keeps.mapM (I := A.Ready given callers) (l := A.graph.leavingIntraprocedural (location s))
    (Q := fun τ e part => ∃ k, A.Followed given τ.cache p s e k ∧ part = k.map (relocate e.target))
    Grows.refl Grows.trans (fun hgrows ⟨k, hk, hpart⟩ => ⟨k, hk.mono hgrows, hpart⟩)
    fun e _ => (keeps_follow (e := e) hfree hnested).map fun τ k hk => ⟨k, hk, rfl⟩
  exact hparts.map fun τ parts h => ⟨parts, h, rfl⟩

/-! ### Procedures -/

omit [DecidableEq P] [Domain S] in
theorem reaches_begin {x : S} : (A.begin k).Reaches x ↔ x = k := by
  unfold begin
  rw [Search.reaches_add]
  simp [Search.Reaches, ReachedSet.states, LocatedStates.empty, OrderedSet.empty]

omit [DecidableEq P] [Domain S] in
theorem awaits_begin {x : S} : (A.begin k).Awaits x ↔ x = k := by
  unfold begin
  rw [Search.awaits_add]
  simp [Search.Awaits, Waitlist.empty]

omit [DecidableEq P] [Domain S] in
theorem single_begin : (A.begin k).Single := by
  intro s t hs ht _
  rw [reaches_begin.1 hs, reaches_begin.1 ht]

/-- No method calls itself, runs may nest as deep as they need, and states stay in their method: edges inside
a method, merging and adjusting do not leave it, and a callee is entered in a state of its own. -/
structure Modular (A : Interprocedural S P) : Prop where
  built : A.graph.Built
  confined : A.graph.Confined
  acyclic : A.graph.Acyclic
  unbounded : A.options.maxDepth = none
  location_relocate (n : NodeId) (s : S) : location (relocate n s) = n
  adjusted (s : S) (p : P) (l : List S) :
    A.graph.methodAt? (location (A.operators.adjust s p l).1) = A.graph.methodAt? (location s)
  merged {c r : S} (p : P) : location r = location c →
    A.graph.methodAt? (location (A.operators.merge c r p)) = A.graph.methodAt? (location c)
  reduced {n : NodeId} {d : Edge × Call} {s k : S} : d ∈ A.graph.knownCalls n →
    A.reduce s d.1.target d.2 = .ok k → A.graph.methodAt? (location k) = some d.2.target

omit [DecidableEq S] [DecidableEq P] [Domain S] in
theorem Modular.stays (hA : A.Modular) (h : A.Generated given p m k s)
    (hk : A.graph.methodAt? (location k) = some m) : A.graph.methodAt? (location s) = some m := by
  have hedge : ∀ {x : S} {e : Edge}, e ∈ A.graph.leavingIntraprocedural (location x) →
      A.graph.methodAt? e.target = A.graph.methodAt? (location x) := by
    intro x e he
    obtain ⟨hmem, hsource, hintra⟩ := FlowGraph.mem_leavingIntraprocedural.1 he
    rw [hA.confined e hmem hintra, hsource]
  induction h with
  | entry => exact hk
  | along _ he _ _ _ ih => rw [hA.location_relocate, hedge he, ih hk]
  | call _ he _ _ _ _ _ _ ih => rw [hA.location_relocate, hedge he, ih hk]
  | merge _ _ hloc ih => rw [hA.merged _ hloc, ih hk]

/-- The method may be entered in this state from these callers. -/
def Enters (A : Interprocedural S P) (given : Prop) (callers : List Method) (m : Method) (k : S) : Prop :=
  A.Entry m k ∧ (given ∨ A.graph.Awaited callers m ∧ A.graph.methodAt? (location k) = some m)

omit [DecidableEq S] [DecidableEq P] [Domain S] in
theorem Enters.call (hfree : given ∨ A.Modular) (h : A.Enters given callers m k)
    (hs : A.Generated given p m k s) {d : Edge × Call} (hd : d ∈ A.graph.knownCalls (location s)) :
    (given ∨ d.2.target ∉ callers ++ [m] ∧ A.options.maxDepth = none) ∧
      ∀ k', A.reduce s d.1.target d.2 = .ok k' → A.Enters given (callers ++ [m]) d.2.target k' := by
  rcases hfree with hgiven | hfree
  · exact ⟨.inl hgiven, fun _ hreduce => ⟨.call hd hreduce, .inl hgiven⟩⟩
  · rcases h.2 with hgiven | ⟨hawaited, hmethod⟩
    · exact ⟨.inl hgiven, fun _ hreduce => ⟨.call hd hreduce, .inl hgiven⟩⟩
    · have hcall := hawaited.call ⟨location s, hfree.stays hs hmethod, d, hd, rfl⟩
      exact ⟨.inr ⟨hcall.not_mem hfree.acyclic, hfree.unbounded⟩,
        fun k' hreduce => ⟨.call hd hreduce, .inr ⟨hcall, hfree.reduced hd hreduce⟩⟩⟩

theorem accounts_analysis (hfree : given ∨ A.Modular) (henters : A.Enters given callers m k)
    (hnested : ∀ callers m k, A.Enters given callers m k → A.Computes given nested callers m k p) :
    (A.analysis nested).Accounts (LocatedStates S) p (A.Ready given (callers ++ [m])) Grows
      (fun _ x => A.Generated given p m k x) (fun σ x l => A.Succeeded given σ.cache p x l) := by
  have htransfer : ∀ {x}, A.Generated given p m k x →
      Effect.Keeps (A.Ready given (callers ++ [m])) Grows (fun τ l => A.Succeeded given τ.cache p x l)
        (A.transfer nested x p) := by
    intro x hx
    exact keeps_transfer (fun d hd => (henters.call hfree hx hd).1)
      fun d hd k' hreduce => hnested _ _ _ ((henters.call hfree hx hd).2 k' hreduce)
  constructor
  · exact Grows.refl
  · exact Grows.trans
  · exact fun _ h => h
  · exact fun hgrows h => h.mono hgrows
  · intro σ hσ
    exact ⟨⟨hσ.blocks, hσ.orderly.imp_right fun h => ⟨h.1.poll.2, h.2⟩⟩, .refl σ⟩
  · intro σ τ x l hσ hx hok
    obtain ⟨hτ, hgrows, hl⟩ := (htransfer hx).ok hσ hok
    exact ⟨hτ, hgrows, hl, hl.generated (fun m k b => hτ.blocks m k p b) hx⟩
  · intro σ τ x h hσ hx herror
    exact (htransfer hx).error hσ herror
  · intro σ r c x hr hx hc hUx
    exact .merge hc hUx ((LocatedStates.mem_statesAt hr).1 hx).2

theorem computes_runWith [PreorderedDomain S] (hO : A.operators.Covering) (fuel : Nat)
    (hfree : given ∨ A.Modular) (henters : A.Enters given callers m k)
    (hnested : ∀ callers m k, A.Enters given callers m k → A.Computes given nested callers m k p) :
    A.Computes given (A.runWith fuel nested) callers m k p := by
  intro σ hσ
  rcases hrun : (A.analysis nested).run p fuel (A.begin k) (σ.enter m) with ⟨o, q, τ⟩
  have hready : A.Ready given (callers ++ [m]) (σ.enter m) :=
    ⟨hσ.blocks, hσ.orderly.imp_right fun h => ⟨h.1, by rw [← h.2]; rfl⟩⟩
  have hstart : (A.begin k).All (fun x => A.Generated given p m k x) := by
    constructor
    · intro x hx
      rw [reaches_begin.1 hx]
      exact .entry m k
    · intro x hx
      rw [awaits_begin.1 hx]
      exact .entry m k
  have hfin := (accounts_analysis hfree henters hnested).run hO valid_begin hready hstart
    (fun x hx hnot => absurd (awaits_begin.2 (reaches_begin.1 hx)) hnot) hrun
  have hleave : A.Ready given callers (τ.leave.noteAll (q.notices o)) := by
    refine ⟨hfin.inv.blocks, hfin.inv.orderly.imp_right fun h => ⟨h.1, ?_⟩⟩
    change τ.callStack.dropLast = callers
    rw [h.2, List.dropLast_concat]
  rw [runWith_eq hrun]
  cases o with
  | halted h => exact ⟨hleave, hfin.ext⟩
  | aborted =>
    refine ⟨hleave, hfin.ext, fun _ => ?_, nofun⟩
    obtain ⟨σ₁, hσ₁, hpoll⟩ := hfin.aborted rfl
    refine hσ₁.orderly.resolve_right fun h => ?_
    change σ₁.signal.poll.1 = true at hpoll
    rw [h.1.poll.1] at hpoll
    cases hpoll
  | completed =>
    refine ⟨hleave, hfin.ext, nofun, fun _ => ?_⟩
    refine ⟨henters.1, hfin.valid, rfl, hfin.covers k (reaches_begin.2 rfl), hfin.all.reached, hfin.settled rfl,
      ⟨nested, fuel, _, _, q, hrun, rfl⟩, ?_⟩
    intro hunify s hs t ht hloc
    exact Analysis.run_single hunify.uniting hrun single_begin valid_begin s t hs ht hloc

theorem computes_procedure [PreorderedDomain S] (hO : A.operators.Covering)
    (hfree : given ∨ A.Modular) (fuel room : Nat) (henters : A.Enters given callers m k) :
    A.Computes given (A.procedure fuel room) callers m k p := by
  induction room generalizing callers m k with
  | zero => exact fun σ hσ => ⟨hσ, .refl σ⟩
  | succ room ih => exact computes_runWith hO fuel hfree henters fun _ _ _ h => ih h

/-! ### Analyses -/

theorem Ready.report (h : A.Ready given callers σ) (m : Method) : A.Ready given callers (A.report m σ) := by
  unfold Interprocedural.report
  split
  · exact h.congr rfl rfl rfl
  · exact h

omit [Located S] [Domain S] in
theorem grows_report (A : Interprocedural S P) (m : Method) (σ : Session S P) : Grows σ (A.report m σ) := by
  unfold report
  split <;> exact .refl σ

/-- An analysis keeps the cache complete, however it ends. -/
theorem keeps_analyze [PreorderedDomain S] (hO : A.operators.Covering)
    (hfree : given ∨ A.Modular) (fuel : Nat) (m : Method) (s : S) (p : P) :
    Effect.Keeps (A.Ready given []) Grows (fun _ _ => True) (A.analyze fuel m s p) := by
  intro σ hσ
  rw [analyze_eq]
  cases hentry : A.graph.entry? m with
  | none => exact ⟨hσ, .refl σ⟩
  | some entry =>
    simp only
    split
    · exact ⟨hσ, .refl σ⟩
    · rename_i hloc
      have hmethod : A.graph.methodAt? (location s) = some m := by
        rw [of_not_not hloc]
        exact FlowGraph.methodAt?_entry hentry
      have hcomputes := computes_procedure (p := p) hO hfree fuel A.room
        ⟨.start (by rw [hentry, of_not_not hloc]), .inr ⟨FlowGraph.awaited_nil m, hmethod⟩⟩
      cases hrun : A.procedure fuel A.room m s p σ with
      | error h τ => exact hcomputes.error hσ hrun
      | ok run τ =>
        obtain ⟨hτ, hgrows, _, hcomplete⟩ := hcomputes.ok hσ hrun
        simp only
        split
        · exact ⟨hτ.report m, hgrows.trans (grows_report A m τ), trivial⟩
        · rename_i h
          have hinsert := hτ.insert (hcomplete (by simpa using h))
          have hextends : Grows τ { τ with cache := τ.cache.insert m s p run.block } :=
            BlockCache.extends_insert _ _ _ _ _
          exact ⟨hinsert.report m, hgrows.trans (hextends.trans (grows_report A m _)), trivial⟩

/-- The sessions that arise from a new one by analyses, whether these succeed or not. Between two analyses
the abort signal may be changed. -/
inductive Visited (A : Interprocedural S P) (allowed : AbortSignal → Prop) : Session S P → Prop
  | start {signal : AbortSignal} : allowed signal → Visited A allowed (Session.start signal)
  | analyze {σ : Session S P} (fuel : Nat) (m : Method) (s : S) (p : P) : Visited A allowed σ →
    Visited A allowed ((A.analyze fuel m s p).final σ)
  | signal {σ : Session S P} {signal : AbortSignal} : allowed signal → Visited A allowed σ →
    Visited A allowed { σ with signal }

theorem Visited.ready [PreorderedDomain S] {allowed : AbortSignal → Prop} (hO : A.operators.Covering)
    (hfree : given ∨ A.Modular) (hallowed : ∀ signal, allowed signal → given ∨ signal.Quiet)
    (h : A.Visited allowed σ) : A.Ready given [] σ := by
  induction h with
  | start hsignal => exact ⟨nofun, (hallowed _ hsignal).imp_right fun h => ⟨h, rfl⟩⟩
  | analyze fuel m s p _ ih => exact ((keeps_analyze hO hfree fuel m s p).final ih).1
  | signal hsignal _ ih =>
    refine ⟨ih.blocks, ?_⟩
    rcases hallowed _ hsignal with hgiven | hquiet
    · exact .inl hgiven
    · exact ih.orderly.imp_right fun h => ⟨hquiet, h.2⟩

end Interprocedural

end BytecodeFlow
