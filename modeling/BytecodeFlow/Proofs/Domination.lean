import BytecodeFlow.Proofs.Memoisation
import BytecodeFlow.Proofs.Monotone

/-! # Reached states lie above generated ones

When states at one node are joined, a block ends up with one state at each node. That state has grown while
the analysis went on, and it is the only one that later steps can see; what was generated on the way was
generated from smaller states. With a monotone interpreter nothing is lost: every state that is ever
generated lies below the one that is reached in the end, also inside callees, whose entry states have grown
in the same way. And whatever the state at a node holds was contributed by an edge that leads to the node.
-/
namespace BytecodeFlow

open Interprocedural

namespace Interprocedural

variable {S P : Type} [DecidableEq S] [DecidableEq P] [Located S]

/-- A state to which an edge leads, along the edge itself or through a callee, still at the edge's
source. -/
inductive Contributes (A : Interprocedural S P) (p : P) (s : S) (e : Edge) : S → Prop
  | along {l : List S} {t : S} : (e.label.isInvoke = true → A.apart (location s) = true) →
    A.along s e p = .ok l → t ∈ l → Contributes A p s e t
  | call {d : Edge × Call} {k x t : S} : e.label.isInvoke = true → d ∈ A.graph.knownCalls (location s) →
    A.reduce s d.1.target d.2 = .ok k → A.Generated False p d.2.target k x →
    A.graph.returnExit? d.2.target = some (location x) → A.expand s x d.1.target d.2 = .ok t →
    Contributes A p s e t

variable {A : Interprocedural S P} {c : BlockCache S P} {p : P} {s : S} {e : Edge} {d : Edge × Call}
  {l : List S}

/-- The blocks of a cache, as far as there are any. -/
def cached (c : BlockCache S P) : BlockOf S P :=
  fun m k p => (c.get? m k p).elim (.error .exhausted) .ok

omit [Located S] in
theorem Resolved.directCall {r : Option (List S)} (h : A.Resolved False c p s d r) :
    A.directCall (cached c) s p d = .ok (r.getD []) := by
  cases h with
  | givenUp hfalse => exact hfalse.elim
  | entered hreduce hget hafter =>
    rw [directCall_of_reduce hreduce]
    simp only [cached, hget, Option.elim_some]
    change (A.afterCall s d _).mapError Halt.fault = _
    rw [hafter]
    rfl

theorem mapM_directCall {results : List (Option (List S))}
    (h : List.Forall₂ (A.Resolved False c p s) (A.graph.knownCalls (location s)) results) :
    (A.graph.knownCalls (location s)).mapM (A.directCall (cached c) s p) =
      .ok (results.map (·.getD [])) := by
  rw [mapM_eq_ok, List.forall₂_map_right_iff]
  exact h.imp fun _ _ hr => hr.directCall

/-- Where an edge leads is computed by looking up the blocks of callees. -/
theorem Followed.directFollow (h : A.Followed False c p s e l) :
    A.directFollow (cached c) s p e = .ok l := by
  unfold Interprocedural.directFollow
  cases h with
  | plain hplain halong =>
    rw [if_neg (by simp [hplain]), halong]
    rfl
  | calls hinvoke hnot _ hresults =>
    rw [if_pos hinvoke, mapM_directCall hresults]
    change (if A.apart (location s) = true then _ else _) = _
    rw [if_neg (by simp [hnot])]
    rfl
  | both hinvoke hapart hresults halong =>
    rw [if_pos hinvoke, mapM_directCall hresults]
    change (if A.apart (location s) = true then _ else _) = _
    rw [if_pos (hapart.resolve_right id), halong]
    rfl

end Interprocedural

namespace MachineState

variable {V P : Type} [JoinDomain V] [DecidableEq V] [DecidableEq P]

/-- At each node the states that are generated for a block have stacks of the same height: its entry state,
and whatever the edges lead to from its states. -/
structure Balanced (A : Interprocedural (MachineState V) P) (c : BlockCache (MachineState V) P) : Prop where
  entry {m : Method} {k : MachineState V} {p : P} {b : Block (MachineState V)} :
    c.get? m k p = some b → ∀ r ∈ b.reached.all.toList, r.node = k.node →
      k.frame.stack.length = r.frame.stack.length
  step {m : Method} {k : MachineState V} {p : P} {b : Block (MachineState V)} :
    c.get? m k p = some b → ∀ s ∈ b.reached.all.toList, ∀ e ∈ A.graph.leavingIntraprocedural s.node,
      ∀ l, A.Followed False c p s e l → ∀ t ∈ l, ∀ r ∈ b.reached.all.toList, r.node = e.target →
        t.frame.stack.length = r.frame.stack.length

omit [JoinDomain V] in
/-- Whether a cache is balanced can be computed from its results. -/
theorem balanced_of_toList {A : Interprocedural (MachineState V) P} {c : BlockCache (MachineState V) P}
    (hentry : ∀ r ∈ c.toList, ∀ s ∈ r.2.block.reached.all.toList, s.node = r.2.entry.node →
      r.2.entry.frame.stack.length = s.frame.stack.length)
    (hstep : ∀ r ∈ c.toList, ∀ s ∈ r.2.block.reached.all.toList, ∀ e ∈ A.graph.leavingIntraprocedural s.node,
      ∀ t ∈ (A.directFollow (cached c) s r.2.precision e).toOption.getD [],
        ∀ s' ∈ r.2.block.reached.all.toList, s'.node = e.target →
          t.frame.stack.length = s'.frame.stack.length) : Balanced A c where
  entry hb := by
    obtain ⟨id, hid⟩ := BlockCache.mem_toList_of_get? hb
    exact hentry _ hid
  step hb s hs e he l hl t ht := by
    obtain ⟨id, hid⟩ := BlockCache.mem_toList_of_get? hb
    refine hstep _ hid s hs e he t ?_
    rw [hl.directFollow]
    exact ht

variable [Inhabited V] [PointedLattice V] {I : Interpreter V} {g : FlowGraph} {options : Options}
  {c : BlockCache (MachineState V) P} {m : Method} {p : P} {k k' s t : MachineState V}
  {b : Block (MachineState V)} {e : Edge}

omit [DecidableEq P] in
theorem unifying_join : (Operators.join : Operators (MachineState V) P).Unifying := by
  intro s t p hloc
  have hjoinable : JoinDomain.joinable s t = true := joinable_iff.2 hloc
  have hmerge : (Operators.join : Operators (MachineState V) P).merge s t p = JoinDomain.join s t :=
    if_pos hjoinable
  rw [hmerge]
  refine ⟨hloc, ?_⟩
  change [JoinDomain.join s t].any (Domain.le s) = true
  simpa using LawfulJoinDomain.le_join_left hjoinable

omit [DecidableEq P] [PointedLattice V] in
theorem merge_join (h : location t = location s) :
    (I.joining g options).operators.merge s t p = s.join t :=
  if_pos (joinable_iff.2 h.symm)

omit [PointedLattice V] in
/-- The entry state of a complete block lies below one of its states. -/
theorem below_of_entry (hbalanced : Balanced (I.joining g options) c) (hb : c.get? m k p = some b)
    (hcomplete : (I.joining g options).Complete False c m k p b) :
    ∃ r ∈ b.reached.all.toList, k.Below r := by
  obtain ⟨r, hr, hle⟩ := hcomplete.entry
  exact ⟨r, hr, below_of_le hle (hbalanced.entry hb r hr (le_iff.1 hle).1.symm)⟩

omit [PointedLattice V] in
/-- So do the states to which the edges of a complete block lead. -/
theorem below_of_followed (hbalanced : Balanced (I.joining g options) c) (hb : c.get? m k p = some b)
    (hcomplete : (I.joining g options).Complete False c m k p b) (hs : s ∈ b.reached.all.toList)
    (he : e ∈ g.leavingIntraprocedural s.node) :
    ∃ l, (I.joining g options).Followed False c p s e l ∧
      ∀ t ∈ l, ∃ r ∈ b.reached.all.toList, (relocate e.target t).Below r := by
  obtain ⟨l, hl, hcovers⟩ := hcomplete.followed hs he
  refine ⟨l, hl, fun t ht => ?_⟩
  obtain ⟨r, hr, hle⟩ := hcovers t ht
  have hnode : e.target = r.node := (le_iff.1 hle).1
  exact ⟨r, hr, below_of_le hle (hbalanced.step hb s hs e he l hl t ht r hr hnode.symm)⟩

/-- Every state that a method generates from some entry state lies below a state of each complete block for
a larger entry state. -/
theorem dominated (hI : I.Monotone) (hbalanced : Balanced (I.joining g options) c)
    (hcomplete : ∀ m k p b, c.get? m k p = some b → (I.joining g options).Complete False c m k p b)
    (h : (I.joining g options).Generated False p m k s) (hb : c.get? m k' p = some b) (hk : k.Below k') :
    ∃ r ∈ b.reached.all.toList, s.Below r := by
  -- the entry state of a callee is larger in the complete block, so the block has to vary
  induction h generalizing k' b with
  | entry m k =>
    obtain ⟨r, hr, hbelow⟩ := below_of_entry hbalanced hb (hcomplete _ _ _ _ hb)
    exact ⟨r, hr, hk.trans hbelow⟩
  | @along m k s t e l _ he hapart halong ht ih =>
    obtain ⟨s', hs', hbelow⟩ := ih hb hk
    have he' : e ∈ g.leavingIntraprocedural s'.node := hbelow.node ▸ he
    obtain ⟨l', hl', hreached⟩ := below_of_followed hbalanced hb (hcomplete _ _ _ _ hb) hs' he'
    obtain ⟨k₁, halong', hsub⟩ : ∃ k, s'.along I e = .ok k ∧ ∀ t ∈ k, t ∈ l' := by
      by_cases hinvoke : e.label.isInvoke = true
      · have happ := (hapart hinvoke).resolve_right id
        exact hl'.along_of_apart (show (I.joining g options).apart s'.node = true from hbelow.node ▸ happ)
      · exact ⟨l', hl'.along_of_plain (by simpa using hinvoke), fun _ h => h⟩
    obtain ⟨_, _, hintra⟩ := FlowGraph.mem_leavingIntraprocedural.1 he
    obtain ⟨u, rfl⟩ := along_eq_singleton hintra halong
    obtain ⟨u', rfl⟩ := along_eq_singleton hintra halong'
    obtain rfl := List.mem_singleton.1 ht
    obtain ⟨r, hr, hbelow'⟩ := hreached u' (hsub u' (by simp))
    have hstep := hbelow.along hI halong halong'
    exact ⟨r, hr, (hstep.relocate e.target).trans hbelow'⟩
  | @call m k s k₁ x t e d _ he hinvoke hd hreduce _ hexit hexpand ih ihx =>
    obtain ⟨s', hs', hbelow⟩ := ih hb hk
    have he' : e ∈ g.leavingIntraprocedural s'.node := hbelow.node ▸ he
    have hd' : d ∈ g.knownCalls s'.node := hbelow.node ▸ hd
    obtain ⟨l', hl', hreached⟩ := below_of_followed hbalanced hb (hcomplete _ _ _ _ hb) hs' he'
    obtain ⟨hfalse, _⟩ | ⟨k₂, b₂, hreduce', hb₂, hexits⟩ := hl'.call hinvoke hd'
    · exact hfalse.elim
    · obtain ⟨x', hx', hbelowx⟩ := ihx hb₂ (hbelow.reduce hreduce hreduce')
      have hexit' : x' ∈ b₂.exits :=
        (hcomplete _ _ _ _ hb₂).mem_exits.2 ⟨hx', hexit.trans (congrArg some hbelowx.node)⟩
      obtain ⟨t', ht', hexpand'⟩ := hexits x' hexit'
      obtain ⟨r, hr, hbelow'⟩ := hreached t' ht'
      have hstep := hbelow.expand hbelowx hexpand hexpand'
      exact ⟨r, hr, (hstep.relocate e.target).trans hbelow'⟩
  | @merge m k s t _ _ hloc ihs iht =>
    obtain ⟨s', hs', hbelow⟩ := ihs hb hk
    obtain ⟨t', ht', hbelow'⟩ := iht hb hk
    have hnode : location s' = location t' :=
      hbelow.node.symm.trans (hloc.symm.trans hbelow'.node)
    obtain rfl := (hcomplete _ _ _ _ hb).single unifying_join s' hs' t' ht' hnode
    refine ⟨s', hs', ?_⟩
    rw [merge_join hloc]
    exact hbelow.join hbelow'

omit [DecidableEq P] [PointedLattice V] in
/-- What a generated state away from the entry node holds was contributed by an edge from a generated
state. The property has to come apart over joins. -/
theorem contributed {Q : MachineState V → Prop}
    (hrelocate : ∀ n s, Q (relocate n s) → Q s)
    (hjoin : ∀ s t, s.frame.stack.length = t.frame.stack.length → Q (s.join t) → Q s ∨ Q t)
    (hheight : ∀ s t, (I.joining g options).Generated False p m k s →
      (I.joining g options).Generated False p m k t → t.node = s.node →
      s.frame.stack.length = t.frame.stack.length)
    (h : (I.joining g options).Generated False p m k s) (hloc : s.node ≠ k.node) (hQ : Q s) :
    ∃ s₀ e t, (I.joining g options).Generated False p m k s₀ ∧ e ∈ g.leavingIntraprocedural s₀.node ∧
      e.target = s.node ∧ (I.joining g options).Contributes p s₀ e t ∧ Q t := by
  induction h with
  | entry => exact absurd rfl hloc
  | @along m k s t e l hs he hapart halong ht ih =>
    exact ⟨s, e, t, hs, he, rfl, .along (fun h => (hapart h).resolve_right id) halong ht,
      hrelocate e.target t hQ⟩
  | @call m k s k₁ x t e d hs he hinvoke hd hreduce hx hexit hexpand ih =>
    exact ⟨s, e, t, hs, he, rfl, .call hinvoke hd hreduce hx hexit hexpand, hrelocate e.target t hQ⟩
  | @merge m k s t hs ht hnode ihs iht =>
    rw [merge_join hnode] at hQ hloc ⊢
    rcases hjoin s t (hheight s t hs ht hnode) hQ with hQ | hQ
    · exact ihs hheight hloc hQ
    · have hloc' : t.node ≠ k.node := fun heq => hloc (hnode.symm.trans heq)
      obtain ⟨s₀, e, u, hs₀, he, htarget, hu⟩ := iht hheight hloc' hQ
      exact ⟨s₀, e, u, hs₀, he, htarget.trans hnode, hu⟩

end MachineState

end BytecodeFlow
