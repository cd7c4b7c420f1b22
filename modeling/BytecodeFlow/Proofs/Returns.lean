import BytecodeFlow.Proofs.Domination

/-! # Values that methods return

The states at the returns of a method meet at its exit with their whole stacks. Joining aligns stacks at
their bottom, while a caller takes the returned value from the top. So a returned value is found in the state
at the exit at its own height, which is the top only for the returns with the highest stack.
-/
namespace BytecodeFlow

open Interprocedural

def Edge.isReturn (e : Edge) : Bool := e.label.instruction?.any Instruction.isReturn

theorem Edge.label_of_isReturn {e : Edge} (h : e.isReturn = true) :
    ∃ i, e.label = .instruction i ∧ i.operation = .ret := by
  unfold isReturn at h
  cases hlabel : e.label with
  | instruction i => exact ⟨i, rfl, by simpa [hlabel, Label.instruction?, Instruction.isReturn] using h⟩
  | handler => simp [hlabel, Label.instruction?] at h
  | call c => simp [hlabel, Label.instruction?] at h

theorem Edge.isInvoke_of_isReturn {e : Edge} (h : e.isReturn = true) : e.label.isInvoke = false := by
  obtain ⟨i, hlabel, hi⟩ := label_of_isReturn h
  simp [hlabel, Label.isInvoke, Instruction.isInvoke, hi]

def FlowGraph.ReturnsOnly (g : FlowGraph) (n : NodeId) : Prop :=
  ∀ e ∈ g.enteringIntraprocedural n, e.isReturn = true

instance (g : FlowGraph) (n : NodeId) : Decidable (g.ReturnsOnly n) :=
  inferInstanceAs (Decidable (∀ e ∈ g.enteringIntraprocedural n, e.isReturn = true))

theorem FlowGraph.ne_returnExit_of_isEntryNode {g : FlowGraph} {m : Method} {n k : NodeId}
    (hexit : g.returnExit? m = some n) (hentry : g.isEntryNode k = true) : k ≠ n := by
  rintro rfl
  simp [isEntryNode, node, List.getD_eq_getElem?_getD, node_of_findNode hexit, Node.isEntry, Node.offset?,
    returnOffset, entryOffset] at hentry

/-! ### Stacks of different heights -/

theorem length_joinSlots {V : Type} [JoinDomain V] (l r : List V) :
    (joinSlots l r).length = max l.length r.length := by
  induction l generalizing r with
  | nil => simp
  | cons a l ih =>
    cases r with
    | nil => simp
    | cons b r => simp [joinSlots, ih]

namespace MachineState

variable {V : Type} [JoinDomain V] {s t : MachineState V}

theorem length_stack_join (s t : MachineState V) :
    (s.join t).frame.stack.length = max s.frame.stack.length t.frame.stack.length := by
  change (joinSlots s.frame.stack.reverse t.frame.stack.reverse).reverse.length = _
  rw [List.length_reverse, length_joinSlots, List.length_reverse, List.length_reverse]

variable [DecidableEq V]

theorem length_stack_le (h : Domain.le s t = true) : s.frame.stack.length ≤ t.frame.stack.length := by
  rw [← (le_iff.1 h).2, length_stack_join]
  exact Nat.le_max_left _ _

/-- A slot is covered by the slot at the same distance from the bottom of the other stack. -/
theorem under_of_le (h : Domain.le s t = true) (i : Nat) :
    Under (valueAt? s (.stack i))
      (valueAt? t (.stack (i + (t.frame.stack.length - s.frame.stack.length)))) := by
  change Under s.frame.stack[i]? t.frame.stack[i + (t.frame.stack.length - s.frame.stack.length)]?
  by_cases hi : i < s.frame.stack.length
  · have hheight := length_stack_le h
    have hslot := (le_iff_under.1 h).2.2.1 (s.frame.stack.length - 1 - i)
    rw [List.getElem?_reverse (by omega), List.getElem?_reverse (by omega)] at hslot
    rw [show s.frame.stack.length - 1 - (s.frame.stack.length - 1 - i) = i by omega,
      show t.frame.stack.length - 1 - (s.frame.stack.length - 1 - i) =
        i + (t.frame.stack.length - s.frame.stack.length) by omega] at hslot
    exact hslot
  · rw [List.getElem?_eq_none (Nat.not_lt.1 hi)]
    exact joinOption_none_left _

end MachineState

/-! ### The height at the exit -/

/-- Every successor comes from following some edge. -/
theorem Interprocedural.follow_of_transfer {S P : Type} [DecidableEq S] [DecidableEq P] [Located S]
    {A : Interprocedural S P} {nested : Runner S P} {s c : S} {p : P} {σ τ : Session S P} {l : List S}
    (h : A.transfer nested s p σ = .ok l τ) (hc : c ∈ l) :
    ∃ e ∈ A.graph.leavingIntraprocedural (location s), ∃ ρ ρ' k, A.follow nested s p e ρ = .ok k ρ' ∧
      ∃ t ∈ k, c = relocate e.target t := by
  unfold transfer at h
  rw [Effect.bind_eq] at h
  split at h
  · rename_i parts τ' hparts
    obtain ⟨rfl, -⟩ := EStateM.Result.ok.inj h
    obtain ⟨part, hpart, hc⟩ := List.mem_flatten.1 hc
    obtain ⟨e, he, ρ, ρ', hmap⟩ := exists_of_forall₂_right (Effect.forall₂_of_mapM_ok hparts) hpart
    rw [Effect.bind_eq] at hmap
    split at hmap
    · rename_i k ρ₁ hfollow
      obtain ⟨rfl, -⟩ := EStateM.Result.ok.inj hmap
      obtain ⟨t, ht, rfl⟩ := List.mem_map.1 hc
      exact ⟨e, he, ρ, ρ₁, k, hfollow, t, ht, rfl⟩
    · cases hmap
  · cases h

namespace Search

variable {V : Type} [DecidableEq V] {q q' : Search (LocatedStates (MachineState V)) (MachineState V)}
  {g : FlowGraph} {n exit : NodeId} {x y : MachineState V}

def Tops (q : Search (LocatedStates (MachineState V)) (MachineState V)) (n : NodeId)
    (x : MachineState V) : Prop :=
  ∃ r, q.Reaches r ∧ r.node = n ∧ x.frame.stack.length ≤ r.frame.stack.length

theorem Tops.of_le (h : q.Tops n y) (hle : x.frame.stack.length ≤ y.frame.stack.length) : q.Tops n x := by
  obtain ⟨r, hr, hn, hy⟩ := h
  exact ⟨r, hr, hn, Nat.le_trans hle hy⟩

/-- The state is no higher than the reached state at its node, and at the exit no higher than the reached
state at some return. -/
def Supports (q : Search (LocatedStates (MachineState V)) (MachineState V)) (g : FlowGraph) (exit : NodeId)
    (x : MachineState V) : Prop :=
  q.Tops x.node x ∧ (x.node = exit → ∃ e ∈ g.enteringIntraprocedural exit, q.Tops e.source x)

theorem Supports.of_le (h : q.Supports g exit y) (hnode : x.node = y.node)
    (hle : x.frame.stack.length ≤ y.frame.stack.length) : q.Supports g exit x := by
  refine ⟨hnode ▸ h.1.of_le hle, fun hexit => ?_⟩
  obtain ⟨e, he, htops⟩ := h.2 (hnode.symm.trans hexit)
  exact ⟨e, he, htops.of_le hle⟩

variable [JoinDomain V]

theorem tops_of_covers (h : q.Covers x) : q.Tops x.node x := by
  obtain ⟨r, hr, hle⟩ := h
  exact ⟨r, hr, (MachineState.le_iff.1 hle).1.symm, MachineState.length_stack_le hle⟩

theorem Tops.mono (h : q.Tops n x) (hq : ∀ r, q.Reaches r → q'.Covers r) : q'.Tops n x := by
  obtain ⟨r, hr, rfl, hx⟩ := h
  exact (tops_of_covers (hq r hr)).of_le hx

theorem Supports.mono (h : q.Supports g exit x) (hq : ∀ r, q.Reaches r → q'.Covers r) :
    q'.Supports g exit x := by
  refine ⟨h.1.mono hq, fun hexit => ?_⟩
  obtain ⟨e, he, htops⟩ := h.2 hexit
  exact ⟨e, he, htops.mono hq⟩

/-- A join is as high as one of the states. -/
theorem Supports.join (hx : q.Supports g exit x) (hy : q.Supports g exit y) (hnode : y.node = x.node) :
    q.Supports g exit (x.join y) := by
  rcases Nat.le_total x.frame.stack.length y.frame.stack.length with hle | hle
  · exact hy.of_le hnode.symm (by simp [MachineState.length_stack_join, hle])
  · exact hx.of_le rfl (by simp [MachineState.length_stack_join, hle])

end Search

namespace MachineState

variable {V P : Type} [Inhabited V] [JoinDomain V] [DecidableEq V] [DecidableEq P] {I : Interpreter V}
  {g : FlowGraph} {options : Options} {nested : Runner (MachineState V) P} {p : P}
  {q q' : Search (LocatedStates (MachineState V)) (MachineState V)} {σ τ : Session (MachineState V) P}
  {exit : NodeId} {s : MachineState V}

omit [JoinDomain V] [DecidableEq V] in
/-- A return changes nothing. -/
theorem along_of_isReturn {e : Edge} (he : e.isReturn = true) : s.along I e = .ok [s] := by
  obtain ⟨i, hlabel, hi⟩ := Edge.label_of_isReturn he
  simp [along, hlabel, execute, hi]

/-- What arrives at a node that is entered by returns only is a state before a return. -/
theorem arrived_of_transfer (hreturns : g.ReturnsOnly exit) {l : List (MachineState V)}
    (h : (I.joining g options).transfer nested s p σ = .ok l τ) {c : MachineState V} (hc : c ∈ l)
    (hnode : c.node = exit) :
    c.frame = s.frame ∧ ∃ e ∈ g.enteringIntraprocedural exit, e.source = s.node := by
  obtain ⟨e, he, ρ, ρ', k, hfollow, t, ht, rfl⟩ := follow_of_transfer h hc
  obtain ⟨hmem, hsource, hintra⟩ := FlowGraph.mem_leavingIntraprocedural.1 he
  have hentering : e ∈ g.enteringIntraprocedural exit :=
    FlowGraph.mem_enteringIntraprocedural.2 ⟨hmem, hnode, hintra⟩
  have hreturn := hreturns e hentering
  rw [follow_plain _ _ _ _ _ (Edge.isInvoke_of_isReturn hreturn)] at hfollow
  change (Effect.ofExcept (s.along I e) : Effect _ _) ρ = _ at hfollow
  rw [along_of_isReturn hreturn] at hfollow
  obtain ⟨rfl, -⟩ := EStateM.Result.ok.inj hfollow
  obtain rfl := List.mem_singleton.1 ht
  exact ⟨rfl, e, hentering, hsource⟩

variable [ValueLattice V]

/-- One iteration: whatever was reached is covered afterwards, so all that was supported before still is, and
what arrives at the exit was before a return. -/
theorem supported_next (hreturns : g.ReturnsOnly exit) (hv : q.Valid) (h : q.All (q.Supports g exit))
    (hnext : ((I.joining g options).analysis nested).iterate p q σ = .next q' τ) :
    q'.All (q'.Supports g exit) := by
  have hO : (Operators.join : Operators (MachineState V) P).Covering := Operators.covering_join
  obtain ⟨σ₁, s, w, l, _, hpop, htransfer, rfl⟩ := Analysis.iterate_next hnext
  rw [Analysis.adjusted_eq hO] at htransfer ⊢
  have hawaits : ∀ y, q.Awaits y ↔ y = s ∨ y ∈ w.pending := fun y => Waitlist.mem_of_pop? hpop
  have hcovers := (Search.advances_incorporateAll hO ⟨q.reached, w⟩ p l).covers
  have harrived := Search.covers_incorporateAll (l := l) hO (q := ⟨q.reached, w⟩) p hv
  refine Search.all_incorporateAll ⟨?_, ?_⟩ (fun c hc => ⟨Search.tops_of_covers (harrived c hc), ?_⟩) hv ?_
  · exact fun x hx => (h.reached x hx).mono hcovers
  · exact fun x hx => (h.pending x ((hawaits x).2 (.inr hx))).mono hcovers
  · intro hexit
    obtain ⟨hframe, e, he, hsource⟩ := arrived_of_transfer hreturns htransfer hc hexit
    have hs := (h.pending s ((hawaits s).2 (.inl rfl))).mono hcovers
    refine ⟨e, he, ?_⟩
    rw [hsource]
    exact hs.1.of_le (Nat.le_of_eq (by rw [hframe]))
  · intro r c x hr hx hc hUx
    have hloc : x.node = c.node := ((LocatedStates.mem_statesAt hr).1 hx).2
    have hmerge : (I.joining g options).operators.merge c x p = c.join x := merge_join hloc
    exact hmerge.symm ▸ hc.join hUx hloc

/-- A completed run from an entry of a method leaves nothing at its exit that is higher than all returns. -/
theorem supported_run (hreturns : g.ReturnsOnly exit) {k : MachineState V} (hk : k.node ≠ exit) {fuel : Nat}
    (hrun : ((I.joining g options).analysis nested).run p fuel
      ((I.joining g options : Interprocedural _ P).begin k) σ = (.completed, q, τ)) :
    ∀ x, q.Reaches x → q.Supports g exit x := by
  let A : Interprocedural (MachineState V) P := I.joining g options
  have hstep : ∀ q σ q' τ, Search.Valid q ∧ q.All (q.Supports g exit) →
      (A.analysis nested).iterate p q σ = .next q' τ → q'.Valid ∧ q'.All (q'.Supports g exit) := by
    intro q σ q' τ hq hnext
    refine ⟨?_, supported_next hreturns hq.1 hq.2 hnext⟩
    obtain ⟨_, _, _, l, _, _, _, rfl⟩ := Analysis.iterate_next hnext
    exact Search.valid_incorporateAll _ _ l hq.1
  have hbegin : (A.begin k).All ((A.begin k).Supports g exit) := by
    have hsupported : (A.begin k).Supports g exit k :=
      ⟨⟨k, reaches_begin.2 rfl, rfl, Nat.le_refl _⟩, fun hexit => absurd hexit hk⟩
    constructor
    · intro x hx
      rw [reaches_begin.1 hx]
      exact hsupported
    · intro x hx
      rw [awaits_begin.1 hx]
      exact hsupported
  rcases Analysis.run_invariant _ hstep hrun ⟨valid_begin, hbegin⟩ with ⟨hhalt, _⟩ | ⟨q₁, σ₁, h, hstop⟩
  · cases hhalt
  · rcases Analysis.iterate_stop hstop with ⟨h, _⟩ | ⟨_, rfl, _, _⟩ | ⟨_, _, _, _, h, _⟩
    · cases h
    · exact h.2.reached
    · cases h

/-- No exit state of a block is higher than all its states before the edges to the exit. -/
theorem length_stack_exit_le (hbuilt : g.Built) {given : Prop} {c : BlockCache (MachineState V) P}
    {m : Method} {k : MachineState V} {b : Block (MachineState V)}
    (hb : (I.joining g options).Complete given c m k p b) (hexit : g.returnExit? m = some exit)
    (hreturns : g.ReturnsOnly exit) {x : MachineState V} (hx : x ∈ b.exits) :
    ∃ e ∈ g.enteringIntraprocedural exit, ∃ r ∈ b.reached.all.toList, r.node = e.source ∧
      x.frame.stack.length ≤ r.frame.stack.length := by
  obtain ⟨hreached, hlocation⟩ := hb.mem_exits.1 hx
  obtain ⟨nested, fuel, σ, τ, q, hrun, rfl⟩ := hb.ran
  have hnode : x.node = exit := Option.some.inj (hlocation.symm.trans hexit)
  have hentry : k.node ≠ exit :=
    FlowGraph.ne_returnExit_of_isEntryNode hexit (isEntryNode_of_entry hbuilt hb.key)
  exact (supported_run hreturns hentry hrun x hreached).2 hnode

end MachineState

namespace Interpreter

open MachineState

/-- A returned value arrives at the exit of its method at the height at which it was before the return. So a
caller gets at least the values of the returns with the highest stack, if only returns lead to the exit. -/
theorem returned_values_kept {V P : Type} [Inhabited V] [JoinDomain V] [DecidableEq V] [ValueLattice V]
    [DecidableEq P] (I : Interpreter V) {g : FlowGraph} (hbuilt : g.Built) (options : Options)
    {σ : Session (MachineState V) P} (hσ : (I.joining g options).Visited (fun _ => True) σ)
    {m : Method} {k : MachineState V} {p : P} {b : Block (MachineState V)}
    (hb : σ.cache.get? m k p = some b) {r : MachineState V} (hr : r ∈ b.reached.all.toList) {e : Edge}
    (he : e ∈ g.leavingIntraprocedural r.node) (hreturn : e.isReturn = true)
    (hexit : g.returnExit? m = some e.target) :
    ∃ x ∈ b.exits,
      (∀ i, Under (valueAt? r (.stack i))
        (valueAt? x (.stack (i + (x.frame.stack.length - r.frame.stack.length))))) ∧
      (g.ReturnsOnly e.target →
        (∀ e' ∈ g.enteringIntraprocedural e.target, ∀ r' ∈ b.reached.all.toList, r'.node = e'.source →
          r'.frame.stack.length ≤ r.frame.stack.length) →
        (∀ i, Under (valueAt? r (.stack i)) (valueAt? x (.stack i))) ∧
        (m.descriptor.resultSlots ≤ r.frame.stack.length →
          ∀ (call : Call) (s : MachineState V), call.target = m → m.parameterSlots ≤ s.frame.stack.length →
            ∃ t, s.expand x call = .ok t ∧
              ∀ i < m.descriptor.resultSlots, Under (valueAt? r (.stack i)) (valueAt? t (.stack i)))) := by
  have hcomplete := complete_of_visited (.inr rfl) hσ hb
  obtain ⟨l, hfollowed, hcovers⟩ := hcomplete.followed hr he
  have halong := hfollowed.along_of_plain (Edge.isInvoke_of_isReturn hreturn)
  obtain rfl : [r] = l := Except.ok.inj ((along_of_isReturn hreturn).symm.trans halong)
  obtain ⟨x, hx, hle⟩ := hcovers r List.mem_cons_self
  have hexits : x ∈ b.exits := by
    refine hcomplete.mem_exits.2 ⟨hx, hexit.trans ?_⟩
    exact congrArg some (le_iff.1 hle).1
  have hshift : ∀ i, Under (valueAt? r (.stack i))
      (valueAt? x (.stack (i + (x.frame.stack.length - r.frame.stack.length)))) :=
    under_of_le (s := relocate e.target r) hle
  refine ⟨x, hexits, hshift, fun hreturns htallest => ?_⟩
  have hheight : x.frame.stack.length = r.frame.stack.length := by
    obtain ⟨e', he', r', hr', hsource, hx⟩ := length_stack_exit_le hbuilt hcomplete hexit hreturns hexits
    exact Nat.le_antisymm (Nat.le_trans hx (htallest e' he' r' hr' hsource))
      (length_stack_le (s := relocate e.target r) hle)
  have hkept : ∀ i, Under (valueAt? r (.stack i)) (valueAt? x (.stack i)) := by
    intro i
    have h := hshift i
    rwa [hheight, Nat.sub_self] at h
  refine ⟨hkept, fun hresult call s htarget hparameters => ?_⟩
  subst htarget
  have hexpand := expand_eq_ok.2 ⟨hheight ▸ hresult, hparameters, rfl⟩
  refine ⟨_, hexpand, fun i hi => ?_⟩
  rw [valueAt?_expand hexpand]
  simpa only [hi, if_true] using hkept i

/-! ### Two returns -/

def chooser : Method := ⟨"Main", "choose", ⟨[], some (.base .int)⟩, true⟩

/-- Returns one of two fields, and the second one from a stack that holds it twice. -/
def chooserGraph : FlowGraph :=
  (FlowGraph.assemble [.method chooser,
    .instruction chooser (some 0) (some 1) (.getStatic "A" false),
    .instruction chooser (some 1) (some (-1)) (.ret 1),
    .instruction chooser (some 0) (some 2) (.getStatic "B" false),
    .instruction chooser (some 2) (some 3) (.getStatic "B" false),
    .instruction chooser (some 3) (some (-1)) (.ret 1)]).graph

def chooserSession : Session (MachineState (Powerset Nat)) Unit :=
  ((counting.joining chooserGraph .initial).analyze 10 chooser ⟨3, .empty, labelledFields⟩ ()).final
    (.start .never)

/-- The value with the highest stack beneath it is returned to a caller. -/
theorem returned_values_kept_chooser :
    ∃ b, chooserSession.cache.get? chooser ⟨3, .empty, labelledFields⟩ () = some b ∧
      ∃ x ∈ b.exits, ∃ t, MachineState.expand ⟨0, .empty, .empty⟩ x ⟨chooser, 0, chooser, .static⟩ = .ok t ∧
        Under (some (.singleton 8)) (valueAt? t (.stack 0)) := by
  have hvisited : (counting.joining chooserGraph .initial).Visited (fun _ => True) chooserSession :=
    .analyze _ _ _ _ (.start trivial)
  have hblock : ∃ b ∈ chooserSession.cache.get? chooser ⟨3, .empty, labelledFields⟩ (),
      ⟨6, ⟨[], [.singleton 8, .singleton 8]⟩, labelledFields⟩ ∈ b.reached.all.toList ∧
      ∀ e ∈ chooserGraph.enteringIntraprocedural 1, ∀ r ∈ b.reached.all.toList, r.node = e.source →
        r.frame.stack.length ≤ 2 := by
    decide +kernel
  obtain ⟨b, hb, hr, hheight⟩ := hblock
  have hreturn : ⟨4, 6, 1, .instruction (.ret 1)⟩ ∈ chooserGraph.leavingIntraprocedural 6 := by decide +kernel
  obtain ⟨x, hx, _, hkept⟩ := returned_values_kept counting (FlowGraph.built_assemble _) .initial hvisited hb hr
    hreturn rfl (by decide +kernel)
  obtain ⟨t, ht, hvalue⟩ := (hkept (by decide +kernel) hheight).2 (by decide +kernel)
    ⟨chooser, 0, chooser, .static⟩ ⟨0, .empty, .empty⟩ rfl (by decide +kernel)
  exact ⟨b, hb, x, hx, t, ht, hvalue 0 (by decide +kernel)⟩

/-- The other value is not. -/
theorem returned_value_lost_chooser :
    chooserGraph.Built ∧
      (counting.joining chooserGraph .initial).Visited (fun _ => True) chooserSession ∧
      ⟨1, 4, 1, .instruction (.ret 1)⟩ ∈ chooserGraph.leavingIntraprocedural 4 ∧
      chooserGraph.returnExit? chooser = some 1 ∧ chooserGraph.ReturnsOnly 1 ∧
      chooser.descriptor.resultSlots = 1 ∧
      ∃ b ∈ chooserSession.cache.get? chooser ⟨3, .empty, labelledFields⟩ (),
        ⟨4, ⟨[], [.singleton 7]⟩, labelledFields⟩ ∈ b.reached.all.toList ∧
        ∀ x ∈ b.exits, ¬ Under (some (.singleton 7)) (valueAt? x (.stack 0)) := by
  refine ⟨FlowGraph.built_assemble _, .analyze _ _ _ _ (.start trivial), ?_⟩
  decide +kernel

end Interpreter

end BytecodeFlow
