import BytecodeFlow.Proofs.Blocks
import BytecodeFlow.Proofs.CallGraph
import BytecodeFlow.Proofs.Coverage
import BytecodeFlow.Proofs.Effects

/-! # What following an edge contributes

The successors of a state depend on the blocks that are cached while they are computed. They are described
here by the blocks that are cached afterwards: each known call was given up, or its target has a block for
the reduced state and contributes the expansions of the exits of that block. Whether calls may be given up
at all is a parameter, since without recursion, depth limits and aborts none is.
-/
namespace BytecodeFlow

namespace AbortSignal

/-- The signal does not fire, now or later. -/
def Quiet : AbortSignal → Prop
  | never => True
  | controlled flag => flag = false
  | scheduled fires polls => ∀ n, polls ≤ n → fires n = false

theorem Quiet.poll {s : AbortSignal} (h : s.Quiet) : s.poll.1 = false ∧ s.poll.2.Quiet := by
  cases s with
  | never => exact ⟨rfl, trivial⟩
  | controlled flag => exact ⟨h, h⟩
  | scheduled fires polls => exact ⟨h polls (Nat.le_refl _), fun n hn => h n (by omega)⟩

end AbortSignal

def Block.Covers {S : Type} [Domain S] (b : Block S) (s : S) : Prop :=
  ∃ r ∈ b.reached.all.toList, Domain.le s r = true

namespace Interprocedural

variable {S P τ : Type} [DecidableEq S] [DecidableEq P] [Located S]

/-- The successors along an edge, from a relation that keeps no state. -/
def along (A : Interprocedural S P) (s : S) (e : Edge) (p : P) : Except Fault (List S) := (A.relation s e p ()).1

def afterCall (A : Interprocedural S P τ) (s : S) (d : Edge × Call) (exits : List S) :
    Except Fault (List S) :=
  exits.mapM fun x => A.expand s x d.1.target d.2

def apart (A : Interprocedural S P τ) (n : NodeId) : Bool :=
  (A.graph.knownCalls n).isEmpty || A.graph.callsUnknown n

/-- What a known call of a state contributed. -/
inductive Resolved (A : Interprocedural S P) (given : Prop) (c : BlockCache S P) (p : P) (s : S)
    (d : Edge × Call) : Option (List S) → Prop
  | givenUp : given → Resolved A given c p s d none
  | entered {k : S} {b : Block S} {l : List S} : A.reduce s d.1.target d.2 = .ok k →
    c.get? d.2.target k p = some b → A.afterCall s d b.exits = .ok l → Resolved A given c p s d (some l)

/-- The states that following an edge gave, still at the node of the state before. -/
inductive Followed (A : Interprocedural S P) (given : Prop) (c : BlockCache S P) (p : P) (s : S)
    (e : Edge) : List S → Prop
  | plain {l : List S} : e.label.isInvoke = false → A.along s e p = .ok l → Followed A given c p s e l
  | calls {results : List (Option (List S))} : e.label.isInvoke = true → A.apart (location s) = false →
    none ∉ results → List.Forall₂ (Resolved A given c p s) (A.graph.knownCalls (location s)) results →
    Followed A given c p s e (results.flatMap (·.getD []))
  | both {results : List (Option (List S))} {l : List S} : e.label.isInvoke = true →
    (A.apart (location s) = true ∨ given) →
    List.Forall₂ (Resolved A given c p s) (A.graph.knownCalls (location s)) results →
    A.along s e p = .ok l → Followed A given c p s e (results.flatMap (·.getD []) ++ l)

def Succeeded (A : Interprocedural S P) (given : Prop) (c : BlockCache S P) (p : P) (s : S)
    (l : List S) : Prop :=
  ∃ parts, List.Forall₂ (fun e part => ∃ k, A.Followed given c p s e k ∧ part = k.map (relocate e.target))
    (A.graph.leavingIntraprocedural (location s)) parts ∧ l = parts.flatten

variable {A : Interprocedural S P} {given : Prop} {c c' : BlockCache S P} {p : P} {s : S} {e : Edge}
  {l : List S}

/-! ### Growing caches -/

omit [Located S] in
theorem Resolved.mono {d : Edge × Call} {r : Option (List S)} (h : A.Resolved given c p s d r)
    (hc : c.Extends c') : A.Resolved given c' p s d r := by
  cases h with
  | givenUp hgiven => exact .givenUp hgiven
  | entered hreduce hget hafter => exact .entered hreduce (hc _ _ _ _ hget) hafter

theorem Followed.mono (h : A.Followed given c p s e l) (hc : c.Extends c') :
    A.Followed given c' p s e l := by
  cases h with
  | plain hinvoke halong => exact .plain hinvoke halong
  | calls hinvoke hapart hnone hresults =>
    exact .calls hinvoke hapart hnone (hresults.imp fun _ _ hr => hr.mono hc)
  | both hinvoke hapart hresults halong =>
    exact .both hinvoke hapart (hresults.imp fun _ _ hr => hr.mono hc) halong

theorem Succeeded.mono (h : A.Succeeded given c p s l) (hc : c.Extends c') :
    A.Succeeded given c' p s l := by
  obtain ⟨parts, hparts, hl⟩ := h
  exact ⟨parts, hparts.imp fun e part ⟨k, hk, hpart⟩ => ⟨k, hk.mono hc, hpart⟩, hl⟩

/-! ### What the successors are -/

omit [DecidableEq S] [DecidableEq P] [Located S] in
theorem expand_of_afterCall {d : Edge × Call} {exits : List S} (h : A.afterCall s d exits = .ok l) :
    (∀ x ∈ exits, ∃ t ∈ l, A.expand s x d.1.target d.2 = .ok t) ∧
      ∀ t ∈ l, ∃ x ∈ exits, A.expand s x d.1.target d.2 = .ok t := by
  rw [afterCall, mapM_eq_ok] at h
  exact ⟨fun x hx => exists_of_forall₂ h hx, fun t ht => exists_of_forall₂_right h ht⟩

/-- An edge that stands for no call contributes what the instruction does. -/
theorem Followed.along_of_plain (h : A.Followed given c p s e l) (hinvoke : e.label.isInvoke = false) :
    A.along s e p = .ok l := by
  cases h with
  | plain _ halong => exact halong
  | calls hinvoke' => simp [hinvoke] at hinvoke'
  | both hinvoke' => simp [hinvoke] at hinvoke'

/-- An invocation that is followed in any case contributes what the instruction does. -/
theorem Followed.along_of_apart (h : A.Followed given c p s e l) (hapart : A.apart (location s) = true) :
    ∃ k, A.along s e p = .ok k ∧ ∀ t ∈ k, t ∈ l := by
  cases h with
  | plain _ halong => exact ⟨l, halong, fun _ ht => ht⟩
  | calls _ hnot => simp [hapart] at hnot
  | both _ _ _ halong => exact ⟨_, halong, fun t ht => List.mem_append_right _ ht⟩

/-- Every known call of an invocation is given up or contributes its target's exits. -/
theorem Followed.call (h : A.Followed given c p s e l) (hinvoke : e.label.isInvoke = true)
    {d : Edge × Call} (hd : d ∈ A.graph.knownCalls (location s)) :
    (given ∧ ∃ k, A.along s e p = .ok k ∧ ∀ t ∈ k, t ∈ l) ∨
      ∃ k b, A.reduce s d.1.target d.2 = .ok k ∧ c.get? d.2.target k p = some b ∧
        ∀ x ∈ b.exits, ∃ t ∈ l, A.expand s x d.1.target d.2 = .ok t := by
  have hentered : ∀ {results : List (Option (List S))} {r : Option (List S)}, r ∈ results →
      A.Resolved given c p s d r → r = none ∨
      ∃ k b, A.reduce s d.1.target d.2 = .ok k ∧ c.get? d.2.target k p = some b ∧
        ∀ x ∈ b.exits, ∃ t ∈ results.flatMap (·.getD []), A.expand s x d.1.target d.2 = .ok t := by
    intro results r hr hresolved
    cases hresolved with
    | givenUp => exact .inl rfl
    | entered hreduce hget hafter =>
      refine .inr ⟨_, _, hreduce, hget, fun x hx => ?_⟩
      obtain ⟨t, ht, hexpand⟩ := (expand_of_afterCall hafter).1 x hx
      exact ⟨t, List.mem_flatMap.2 ⟨_, hr, ht⟩, hexpand⟩
  cases h with
  | plain hplain => simp [hinvoke] at hplain
  | calls _ _ hnone hresults =>
    obtain ⟨r, hr, hresolved⟩ := exists_of_forall₂ hresults hd
    rcases hentered hr hresolved with rfl | h
    · exact absurd hr hnone
    · exact .inr h
  | both _ _ hresults halong =>
    obtain ⟨r, hr, hresolved⟩ := exists_of_forall₂ hresults hd
    rcases hentered hr hresolved with rfl | ⟨k, b, hreduce, hget, hexits⟩
    · cases hresolved with
      | givenUp hgiven => exact .inl ⟨hgiven, _, halong, fun t ht => List.mem_append_right _ ht⟩
    · refine .inr ⟨k, b, hreduce, hget, fun x hx => ?_⟩
      obtain ⟨t, ht, hexpand⟩ := hexits x hx
      exact ⟨t, List.mem_append_left _ ht, hexpand⟩

/-! ### Generated states -/

/-- The states that a procedure generates from an entry state, step by step and by merging. A call leads
from the state before it over a state that the target generates at its exit. -/
inductive Generated (A : Interprocedural S P) (given : Prop) (p : P) : Method → S → S → Prop
  | entry (m : Method) (k : S) : Generated A given p m k k
  | along {m : Method} {k s t : S} {e : Edge} {l : List S} : Generated A given p m k s →
    e ∈ A.graph.leavingIntraprocedural (location s) →
    (e.label.isInvoke = true → A.apart (location s) = true ∨ given) → A.along s e p = .ok l → t ∈ l →
    Generated A given p m k (relocate e.target t)
  | call {m : Method} {k s k' x t : S} {e : Edge} {d : Edge × Call} : Generated A given p m k s →
    e ∈ A.graph.leavingIntraprocedural (location s) → e.label.isInvoke = true →
    d ∈ A.graph.knownCalls (location s) → A.reduce s d.1.target d.2 = .ok k' →
    Generated A given p d.2.target k' x → A.graph.returnExit? d.2.target = some (location x) →
    A.expand s x d.1.target d.2 = .ok t → Generated A given p m k (relocate e.target t)
  | merge {m : Method} {k s t : S} : Generated A given p m k s → Generated A given p m k t →
    location t = location s → Generated A given p m k (A.operators.merge s t p)

/-- The states in which a method is entered: at its entry, or as a call of the method reduces its own state. -/
inductive Entry (A : Interprocedural S P) : Method → S → Prop
  | start {m : Method} {k : S} : A.graph.entry? m = some (location k) → Entry A m k
  | call {n : NodeId} {d : Edge × Call} {s k : S} : d ∈ A.graph.knownCalls n →
    A.reduce s d.1.target d.2 = .ok k → Entry A d.2.target k

def begin (A : Interprocedural S P τ) (k : S) : Search (LocatedStates S) S :=
  Search.add ⟨.empty, .empty A.options.order⟩ k

def Ran (A : Interprocedural S P) (m : Method) (k : S) (p : P) (b : Block S) : Prop :=
  ∃ nested fuel σ τ q, (A.analysis nested).run p fuel (A.begin k) σ = (.completed, q, τ) ∧
    b = A.block m q.reached

/-- A block for this key whose states are generated and whose successors are all covered. -/
structure Complete [Domain S] (A : Interprocedural S P) (given : Prop) (c : BlockCache S P) (m : Method)
    (k : S) (p : P) (b : Block S) : Prop where
  key : A.Entry m k
  indexed : b.reached.Indexed
  exits_eq : b.exits = (A.block m b.reached).exits
  entry : b.Covers k
  generated : ∀ s ∈ b.reached.all.toList, A.Generated given p m k s
  closed : ∀ s ∈ b.reached.all.toList, ∃ l, A.Succeeded given c p s l ∧ ∀ t ∈ l, b.Covers t
  ran : A.Ran m k p b
  single : A.operators.Unifying → ∀ s ∈ b.reached.all.toList, ∀ t ∈ b.reached.all.toList,
    location s = location t → s = t

section Complete

variable [Domain S] {m : Method} {k : S} {b : Block S}

theorem Complete.mono (h : A.Complete given c m k p b) (hc : c.Extends c') :
    A.Complete given c' m k p b :=
  { h with
    closed := fun s hs =>
      have ⟨l, hl, hcovers⟩ := h.closed s hs
      ⟨l, hl.mono hc, hcovers⟩ }

theorem Complete.mem_exits (h : A.Complete given c m k p b) {x : S} :
    x ∈ b.exits ↔ x ∈ b.reached.all.toList ∧ A.graph.returnExit? m = some (location x) := by
  rw [h.exits_eq]
  unfold block
  cases A.graph.returnExit? m with
  | none => simp
  | some exit => simp [LocatedStates.mem_statesAt h.indexed, eq_comm]

/-- The states to which an edge leads from a state of the block are covered. -/
theorem Complete.followed (h : A.Complete given c m k p b) (hs : s ∈ b.reached.all.toList)
    (he : e ∈ A.graph.leavingIntraprocedural (location s)) :
    ∃ l, A.Followed given c p s e l ∧ ∀ t ∈ l, b.Covers (relocate e.target t) := by
  obtain ⟨l, ⟨parts, hparts, rfl⟩, hcovers⟩ := h.closed s hs
  obtain ⟨part, hpart, l, hl, rfl⟩ := exists_of_forall₂ hparts he
  exact ⟨l, hl, fun t ht => hcovers _ (List.mem_flatten.2 ⟨_, hpart, List.mem_map_of_mem ht⟩)⟩

theorem Followed.generated (h : A.Followed given c p s e l)
    (hblocks : ∀ m k b, c.get? m k p = some b → A.Complete given c m k p b)
    (hs : A.Generated given p m k s) (he : e ∈ A.graph.leavingIntraprocedural (location s)) :
    ∀ t ∈ l, A.Generated given p m k (relocate e.target t) := by
  have hcalls : ∀ {results : List (Option (List S))}, e.label.isInvoke = true →
      List.Forall₂ (A.Resolved given c p s) (A.graph.knownCalls (location s)) results →
      ∀ t ∈ results.flatMap (·.getD []), A.Generated given p m k (relocate e.target t) := by
    intro results hinvoke hresults t ht
    obtain ⟨r, hr, htr⟩ := List.mem_flatMap.1 ht
    obtain ⟨d, hd, hresolved⟩ := exists_of_forall₂_right hresults hr
    cases hresolved with
    | givenUp => simp at htr
    | entered hreduce hget hafter =>
      obtain ⟨x, hx, hexpand⟩ := (expand_of_afterCall hafter).2 t htr
      have hblock := hblocks _ _ _ hget
      obtain ⟨hreached, hexit⟩ := hblock.mem_exits.1 hx
      exact .call hs he hinvoke hd hreduce (hblock.generated x hreached) hexit hexpand
  intro t ht
  cases h with
  | plain hplain halong => exact .along hs he (by simp [hplain]) halong ht
  | calls hinvoke _ _ hresults => exact hcalls hinvoke hresults t ht
  | both hinvoke hapart hresults halong =>
    rcases List.mem_append.1 ht with ht | ht
    · exact hcalls hinvoke hresults t ht
    · exact .along hs he (fun _ => hapart) halong ht

theorem Succeeded.generated (h : A.Succeeded given c p s l)
    (hblocks : ∀ m k b, c.get? m k p = some b → A.Complete given c m k p b)
    (hs : A.Generated given p m k s) : ∀ t ∈ l, A.Generated given p m k t := by
  obtain ⟨parts, hparts, rfl⟩ := h
  intro t ht
  obtain ⟨part, hpart, htp⟩ := List.mem_flatten.1 ht
  obtain ⟨e, he, found, hfound, rfl⟩ := exists_of_forall₂_right hparts hpart
  obtain ⟨x, hx, rfl⟩ := List.mem_map.1 htp
  exact hfound.generated hblocks hs he x hx

end Complete

end Interprocedural

end BytecodeFlow
