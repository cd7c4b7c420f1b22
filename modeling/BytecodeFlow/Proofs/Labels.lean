import BytecodeFlow.Proofs.Monotone

/-! # Labels and where they were before

With sets of labels as values, every label that a place holds after an instruction was at one of the places
that are listed as its predecessors, unless it is one that an invocation generates.
-/
namespace BytecodeFlow

section Labels

variable {α : Type} [Ord α]

def MachineState.Holds (s : MachineState (Powerset α)) (l : MemoryLocation) (x : α) : Prop :=
  ∃ v, valueAt? s l = some v ∧ x ∈ v

/-- The results of instructions contain only labels of their operands. -/
def Interpreter.Conservative (I : Interpreter (Powerset α)) : Prop :=
  ∀ i operands, ∀ x ∈ I.result i operands, ∃ v ∈ operands, x ∈ v

/-- The label comes with the result of an invocation, and no argument holds it. -/
def Interpreter.Generates (I : Interpreter (Powerset α)) (target : Method) (arguments : List (Powerset α))
    (x : α) : Prop :=
  x ∈ I.invoke target arguments ∧ ∀ v ∈ arguments, x ∉ v

end Labels

namespace Instruction

/-! ### Places before an instruction -/

def Origin.places : Origin → List MemoryLocation
  | kept l => [l]
  | filled l => [l]
  | computed operands => operands
  | invoked _ operands => operands

variable {i : Instruction}

/-- Every place from which a value comes is listed as a predecessor. -/
theorem mem_sources (hi : i.Regular) (reaches : Bool) (l : MemoryLocation) {q : MemoryLocation}
    (hq : q ∈ (i.origin l).places) : q ∈ i.sources reaches l := by
  -- both tables are compared operation by operation, at each kind of place
  obtain ⟨operation, pops, pushes⟩ := i
  cases operation <;> cases l
  all_goals simp only [Regular] at hi
  all_goals simp only [origin, stackOrigin, varOrigin, sources, pushedIndex?, shiftedFreely, beneathFreely] at hq ⊢
  all_goals grind [Origin.places, MemoryLocation.topSlots, copied]

theorem swap_of_regular (hi : i.Regular) (hswap : i.operation = .swap) : i.pushes ≤ 2 := by
  unfold Regular at hi
  rw [hswap] at hi
  exact Nat.le_of_eq hi.2

/-- Only the slots that an invocation pushes come from the invocation. -/
theorem origin_eq_invoked {l : MemoryLocation} {target : Method} {operands : List MemoryLocation}
    (h : i.origin l = .invoked target operands) :
    operands = MemoryLocation.topSlots i.pops ∧ (∃ dispatch, i.operation = .invoke dispatch target) ∧
      ∃ j < i.pushes, l = .stack j := by
  obtain ⟨operation, pops, pushes⟩ := i
  cases l with
  | stack j =>
    cases operation with
    | invoke dispatch callee =>
      simp only [origin, stackOrigin] at h
      split at h
      · rename_i hj
        cases h
        exact ⟨rfl, ⟨dispatch, rfl⟩, j, hj, rfl⟩
      · cases h
    | _ =>
      simp only [origin, stackOrigin] at h
      grind
  | var j => cases operation <;> simp only [origin, varOrigin] at h <;> grind
  | static f => simp [origin] at h
  | heap f => simp [origin] at h

end Instruction

namespace MachineState

variable {α : Type} [Ord α] {s t u : MachineState (Powerset α)} {l : MemoryLocation} {x : α}
  {I : Interpreter (Powerset α)} {i : Instruction}

theorem mem_valueIn : x ∈ l.valueIn s default ↔ s.Holds l x := by
  unfold MemoryLocation.valueIn Holds
  cases valueAt? s l with
  | none =>
    constructor
    · exact fun hx => absurd hx (Powerset.not_mem_empty x)
    · rintro ⟨v, hv, _⟩
      cases hv
  | some v => simp

theorem not_holds_heap {f : String} : ¬ s.Holds (.heap f) x := by
  rintro ⟨v, hv, _⟩
  cases hv

theorem holds_catchException (hcaught : I.caught = .empty) (h : (s.catchException I).Holds l x) :
    s.Holds l x := by
  obtain ⟨v, hv, hx⟩ := h
  cases l with
  | var j => exact ⟨v, hv, hx⟩
  | stack j =>
    obtain rfl : I.caught = v := by
      cases j with
      | zero => exact Option.some.inj hv
      | succ j => cases hv
    rw [hcaught] at hx
    exact absurd hx (Powerset.not_mem_empty x)
  | static f => exact ⟨v, hv, hx⟩
  | heap f => cases hv

theorem pops_le_of_invoke {dispatch : Dispatch} {target : Method}
    (hoperation : i.operation = .invoke dispatch target) (h : s.execute I i = .ok t) :
    i.pops ≤ s.frame.stack.length := by
  unfold execute at h
  simp only [hoperation] at h
  obtain ⟨f, hcombine, _⟩ := withFrame_eq_ok.1 h
  exact (Frame.combine_eq_ok.1 hcombine).1

/-- A label after an instruction comes from one of the places that the value comes from, or from the result
of an invocation. -/
theorem Holds.origin (hI : I.Conservative) (hst : Executed I i s t) (h : t.Holds l x) :
    (∃ q ∈ (i.origin l).places, s.Holds q x) ∨
      ∃ target operands, i.origin l = .invoked target operands ∧
        x ∈ I.invoke target (operands.map (·.valueIn s default)) := by
  obtain ⟨v, hv, hx⟩ := h
  rw [hst.value] at hv
  cases horigin : i.origin l with
  | kept q =>
    rw [horigin] at hv
    exact .inl ⟨q, by simp [Instruction.Origin.places], v, hv, hx⟩
  | filled q =>
    rw [horigin] at hv
    obtain rfl := Option.some.inj hv
    exact .inl ⟨q, by simp [Instruction.Origin.places], mem_valueIn.1 hx⟩
  | computed operands =>
    rw [horigin] at hv
    obtain rfl := Option.some.inj hv
    obtain ⟨w, hw, hxw⟩ := hI _ _ x hx
    obtain ⟨q, hq, rfl⟩ := List.mem_map.1 hw
    exact .inl ⟨q, hq, mem_valueIn.1 hxw⟩
  | invoked target operands =>
    rw [horigin] at hv
    obtain rfl := Option.some.inj hv
    exact .inr ⟨target, operands, rfl, hx⟩

variable [Std.TransOrd α] [Std.LawfulEqOrd α]

theorem Below.holds (h : s.Below t) (hx : s.Holds l x) : t.Holds l x := by
  obtain ⟨v, hv, hx⟩ := hx
  have hunder := h.values l
  rw [hv] at hunder
  obtain ⟨w, hw, hle⟩ := under_some.1 hunder
  exact ⟨w, hw, Powerset.subset_iff.1 hle x hx⟩

theorem holds_join (h : s.frame.stack.length = t.frame.stack.length) (hx : (s.join t).Holds l x) :
    s.Holds l x ∨ t.Holds l x := by
  obtain ⟨v, hv, hx⟩ := hx
  rw [valueAt?_join h] at hv
  cases hs : valueAt? s l with
  | none =>
    rw [hs, joinOption_none_left] at hv
    exact .inr ⟨v, hv, hx⟩
  | some a =>
    cases ht : valueAt? t l with
    | none =>
      rw [ht, joinOption_none_right] at hv
      exact .inl ⟨v, hv, hx⟩
    | some b =>
      rw [hs, ht, joinOption_some] at hv
      obtain rfl := Option.some.inj hv
      rcases Powerset.mem_union.1 hx with hx | hx
      · exact .inl ⟨a, hs, hx⟩
      · exact .inr ⟨b, ht, hx⟩

/-- A label after an instruction was at a predecessor before it, in any larger state, or the instruction is
an invocation that generates the label there. -/
theorem Holds.before (hI : I.Conservative) (hmono : I.Monotone) (hi : i.Regular) (reaches : Bool)
    (hexecute : s.execute I i = .ok t) (hbelow : s.Below u) (h : t.Holds l x) :
    (∃ q ∈ i.sources reaches l, u.Holds q x) ∨
      (∃ dispatch target, i.operation = .invoke dispatch target ∧
        I.Generates target (u.frame.stack.take i.pops) x) ∧ ∃ j < i.pushes, l = .stack j := by
  rcases h.origin hI (executed hi hexecute) with ⟨q, hq, hx⟩ | ⟨target, operands, horigin, hx⟩
  · exact .inl ⟨q, Instruction.mem_sources hi reaches l hq, hbelow.holds hx⟩
  · obtain ⟨rfl, ⟨dispatch, hoperation⟩, hslot⟩ := Instruction.origin_eq_invoked horigin
    have hlong : i.pops ≤ u.frame.stack.length := hbelow.height ▸ pops_le_of_invoke hoperation hexecute
    have hx' := Powerset.subset_iff.1 (hmono.invoke target (hbelow.operands _)) x hx
    rw [map_popped hlong] at hx'
    by_cases hfresh : ∀ v ∈ u.frame.stack.take i.pops, x ∉ v
    · exact .inr ⟨⟨dispatch, target, hoperation, hx', hfresh⟩, hslot⟩
    · -- an argument that holds the label is a predecessor
      obtain ⟨v, hv, hxv⟩ : ∃ v ∈ u.frame.stack.take i.pops, x ∈ v := by simpa using hfresh
      rw [← map_popped hlong] at hv
      obtain ⟨q, hq, rfl⟩ := List.mem_map.1 hv
      refine .inl ⟨q, Instruction.mem_sources hi reaches l ?_, mem_valueIn.1 hxv⟩
      rw [horigin]
      exact hq

end MachineState

end BytecodeFlow
