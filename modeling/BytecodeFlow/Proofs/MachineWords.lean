import BytecodeFlow.Machine.Transfer
import BytecodeFlow.Trace.Predecessors

/-! # Machine words

Where no index leaves the range of machine words and every list finds room, the limits of the machine are not
noticed: instructions have the effects, and locations the predecessors, that they have without limits. Where an index
wraps around, a wrong location may be listed, but nothing stops.
-/
namespace BytecodeFlow

namespace Limits

/-- All indices below the given one are machine words. -/
def fits : Limits → Nat → Prop
  | ideal, _ => True
  | bounded _, count => count ≤ wordCount

instance (limits : Limits) (count : Nat) : Decidable (limits.fits count) := by
  cases limits <;> unfold fits <;> infer_instance

def wraps : Limits → Bool
  | bounded ⟨.wraps, _, _, _⟩ => true
  | _ => false

variable {limits : Limits} {m n : Nat}

theorem fits_mono (h : limits.fits n) (hle : m ≤ n) : limits.fits m := by
  cases limits with
  | ideal => trivial
  | bounded b => exact Nat.le_trans hle h

theorem add_of_fits (h : limits.fits (m + n + 1)) : limits.add m n = .ok (m + n) := by
  cases limits with
  | ideal => rfl
  | bounded b => exact if_pos h

theorem holdsLocals_mono (h : limits.holdsLocals n = true) (hle : m ≤ n) : limits.holdsLocals m = true := by
  cases limits with
  | ideal => rfl
  | bounded b =>
    simp only [holdsLocals, decide_eq_true_eq] at h ⊢
    omega

@[simp] theorem add_ideal (m n : Nat) : ideal.add m n = .ok (m + n) := rfl

theorem sub_of_le (h : n ≤ m) : limits.sub m n = .ok (m - n) := if_pos h

theorem exists_add_of_wraps (h : limits.wraps = true) (m n : Nat) : ∃ k, limits.add m n = .ok k := by
  unfold wraps at h
  split at h
  · unfold add
    simp only
    split <;> exact ⟨_, rfl⟩
  · cases h

theorem exists_sub_of_wraps (h : limits.wraps = true) (m n : Nat) : ∃ k, limits.sub m n = .ok k := by
  unfold wraps at h
  split at h
  · unfold sub
    split <;> exact ⟨_, rfl⟩
  · cases h

end Limits

/-- The number of stack slots down to the location. -/
def MemoryLocation.depth : MemoryLocation → Nat
  | .stack index => index + 1
  | _ => 0

namespace Instruction

/-! ### Backward -/

def variablesEnd (i : Instruction) : Nat :=
  match i.operation with
  | .load index => index + i.pushes
  | .store index => index + i.pops
  | _ => 0

/-- The indices that arise for locations down to the given height are machine words, and only the slots that a swap
exchanges are copied by it. -/
def Indexed (limits : Limits) (height : Nat) (i : Instruction) : Prop :=
  (i.operation = .swap → i.pushes ≤ 2) ∧ limits.fits (height + i.pops) ∧ limits.fits i.variablesEnd

/-- The predecessors of locations down to the given height are in range: there is room to list them, and the indices
that arise are machine words unless they wrap around. -/
def Sized (limits : Limits) (height : Nat) (i : Instruction) : Prop :=
  limits.holdsPlaces i.pops = true ∧ (limits.wraps = false → i.Indexed limits height)

instance (limits : Limits) (height : Nat) (i : Instruction) : Decidable (i.Indexed limits height) := by
  unfold Indexed
  infer_instance

instance (limits : Limits) (height : Nat) (i : Instruction) : Decidable (i.Sized limits height) := by
  unfold Sized
  infer_instance

/-- The location before an instruction that combines all popped values into every pushed one, without limits. -/
def shiftedFreely (i : Instruction) : MemoryLocation → List MemoryLocation
  | .stack index =>
    if i.pushes ≤ index then [.stack (index - i.pushes + i.pops)] else MemoryLocation.topSlots i.pops
  | l => [l]

def beneathFreely (i : Instruction) : MemoryLocation → MemoryLocation
  | .stack index => .stack (index + i.pops)
  | l => l

/-- The slot that a pushed slot is a copy of, without limits. -/
def copied (o : Operation) (index : Nat) : Nat :=
  match o with
  | .dup => 0
  | .dupX1 => if index = 2 then 0 else index
  | .dupX2 => if index = 3 then 0 else index
  | .dup2 => if 1 < index then index - 2 else index
  | .dup2X1 => if 2 < index then index - 3 else index
  | .dup2X2 => if 3 < index then index - 4 else index
  | .swap => 1 - index
  | _ => index

def sources (i : Instruction) (reaches : Bool) (l : MemoryLocation) : List MemoryLocation :=
  match i.operation with
  | .ret | .increment _ => [l]
  | .dup | .dupX1 | .dupX2 | .dup2 | .dup2X1 | .dup2X2 | .swap =>
    match i.pushedIndex? l with
    | none => i.shiftedFreely l
    | some index => [.stack (copied i.operation index)]
  | .arrayLoad =>
    match i.pushedIndex? l with
    | none => i.shiftedFreely l
    | some _ => [.stack 0, .stack 1]
  | .load variableIndex =>
    match i.pushedIndex? l with
    | none => i.shiftedFreely l
    | some index => i.shiftedFreely l ++ [.var (variableIndex + index)]
  | .store variableIndex =>
    if l = .var variableIndex then MemoryLocation.topSlots i.pops
    else if i.pops = 2 ∧ l = .var (variableIndex + 1) then [.stack 1]
    else [i.beneathFreely l]
  | .getStatic field =>
    match i.pushedIndex? l with
    | none => i.shiftedFreely l
    | some _ => i.shiftedFreely l ++ [.static field]
  | .putStatic field => if l = .static field then MemoryLocation.topSlots i.pops else [i.beneathFreely l]
  | .putField _ => [i.beneathFreely l]
  | .invoke .. => if reaches then i.shiftedFreely l ++ MemoryLocation.topSlots i.pops else i.shiftedFreely l
  | .arrayStore | .simple | .getField _ | .new | .branch | .switch => i.shiftedFreely l

variable {limits : Limits} {height : Nat} {i : Instruction} {l : MemoryLocation} {reaches : Bool}

theorem popped_eq {count : Nat} (h : limits.holdsPlaces count = true) :
    popped limits count = .ok (MemoryLocation.topSlots count) := if_pos h

theorem deeper_eq {index count : Nat} (h : limits.fits (index + count + 1)) :
    deeper limits index count = .ok [.stack (index + count)] := by
  unfold deeper
  rw [Limits.add_of_fits h]
  rfl

theorem pushedIndex?_eq_some {j : Nat} : i.pushedIndex? l = some j ↔ l = .stack j ∧ j < i.pushes := by
  cases l with
  | stack k =>
    by_cases hk : k < i.pushes
    · simp [pushedIndex?, hk]
      omega
    · simp [pushedIndex?, hk]
      omega
  | _ => simp [pushedIndex?]

theorem shifted_eq (hplaces : limits.holdsPlaces i.pops = true) (hfits : limits.fits (l.depth + i.pops)) :
    i.shifted limits l = .ok (i.shiftedFreely l) := by
  cases l with
  | stack index =>
    unfold shifted shiftedFreely
    simp only
    split
    · exact deeper_eq (Limits.fits_mono hfits (by simp only [MemoryLocation.depth]; omega))
    · exact popped_eq hplaces
  | _ => rfl

theorem beneath_eq (hfits : limits.fits (l.depth + i.pops)) : i.beneath limits l = .ok [i.beneathFreely l] := by
  cases l with
  | stack index => exact deeper_eq (Limits.fits_mono hfits (by simp only [MemoryLocation.depth]; omega))
  | _ => rfl

/-- Only a slot beneath those that a swap exchanges has no source. -/
theorem copySource_eq {o : Operation} {index : Nat} (h : o = .swap → index ≤ 1) :
    copySource limits o index = .ok (copied o index) := by
  cases o with
  | swap => exact Limits.sub_of_le (h rfl)
  | _ => rfl

/-- Within its range of indices, the machine lists the locations that are listed without limits. -/
theorem predecessors_eq (hplaces : limits.holdsPlaces i.pops = true) (h : i.Indexed limits l.depth) :
    i.predecessors reaches l limits = .ok (i.sources reaches l) := by
  obtain ⟨hswap, hdepth, hvariables⟩ := h
  have hshifted := shifted_eq hplaces hdepth
  have hbeneath := beneath_eq hdepth
  unfold predecessors sources
  cases hop : i.operation with
  | ret | increment => rfl
  | dup | dupX1 | dupX2 | dup2 | dup2X1 | dup2X2 | swap =>
    simp only
    cases hpushed : i.pushedIndex? l with
    | none => exact hshifted
    | some index =>
      have hindex := (pushedIndex?_eq_some.1 hpushed).2
      have hcopied : i.operation = .swap → index ≤ 1 := fun heq => by
        have := hswap heq
        omega
      simp only [copySource_eq (hop ▸ hcopied)]
      rfl
  | arrayLoad =>
    simp only
    cases i.pushedIndex? l with
    | none => exact hshifted
    | some index => rfl
  | load variableIndex =>
    simp only
    cases hpushed : i.pushedIndex? l with
    | none => exact hshifted
    | some index =>
      have hindex := (pushedIndex?_eq_some.1 hpushed).2
      have hadd : limits.add variableIndex index = .ok (variableIndex + index) :=
        Limits.add_of_fits (Limits.fits_mono hvariables (by simp only [variablesEnd, hop]; omega))
      simp only [hshifted, hadd]
      rfl
  | store variableIndex =>
    cases l with
    | var index =>
      simp only [MemoryLocation.var.injEq]
      split
      · exact popped_eq hplaces
      · by_cases hwide : i.pops = 2
        · have hadd : limits.add variableIndex 1 = .ok (variableIndex + 1) :=
            Limits.add_of_fits (Limits.fits_mono hvariables (by simp only [variablesEnd, hop]; omega))
          simp only [hwide, hadd, true_and, if_true]
          by_cases hsecond : index = variableIndex + 1
          · simp [hsecond, Except.map]
          · simp [hsecond, Except.map, beneathFreely]
        · simp [hwide, beneathFreely]
    | stack index => simpa using hbeneath
    | static field => simpa using hbeneath
    | heap field => simpa using hbeneath
  | getStatic field =>
    simp only
    cases i.pushedIndex? l with
    | none => exact hshifted
    | some index =>
      simp only [hshifted]
      rfl
  | putStatic field =>
    simp only
    split
    · exact popped_eq hplaces
    · exact hbeneath
  | putField => exact hbeneath
  | invoke =>
    simp only [hshifted]
    cases reaches with
    | false => rfl
    | true =>
      simp only [popped_eq hplaces]
      rfl
  | arrayStore | simple | getField | new | branch | switch => exact hshifted

theorem exists_deeper (h : limits.wraps = true) (index count : Nat) :
    ∃ places, deeper limits index count = .ok places := by
  obtain ⟨k, hk⟩ := Limits.exists_add_of_wraps h index count
  exact ⟨[.stack k], by rw [deeper, hk]; rfl⟩

theorem exists_shifted (hplaces : limits.holdsPlaces i.pops = true) (hwraps : limits.wraps = true) :
    ∃ places, i.shifted limits l = .ok places := by
  cases l with
  | stack index =>
    unfold shifted
    simp only
    split
    · exact exists_deeper hwraps _ _
    · exact ⟨_, popped_eq hplaces⟩
  | _ => exact ⟨_, rfl⟩

theorem exists_beneath (hwraps : limits.wraps = true) : ∃ places, i.beneath limits l = .ok places := by
  cases l with
  | stack index => exact exists_deeper hwraps _ _
  | _ => exact ⟨_, rfl⟩

theorem exists_copySource (hwraps : limits.wraps = true) (o : Operation) (index : Nat) :
    ∃ slot, copySource limits o index = .ok slot := by
  cases o with
  | swap => exact Limits.exists_sub_of_wraps hwraps 1 index
  | _ => exact ⟨_, rfl⟩

/-- A machine whose indices wrap around lists some locations. -/
theorem exists_predecessors_of_wraps (hplaces : limits.holdsPlaces i.pops = true) (hwraps : limits.wraps = true) :
    ∃ places, i.predecessors reaches l limits = .ok places := by
  obtain ⟨places, hshifted⟩ := exists_shifted (l := l) hplaces hwraps
  unfold predecessors
  cases hop : i.operation with
  | ret | increment => exact ⟨_, rfl⟩
  | dup | dupX1 | dupX2 | dup2 | dup2X1 | dup2X2 | swap =>
    simp only
    cases i.pushedIndex? l with
    | none => exact ⟨_, hshifted⟩
    | some index =>
      obtain ⟨k, hk⟩ := exists_copySource hwraps i.operation index
      simp only [← hop, hk]
      exact ⟨_, rfl⟩
  | arrayLoad =>
    simp only
    cases i.pushedIndex? l with
    | none => exact ⟨_, hshifted⟩
    | some index => exact ⟨_, rfl⟩
  | load variableIndex =>
    simp only
    cases i.pushedIndex? l with
    | none => exact ⟨_, hshifted⟩
    | some index =>
      obtain ⟨k, hk⟩ := Limits.exists_add_of_wraps hwraps variableIndex index
      simp only [hshifted, hk]
      exact ⟨_, rfl⟩
  | store variableIndex =>
    cases l with
    | var index =>
      simp only
      split
      · exact ⟨_, popped_eq hplaces⟩
      · split
        · obtain ⟨k, hk⟩ := Limits.exists_add_of_wraps hwraps variableIndex 1
          rw [hk]
          exact ⟨_, rfl⟩
        · exact ⟨_, rfl⟩
    | _ => exact exists_beneath hwraps
  | getStatic field =>
    simp only
    cases i.pushedIndex? l with
    | none => exact ⟨_, hshifted⟩
    | some index =>
      simp only [hshifted]
      exact ⟨_, rfl⟩
  | putStatic field =>
    simp only
    split
    · exact ⟨_, popped_eq hplaces⟩
    · exact exists_beneath hwraps
  | putField => exact exists_beneath hwraps
  | invoke =>
    simp only [hshifted]
    cases reaches with
    | false => exact ⟨_, rfl⟩
    | true =>
      simp only [popped_eq hplaces]
      exact ⟨_, rfl⟩
  | arrayStore | simple | getField | new | branch | switch => exact ⟨_, hshifted⟩

/-- Below the given height, nothing stops. -/
theorem Sized.exists_predecessors (h : i.Sized limits height) (hl : l.depth ≤ height) :
    ∃ places, i.predecessors reaches l limits = .ok places := by
  cases hwraps : limits.wraps with
  | true => exact exists_predecessors_of_wraps h.1 hwraps
  | false =>
    obtain ⟨hswap, hheight, hvariables⟩ := h.2 hwraps
    exact ⟨_, predecessors_eq h.1 ⟨hswap, Limits.fits_mono hheight (by omega), hvariables⟩⟩

/-- Without limits, the counts of a swap are all that matters. -/
theorem predecessors_ideal (h : i.operation = .swap → i.pushes ≤ 2) :
    i.predecessors reaches l = .ok (i.sources reaches l) :=
  predecessors_eq rfl ⟨h, trivial, trivial⟩

end Instruction

end BytecodeFlow
