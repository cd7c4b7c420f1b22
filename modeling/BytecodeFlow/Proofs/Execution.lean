import BytecodeFlow.Proofs.MachineAnalysis
import BytecodeFlow.Proofs.MachineWords

/-! # Where values come from

An instruction moves values between the places of a machine state and computes new ones from its operands.
Where the value at a place comes from depends on the instruction alone, provided its counts fit its
operation. This is stated once, for every place; which labels a place can hold, on which places its value
depends, and what an instruction leaves alone is read off from it.
-/
namespace BytecodeFlow

namespace Instruction

/-- The counts fit the operation, as far as they matter for where values come from. -/
def Regular (i : Instruction) : Prop :=
  match i.operation with
  | .dup => i.pops ≤ 1 ∧ i.pushes = i.pops + 1
  | .dupX1 => i.pops = 2 ∧ i.pushes = 3
  | .dupX2 => i.pops = 3 ∧ i.pushes = 4
  | .dup2 => i.pushes = i.pops + 2
  | .dup2X1 => i.pops = 3 ∧ i.pushes = 5
  | .dup2X2 => i.pops = 4 ∧ i.pushes = 6
  | .swap => i.pops = 2 ∧ i.pushes = 2
  | .arrayLoad => i.pops ≤ 2 ∨ i.pushes = 0
  | .load _ | .getStatic _ => i.pops = 0
  | .store _ => i.pops = 1 ∨ i.pops = 2
  | .putStatic _ => 0 < i.pops
  | .putField _ => i.pushes = 0
  | _ => True

instance (i : Instruction) : Decidable i.Regular := by
  unfold Regular
  split <;> infer_instance

/-- The value at a place after an instruction is the one at a place before it, maybe with the default
filled in, or it is computed from the values at some places. -/
inductive Origin where
  | kept (l : MemoryLocation)
  | filled (l : MemoryLocation)
  | computed (operands : List MemoryLocation)
  | invoked (target : Method) (operands : List MemoryLocation)

def stackOrigin (i : Instruction) (j : Nat) : Origin :=
  match i.operation with
  | .ret | .increment _ => .kept (.stack j)
  | .store _ | .putStatic _ => .kept (.stack (j + i.pops))
  | .load index => .kept (if j < i.pushes then .var (index + j) else .stack (j - i.pushes))
  | .getStatic field => if j < i.pushes then .filled (.static field) else .kept (.stack (j - i.pushes))
  | .dup | .dupX1 | .dupX2 | .dup2 | .dup2X1 | .dup2X2 | .swap =>
    .kept (.stack (if j < i.pushes then copied i.operation j else j - i.pushes + i.pops))
  | .invoke _ target =>
    if j < i.pushes then .invoked target (MemoryLocation.topSlots i.pops) else .kept (.stack (j - i.pushes + i.pops))
  | _ =>
    if j < i.pushes then .computed (MemoryLocation.topSlots i.pops) else .kept (.stack (j - i.pushes + i.pops))

/-- Where the value of a local variable comes from. A store fills up the variables in front of its own. -/
def varOrigin (i : Instruction) (j : Nat) : Origin :=
  match i.operation with
  | .increment index => if j = index then .computed [.var j] else .kept (.var j)
  | .store index =>
    if j < index then .filled (.var j)
    else if j < index + i.pops then .kept (.stack (j - index))
    else .kept (.var j)
  | _ => .kept (.var j)

def origin (i : Instruction) : MemoryLocation → Origin
  | .stack j => i.stackOrigin j
  | .var j => i.varOrigin j
  | .static f => .kept <| match i.operation with
    | .putStatic field => if f = field then .stack 0 else .static f
    | _ => .static f
  | .heap f => .kept (.heap f)

def heightAfter (i : Instruction) (height : Nat) : Nat :=
  match i.operation with
  | .ret | .increment _ => height
  | .store _ | .putStatic _ => height - i.pops
  | .load _ | .getStatic _ => height + i.pushes
  | .dup | .dupX1 | .dupX2 | .dup2 | .dup2X1 | .dup2X2 | .swap => height + i.pushes - i.pops
  | _ => height - i.pops + i.pushes

def Origin.value {V : Type} [Inhabited V] (I : Interpreter V) (i : Instruction) (s : MachineState V) :
    Origin → Option V
  | kept l => valueAt? s l
  | filled l => some (l.valueIn s default)
  | computed operands => some (I.result i (operands.map (·.valueIn s default)))
  | invoked target operands => some (I.invoke target (operands.map (·.valueIn s default)))

end Instruction

def FlowGraph.Regular (g : FlowGraph) : Prop :=
  ∀ e ∈ g.edges, ∀ i ∈ e.label.instruction?, i.Regular

theorem FlowGraph.Regular.instruction {g : FlowGraph} (h : g.Regular) {e : Edge} (he : e ∈ g.edges)
    {i : Instruction} (hlabel : e.label = .instruction i) : i.Regular :=
  h e he i (by simp [hlabel, Label.instruction?])

/-! ### Frames -/

section Frames

variable {V : Type}

theorem getElem?_setSlot [Inhabited V] (index : Nat) (v : V) (l : List V) (j : Nat) :
    (setSlot index v l)[j]? =
      if j < index then some (l[j]?.getD default) else if j = index then some v else l[j]? := by
  unfold setSlot
  split <;> grind

namespace Frame

theorem popN_eq_ok {f f' : Frame V} {n : Nat} {vs : List V} :
    f.popN n = .ok (vs, f') ↔
      n ≤ f.stack.length ∧ vs = f.stack.take n ∧ f' = { f with stack := f.stack.drop n } := by
  unfold popN
  split
  · rename_i hshort
    simp [Nat.not_le.2 hshort]
  · rename_i hlong
    simp [Nat.not_lt.1 hlong, eq_comm]

theorem combine_eq_ok {f f' : Frame V} {i : Instruction} {compute : List V → V} :
    f.combine i compute = .ok f' ↔ i.pops ≤ f.stack.length ∧ f' = { f with
      stack := List.replicate i.pushes (compute (f.stack.take i.pops)) ++ f.stack.drop i.pops } := by
  unfold combine popN pushN
  by_cases hshort : f.stack.length < i.pops
  · simp [hshort, Nat.not_le.2 hshort]
  · simp [hshort, Nat.not_lt.1 hshort, eq_comm]

theorem pushVars_ok {f f' : Frame V} {index count : Nat} (h : f.pushVars .ideal index count = .ok f') :
    f'.locals = f.locals ∧ f'.stack.length = f.stack.length + count ∧
      ∀ j, f'.stack[j]? = if j < count then f.locals[index + j]? else f.stack[j - count]? := by
  induction count generalizing f with
  | zero =>
    obtain rfl : f = f' := by simpa [pushVars] using h
    simp
  | succ count ih =>
    unfold pushVars at h
    rw [Limits.add_ideal] at h
    cases hv : f.var? (index + count) with
    | none => simp [hv] at h
    | some v =>
      simp only [hv] at h
      obtain ⟨hlocals, hlength, hstack⟩ := ih h
      refine ⟨hlocals, by simp [hlength, push]; omega, fun j => ?_⟩
      rw [hstack]
      grind [push, var?]

theorem pushVars_of_fits {limits : Limits} {index count : Nat} (h : limits.fits (index + count)) (f : Frame V) :
    f.pushVars limits index count = f.pushVars .ideal index count := by
  induction count generalizing f with
  | zero => rfl
  | succ count ih =>
    have hadd : limits.add index count = .ok (index + count) := Limits.add_of_fits h
    unfold pushVars
    simp only [hadd, Limits.add_ideal, ih (Limits.fits_mono h (Nat.le_succ _))]

/-- Every variable that is pushed was found. -/
theorem exists_of_pushVars {limits : Limits} {f f' : Frame V} {index count : Nat}
    (h : f.pushVars limits index count = .ok f') {j : Nat} (hj : j < count) :
    ∃ k, limits.add index j = .ok k ∧ (f.var? k).isSome = true := by
  induction count generalizing f with
  | zero => cases hj
  | succ count ih =>
    unfold pushVars at h
    split at h
    · cases h
    · rename_i k hk
      split at h
      · cases h
      · rename_i v hv
        rcases Nat.lt_succ_iff_lt_or_eq.1 hj with hj | rfl
        · -- pushing a value does not touch the variables
          exact ih (f := f.push v) h hj
        · exact ⟨k, hk, by simp [hv]⟩

def withVar [Inhabited V] (f : Frame V) (index : Nat) (value : V) : Frame V :=
  { f with locals := setSlot index value f.locals }

def withVars [Inhabited V] (f : Frame V) (index : Nat) : List V → Frame V
  | [] => f
  | v :: vs => (f.withVar index v).withVars (index + 1) vs

theorem setVar_ideal [Inhabited V] (f : Frame V) (index : Nat) (v : V) :
    f.setVar .ideal index v = .ok (f.withVar index v) :=
  if_pos (.inr rfl)

theorem length_withVar [Inhabited V] (f : Frame V) (index : Nat) (v : V) :
    (f.withVar index v).locals.length = max f.locals.length (index + 1) := by
  unfold withVar setSlot
  split <;> simp <;> omega

/-- Variables are set one after the other, and the last one needs the most room. -/
theorem setVars_eq [Inhabited V] (limits : Limits) (f : Frame V) (index : Nat) {vs : List V} (hvs : vs ≠ []) :
    f.setVars limits index vs =
      if index + vs.length ≤ f.locals.length ∨ limits.holdsLocals (index + vs.length) then
        .ok (f.withVars index vs)
      else .error .crash := by
  induction vs generalizing f index with
  | nil => exact absurd rfl hvs
  | cons v vs ih =>
    rw [setVars, setVar]
    by_cases hroom : index < f.locals.length ∨ limits.holdsLocals (index + 1)
    · rw [if_pos hroom]
      cases vs with
      | nil => exact (if_pos hroom).symm
      | cons w vs =>
        refine (ih (f.withVar index v) (index + 1) (by simp)).trans ?_
        rw [length_withVar, List.length_cons (a := v), withVars]
        congr 1
        grind
    · have hmore : ¬ (index + (v :: vs).length ≤ f.locals.length ∨
          limits.holdsLocals (index + (v :: vs).length)) := by
        rintro (hlong | hholds)
        · exact hroom (.inl (by simp only [List.length_cons] at hlong; omega))
        · exact hroom (.inr (Limits.holdsLocals_mono hholds (by simp)))
      rw [if_neg hroom, if_neg hmore]

theorem setVars_ok [Inhabited V] {limits : Limits} {f f' : Frame V} {index : Nat} {vs : List V}
    (h : f.setVars limits index vs = .ok f') : f' = f.withVars index vs := by
  cases vs with
  | nil => exact (Except.ok.inj h).symm
  | cons v vs =>
    rw [setVars_eq limits f index (List.cons_ne_nil v vs)] at h
    split at h
    · exact (Except.ok.inj h).symm
    · cases h

theorem setVars_ideal [Inhabited V] (f : Frame V) (index : Nat) (vs : List V) :
    f.setVars .ideal index vs = .ok (f.withVars index vs) := by
  induction vs generalizing f index with
  | nil => rfl
  | cons v vs ih =>
    rw [setVars, setVar_ideal]
    exact ih (f.withVar index v) (index + 1)

theorem locals_withVars [Inhabited V] (f : Frame V) (index : Nat) {vs : List V} (hvs : vs ≠ []) (j : Nat) :
    (f.withVars index vs).locals[j]? =
      if j < index then some (f.locals[j]?.getD default)
      else if j < index + vs.length then vs[j - index]? else f.locals[j]? := by
  induction vs generalizing f index with
  | nil => exact absurd rfl hvs
  | cons v vs ih =>
    rw [withVars]
    cases vs with
    | nil =>
      rw [withVars, withVar, getElem?_setSlot]
      grind
    | cons w vs =>
      rw [ih (f.withVar index v) (index + 1) (by simp), withVar]
      simp only [getElem?_setSlot, List.length_cons]
      grind

theorem stack_withVars [Inhabited V] (f : Frame V) (index : Nat) (vs : List V) :
    (f.withVars index vs).stack = f.stack := by
  induction vs generalizing f index with
  | nil => rfl
  | cons v vs ih => exact ih _ _

end Frame

end Frames

/-! ### Instructions -/

namespace MachineState

variable {V : Type} [Inhabited V] {I : Interpreter V} {i : Instruction} {s t : MachineState V}

/-- The values of the popped slots. -/
theorem map_popped {n : Nat} (h : n ≤ s.frame.stack.length) :
    (MemoryLocation.topSlots n).map (·.valueIn s default) = s.frame.stack.take n := by
  apply List.ext_getElem?
  intro j
  simp only [MemoryLocation.topSlots, List.map_map, List.getElem?_map, List.getElem?_take]
  by_cases hj : j < n
  · have hlt : j < s.frame.stack.length := by omega
    simp [hj, hlt, MemoryLocation.valueIn, valueAt?, Frame.peek?]
  · simp [hj]

/-- The second state is what the instruction makes of the first one, place by place. -/
structure Executed (I : Interpreter V) (i : Instruction) (s t : MachineState V) : Prop where
  node : t.node = s.node
  height : t.frame.stack.length = i.heightAfter s.frame.stack.length
  value : ∀ l, valueAt? t l = (i.origin l).value I i s

/-- An instruction that changes the stack only. -/
theorem executed_of_stack {stack : List V} (hvar : ∀ j, i.varOrigin j = .kept (.var j))
    (hstatic : ∀ f, i.origin (.static f) = .kept (.static f))
    (hheight : stack.length = i.heightAfter s.frame.stack.length)
    (hstack : ∀ j, stack[j]? = (i.stackOrigin j).value I i s) :
    Executed I i s { s with frame := { s.frame with stack } } where
  node := rfl
  height := hheight
  value l := by
    cases l with
    | var j => rw [Instruction.origin, hvar]; rfl
    | stack j => exact hstack j
    | static f => rw [hstatic]; rfl
    | heap f => rfl

omit [Inhabited V] in
theorem withFrame_eq_ok {r : Except Fault (Frame V)} :
    s.withFrame r = .ok t ↔ ∃ f, r = .ok f ∧ t = { s with frame := f } := by
  cases r with
  | error e => simp [withFrame]
  | ok f => simp [withFrame, eq_comm]

/-- An instruction that pops its operands and pushes what is computed from them. -/
theorem executed_of_combine {compute : List V → V} {o : Instruction.Origin}
    (hvar : ∀ j, i.varOrigin j = .kept (.var j)) (hstatic : ∀ f, i.origin (.static f) = .kept (.static f))
    (hheight : ∀ n, i.heightAfter n = n - i.pops + i.pushes)
    (hstack : ∀ j, i.stackOrigin j =
      if j < i.pushes then o else .kept (.stack (j - i.pushes + i.pops)))
    (ho : o.value I i s = some (compute ((MemoryLocation.topSlots i.pops).map (·.valueIn s default))))
    (h : s.withFrame (s.frame.combine i compute) = .ok t) : Executed I i s t := by
  obtain ⟨f, hcombine, rfl⟩ := withFrame_eq_ok.1 h
  obtain ⟨hlong, rfl⟩ := Frame.combine_eq_ok.1 hcombine
  refine executed_of_stack hvar hstatic ?_ fun j => ?_
  · simp [hheight]
    omega
  · rw [hstack]
    by_cases hj : j < i.pushes
    · rw [if_pos hj, ho, map_popped hlong]
      simp [List.getElem?_append, hj]
    · rw [if_neg hj]
      simp [List.getElem?_append, hj, Instruction.Origin.value, valueAt?, Frame.peek?, Nat.add_comm]

theorem executed_of_rearrange {g : List V → Option (List V)}
    (hvar : ∀ j, i.varOrigin j = .kept (.var j)) (hstatic : ∀ f, i.origin (.static f) = .kept (.static f))
    (hg : ∀ stack, g s.frame.stack = some stack → stack.length = i.heightAfter s.frame.stack.length ∧
      ∀ j, stack[j]? = (i.stackOrigin j).value I i s)
    (h : s.withFrame (s.frame.rearrange g) = .ok t) : Executed I i s t := by
  obtain ⟨f, hrearrange, rfl⟩ := withFrame_eq_ok.1 h
  unfold Frame.rearrange at hrearrange
  cases hstack : g s.frame.stack with
  | none => simp [hstack] at hrearrange
  | some stack =>
    obtain rfl : { s.frame with stack } = f := by simpa [hstack] using hrearrange
    obtain ⟨hheight, hvalue⟩ := hg stack hstack
    exact executed_of_stack hvar hstatic hheight hvalue

theorem executed_store {index pops pushes : Nat} (hpops : 0 < pops)
    (h : s.execute I ⟨.store index, pops, pushes⟩ = .ok t) :
    Executed I ⟨.store index, pops, pushes⟩ s t := by
  unfold execute at h
  cases hpop : s.frame.popN pops with
  | error e => simp [hpop] at h
  | ok r =>
    obtain ⟨vs, f⟩ := r
    obtain ⟨hlong, rfl, rfl⟩ := Frame.popN_eq_ok.1 hpop
    simp only [hpop, Frame.setVars_ideal] at h
    cases h
    have hlength : (s.frame.stack.take pops).length = pops := by simp [hlong]
    have hne : s.frame.stack.take pops ≠ [] := List.ne_nil_of_length_pos (by omega)
    refine ⟨rfl, by simp [Frame.stack_withVars, Instruction.heightAfter], fun l => ?_⟩
    cases l with
    | var j =>
      refine (Frame.locals_withVars _ index hne j).trans ?_
      simp only [Instruction.origin, Instruction.varOrigin, hlength]
      by_cases hbefore : j < index
      · rw [if_pos hbefore, if_pos hbefore]
        rfl
      · rw [if_neg hbefore, if_neg hbefore]
        by_cases hstored : j < index + pops
        · rw [if_pos hstored, if_pos hstored, List.getElem?_take_of_lt (by omega)]
          rfl
        · rw [if_neg hstored, if_neg hstored]
          rfl
    | stack j =>
      simp [valueAt?, Frame.peek?, Frame.stack_withVars, Instruction.origin, Instruction.stackOrigin,
        Instruction.Origin.value, Nat.add_comm]
    | static f => rfl
    | heap f => rfl

theorem executed_increment {index pops pushes : Nat}
    (h : s.execute I ⟨.increment index, pops, pushes⟩ = .ok t) :
    Executed I ⟨.increment index, pops, pushes⟩ s t := by
  unfold execute at h
  cases hv : s.frame.var? index with
  | none => simp [hv] at h
  | some v =>
    simp only [hv, Frame.setVar_ideal] at h
    cases h
    refine ⟨rfl, rfl, fun l => ?_⟩
    cases l with
    | var j =>
      refine (getElem?_setSlot index _ s.frame.locals j).trans ?_
      simp only [Instruction.origin, Instruction.varOrigin]
      by_cases heq : j = index
      · rw [if_neg (by omega), if_pos heq, if_pos heq, heq]
        simp [Instruction.Origin.value, MemoryLocation.valueIn, valueAt?, hv]
      · rw [if_neg heq, if_neg heq]
        -- the variable is set, and so are those in front of it
        have hset : index < s.frame.locals.length := (List.getElem?_eq_some_iff.1 hv).1
        split
        · have hj : j < s.frame.locals.length := by omega
          simp [Instruction.Origin.value, valueAt?, Frame.var?, hj]
        · rfl
    | stack j => rfl
    | static f => rfl
    | heap f => rfl

theorem executed_putStatic {field : String} {pops pushes : Nat} (hpops : 0 < pops)
    (h : s.execute I ⟨.putStatic field, pops, pushes⟩ = .ok t) :
    Executed I ⟨.putStatic field, pops, pushes⟩ s t := by
  unfold execute at h
  cases hpop : s.frame.popN pops with
  | error e => simp [hpop] at h
  | ok r =>
    obtain ⟨vs, f⟩ := r
    obtain ⟨hlong, hvs, rfl⟩ := Frame.popN_eq_ok.1 hpop
    cases vs with
    | nil =>
      have hlength := congrArg List.length hvs
      simp only [List.length_nil, List.length_take] at hlength
      omega
    | cons v vs =>
      simp only [hpop] at h
      cases h
      have htop : s.frame.stack[0]? = some v := by
        rw [← List.getElem?_take_of_lt hpops, ← hvs]
        rfl
      refine ⟨rfl, by simp [Instruction.heightAfter], fun l => ?_⟩
      cases l with
      | var j => rfl
      | stack j =>
        simp [valueAt?, Frame.peek?, Instruction.origin, Instruction.stackOrigin,
          Instruction.Origin.value, Nat.add_comm]
      | static f =>
        refine (Fields.get?_set s.statics field f v).trans ?_
        simp only [Instruction.origin, Instruction.Origin.value]
        split
        · exact htop.symm
        · rfl
      | heap f => rfl

/-- Executing an instruction moves and computes values as its origins say. -/
theorem executed (hi : i.Regular) (h : s.execute I i = .ok t) : Executed I i s t := by
  obtain ⟨operation, pops, pushes⟩ := i
  cases operation with
  | dup | dupX1 | dupX2 | dup2 | dup2X1 | dup2X2 | swap =>
    simp only [Instruction.Regular] at hi
    refine executed_of_rearrange (fun _ => rfl) (fun _ => rfl) (fun stack hstack => ?_) h
    split at hstack
    · rename_i hs
      cases hstack
      refine ⟨?_, fun j => ?_⟩
      · simp only [hs, Instruction.heightAfter, List.length_cons]
        omega
      · simp only [Instruction.stackOrigin, Instruction.copied, Instruction.Origin.value, valueAt?,
          Frame.peek?, hs]
        by_cases hj : j < pushes
        · rw [if_pos hj]
          grind
        · rw [if_neg hj]
          grind
    · cases hstack
  | arrayLoad | arrayStore | simple | getField | putField | new | branch | switch | invoke =>
    exact executed_of_combine (fun _ => rfl) (fun _ => rfl) (fun _ => rfl) (fun _ => rfl) rfl h
  | ret =>
    cases h
    exact ⟨rfl, rfl, fun l => by cases l <;> rfl⟩
  | load index =>
    obtain ⟨f, hpush, rfl⟩ := withFrame_eq_ok.1 h
    obtain ⟨hlocals, hlength, hstack⟩ := Frame.pushVars_ok hpush
    refine ⟨rfl, hlength, fun l => ?_⟩
    cases l with
    | var j => exact congrArg (·[j]?) hlocals
    | stack j =>
      refine (hstack j).trans ?_
      simp only [Instruction.origin, Instruction.stackOrigin]
      split <;> rfl
    | static f => rfl
    | heap f => rfl
  | store index => exact executed_store (by rcases hi with hi | hi <;> simp only at hi <;> omega) h
  | increment index => exact executed_increment h
  | getStatic field =>
    cases h
    refine executed_of_stack (fun _ => rfl) (fun _ => rfl) ?_ fun j => ?_
    · simp [Instruction.heightAfter, Nat.add_comm]
    · simp only [Instruction.stackOrigin]
      by_cases hj : j < pushes
      · rw [if_pos hj]
        simp [List.getElem?_append, hj, Instruction.Origin.value, MemoryLocation.valueIn, valueAt?]
      · rw [if_neg hj]
        simp [List.getElem?_append, hj, Instruction.Origin.value, valueAt?, Frame.peek?]
  | putStatic field => exact executed_putStatic hi h

/-- An instruction that the limits do not stop has the effect that it has without them, if the variables that it
loads have machine words as indices. -/
theorem execute_ideal {limits : Limits}
    (hload : ∀ index, i.operation = .load index → limits.fits (index + i.pushes))
    (h : s.execute I i limits = .ok t) : s.execute I i = .ok t := by
  cases hop : i.operation with
  | load index =>
    unfold execute at h ⊢
    simp only [hop] at h ⊢
    rwa [← Frame.pushVars_of_fits (hload index hop)]
  | store index =>
    unfold execute at h ⊢
    simp only [hop] at h ⊢
    split at h
    · cases h
    · rename_i values frame hpop
      obtain ⟨f, hset, rfl⟩ := withFrame_eq_ok.1 h
      rw [Frame.setVars_ideal, Frame.setVars_ok hset]
      rfl
  | increment index =>
    unfold execute at h ⊢
    simp only [hop] at h ⊢
    split at h
    · cases h
    · rename_i v hv
      obtain ⟨f, hset, rfl⟩ := withFrame_eq_ok.1 h
      rw [Frame.setVar_ideal]
      unfold Frame.setVar at hset
      split at hset
      · cases hset
        rfl
      · cases hset
  | _ =>
    unfold execute at h ⊢
    simp only [hop] at h ⊢
    exact h

end MachineState

end BytecodeFlow
