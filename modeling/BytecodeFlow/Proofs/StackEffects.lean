import BytecodeFlow.Proofs.BackwardRules

/-! # Declared stack effects

The counts of an instruction say how many slots it pops and pushes. Stack manipulations are executed without them,
and a return leaves the stack alone. For the instructions with the stack effects of bytecode the counts are
nevertheless exact: they decide whether the stack is high enough and how high it is afterwards, and beneath the slots
that are popped nothing changes. Variables and static fields change only where the instruction writes. A store also
needs room for the variables up to its own.
-/
namespace BytecodeFlow

/-- The operations that need nothing of a frame but their operands. -/
def Operation.takesOperands : Operation → Bool
  | .ret | .load _ | .store _ | .increment _ => false
  | _ => true

namespace Instruction

def Writes (i : Instruction) (j : Nat) : Prop :=
  match i.operation with
  | .store index => index ≤ j ∧ j < index + i.pops
  | .increment index => j = index
  | _ => False

/-- The instruction stores behind the variable, so that the variable exists afterwards. -/
def Creates (i : Instruction) (j : Nat) : Prop :=
  ∃ index, i.operation = .store index ∧ j < index

/-- The frame holds what the instruction takes from it: its operands, unless it returns, and the variables that it
reads. There is room for the variables that it stores. -/
structure Enabled {V : Type} (limits : Limits) (i : Instruction) (f : Frame V) : Prop where
  operands : i.isReturn = false → i.pops ≤ f.stack.length
  loaded : ∀ index, i.operation = .load index → ∀ j < i.pushes, (f.var? (index + j)).isSome = true
  incremented : ∀ index, i.operation = .increment index → (f.var? index).isSome = true
  stored : ∀ index, i.operation = .store index →
    index + i.pops ≤ f.locals.length ∨ limits.holdsLocals (index + i.pops) = true

/-- A machine can have the frame, and the index of the variable that the instruction loads. -/
def Admitted {V : Type} (limits : Limits) (i : Instruction) (f : Frame V) : Prop :=
  match limits with
  | .ideal => True
  | .bounded _ => f.locals.length < wordCount ∧ ∀ index, i.operation = .load index → index < wordCount

variable {V : Type} {limits : Limits} {i : Instruction} {f : Frame V}

theorem enabled_iff (h : i.operation.takesOperands = true) :
    i.Enabled limits f ↔ i.pops ≤ f.stack.length := by
  have hreturn : i.isReturn = false := by
    rw [isReturn, beq_eq_false_iff_ne]
    intro heq
    rw [heq] at h
    cases h
  constructor
  · intro hf
    exact hf.operands hreturn
  · intro hlong
    refine ⟨fun _ => hlong, fun index heq => ?_, fun index heq => ?_, fun index heq => ?_⟩
    · rw [heq] at h
      cases h
    · rw [heq] at h
      cases h
    · rw [heq] at h
      cases h

theorem enabled_ret (size : Nat) : (ret size).Enabled limits f where
  operands h := by cases h
  loaded _ h := by cases h
  incremented _ h := by cases h
  stored _ h := by cases h

theorem enabled_load_iff {index : Nat} {wide : Bool} :
    (load index wide).Enabled limits f ↔ ∀ j < slots wide, (f.var? (index + j)).isSome = true := by
  constructor
  · intro h
    exact h.loaded index rfl
  · intro h
    refine ⟨fun _ => Nat.zero_le _, fun _ heq => ?_, fun _ heq => (by cases heq), fun _ heq => (by cases heq)⟩
    cases heq
    exact h

theorem enabled_increment_iff {index : Nat} :
    (increment index).Enabled limits f ↔ (f.var? index).isSome = true := by
  constructor
  · intro h
    exact h.incremented index rfl
  · intro h
    refine ⟨fun _ => Nat.zero_le _, fun _ heq => (by cases heq), fun _ heq => ?_, fun _ heq => (by cases heq)⟩
    cases heq
    exact h

theorem enabled_store_iff {index : Nat} {wide : Bool} :
    (store index wide).Enabled limits f ↔ slots wide ≤ f.stack.length ∧
      (index + slots wide ≤ f.locals.length ∨ limits.holdsLocals (index + slots wide) = true) := by
  constructor
  · intro h
    exact ⟨h.operands rfl, h.stored index rfl⟩
  · rintro ⟨hlong, hroom⟩
    refine ⟨fun _ => hlong, fun _ heq => (by cases heq), fun _ heq => (by cases heq), fun _ heq => ?_⟩
    cases heq
    exact hroom

/-! ### Where values come from -/

/-- Beneath the pushed slots lie those beneath the popped ones. -/
theorem stackOrigin_beneath (hi : i.Standard) (hreturn : i.isReturn = false) (j : Nat) :
    i.stackOrigin (i.pushes + j) = .kept (.stack (i.pops + j)) := by
  have hnot : ¬ i.pushes + j < i.pushes := by omega
  have hbelow : i.pushes + j - i.pushes + i.pops = i.pops + j := by omega
  cases hi with
  | ret => cases hreturn
  | increment => rfl
  | store | putStatic | arrayStore | putField | branch | switch =>
    exact congrArg (fun k => Origin.kept (.stack k)) hbelow
  | dup | dupX1 | dupX2 | dup2 | dup2X1 | dup2X2 | swap =>
    exact congrArg (fun k => Origin.kept (.stack k)) ((if_neg hnot).trans hbelow)
  | load =>
    exact congrArg Origin.kept ((if_neg hnot).trans (congrArg MemoryLocation.stack hbelow))
  | getStatic | arrayLoad | simple | getField | invoke | new =>
    exact (if_neg hnot).trans (congrArg (fun k => Origin.kept (.stack k)) hbelow)

theorem heightAfter_eq (hi : i.Standard) (hreturn : i.isReturn = false) {height : Nat} (h : i.pops ≤ height) :
    i.heightAfter height = height - i.pops + i.pushes := by
  cases hi with
  | ret => cases hreturn
  | dup | dupX1 | dupX2 | dup2 | dup2X1 | dup2X2 | swap => exact Nat.sub_add_comm h
  | _ => rfl

theorem varOrigin_of_creates {j : Nat} (h : i.Creates j) : i.varOrigin j = .filled (.var j) := by
  obtain ⟨index, hoperation, hj⟩ := h
  unfold varOrigin
  rw [hoperation]
  exact if_pos hj

theorem varOrigin_of_unwritten {j : Nat} (hwrites : ¬ i.Writes j) (hcreates : ¬ i.Creates j) :
    i.varOrigin j = .kept (.var j) := by
  unfold Writes at hwrites
  unfold varOrigin
  split
  · rename_i index hoperation
    rw [hoperation] at hwrites
    exact if_neg hwrites
  · rename_i index hoperation
    rw [hoperation] at hwrites
    have hfront : ¬ j < index := fun hj => hcreates ⟨index, hoperation, hj⟩
    have hbeyond : ¬ j < index + i.pops := fun hj => hwrites ⟨Nat.not_lt.1 hfront, hj⟩
    exact (if_neg hfront).trans (if_neg hbeyond)
  · rfl

theorem origin_static {field : String} (h : i.operation ≠ .putStatic field) :
    i.origin (.static field) = .kept (.static field) := by
  refine congrArg Origin.kept ?_
  split
  · rename_i target hoperation
    have hne : field ≠ target := fun heq => h (heq ▸ hoperation)
    exact if_neg hne
  · rfl

end Instruction

/-! ### Whether an instruction can be executed -/

namespace Frame

variable {V : Type} {f : Frame V}

theorem exists_popN_iff {count : Nat} : (∃ r, f.popN count = .ok r) ↔ count ≤ f.stack.length := by
  unfold popN
  split
  · rename_i hshort
    simp [Nat.not_le.2 hshort]
  · rename_i hlong
    simp [Nat.not_lt.1 hlong]

theorem exists_pushVars_ideal_iff {index count : Nat} :
    (∃ g, f.pushVars .ideal index count = .ok g) ↔ ∀ j < count, (f.var? (index + j)).isSome = true := by
  induction count generalizing f with
  | zero => simp [pushVars]
  | succ count ih =>
    rw [Nat.forall_lt_succ_right, pushVars, Limits.add_ideal]
    cases hv : f.var? (index + count) with
    | none => simp [hv]
    | some v =>
      -- pushing a value does not touch the variables
      have hvar : ∀ k, (f.push v).var? k = f.var? k := fun _ => rfl
      simp [hv, ih, hvar]

theorem lt_of_isSome_var? {index : Nat} (h : (f.var? index).isSome = true) : index < f.locals.length := by
  simpa [var?] using h

/-- Variables that are pushed have machine words as indices: a frame has none at the last one. -/
theorem fits_of_pushVars {bounds : Bounds} {g : Frame V} {index count : Nat} (hframe : f.locals.length < wordCount)
    (hindex : index < wordCount) (h : f.pushVars (.bounded bounds) index count = .ok g) :
    index + count ≤ wordCount := by
  by_contra hover
  have hfits : (Limits.bounded bounds).fits (index + (wordCount - 1 - index) + 1) := by
    change _ ≤ wordCount
    omega
  obtain ⟨k, hadd, hk⟩ := exists_of_pushVars h (j := wordCount - 1 - index) (by omega)
  rw [Limits.add_of_fits hfits] at hadd
  obtain rfl := Except.ok.inj hadd
  have hlast := lt_of_isSome_var? hk
  omega

/-- Variables that exist have machine words as indices. -/
theorem fits_of_vars {index count : Nat} (hframe : f.locals.length < wordCount) (hindex : index < wordCount)
    (h : ∀ j < count, (f.var? (index + j)).isSome = true) : index + count ≤ wordCount := by
  cases count with
  | zero => exact Nat.le_of_lt hindex
  | succ count =>
    have hlast := lt_of_isSome_var? (h count (Nat.lt_succ_self count))
    omega

theorem exists_pushVars_iff {limits : Limits} {index : Nat} {wide : Bool}
    (hf : (Instruction.load index wide).Admitted limits f) :
    (∃ g, f.pushVars limits index (Instruction.slots wide) = .ok g) ↔
      limits.fits (index + Instruction.slots wide) ∧
        ∀ j < Instruction.slots wide, (f.var? (index + j)).isSome = true := by
  rw [← exists_pushVars_ideal_iff]
  constructor
  · rintro ⟨g, hg⟩
    have hfits : limits.fits (index + Instruction.slots wide) := by
      cases limits with
      | ideal => trivial
      | bounded b => exact fits_of_pushVars hf.1 (hf.2 index rfl) hg
    exact ⟨hfits, g, pushVars_of_fits hfits f ▸ hg⟩
  · rintro ⟨hfits, g, hg⟩
    exact ⟨g, (pushVars_of_fits hfits f).trans hg⟩

theorem exists_rearrange_iff {move : List V → Option (List V)} :
    (∃ g, f.rearrange move = .ok g) ↔ (move f.stack).isSome = true := by
  unfold rearrange
  cases move f.stack <;> simp

end Frame

namespace MachineState

variable {V : Type} [Inhabited V] {limits : Limits} {I : Interpreter V} {i : Instruction} {s t : MachineState V}

omit [Inhabited V] in
theorem exists_withFrame_iff {r : Except Fault (Frame V)} : (∃ t, s.withFrame r = .ok t) ↔ ∃ f, r = .ok f := by
  cases r <;> simp [withFrame]

theorem exists_execute_load_iff {index : Nat} {wide : Bool}
    (hs : (Instruction.load index wide).Admitted limits s.frame) :
    (∃ t, s.execute I (.load index wide) limits = .ok t) ↔
      ∀ j < Instruction.slots wide, (s.frame.var? (index + j)).isSome = true := by
  refine exists_withFrame_iff.trans ((Frame.exists_pushVars_iff hs).trans (and_iff_right_of_imp fun hvars => ?_))
  cases limits with
  | ideal => trivial
  | bounded b => exact Frame.fits_of_vars hs.1 (hs.2 index rfl) hvars

theorem exists_execute_store_iff {index pops pushes : Nat} (hpops : 0 < pops) :
    (∃ t, s.execute I ⟨.store index, pops, pushes⟩ limits = .ok t) ↔ pops ≤ s.frame.stack.length ∧
      (index + pops ≤ s.frame.locals.length ∨ limits.holdsLocals (index + pops) = true) := by
  unfold execute
  simp only
  by_cases hlong : pops ≤ s.frame.stack.length
  · have hlength : (s.frame.stack.take pops).length = pops := by simp [hlong]
    have hne : s.frame.stack.take pops ≠ [] := List.ne_nil_of_length_pos (by omega)
    rw [Frame.popN_eq_ok.2 ⟨hlong, rfl, rfl⟩]
    simp only [exists_withFrame_iff, Frame.setVars_eq limits _ index hne, hlength, hlong, true_and]
    split
    · rename_i hroom
      exact iff_of_true ⟨_, rfl⟩ hroom
    · rename_i hroom
      exact iff_of_false (fun ⟨_, h⟩ => (by cases h)) hroom
  · have hshort : ¬ ∃ r, s.frame.popN pops = .ok r := fun h => hlong (Frame.exists_popN_iff.1 h)
    refine iff_of_false (fun ⟨t, ht⟩ => hshort ?_) fun h => hlong h.1
    split at ht
    · cases ht
    · rename_i r hr
      exact ⟨_, hr⟩

theorem exists_execute_putStatic_iff {field : String} {pops pushes : Nat} :
    (∃ t, s.execute I ⟨.putStatic field, pops, pushes⟩ limits = .ok t) ↔ pops ≤ s.frame.stack.length := by
  rw [← Frame.exists_popN_iff]
  unfold execute
  cases s.frame.popN pops with
  | error e => simp
  | ok r => obtain ⟨_ | ⟨v, values⟩, frame⟩ := r <;> simp

/-- An instruction can be executed exactly in the frames that hold what it takes from them. -/
theorem exists_execute_iff (hi : i.Standard) (hs : i.Admitted limits s.frame) :
    (∃ t, s.execute I i limits = .ok t) ↔ i.Enabled limits s.frame := by
  cases hi with
  | ret size => exact iff_of_true ⟨s, rfl⟩ (Instruction.enabled_ret size)
  | load index wide => exact (exists_execute_load_iff hs).trans Instruction.enabled_load_iff.symm
  | increment index =>
    rw [Instruction.enabled_increment_iff]
    unfold execute
    simp only [Instruction.increment]
    cases hv : s.frame.var? index with
    | none => simp
    | some v =>
      have hset : index < s.frame.locals.length := (List.getElem?_eq_some_iff.1 hv).1
      simp [withFrame, Frame.setVar, hset]
  | getStatic | new => exact iff_of_true ⟨_, rfl⟩ ((Instruction.enabled_iff rfl).2 (Nat.zero_le _))
  | store index wide =>
    have hpops : 0 < Instruction.slots wide := by cases wide <;> decide
    exact (exists_execute_store_iff hpops).trans Instruction.enabled_store_iff.symm
  | putStatic =>
    rw [Instruction.enabled_iff rfl]
    exact exists_execute_putStatic_iff
  | dup | dupX1 | dupX2 | dup2 | dup2X1 | dup2X2 | swap =>
    rw [Instruction.enabled_iff rfl]
    refine exists_withFrame_iff.trans (Frame.exists_rearrange_iff.trans ?_)
    -- no manipulation looks at more than four slots
    rcases s.frame.stack with _ | ⟨a, _ | ⟨b, _ | ⟨c, _ | ⟨d, r⟩⟩⟩⟩ <;>
      simp [Instruction.dup, Instruction.dupX1, Instruction.dupX2, Instruction.dup2, Instruction.dup2X1,
        Instruction.dup2X2, Instruction.swap]
  | arrayLoad | arrayStore | simple | getField | putField | invoke | branch | switch =>
    rw [Instruction.enabled_iff rfl]
    refine exists_withFrame_iff.trans ?_
    simp [Frame.combine_eq_ok]

/-- The counts of an instruction are its effects. It can be executed exactly if the stack holds as many slots as it
pops, which a return need not have, the variables exist that it loads or increments, and there is room for those that
it stores. The stack then has lost the popped slots and gained the pushed ones, and beneath them it is as it was; a
return leaves it as a whole. The node stays. A variable changes only if a store or an increment writes it, or if it did
not exist in front of those that a store writes, and then it holds the default. A static field changes only if it is
put. -/
theorem execute_as_declared (I : Interpreter V) (hi : i.Standard) (limits : Limits) (s : MachineState V)
    (hs : i.Admitted limits s.frame) :
    ((∃ t, s.execute I i limits = .ok t) ↔ i.Enabled limits s.frame) ∧
    ∀ t, s.execute I i limits = .ok t →
      t.node = s.node ∧
      (i.isReturn = true → t.frame.stack = s.frame.stack) ∧
      (i.isReturn = false → t.frame.stack.length = s.frame.stack.length - i.pops + i.pushes ∧
        ∀ j, t.frame.peek? (i.pushes + j) = s.frame.peek? (i.pops + j)) ∧
      (∀ j, ¬ i.Writes j → ¬ i.Creates j → t.frame.var? j = s.frame.var? j) ∧
      (∀ j, i.Creates j → t.frame.var? j = some ((s.frame.var? j).getD default)) ∧
      ∀ field, i.operation ≠ .putStatic field → t.statics.get? field = s.statics.get? field := by
  refine ⟨exists_execute_iff hi hs, fun t ht => ?_⟩
  have hload : ∀ index, i.operation = .load index → limits.fits (index + i.pushes) := by
    intro index hop
    cases hi with
    | load =>
      cases hop
      exact ((Frame.exists_pushVars_iff hs).1 (exists_withFrame_iff.1 ⟨t, ht⟩)).1
    | _ => cases hop
  have hexecuted := executed (Instruction.regular_of_standard hi) (execute_ideal hload ht)
  have henabled := (exists_execute_iff hi hs).1 ⟨t, ht⟩
  refine ⟨hexecuted.node, fun hreturn => ?_, fun hreturn => ⟨?_, fun j => ?_⟩, fun j hwrites hcreates => ?_,
    fun j hcreates => ?_, fun field hfield => ?_⟩
  · cases hi with
    | ret =>
      cases ht
      rfl
    | _ => cases hreturn
  · rw [hexecuted.height, Instruction.heightAfter_eq hi hreturn (henabled.operands hreturn)]
  · have hvalue := hexecuted.value (.stack (i.pushes + j))
    rw [Instruction.origin, Instruction.stackOrigin_beneath hi hreturn] at hvalue
    exact hvalue
  · have hvalue := hexecuted.value (.var j)
    rw [Instruction.origin, Instruction.varOrigin_of_unwritten hwrites hcreates] at hvalue
    exact hvalue
  · have hvalue := hexecuted.value (.var j)
    rw [Instruction.origin, Instruction.varOrigin_of_creates hcreates] at hvalue
    exact hvalue
  · have hvalue := hexecuted.value (.static field)
    rw [Instruction.origin_static hfield] at hvalue
    exact hvalue

/-- A value of two slots is stored behind the variables. Two slots are too few for copying two beneath a third. -/
theorem execute_as_declared_store :
    (∃ t, (Instruction.plainState [4] [7, 8, 9]).execute Instruction.summing (.store 3 true) (.standard .stops) =
        .ok t ∧
      t.frame.stack.length = 1 ∧ t.frame.peek? 0 = some 9 ∧ t.frame.var? 0 = some 4 ∧ t.frame.var? 2 = some 0) ∧
    ¬ ∃ t, (Instruction.plainState [4] [7, 8]).execute Instruction.summing .dup2X1 (.standard .stops) = .ok t := by
  have hadmitted (stack : List Nat) {i : Instruction} (hi : ∀ index, i.operation ≠ .load index) :
      i.Admitted (.standard .stops) (Instruction.plainState [4] stack).frame :=
    ⟨show 1 < wordCount by decide, fun index h => absurd h (hi index)⟩
  constructor
  · obtain ⟨hok, hafter⟩ := execute_as_declared Instruction.summing (.store 3 true) (.standard .stops)
      (Instruction.plainState [4] [7, 8, 9]) (hadmitted [7, 8, 9] fun _ h => (by cases h))
    obtain ⟨t, ht⟩ := hok.2 (Instruction.enabled_store_iff.2 ⟨by decide, .inr rfl⟩)
    obtain ⟨_, _, hstack, _, hcreated, _⟩ := hafter t ht
    obtain ⟨hheight, hbelow⟩ := hstack rfl
    exact ⟨t, ht, hheight, hbelow 0, hcreated 0 ⟨3, rfl, by decide⟩, hcreated 2 ⟨3, rfl, by decide⟩⟩
  · rw [(execute_as_declared Instruction.summing .dup2X1 (.standard .stops) (Instruction.plainState [4] [7, 8])
      (hadmitted [7, 8] fun _ h => (by cases h))).1]
    exact fun henabled => absurd (henabled.operands rfl) (by decide)

/-- There is no room for variables as far as these, the last of all among them, although the stack holds the value that
is stored. -/
theorem execute_crashes_store :
    (Instruction.store (2 ^ 62) false).pops ≤ (Instruction.plainState [] [7]).frame.stack.length ∧
    (∀ overflow, (Instruction.plainState [] [7]).execute Instruction.summing (.store (2 ^ 62) false)
      (.standard overflow) = .error .crash) ∧
    ∀ overflow, (Instruction.plainState [] [7]).execute Instruction.summing (.store (wordCount - 1) false)
      (.standard overflow) = .error .crash :=
  ⟨by decide, fun _ => rfl, fun _ => rfl⟩

end MachineState

end BytecodeFlow
