import BytecodeFlow.Machine.Tagging
import BytecodeFlow.Proofs.Execution

/-! # Larger states have larger successors

One machine state lies below another if both are at the same node, their stacks are equally high and every
place holds less. Executing an instruction, catching an exception, entering a callee and returning from it
all keep this relation, provided the values come from a monotone interpreter. Whatever succeeds in the smaller
state succeeds in the larger one, which has at least its variables and its fields.

For instructions this is assembled from what each operation on frames does to frames that are ordered slot by
slot, so that the counts of an instruction play no part.
-/
namespace BytecodeFlow

attribute [ext] Frame MachineState

/-- Value lattices whose default is the least element. -/
class PointedLattice (V : Type) [JoinDomain V] [Inhabited V] : Prop extends ValueLattice V where
  default_le (v : V) : Domain.le default v = true

instance {α : Type} [Ord α] [Std.TransOrd α] [Std.LawfulEqOrd α] : PointedLattice (Powerset α) where
  default_le _ := Powerset.subset_iff.2 fun a ha => absurd ha (Powerset.not_mem_empty a)

/-! ### Optional values -/

section Under

variable {V : Type} [JoinDomain V]

/-- A missing value lies below every value. -/
def Under (a b : Option V) : Prop := joinOption a b = b

instance [DecidableEq V] (a b : Option V) : Decidable (Under a b) :=
  inferInstanceAs (Decidable (joinOption a b = b))

variable [ValueLattice V] {a b c : Option V}

theorem Under.refl (a : Option V) : Under a a := joinOption_self a

theorem Under.trans (h : Under a b) (h' : Under b c) : Under a c := by
  unfold Under at h h' ⊢
  rw [← h', ← joinOption_assoc, h]

theorem Under.join (h : Under a c) (h' : Under b c) : Under (joinOption a b) c := by
  unfold Under at h h' ⊢
  rw [joinOption_assoc, h', h]

theorem under_some {v : V} : Under (some v) b ↔ ∃ w, b = some w ∧ Domain.le v w = true := by
  unfold Under
  cases b with
  | none => simp
  | some w => simp [ValueLattice.le_iff]

theorem under_some_some {v w : V} : Under (some v) (some w) ↔ Domain.le v w = true := by
  simp [under_some]

theorem Under.exists_of_eq_some {v : V} (h : Under a b) (ha : a = some v) :
    ∃ w, b = some w ∧ Domain.le v w = true :=
  under_some.1 (ha ▸ h)

omit [ValueLattice V] in
theorem Under.getD [Inhabited V] [PointedLattice V] (h : Under a b) :
    Domain.le (a.getD default) (b.getD default) = true := by
  cases a with
  | none => exact PointedLattice.default_le _
  | some v =>
    obtain ⟨w, rfl, hle⟩ := under_some.1 h
    exact hle

end Under

/-! ### Lists of slots and maps of fields -/

section Slotwise

variable {V : Type} [JoinDomain V]

/-- Lists of one length, of which the second holds more at each position. -/
abbrev SlotsBelow (l r : List V) : Prop := List.Forall₂ (fun a b => Domain.le a b = true) l r

theorem joinSlots_eq_right_iff {l r : List V} : joinSlots l r = r ↔ ∀ j : Nat, Under l[j]? r[j]? := by
  simp only [List.ext_getElem?_iff, getElem?_joinSlots, Under]

theorem Fields.join_eq_right_iff {m n : Fields V} :
    m.join n = n ↔ ∀ f, Under (m.get? f) (n.get? f) := by
  constructor
  · intro h f
    unfold Under
    rw [← get?_join, h]
  · intro h
    apply ext_get?
    intro f
    rw [get?_join]
    exact h f

theorem slotsBelow_replicate {v w : V} (h : Domain.le v w = true) (n : Nat) :
    SlotsBelow (List.replicate n v) (List.replicate n w) := by
  induction n with
  | zero => exact .nil
  | succ n ih => exact .cons h ih

variable [ValueLattice V]

theorem slotsBelow_iff {l r : List V} :
    SlotsBelow l r ↔ l.length = r.length ∧ ∀ j : Nat, Under l[j]? r[j]? := by
  induction l generalizing r with
  | nil =>
    cases r with
    | nil => simp [Under]
    | cons b r => simp
  | cons a l ih =>
    cases r with
    | nil => simp
    | cons b r =>
      have hslots : SlotsBelow (a :: l) (b :: r) ↔ Domain.le a b = true ∧ SlotsBelow l r := List.forall₂_cons
      have hunder : (∀ j : Nat, Under (a :: l)[j]? (b :: r)[j]?) ↔
          Domain.le a b = true ∧ ∀ j : Nat, Under l[j]? r[j]? := by
        constructor
        · intro h
          exact ⟨under_some_some.1 (h 0), fun j => h (j + 1)⟩
        · rintro ⟨hab, h⟩ (_ | j)
          · exact under_some_some.2 hab
          · exact h j
      rw [hslots, hunder, ih, List.length_cons, List.length_cons, Nat.succ_inj]
      exact and_left_comm

end Slotwise

theorem joinSlots_eq_zipWith {V : Type} [JoinDomain V] {l r : List V} (h : l.length = r.length) :
    joinSlots l r = List.zipWith JoinDomain.join l r := by
  induction l generalizing r with
  | nil =>
    cases r with
    | nil => rfl
    | cons b r => simp at h
  | cons a l ih =>
    cases r with
    | nil => simp at h
    | cons b r => simp [joinSlots, ih (by simpa using h)]

namespace MachineState

variable {V : Type}

/-- The second state is at the same node and has a stack of the same height, and it holds more. -/
structure Below [JoinDomain V] (s t : MachineState V) : Prop where
  node : s.node = t.node
  height : s.frame.stack.length = t.frame.stack.length
  values : ∀ l, Under (valueAt? s l) (valueAt? t l)

section Join

variable [JoinDomain V] {s t u : MachineState V}

/-- Stacks of the same height are joined slot by slot, from the top. -/
theorem stack_join (h : s.frame.stack.length = t.frame.stack.length) :
    (s.join t).frame.stack = joinSlots s.frame.stack t.frame.stack := by
  change (joinSlots s.frame.stack.reverse t.frame.stack.reverse).reverse = _
  rw [joinSlots_eq_zipWith (by simpa using h), ← List.reverse_zipWith h, List.reverse_reverse,
    joinSlots_eq_zipWith h]

theorem height_join (h : s.frame.stack.length = t.frame.stack.length) :
    (s.join t).frame.stack.length = s.frame.stack.length := by
  rw [stack_join h, joinSlots_eq_zipWith h]
  simp [h]

theorem valueAt?_join (h : s.frame.stack.length = t.frame.stack.length) (l : MemoryLocation) :
    valueAt? (s.join t) l = joinOption (valueAt? s l) (valueAt? t l) := by
  cases l with
  | var j => exact getElem?_joinSlots s.frame.locals t.frame.locals j
  | stack j =>
    change (s.join t).frame.stack[j]? = _
    rw [stack_join h]
    exact getElem?_joinSlots s.frame.stack t.frame.stack j
  | static f => exact Fields.get?_join s.statics t.statics f
  | heap f => rfl

/-- The join is the larger state if it is so in each of the three parts. -/
theorem le_iff_under [DecidableEq V] : Domain.le s t = true ↔ s.node = t.node ∧
    (∀ j : Nat, Under s.frame.locals[j]? t.frame.locals[j]?) ∧
    (∀ j : Nat, Under s.frame.stack.reverse[j]? t.frame.stack.reverse[j]?) ∧
    ∀ f, Under (s.statics.get? f) (t.statics.get? f) := by
  -- the order aligns stack slots at the bottom
  have hstack : (s.join t).frame.stack = t.frame.stack ↔
      (s.join t).frame.stack.reverse = t.frame.stack.reverse := List.reverse_inj.symm
  rw [le_iff, MachineState.ext_iff, Frame.ext_iff, hstack, ← joinSlots_eq_right_iff, ← joinSlots_eq_right_iff,
    ← Fields.join_eq_right_iff]
  simp [join, Frame.join, and_assoc]

variable [ValueLattice V]

theorem Below.refl (s : MachineState V) : s.Below s := ⟨rfl, rfl, fun _ => .refl _⟩

theorem Below.trans (h : s.Below t) (h' : t.Below u) : s.Below u :=
  ⟨h.node.trans h'.node, h.height.trans h'.height, fun l => (h.values l).trans (h'.values l)⟩

theorem Below.join (h : s.Below u) (h' : t.Below u) : (s.join t).Below u where
  node := h.node
  height := (height_join (h.height.trans h'.height.symm)).trans h.height
  values l := by
    rw [valueAt?_join (h.height.trans h'.height.symm)]
    exact (h.values l).join (h'.values l)

omit [ValueLattice V] in
theorem Below.relocate (h : s.Below t) (n : NodeId) : (relocate n s).Below (relocate n t) :=
  ⟨rfl, h.height, h.values⟩

omit [ValueLattice V] in
theorem below_of_le [DecidableEq V] (h : Domain.le s t = true)
    (hheight : s.frame.stack.length = t.frame.stack.length) : s.Below t := by
  obtain ⟨hnode, hjoin⟩ := le_iff.1 h
  refine ⟨hnode, hheight, fun l => ?_⟩
  unfold Under
  rw [← valueAt?_join hheight, hjoin]

omit [ValueLattice V] in
theorem Below.le [DecidableEq V] (h : s.Below t) : Domain.le s t = true := by
  apply le_iff.2
  refine ⟨h.node, MachineState.ext h.node (Frame.ext ?_ ?_) ?_⟩
  · exact joinSlots_eq_right_iff.2 fun j => h.values (.var j)
  · rw [stack_join h.height]
    exact joinSlots_eq_right_iff.2 fun j => h.values (.stack j)
  · exact Fields.join_eq_right_iff.2 fun f => h.values (.static f)

end Join

end MachineState

/-- More operands give more results. -/
structure Interpreter.Monotone {V : Type} [Domain V] (I : Interpreter V) : Prop where
  result (i : Instruction) {l r : List V} : List.Forall₂ (fun a b => Domain.le a b = true) l r →
    Domain.le (I.result i l) (I.result i r) = true
  invoke (m : Method) {l r : List V} : List.Forall₂ (fun a b => Domain.le a b = true) l r →
    Domain.le (I.invoke m l) (I.invoke m r) = true

/-! ### Frames -/

namespace Frame

variable {V : Type} [JoinDomain V] {f f' g : Frame V} {v w : V} {vs ws : List V}

/-- The second frame has a stack of the same height, and it holds more. -/
structure Below (f g : Frame V) : Prop where
  vars : ∀ j, Under (f.var? j) (g.var? j)
  slots : SlotsBelow f.stack g.stack

theorem Below.pushN (h : f.Below g) (hv : Domain.le v w = true) (count : Nat) :
    (f.pushN v count).Below (g.pushN w count) where
  vars := h.vars
  slots := List.rel_append (slotsBelow_replicate hv count) h.slots

theorem Below.popN {count : Nat} (h : f.Below g) (hf : f.popN count = .ok (vs, f')) :
    ∃ ws g', g.popN count = .ok (ws, g') ∧ SlotsBelow vs ws ∧ f'.Below g' := by
  obtain ⟨hlong, rfl, rfl⟩ := popN_eq_ok.1 hf
  refine ⟨_, _, popN_eq_ok.2 ⟨h.slots.length_eq ▸ hlong, rfl, rfl⟩, ?_, h.vars, ?_⟩
  · exact List.forall₂_take count h.slots
  · exact List.forall₂_drop count h.slots

theorem Below.combine {i : Instruction} {compute : List V → V}
    (hcompute : ∀ {l r}, SlotsBelow l r → Domain.le (compute l) (compute r) = true)
    (h : f.Below g) (hf : f.combine i compute = .ok f') :
    ∃ g', g.combine i compute = .ok g' ∧ f'.Below g' := by
  unfold Frame.combine at hf ⊢
  cases hpop : f.popN i.pops with
  | error e => simp [hpop] at hf
  | ok r =>
    obtain ⟨operands, g', hpop', hoperands, hrest⟩ := h.popN hpop
    simp only [hpop, Except.ok.injEq] at hf
    subst hf
    refine ⟨g'.pushN (compute operands) i.pushes, by simp [hpop'], ?_⟩
    exact hrest.pushN (hcompute hoperands) i.pushes

theorem Below.rearrange {move : List V → Option (List V)}
    (hmove : ∀ {l r l'}, SlotsBelow l r → move l = some l' → ∃ r', move r = some r' ∧ SlotsBelow l' r')
    (h : f.Below g) (hf : f.rearrange move = .ok f') :
    ∃ g', g.rearrange move = .ok g' ∧ f'.Below g' := by
  unfold Frame.rearrange at hf ⊢
  cases hstack : move f.stack with
  | none => simp [hstack] at hf
  | some stack =>
    obtain ⟨stack', hstack', hslots⟩ := hmove h.slots hstack
    simp only [hstack, Except.ok.injEq] at hf
    subst hf
    exact ⟨{ g with stack := stack' }, by simp [hstack'], h.vars, hslots⟩

theorem Below.pushVars [ValueLattice V] {index count : Nat} (h : f.Below g)
    (hf : f.pushVars .ideal index count = .ok f') : ∃ g', g.pushVars .ideal index count = .ok g' ∧ f'.Below g' := by
  induction count generalizing f g with
  | zero =>
    cases hf
    exact ⟨g, rfl, h⟩
  | succ count ih =>
    unfold Frame.pushVars at hf ⊢
    rw [Limits.add_ideal] at hf ⊢
    cases hv : f.var? (index + count) with
    | none => simp [hv] at hf
    | some v =>
      -- a variable that is set in the smaller frame is set in the larger one
      obtain ⟨w, hw, hle⟩ := (h.vars (index + count)).exists_of_eq_some hv
      simp only [hv] at hf
      simp only [hw]
      exact ih (h.pushN hle 1) hf

variable [Inhabited V] [PointedLattice V]

theorem Below.withVar (h : f.Below g) (hv : Domain.le v w = true) (index : Nat) :
    (f.withVar index v).Below (g.withVar index w) where
  vars j := by
    change Under (setSlot index v f.locals)[j]? (setSlot index w g.locals)[j]?
    rw [getElem?_setSlot, getElem?_setSlot]
    by_cases hfront : j < index
    · -- one frame may have been filled up here where the other has a value
      rw [if_pos hfront, if_pos hfront]
      exact under_some_some.2 (h.vars j).getD
    · rw [if_neg hfront, if_neg hfront]
      by_cases heq : j = index
      · rw [if_pos heq, if_pos heq]
        exact under_some_some.2 hv
      · rw [if_neg heq, if_neg heq]
        exact h.vars j
  slots := h.slots

theorem Below.withVars (h : f.Below g) (hvs : SlotsBelow vs ws) (index : Nat) :
    (f.withVars index vs).Below (g.withVars index ws) := by
  induction hvs generalizing f g index with
  | nil => exact h
  | cons hv _ ih => exact ih (h.withVar hv index) (index + 1)

end Frame

namespace MachineState

variable {V : Type} [Inhabited V] [JoinDomain V] [PointedLattice V] {I : Interpreter V}
  {s s' t t' x x' k k' : MachineState V} {c : Call}

/-! ### Instructions -/

omit [Inhabited V] [PointedLattice V] in
theorem Below.frame [ValueLattice V] (h : s.Below t) : s.frame.Below t.frame where
  vars j := h.values (.var j)
  slots := slotsBelow_iff.2 ⟨h.height, fun j => h.values (.stack j)⟩

omit [Inhabited V] [PointedLattice V] in
theorem below_of_frame [ValueLattice V] (hnode : s.node = t.node) (hframe : s.frame.Below t.frame)
    (hstatics : ∀ f, Under (s.statics.get? f) (t.statics.get? f)) : s.Below t where
  node := hnode
  height := hframe.slots.length_eq
  values l := by
    cases l with
    | var j => exact hframe.vars j
    | stack j => exact (slotsBelow_iff.1 hframe.slots).2 j
    | static f => exact hstatics f
    | heap f => rfl

theorem Below.operands (h : s.Below t) (places : List MemoryLocation) :
    List.Forall₂ (fun a b => Domain.le a b = true) (places.map (·.valueIn s default))
      (places.map (·.valueIn t default)) := by
  rw [List.forall₂_map_left_iff, List.forall₂_map_right_iff, List.forall₂_same]
  exact fun l _ => (h.values l).getD

omit [Inhabited V] [PointedLattice V] in
theorem Below.withFrame [ValueLattice V] {r r' : Except Fault (Frame V)} (h : s.Below s')
    (hr : ∀ {f}, r = .ok f → ∃ f', r' = .ok f' ∧ f.Below f') (ht : s.withFrame r = .ok t) :
    ∃ t', s'.withFrame r' = .ok t' ∧ t.Below t' := by
  obtain ⟨f, hf, rfl⟩ := withFrame_eq_ok.1 ht
  obtain ⟨f', hf', hframe⟩ := hr hf
  refine ⟨{ s' with frame := f' }, withFrame_eq_ok.2 ⟨f', hf', rfl⟩, ?_⟩
  exact below_of_frame h.node hframe fun field => h.values (.static field)

theorem Below.store {index pops pushes : Nat} (h : s.Below s')
    (ht : s.execute I ⟨.store index, pops, pushes⟩ = .ok t) :
    ∃ t', s'.execute I ⟨.store index, pops, pushes⟩ = .ok t' ∧ t.Below t' := by
  unfold MachineState.execute at ht ⊢
  cases hpop : s.frame.popN pops with
  | error e => simp [hpop] at ht
  | ok r =>
    obtain ⟨values, frame, hpop', hvalues, hrest⟩ := h.frame.popN hpop
    simp only [hpop, Frame.setVars_ideal] at ht
    simp only [hpop', Frame.setVars_ideal]
    exact h.withFrame (fun hf => ⟨_, rfl, Except.ok.inj hf ▸ hrest.withVars hvalues index⟩) ht

theorem Below.increment (hI : I.Monotone) {index pops pushes : Nat} (h : s.Below s')
    (ht : s.execute I ⟨.increment index, pops, pushes⟩ = .ok t) :
    ∃ t', s'.execute I ⟨.increment index, pops, pushes⟩ = .ok t' ∧ t.Below t' := by
  unfold MachineState.execute at ht ⊢
  cases hv : s.frame.var? index with
  | none => simp [hv] at ht
  | some v =>
    obtain ⟨w, hw, hle⟩ := (h.frame.vars index).exists_of_eq_some hv
    have hresult := hI.result ⟨.increment index, pops, pushes⟩ (.cons hle .nil)
    simp only [hv, Frame.setVar_ideal] at ht
    simp only [hw, Frame.setVar_ideal]
    exact h.withFrame (fun hf => ⟨_, rfl, Except.ok.inj hf ▸ h.frame.withVar hresult index⟩) ht

theorem Below.putStatic {field : String} {pops pushes : Nat} (h : s.Below s')
    (ht : s.execute I ⟨.putStatic field, pops, pushes⟩ = .ok t) :
    ∃ t', s'.execute I ⟨.putStatic field, pops, pushes⟩ = .ok t' ∧ t.Below t' := by
  have hstatics : ∀ f, Under (s.statics.get? f) (s'.statics.get? f) := fun f => h.values (.static f)
  unfold MachineState.execute at ht ⊢
  cases hpop : s.frame.popN pops with
  | error e => simp [hpop] at ht
  | ok r =>
    obtain ⟨values, frame⟩ := r
    obtain ⟨values', frame', hpop', hvalues, hrest⟩ := h.frame.popN hpop
    -- with no slots popped there is no value, and the fields stay as they are
    cases hvalues with
    | nil =>
      simp only [hpop, Except.ok.injEq] at ht
      subst ht
      exact ⟨{ s' with frame := frame' }, by simp only [hpop'], below_of_frame h.node hrest hstatics⟩
    | @cons v w _ _ hv _ =>
      simp only [hpop, Except.ok.injEq] at ht
      subst ht
      refine ⟨{ s' with frame := frame', statics := s'.statics.set field w }, by simp only [hpop'], ?_⟩
      refine below_of_frame h.node hrest fun f => ?_
      change Under ((s.statics.set field v).get? f) ((s'.statics.set field w).get? f)
      rw [Fields.get?_set, Fields.get?_set]
      split
      · exact under_some_some.2 hv
      · exact hstatics f

/-- An instruction that succeeds in the smaller state succeeds in the larger one, whatever its counts. -/
theorem Below.execute (hI : I.Monotone) {i : Instruction} (h : s.Below s') (ht : s.execute I i = .ok t) :
    ∃ t', s'.execute I i = .ok t' ∧ t.Below t' := by
  obtain ⟨operation, pops, pushes⟩ := i
  cases operation with
  | dup | dupX1 | dupX2 | dup2 | dup2X1 | dup2X2 | swap =>
    refine h.withFrame (h.frame.rearrange fun {l r l'} hlr hl => ?_) ht
    split at hl
    · -- the larger stack has a slot for each slot that is matched
      cases hl
      simp only [List.forall₂_cons_left_iff] at hlr
      aesop
    · cases hl
  | arrayLoad | arrayStore | simple | getField | putField | new | branch | switch =>
    exact h.withFrame (h.frame.combine (hI.result _)) ht
  | invoke dispatch target => exact h.withFrame (h.frame.combine (hI.invoke target)) ht
  | ret =>
    cases ht
    exact ⟨s', rfl, h⟩
  | load index => exact h.withFrame h.frame.pushVars ht
  | store index => exact h.store ht
  | increment index => exact h.increment hI ht
  | getStatic field =>
    cases ht
    refine ⟨_, rfl, ?_⟩
    have hvalue := (h.values (.static field)).getD
    exact below_of_frame h.node (h.frame.pushN hvalue pushes) fun f => h.values (.static f)
  | putStatic field => exact h.putStatic ht

omit [Inhabited V] [PointedLattice V] in
theorem Below.catchException [ValueLattice V] (h : s.Below t) :
    (s.catchException I).Below (t.catchException I) where
  node := h.node
  height := rfl
  values l := by
    cases l with
    | var j => exact h.values (.var j)
    | stack j => exact .refl _
    | static f => exact h.values (.static f)
    | heap f => exact .refl _

theorem Below.along (hI : I.Monotone) {e : Edge} (h : s.Below s') (ht : s.along I e = .ok [t])
    (ht' : s'.along I e = .ok [t']) : t.Below t' := by
  unfold MachineState.along at ht ht'
  cases hlabel : e.label with
  | instruction i =>
    simp only [hlabel] at ht ht'
    cases hexecute : s.execute I i with
    | error f => simp [hexecute] at ht
    | ok u =>
      obtain ⟨u', hexecute', hbelow⟩ := h.execute hI hexecute
      obtain rfl : u = t := by simpa [hexecute] using ht
      obtain rfl : u' = t' := by simpa [hexecute'] using ht'
      exact hbelow
  | handler =>
    obtain rfl : s.catchException I = t := by simpa [hlabel] using ht
    obtain rfl : s'.catchException I = t' := by simpa [hlabel] using ht'
    exact h.catchException
  | call c => simp [hlabel] at ht

/-! ### Calls -/

omit [JoinDomain V] [PointedLattice V] in
theorem exists_reduce_iff {n : NodeId} :
    (∃ k, s.reduce n c = .ok k) ↔ c.target.parameterSlots ≤ s.frame.stack.length := by
  simp [reduce_eq_ok]

omit [Inhabited V] [JoinDomain V] [PointedLattice V] in
theorem exists_expand_iff : (∃ t, s.expand x c = .ok t) ↔
    c.target.descriptor.resultSlots ≤ x.frame.stack.length ∧ c.target.parameterSlots ≤ s.frame.stack.length := by
  simp [expand_eq_ok]

omit [JoinDomain V] [PointedLattice V] in
theorem getElem?_arguments (m : Method) (stack : List V) (j : Nat) :
    (arguments m stack)[j]? = if j < m.parameterSlots then
      some (((m.argumentSlot? j).bind (stack[·]?)).getD default) else none := by
  unfold arguments
  rw [List.getElem?_map]
  by_cases hj : j < m.parameterSlots
  · simp [hj]
  · simp [hj]

/-- The entry state of a callee holds more if the caller's state does. -/
theorem Below.reduce (h : s.Below s') {n : NodeId} (hk : s.reduce n c = .ok k) (hk' : s'.reduce n c = .ok k') :
    k.Below k' := by
  obtain ⟨_, rfl⟩ := reduce_eq_ok.1 hk
  obtain ⟨_, rfl⟩ := reduce_eq_ok.1 hk'
  refine ⟨rfl, rfl, fun l => ?_⟩
  cases l with
  | var j =>
    change Under (arguments c.target s.frame.stack)[j]? (arguments c.target s'.frame.stack)[j]?
    rw [getElem?_arguments, getElem?_arguments]
    split
    · refine under_some.2 ⟨_, rfl, ?_⟩
      cases c.target.argumentSlot? j with
      | none => exact ValueLattice.le_refl _
      | some slot => exact (h.values (.stack slot)).getD
    · exact .refl _
  | stack j => exact .refl _
  | static f => exact h.values (.static f)
  | heap f => exact .refl _

omit [Inhabited V] [JoinDomain V] [PointedLattice V] in
/-- After a call the results are on top of what was beneath the arguments, the variables are the caller's
and the static fields are those of the exit. -/
theorem valueAt?_expand (h : s.expand x c = .ok t) (l : MemoryLocation) :
    valueAt? t l = match l with
      | .var j => valueAt? s (.var j)
      | .stack j => if j < c.target.descriptor.resultSlots then valueAt? x (.stack j)
        else valueAt? s (.stack (j - c.target.descriptor.resultSlots + c.target.parameterSlots))
      | .static f => valueAt? x (.static f)
      | .heap _ => none := by
  obtain ⟨hresult, _, rfl⟩ := expand_eq_ok.1 h
  cases l with
  | var j => rfl
  | stack j =>
    change (x.frame.stack.take _ ++ s.frame.stack.drop _)[j]? = _
    rw [List.getElem?_append, List.length_take, Nat.min_eq_left hresult]
    by_cases hj : j < c.target.descriptor.resultSlots
    · rw [if_pos hj, List.getElem?_take_of_lt hj]
      simp only [hj, if_true]
      rfl
    · rw [if_neg hj, List.getElem?_drop, Nat.add_comm]
      simp only [hj, if_false]
      rfl
  | static f => rfl
  | heap f => rfl

theorem Below.expand (h : s.Below s') (hx : x.Below x') (ht : s.expand x c = .ok t)
    (ht' : s'.expand x' c = .ok t') : t.Below t' := by
  refine ⟨?_, ?_, fun l => ?_⟩
  · obtain ⟨_, _, rfl⟩ := expand_eq_ok.1 ht
    obtain ⟨_, _, rfl⟩ := expand_eq_ok.1 ht'
    exact h.node
  · obtain ⟨_, _, rfl⟩ := expand_eq_ok.1 ht
    obtain ⟨_, _, rfl⟩ := expand_eq_ok.1 ht'
    simp [h.height, hx.height]
  · rw [valueAt?_expand ht, valueAt?_expand ht']
    cases l with
    | var j => exact h.values (.var j)
    | stack j =>
      simp only
      split
      · exact hx.values _
      · exact h.values _
    | static f => exact hx.values (.static f)
    | heap f => exact .refl _

/-- The transfer functions are monotone on states with stacks of one height: what succeeds in the smaller state
succeeds in the larger one, with a larger result and again a stack of the same height. -/
theorem transfers_monotone [DecidableEq V] (hI : I.Monotone) (hle : Domain.le s t = true)
    (hheight : s.frame.stack.length = t.frame.stack.length) :
    (∀ i s', s.execute I i = .ok s' → ∃ t', t.execute I i = .ok t' ∧ Domain.le s' t' = true ∧
      s'.frame.stack.length = t'.frame.stack.length) ∧
    (Domain.le (s.catchException I) (t.catchException I) = true ∧
      (s.catchException I).frame.stack.length = (t.catchException I).frame.stack.length) ∧
    (∀ n c k, s.reduce n c = .ok k → ∃ k', t.reduce n c = .ok k' ∧ Domain.le k k' = true ∧
      k.frame.stack.length = k'.frame.stack.length) ∧
    (∀ x y c s', Domain.le x y = true → x.frame.stack.length = y.frame.stack.length →
      s.expand x c = .ok s' → ∃ t', t.expand y c = .ok t' ∧ Domain.le s' t' = true ∧
        s'.frame.stack.length = t'.frame.stack.length) := by
  have hbelow := below_of_le hle hheight
  refine ⟨fun i s' hs' => ?_, ?_, fun n c k hk => ?_, fun x y c s' hxy hexits hs' => ?_⟩
  · obtain ⟨t', ht', hstep⟩ := hbelow.execute hI hs'
    exact ⟨t', ht', hstep.le, hstep.height⟩
  · have hcaught := hbelow.catchException (I := I)
    exact ⟨hcaught.le, hcaught.height⟩
  · have hlong := exists_reduce_iff.1 ⟨k, hk⟩
    rw [hheight] at hlong
    obtain ⟨k', hk'⟩ := exists_reduce_iff.2 hlong
    have hentry := hbelow.reduce hk hk'
    exact ⟨k', hk', hentry.le, hentry.height⟩
  · have hlong := exists_expand_iff.1 ⟨s', hs'⟩
    rw [hheight, hexits] at hlong
    obtain ⟨t', ht'⟩ := exists_expand_iff.2 hlong
    have hafter := hbelow.expand (below_of_le hxy hexits) hs' ht'
    exact ⟨t', ht', hafter.le, hafter.height⟩

end MachineState

/-! ### Labels -/

namespace Tagging

theorem mem_labelsFrom_of_slotsBelow {T : Tagging} {suffix x : String} {l r : List Labels} (h : SlotsBelow l r)
    {index : Nat} (hx : x ∈ T.labelsFrom suffix index l) : x ∈ T.labelsFrom suffix index r := by
  induction h generalizing index with
  | nil => exact hx
  | cons hvw _ ih =>
    have hsubset := Powerset.subset_iff.1 hvw
    rw [labelsFrom, List.mem_append] at hx ⊢
    apply hx.imp _ ih
    split
    · intro hmap
      obtain ⟨label, hlabel, rfl⟩ := List.mem_map.1 hmap
      exact List.mem_map.2 ⟨label, hsubset label hlabel, rfl⟩
    · exact hsubset x

theorem combine_monotone (T : Tagging) {l r : List Labels} (h : SlotsBelow l r) (suffix : String) :
    Domain.le (T.combine l suffix) (T.combine r suffix) = true := by
  cases h with
  | nil => exact ValueLattice.le_refl _
  | cons hvw hrest =>
    apply Powerset.subset_iff.2
    intro x hx
    refine Powerset.mem_foldl_insert.2 (.inl ?_)
    have hx' := (Powerset.mem_foldl_insert.1 hx).resolve_right (Powerset.not_mem_empty x)
    exact mem_labelsFrom_of_slotsBelow (.cons hvw hrest) hx'

/-- Larger operands give larger sets of labels, tagged or not. -/
theorem interpreter_monotone (T : Tagging) : T.interpreter.Monotone where
  result i _ _ h := T.combine_monotone h _
  invoke m l r h := by
    change Domain.le (if _ then _ else _) (if _ then _ else _) = true
    split
    · exact ValueLattice.le_refl _
    · exact T.combine_monotone h _

/-- New values and exceptions have labels of their own. -/
def named : Tagging := ⟨true, .singleton "new", .singleton "thrown"⟩

def shortState : MachineState Labels := ⟨4, ⟨[.singleton "a"], [.singleton "b", .empty]⟩, .empty⟩

/-- Holds more than the short state, also in a variable and a field that the short state lacks. -/
def longState : MachineState Labels :=
  ⟨4, ⟨[.ofList ["a", "c"], .singleton "d"], [.ofList ["b", "e"], .singleton "f"]⟩,
    .ofList [("A", .singleton "g")]⟩

/-- A store far beyond the variables of the shorter state, which has to be filled up. -/
theorem transfers_monotone_store :
    Domain.le shortState longState = true ∧
    shortState.execute named.interpreter ⟨.store 3, 2, 0⟩ =
      .ok ⟨4, ⟨[.singleton "a", .empty, .empty, .singleton "b", .empty], []⟩, .empty⟩ ∧
    ∃ t, longState.execute named.interpreter ⟨.store 3, 2, 0⟩ = .ok t ∧
      Domain.le (⟨4, ⟨[.singleton "a", .empty, .empty, .singleton "b", .empty], []⟩, .empty⟩ :
        MachineState Labels) t = true ∧ t.frame.stack.length = 0 := by
  have hle : Domain.le shortState longState = true := by decide +kernel
  obtain ⟨t, ht, hresult, hheight⟩ :=
    (MachineState.transfers_monotone named.interpreter_monotone hle rfl).1 ⟨.store 3, 2, 0⟩ _ rfl
  exact ⟨hle, rfl, t, ht, hresult, hheight.symm⟩

end Tagging

end BytecodeFlow
