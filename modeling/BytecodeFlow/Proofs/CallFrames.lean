import Mathlib.Algebra.GroupWithZero.Nat
import Mathlib.Data.List.TFAE
import BytecodeFlow.Proofs.Monotone

/-! # Frames around a call

Just before a call the arguments lie on the caller's stack with the last one on top; on entry they lie in the
callee's variables with the first one first. In both places the slots of one argument keep their order. So the
callee could as well start with the caller's stack and store its parameters, the last one first: it would hold
the same variables, and what it leaves on the stack is what the caller keeps.

After the call the caller's frame has the same shape whether the call was followed into its target or replaced
by a value, since both take the same slots from the stack and put the same number back.
-/
namespace BytecodeFlow

/-! ### Ranges of slots -/

/-- Consecutive ranges of these sizes, as first position and size. -/
def consecutive (start : Nat) : List Nat → List (Nat × Nat)
  | [] => []
  | n :: ns => (start, n) :: consecutive (start + n) ns

/-- The distance from the top at which a position lies when the ranges are piled up one after the other. -/
def piledSlot? : List Nat → Nat → Option Nat
  | [], _ => none
  | n :: ns, i => if i < n then some (ns.sum + i) else piledSlot? ns (i - n)

/-- The ranges of a pile, each from its uppermost slot on, the lowest range first. -/
def unpiled {V : Type} (l : List V) : List Nat → List V
  | [] => []
  | n :: ns => (l.drop ns.sum).take n ++ unpiled l ns

theorem piledSlot?_eq_none_iff {ns : List Nat} {i : Nat} : piledSlot? ns i = none ↔ ns.sum ≤ i := by
  induction ns generalizing i with
  | nil => simp [piledSlot?]
  | cons n ns ih =>
    simp only [piledSlot?, List.sum_cons]
    by_cases hi : i < n
    · simp [hi]
      omega
    · rw [if_neg hi, ih]
      omega

theorem piledSlot?_lt {ns : List Nat} {i j : Nat} (h : piledSlot? ns i = some j) : j < ns.sum := by
  induction ns generalizing i with
  | nil => simp [piledSlot?] at h
  | cons n ns ih =>
    simp only [piledSlot?] at h
    rw [List.sum_cons]
    split at h
    · simp only [Option.some.injEq] at h
      omega
    · have := ih h
      omega

theorem piledSlot?_injective {ns : List Nat} {i i' j : Nat} (h : piledSlot? ns i = some j)
    (h' : piledSlot? ns i' = some j) : i = i' := by
  induction ns generalizing i i' with
  | nil => simp [piledSlot?] at h
  | cons n ns ih =>
    simp only [piledSlot?] at h h'
    -- the slots of the first range lie beneath those of all others
    split at h <;> split at h'
    · simp only [Option.some.injEq] at h h'
      omega
    · have := piledSlot?_lt h'
      simp only [Option.some.injEq] at h
      omega
    · have := piledSlot?_lt h
      simp only [Option.some.injEq] at h'
      omega
    · have := ih h h'
      omega

theorem piledSlot?_surjective {ns : List Nat} {j : Nat} (h : j < ns.sum) : ∃ i, piledSlot? ns i = some j := by
  induction ns with
  | nil => simp at h
  | cons n ns ih =>
    rw [List.sum_cons] at h
    by_cases hj : j < ns.sum
    · obtain ⟨i, hi⟩ := ih hj
      refine ⟨n + i, ?_⟩
      rw [piledSlot?, if_neg (by omega), Nat.add_sub_cancel_left]
      exact hi
    · refine ⟨j - ns.sum, ?_⟩
      rw [piledSlot?, if_pos (by omega)]
      congr 1
      omega

theorem snd_mem_of_mem_consecutive {start : Nat} {ns : List Nat} {r : Nat × Nat} (h : r ∈ consecutive start ns) :
    r.2 ∈ ns := by
  induction ns generalizing start with
  | nil => simp [consecutive] at h
  | cons n ns ih =>
    rw [consecutive, List.mem_cons] at h
    rcases h with rfl | h
    · exact List.mem_cons_self
    · exact List.mem_cons_of_mem n (ih h)

/-- Looking for the range of a position gives its slot in the pile. -/
theorem find?_consecutive (start : Nat) (ns : List Nat) (i : Nat) :
    ((consecutive start ns).find? fun r => r.1 ≤ i && i < r.1 + r.2).map
      (fun r => start + ns.sum - r.1 - r.2 + (i - r.1)) =
      if start ≤ i then piledSlot? ns (i - start) else none := by
  induction ns generalizing start with
  | nil => simp [consecutive, piledSlot?]
  | cons n ns ih =>
    have hrest := ih (start + n)
    rw [Nat.add_assoc] at hrest
    rw [consecutive, List.find?_cons, List.sum_cons]
    by_cases hstart : start ≤ i
    · by_cases hend : i < start + n
      · have hfirst : i - start < n := by omega
        simp only [hstart, hend, piledSlot?, hfirst, decide_true, Bool.and_self, Option.map_some, if_true,
          Option.some.injEq]
        omega
      · have hlater : ¬ i - start < n := by omega
        have hbeyond : start + n ≤ i := by omega
        simp only [hstart, hend, decide_true, decide_false, Bool.and_false, if_true, piledSlot?, hlater, if_false]
        rw [hrest, if_pos hbeyond, Nat.sub_add_eq]
    · have hbefore : ¬ start + n ≤ i := by omega
      simp only [hstart, decide_false, Bool.false_and, if_false]
      rw [hrest, if_neg hbefore]

theorem getElem?_unpiled {V : Type} {l : List V} {ns : List Nat} (h : ns.sum ≤ l.length) (i : Nat) :
    (unpiled l ns)[i]? = (piledSlot? ns i).bind (l[·]?) := by
  induction ns generalizing i with
  | nil => simp [unpiled, piledSlot?]
  | cons n ns ih =>
    rw [List.sum_cons] at h
    have hlength : ((l.drop ns.sum).take n).length = n :=
      List.length_take_of_le (by rw [List.length_drop]; omega)
    rw [unpiled, piledSlot?, List.getElem?_append, hlength]
    by_cases hi : i < n
    · rw [if_pos hi, if_pos hi, List.getElem?_take_of_lt hi, List.getElem?_drop]
      rfl
    · rw [if_neg hi, if_neg hi]
      exact ih (by omega) (i - n)

/-! ### The parameters of a method -/

theorem FieldType.slots_eq_one_or_two (t : FieldType) : t.slots = 1 ∨ t.slots = 2 := by
  cases t with
  | base type => cases type <;> simp [slots, BaseType.slots]
  | object name => exact .inl rfl
  | array element => exact .inl rfl

theorem FieldType.totalSlots_eq (types : List FieldType) : totalSlots types = (types.map slots).sum := by
  induction types with
  | nil => rfl
  | cons t types ih => simp [totalSlots, ih]

namespace Method

def sizes (m : Method) : List Nat :=
  (if m.isStatic then [] else [1]) ++ m.descriptor.parameters.map FieldType.slots

theorem eq_one_or_two_of_mem_sizes {m : Method} {n : Nat} (h : n ∈ m.sizes) : n = 1 ∨ n = 2 := by
  rw [sizes, List.mem_append] at h
  rcases h with h | h
  · split at h
    · simp at h
    · exact .inl (List.mem_singleton.1 h)
  · obtain ⟨t, _, rfl⟩ := List.mem_map.1 h
    exact t.slots_eq_one_or_two

theorem layoutFrom_eq (start : Nat) (types : List FieldType) :
    layoutFrom start types = consecutive start (types.map FieldType.slots) := by
  induction types generalizing start with
  | nil => rfl
  | cons t types ih => simp [layoutFrom, consecutive, ih]

theorem layout_eq (m : Method) : m.layout = consecutive 0 m.sizes := by
  unfold layout sizes
  split <;> simp [layoutFrom_eq, consecutive]

theorem parameterSlots_eq (m : Method) : m.parameterSlots = m.sizes.sum := by
  unfold parameterSlots receiverSlots sizes Descriptor.argumentSlots
  rw [FieldType.totalSlots_eq]
  split
  · simp
  · simp [Nat.add_comm]

theorem argumentSlot?_eq (m : Method) (i : Nat) : m.argumentSlot? i = piledSlot? m.sizes i := by
  have hfind := find?_consecutive 0 m.sizes i
  rw [Nat.zero_add, if_pos (Nat.zero_le i), Nat.sub_zero] at hfind
  unfold argumentSlot?
  rw [layout_eq, parameterSlots_eq]
  exact hfind

end Method

/-! ### Storing the parameters -/

/-- A store of a value of one or two slots pops as many. -/
theorem Instruction.pops_store {index n : Nat} (hn : n = 1 ∨ n = 2) : (store index (n == 2)).pops = n := by
  rcases hn with rfl | rfl <;> rfl

/-- Stores the values of ranges of variables, the last range first. -/
def storesOf (ranges : List (Nat × Nat)) : List Instruction :=
  ranges.reverse.map fun r => .store r.1 (r.2 == 2)

theorem storesOf_cons (r : Nat × Nat) (ranges : List (Nat × Nat)) :
    storesOf (r :: ranges) = storesOf ranges ++ [.store r.1 (r.2 == 2)] := by
  simp [storesOf]

section Stores

variable {V : Type} [Inhabited V]

/-- Variables that begin with the default and go on with the ranges of a pile, unless there are none. -/
def received (start : Nat) (l : List V) (ns : List Nat) : List V :=
  if ns = [] then [] else List.replicate start default ++ unpiled l ns

theorem received_zero (l : List V) (ns : List Nat) : received 0 l ns = unpiled l ns := by
  cases ns with
  | nil => rfl
  | cons n ns => rw [received, if_neg (List.cons_ne_nil n ns), List.replicate_zero, List.nil_append]

theorem getD_received {start j : Nat} (hj : j < start) (l : List V) (ns : List Nat) :
    (received start l ns)[j]?.getD default = default := by
  unfold received
  split
  · rfl
  · rw [List.getElem?_append_left (by simpa using hj), List.getElem?_replicate, if_pos hj]
    rfl

theorem getElem?_received {start j : Nat} (hj : start ≤ j) (l : List V) (ns : List Nat) :
    (received start l ns)[j]? = (unpiled l ns)[j - start]? := by
  unfold received
  split
  · rename_i hns
    rw [hns]
    rfl
  · rw [List.getElem?_append_right (by simpa using hj), List.length_replicate]

/-- One more range is set in front of those that have been received. -/
theorem withVars_received {start n : Nat} {l stack : List V} {ns : List Nat} (hn : 0 < n)
    (hlong : n + ns.sum ≤ l.length) :
    (Frame.mk (received (start + n) l ns) stack).withVars start ((l.drop ns.sum).take n) =
      ⟨received start l (n :: ns), stack⟩ := by
  have hlength : ((l.drop ns.sum).take n).length = n :=
    List.length_take_of_le (by rw [List.length_drop]; omega)
  have hne : (l.drop ns.sum).take n ≠ [] := List.ne_nil_of_length_pos (by omega)
  refine Frame.ext (List.ext_getElem? fun j => ?_) (Frame.stack_withVars _ _ _)
  rw [Frame.locals_withVars _ start hne, hlength]
  by_cases hbefore : j < start
  · -- a variable before the range holds the default, set or not
    rw [if_pos hbefore, getD_received (by omega), received, if_neg (List.cons_ne_nil n ns),
      List.getElem?_append_left (by simpa using hbefore), List.getElem?_replicate, if_pos hbefore]
  · rw [if_neg hbefore, getElem?_received (Nat.not_lt.1 hbefore), unpiled]
    by_cases hrange : j < start + n
    · rw [if_pos hrange, List.getElem?_append_left (by omega)]
    · rw [if_neg hrange, getElem?_received (Nat.not_lt.1 hrange), List.getElem?_append_right (by omega), hlength,
        Nat.sub_sub]

variable {I : Interpreter V} {s : MachineState V}

theorem MachineState.execute_store {index n : Nat} (hn : n = 1 ∨ n = 2) (hlong : n ≤ s.frame.stack.length) :
    s.execute I (.store index (n == 2)) = .ok { s with
      frame := (Frame.mk s.frame.locals (s.frame.stack.drop n)).withVars index (s.frame.stack.take n) } := by
  have hpop : s.frame.popN (Instruction.store index (n == 2)).pops =
      .ok (s.frame.stack.take n, ⟨s.frame.locals, s.frame.stack.drop n⟩) := by
    rw [Instruction.pops_store hn]
    exact Frame.popN_eq_ok.2 ⟨hlong, rfl, rfl⟩
  unfold execute
  simp only [Instruction.store] at hpop ⊢
  simp only [hpop, Frame.setVars_ideal]
  rfl

/-- Storing ranges one after the other, the last one first, unpiles them. -/
theorem foldlM_storesOf (start : Nat) {ns : List Nat} (hns : ∀ n ∈ ns, n = 1 ∨ n = 2)
    (hlocals : s.frame.locals = []) (hlong : ns.sum ≤ s.frame.stack.length) :
    (storesOf (consecutive start ns)).foldlM (fun t i => t.execute I i) s =
      .ok { s with frame := ⟨received start s.frame.stack ns, s.frame.stack.drop ns.sum⟩ } := by
  induction ns generalizing start with
  | nil =>
    obtain ⟨node, ⟨locals, stack⟩, statics⟩ := s
    obtain rfl : locals = [] := hlocals
    rfl
  | cons n ns ih =>
    rw [List.sum_cons] at hlong
    have hn : n = 1 ∨ n = 2 := hns n List.mem_cons_self
    -- the later ranges are stored first and uncover this one
    have hlater := ih (start + n) (fun k hk => hns k (List.mem_cons_of_mem n hk)) (by omega)
    rw [consecutive, storesOf_cons, List.foldlM_append, hlater]
    simp only [List.foldlM_cons, List.foldlM_nil, bind_pure]
    change MachineState.execute I (.store start (n == 2)) _ = _
    rw [MachineState.execute_store hn (by simp only [List.length_drop]; omega), withVars_received (by omega) hlong,
      List.drop_drop, List.sum_cons, Nat.add_comm n]

end Stores

namespace Method

def stores (m : Method) : List Instruction :=
  storesOf m.layout

theorem pops_store_of_mem_layout {m : Method} {r : Nat × Nat} (h : r ∈ m.layout) :
    (Instruction.store r.1 (r.2 == 2)).pops = r.2 := by
  rw [layout_eq] at h
  exact Instruction.pops_store (eq_one_or_two_of_mem_sizes (snd_mem_of_mem_consecutive h))

theorem argumentSlot?_eq_none_iff {m : Method} {i : Nat} : m.argumentSlot? i = none ↔ m.parameterSlots ≤ i := by
  rw [argumentSlot?_eq, parameterSlots_eq, piledSlot?_eq_none_iff]

theorem argumentSlot?_lt {m : Method} {i j : Nat} (h : m.argumentSlot? i = some j) : j < m.parameterSlots := by
  rw [argumentSlot?_eq] at h
  rw [parameterSlots_eq]
  exact piledSlot?_lt h

theorem existsUnique_argumentSlot? {m : Method} {j : Nat} (h : j < m.parameterSlots) :
    ∃! i, m.argumentSlot? i = some j := by
  simp only [argumentSlot?_eq]
  rw [parameterSlots_eq] at h
  obtain ⟨i, hi⟩ := piledSlot?_surjective h
  exact ⟨i, hi, fun i' hi' => piledSlot?_injective hi' hi⟩

end Method

namespace MachineState

variable {V : Type} [Inhabited V]

omit [Inhabited V] in
/-- With all arguments on the stack, the default never stands in for one. -/
theorem isSome_argument {m : Method} {f : Frame V} (h : m.parameterSlots ≤ f.stack.length) {i : Nat}
    (hi : i < m.parameterSlots) : ((m.argumentSlot? i).bind f.peek?).isSome = true := by
  cases hslot : m.argumentSlot? i with
  | none =>
    rw [Method.argumentSlot?_eq_none_iff] at hslot
    omega
  | some j =>
    have hj := Method.argumentSlot?_lt hslot
    rw [Option.bind_some, Frame.peek?, isSome_getElem?]
    omega

theorem getElem?_arguments_of_le {m : Method} {f : Frame V} (h : m.parameterSlots ≤ f.stack.length) (i : Nat) :
    (arguments m f.stack)[i]? = (m.argumentSlot? i).bind f.peek? := by
  rw [getElem?_arguments]
  split
  · rename_i hi
    obtain ⟨v, hv⟩ := Option.isSome_iff_exists.1 (isSome_argument h hi)
    change some (((m.argumentSlot? i).bind f.peek?).getD default) = (m.argumentSlot? i).bind f.peek?
    rw [hv]
    rfl
  · rename_i hi
    rw [Method.argumentSlot?_eq_none_iff.2 (Nat.not_lt.1 hi)]
    rfl

theorem arguments_eq_unpiled {m : Method} {f : Frame V} (h : m.parameterSlots ≤ f.stack.length) :
    arguments m f.stack = unpiled f.stack m.sizes := by
  apply List.ext_getElem?
  intro i
  rw [getElem?_arguments_of_le h, getElem?_unpiled (by rwa [← m.parameterSlots_eq]), m.argumentSlot?_eq]
  rfl

theorem foldlM_stores (I : Interpreter V) {m : Method} {s : MachineState V} (hlocals : s.frame.locals = [])
    (hlong : m.parameterSlots ≤ s.frame.stack.length) :
    m.stores.foldlM (fun t i => t.execute I i) s =
      .ok { s with frame := ⟨arguments m s.frame.stack, s.frame.stack.drop m.parameterSlots⟩ } := by
  rw [arguments_eq_unpiled hlong, ← received_zero, Method.stores, m.layout_eq, m.parameterSlots_eq]
  rw [m.parameterSlots_eq] at hlong
  exact foldlM_storesOf 0 (fun n => Method.eq_one_or_two_of_mem_sizes) hlocals hlong

/-- Passing parameters is storing them: the variables of a callee are what the stores of its parameters make of
the caller's stack, and these leave what the caller keeps. Each parameter slot takes its value from a stack slot
of its own, and there is always one. -/
theorem parameters_passed_by_stores (I : Interpreter V) (c : Call) (n : NodeId) (s : MachineState V) :
    (∀ i, c.target.argumentSlot? i = none ↔ c.target.parameterSlots ≤ i) ∧
    (∀ i j, c.target.argumentSlot? i = some j → j < c.target.parameterSlots) ∧
    (∀ j < c.target.parameterSlots, ∃! i, c.target.argumentSlot? i = some j) ∧
    (∀ r ∈ c.target.layout, (Instruction.store r.1 (r.2 == 2)).pops = r.2) ∧
    ((∃ e, s.reduce n c = .error e) ↔ s.frame.stack.length < c.target.parameterSlots) ∧
    (c.target.parameterSlots ≤ s.frame.stack.length →
      ∃ k t, s.reduce n c = .ok k ∧
        c.target.stores.foldlM (fun t i => t.execute I i) { s with frame := ⟨[], s.frame.stack⟩ } = .ok t ∧
        k.frame.locals = t.frame.locals ∧
        (∀ i, k.frame.var? i = (c.target.argumentSlot? i).bind s.frame.peek?) ∧
        (∀ i < c.target.parameterSlots, ((c.target.argumentSlot? i).bind s.frame.peek?).isSome = true) ∧
        t.frame.stack = s.frame.stack.drop c.target.parameterSlots ∧
        ∀ x, c.target.descriptor.resultSlots ≤ x.frame.stack.length →
          ∃ u, s.expand x c = .ok u ∧
            u.frame.stack = x.frame.stack.take c.target.descriptor.resultSlots ++ t.frame.stack) := by
  refine ⟨fun i => Method.argumentSlot?_eq_none_iff, fun i j => Method.argumentSlot?_lt,
    fun j => Method.existsUnique_argumentSlot?, fun r => Method.pops_store_of_mem_layout, ?_, fun hlong => ?_⟩
  · have hok := exists_reduce_iff (s := s) (c := c) (n := n)
    rw [← Nat.not_le, ← hok]
    cases s.reduce n c <;> simp
  · refine ⟨_, _, reduce_eq_ok.2 ⟨hlong, rfl⟩, foldlM_stores I rfl hlong, rfl, getElem?_arguments_of_le hlong,
      fun i => isSome_argument hlong, rfl, fun x hexit => ?_⟩
    exact ⟨_, expand_eq_ok.2 ⟨hexit, hlong, rfl⟩, rfl⟩

def tallying : Interpreter Nat where
  result _ operands := operands.length
  invoke _ arguments := arguments.length
  caught := 0

/-- A call with a receiver, a parameter of two slots and one of a single slot. -/
def scaleCall : Call :=
  ⟨⟨"Main", "main", ⟨[], none⟩, true⟩, 3,
    ⟨"Vector", "scale", ⟨[.base .long, .base .int], some (.base .long)⟩, false⟩, .virtual⟩

def beforeScale : MachineState Nat := ⟨5, ⟨[9], [40, 31, 32, 20, 11, 12]⟩, .ofList [("A", 7)]⟩

/-- The two slots of a wide argument are not swapped, neither by the call nor by the store. -/
theorem parameters_passed_by_stores_wide :
    scaleCall.target.parameterSlots ≤ beforeScale.frame.stack.length ∧
    scaleCall.target.stores = [.store 3 false, .store 1 true, .store 0 false] ∧
    ∃ k t, beforeScale.reduce 8 scaleCall = .ok k ∧
      scaleCall.target.stores.foldlM (fun t i => t.execute tallying i)
        { beforeScale with frame := ⟨[], beforeScale.frame.stack⟩ } = .ok t ∧
      k.frame.locals = t.frame.locals ∧ t.frame.locals = [20, 31, 32, 40] ∧ t.frame.stack = [11, 12] := by
  obtain ⟨_, _, _, _, _, hpass⟩ := parameters_passed_by_stores tallying scaleCall 8 beforeScale
  obtain ⟨k, t, hk, ht, hlocals, _, _, hstack, _⟩ := hpass (by decide)
  refine ⟨by decide, rfl, k, t, hk, ht, hlocals, ?_, hstack⟩
  cases ht
  rfl

end MachineState

/-! ### Calls followed and calls replaced -/

theorem Instruction.pops_invoke {dispatch : Dispatch} {m : Method} (h : dispatch.hasReceiver = !m.isStatic) :
    (invoke dispatch m).pops = m.parameterSlots := by
  simp only [invoke, Method.parameterSlots, Method.receiverSlots, h]
  cases m.isStatic <;> rfl

/-- Beneath what has been put in their place, the slots that are left of a stack keep their order. -/
theorem Frame.peek?_of_replaced {V : Type} {f g : Frame V} {top : List V} {p : Nat}
    (h : f.stack = top ++ g.stack.drop p) {j : Nat} (hj : top.length ≤ j) :
    f.peek? j = g.peek? (j + p - top.length) := by
  rw [peek?, h, List.getElem?_append_right hj, List.getElem?_drop, peek?]
  congr 1
  omega

namespace MachineState

variable {V : Type} [Inhabited V]

theorem execute_invoke_eq_ok {I : Interpreter V} {dispatch : Dispatch} {m : Method} {s t : MachineState V}
    (hkind : dispatch.hasReceiver = !m.isStatic) :
    s.execute I (.invoke dispatch m) = .ok t ↔ m.parameterSlots ≤ s.frame.stack.length ∧
      t = { s with frame := ⟨s.frame.locals, List.replicate m.descriptor.resultSlots
        (I.invoke m (s.frame.stack.take m.parameterSlots)) ++ s.frame.stack.drop m.parameterSlots⟩ } := by
  change s.withFrame (s.frame.combine (.invoke dispatch m) (I.invoke m)) = .ok t ↔ _
  rw [withFrame_eq_ok]
  simp only [Frame.combine_eq_ok, Instruction.pops_invoke hkind]
  constructor
  · rintro ⟨f, ⟨hlong, rfl⟩, rfl⟩
    exact ⟨hlong, rfl⟩
  · rintro ⟨hlong, rfl⟩
    exact ⟨_, ⟨hlong, rfl⟩, rfl⟩

/-- A call that passes a receiver exactly if its target takes one leaves a frame of the same shape whether it is
followed into the target or not. -/
theorem call_frames_agree (I : Interpreter V) {c : Call} (hkind : c.dispatch.hasReceiver = !c.target.isStatic)
    (n : NodeId) (s : MachineState V) {x : MachineState V}
    (hexit : c.target.descriptor.resultSlots ≤ x.frame.stack.length) :
    [∃ t, s.execute I (.invoke c.dispatch c.target) = .ok t, ∃ k, s.reduce n c = .ok k, ∃ u, s.expand x c = .ok u,
      c.target.parameterSlots ≤ s.frame.stack.length].TFAE ∧
    ∀ t u, s.execute I (.invoke c.dispatch c.target) = .ok t → s.expand x c = .ok u →
      t.node = u.node ∧ t.frame.locals = u.frame.locals ∧ t.frame.stack.length = u.frame.stack.length ∧
      (∀ j, c.target.descriptor.resultSlots ≤ j →
        t.frame.peek? j = s.frame.peek? (j + c.target.parameterSlots - c.target.descriptor.resultSlots) ∧
        u.frame.peek? j = s.frame.peek? (j + c.target.parameterSlots - c.target.descriptor.resultSlots)) ∧
      (∀ j < c.target.descriptor.resultSlots, u.frame.peek? j = x.frame.peek? j) ∧
      t.statics = s.statics ∧ u.statics = x.statics := by
  constructor
  · apply List.tfae_of_forall (c.target.parameterSlots ≤ s.frame.stack.length)
    simp [execute_invoke_eq_ok hkind, exists_reduce_iff, exists_expand_iff, hexit]
  · intro t u ht hu
    obtain ⟨_, rfl⟩ := (execute_invoke_eq_ok hkind).1 ht
    obtain ⟨_, _, rfl⟩ := expand_eq_ok.1 hu
    have htop := List.length_take_of_le hexit
    refine ⟨rfl, rfl, ?_, fun j hj => ⟨?_, ?_⟩, fun j hj => ?_, rfl, rfl⟩
    · simp only [List.length_append, List.length_replicate, htop]
    · rw [Frame.peek?_of_replaced rfl (by simpa using hj), List.length_replicate]
    · rw [Frame.peek?_of_replaced rfl (by rwa [htop]), htop]
    · rw [Frame.peek?, List.getElem?_append_left (by rwa [htop]), List.getElem?_take_of_lt hj, Frame.peek?]

def afterScale : MachineState Nat := ⟨8, ⟨[20, 31, 32, 40], [51, 52, 60]⟩, .ofList [("A", 8)]⟩

/-- The number of arguments and the result of the run lie on the same slots of the caller. -/
theorem call_frames_agree_virtual :
    scaleCall.dispatch.hasReceiver = !scaleCall.target.isStatic ∧
    scaleCall.target.descriptor.resultSlots ≤ afterScale.frame.stack.length ∧
    ∃ t u, beforeScale.execute tallying (.invoke scaleCall.dispatch scaleCall.target) = .ok t ∧
      beforeScale.expand afterScale scaleCall = .ok u ∧ t.node = u.node ∧ t.frame.locals = u.frame.locals ∧
      t.frame.stack = [4, 4, 11, 12] ∧ u.frame.stack = [51, 52, 11, 12] ∧
      t.frame.peek? 2 = beforeScale.frame.peek? 4 ∧ u.frame.peek? 2 = beforeScale.frame.peek? 4 := by
  have hkind : scaleCall.dispatch.hasReceiver = !scaleCall.target.isStatic := rfl
  have hexit : scaleCall.target.descriptor.resultSlots ≤ afterScale.frame.stack.length := by decide
  obtain ⟨hok, hshape⟩ := call_frames_agree tallying hkind 8 beforeScale hexit
  obtain ⟨t, ht⟩ := (hok.out 0 3).2 (by decide)
  obtain ⟨u, hu⟩ := (hok.out 2 3).2 (by decide)
  obtain ⟨hnode, hlocals, _, hbelow, _⟩ := hshape t u ht hu
  obtain ⟨hleft, hright⟩ := hbelow 2 (by decide)
  refine ⟨hkind, hexit, t, u, ht, hu, hnode, hlocals, ?_, ?_, hleft, hright⟩
  · cases ht
    rfl
  · cases hu
    rfl

end MachineState

end BytecodeFlow
