import BytecodeFlow.Domain.Powerset
import BytecodeFlow.Machine.State
import BytecodeFlow.Proofs.Coverage

/-! # The order of machine states

Machine states are joined place by place, and a place that only one side has keeps its value. Joining is
therefore described by what it does to the optional value at each place, and machine states inherit the
laws of the values. Both maps of static fields and sets of labels are ascending lists, so that they are
equal as soon as they have the same members.
-/
namespace BytecodeFlow

/-- Values that form a join semilattice with the order of the domain. -/
class ValueLattice (V : Type) [JoinDomain V] : Prop where
  join_assoc (a b c : V) : JoinDomain.join (JoinDomain.join a b) c = JoinDomain.join a (JoinDomain.join b c)
  join_comm (a b : V) : JoinDomain.join a b = JoinDomain.join b a
  join_self (a : V) : JoinDomain.join a a = a
  le_iff (a b : V) : Domain.le a b = true ↔ JoinDomain.join a b = b

namespace ValueLattice

variable {V : Type} [JoinDomain V] [ValueLattice V]

theorem le_refl (a : V) : Domain.le a a = true := (le_iff a a).2 (join_self a)

end ValueLattice

/-! ### Optional values -/

def joinOption {V : Type} [JoinDomain V] : Option V → Option V → Option V
  | none, b => b
  | a, none => a
  | some a, some b => some (JoinDomain.join a b)

section JoinOption

variable {V : Type} [JoinDomain V]

@[simp] theorem joinOption_none_left (b : Option V) : joinOption none b = b := rfl

@[simp] theorem joinOption_none_right (a : Option V) : joinOption a none = a := by
  cases a <;> rfl

@[simp] theorem joinOption_some (a b : V) :
    joinOption (some a) (some b) = some (JoinDomain.join a b) := rfl

variable [ValueLattice V]

theorem joinOption_assoc (a b c : Option V) :
    joinOption (joinOption a b) c = joinOption a (joinOption b c) := by
  cases a <;> cases b <;> cases c <;> simp [ValueLattice.join_assoc]

theorem joinOption_comm (a b : Option V) : joinOption a b = joinOption b a := by
  cases a <;> cases b <;> simp [ValueLattice.join_comm]

theorem joinOption_self (a : Option V) : joinOption a a = a := by
  cases a <;> simp [ValueLattice.join_self]

end JoinOption

/-! ### Slots -/

section Slots

variable {V : Type} [JoinDomain V]

@[simp] theorem joinSlots_nil_left (r : List V) : joinSlots [] r = r := by
  cases r <;> rfl

@[simp] theorem joinSlots_nil_right (l : List V) : joinSlots l [] = l := by
  cases l <;> rfl

theorem getElem?_joinSlots (l r : List V) (i : Nat) :
    (joinSlots l r)[i]? = joinOption l[i]? r[i]? := by
  induction l generalizing r i with
  | nil => simp
  | cons a l ih =>
    cases r with
    | nil => simp
    | cons b r =>
      cases i with
      | zero => rfl
      | succ i => simpa [joinSlots] using ih r i

variable [ValueLattice V]

theorem joinSlots_assoc (l r k : List V) :
    joinSlots (joinSlots l r) k = joinSlots l (joinSlots r k) := by
  apply List.ext_getElem?
  intro i
  simp only [getElem?_joinSlots, joinOption_assoc]

theorem joinSlots_comm (l r : List V) : joinSlots l r = joinSlots r l := by
  apply List.ext_getElem?
  intro i
  simp only [getElem?_joinSlots]
  exact joinOption_comm _ _

theorem joinSlots_self (l : List V) : joinSlots l l = l := by
  apply List.ext_getElem?
  intro i
  rw [getElem?_joinSlots, joinOption_self]

end Slots

/-! ### Ascending lists -/

theorem ne_of_compare {κ : Type} [Ord κ] [Std.TransOrd κ] {a b : κ} (h : compare a b ≠ .eq) : a ≠ b := by
  rintro rfl
  exact h Std.ReflCmp.compare_self

/-- Lists with strictly ascending keys are equal if they have the same members. -/
theorem eq_of_ascending {α κ : Type} [Ord κ] [Std.TransOrd κ] (key : α → κ) {l r : List α}
    (hl : l.Pairwise (fun a b => compare (key a) (key b) = .lt))
    (hr : r.Pairwise (fun a b => compare (key a) (key b) = .lt)) (h : ∀ a, a ∈ l ↔ a ∈ r) : l = r := by
  have hnodup : ∀ {k : List α}, k.Pairwise (fun a b => compare (key a) (key b) = .lt) → k.Nodup := by
    intro k hk
    refine hk.imp fun {a b} hab heq => ?_
    exact ne_of_compare (a := key a) (b := key b) (by simp [hab]) (congrArg key heq)
  refine List.Perm.eq_of_pairwise ?_ hl hr ((List.perm_ext_iff_of_nodup (hnodup hl) (hnodup hr)).2 h)
  intro a b _ _ hab hba
  rw [← Std.OrientedCmp.gt_iff_lt, hab] at hba
  cases hba

namespace Fields

variable {V : Type}

theorem lookup_setIn (field : String) (value : V) (l : List (String × V)) (f : String) :
    (setIn field value l).lookup f = if f = field then some value else l.lookup f := by
  induction l with
  | nil =>
    by_cases h : f = field
    · simp [setIn, h]
    · simp [setIn, List.lookup_cons, h, beq_false_of_ne h]
  | cons e l ih =>
    obtain ⟨k, v⟩ := e
    simp only [setIn]
    split
    · by_cases h : f = field
      · simp [h]
      · simp [List.lookup_cons, h, beq_false_of_ne h]
    · rename_i hk
      obtain rfl : field = k := Std.LawfulEqCmp.eq_of_compare hk
      by_cases h : f = field
      · simp [h]
      · simp [List.lookup_cons, h, beq_false_of_ne h]
    · rename_i hk
      have hne : field ≠ k := ne_of_compare (by simp [hk])
      by_cases h : f = k
      · subst h
        simp [Ne.symm hne]
      · simp [List.lookup_cons, beq_false_of_ne h, ih]

theorem get?_set (m : Fields V) (field f : String) (value : V) :
    (m.set field value).get? f = if f = field then some value else m.get? f :=
  lookup_setIn field value m.entries f

theorem mem_entries {m : Fields V} {f : String} {v : V} :
    (f, v) ∈ m.entries ↔ m.get? f = some v := by
  rw [get?, List.lookup_eq_some_iff]
  constructor
  · intro h
    obtain ⟨l, r, heq⟩ := List.append_of_mem h
    refine ⟨l, r, heq, fun e he => ?_⟩
    have hlt := (List.pairwise_append.1 (heq ▸ m.ascending)).2.2 e he (f, v) (by simp)
    exact bne_iff_ne.2 (ne_of_compare (by simp [hlt])).symm
  · rintro ⟨l, r, heq, -⟩
    simp [heq]

theorem ext_get? {m n : Fields V} (h : ∀ f, m.get? f = n.get? f) : m = n := by
  have hentries : m.entries = n.entries := by
    refine eq_of_ascending Prod.fst m.ascending n.ascending fun e => ?_
    rw [mem_entries, mem_entries, h]
  cases m
  cases n
  simp_all

variable [JoinDomain V]

theorem get?_absorb (m : Fields V) (e : String × V) (f : String) :
    (m.absorb e).get? f = if f = e.1 then joinOption (m.get? f) (some e.2) else m.get? f := by
  rw [absorb, get?_set]
  by_cases h : f = e.1
  · rw [if_pos h, if_pos h, h]
    cases m.get? e.1 <;> rfl
  · rw [if_neg h, if_neg h]

theorem get?_foldl_absorb (l : List (String × V)) (m : Fields V)
    (hl : l.Pairwise (fun a b => compare a.1 b.1 = .lt)) (f : String) :
    (l.foldl absorb m).get? f = joinOption (m.get? f) (l.lookup f) := by
  induction l generalizing m with
  | nil => simp
  | cons e l ih =>
    obtain ⟨hlt, hl⟩ := List.pairwise_cons.1 hl
    rw [List.foldl_cons, ih _ hl, get?_absorb, List.lookup_cons]
    by_cases h : f = e.1
    · -- the keys ascend, so the rest of the list has no entry for this field
      have hnone : l.lookup f = none := by
        rw [List.lookup_eq_none_iff]
        intro c hc
        rw [h]
        exact bne_iff_ne.2 (ne_of_compare (by simp [hlt c hc]))
      simp [h ▸ hnone, h]
    · simp [h, beq_false_of_ne h]

theorem get?_join (m n : Fields V) (f : String) :
    (m.join n).get? f = joinOption (m.get? f) (n.get? f) :=
  get?_foldl_absorb n.entries m n.ascending f

end Fields

/-! ### Machine states -/

namespace Frame

variable {V : Type} [JoinDomain V] [ValueLattice V]

theorem join_assoc (f g h : Frame V) : (f.join g).join h = f.join (g.join h) := by
  simp only [join, List.reverse_reverse, joinSlots_assoc]

theorem join_comm (f g : Frame V) : f.join g = g.join f := by
  simp only [join]
  rw [joinSlots_comm f.locals, joinSlots_comm f.stack.reverse]

theorem join_self (f : Frame V) : f.join f = f := by
  simp only [join, joinSlots_self, List.reverse_reverse]

end Frame

namespace Fields

variable {V : Type} [JoinDomain V] [ValueLattice V]

theorem join_assoc (m n k : Fields V) : (m.join n).join k = m.join (n.join k) := by
  apply ext_get?
  intro f
  simp only [get?_join, joinOption_assoc]

theorem join_comm (m n : Fields V) : m.join n = n.join m := by
  apply ext_get?
  intro f
  rw [get?_join, get?_join, joinOption_comm]

theorem join_self (m : Fields V) : m.join m = m := by
  apply ext_get?
  intro f
  rw [get?_join, joinOption_self]

end Fields

namespace MachineState

variable {V : Type} [JoinDomain V] [DecidableEq V]

theorem le_iff {s t : MachineState V} : Domain.le s t = true ↔ s.node = t.node ∧ s.join t = t := by
  change (s.node == t.node && s.join t == t) = true ↔ _
  simp

theorem joinable_iff {s t : MachineState V} : JoinDomain.joinable s t = true ↔ s.node = t.node := by
  change (s.node == t.node) = true ↔ _
  simp

variable [ValueLattice V]

omit [DecidableEq V] in
theorem join_assoc (s t u : MachineState V) : (s.join t).join u = s.join (t.join u) := by
  simp only [join, Frame.join_assoc, Fields.join_assoc]

omit [DecidableEq V] in
theorem join_self (s : MachineState V) : s.join s = s := by
  simp only [join, Frame.join_self, Fields.join_self]

omit [DecidableEq V] in
theorem join_comm {s t : MachineState V} (h : s.node = t.node) : s.join t = t.join s := by
  rw [join, join, h, Frame.join_comm, Fields.join_comm]

instance : LawfulJoinDomain (MachineState V) where
  le_refl s := le_iff.2 ⟨rfl, join_self s⟩
  le_trans {s t u} hst htu := by
    rw [le_iff] at hst htu ⊢
    refine ⟨hst.1.trans htu.1, ?_⟩
    rw [← htu.2, ← join_assoc, hst.2]
  le_join_left {s t} _ := by
    refine le_iff.2 ⟨rfl, ?_⟩
    change s.join (s.join t) = s.join t
    rw [← join_assoc, join_self]
  le_join_right {s t} h := by
    have hnode := joinable_iff.1 h
    refine le_iff.2 ⟨hnode.symm, ?_⟩
    change t.join (s.join t) = s.join t
    rw [join_comm hnode, ← join_assoc, join_self]

end MachineState

/-! ### Powersets -/

namespace Powerset

variable {α : Type} [Ord α] [Std.TransOrd α]

theorem ext_mem {s t : Powerset α} (h : ∀ a, a ∈ s ↔ a ∈ t) : s = t := by
  have helements : s.elements = t.elements := eq_of_ascending id s.ascending t.ascending h
  cases s
  cases t
  simp_all

variable [Std.LawfulEqOrd α]

omit [Std.TransOrd α] in
theorem mem_insertInto_iff {a x : α} {l : List α} : x ∈ insertInto a l ↔ x = a ∨ x ∈ l := by
  induction l with
  | nil => simp [insertInto]
  | cons b l ih =>
    simp only [insertInto]
    split
    · simp
    · rename_i hab
      obtain rfl : a = b := Std.LawfulEqCmp.eq_of_compare hab
      simp
    · simp only [List.mem_cons, ih]
      tauto

@[simp] theorem mem_insert {s : Powerset α} {a x : α} : x ∈ s.insert a ↔ x = a ∨ x ∈ s :=
  mem_insertInto_iff

omit [Std.TransOrd α] [Std.LawfulEqOrd α] in
@[simp] theorem not_mem_empty (a : α) : a ∉ (empty : Powerset α) := List.not_mem_nil

theorem mem_foldl_insert {l : List α} {s : Powerset α} {x : α} :
    x ∈ l.foldl insert s ↔ x ∈ l ∨ x ∈ s := by
  induction l generalizing s with
  | nil => simp
  | cons a l ih =>
    rw [List.foldl_cons, ih, mem_insert, List.mem_cons]
    tauto

theorem mem_union {s t : Powerset α} {x : α} : x ∈ s.union t ↔ x ∈ s ∨ x ∈ t := by
  unfold union
  split
  · rw [mem_foldl_insert]
    exact or_comm
  · exact mem_foldl_insert

omit [Std.TransOrd α] in
theorem contains_iff {s : Powerset α} {a : α} : s.contains a = true ↔ a ∈ s := by
  simp only [contains, List.any_eq_true, beq_iff_eq, Std.LawfulEqCmp.compare_eq_iff_eq]
  exact ⟨fun ⟨b, hb, hab⟩ => hab ▸ hb, fun h => ⟨a, h, rfl⟩⟩

omit [Std.LawfulEqOrd α] in
theorem nodup_elements (s : Powerset α) : s.elements.Nodup :=
  s.ascending.imp fun {a b} hab => ne_of_compare (by simp [hab])

theorem subset_iff {s t : Powerset α} : s.subset t = true ↔ ∀ a ∈ s, a ∈ t := by
  simp only [subset, Bool.and_eq_true, decide_eq_true_eq, List.all_eq_true, contains_iff]
  refine ⟨fun h => h.2, fun h => ⟨?_, h⟩⟩
  exact s.nodup_elements.length_le_of_subset h

instance : ValueLattice (Powerset α) where
  join_assoc s t u := ext_mem fun a => by
    change a ∈ (s.union t).union u ↔ a ∈ s.union (t.union u)
    simp only [mem_union, or_assoc]
  join_comm s t := ext_mem fun a => by
    change a ∈ s.union t ↔ a ∈ t.union s
    simp only [mem_union, or_comm]
  join_self s := ext_mem fun a => by
    change a ∈ s.union s ↔ a ∈ s
    rw [mem_union, or_self]
  le_iff s t := by
    change s.subset t = true ↔ s.union t = t
    rw [subset_iff]
    constructor
    · intro h
      refine ext_mem fun a => ?_
      rw [mem_union]
      exact or_iff_right_of_imp (h a)
    · intro h a ha
      rw [← h]
      exact mem_union.2 (.inl ha)

end Powerset

end BytecodeFlow
