import BytecodeFlow.Domain.Basic

/-!
# Values of static fields

A finite map from field names to values, as a list of entries with strictly ascending names, so that
equal maps are equal values.
-/
namespace BytecodeFlow

structure Fields (V : Type) where
  entries : List (String × V)
  ascending : entries.Pairwise (fun a b => compare a.1 b.1 = .lt)
  deriving DecidableEq, Repr

namespace Fields

variable {V : Type}

/-- Sets a field in an ascending list of entries. -/
def setIn (field : String) (value : V) : List (String × V) → List (String × V)
  | [] => [(field, value)]
  | e :: l =>
    match compare field e.1 with
    | .lt => (field, value) :: e :: l
    | .eq => (field, value) :: l
    | .gt => e :: setIn field value l

theorem mem_setIn {field : String} {value : V} {x : String × V} {l : List (String × V)}
    (h : x ∈ setIn field value l) : x = (field, value) ∨ x ∈ l := by
  induction l with
  | nil => simpa [setIn] using h
  | cons e l ih =>
    simp only [setIn] at h
    split at h
    · simpa using h
    · exact (List.mem_cons.1 h).imp_right (List.mem_cons_of_mem _)
    · rcases List.mem_cons.1 h with rfl | h
      · exact .inr (by simp)
      · exact (ih h).imp_right (List.mem_cons_of_mem _)

theorem setIn_ascending (field : String) (value : V) {l : List (String × V)}
    (h : l.Pairwise (fun a b => compare a.1 b.1 = .lt)) :
    (setIn field value l).Pairwise (fun a b => compare a.1 b.1 = .lt) := by
  induction l with
  | nil => exact List.pairwise_singleton _ _
  | cons e l ih =>
    have he := List.pairwise_cons.1 h
    simp only [setIn]
    split
    · rename_i hf
      refine List.pairwise_cons.2 ⟨fun c hc => ?_, h⟩
      rcases List.mem_cons.1 hc with rfl | hc
      · exact hf
      · exact Std.TransCmp.lt_trans hf (he.1 c hc)
    · rename_i hf
      refine List.pairwise_cons.2 ⟨fun c hc => ?_, he.2⟩
      rw [Std.LawfulEqCmp.eq_of_compare hf]
      exact he.1 c hc
    · rename_i hf
      refine List.pairwise_cons.2 ⟨fun c hc => ?_, ih he.2⟩
      rcases mem_setIn hc with rfl | hc
      · exact Std.OrientedCmp.gt_iff_lt.1 hf
      · exact he.1 c hc

def empty : Fields V := ⟨[], .nil⟩

instance : Inhabited (Fields V) := ⟨empty⟩

def isEmpty (m : Fields V) : Bool := m.entries.isEmpty

def get? (m : Fields V) (field : String) : Option V := m.entries.lookup field

def set (m : Fields V) (field : String) (value : V) : Fields V :=
  ⟨setIn field value m.entries, setIn_ascending field value m.ascending⟩

def ofList (l : List (String × V)) : Fields V :=
  l.foldl (fun m e => m.set e.1 e.2) empty

/-- Adds a value to a field: it is joined to the value that is there. -/
def absorb [JoinDomain V] (m : Fields V) (e : String × V) : Fields V :=
  m.set e.1 (match m.get? e.1 with
    | some v => JoinDomain.join v e.2
    | none => e.2)

/-- Joins field by field; fields that only one side has are kept as they are. -/
def join [JoinDomain V] (m n : Fields V) : Fields V :=
  n.entries.foldl absorb m

end Fields

end BytecodeFlow
