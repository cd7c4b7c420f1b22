import BytecodeFlow.Domain.Basic

/-!
# Powersets

Finite sets of elements of an ordered type, as strictly ascending lists, so that equal sets are equal
values. The empty set is the least element and the join is the union.
-/
namespace BytecodeFlow

structure Powerset (α : Type) [Ord α] where
  elements : List α
  ascending : elements.Pairwise (fun a b => compare a b = .lt)
  deriving DecidableEq, Repr

namespace Powerset

variable {α : Type} [Ord α]

/-- Inserts into an ascending list, unless the element is there. -/
def insertInto (a : α) : List α → List α
  | [] => [a]
  | b :: l =>
    match compare a b with
    | .lt => a :: b :: l
    | .eq => b :: l
    | .gt => b :: insertInto a l

theorem mem_insertInto {a x : α} {l : List α} (h : x ∈ insertInto a l) : x = a ∨ x ∈ l := by
  induction l with
  | nil => simpa [insertInto] using h
  | cons b l ih =>
    simp only [insertInto] at h
    split at h
    · simpa using h
    · exact .inr h
    · rcases List.mem_cons.1 h with rfl | h
      · exact .inr (by simp)
      · exact (ih h).imp_right (List.mem_cons_of_mem _)

def empty : Powerset α := ⟨[], .nil⟩

instance : Inhabited (Powerset α) := ⟨empty⟩

def singleton (a : α) : Powerset α := ⟨[a], List.pairwise_singleton _ _⟩

def isEmpty (s : Powerset α) : Bool := s.elements.isEmpty

def size (s : Powerset α) : Nat := s.elements.length

def contains (s : Powerset α) (a : α) : Bool := s.elements.any fun b => compare a b == .eq

instance : Membership α (Powerset α) := ⟨fun s a => a ∈ s.elements⟩

variable [Std.TransOrd α]

theorem insertInto_ascending (a : α) {l : List α}
    (h : l.Pairwise (fun a b => compare a b = .lt)) :
    (insertInto a l).Pairwise (fun a b => compare a b = .lt) := by
  induction l with
  | nil => exact List.pairwise_singleton _ _
  | cons b l ih =>
    have hb := List.pairwise_cons.1 h
    simp only [insertInto]
    split
    · rename_i hab
      refine List.pairwise_cons.2 ⟨fun c hc => ?_, h⟩
      rcases List.mem_cons.1 hc with rfl | hc
      · exact hab
      · exact Std.TransCmp.lt_trans hab (hb.1 c hc)
    · exact h
    · rename_i hab
      refine List.pairwise_cons.2 ⟨fun c hc => ?_, ih hb.2⟩
      rcases mem_insertInto hc with rfl | hc
      · exact Std.OrientedCmp.gt_iff_lt.1 hab
      · exact hb.1 c hc

def insert (s : Powerset α) (a : α) : Powerset α :=
  ⟨insertInto a s.elements, insertInto_ascending a s.ascending⟩

def ofList (l : List α) : Powerset α :=
  l.foldl insert empty

/-- The union, reached by inserting the elements of the smaller set into the larger one. -/
def union (s t : Powerset α) : Powerset α :=
  if t.size ≤ s.size then t.elements.foldl insert s else s.elements.foldl insert t

/-- Inclusion; a larger set is never included in a smaller one. -/
def subset (s t : Powerset α) : Bool :=
  decide (s.size ≤ t.size) && s.elements.all t.contains

instance : JoinDomain (Powerset α) where
  le := subset
  join := union

def text (write : α → String) (s : Powerset α) : String :=
  Text.braces (s.elements.map write)

end Powerset

abbrev Labels := Powerset String

def Labels.text (s : Labels) : String :=
  Powerset.text Text.quoted s

end BytecodeFlow
