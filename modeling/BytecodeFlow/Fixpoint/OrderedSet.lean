/-!
# Sets in insertion order

A set that lists its elements in the order of their latest insertion. Inserting an element that is
present changes nothing; erasing one keeps the order of the others.
-/
namespace BytecodeFlow

structure OrderedSet (α : Type) where
  toList : List α
  nodup : toList.Nodup
  deriving DecidableEq, Repr

namespace OrderedSet

variable {α : Type}

def empty : OrderedSet α := ⟨[], List.nodup_nil⟩

instance : Inhabited (OrderedSet α) := ⟨empty⟩

instance : Membership α (OrderedSet α) := ⟨fun s a => a ∈ s.toList⟩

def size (s : OrderedSet α) : Nat := s.toList.length

def isEmpty (s : OrderedSet α) : Bool := s.toList.isEmpty

def popFirst? (s : OrderedSet α) : Option (α × OrderedSet α) :=
  match s with
  | ⟨[], _⟩ => none
  | ⟨a :: l, h⟩ => some (a, ⟨l, (List.nodup_cons.1 h).2⟩)

def popLast? (s : OrderedSet α) : Option (α × OrderedSet α) :=
  match s.toList.getLast? with
  | none => none
  | some a => some (a, ⟨s.toList.dropLast, s.nodup.sublist (List.dropLast_sublist _)⟩)

variable [DecidableEq α]

instance (a : α) (s : OrderedSet α) : Decidable (a ∈ s) :=
  inferInstanceAs (Decidable (a ∈ s.toList))

def contains (s : OrderedSet α) (a : α) : Bool := decide (a ∈ s)

def insert (s : OrderedSet α) (a : α) : OrderedSet α :=
  if h : a ∈ s.toList then s
  else ⟨s.toList ++ [a], by
    refine List.nodup_append.2 ⟨s.nodup, by simp, ?_⟩
    intro x hx y hy
    rw [List.mem_singleton.1 hy]
    exact fun hxy => h (hxy ▸ hx)⟩

def erase (s : OrderedSet α) (a : α) : OrderedSet α :=
  ⟨s.toList.erase a, s.nodup.erase a⟩

def ofList (l : List α) : OrderedSet α :=
  l.foldl insert empty

theorem toList_insert (s : OrderedSet α) (a : α) :
    (s.insert a).toList = if a ∈ s.toList then s.toList else s.toList ++ [a] := by
  unfold insert
  split <;> rfl

@[simp] theorem toList_erase (s : OrderedSet α) (a : α) : (s.erase a).toList = s.toList.erase a := rfl

@[simp] theorem mem_insert {s : OrderedSet α} {a x : α} : x ∈ s.insert a ↔ x ∈ s ∨ x = a := by
  show x ∈ (s.insert a).toList ↔ x ∈ s.toList ∨ x = a
  rw [toList_insert]
  split
  · rename_i h
    exact ⟨.inl, fun hx => hx.elim id fun hxa => hxa ▸ h⟩
  · simp

@[simp] theorem mem_erase {s : OrderedSet α} {a x : α} : x ∈ s.erase a ↔ x ≠ a ∧ x ∈ s :=
  s.nodup.mem_erase_iff

end OrderedSet

end BytecodeFlow
