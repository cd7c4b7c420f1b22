import BytecodeFlow.Fixpoint.Reached
import BytecodeFlow.Fixpoint.Waitlist
import Mathlib.Data.List.Basic

/-! # Laws of waitlists and reached sets

A run only relies on which states are reached and which are pending, and on the comparable states
being reached ones. Plain reached sets satisfy this as they are; located ones do as long as their
buckets agree with the list of all states.
-/
namespace BytecodeFlow

variable {S : Type}

namespace OrderedSet

theorem mem_toList {s : OrderedSet S} {a : S} : a ∈ s.toList ↔ a ∈ s := Iff.rfl

@[simp] theorem not_mem_empty (a : S) : a ∉ (empty : OrderedSet S) := by
  intro h
  cases h

theorem popFirst?_eq_some {s t : OrderedSet S} {a : S} (h : s.popFirst? = some (a, t)) :
    s.toList = a :: t.toList := by
  obtain ⟨_ | ⟨b, l⟩, hl⟩ := s
  · simp [popFirst?] at h
  · simp only [popFirst?, Option.some.injEq, Prod.mk.injEq] at h
    rw [← h.1, ← h.2]

theorem popLast?_eq_some {s t : OrderedSet S} {a : S} (h : s.popLast? = some (a, t)) :
    s.toList = t.toList ++ [a] := by
  simp only [popLast?] at h
  split at h
  · simp at h
  · rename_i b hb
    simp only [Option.some.injEq, Prod.mk.injEq] at h
    rw [← h.1, ← h.2]
    exact (List.dropLast_append_getLast? b hb).symm

end OrderedSet

namespace Waitlist

/-- The popped state leaves the pending ones, and nothing else does. -/
theorem mem_of_pop? {w v : Waitlist S} {s x : S} (h : w.pop? = some (s, v)) :
    x ∈ w.pending ↔ x = s ∨ x ∈ v.pending := by
  obtain ⟨order, pending⟩ := w
  cases order with
  | depthFirst =>
    obtain ⟨⟨a, t⟩, hpop, heq⟩ := Option.map_eq_some_iff.1 h
    obtain ⟨rfl, rfl⟩ := Prod.mk.inj heq
    have hlist := OrderedSet.popLast?_eq_some hpop
    rw [← OrderedSet.mem_toList, hlist]
    simp [OrderedSet.mem_toList, or_comm]
  | breadthFirst =>
    obtain ⟨⟨a, t⟩, hpop, heq⟩ := Option.map_eq_some_iff.1 h
    obtain ⟨rfl, rfl⟩ := Prod.mk.inj heq
    have hlist := OrderedSet.popFirst?_eq_some hpop
    rw [← OrderedSet.mem_toList, hlist]
    simp [OrderedSet.mem_toList]

/-- The popped state is no longer pending. -/
theorem not_mem_of_pop? {w v : Waitlist S} {s : S} (h : w.pop? = some (s, v)) : s ∉ v.pending := by
  obtain ⟨order, pending⟩ := w
  rw [← OrderedSet.mem_toList]
  cases order with
  | depthFirst =>
    obtain ⟨⟨a, t⟩, hpop, heq⟩ := Option.map_eq_some_iff.1 h
    obtain ⟨rfl, rfl⟩ := Prod.mk.inj heq
    have hnodup := pending.nodup
    rw [OrderedSet.popLast?_eq_some hpop, List.nodup_append] at hnodup
    intro hmem
    exact hnodup.2.2 a hmem a List.mem_cons_self rfl
  | breadthFirst =>
    obtain ⟨⟨a, t⟩, hpop, heq⟩ := Option.map_eq_some_iff.1 h
    obtain ⟨rfl, rfl⟩ := Prod.mk.inj heq
    have hnodup := pending.nodup
    rw [OrderedSet.popFirst?_eq_some hpop, List.nodup_cons] at hnodup
    exact hnodup.1

theorem not_mem_of_pop?_eq_none {w : Waitlist S} (h : w.pop? = none) (x : S) :
    x ∉ w.pending := by
  obtain ⟨order, ⟨l, hl⟩⟩ := w
  rw [← OrderedSet.mem_toList]
  cases order with
  | depthFirst =>
    have hlast : l.getLast? = none := by
      cases hget : l.getLast? with
      | none => rfl
      | some a => simp [pop?, OrderedSet.popLast?, hget] at h
    simp [List.getLast?_eq_none_iff.1 hlast]
  | breadthFirst =>
    cases l with
    | nil => simp
    | cons a l => simp [pop?, OrderedSet.popFirst?] at h

variable [DecidableEq S]

@[simp] theorem mem_add {w : Waitlist S} {s x : S} :
    x ∈ (w.add s).pending ↔ x ∈ w.pending ∨ x = s := OrderedSet.mem_insert

@[simp] theorem mem_removeAll {w : Waitlist S} {l : List S} {x : S} :
    x ∈ (w.removeAll l).pending ↔ x ∉ l ∧ x ∈ w.pending := by
  induction l generalizing w with
  | nil => simp [removeAll]
  | cons a l ih =>
    change x ∈ ((w.remove a).removeAll l).pending ↔ _
    rw [ih]
    simp only [remove, OrderedSet.mem_erase, List.mem_cons, not_or]
    tauto

end Waitlist

/-- What a run relies on. `Valid` is the invariant of the representation. -/
class LawfulReachedSet (R : Type) (S : outParam Type) [ReachedSet R S] where
  Valid : R → Prop
  valid_add {r : R} (s : S) : Valid r → Valid (ReachedSet.add r s)
  valid_remove {r : R} (s : S) : Valid r → Valid (ReachedSet.remove r s)
  mem_add {r : R} {s x : S} :
    x ∈ ReachedSet.states (ReachedSet.add r s) ↔ x ∈ ReachedSet.states r ∨ x = s
  mem_remove {r : R} {s x : S} :
    x ∈ ReachedSet.states (ReachedSet.remove r s) ↔ x ≠ s ∧ x ∈ ReachedSet.states r
  mem_of_comparable {r : R} {s x : S} :
    Valid r → x ∈ ReachedSet.comparable r s → x ∈ ReachedSet.states r

namespace LawfulReachedSet

variable {R : Type} [ReachedSet R S] [LawfulReachedSet R S]

theorem mem_removeAll {r : R} {l : List S} {x : S} :
    x ∈ ReachedSet.states (ReachedSet.removeAll r l) ↔ x ∉ l ∧ x ∈ ReachedSet.states r := by
  induction l generalizing r with
  | nil => simp [ReachedSet.removeAll]
  | cons a l ih =>
    change x ∈ ReachedSet.states (ReachedSet.removeAll (ReachedSet.remove r a) l) ↔ _
    rw [ih, mem_remove]
    simp only [List.mem_cons, not_or]
    tauto

theorem valid_removeAll {r : R} (l : List S) (h : Valid r) :
    Valid (ReachedSet.removeAll r l) := by
  induction l generalizing r with
  | nil => exact h
  | cons a l ih => exact ih (valid_remove a h)

end LawfulReachedSet

instance [DecidableEq S] : LawfulReachedSet (OrderedSet S) S where
  Valid _ := True
  valid_add _ _ := trivial
  valid_remove _ _ := trivial
  mem_add := OrderedSet.mem_insert
  mem_remove := OrderedSet.mem_erase
  mem_of_comparable _ h := h

namespace LocatedStates

variable [Located S]

/-- The bucket of every node lists the reached states at that node in their order of insertion. -/
def Indexed (r : LocatedStates S) : Prop :=
  ∀ n, r.statesAt n = r.all.toList.filter (fun s => location s = n)

theorem indexed_empty : Indexed (empty : LocatedStates S) := fun _ => rfl

variable [DecidableEq S]

omit [Located S] in
theorem lookup_insertAt (n m : NodeId) (s : S) (l : List (NodeId × OrderedSet S)) :
    (insertAt m s l).lookup n =
      if n = m then some (((l.lookup m).getD .empty).insert s) else l.lookup n := by
  induction l with
  | nil =>
    by_cases h : n = m
    · simp [insertAt, h]
    · simp [insertAt, List.lookup_cons, h, beq_false_of_ne h]
  | cons b l ih =>
    obtain ⟨k, b⟩ := b
    by_cases hk : k = m
    · subst hk
      by_cases h : n = k
      · simp [insertAt, h]
      · simp [insertAt, List.lookup_cons, h, beq_false_of_ne h]
    · by_cases h : n = k
      · subst h
        simp [insertAt, hk]
      · simp [insertAt, List.lookup_cons, hk, beq_false_of_ne h, beq_false_of_ne (Ne.symm hk), ih]

omit [Located S] in
theorem lookup_eraseAt (n m : NodeId) (s : S) (l : List (NodeId × OrderedSet S)) :
    (eraseAt m s l).lookup n =
      if n = m then (l.lookup m).map (·.erase s) else l.lookup n := by
  induction l with
  | nil => simp [eraseAt]
  | cons b l ih =>
    obtain ⟨k, b⟩ := b
    by_cases hk : k = m
    · subst hk
      by_cases h : n = k
      · simp [eraseAt, h]
      · simp [eraseAt, List.lookup_cons, h, beq_false_of_ne h]
    · by_cases h : n = k
      · subst h
        simp [eraseAt, hk]
      · simp [eraseAt, List.lookup_cons, hk, beq_false_of_ne h, beq_false_of_ne (Ne.symm hk), ih]

omit [Located S] in
theorem contains_iff {r : LocatedStates S} {s : S} :
    r.all.contains s = true ↔ s ∈ r.all.toList := by
  simp [OrderedSet.contains, OrderedSet.mem_toList]

theorem indexed_add {r : LocatedStates S} (s : S) (h : Indexed r) : Indexed (r.add s) := by
  rw [add_eq]
  split
  · exact h
  · rename_i hs
    rw [contains_iff] at hs
    intro n
    have hn := h n
    simp only [statesAt] at hn ⊢
    rw [lookup_insertAt, OrderedSet.toList_insert, if_neg hs, List.filter_append]
    by_cases hloc : n = location s
    · subst hloc
      -- the bucket cannot hold the state already, since the state is not reached
      cases hb : r.buckets.lookup (location s) with
      | none => simpa [hb, OrderedSet.toList_insert, OrderedSet.empty] using hn
      | some b =>
        simp only [hb] at hn
        have hnot : s ∉ b.toList := by
          rw [hn]
          exact fun hmem => hs (List.mem_of_mem_filter hmem)
        simp [OrderedSet.toList_insert, hnot, ← hn]
    · have hne : ¬ location s = n := fun he => hloc he.symm
      simp [hloc, hne, hn]

theorem indexed_remove {r : LocatedStates S} (s : S) (h : Indexed r) : Indexed (r.remove s) := by
  rw [remove_eq]
  split
  · intro n
    have hn := h n
    simp only [statesAt] at hn ⊢
    rw [lookup_eraseAt, OrderedSet.toList_erase, ← List.erase_filter, ← hn]
    by_cases hloc : n = location s
    · subst hloc
      cases r.buckets.lookup (location s) <;> simp
    · have hnot : s ∉ r.all.toList.filter (fun x => location x = n) := by
        simp [Ne.symm hloc]
      rw [if_neg hloc, hn, List.erase_of_not_mem hnot]
  · exact h

theorem mem_states_add {r : LocatedStates S} {s x : S} :
    x ∈ (r.add s).all.toList ↔ x ∈ r.all.toList ∨ x = s := by
  rw [add_eq]
  split
  · rename_i hs
    exact ⟨.inl, fun hx => hx.elim id fun he => he ▸ contains_iff.1 hs⟩
  · exact OrderedSet.mem_insert

theorem mem_states_remove {r : LocatedStates S} {s x : S} :
    x ∈ (r.remove s).all.toList ↔ x ≠ s ∧ x ∈ r.all.toList := by
  rw [remove_eq]
  split
  · exact OrderedSet.mem_erase
  · rename_i hs
    exact ⟨fun hx => ⟨fun he => hs (contains_iff.2 (he ▸ hx)), hx⟩, fun hx => hx.2⟩

omit [DecidableEq S] in
theorem mem_statesAt {r : LocatedStates S} (h : Indexed r) {n : NodeId} {x : S} :
    x ∈ r.statesAt n ↔ x ∈ r.all.toList ∧ location x = n := by
  rw [h n]
  simp

omit [DecidableEq S] in
theorem statesAt_eq_singleton {r : LocatedStates S} (h : Indexed r) {n : NodeId} {s : S}
    (hs : ∀ x, x ∈ r.all.toList ∧ location x = n ↔ x = s) : r.statesAt n = [s] := by
  have hnodup : (r.statesAt n).Nodup := by
    rw [h n]
    exact r.all.nodup.filter _
  rw [← List.perm_singleton, List.perm_ext_iff_of_nodup hnodup (by simp)]
  intro x
  rw [mem_statesAt h, hs x, List.mem_singleton]

omit [DecidableEq S] in
theorem mem_of_firstAt? {r : LocatedStates S} (h : Indexed r) {n : NodeId} {x : S}
    (hfirst : r.firstAt? n = some x) : x ∈ r.all.toList ∧ location x = n :=
  (mem_statesAt h).1 (List.mem_of_head? hfirst)

omit [DecidableEq S] in
/-- The only state at a node is the first one there. -/
theorem firstAt?_of_unique {r : LocatedStates S} (h : Indexed r) {x : S} (hx : x ∈ r.all.toList)
    (hunique : ∀ y ∈ r.all.toList, location y = location x → y = x) : r.firstAt? (location x) = some x := by
  have hmem : x ∈ r.statesAt (location x) := (mem_statesAt h).2 ⟨hx, rfl⟩
  cases hfirst : r.firstAt? (location x) with
  | none =>
    rw [firstAt?, List.head?_eq_none_iff] at hfirst
    simp [hfirst] at hmem
  | some y =>
    obtain ⟨hy, hlocation⟩ := mem_of_firstAt? h hfirst
    rw [hunique y hy hlocation]

instance : LawfulReachedSet (LocatedStates S) S where
  Valid := Indexed
  valid_add := indexed_add
  valid_remove := indexed_remove
  mem_add := mem_states_add
  mem_remove := mem_states_remove
  mem_of_comparable h hx := ((mem_statesAt h).1 hx).1

end LocatedStates

end BytecodeFlow
