import BytecodeFlow.Proofs.LocationIndex
import Mathlib.Data.List.Induction
import Mathlib.Data.List.Nodup

/-! # Histories of reached sets

Operations on a reached set come down to a history of single updates, and the history alone says what the set holds:
the states that were added and have not been taken out since, in the order in which they last came in. A located set
lists them twice, as a whole and by their nodes. Every update keeps the two lists in agreement, also where it empties
a bucket, which stays behind and may be filled again.
-/
namespace BytecodeFlow

/-- A change of a reached set that concerns one state or all of them. -/
inductive Update (S : Type) where
  | add (s : S)
  | remove (s : S)
  | clear
  deriving DecidableEq, Repr

inductive ReachedOperation (S : Type) where
  | add (s : S)
  | addAll (l : List S)
  | remove (s : S)
  | removeAll (l : List S)
  | clear
  deriving DecidableEq, Repr

abbrev History (S : Type) := List (Update S)

namespace History

variable {S : Type}

/-- The state has been added and since then neither been removed nor cleared away. -/
def Present (h : History S) (s : S) : Prop :=
  ∃ before after, h = before ++ .add s :: after ∧ .remove s ∉ after ∧ .clear ∉ after

/-- Update `i` inserts the state: it adds it when it is not present. -/
def InsertedAt (h : History S) (i : Nat) (s : S) : Prop :=
  h[i]? = some (.add s) ∧ ¬ Present (h.take i) s

/-- Update `i` is the latest one that inserts the state. -/
def LastInsertedAt (h : History S) (i : Nat) (s : S) : Prop :=
  h.InsertedAt i s ∧ ∀ j, h.InsertedAt j s → j ≤ i

/-- The latest insertion of the one state is earlier than that of the other. -/
def Earlier (h : History S) (a b : S) : Prop :=
  ∃ i j, h.LastInsertedAt i a ∧ h.LastInsertedAt j b ∧ i < j

variable {h : History S} {u : Update S} {i : Nat} {s : S}

theorem not_present_nil : ¬ Present ([] : History S) s := by
  rintro ⟨before, after, heq, -, -⟩
  simp at heq

theorem present_concat :
    Present (h ++ [u]) s ↔ u = .add s ∨ h.Present s ∧ u ≠ .remove s ∧ u ≠ .clear := by
  constructor
  · rintro ⟨before, after, heq, hremove, hclear⟩
    -- Either the last update is the addition itself, or it is one of those behind the addition.
    rcases List.eq_nil_or_concat' after with rfl | ⟨rest, v, rfl⟩
    · obtain ⟨-, hu⟩ := List.append_inj' heq rfl
      exact .inl (List.singleton_inj.1 hu)
    · have hsplit : h ++ [u] = (before ++ .add s :: rest) ++ [v] := by simpa using heq
      obtain ⟨hbefore, hu⟩ := List.append_inj' hsplit rfl
      obtain rfl := List.singleton_inj.1 hu
      simp only [List.mem_append, List.mem_singleton, not_or] at hremove hclear
      exact .inr ⟨⟨before, rest, hbefore, hremove.1, hclear.1⟩, Ne.symm hremove.2, Ne.symm hclear.2⟩
  · rintro (rfl | ⟨⟨before, after, rfl, hremove, hclear⟩, hne, hkept⟩)
    · exact ⟨h, [], rfl, List.not_mem_nil, List.not_mem_nil⟩
    · refine ⟨before, after ++ [u], by simp, ?_, ?_⟩
      · simp [hremove, Ne.symm hne]
      · simp [hclear, Ne.symm hkept]

theorem insertedAt_concat :
    InsertedAt (h ++ [u]) i s ↔ h.InsertedAt i s ∨ i = h.length ∧ u = .add s ∧ ¬ h.Present s := by
  rcases Nat.lt_trichotomy i h.length with hi | rfl | hi
  · simp [InsertedAt, List.getElem?_append_left hi, List.take_append_of_le_length hi.le, hi.ne]
  · simp [InsertedAt]
  · have hlength : (h ++ [u]).length ≤ i := by
      rw [List.length_append, List.length_singleton]
      exact hi
    have hout : (h ++ [u])[i]? = none := List.getElem?_eq_none hlength
    simp [InsertedAt, hout, List.getElem?_eq_none hi.le, hi.ne']

theorem InsertedAt.lt_length (hi : h.InsertedAt i s) : i < h.length := by
  by_contra hlen
  rw [InsertedAt, List.getElem?_eq_none (Nat.not_lt.1 hlen)] at hi
  cases hi.1

/-- The latest insertion stays the latest one unless the next update inserts the state again. -/
theorem LastInsertedAt.concat (hi : h.LastInsertedAt i s) (hu : u = .add s → h.Present s) :
    LastInsertedAt (h ++ [u]) i s := by
  refine ⟨insertedAt_concat.2 (.inl hi.1), fun j hj => ?_⟩
  rcases insertedAt_concat.1 hj with hold | ⟨-, hadd, habsent⟩
  · exact hi.2 j hold
  · exact absurd (hu hadd) habsent

theorem lastInsertedAt_length (hs : ¬ h.Present s) : LastInsertedAt (h ++ [.add s]) h.length s := by
  refine ⟨insertedAt_concat.2 (.inr ⟨rfl, rfl, hs⟩), fun j hj => ?_⟩
  have hlt := hj.lt_length
  rw [List.length_append, List.length_singleton] at hlt
  exact Nat.le_of_lt_succ hlt

theorem Present.exists_lastInsertedAt (hs : h.Present s) : ∃ i, h.LastInsertedAt i s := by
  induction h using List.reverseRecOn with
  | nil => exact absurd hs not_present_nil
  | append_singleton h u ih =>
    by_cases hbefore : Present h s
    · obtain ⟨i, hi⟩ := ih hbefore
      exact ⟨i, hi.concat fun _ => hbefore⟩
    · rcases present_concat.1 hs with rfl | ⟨hbefore', -⟩
      · exact ⟨_, lastInsertedAt_length hbefore⟩
      · exact absurd hbefore' hbefore

theorem Earlier.concat {a b : S} (hab : h.Earlier a b) (ha : h.Present a) (hb : h.Present b) :
    Earlier (h ++ [u]) a b := by
  obtain ⟨i, j, hi, hj, hlt⟩ := hab
  exact ⟨i, j, hi.concat fun _ => ha, hj.concat fun _ => hb, hlt⟩

theorem earlier_of_new {a b : S} (ha : h.Present a) (hb : ¬ h.Present b) : Earlier (h ++ [.add b]) a b := by
  obtain ⟨i, hi⟩ := ha.exists_lastInsertedAt
  exact ⟨i, h.length, hi.concat fun _ => ha, lastInsertedAt_length hb, hi.1.lt_length⟩

/-- The list holds what the history says to be present, by latest insertions. -/
structure Yields (h : History S) (l : List S) : Prop where
  mem_iff (s : S) : s ∈ l ↔ h.Present s
  ordered : l.Pairwise h.Earlier

theorem yields_nil : Yields ([] : History S) [] :=
  ⟨fun _ => ⟨fun hs => absurd hs List.not_mem_nil, fun hs => absurd hs not_present_nil⟩, .nil⟩

namespace Yields

variable {l : List S}

/-- An update leaves the order of the states that it does not insert as it was. -/
theorem ordered_concat (hl : h.Yields l) (u : Update S) : l.Pairwise (Earlier (h ++ [u])) :=
  hl.ordered.imp_of_mem fun ha hb hab => hab.concat ((hl.mem_iff _).1 ha) ((hl.mem_iff _).1 hb)

theorem add_of_mem (hl : h.Yields l) (hs : s ∈ l) : Yields (h ++ [.add s]) l where
  mem_iff x := by
    rw [present_concat, ← hl.mem_iff]
    simp only [Update.add.injEq, ne_eq, reduceCtorEq, not_false_eq_true, and_self, and_true]
    exact ⟨.inr, fun hx => hx.elim (fun hsx => hsx ▸ hs) id⟩
  ordered := hl.ordered_concat _

theorem add_of_not_mem (hl : h.Yields l) (hs : s ∉ l) : Yields (h ++ [.add s]) (l ++ [s]) where
  mem_iff x := by
    rw [present_concat, ← hl.mem_iff]
    simp [or_comm, eq_comm]
  ordered := by
    refine List.pairwise_append.2 ⟨hl.ordered_concat _, List.pairwise_singleton _ _, fun a ha b hb => ?_⟩
    obtain rfl := List.mem_singleton.1 hb
    exact earlier_of_new ((hl.mem_iff a).1 ha) fun hb => hs ((hl.mem_iff b).2 hb)

theorem remove [DecidableEq S] (hl : h.Yields l) (hnodup : l.Nodup) (s : S) :
    Yields (h ++ [.remove s]) (l.erase s) where
  mem_iff x := by
    rw [present_concat, ← hl.mem_iff, hnodup.mem_erase_iff]
    simp [and_comm, eq_comm]
  ordered := (hl.ordered_concat _).sublist List.erase_sublist

theorem clear (h : History S) : Yields (h ++ [.clear]) [] where
  mem_iff x := by simp [present_concat]
  ordered := .nil

end Yields

end History

namespace ReachedSet

variable {R S : Type} [ReachedSet R S]

def update (r : R) : Update S → R
  | .add s => add r s
  | .remove s => remove r s
  | .clear => clear r

def replay (r : R) (h : History S) : R := h.foldl update r

def perform (r : R) : ReachedOperation S → R
  | .add s => add r s
  | .addAll l => addAll r l
  | .remove s => remove r s
  | .removeAll l => removeAll r l
  | .clear => clear r

def performAll (r : R) (ops : List (ReachedOperation S)) : R := ops.foldl perform r

end ReachedSet

def ReachedOperation.updates {S : Type} : ReachedOperation S → History S
  | add s => [.add s]
  | addAll l => l.map .add
  | remove s => [.remove s]
  | removeAll l => l.map .remove
  | clear => [.clear]

def History.ofOperations {S : Type} (ops : List (ReachedOperation S)) : History S :=
  ops.flatMap ReachedOperation.updates

namespace ReachedSet

variable {R S : Type} [ReachedSet R S]

theorem perform_eq (r : R) (o : ReachedOperation S) : perform r o = replay r o.updates := by
  cases o with
  | add s => rfl
  | addAll l =>
    change l.foldl add r = (l.map Update.add).foldl update r
    rw [List.foldl_map]
    rfl
  | remove s => rfl
  | removeAll l =>
    change l.foldl remove r = (l.map Update.remove).foldl update r
    rw [List.foldl_map]
    rfl
  | clear => rfl

theorem performAll_eq (r : R) (ops : List (ReachedOperation S)) :
    performAll r ops = replay r (History.ofOperations ops) := by
  induction ops generalizing r with
  | nil => rfl
  | cons o ops ih =>
    change performAll (perform r o) ops = (o.updates ++ History.ofOperations ops).foldl update r
    rw [ih, perform_eq, List.foldl_append]
    rfl

theorem replay_concat (r : R) (h : History S) (u : Update S) : replay r (h ++ [u]) = update (replay r h) u :=
  List.foldl_concat _ _ _ _

end ReachedSet

namespace OrderedSet

variable {S : Type} [DecidableEq S]

/-- One update of a set goes with one more entry of its history. -/
theorem yields_update {h : History S} {r : OrderedSet S} (hr : h.Yields r.toList) (u : Update S) :
    History.Yields (h ++ [u]) (ReachedSet.update r u).toList := by
  cases u with
  | add s =>
    change History.Yields _ (r.insert s).toList
    rw [toList_insert]
    split
    · rename_i hs
      exact hr.add_of_mem hs
    · rename_i hs
      exact hr.add_of_not_mem hs
  | remove s => exact hr.remove r.nodup s
  | clear => exact .clear h

theorem yields_replay (h : History S) : h.Yields (ReachedSet.replay (empty : OrderedSet S) h).toList := by
  induction h using List.reverseRecOn with
  | nil => exact History.yields_nil
  | append_singleton h u ih =>
    rw [ReachedSet.replay_concat]
    exact yields_update ih u

end OrderedSet

namespace LocatedStates

variable {S : Type}

/-- The nodes that have a bucket, which may be empty. -/
def keys (r : LocatedStates S) : List NodeId := r.buckets.map (·.1)

theorem lookup_of_mem {n : NodeId} {b : OrderedSet S} {l : List (NodeId × OrderedSet S)}
    (hl : (l.map (·.1)).Nodup) (hb : (n, b) ∈ l) : l.lookup n = some b := by
  induction l with
  | nil => cases hb
  | cons c l ih =>
    rw [List.map_cons, List.nodup_cons] at hl
    rw [List.lookup_cons]
    rcases List.mem_cons.1 hb with rfl | hb
    · simp
    · have hne : n ≠ c.1 := fun heq => hl.1 (heq ▸ List.mem_map_of_mem hb)
      rw [beq_false_of_ne hne]
      exact ih hl.2 hb

/-- A node is listed unless it has no bucket or an empty one. -/
theorem mem_locations {r : LocatedStates S} (hkeys : r.keys.Nodup) {n : NodeId} :
    n ∈ r.locations ↔ r.statesAt n ≠ [] := by
  unfold locations statesAt
  constructor
  · intro hn
    obtain ⟨⟨m, b⟩, hb, rfl⟩ := List.mem_map.1 hn
    obtain ⟨hb, hfilled⟩ := List.mem_filter.1 hb
    rw [lookup_of_mem hkeys hb]
    simpa [OrderedSet.isEmpty] using hfilled
  · intro hn
    cases hlookup : r.buckets.lookup n with
    | none => simp [hlookup] at hn
    | some b =>
      obtain ⟨l, k, heq, -⟩ := List.lookup_eq_some_iff.1 hlookup
      rw [hlookup] at hn
      refine List.mem_map.2 ⟨(n, b), List.mem_filter.2 ⟨?_, ?_⟩, rfl⟩
      · rw [heq]
        exact List.mem_append_right _ List.mem_cons_self
      · simpa [OrderedSet.isEmpty] using hn

theorem nodup_locations {r : LocatedStates S} (hkeys : r.keys.Nodup) : r.locations.Nodup :=
  hkeys.sublist (List.filter_sublist.map _)

section Mirrored

variable [Located S]

/-- The buckets agree with the list of all states, and no node has two of them. -/
structure Mirrored (r : LocatedStates S) : Prop where
  indexed : r.Indexed
  keys_nodup : r.keys.Nodup

theorem mirrored_empty : Mirrored (empty : LocatedStates S) := ⟨indexed_empty, List.nodup_nil⟩

theorem Mirrored.mem_locations_iff {r : LocatedStates S} (hr : r.Mirrored) {n : NodeId} :
    n ∈ r.locations ↔ ∃ s ∈ r.all.toList, location s = n := by
  rw [mem_locations hr.keys_nodup, Ne, List.eq_nil_iff_forall_not_mem, not_forall_not]
  exact exists_congr fun s => mem_statesAt hr.indexed

end Mirrored

variable [DecidableEq S]

theorem keys_insertAt (n : NodeId) (s : S) (l : List (NodeId × OrderedSet S)) :
    (insertAt n s l).map (·.1) = if n ∈ l.map (·.1) then l.map (·.1) else l.map (·.1) ++ [n] := by
  induction l with
  | nil => rfl
  | cons b l ih =>
    by_cases hb : b.1 = n
    · simp [insertAt, hb]
    · simp only [insertAt, if_neg hb, List.map_cons, ih, List.mem_cons, Ne.symm hb, false_or]
      split <;> rfl

theorem keys_eraseAt (n : NodeId) (s : S) (l : List (NodeId × OrderedSet S)) :
    (eraseAt n s l).map (·.1) = l.map (·.1) := by
  induction l with
  | nil => rfl
  | cons b l ih =>
    by_cases hb : b.1 = n
    · simp [eraseAt, hb]
    · simp [eraseAt, hb, ih]

variable [Located S]

theorem nodup_keys_add {r : LocatedStates S} (s : S) (hkeys : r.keys.Nodup) : (r.add s).keys.Nodup := by
  rw [add_eq]
  split
  · exact hkeys
  · rw [keys, keys_insertAt]
    split
    · exact hkeys
    · rename_i hn
      rw [← List.concat_eq_append]
      exact hkeys.concat hn

theorem nodup_keys_remove {r : LocatedStates S} (s : S) (hkeys : r.keys.Nodup) : (r.remove s).keys.Nodup := by
  rw [remove_eq]
  split
  · rwa [keys, keys_eraseAt]
  · exact hkeys

theorem Mirrored.update {r : LocatedStates S} (hr : r.Mirrored) (u : Update S) : Mirrored (ReachedSet.update r u) := by
  cases u with
  | add s => exact ⟨indexed_add s hr.indexed, nodup_keys_add s hr.keys_nodup⟩
  | remove s => exact ⟨indexed_remove s hr.indexed, nodup_keys_remove s hr.keys_nodup⟩
  | clear => exact mirrored_empty

theorem mirrored_replay (h : History S) : Mirrored (ReachedSet.replay (empty : LocatedStates S) h) := by
  induction h using List.reverseRecOn with
  | nil => exact mirrored_empty
  | append_singleton h u ih =>
    rw [ReachedSet.replay_concat]
    exact ih.update u

theorem all_update (r : LocatedStates S) (u : Update S) :
    (ReachedSet.update r u).all = ReachedSet.update r.all u := by
  cases u with
  | add s => exact all_add r s
  | remove s => exact all_remove r s
  | clear => rfl

theorem all_replay (h : History S) :
    (ReachedSet.replay (empty : LocatedStates S) h).all = ReachedSet.replay OrderedSet.empty h := by
  induction h using List.reverseRecOn with
  | nil => rfl
  | append_singleton h u ih => rw [ReachedSet.replay_concat, ReachedSet.replay_concat, all_update, ih]

theorem yields_replay (h : History S) : h.Yields (ReachedSet.replay (empty : LocatedStates S) h).all.toList := by
  rw [all_replay]
  exact OrderedSet.yields_replay h

theorem fst_insert_iff {r : LocatedStates S} {s : S} : (r.insert s).1 = true ↔ s ∉ r.all.toList := by
  rw [← contains_iff, insert]
  cases r.all.contains s <;> simp

theorem fst_erase_iff {r : LocatedStates S} {s : S} : (r.erase s).1 = true ↔ s ∈ r.all.toList := by
  rw [← contains_iff, erase]
  cases r.all.contains s <;> simp

def built (ops : List (ReachedOperation S)) : LocatedStates S := ReachedSet.performAll empty ops

/-- Whatever operations a located set has been through, it lists the states that have been added and not taken out
since, each once and by their latest insertions. The states at a node are those of this list that are at the node, in
the same order, and the first one there is the first of them. The nodes with a state are listed, each once. The size
counts the listed states, and they are the ones contained; adding a state tells whether it was absent, and removing it
tells whether it was present. -/
theorem index_mirrors_states (ops : List (ReachedOperation S)) :
    (ReachedSet.states (built ops)).Nodup ∧
    (∀ s, s ∈ ReachedSet.states (built ops) ↔ (History.ofOperations ops).Present s) ∧
    (∀ s, (History.ofOperations ops).Present s → ∃ i, (History.ofOperations ops).LastInsertedAt i s) ∧
    (ReachedSet.states (built ops)).Pairwise (fun a b => ∃ i j, (History.ofOperations ops).LastInsertedAt i a ∧
      (History.ofOperations ops).LastInsertedAt j b ∧ i < j) ∧
    (∀ n, (built ops).statesAt n = (ReachedSet.states (built ops)).filter fun s => location s = n) ∧
    (∀ n, (built ops).firstAt? n = ((ReachedSet.states (built ops)).filter fun s => location s = n).head?) ∧
    (built ops).locations.Nodup ∧
    (∀ n, n ∈ (built ops).locations ↔ ∃ s ∈ ReachedSet.states (built ops), location s = n) ∧
    ReachedSet.size (built ops) = (ReachedSet.states (built ops)).length ∧
    (∀ s, ReachedSet.contains (built ops) s = true ↔ s ∈ ReachedSet.states (built ops)) ∧
    (∀ s, (ReachedSet.insert (built ops) s).1 = true ↔ s ∉ ReachedSet.states (built ops)) ∧
    ∀ s, (ReachedSet.erase (built ops) s).1 = true ↔ s ∈ ReachedSet.states (built ops) := by
  have hbuilt : built ops = ReachedSet.replay empty (History.ofOperations ops) := ReachedSet.performAll_eq _ _
  have hyields : (History.ofOperations ops).Yields (built ops).all.toList := hbuilt ▸ yields_replay _
  have hmirrored : (built ops).Mirrored := hbuilt ▸ mirrored_replay _
  refine ⟨(built ops).all.nodup, hyields.mem_iff, fun s hs => hs.exists_lastInsertedAt, hyields.ordered,
    hmirrored.indexed, fun n => ?_, nodup_locations hmirrored.keys_nodup, fun n => hmirrored.mem_locations_iff, rfl,
    fun s => contains_iff, fun s => fst_insert_iff, fun s => fst_erase_iff⟩
  exact congrArg List.head? (hmirrored.indexed n)

def returning : List (ReachedOperation Positioned) :=
  [.addAll [⟨1, 0⟩, ⟨2, 0⟩, ⟨1, 5⟩], .remove ⟨1, 0⟩, .add ⟨1, 0⟩, .add ⟨1, 5⟩, .removeAll [⟨2, 0⟩, ⟨7, 7⟩]]

/-- A counter that leaves and comes back stands behind one that has stayed, in the list and in its bucket. The second
node keeps an empty bucket and is not listed. -/
theorem index_mirrors_states_returning :
    (built returning).keys = [1, 2] ∧ (∀ n, n ∈ (built returning).locations ↔ n = 1) ∧
    ReachedSet.states (built returning) = [⟨1, 5⟩, ⟨1, 0⟩] ∧ (built returning).statesAt 1 = [⟨1, 5⟩, ⟨1, 0⟩] ∧
    (built returning).firstAt? 1 = some ⟨1, 5⟩ ∧
    ∃ i j, (History.ofOperations returning).LastInsertedAt i ⟨1, 5⟩ ∧
      (History.ofOperations returning).LastInsertedAt j ⟨1, 0⟩ ∧ i < j := by
  obtain ⟨_, _, _, hordered, hat, hfirst, _, hlocations, _⟩ := index_mirrors_states returning
  have hstates : ReachedSet.states (built returning) = [⟨1, 5⟩, ⟨1, 0⟩] := by decide +kernel
  rw [hstates] at hordered hat hfirst hlocations
  refine ⟨by decide +kernel, fun n => ?_, hstates, hat 1, hfirst 1, ?_⟩
  · rw [hlocations]
    simp [location, eq_comm]
  · exact (List.pairwise_cons.1 hordered).1 ⟨1, 0⟩ List.mem_cons_self

end LocatedStates

end BytecodeFlow
