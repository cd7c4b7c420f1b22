import BytecodeFlow.Summary.Block

/-! # Laws of the block cache

The block cached for a key is the first one that was inserted for it. Caches are compared by the blocks that
they hold: one extends another if it holds the same block for every key that the other has.
-/
namespace BytecodeFlow

namespace BlockCache

variable {S P : Type}

theorem lookup_insertIn (m n : Method) (e : CacheEntry S P)
    (l : List (Method × List (CacheEntry S P))) :
    (insertIn m e l).lookup n =
      if n = m then some ((l.lookup m).getD [] ++ [e]) else l.lookup n := by
  induction l with
  | nil =>
    by_cases h : n = m
    · simp [insertIn, h]
    · simp [insertIn, List.lookup_cons, h, beq_false_of_ne h]
  | cons g l ih =>
    obtain ⟨k, g⟩ := g
    by_cases hk : k = m
    · subst hk
      by_cases h : n = k
      · simp [insertIn, h]
      · simp [insertIn, List.lookup_cons, h, beq_false_of_ne h]
    · by_cases h : n = k
      · subst h
        simp [insertIn, hk]
      · simp [insertIn, List.lookup_cons, hk, beq_false_of_ne h, beq_false_of_ne (Ne.symm hk), ih]

theorem entriesOf_insertIn (c : BlockCache S P) (m n : Method) (e : CacheEntry S P) :
    entriesOf ⟨insertIn m e c.procedures⟩ n =
      if n = m then c.entriesOf m ++ [e] else c.entriesOf n := by
  unfold entriesOf
  rw [lookup_insertIn]
  split <;> rfl

theorem mem_toList_of_getElem? {c : BlockCache S P} {id : BlockId} {e : CacheEntry S P}
    (h : (c.entriesOf id.method)[id.index]? = some e) : (id, e) ∈ c.toList := by
  unfold entriesOf at h
  cases hl : c.procedures.lookup id.method with
  | none => simp [hl] at h
  | some entries =>
    rw [hl] at h
    obtain ⟨l, r, hprocedures, _⟩ := List.lookup_eq_some_iff.1 hl
    unfold toList
    simp only [hprocedures, List.mem_flatMap, List.mem_map]
    refine ⟨(id.method, entries), by simp, (e, id.index), ?_, rfl⟩
    rw [List.mem_zipIdx_iff_getElem?]
    exact h

theorem mem_toList_of_block? {c : BlockCache S P} {id : BlockId} {b : Block S} (h : c.block? id = some b) :
    ∃ e, (id, e) ∈ c.toList ∧ e.block = b := by
  obtain ⟨e, he, rfl⟩ := Option.map_eq_some_iff.1 h
  exact ⟨e, mem_toList_of_getElem? he, rfl⟩

theorem mem_blocksOf {c : BlockCache S P} {m : Method} {b : BlockId × Block S} :
    b ∈ c.blocksOf m ↔ b.1.method = m ∧ c.block? b.1 = some b.2 := by
  obtain ⟨⟨m', i⟩, b⟩ := b
  simp only [blocksOf, block?, List.mem_map, List.mem_zipIdx_iff_getElem?, Option.map_eq_some_iff,
    Prod.mk.injEq, BlockId.mk.injEq, Prod.exists]
  constructor
  · rintro ⟨e, j, he, ⟨rfl, rfl⟩, rfl⟩
    exact ⟨rfl, e, he, rfl⟩
  · rintro ⟨rfl, e, he, rfl⟩
    exact ⟨e, i, he, ⟨rfl, rfl⟩, rfl⟩

variable [DecidableEq S] [DecidableEq P]

/-- The first block for a key stays, and the blocks for other keys are not touched. -/
theorem get?_insert (c : BlockCache S P) (m n : Method) (k k' : S) (p p' : P) (b : Block S) :
    (c.insert m k p b).get? n k' p' =
      if n = m ∧ k' = k ∧ p' = p then some ((c.get? m k p).getD b) else c.get? n k' p' := by
  unfold insert
  split
  · rename_i hsome
    obtain ⟨b', hb'⟩ := Option.isSome_iff_exists.1 hsome
    split
    · rename_i h
      obtain ⟨rfl, rfl, rfl⟩ := h
      simp [hb']
    · rfl
  · rename_i hnone
    have hnone : c.get? m k p = none := by simpa using hnone
    have hfind : (c.entriesOf m).find? (fun e => e.entry = k ∧ e.precision = p) = none := by
      simpa [get?] using hnone
    rw [hnone, get?, entriesOf_insertIn]
    by_cases hn : n = m
    · subst hn
      rw [if_pos rfl, List.find?_append]
      by_cases hkey : k' = k ∧ p' = p
      · obtain ⟨rfl, rfl⟩ := hkey
        rw [hfind]
        simp
      · have hother : ¬ (k = k' ∧ p = p') := fun h => hkey ⟨h.1.symm, h.2.symm⟩
        simp [hkey, hother, get?]
    · simp [hn, get?]

def Extends (c d : BlockCache S P) : Prop :=
  ∀ m k p b, c.get? m k p = some b → d.get? m k p = some b

theorem Extends.refl (c : BlockCache S P) : c.Extends c := fun _ _ _ _ h => h

theorem Extends.trans {c d e : BlockCache S P} (h : c.Extends d) (h' : d.Extends e) : c.Extends e :=
  fun m k p b hb => h' m k p b (h m k p b hb)

theorem extends_insert (c : BlockCache S P) (m : Method) (k : S) (p : P) (b : Block S) :
    c.Extends (c.insert m k p b) := by
  intro n k' p' b' hb'
  rw [get?_insert]
  split
  · rename_i h
    obtain ⟨rfl, rfl, rfl⟩ := h
    simp [hb']
  · exact hb'

/-- What holds of the blocks that were cached and of the inserted one holds of all blocks. -/
theorem get?_insert_cases {c : BlockCache S P} {m n : Method} {k k' : S} {p p' : P} {b b' : Block S}
    (h : (c.insert m k p b).get? n k' p' = some b') :
    c.get? n k' p' = some b' ∨ (n = m ∧ k' = k ∧ p' = p ∧ b' = b) := by
  rw [get?_insert] at h
  split at h
  · rename_i hkey
    obtain ⟨rfl, rfl, rfl⟩ := hkey
    cases hc : c.get? n k' p' with
    | none => exact .inr ⟨rfl, rfl, rfl, by simpa [hc] using h.symm⟩
    | some d => exact .inl (by simpa [hc] using h)
  · exact .inl h

/-- A cached block has a name, under which its states are found. -/
theorem find?_of_get? {c : BlockCache S P} {m : Method} {k : S} {p : P} {b : Block S}
    (h : c.get? m k p = some b) :
    ∃ id, c.find? m k p = some id ∧ id.method = m ∧ c.block? id = some b ∧ c.reachedOf id = b.reached := by
  obtain ⟨e, he, rfl⟩ := Option.map_eq_some_iff.1 h
  rw [List.find?_eq_some_iff_getElem] at he
  obtain ⟨hkey, i, hi, hget, hbefore⟩ := he
  have hidx : (c.entriesOf m).findIdx? (fun e => e.entry = k ∧ e.precision = p) = some i := by
    rw [List.findIdx?_eq_some_iff_getElem]
    refine ⟨hi, hget ▸ hkey, fun j hj => ?_⟩
    have hnot := hbefore j hj
    rw [Bool.not_eq_true'] at hnot
    rw [hnot]
    exact Bool.false_ne_true
  have hblock : c.block? ⟨m, i⟩ = some e.block := by simp [block?, hi, hget]
  refine ⟨⟨m, i⟩, ?_, rfl, hblock, by simp [reachedOf, hblock]⟩
  rw [find?, hidx]
  rfl

theorem get?_of_find? {c : BlockCache S P} {m : Method} {k : S} {p : P} {id : BlockId}
    (h : c.find? m k p = some id) :
    ∃ b, c.get? m k p = some b ∧ c.block? id = some b ∧ c.reachedOf id = b.reached := by
  obtain ⟨i, hi, rfl⟩ := Option.map_eq_some_iff.1 h
  obtain ⟨hlt, hkey, _⟩ := List.findIdx?_eq_some_iff_getElem.1 hi
  have hsome : ((c.entriesOf m).find? fun e => e.entry = k ∧ e.precision = p).isSome := by
    rw [List.find?_isSome]
    exact ⟨_, List.getElem_mem hlt, hkey⟩
  obtain ⟨e, he⟩ := Option.isSome_iff_exists.1 hsome
  have hget : c.get? m k p = some e.block := Option.map_eq_some_iff.2 ⟨e, he, rfl⟩
  obtain ⟨id, hid, _, hblock⟩ := find?_of_get? hget
  obtain rfl := Option.some.inj (h.symm.trans hid)
  exact ⟨_, hget, hblock⟩

/-- A cached block is among the results of the cache. -/
theorem mem_toList_of_get? {c : BlockCache S P} {m : Method} {k : S} {p : P} {b : Block S}
    (h : c.get? m k p = some b) : ∃ id, (id, ⟨k, p, b⟩) ∈ c.toList := by
  obtain ⟨e, he, rfl⟩ := Option.map_eq_some_iff.1 h
  obtain ⟨rfl, rfl⟩ : e.entry = k ∧ e.precision = p := by simpa using List.find?_some he
  obtain ⟨i, hi, hget⟩ := List.getElem_of_mem (List.mem_of_find?_eq_some he)
  refine ⟨⟨m, i⟩, mem_toList_of_getElem? ?_⟩
  rw [← hget]
  exact List.getElem?_eq_getElem hi

end BlockCache

end BytecodeFlow
