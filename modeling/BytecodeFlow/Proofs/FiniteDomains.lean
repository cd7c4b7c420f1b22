import BytecodeFlow.Proofs.Exploration
import BytecodeFlow.Proofs.ExplorationOrder
import Mathlib.Algebra.Order.BigOperators.Group.Finset

/-! # Runs over finitely many states end

Merging may shrink a reached set and put explored states back among the pending ones, so neither its size nor
the pending states bound a run. Two numbers do. The states that no reached one lies above become fewer with each
state that is admitted, and never more. As long as they stay the same, the reached states only rise: the number of
states above each of them, summed over all of them, falls with every merge. An iteration that changes neither number
takes a pending state away.
-/
namespace BytecodeFlow

/-- On the states of `U` the order is partial, and `U` has the least upper bound of each two of them that can be
joined. -/
structure JoinClosed {S : Type} [JoinDomain S] (U : Finset S) : Prop where
  le_refl {a : S} : a ∈ U → Domain.le a a = true
  le_trans {a b c : S} : a ∈ U → b ∈ U → c ∈ U → Domain.le a b = true → Domain.le b c = true → Domain.le a c = true
  le_antisymm {a b : S} : a ∈ U → b ∈ U → Domain.le a b = true → Domain.le b a = true → a = b
  join_mem {a b : S} : a ∈ U → b ∈ U → JoinDomain.joinable a b = true → JoinDomain.join a b ∈ U
  le_join_left {a b : S} : a ∈ U → b ∈ U → JoinDomain.joinable a b = true →
    Domain.le a (JoinDomain.join a b) = true
  le_join_right {a b : S} : a ∈ U → b ∈ U → JoinDomain.joinable a b = true →
    Domain.le b (JoinDomain.join a b) = true
  join_le {a b c : S} : a ∈ U → b ∈ U → c ∈ U → JoinDomain.joinable a b = true → Domain.le a c = true →
    Domain.le b c = true → Domain.le (JoinDomain.join a b) c = true

/-! ### Policies under which reached states rise -/

/-- In a partial order on the states of `U`, merging raises reached states, and a state below a comparable one is
covered. -/
structure Operators.Raises {S P : Type} (O : Operators S P) (p : P) (U : Finset S) (below : S → S → Bool) : Prop where
  refl {a : S} : a ∈ U → below a a = true
  trans {a b c : S} : a ∈ U → b ∈ U → c ∈ U → below a b = true → below b c = true → below a c = true
  antisymm {a b : S} : a ∈ U → b ∈ U → below a b = true → below b a = true → a = b
  merge_mem {c r : S} : c ∈ U → r ∈ U → O.merge c r p ∈ U
  below_merge {c r : S} : c ∈ U → r ∈ U → below r (O.merge c r p) = true
  covered {c r : S} {l : List S} : c ∈ U → r ∈ l → below c r = true → O.stop c l p = true
  adjust_eq (s : S) (l : List S) : O.adjust s p l = (s, p)

namespace Operators

variable {S P : Type} [DecidableEq S] {O : Operators S P} {U : Finset S}

/-- Without merging, states are below themselves only. -/
theorem raises_sep [JoinDomain S] (hU : JoinClosed U) (p : P) (hmerge : O.merge = mergeSep)
    (hstop : O.stop = stopSep ∨ O.stop = stopContained ∨ O.stop = stopAlways) (hadjust : O.adjust = adjustNone) :
    O.Raises p U (fun a b => a == b) where
  refl _ := by simp
  trans _ _ _ hab hbc := by
    rw [eq_of_beq hab]
    exact hbc
  antisymm _ _ hab _ := eq_of_beq hab
  merge_mem _ hr := by
    rw [hmerge]
    exact hr
  below_merge _ _ := by
    rw [hmerge]
    exact beq_self_eq_true _
  covered {c r l} hc hr hcr := by
    obtain rfl := eq_of_beq hcr
    rcases hstop with heq | heq | heq
    · rw [heq]
      exact List.any_eq_true.2 ⟨c, hr, hU.le_refl hc⟩
    · rw [heq]
      exact decide_eq_true hr
    · rw [heq]
      rfl
  adjust_eq s l := by
    rw [hadjust]
    rfl

omit [DecidableEq S] in
theorem raises_join [JoinDomain S] (hU : JoinClosed U) (p : P) (hmerge : O.merge = mergeJoin)
    (hstop : O.stop = stopSep ∨ O.stop = stopAlways) (hadjust : O.adjust = adjustNone) :
    O.Raises p U Domain.le where
  refl := hU.le_refl
  trans := hU.le_trans
  antisymm := hU.le_antisymm
  merge_mem {c r} hc hr := by
    rw [hmerge]
    unfold mergeJoin
    split
    · rename_i hjoinable
      exact hU.join_mem hc hr hjoinable
    · exact hr
  below_merge {c r} hc hr := by
    rw [hmerge]
    unfold mergeJoin
    split
    · rename_i hjoinable
      exact hU.le_join_right hc hr hjoinable
    · exact hU.le_refl hr
  covered {c r l} _ hr hcr := by
    rcases hstop with heq | heq
    · rw [heq]
      exact List.any_eq_true.2 ⟨r, hr, hcr⟩
    · rw [heq]
      rfl
  adjust_eq s l := by
    rw [hadjust]
    rfl

end Operators

namespace Search

variable {S P : Type} [DecidableEq S] {U : Finset S} {below : S → S → Bool} {O : Operators S P} {p : P}
  {q q' : Search (OrderedSet S) S} {c : S}

/-! ### What a run uses up -/

section Measures

variable (U : Finset S) (below : S → S → Bool) (q : Search (OrderedSet S) S)

def uncovered : Finset S := U.filter fun x => ∀ r ∈ q.reached.toList, below x r = false

def above (r : S) : Finset S := U.filter fun x => below r x = true

/-- How far the reached states can rise, taken together. -/
def load : Nat := ∑ r ∈ q.reached.toList.toFinset, (above U below r).card

/-- What is left to admit comes first, then how far the reached states can rise. -/
def rank : Nat := (q.uncovered U below).card * (U.card * U.card + 1) + q.load U below

/-- A bound on the number of iterations that are left. -/
def weight : Nat := q.rank U below * (U.card + 1) + q.waiting.size

end Measures

theorem mem_uncovered {x : S} : x ∈ q.uncovered U below ↔ x ∈ U ∧ ∀ r, q.Reaches r → below x r = false :=
  Finset.mem_filter

omit [DecidableEq S] in
theorem card_above_le (r : S) : (above U below r).card ≤ U.card := Finset.card_filter_le _ _

theorem load_le (hq : q.All (· ∈ U)) : q.load U below ≤ U.card * U.card := by
  have hsub : q.reached.toList.toFinset ⊆ U := by
    intro r hr
    exact hq.reached r (List.mem_toFinset.1 hr)
  calc q.load U below ≤ q.reached.toList.toFinset.card * U.card :=
        Finset.sum_le_card_nsmul _ _ _ fun r _ => card_above_le r
    _ ≤ U.card * U.card := Nat.mul_le_mul_right _ (Finset.card_le_card hsub)

theorem size_waiting_le (hq : q.All (· ∈ U)) : q.waiting.size ≤ U.card := by
  have hsub : q.waiting.pending.toList.toFinset ⊆ U := by
    intro x hx
    exact hq.pending x (List.mem_toFinset.1 hx)
  have hcard := Finset.card_le_card hsub
  rwa [List.toFinset_card_of_nodup q.waiting.pending.nodup] at hcard

omit [DecidableEq S] in
/-- A state that merging changes has fewer states above it afterwards. -/
theorem card_above_merge_lt (hO : O.Raises p U below) (hc : c ∈ U) {r : S} (hr : r ∈ U)
    (hne : O.merge c r p ≠ r) : (above U below (O.merge c r p)).card < (above U below r).card := by
  have hmem := hO.merge_mem hc hr
  apply Finset.card_lt_card
  rw [Finset.ssubset_iff_of_subset]
  · refine ⟨r, Finset.mem_filter.2 ⟨hr, hO.refl hr⟩, fun habove => hne ?_⟩
    exact hO.antisymm hmem hr (Finset.mem_filter.1 habove).2 (hO.below_merge hc hr)
  · intro x hx
    obtain ⟨hxU, hx⟩ := Finset.mem_filter.1 hx
    exact Finset.mem_filter.2 ⟨hxU, hO.trans hr hmem hxU (hO.below_merge hc hr) hx⟩

theorem uncovered_replace_subset (hO : O.Raises p U below) (hq : q.All (· ∈ U)) (hc : c ∈ U) :
    (q.replace (q.replacements O p c)).uncovered U below ⊆ q.uncovered U below := by
  intro x hx
  obtain ⟨hxU, hx⟩ := mem_uncovered.1 hx
  refine mem_uncovered.2 ⟨hxU, fun r hr => ?_⟩
  by_cases hold : r ∈ (q.replacements O p c).map (·.1)
  · -- what lies below a replaced state lies below the one in its place
    obtain ⟨m, hm, rfl⟩ := List.mem_map.1 hold
    obtain ⟨_, heq, _⟩ := mem_replacements.1 hm
    have hrU := hq.reached m.1 hr
    have hnew := hx m.2 (reaches_replace.2 (.inr (List.mem_map.2 ⟨m, hm, rfl⟩)))
    rw [heq] at hnew
    rw [Bool.eq_false_iff] at hnew ⊢
    exact fun hbelow => hnew (hO.trans hxU hrU (hO.merge_mem hc hrU) hbelow (hO.below_merge hc hrU))
  · exact hx r (reaches_replace.2 (.inl ⟨hold, hr⟩))

/-- The reached states after merging: those that stay, and the results for those that do not. -/
theorem toFinset_replace :
    (q.replace (q.replacements O p c)).reached.toList.toFinset =
      q.reached.toList.toFinset \ ((q.replacements O p c).map (·.1)).toFinset ∪
        ((q.replacements O p c).map (·.1)).toFinset.image (fun r => O.merge c r p) := by
  have hnew : (q.replacements O p c).map (·.2) =
      ((q.replacements O p c).map (·.1)).map fun r => O.merge c r p := by
    rw [List.map_map]
    apply List.map_congr_left
    intro m hm
    exact (mem_replacements.1 hm).2.1
  ext x
  simp only [Finset.mem_union, Finset.mem_sdiff, Finset.mem_image, List.mem_toFinset]
  rw [and_comm, ← List.mem_map, ← hnew]
  exact reaches_replace (q := q)

theorem load_replace_lt (hO : O.Raises p U below) (hq : q.All (· ∈ U)) (hc : c ∈ U)
    (hne : q.replacements O p c ≠ []) : (q.replace (q.replacements O p c)).load U below < q.load U below := by
  let reached := q.reached.toList.toFinset
  let old := ((q.replacements O p c).map (·.1)).toFinset
  have hold : ∀ r ∈ old, r ∈ reached ∧ O.merge c r p ≠ r := by
    intro r hr
    obtain ⟨m, hm, rfl⟩ := List.mem_map.1 (List.mem_toFinset.1 hr)
    obtain ⟨hcomparable, heq, hne⟩ := mem_replacements.1 hm
    exact ⟨List.mem_toFinset.2 hcomparable, heq ▸ hne⟩
  have hsub : old ⊆ reached := fun r hr => (hold r hr).1
  have hnonempty : old.Nonempty := by
    obtain ⟨m, hm⟩ := List.exists_mem_of_ne_nil _ hne
    exact ⟨m.1, List.mem_toFinset.2 (List.mem_map.2 ⟨m, hm, rfl⟩)⟩
  calc (q.replace (q.replacements O p c)).load U below
      = ∑ r ∈ reached \ old ∪ old.image (fun r => O.merge c r p), (above U below r).card := by
        unfold load
        rw [toFinset_replace]
    _ ≤ ∑ r ∈ reached \ old, (above U below r).card +
          ∑ r ∈ old.image (fun r => O.merge c r p), (above U below r).card := by
        rw [← Finset.sum_union_inter]
        exact Nat.le_add_right _ _
    _ ≤ ∑ r ∈ reached \ old, (above U below r).card + ∑ r ∈ old, (above U below (O.merge c r p)).card := by
        apply Nat.add_le_add_left
        exact Finset.sum_image_le_of_nonneg fun _ _ => Nat.zero_le _
    _ < ∑ r ∈ reached \ old, (above U below r).card + ∑ r ∈ old, (above U below r).card := by
        apply Nat.add_lt_add_left
        apply Finset.sum_lt_sum_of_nonempty hnonempty
        intro r hr
        exact card_above_merge_lt hO hc (hq.reached r (List.mem_toFinset.1 (hsub hr))) (hold r hr).2
    _ = q.load U below := Finset.sum_sdiff hsub

theorem weight_lt (hq : q.All (· ∈ U)) :
    q.weight U below < (U.card + 1) * (U.card * U.card + 1) * (U.card + 1) := by
  have huncovered : (q.uncovered U below).card ≤ U.card := Finset.card_filter_le _ _
  have hload : q.load U below ≤ U.card * U.card := load_le hq
  have hpending := size_waiting_le hq
  have hrank : q.rank U below + 1 ≤ (U.card + 1) * (U.card * U.card + 1) := by
    have hmul := Nat.mul_le_mul_right (U.card * U.card + 1) huncovered
    unfold rank
    rw [Nat.succ_mul]
    omega
  have hmul := Nat.mul_le_mul_right (U.card + 1) hrank
  unfold weight
  rw [Nat.succ_mul] at hmul
  omega

/-- A state that is admitted had no reached state above it. -/
theorem uncovered_add_ssubset (hO : O.Raises p U below) (hc : c ∈ U)
    (hstop : O.stop c (ReachedSet.comparable q.reached c) p = false) :
    (q.add c).uncovered U below ⊂ q.uncovered U below := by
  rw [Finset.ssubset_iff_of_subset]
  · refine ⟨c, mem_uncovered.2 ⟨hc, fun r hr => ?_⟩, fun hmem => ?_⟩
    · rw [Bool.eq_false_iff]
      intro hbelow
      exact Bool.false_ne_true (hstop.symm.trans (hO.covered hc hr hbelow))
    · have hnot := (mem_uncovered.1 hmem).2 c (reaches_add.2 (.inr rfl))
      rw [hO.refl hc] at hnot
      cases hnot
  · intro x hx
    obtain ⟨hxU, hx⟩ := mem_uncovered.1 hx
    exact mem_uncovered.2 ⟨hxU, fun r hr => hx r (reaches_add.2 (.inl hr))⟩

/-! ### Steps of a run -/

theorem rank_lt_of_load (huncovered : q'.uncovered U below ⊆ q.uncovered U below)
    (hload : q'.load U below < q.load U below) : q'.rank U below < q.rank U below :=
  Nat.add_lt_add_of_le_of_lt (Nat.mul_le_mul_right _ (Finset.card_le_card huncovered)) hload

theorem rank_lt_of_uncovered (hq : q'.All (· ∈ U)) (huncovered : q'.uncovered U below ⊂ q.uncovered U below) :
    q'.rank U below < q.rank U below := by
  have hload : q'.load U below ≤ U.card * U.card := load_le hq
  have hcard := Nat.mul_le_mul_right (U.card * U.card + 1) (Finset.card_lt_card huncovered)
  unfold rank
  rw [Nat.succ_mul] at hcard
  omega

theorem all_of_raises (hO : O.Raises p U below) (hq : q.All (· ∈ U)) {l : List S} (hl : ∀ c ∈ l, c ∈ U) :
    (q.incorporateAll O p l).All (· ∈ U) :=
  all_incorporateAll hq hl trivial fun _ _ _ _ _ hc hx => hO.merge_mem hc hx

/-- A successor leaves the search as it is, or it lowers the rank. -/
theorem incorporate_eq_or_rank_lt (hO : O.Raises p U below) (hq : q.All (· ∈ U)) (hc : c ∈ U) :
    q.incorporate O p c = q ∨ (q.incorporate O p c).rank U below < q.rank U below := by
  have hsub := uncovered_replace_subset hO hq hc
  have hall : (q.incorporate O p c).All (· ∈ U) := all_of_raises hO hq (l := [c]) (by simpa using hc)
  rcases incorporate_cases O p q c with ⟨_, heq⟩ | ⟨hstop, heq⟩
  · rw [heq]
    by_cases hnone : q.replacements O p c = []
    · rw [hnone]
      exact .inl rfl
    · exact .inr (rank_lt_of_load hsub (load_replace_lt hO hq hc hnone))
  · rw [heq] at hall ⊢
    exact .inr (rank_lt_of_uncovered hall ((uncovered_add_ssubset hO hc hstop).trans_subset hsub))

theorem incorporateAll_eq_or_rank_lt (hO : O.Raises p U below) (hq : q.All (· ∈ U)) {l : List S}
    (hl : ∀ c ∈ l, c ∈ U) :
    q.incorporateAll O p l = q ∨ (q.incorporateAll O p l).rank U below < q.rank U below := by
  induction l generalizing q with
  | nil => exact .inl rfl
  | cons c l ih =>
    have hc := hl c (by simp)
    have hl : ∀ c ∈ l, c ∈ U := fun c hc => hl c (by simp [hc])
    have hall : (q.incorporate O p c).All (· ∈ U) := all_of_raises hO hq (l := [c]) (by simpa using hc)
    change (q.incorporate O p c).incorporateAll O p l = q ∨
      ((q.incorporate O p c).incorporateAll O p l).rank U below < q.rank U below
    rcases incorporate_eq_or_rank_lt hO hq hc with hsame | hless
    · rw [hsame]
      exact ih hq hl
    · rcases ih hall hl with hsame | hless'
      · rw [hsame]
        exact .inr hless
      · exact .inr (hless'.trans hless)

end Search

/-- One state fewer is pending once a state has been popped. -/
theorem Waitlist.size_of_pop? {S : Type} {w v : Waitlist S} {s : S} (h : w.pop? = some (s, v)) :
    w.size = v.size + 1 := by
  obtain ⟨order, pending⟩ := w
  cases order with
  | depthFirst =>
    obtain ⟨⟨a, t⟩, hpop, heq⟩ := Option.map_eq_some_iff.1 h
    obtain ⟨rfl, rfl⟩ := Prod.mk.inj heq
    change pending.toList.length = t.toList.length + 1
    rw [OrderedSet.popLast?_eq_some hpop, List.length_append, List.length_singleton]
  | breadthFirst =>
    obtain ⟨⟨a, t⟩, hpop, heq⟩ := Option.map_eq_some_iff.1 h
    obtain ⟨rfl, rfl⟩ := Prod.mk.inj heq
    change pending.toList.length = t.toList.length + 1
    rw [OrderedSet.popFirst?_eq_some hpop, List.length_cons]

namespace Analysis

variable {σ S P : Type} [DecidableEq S] {A : Analysis σ S P} {p : P} {U : Finset S} {below : S → S → Bool}
  {q q' : Search (OrderedSet S) S} {s s' : σ} {o : Outcome} {fuel : Nat}

/-- The relation stays among the states of `U`, or it fails. -/
def Stays (A : Analysis σ S P) (p : P) (U : Finset S) : Prop :=
  ∀ x ∈ U, ∀ s, match A.transfer x p s with
    | .ok l _ => ∀ y ∈ l, y ∈ U
    | .error h _ => ∃ f, h = .fault f

omit [DecidableEq S] in
theorem Stays.ok (h : A.Stays p U) {x : S} (hx : x ∈ U) {l : List S} (hok : A.transfer x p s = .ok l s') :
    ∀ y ∈ l, y ∈ U := by
  have hmatch := h x hx s
  rw [hok] at hmatch
  exact hmatch

omit [DecidableEq S] in
theorem Stays.error (h : A.Stays p U) {x : S} (hx : x ∈ U) {e : Halt} (herror : A.transfer x p s = .error e s') :
    ∃ f, e = .fault f := by
  have hmatch := h x hx s
  rw [herror] at hmatch
  exact hmatch

/-- An iteration stays among the states of `U` and lowers the weight. -/
theorem weight_lt_of_next (hO : A.operators.Raises p U below) (hA : A.Stays p U) (hq : q.All (· ∈ U))
    (h : A.iterate p q s = .next q' s') : q'.All (· ∈ U) ∧ q'.weight U below < q.weight U below := by
  obtain ⟨s₁, x, w, l, _, hpop, hok, rfl⟩ := iterate_next h
  have hadjusted : A.adjusted p q x = (x, p) := hO.adjust_eq x _
  rw [hadjusted] at hok ⊢
  have hl := hA.ok (hq.pending x ((Waitlist.mem_of_pop? hpop).2 (.inl rfl))) hok
  let popped : Search (OrderedSet S) S := ⟨q.reached, w⟩
  have hpopped : popped.All (· ∈ U) :=
    ⟨hq.reached, fun y hy => hq.pending y ((Waitlist.mem_of_pop? hpop).2 (.inr hy))⟩
  have hall := Search.all_of_raises hO hpopped hl
  refine ⟨hall, ?_⟩
  have hsize := Waitlist.size_of_pop? hpop
  change (popped.incorporateAll A.operators p l).rank U below * (U.card + 1) +
    (popped.incorporateAll A.operators p l).waiting.size < popped.rank U below * (U.card + 1) + q.waiting.size
  rcases Search.incorporateAll_eq_or_rank_lt hO hpopped hl with hsame | hless
  · rw [hsame]
    change _ + w.size < _
    omega
  · have hpending := Search.size_waiting_le hall
    have hmul := Nat.mul_le_mul_right (U.card + 1) hless
    rw [Nat.succ_mul] at hmul
    omega

theorem not_exhausted_of_weight (hO : A.operators.Raises p U below) (hA : A.Stays p U) (hq : q.All (· ∈ U))
    (hfuel : q.weight U below < fuel) : (A.run p fuel q s).1 ≠ .halted .exhausted := by
  induction fuel generalizing q s with
  | zero => exact absurd hfuel (Nat.not_lt_zero _)
  | succ fuel ih =>
    cases hiterate : A.iterate p q s with
    | stop o q' s' =>
      rw [run_succ_of_stop hiterate]
      rintro rfl
      rcases iterate_stop hiterate with ⟨ho, _⟩ | ⟨ho, _⟩ | ⟨_, x, w, h, ho, _, hpop, herror, _⟩
      · cases ho
      · cases ho
      · have hadjusted : A.adjusted p q x = (x, p) := hO.adjust_eq x _
        rw [hadjusted] at herror
        obtain ⟨f, rfl⟩ := hA.error (hq.pending x ((Waitlist.mem_of_pop? hpop).2 (.inl rfl))) herror
        cases ho
    | next q' s' =>
      rw [run_succ_of_next hiterate]
      obtain ⟨hall, hless⟩ := weight_lt_of_next hO hA hq hiterate
      exact ih hall (by omega)

/-- A run over the states of `U` completes, is aborted, or ends with a fault. -/
theorem outcome_of_run (hO : A.operators.Raises p U below) (hA : A.Stays p U) (hq : q.All (· ∈ U))
    (hrun : A.run p fuel q s = (o, q', s')) (ho : o ≠ .halted .exhausted) :
    o = .completed ∨ o = .aborted ∨ ∃ f, o = .halted (.fault f) := by
  have hstep : ∀ (q : Search (OrderedSet S) S) (s : σ) q' s', q.All (· ∈ U) →
      A.iterate p q s = .next q' s' → q'.All (· ∈ U) :=
    fun _ _ _ _ hq hnext => (weight_lt_of_next hO hA hq hnext).1
  rcases run_invariant (fun q _ => q.All (· ∈ U)) hstep hrun hq with ⟨hexhausted, _⟩ | ⟨q₁, s₁, hq₁, hstop⟩
  · exact absurd hexhausted ho
  · rcases iterate_stop hstop with ⟨haborted, _⟩ | ⟨hcompleted, _⟩ | ⟨_, x, w, h, hhalted, _, hpop, herror, _⟩
    · exact .inr (.inl haborted)
    · exact .inl hcompleted
    · have hadjusted : A.adjusted p q₁ x = (x, p) := hO.adjust_eq x _
      rw [hadjusted] at herror
      obtain ⟨f, rfl⟩ := hA.error (hq₁.pending x ((Waitlist.mem_of_pop? hpop).2 (.inl rfl))) herror
      exact .inr (.inr ⟨f, hhalted⟩)

/-- Where `I` holds no signal fires, and iterations keep it. -/
structure Quiet (A : Analysis σ S P) (I : σ → Prop) : Prop where
  poll {s : σ} : I s → (A.poll s).1 = false ∧ I (A.poll s).2
  transfer {x : S} {p : P} {l : List S} {s t : σ} : I s → A.transfer x p s = .ok l t → I t

theorem Quiet.not_aborted {I : σ → Prop} (hquiet : A.Quiet I) (hs : I s) (hrun : A.run p fuel q s = (o, q', s')) :
    o ≠ .aborted := by
  have hstep : ∀ (q : Search (OrderedSet S) S) (s : σ) q' s', I s → A.iterate p q s = .next q' s' → I s' := by
    intro q s q' s' hs hnext
    obtain ⟨s₁, x, w, l, hpoll, _, hok, _⟩ := iterate_next hnext
    have hs₁ := (hquiet.poll hs).2
    rw [hpoll] at hs₁
    exact hquiet.transfer hs₁ hok
  rintro rfl
  rcases run_invariant (fun _ s => I s) hstep hrun hs with ⟨hexhausted, _⟩ | ⟨q₁, s₁, hs₁, hstop⟩
  · cases hexhausted
  · rcases iterate_stop hstop with ⟨_, _, hpoll⟩ | ⟨ho, _⟩ | ⟨_, _, _, _, ho, _⟩
    · have hsilent := (hquiet.poll hs₁).1
      rw [hpoll] at hsilent
      cases hsilent
    · cases ho
    · cases ho

/-- Over finitely many states every run ends, with a bound that depends on their number only: if it never merges, under
each of the policies for coverage; and if it joins, unless only reached states themselves count as covered. -/
theorem finite_run_ends {σ S P : Type} [DecidableEq S] [JoinDomain S] (A : Analysis σ S P) (p : P) {U : Finset S}
    (hU : JoinClosed U)
    (hpolicy : A.operators.merge = Operators.mergeSep ∧ (A.operators.stop = Operators.stopSep ∨
        A.operators.stop = Operators.stopContained ∨ A.operators.stop = Operators.stopAlways) ∨
      A.operators.merge = Operators.mergeJoin ∧ (A.operators.stop = Operators.stopSep ∨
        A.operators.stop = Operators.stopAlways))
    (hadjust : A.operators.adjust = Operators.adjustNone) (hA : A.Stays p U) (q : Search (OrderedSet S) S)
    (hq : q.All (· ∈ U)) (s : σ) :
    ∃ o q' s', (∀ fuel, (U.card + 1) * (U.card * U.card + 1) * (U.card + 1) ≤ fuel →
        A.run p fuel q s = (o, q', s')) ∧
      (o = .completed ∨ o = .aborted ∨ ∃ f, o = .halted (.fault f)) ∧
      ∀ I, A.Quiet I → I s → o ≠ .aborted := by
  obtain ⟨below, hO⟩ : ∃ below, A.operators.Raises p U below := by
    rcases hpolicy with ⟨hmerge, hstop⟩ | ⟨hmerge, hstop⟩
    · exact ⟨_, Operators.raises_sep hU p hmerge hstop hadjust⟩
    · exact ⟨_, Operators.raises_join hU p hmerge hstop hadjust⟩
  rcases hrun : A.run p ((U.card + 1) * (U.card * U.card + 1) * (U.card + 1)) q s with ⟨o, q', s'⟩
  have ho : o ≠ .halted .exhausted := by
    have hends := not_exhausted_of_weight (s := s) hO hA hq (Search.weight_lt hq)
    rwa [hrun] at hends
  refine ⟨o, q', s', fun fuel hfuel => run_of_le hrun ho hfuel, ?_, fun I hquiet hs => ?_⟩
  · exact outcome_of_run hO hA hq hrun ho
  · exact hquiet.not_aborted hs hrun

end Analysis

/-! ### Counters among finitely many -/

theorem Relation.transfer_eq {S P : Type} (T : Relation S P) (O : Operators S P) (x : S) (p : P) (j : Journal S P) :
    (T.analysis O).transfer x p j = Effect.ofExcept (T x p) { j with explored := j.explored ++ [(x, p)] } := rfl

/-- A relation whose successors stay in `U` stays there when it is run as an analysis. -/
theorem Relation.stays {S P : Type} {T : Relation S P} {p : P} {U : Finset S} (O : Operators S P)
    (h : ∀ x ∈ U, ∀ l, T x p = .ok l → ∀ y ∈ l, y ∈ U) : (T.analysis O).Stays p U := by
  intro x hx j
  rw [transfer_eq]
  cases hT : T x p with
  | error f => exact ⟨f, rfl⟩
  | ok l => exact h x hx l hT

/-- A signal that never fires is kept. -/
theorem Relation.quiet {S P : Type} (T : Relation S P) (O : Operators S P) :
    (T.analysis O).Quiet fun j => j.signal = .never where
  poll {j} hj := by
    change j.signal.poll.1 = false ∧ j.signal.poll.2 = .never
    rw [hj]
    exact ⟨rfl, rfl⟩
  transfer {x p l j j'} hj hok := by
    have hT := transfer_eq_ok hok
    rw [transfer_eq, hT] at hok
    obtain ⟨_, rfl⟩ := EStateM.Result.ok.inj hok
    exact hj

/-- Of two counters at one point the larger one is their join. -/
theorem Positioned.joinClosed (U : Finset Positioned) : JoinClosed U where
  le_refl _ := PreorderedDomain.le_refl _
  le_trans _ _ _ := PreorderedDomain.le_trans
  le_antisymm _ _ := LocatedLattice.le_antisymm
  join_mem {a b} ha hb hjoinable := by
    have hnode := joinable_iff.1 hjoinable
    change (⟨a.node, max a.value b.value⟩ : Positioned) ∈ U
    rcases Int.le_total a.value b.value with hle | hle
    · rw [Int.max_eq_right hle, hnode]
      exact hb
    · rw [Int.max_eq_left hle]
      exact ha
  le_join_left _ _ := LawfulJoinDomain.le_join_left
  le_join_right _ _ := LawfulJoinDomain.le_join_right
  join_le _ _ _ hjoinable := LocatedLattice.join_le (LocatedLattice.joinable_iff.1 hjoinable)

namespace Passage

def roundaboutStates : Finset Positioned :=
  ([1, 2, 3].flatMap fun n => [0, 1, 2, 3, 4, 5].map fun v => ⟨n, v⟩).toFinset

/-- Joining counters that circulate comes to an end. -/
theorem finite_run_ends_roundabout :
    ∃ o q j, (∀ fuel, 19 * 325 * 19 ≤ fuel →
        ((relation roundabout).analysis .join).run () fuel roundaboutPlain ⟨.never, []⟩ = (o, q, j)) ∧
      (o = .completed ∨ ∃ f, o = .halted (.fault f)) := by
  have hclosed : ∀ x ∈ roundaboutStates, ∀ y ∈ roundabout.filterMap (·.apply x), y ∈ roundaboutStates := by
    decide +kernel
  have hstays : ((relation roundabout).analysis .join).Stays () roundaboutStates := by
    refine Relation.stays _ fun x hx l hl y hy => ?_
    have hstep := steps_iff.1 ⟨l, hl, hy⟩
    exact hclosed x hx y (List.mem_filterMap.2 hstep)
  have hseed : roundaboutPlain.All (· ∈ roundaboutStates) := by
    constructor
    · intro x hx
      obtain rfl := List.mem_singleton.1 hx
      decide +kernel
    · intro x hx
      obtain rfl := List.mem_singleton.1 hx
      decide +kernel
  have hcard : roundaboutStates.card = 18 := by decide +kernel
  obtain ⟨o, q, j, hrun, ho, hquiet⟩ := Analysis.finite_run_ends ((relation roundabout).analysis .join) ()
    (Positioned.joinClosed roundaboutStates) (.inr ⟨rfl, .inl rfl⟩) rfl hstays roundaboutPlain hseed ⟨.never, []⟩
  rw [hcard] at hrun
  have hnot := hquiet _ (Relation.quiet _ _) rfl
  exact ⟨o, q, j, hrun, ho.imp_right (Or.resolve_left · hnot)⟩

end Passage

end BytecodeFlow
