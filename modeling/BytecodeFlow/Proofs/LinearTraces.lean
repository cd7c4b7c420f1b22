import BytecodeFlow.Proofs.BackwardClosure
import Mathlib.Data.List.Lex

/-! # Linear traces as maximal simple paths

The linear traces from a site are the paths through the recorded sources that visit no site twice and that cannot be
continued, cut off at the greatest length. Each comes once, and they are ordered by the choices of sources along
them, in the order in which the sources were first recorded. Taking pending paths from a stack gives the same traces
as going through the sources of one path after the other.
-/
namespace BytecodeFlow

namespace Witness

variable {w : Witness} {s l x : Site} {xs r : List Site}

/-! ### The order of sources -/

def recorded (steps : List (Site × List Site)) (l : Site) : List Site :=
  (steps.filter (·.1 = l)).flatMap (·.2)

theorem sources_link_eq (h : w.contains s = true) (hr : w.sources l = r.eraseDups) :
    (w.link s x).sources l = (r ++ if l = s then [x] else []).eraseDups := by
  rw [sources_link h]
  by_cases hl : l = s
  · subst hl
    by_cases hx : x ∈ r
    · simp [hr, hx, List.eraseDups_append, List.removeAll]
    · simp [hr, hx, List.eraseDups_append, List.removeAll, List.eraseDups_cons]
  · simp [hl, hr]

theorem sources_foldl_link (h : w.contains s = true) (hr : w.sources l = r.eraseDups) :
    (xs.foldl (fun w x => w.link s x) w).sources l = (r ++ if l = s then xs else []).eraseDups := by
  induction xs generalizing w r with
  | nil => simp [hr]
  | cons x xs ih =>
    rw [List.foldl_cons, ih (contains_link.2 (.inl h)) (sources_link_eq h hr), List.append_assoc]
    by_cases hl : l = s
    · simp [hl]
    · simp [hl]

theorem sources_addAll {steps : List (Site × List Site)} (hr : w.sources l = r.eraseDups) :
    (w.addAll steps).sources l = (r ++ recorded steps l).eraseDups := by
  induction steps generalizing w r with
  | nil => simp [addAll, recorded, hr]
  | cons step steps ih =>
    have hstep : (w.addSources step.1 step.2).sources l = (r ++ if l = step.1 then step.2 else []).eraseDups :=
      sources_foldl_link contains_self_mention (sources_mention.trans hr)
    change ((w.addSources step.1 step.2).addAll steps).sources l = _
    rw [ih hstep, List.append_assoc]
    by_cases hl : l = step.1
    · simp [recorded, hl]
    · simp [recorded, hl, Ne.symm hl]

theorem nodup_sources_addAll {steps : List (Site × List Site)} (h : (w.sources l).Nodup) :
    ((w.addAll steps).sources l).Nodup := by
  induction steps generalizing w with
  | nil => exact h
  | cons step steps ih => exact ih (nodup_sources_addSources h)

/-! ### Paths -/

/-- The paths from the root that follow sources and visit no site twice, and that have reached the greatest length or
cannot be continued. -/
structure IsLinearTrace (w : Witness) (root : Site) (path : List Site) : Prop where
  starts : path.head? = some root
  follows : path.IsChain fun a b => b ∈ w.sources a
  simple : path.Nodup
  bounded : path.length ≤ maxTraceLength
  ends : path.length = maxTraceLength ∨ ∀ last ∈ path.getLast?, ∀ s ∈ w.sources last, s ∈ path

/-- The sites continue a path, given from its last site, as far as there is room. -/
structure Continues (w : Witness) (room : Nat) (last : Site) (before rest : List Site) : Prop where
  follows : (last :: rest).IsChain fun a b => b ∈ w.sources a
  simple : rest.Nodup
  fresh : ∀ s ∈ rest, s ∉ last :: before
  bounded : rest.length ≤ room
  ends : rest.length = room ∨ ∀ s ∈ w.sources (rest.getLastD last), s ∈ last :: before ∨ s ∈ rest

variable {room : Nat} {last root : Site} {before rest path : List Site}

theorem continues_nil :
    w.Continues room last before [] ↔ room = 0 ∨ ∀ s ∈ w.sources last, s ∈ last :: before := by
  constructor
  · intro h
    simpa [eq_comm] using h.ends
  · intro h
    exact ⟨List.isChain_singleton last, List.nodup_nil, by simp, Nat.zero_le room, by simpa [eq_comm] using h⟩

theorem continues_cons :
    w.Continues (room + 1) last before (s :: rest) ↔
      s ∈ w.sources last ∧ s ∉ last :: before ∧ w.Continues room s (last :: before) rest := by
  have hends (x : Site) : x ∈ last :: before ∨ x ∈ s :: rest ↔ x ∈ s :: last :: before ∨ x ∈ rest := by
    simp only [List.mem_cons]
    tauto
  constructor
  · rintro ⟨hfollows, hsimple, hfresh, hbounded, hend⟩
    rw [List.isChain_cons_cons] at hfollows
    rw [List.nodup_cons] at hsimple
    refine ⟨hfollows.1, hfresh s List.mem_cons_self, hfollows.2, hsimple.2, ?_,
      Nat.le_of_succ_le_succ hbounded, ?_⟩
    · intro x hx hmem
      rcases List.mem_cons.1 hmem with rfl | hmem
      · exact hsimple.1 hx
      · exact hfresh x (List.mem_cons_of_mem s hx) hmem
    · simpa only [List.length_cons, Nat.add_right_cancel_iff, List.getLastD_cons, hends] using hend
  · rintro ⟨hsource, hnew, hfollows, hsimple, hfresh, hbounded, hend⟩
    have hs : s ∉ rest := fun hs => hfresh s hs List.mem_cons_self
    refine ⟨List.isChain_cons_cons.2 ⟨hsource, hfollows⟩, List.nodup_cons.2 ⟨hs, hsimple⟩, ?_,
      Nat.succ_le_succ hbounded, ?_⟩
    · intro x hx hmem
      rcases List.mem_cons.1 hx with rfl | hx
      · exact hnew hmem
      · exact hfresh x hx (List.mem_cons_of_mem s hmem)
    · simpa only [List.length_cons, Nat.add_right_cancel_iff, List.getLastD_cons, hends] using hend

/-! ### The traces of the pending paths -/

/-- The traces that extend a path, given from its last site, by at most `room` sites. -/
def extend (w : Witness) : (room : Nat) → (last : Site) → (before : List Site) → List (List Site)
  | 0, last, before => [(last :: before).reverse]
  | room + 1, last, before =>
    match w.fresh last before with
    | [] => [(last :: before).reverse]
    | next => next.flatMap fun s => w.extend room s (last :: before)

def tracesOf (w : Witness) : List Site → List (List Site)
  | [] => []
  | last :: before => w.extend (maxTraceLength - (last :: before).length) last before

theorem tracesOf_of_next_eq_nil (h : w.next last before = []) :
    w.tracesOf (last :: before) = [(last :: before).reverse] := by
  unfold next at h
  rw [tracesOf]
  split at h
  · rename_i hlong
    rw [Nat.sub_eq_zero_of_le hlong, extend]
  · cases maxTraceLength - (last :: before).length with
    | zero => rw [extend]
    | succ room => rw [extend, h]

theorem tracesOf_of_next_ne_nil (h : w.next last before ≠ []) :
    w.tracesOf (last :: before) = (w.next last before).flatMap fun s => w.tracesOf (s :: last :: before) := by
  unfold next at h ⊢
  split at h
  · exact absurd rfl h
  · rename_i hshort
    obtain ⟨room, hroom⟩ : ∃ room, maxTraceLength - (last :: before).length = room + 1 :=
      Nat.exists_eq_succ_of_ne_zero (by omega)
    have hlonger : ∀ s, maxTraceLength - (s :: last :: before).length = room := by
      intro s
      rw [List.length_cons]
      omega
    simp only [tracesOf, hroom, hlonger, extend, if_neg hshort]

/-- The traces are those of the pending paths, one path after the other. -/
theorem unfoldPaths_eq (pending : List (List Site)) (traces : Array (List Site)) :
    (w.unfoldPaths pending traces).toList = traces.toList ++ pending.flatMap w.tracesOf := by
  fun_induction unfoldPaths w pending traces with
  | case1 traces => simp
  | case2 traces pending ih => rw [ih, List.flatMap_cons, tracesOf, List.nil_append]
  | case3 traces last before pending hnone ih =>
    rw [ih, List.flatMap_cons, tracesOf_of_next_eq_nil (List.isEmpty_iff.1 hnone)]
    simp
  | case4 traces last before pending hsome ih =>
    rw [ih, pushAll_eq, List.flatMap_append, List.flatMap_map, List.flatMap_cons,
      tracesOf_of_next_ne_nil (fun hnone => hsome (List.isEmpty_iff.2 hnone))]

theorem linearTraces_eq_extend (h : w.contains root = true) :
    w.linearTraces root = w.extend (maxTraceLength - 1) root [] := by
  rw [linearTraces, if_pos h, unfoldPaths_eq]
  simp [tracesOf]

/-- A path with room is a trace if it cannot be continued, and otherwise gives the traces of its continuations. -/
theorem mem_extend_succ : path ∈ w.extend (room + 1) last before ↔
    (path = (last :: before).reverse ∧ ∀ s ∈ w.sources last, s ∈ last :: before) ∨
      ∃ s ∈ w.sources last, s ∉ last :: before ∧ path ∈ w.extend room s (last :: before) := by
  rw [extend, fresh]
  split
  · rename_i hnone
    have hall : ∀ s ∈ w.sources last, s ∈ last :: before := by
      intro s hs
      by_contra hnew
      exact List.filter_eq_nil_iff.1 hnone s hs (decide_eq_true hnew)
    rw [List.mem_singleton]
    constructor
    · intro h
      exact .inl ⟨h, hall⟩
    · rintro (h | ⟨s, hs, hnew, _⟩)
      · exact h.1
      · exact absurd (hall s hs) hnew
  · rename_i next hsome
    rw [List.mem_flatMap]
    constructor
    · rintro ⟨s, hs, hpath⟩
      obtain ⟨hsource, hnew⟩ := List.mem_filter.1 hs
      exact .inr ⟨s, hsource, of_decide_eq_true hnew, hpath⟩
    · rintro (⟨_, hall⟩ | ⟨s, hs, hnew, hpath⟩)
      · refine absurd (List.filter_eq_nil_iff.2 ?_) hsome
        intro s hs hnew
        exact of_decide_eq_true hnew (hall s hs)
      · exact ⟨s, List.mem_filter.2 ⟨hs, decide_eq_true hnew⟩, hpath⟩

theorem mem_extend : path ∈ w.extend room last before ↔
    ∃ rest, path = before.reverse ++ last :: rest ∧ w.Continues room last before rest := by
  induction room generalizing last before with
  | zero =>
    rw [extend, List.mem_singleton, List.reverse_cons]
    constructor
    · intro h
      exact ⟨[], h, continues_nil.2 (.inl rfl)⟩
    · rintro ⟨rest, rfl, h⟩
      rw [List.eq_nil_of_length_eq_zero (Nat.le_zero.1 h.bounded)]
  | succ room ih =>
    rw [mem_extend_succ, List.reverse_cons]
    constructor
    · rintro (⟨h, hall⟩ | ⟨s, hs, hnew, hpath⟩)
      · exact ⟨[], h, continues_nil.2 (.inr hall)⟩
      · obtain ⟨rest, rfl, h⟩ := ih.1 hpath
        exact ⟨s :: rest, by simp, continues_cons.2 ⟨hs, hnew, h⟩⟩
    · rintro ⟨rest, rfl, h⟩
      cases rest with
      | nil => exact .inl ⟨rfl, (continues_nil.1 h).resolve_left (Nat.succ_ne_zero room)⟩
      | cons s rest =>
        obtain ⟨hs, hnew, h⟩ := continues_cons.1 h
        exact .inr ⟨s, hs, hnew, ih.2 ⟨rest, by simp, h⟩⟩

theorem isLinearTrace_iff : w.IsLinearTrace root path ↔
    ∃ rest, path = root :: rest ∧ w.Continues (maxTraceLength - 1) root [] rest := by
  have hpositive : 0 < maxTraceLength := Nat.zero_lt_succ 999
  have hlength (rest : List Site) : (root :: rest).length = maxTraceLength ↔ rest.length = maxTraceLength - 1 := by
    rw [List.length_cons]
    omega
  have hends (rest : List Site) : (∀ last ∈ (root :: rest).getLast?, ∀ s ∈ w.sources last, s ∈ root :: rest) ↔
      ∀ s ∈ w.sources (rest.getLastD root), s ∈ [root] ∨ s ∈ rest := by
    simp [List.getLast?_cons]
  constructor
  · rintro ⟨hstarts, hfollows, hsimple, hbounded, hend⟩
    obtain ⟨rest, rfl⟩ := List.head?_eq_some_iff.1 hstarts
    rw [List.nodup_cons] at hsimple
    refine ⟨rest, rfl, hfollows, hsimple.2, ?_, Nat.le_sub_one_of_lt hbounded, ?_⟩
    · intro s hs hroot
      exact hsimple.1 (List.mem_singleton.1 hroot ▸ hs)
    · rwa [hlength, hends] at hend
  · rintro ⟨rest, rfl, hfollows, hsimple, hfresh, hbounded, hend⟩
    refine ⟨rfl, hfollows, List.nodup_cons.2 ⟨?_, hsimple⟩, ?_, ?_⟩
    · intro hroot
      exact hfresh root hroot (List.mem_singleton_self root)
    · rw [List.length_cons]
      omega
    · rwa [hlength, hends]

theorem mem_linearTraces (h : w.contains root = true) :
    path ∈ w.linearTraces root ↔ w.IsLinearTrace root path := by
  rw [linearTraces_eq_extend h, mem_extend, isLinearTrace_iff]
  rfl

/-! ### The order of traces -/

/-- The positions of the sources that a path follows. -/
def ranks (w : Witness) : List Site → List Nat
  | a :: b :: path => (w.sources a).idxOf b :: w.ranks (b :: path)
  | _ => []

theorem ranks_append : w.ranks (before ++ last :: s :: rest) =
    w.ranks (before ++ [last]) ++ (w.sources last).idxOf s :: w.ranks (s :: rest) := by
  induction before with
  | nil => rfl
  | cons a before ih =>
    cases before with
    | nil => rfl
    | cons b before => exact congrArg ((w.sources a).idxOf b :: ·) ih

theorem pairwise_idxOf (h : xs.Nodup) : xs.Pairwise fun a b => xs.idxOf a < xs.idxOf b := by
  rw [List.pairwise_iff_getElem]
  intro i j hi hj hij
  rwa [h.idxOf_getElem i hi, h.idxOf_getElem j hj]

/-- The choices along earlier traces are less. -/
theorem pairwise_extend (h : ∀ l, (w.sources l).Nodup) (room : Nat) (last : Site) (before : List Site) :
    (w.extend room last before).Pairwise fun a b => w.ranks a < w.ranks b := by
  induction room generalizing last before with
  | zero => exact List.pairwise_singleton _ _
  | succ room ih =>
    rw [extend, fresh]
    split
    · exact List.pairwise_singleton _ _
    · rw [List.pairwise_flatMap]
      refine ⟨fun s _ => ih s (last :: before), ?_⟩
      -- the traces through two sources agree up to the last site, and there the earlier source is chosen
      apply ((pairwise_idxOf (h last)).filter (· ∉ last :: before)).imp
      intro a b hab x hx y hy
      obtain ⟨restx, rfl, _⟩ := mem_extend.1 hx
      obtain ⟨resty, rfl, _⟩ := mem_extend.1 hy
      simp only [List.reverse_cons, List.append_assoc, List.singleton_append]
      rw [ranks_append, ranks_append]
      exact List.Lex.append_left _ (.rel hab) _

/-- The linear traces from a site are exactly the paths that follow recorded sources, visit no site twice, and have
the greatest length or cannot be continued. Each comes once, in the lexicographic order of the first records of
sources. A site without sources to which a path leads that is not too long ends a trace. -/
theorem linearTraces_exact (steps : List (Site × List Site)) (root : Site)
    (hroot : (empty.addAll steps).contains root = true) :
    let w := empty.addAll steps
    (∀ l, w.sources l = (recorded steps l).eraseDups) ∧
    (∀ path, path ∈ w.linearTraces root ↔ w.IsLinearTrace root path) ∧
    (w.linearTraces root).Nodup ∧
    ((w.linearTraces root).Pairwise fun a b => w.ranks a < w.ranks b) ∧
    ∀ path : List Site, path.head? = some root → (path.IsChain fun a b => b ∈ w.sources a) → path.Nodup →
      path.length ≤ maxTraceLength → ∀ l, path.getLast? = some l → w.sources l = [] →
      ∃ trace ∈ w.linearTraces root, trace.getLast? = some l := by
  intro w
  have hsources (l : Site) : w.sources l = (recorded steps l).eraseDups := sources_addAll (r := []) rfl
  have hnodup (l : Site) : (w.sources l).Nodup := nodup_sources_addAll List.nodup_nil
  have hordered : (w.linearTraces root).Pairwise fun a b => w.ranks a < w.ranks b := by
    rw [linearTraces_eq_extend hroot]
    exact pairwise_extend hnodup _ root []
  refine ⟨hsources, fun path => mem_linearTraces hroot, ?_, hordered, ?_⟩
  · apply hordered.imp
    rintro a b hab rfl
    exact lt_irrefl _ hab
  · intro path hstarts hfollows hsimple hbounded l hl hnone
    refine ⟨path, (mem_linearTraces hroot).2 ⟨hstarts, hfollows, hsimple, hbounded, .inr ?_⟩, hl⟩
    intro last hlast s hs
    obtain rfl : l = last := Option.some.inj (hl.symm.trans hlast)
    rw [hnone] at hs
    cases hs

def slotSite (index : Nat) : Site := ⟨.stack index, 0⟩

/-- Slots 0 and 1 depend on one another and both on slot 2, and only slot 3 has no sources. -/
def cyclicSteps : List (Site × List Site) :=
  [(slotSite 0, [slotSite 1, slotSite 2, slotSite 1]), (slotSite 1, [slotSite 0, slotSite 2]),
    (slotSite 2, [slotSite 3, slotSite 0])]

theorem linearTraces_exact_cyclic :
    let w := empty.addAll cyclicSteps
    w.contains (slotSite 0) = true ∧
    w.linearTraces (slotSite 0) = [[0, 1, 2, 3].map slotSite, [0, 2, 3].map slotSite] ∧
    w.IsLinearTrace (slotSite 0) ([0, 1, 2, 3].map slotSite) ∧
    ¬ w.IsLinearTrace (slotSite 0) ([0, 1].map slotSite) ∧
    (w.linearTraces (slotSite 0)).Pairwise fun a b => w.ranks a < w.ranks b := by
  intro w
  have hroot : w.contains (slotSite 0) = true := by decide
  have htraces : w.linearTraces (slotSite 0) = [[0, 1, 2, 3].map slotSite, [0, 2, 3].map slotSite] := by
    rw [linearTraces_eq_extend hroot]
    decide
  obtain ⟨_, hmem, _, hordered, _⟩ := linearTraces_exact cyclicSteps (slotSite 0) hroot
  refine ⟨hroot, htraces, (hmem _).1 ?_, fun h => ?_, hordered⟩
  · rw [htraces]
    decide
  · have hshort := (hmem _).2 h
    rw [htraces] at hshort
    revert hshort
    decide

end Witness

end BytecodeFlow
