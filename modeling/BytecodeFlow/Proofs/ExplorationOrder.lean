import BytecodeFlow.Proofs.LocatedJoin

/-! # The order of exploration

Runs that join states explore the pending states in some order. Under a monotone relation every order ends with
the same reached states: they are closed under the relation, and every closed family with one state at each
location that has a state above the seed lies above them.
-/
namespace BytecodeFlow

/-- The second waitlist is what is left when the state is taken out of the first. -/
def Waitlist.Leaves {S : Type} (w : Waitlist S) (x : S) (w' : Waitlist S) : Prop :=
  x ∉ w'.pending ∧ ∀ y, y ∈ w.pending ↔ y = x ∨ y ∈ w'.pending

theorem Waitlist.leaves_of_pop? {S : Type} {w w' : Waitlist S} {x : S} (h : w.pop? = some (x, w')) :
    w.Leaves x w' :=
  ⟨not_mem_of_pop? h, fun _ => mem_of_pop? h⟩

/-- The seed is reached and pending, and nothing else is. -/
structure Search.Seeded {R S : Type} [ReachedSet R S] [LawfulReachedSet R S] (q : Search R S) (s₀ : S) :
    Prop where
  valid : q.Valid
  reaches : ∀ x, q.Reaches x ↔ x = s₀
  awaits : ∀ x, q.Awaits x ↔ x = s₀

theorem Search.seeded_add {R S : Type} [ReachedSet R S] [LawfulReachedSet R S] [DecidableEq S] {q : Search R S}
    (hv : q.Valid) (hreaches : ∀ x, ¬ q.Reaches x) (hawaits : ∀ x, ¬ q.Awaits x) (s₀ : S) :
    (q.add s₀).Seeded s₀ where
  valid := valid_add s₀ hv
  reaches x := by rw [reaches_add, or_iff_right (hreaches x)]
  awaits x := by rw [awaits_add, or_iff_right (hawaits x)]

namespace Relation

variable {R S P : Type} [ReachedSet R S] [DecidableEq S] [JoinDomain S]

/-- Some pending state is explored, and its successors are joined to the reached ones. -/
def Explores (T : Relation S P) (p : P) (q q' : Search R S) : Prop :=
  ∃ x w l, q.waiting.Leaves x w ∧ T x p = .ok l ∧ q' = Search.incorporateAll .join p ⟨q.reached, w⟩ l

/-- The search is the end of a completed run, or what is left when the pending states have been explored in any
other order until there were none. -/
def Ends (T : Relation S P) (p : P) (q₀ q : Search R S) : Prop :=
  (∃ fuel j j', (T.analysis .join).run p fuel q₀ j = (.completed, q, j')) ∨
    (Relation.ReflTransGen (T.Explores p) q₀ q ∧ ∀ x, ¬ q.Awaits x)

/-- A family with at most one state at each location, one of them above the seed, such that every successor of a
member lies below a member. -/
structure Family [Located S] (T : Relation S P) (p : P) (s₀ : S) (F : S → Prop) : Prop where
  single : ∀ x y, F x → F y → location x = location y → x = y
  seed : ∃ x, F x ∧ Domain.le s₀ x = true
  closed : ∀ x, F x → ∀ c, T.Steps p x c → ∃ y, F y ∧ Domain.le c y = true

variable {T : Relation S P} {p : P} {s₀ : S} {q₀ q q' : Search R S}

omit [DecidableEq S] [JoinDomain S] in
theorem transfer_eq_ok {O : Operators S P} {x : S} {l : List S} {j j' : Journal S P}
    (h : (T.analysis O).transfer x p j = .ok l j') : T x p = .ok l := by
  change (Effect.ofExcept (T x p) : Effect _ _) _ = _ at h
  cases hT : T x p with
  | error f =>
    rw [hT] at h
    cases h
  | ok k =>
    rw [hT] at h
    rw [(EStateM.Result.ok.inj h).1]

/-- Each iteration of a run explores a pending state. -/
theorem explores_of_next {j j' : Journal S P} (h : (T.analysis .join).iterate p q j = .next q' j') :
    T.Explores p q q' := by
  obtain ⟨_, x, w, l, _, hpop, htransfer, rfl⟩ := Analysis.iterate_next h
  exact ⟨x, w, l, Waitlist.leaves_of_pop? hpop, transfer_eq_ok htransfer, rfl⟩

theorem explores_of_run {fuel : Nat} {j j' : Journal S P}
    (h : (T.analysis .join).run p fuel q₀ j = (.completed, q, j')) :
    Relation.ReflTransGen (T.Explores p) q₀ q ∧ ∀ x, ¬ q.Awaits x := by
  obtain ⟨_, hq, _, hnone⟩ := Analysis.run_completed (fun q _ => Relation.ReflTransGen (T.Explores p) q₀ q)
    (fun _ _ _ _ hq hnext => hq.tail (explores_of_next hnext)) h .refl
  exact ⟨hq, hnone⟩

variable [LawfulReachedSet R S] [Located S] [LocatedLattice S]

/-- What holds between two explorations: the reached states cover the seed and the successors of those that are
no longer pending. -/
structure Underway (T : Relation S P) (p : P) (s₀ : S) (q : Search R S) : Prop where
  valid : q.Valid
  single : q.Single
  seed : q.Covers s₀
  settled : ∀ x, q.Reaches x → ¬ q.Awaits x → ∃ l, T x p = .ok l ∧ ∀ c ∈ l, q.Covers c

omit [DecidableEq S] in
theorem underway_of_seeded (h : q.Seeded s₀) : T.Underway p s₀ q where
  valid := h.valid
  single x y hx hy _ := ((h.reaches x).1 hx).trans ((h.reaches y).1 hy).symm
  seed := Search.covers_of_reaches ((h.reaches s₀).2 rfl)
  settled x hx hnot := absurd ((h.awaits x).2 ((h.reaches x).1 hx)) hnot

theorem Underway.explores [ComparesLocally R S] (h : T.Underway p s₀ q) (hstep : T.Explores p q q') :
    T.Underway p s₀ q' := by
  obtain ⟨x, w, l, hleaves, hT, rfl⟩ := hstep
  let popped : Search R S := ⟨q.reached, w⟩
  have hadv : popped.Advances (popped.incorporateAll .join p l) :=
    Search.advances_incorporateAll Operators.covering_join popped p l
  constructor
  · exact Search.valid_incorporateAll _ _ _ h.valid
  · exact Search.single_incorporateAll (q := popped) Operators.uniting_join h.single h.valid p l
  · exact h.seed.mono hadv.covers
  · intro y hy hnot
    obtain ⟨hreached, hwait⟩ := hadv.settled y hy hnot
    by_cases hyx : y = x
    · rw [hyx]
      exact ⟨l, hT, Search.covers_incorporateAll Operators.covering_join p (q := popped) h.valid⟩
    · obtain ⟨k, hk, hcovers⟩ := h.settled y hreached fun hq => ((hleaves.2 y).1 hq).elim hyx hwait
      exact ⟨k, hk, fun c hc => (hcovers c hc).mono hadv.covers⟩

/-- Exploring stays below every closed family: the join of two states below its member at a location is so too. -/
theorem below_explores {G : S → Prop} (hG : T.Family p s₀ G) (hmono : T.Monotone p) (hv : q.Valid)
    (h : q.All fun x => ∃ g, G g ∧ Domain.le x g = true) (hstep : T.Explores p q q') :
    q'.All fun x => ∃ g, G g ∧ Domain.le x g = true := by
  obtain ⟨x, w, l, hleaves, hT, rfl⟩ := hstep
  apply Search.all_incorporateAll
  · exact ⟨h.reached, fun y hy => h.pending y ((hleaves.2 y).2 (.inr hy))⟩
  · intro c hc
    obtain ⟨g, hg, hxg⟩ := h.pending x ((hleaves.2 x).2 (.inl rfl))
    obtain ⟨d, hd, hcd⟩ := hmono x g hxg c ⟨l, hT, hc⟩
    obtain ⟨g', hg', hdg⟩ := hG.closed g hg d hd
    exact ⟨g', hg', PreorderedDomain.le_trans hcd hdg⟩
  · exact hv
  · rintro _ c r _ _ ⟨g, hg, hcg⟩ ⟨g', hg', hrg⟩
    change ∃ g, G g ∧ Domain.le (if JoinDomain.joinable c r then JoinDomain.join c r else r) g = true
    split
    · rename_i hjoinable
      have hloc := LocatedLattice.joinable_iff.1 hjoinable
      have hsame : location g = location g' :=
        (LocatedLattice.location_of_le hcg).symm.trans (hloc.trans (LocatedLattice.location_of_le hrg))
      rw [hG.single g g' hg hg' hsame] at hcg
      exact ⟨g', hg', LocatedLattice.join_le hloc hcg hrg⟩
    · exact ⟨g', hg', hrg⟩

variable [ComparesLocally R S]

/-- The reached states at the end of an exploration are the least family above the seed. -/
theorem least_of_ends (hmono : T.Monotone p) (h₀ : q₀.Seeded s₀) (h : T.Ends p q₀ q) :
    T.Family p s₀ q.Reaches ∧ (∀ x, q.Reaches x → ∃ l, T x p = .ok l) ∧
      ∀ G, T.Family p s₀ G → ∀ x, q.Reaches x → ∃ g, G g ∧ Domain.le x g = true := by
  obtain ⟨hexplores, hnone⟩ : Relation.ReflTransGen (T.Explores p) q₀ q ∧ ∀ x, ¬ q.Awaits x := by
    rcases h with ⟨fuel, j, j', hrun⟩ | h
    · exact explores_of_run hrun
    · exact h
  have hunderway : T.Underway p s₀ q := by
    clear hnone h
    induction hexplores with
    | refl => exact underway_of_seeded h₀
    | tail _ hstep ih => exact ih.explores hstep
  refine ⟨⟨hunderway.single, hunderway.seed, ?_⟩, fun x hx => ?_, fun G hG => ?_⟩
  · rintro x hx c ⟨l, hl, hc⟩
    obtain ⟨k, hk, hcovers⟩ := hunderway.settled x hx (hnone x)
    obtain rfl : l = k := Except.ok.inj (hl.symm.trans hk)
    exact hcovers c hc
  · obtain ⟨l, hl, _⟩ := hunderway.settled x hx (hnone x)
    exact ⟨l, hl⟩
  · have hall : q.Valid ∧ q.All fun x => ∃ g, G g ∧ Domain.le x g = true := by
      clear hunderway hnone h
      induction hexplores with
      | refl =>
        refine ⟨h₀.valid, fun x hx => ?_, fun x hx => ?_⟩
        · rw [(h₀.reaches x).1 hx]
          exact hG.seed
        · rw [(h₀.awaits x).1 hx]
          exact hG.seed
      | tail _ hstep ih =>
        refine ⟨?_, below_explores hG hmono ih.1 ih.2 hstep⟩
        obtain ⟨_, _, _, _, _, rfl⟩ := hstep
        exact Search.valid_incorporateAll _ _ _ ih.1
    exact hall.2.reached

omit [DecidableEq S] in
/-- Two least families are the same. -/
theorem mem_of_least {F G : S → Prop} (hF : T.Family p s₀ F) (hFG : ∀ x, F x → ∃ y, G y ∧ Domain.le x y = true)
    (hGF : ∀ x, G x → ∃ y, F y ∧ Domain.le x y = true) {x : S} (hx : F x) : G x := by
  obtain ⟨y, hy, hxy⟩ := hFG x hx
  obtain ⟨z, hz, hyz⟩ := hGF y hy
  have hxz : x = z := by
    apply hF.single x z hx hz
    exact (LocatedLattice.location_of_le hxy).trans (LocatedLattice.location_of_le hyz)
  rw [LocatedLattice.le_antisymm hxy (hxz ▸ hyz)]
  exact hy

/-- Whatever the order in which pending states are explored, and whichever kind of reached set is used, joining
runs from one seed that end under a monotone relation have reached the same states: the least family with one
state at each location that has a state above the seed and is closed under the relation. -/
theorem ends_agree {R' : Type} [ReachedSet R' S] [LawfulReachedSet R' S] [ComparesLocally R' S]
    {q₀' q' : Search R' S} (hmono : T.Monotone p) (h₀ : q₀.Seeded s₀) (h₀' : q₀'.Seeded s₀)
    (h : T.Ends p q₀ q) (h' : T.Ends p q₀' q') :
    (∀ x, q.Reaches x ↔ q'.Reaches x) ∧ T.Family p s₀ q.Reaches ∧ (∀ x, q.Reaches x → ∃ l, T x p = .ok l) ∧
      ∀ G, T.Family p s₀ G → ∀ x, q.Reaches x → ∃ g, G g ∧ Domain.le x g = true := by
  obtain ⟨hF, hok, hleast⟩ := least_of_ends hmono h₀ h
  obtain ⟨hF', _, hleast'⟩ := least_of_ends hmono h₀' h'
  refine ⟨fun x => ⟨fun hx => ?_, fun hx => ?_⟩, hF, hok, hleast⟩
  · exact mem_of_least hF (hleast _ hF') (hleast' _ hF) hx
  · exact mem_of_least hF' (hleast' _ hF) (hleast _ hF') hx

end Relation

/-! ### Counters that circulate between program points -/

namespace Positioned

theorem le_iff {s t : Positioned} : Domain.le s t = true ↔ s.node = t.node ∧ s.value ≤ t.value := by
  change (s.node == t.node && decide (s.value ≤ t.value)) = true ↔ _
  simp

theorem joinable_iff {s t : Positioned} : JoinDomain.joinable s t = true ↔ s.node = t.node := by
  change (s.node == t.node) = true ↔ _
  simp

instance : LocatedLattice Positioned where
  le_refl s := le_iff.2 ⟨rfl, Int.le_refl _⟩
  le_trans hst htu := by
    rw [le_iff] at hst htu ⊢
    exact ⟨hst.1.trans htu.1, Int.le_trans hst.2 htu.2⟩
  le_join_left _ := le_iff.2 ⟨rfl, Int.le_max_left _ _⟩
  le_join_right h := le_iff.2 ⟨(joinable_iff.1 h).symm, Int.le_max_right _ _⟩
  le_antisymm {s t} hst hts := by
    rw [le_iff] at hst hts
    have hvalue : s.value = t.value := Int.le_antisymm hst.2 hts.2
    cases s
    cases t
    simp_all
  location_of_le h := (le_iff.1 h).1
  joinable_iff := joinable_iff
  join_le _ hsu htu := by
    rw [le_iff] at hsu htu ⊢
    exact ⟨hsu.1, Int.max_le.2 ⟨hsu.2, htu.2⟩⟩

end Positioned

namespace Passage

/-- The relation that takes every passage from a program point. -/
def relation (passages : List Passage) : Relation Positioned Unit :=
  Rules.relation ⟨none, [], passages.map apply⟩

theorem steps_iff {passages : List Passage} {s c : Positioned} :
    (relation passages).Steps () s c ↔ ∃ r ∈ passages, r.apply s = some c := by
  have heq : relation passages s () = .ok (passages.filterMap fun r => r.apply s) := by
    simp [relation, Rules.relation, List.filterMap_map]
  simp [Relation.Steps, heq]

theorem monotone_relation (passages : List Passage) : (relation passages).Monotone () := by
  intro s t hst c hc
  obtain ⟨r, hr, happly⟩ := steps_iff.1 hc
  obtain ⟨hnode, hvalue⟩ := Positioned.le_iff.1 hst
  unfold apply at happly
  split at happly
  · rename_i hsource
    obtain rfl := Option.some.inj happly
    refine ⟨⟨r.target, min (t.value + r.delta) r.cap⟩, steps_iff.2 ⟨r, hr, ?_⟩, Positioned.le_iff.2 ⟨rfl, ?_⟩⟩
    · rw [apply, if_pos (hnode.symm.trans hsource)]
    · change min (s.value + r.delta) r.cap ≤ min (t.value + r.delta) r.cap
      omega
  · cases happly

def roundabout : List Passage := [⟨1, 2, 2, 5⟩, ⟨1, 3, 1, 5⟩, ⟨2, 3, 1, 5⟩, ⟨3, 1, 1, 5⟩]

def roundaboutPlain : Search (OrderedSet Positioned) Positioned :=
  Search.add ⟨.empty, .empty .depthFirst⟩ ⟨1, 0⟩

def roundaboutLocated : Search (LocatedStates Positioned) Positioned :=
  Search.add ⟨.empty, .empty .breadthFirst⟩ ⟨1, 0⟩

/-- Depth first eight states are explored, breadth first seven, and the same states are reached. -/
theorem ends_agree_roundabout :
    ∃ q j q' j', ((relation roundabout).analysis .join).run () 10 roundaboutPlain ⟨.never, []⟩ =
        (.completed, q, j) ∧ j.explored.length = 8 ∧
      ((relation roundabout).analysis .join).run () 10 roundaboutLocated ⟨.never, []⟩ = (.completed, q', j') ∧
      j'.explored.length = 7 ∧ (∀ x, q.Reaches x ↔ q'.Reaches x) ∧
      (relation roundabout).Family () ⟨1, 0⟩ q.Reaches := by
  have hplain : roundaboutPlain.Seeded ⟨1, 0⟩ := by
    apply Search.seeded_add
    · trivial
    · exact OrderedSet.not_mem_empty
    · exact OrderedSet.not_mem_empty
  have hlocated : roundaboutLocated.Seeded ⟨1, 0⟩ := by
    apply Search.seeded_add
    · exact LocatedStates.indexed_empty
    · exact OrderedSet.not_mem_empty
    · exact OrderedSet.not_mem_empty
  have hrun : ((relation roundabout).analysis .join).run () 10 roundaboutPlain ⟨.never, []⟩ =
      (.completed, _, _) := rfl
  have hrun' : ((relation roundabout).analysis .join).run () 10 roundaboutLocated ⟨.never, []⟩ =
      (.completed, _, _) := rfl
  obtain ⟨hsame, hfamily, _⟩ := Relation.ends_agree (monotone_relation roundabout) hplain hlocated
    (.inl ⟨10, _, _, hrun⟩) (.inl ⟨10, _, _, hrun'⟩)
  exact ⟨_, _, _, _, hrun, rfl, hrun', rfl, hsame, hfamily⟩

end Passage

end BytecodeFlow
