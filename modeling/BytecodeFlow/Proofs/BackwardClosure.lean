import BytecodeFlow.Proofs.Callers
import BytecodeFlow.Proofs.Tracing

/-! # Traces as closures

A trace that ends by itself has reached exactly the states that backward steps lead to from its initial ones,
and its witness graph holds exactly the sites of these states and the steps between them. The invariant speaks
about the states that have been explored, that is, which are reached and no longer pending: the witness graph
shows their steps and nothing else.
-/
namespace BytecodeFlow

namespace Witness

variable {w : Witness} {s l l' x : Site} {xs : List Site}

theorem contains_iff : w.contains l = true ↔ ∃ e ∈ w.entries, e.1 = l := by
  simp [contains]

theorem contains_mention : (w.mention s).contains l = true ↔ w.contains l = true ∨ l = s := by
  unfold mention
  split
  · rename_i hs
    have hkept : l = s → w.contains l = true := fun h => h ▸ hs
    tauto
  · rw [contains_iff, contains_iff]
    simp only [List.mem_append, List.mem_singleton]
    constructor
    · rintro ⟨e, he | rfl, hkey⟩
      · exact .inl ⟨e, he, hkey⟩
      · exact .inr hkey.symm
    · rintro (⟨e, he, hkey⟩ | rfl)
      · exact ⟨e, .inl he, hkey⟩
      · exact ⟨(l, []), .inr rfl, rfl⟩

theorem sources_mention : (w.mention s).sources l = w.sources l := by
  unfold mention
  split
  · rfl
  · simp only [sources, List.lookup_append]
    cases w.entries.lookup l with
    | some ys => rfl
    | none =>
      by_cases h : l = s
      · simp [h]
      · simp [List.lookup_cons, beq_eq_false_iff_ne.2 h]

/-- Looking up a key after the values have been changed. -/
theorem lookup_map (g : Site → List Site → List Site) (es : List (Site × List Site)) :
    (es.map fun e => (e.1, g e.1 e.2)).lookup l = (es.lookup l).map (g l) := by
  induction es with
  | nil => rfl
  | cons e es ih =>
    rw [List.map_cons, List.lookup_cons, List.lookup_cons, ih]
    by_cases h : l = e.1
    · simp [h]
    · simp [beq_eq_false_iff_ne.2 h]

theorem link_eq : w.link s x = ⟨(w.mention x).entries.map fun e =>
    (e.1, if e.1 = s ∧ x ∉ e.2 then e.2 ++ [x] else e.2)⟩ := by
  unfold link
  simp only [mk.injEq]
  apply List.map_congr_left
  intro e _
  split <;> rfl

theorem contains_link : (w.link s x).contains l = true ↔ w.contains l = true ∨ l = x := by
  rw [← contains_mention, link_eq, contains_iff, contains_iff]
  simp only [List.mem_map, exists_exists_and_eq_and]

/-- A link adds its source at the end, unless it is there already. -/
theorem sources_link (h : w.contains s = true) : (w.link s x).sources l =
    if l = s ∧ x ∉ w.sources s then w.sources l ++ [x] else w.sources l := by
  have hlookup : (w.link s x).sources l = (((w.mention x).entries.lookup l).map fun ys =>
      if l = s ∧ x ∉ ys then ys ++ [x] else ys).getD [] := by
    rw [link_eq, sources, lookup_map fun k ys => if k = s ∧ x ∉ ys then ys ++ [x] else ys]
  rw [hlookup, ← sources_mention (s := x) (l := l), ← sources_mention (s := x) (l := s)]
  by_cases hl : l = s
  · subst hl
    obtain ⟨e, he, hkey⟩ := contains_iff.1 (contains_mention.2 (.inl h : _ ∨ l = x))
    cases hfound : (w.mention x).entries.lookup l with
    | none =>
      rw [List.lookup_eq_none_iff] at hfound
      exact absurd (hfound e he) (by simp [hkey])
    | some ys => simp [sources, hfound]
  · cases hfound : (w.mention x).entries.lookup l with
    | none => simp [sources, hfound, hl]
    | some ys => simp [sources, hfound, hl]

theorem mem_sources_link (h : w.contains s = true) :
    l' ∈ (w.link s x).sources l ↔ l' ∈ w.sources l ∨ (l = s ∧ l' = x) := by
  rw [sources_link h]
  split
  · rename_i hnew
    simp [hnew.1]
  · rename_i hold
    have hkept : l = s → l' = x → l' ∈ w.sources l := by
      rintro rfl rfl
      by_contra hnot
      exact hold ⟨rfl, hnot⟩
    tauto

theorem nodup_sources_link (h : w.contains s = true) (hl : (w.sources l).Nodup) :
    ((w.link s x).sources l).Nodup := by
  rw [sources_link h]
  split
  · rename_i hnew
    obtain ⟨rfl, hx⟩ := hnew
    exact List.nodup_append.2 ⟨hl, List.nodup_singleton x, by
      intro a ha b hb hab
      exact hx (List.mem_singleton.1 hb ▸ hab ▸ ha)⟩
  · exact hl

/-- What linking several sources to a site that is there leads to. -/
theorem foldl_link (h : w.contains s = true) :
    let w' := xs.foldl (fun w x => w.link s x) w
    (∀ l, w'.contains l = true ↔ w.contains l = true ∨ l ∈ xs) ∧
      (∀ l l', l' ∈ w'.sources l ↔ l' ∈ w.sources l ∨ (l = s ∧ l' ∈ xs)) ∧
      ∀ l, (w.sources l).Nodup → (w'.sources l).Nodup := by
  induction xs generalizing w with
  | nil => simp
  | cons x xs ih =>
    obtain ⟨hcontains, hsources, hnodup⟩ := ih (contains_link.2 (.inl h : _ ∨ s = x))
    refine ⟨fun l => ?_, fun l l' => ?_, fun l hl => hnodup l (nodup_sources_link h hl)⟩
    · rw [List.foldl_cons, hcontains, contains_link, List.mem_cons, or_assoc]
    · rw [List.foldl_cons, hsources, mem_sources_link h, List.mem_cons]
      tauto

theorem contains_self_mention : (w.mention s).contains s = true := contains_mention.2 (.inr rfl)

theorem contains_addSources :
    (w.addSources s xs).contains l = true ↔ w.contains l = true ∨ l = s ∨ l ∈ xs := by
  rw [addSources, (foldl_link contains_self_mention).1, contains_mention, or_assoc]

theorem mem_sources_addSources :
    l' ∈ (w.addSources s xs).sources l ↔ l' ∈ w.sources l ∨ (l = s ∧ l' ∈ xs) := by
  rw [addSources, (foldl_link contains_self_mention).2.1, sources_mention]

theorem nodup_sources_addSources (h : (w.sources l).Nodup) : ((w.addSources s xs).sources l).Nodup := by
  apply (foldl_link contains_self_mention).2.2
  rw [sources_mention]
  exact h

end Witness

namespace Backtracer

variable {S P V : Type} [DecidableEq S] [DecidableEq P] [Located S] [Observable S V] [Domain S] [Domain V]
  {B : Backtracer S P V} {p : P} {place : MemoryLocation} {n : NodeId} {fuel : Nat} {σ : TraceSession}
  {q : Search (OrderedSet (TracedState S)) (TracedState S)}

def StepsTo (B : Backtracer S P V) (p : P) (t u : TracedState S) : Prop :=
  ∃ ts, (B.backtrace p t).result = .ok ts ∧ u ∈ ts

/-- Any number of backward steps leads to the state from a state in which a trace of the site starts. -/
def LeadsTo (B : Backtracer S P V) (p : P) (place : MemoryLocation) (n : NodeId) (t : TracedState S) : Prop :=
  ∃ t₀ ∈ B.initial place n, Relation.ReflTransGen (B.StepsTo p) t₀ t

theorem stepsTo_iff {t u : TracedState S} {ts : List (TracedState S)}
    (h : (B.backtrace p t).result = .ok ts) : B.StepsTo p t u ↔ u ∈ ts := by
  constructor
  · rintro ⟨us, hus, hu⟩
    obtain rfl := Except.ok.inj (hus.symm.trans h)
    exact hu
  · intro hu
    exact ⟨ts, h, hu⟩

def Passed (q : Search (OrderedSet (TracedState S)) (TracedState S)) (t : TracedState S) : Prop :=
  q.Reaches t ∧ ¬ q.Awaits t

/-- Between two iterations the reached states lie in the closure and hold the successors of those that have been
explored, and the witness graph shows the steps of the latter. -/
structure Recorded (B : Backtracer S P V) (p : P) (place : MemoryLocation) (n : NodeId)
    (q : Search (OrderedSet (TracedState S)) (TracedState S)) (σ : TraceSession) : Prop where
  initial : ∀ t ∈ B.initial place n, q.Reaches t
  pending : ∀ t, q.Awaits t → q.Reaches t
  sound : ∀ t, q.Reaches t → B.LeadsTo p place n t
  closed : ∀ t, Passed q t → ∃ ts, (B.backtrace p t).result = .ok ts ∧ ∀ u ∈ ts, q.Reaches u
  contains : ∀ l, σ.witness.contains l = true ↔
    ∃ t, Passed q t ∧ (t.site = l ∨ ∃ u, B.StepsTo p t u ∧ u.site = l)
  sources : ∀ l l', l' ∈ σ.witness.sources l ↔
    ∃ t, Passed q t ∧ t.site = l ∧ ∃ u, B.StepsTo p t u ∧ u.site = l'
  nodup : ∀ l, (σ.witness.sources l).Nodup

theorem recorded_start (B : Backtracer S P V) (p : P) (place : MemoryLocation) (n : NodeId)
    (signal : AbortSignal) : B.Recorded p place n (B.start place n) (.start signal) := by
  have hnone : ∀ t, ¬ Passed (B.start place n) t := fun t ht =>
    ht.2 (awaits_start.2 (reaches_start.1 ht.1))
  refine ⟨fun t ht => reaches_start.2 ht, fun t ht => reaches_start.2 (awaits_start.1 ht), fun t ht => ?_,
    fun t ht => absurd ht (hnone t), fun l => ?_, fun l l' => ?_, fun l => List.nodup_nil⟩
  · exact ⟨t, reaches_start.1 ht, .refl⟩
  · have hempty : (TraceSession.start signal).witness.contains l = false := rfl
    rw [hempty]
    exact iff_of_false Bool.false_ne_true fun ⟨t, ht, _⟩ => hnone t ht
  · exact iff_of_false List.not_mem_nil fun ⟨t, ht, _⟩ => hnone t ht

omit [Located S] [Domain S] in
/-- An iteration explores exactly one more state. -/
theorem passed_next {q' : Search (OrderedSet (TracedState S)) (TracedState S)} {t y : TracedState S}
    {w : Waitlist (TracedState S)} {ts : List (TracedState S)} (hpending : ∀ t, q.Awaits t → q.Reaches t)
    (hpop : q.waiting.pop? = some (t, w)) (hreaches : ∀ y, q'.Reaches y ↔ q.Reaches y ∨ y ∈ ts)
    (hawaits : ∀ y, q'.Awaits y ↔ y ∈ w.pending ∨ (y ∈ ts ∧ ¬ q.Reaches y)) :
    Passed q' y ↔ Passed q y ∨ y = t := by
  have hmem : q.Awaits y ↔ y = t ∨ y ∈ w.pending := Waitlist.mem_of_pop? hpop
  have ht : t ∉ w.pending := Waitlist.not_mem_of_pop? hpop
  unfold Passed
  rw [hreaches, hawaits]
  by_cases hy : y = t
  · subst hy
    have hreached : q.Reaches y := hpending y (hmem.2 (.inl rfl))
    tauto
  · tauto

theorem recorded_next {q' : Search (OrderedSet (TracedState S)) (TracedState S)} {τ : TraceSession}
    (h : B.Recorded p place n q σ) (hnext : B.analysis.iterate p q σ = .next q' τ) :
    B.Recorded p place n q' τ := by
  obtain ⟨σ₁, t, w, ts, hpoll, hpop, hrecord, rfl⟩ := Analysis.iterate_next hnext
  change B.recordStep t p σ₁ = .ok ts τ at hrecord
  have hback := result_of_recordStep hrecord
  have hwitness : τ.witness = σ.witness.addSources t.site (ts.map (·.site)) := by
    obtain ⟨τ', hτ', _, hwitness⟩ := recordStep_ok hback σ₁
    obtain rfl : τ' = τ := (EStateM.Result.ok.inj (hτ'.symm.trans hrecord)).2
    rw [hwitness, ← (Prod.mk.inj hpoll).2]
  set q' := Search.incorporateAll B.analysis.operators (B.analysis.adjusted p q t).2 ⟨q.reached, w⟩ ts
  have hreaches : ∀ y, q'.Reaches y ↔ q.Reaches y ∨ y ∈ ts := fun y =>
    Search.reaches_incorporateAll_contained
  have hawaits : ∀ y, q'.Awaits y ↔ y ∈ w.pending ∨ (y ∈ ts ∧ ¬ q.Reaches y) := fun y =>
    Search.awaits_incorporateAll_contained
  have hpassed : ∀ y, Passed q' y ↔ Passed q y ∨ y = t := fun y =>
    passed_next h.pending hpop hreaches hawaits
  have htreached : q.Reaches t := h.pending t ((Waitlist.mem_of_pop? hpop).2 (.inl rfl))
  refine ⟨fun u hu => (hreaches u).2 (.inl (h.initial u hu)), fun u hu => ?_, fun u hu => ?_, fun u hu => ?_,
    fun l => ?_, fun l l' => ?_, fun l => ?_⟩
  · rw [hreaches]
    rcases (hawaits u).1 hu with hu | hu
    · exact .inl (h.pending u ((Waitlist.mem_of_pop? hpop).2 (.inr hu)))
    · exact .inr hu.1
  · rcases (hreaches u).1 hu with hu | hu
    · exact h.sound u hu
    · obtain ⟨t₀, ht₀, hpath⟩ := h.sound t htreached
      exact ⟨t₀, ht₀, hpath.tail ⟨ts, hback, hu⟩⟩
  · rcases (hpassed u).1 hu with hu | rfl
    · obtain ⟨us, hus, hclosed⟩ := h.closed u hu
      exact ⟨us, hus, fun v hv => (hreaches v).2 (.inl (hclosed v hv))⟩
    · exact ⟨ts, hback, fun v hv => (hreaches v).2 (.inr hv)⟩
  · rw [hwitness, Witness.contains_addSources, h.contains l]
    simp only [hpassed, or_and_right, exists_or, exists_eq_left, stepsTo_iff hback, List.mem_map,
      eq_comm (a := l)]
  · rw [hwitness, Witness.mem_sources_addSources, h.sources l l']
    simp only [hpassed, or_and_right, exists_or, exists_eq_left, stepsTo_iff hback, List.mem_map,
      eq_comm (a := l)]
  · rw [hwitness]
    exact Witness.nodup_sources_addSources (h.nodup l)

/-- A run that ends by itself has explored all that it has reached. -/
theorem recorded_completed {signal : AbortSignal} {τ : TraceSession}
    (hrun : B.analysis.run p fuel (B.start place n) (.start signal) = (.completed, q, τ)) :
    B.Recorded p place n q τ ∧ ∀ t, ¬ q.Awaits t := by
  obtain ⟨σ₁, h, hpoll, hnone⟩ := Analysis.run_completed (B.Recorded p place n)
    (fun _ _ _ _ => recorded_next) hrun (B.recorded_start p place n signal)
  refine ⟨?_, hnone⟩
  obtain rfl : τ = _ := (Prod.mk.inj hpoll).2.symm
  exact ⟨h.initial, h.pending, h.sound, h.closed, h.contains, h.sources, h.nodup⟩

theorem completed_of_trace {r : BackwardTrace S} {τ : TraceSession}
    (h : B.trace fuel place n p σ = .ok r τ) (hr : r.aborted = false) :
    ∃ q τ', B.analysis.run p fuel (B.start place n) σ = (.completed, q, τ') ∧ r.reached = q.reached ∧
      r.witness = τ'.witness := by
  rcases hrun : B.analysis.run p fuel (B.start place n) σ with ⟨o, q, τ'⟩
  rw [trace_eq hrun] at h
  cases o with
  | completed =>
    obtain ⟨rfl, _⟩ := EStateM.Result.ok.inj h
    exact ⟨q, τ', rfl, rfl, rfl⟩
  | aborted =>
    obtain ⟨rfl, _⟩ := EStateM.Result.ok.inj h
    cases hr
  | halted e => cases h

/-- The first trace in a new session, if it ends by itself, reaches exactly the states that backward steps lead to
from the initial ones, each of which has its backward steps; the witness graph holds exactly their sites, and the
sources of a site are, without repetition, the sites to which the steps of the reached states at that site lead. -/
theorem trace_eq_closure {signal : AbortSignal} {r : BackwardTrace S} {τ : TraceSession}
    (h : B.trace fuel place n p (.start signal) = .ok r τ) (hr : r.aborted = false) :
    (∀ t, t ∈ r.reached ↔ B.LeadsTo p place n t) ∧
      (∀ t ∈ r.reached, ∃ ts, (B.backtrace p t).result = .ok ts) ∧
      (∀ l, r.witness.contains l = true ↔ ∃ t ∈ r.reached, t.site = l) ∧
      ∀ l, (r.witness.sources l).Nodup ∧
        ∀ l', l' ∈ r.witness.sources l ↔ ∃ t ∈ r.reached, t.site = l ∧ ∃ u, B.StepsTo p t u ∧ u.site = l' := by
  obtain ⟨q, τ', hrun, hreached, hwitness⟩ := completed_of_trace h hr
  obtain ⟨hrec, hnone⟩ := recorded_completed hrun
  have hpassed : ∀ t, Passed q t ↔ t ∈ r.reached := by
    intro t
    rw [hreached]
    exact and_iff_left (hnone t)
  have hsteps : ∀ t u, t ∈ r.reached → B.StepsTo p t u → u ∈ r.reached := by
    intro t u ht hu
    obtain ⟨ts, hts, hclosed⟩ := hrec.closed t ((hpassed t).2 ht)
    rw [← hpassed]
    exact ⟨hclosed u ((stepsTo_iff hts).1 hu), hnone u⟩
  refine ⟨fun t => ⟨fun ht => hrec.sound t ((hpassed t).2 ht).1, ?_⟩, fun t ht => ?_, fun l => ?_, fun l => ?_⟩
  · rintro ⟨t₀, ht₀, hpath⟩
    induction hpath with
    | refl => exact (hpassed t₀).1 ⟨hrec.initial t₀ ht₀, hnone t₀⟩
    | tail _ hstep ih => exact hsteps _ _ ih hstep
  · obtain ⟨ts, hts, _⟩ := hrec.closed t ((hpassed t).2 ht)
    exact ⟨ts, hts⟩
  · rw [hwitness, hrec.contains l]
    constructor
    · rintro ⟨t, ht, hsite | ⟨u, hu, hsite⟩⟩
      · exact ⟨t, (hpassed t).1 ht, hsite⟩
      · exact ⟨u, hsteps t u ((hpassed t).1 ht) hu, hsite⟩
    · rintro ⟨t, ht, hsite⟩
      exact ⟨t, (hpassed t).2 ht, .inl hsite⟩
  · rw [hwitness]
    refine ⟨hrec.nodup l, fun l' => ?_⟩
    rw [hrec.sources l l']
    simp only [hpassed]

end Backtracer

/-- A result that may come around the loop of its callee or from the caller itself. -/
theorem Interpreter.trace_eq_closure_reentrant :
    ∃ r τ, reentrantTracer.trace 20 (.stack 0) 10 () (.start .never) = .ok r τ ∧ r.aborted = false ∧
      r.witness.sources ⟨.var 0, 6⟩ = [⟨.stack 0, 7⟩, ⟨.stack 0, 9⟩] ∧
      (∀ t, t ∈ r.reached ↔ reentrantTracer.LeadsTo () (.stack 0) 10 t) ∧
      (∀ l, r.witness.contains l = true ↔ ∃ t ∈ r.reached, t.site = l) ∧
      ∃ t u, reentrantTracer.LeadsTo () (.stack 0) 10 t ∧ t.site = ⟨.var 0, 6⟩ ∧
        reentrantTracer.StepsTo () t u ∧ u.site = ⟨.stack 0, 9⟩ := by
  have hcomputed : (match reentrantTracer.trace 20 (.stack 0) 10 () (.start .never) with
      | .ok r _ => some (r.aborted, r.witness.sources ⟨.var 0, 6⟩)
      | .error _ _ => none) = some (false, [⟨.stack 0, 7⟩, ⟨.stack 0, 9⟩]) := by
    decide +kernel
  cases htrace : reentrantTracer.trace 20 (.stack 0) 10 () (.start .never) with
  | error e τ =>
    rw [htrace] at hcomputed
    cases hcomputed
  | ok r τ =>
    rw [htrace] at hcomputed
    obtain ⟨haborted, hsources⟩ := Prod.mk.inj (Option.some.inj hcomputed)
    obtain ⟨hreached, _, hcontains, hedges⟩ := Backtracer.trace_eq_closure htrace haborted
    have hmem : ⟨.stack 0, 9⟩ ∈ r.witness.sources ⟨.var 0, 6⟩ := by simp [hsources]
    obtain ⟨t, ht, hsite, u, hstep, hsource⟩ := ((hedges _).2 _).1 hmem
    exact ⟨r, τ, rfl, haborted, hsources, hreached, hcontains, t, u, (hreached t).1 ht, hsite, hstep, hsource⟩

end BytecodeFlow
