import BytecodeFlow.Summary.Analysis
import Mathlib.Data.List.Forall2

/-! # Computations with a state

What a computation keeps true of its state, whether or not it gives a result, and what is known of its
result. Facts about results may refer to the state as long as they remain true while it grows.
-/
namespace BytecodeFlow

theorem exists_of_forall₂ {α β : Type} {R : α → β → Prop} {l : List α} {k : List β}
    (h : List.Forall₂ R l k) {a : α} (ha : a ∈ l) : ∃ b ∈ k, R a b := by
  induction h with
  | nil => simp at ha
  | cons hab _ ih =>
    rcases List.mem_cons.1 ha with rfl | ha
    · exact ⟨_, List.mem_cons_self, hab⟩
    · obtain ⟨b, hb, hr⟩ := ih ha
      exact ⟨b, List.mem_cons_of_mem _ hb, hr⟩

theorem exists_of_forall₂_right {α β : Type} {R : α → β → Prop} {l : List α} {k : List β}
    (h : List.Forall₂ R l k) {b : β} (hb : b ∈ k) : ∃ a ∈ l, R a b :=
  exists_of_forall₂ (R := fun b a => R a b) (List.Forall₂.flip h) hb

theorem map_eq_ok {ε α β : Type} {f : α → β} {r : Except ε α} {b : β} :
    r.map f = .ok b ↔ ∃ a, r = .ok a ∧ f a = b := by
  cases r <;> simp [Except.map]

theorem bind_eq_ok {ε α β : Type} {f : α → Except ε β} {r : Except ε α} {b : β} :
    r.bind f = .ok b ↔ ∃ a, r = .ok a ∧ f a = .ok b := by
  cases r <;> simp [Except.bind]

theorem map_eq_error {ε α β : Type} {f : α → β} {r : Except ε α} {e : ε} :
    r.map f = .error e ↔ r = .error e := by
  cases r <;> simp [Except.map]

theorem map_injective {ε α β : Type} {f : α → β} (hf : Function.Injective f) :
    Function.Injective (Except.map f : Except ε α → Except ε β) := by
  intro r r' h
  cases r' with
  | error e => exact map_eq_error.1 h
  | ok a =>
    obtain ⟨a', rfl, ha⟩ := map_eq_ok.1 h
    rw [hf ha]

theorem mapM_eq_ok {ε α β : Type} {f : α → Except ε β} {l : List α} {bs : List β} :
    l.mapM f = .ok bs ↔ List.Forall₂ (fun a b => f a = .ok b) l bs := by
  induction l generalizing bs with
  | nil => simp [pure, Except.pure, eq_comm]
  | cons a l ih =>
    rw [List.mapM_cons, List.forall₂_cons_left_iff]
    cases ha : f a with
    | error e => simp [bind, Except.bind]
    | ok b =>
      cases hl : l.mapM f with
      | error e =>
        have hnone : ∀ u, ¬ List.Forall₂ (fun a b => f a = .ok b) l u := by
          intro u hu
          rw [← ih, hl] at hu
          cases hu
        simp [bind, Except.bind, hnone]
      | ok cs =>
        rw [show (Except.ok b >>= fun b => Except.ok cs >>= fun cs => pure (b :: cs)) =
          (Except.ok (b :: cs) : Except ε (List β)) from rfl, Except.ok.injEq]
        constructor
        · rintro rfl
          exact ⟨b, cs, rfl, ih.1 hl, rfl⟩
        · rintro ⟨b', u, hb, hu, rfl⟩
          cases hb
          rw [← ih, hl] at hu
          cases hu
          rfl

theorem exists_mapM_ok {ε α β : Type} {f : α → Except ε β} {l : List α} (h : ∀ a ∈ l, ∃ b, f a = .ok b) :
    ∃ bs, l.mapM f = .ok bs := by
  induction l with
  | nil => exact ⟨[], rfl⟩
  | cons a l ih =>
    obtain ⟨b, hb⟩ := h a (by simp)
    obtain ⟨bs, hbs⟩ := ih fun a ha => h a (by simp [ha])
    exact ⟨b :: bs, mapM_eq_ok.2 (.cons hb (mapM_eq_ok.1 hbs))⟩

namespace Effect

variable {σ α β : Type}

theorem bind_eq (c : Effect σ α) (f : α → Effect σ β) (s : σ) :
    (c >>= f) s = match c s with
      | .ok a t => f a t
      | .error h t => .error h t := by
  change EStateM.bind c f s = _
  unfold EStateM.bind
  cases c s <;> rfl

@[simp] theorem ofExcept_ok (a : α) (s : σ) : (ofExcept (.ok a) : Effect σ α) s = .ok a s := rfl

theorem mapM_ofExcept (f : α → Except Fault β) (l : List α) :
    (l.mapM fun a => (ofExcept (f a) : Effect σ β)) = ofExcept (l.mapM f) := by
  induction l with
  | nil => rfl
  | cons a l ih =>
    rw [List.mapM_cons, List.mapM_cons, ih]
    cases f a with
    | error e => rfl
    | ok b => cases l.mapM f <;> rfl

/-- The results of a list of computations are those of its elements, one by one. -/
theorem forall₂_of_mapM_ok {f : α → Effect σ β} {l : List α} {bs : List β} {s t : σ}
    (h : l.mapM f s = .ok bs t) : List.Forall₂ (fun a b => ∃ u v, f a u = .ok b v) l bs := by
  induction l generalizing bs s t with
  | nil =>
    obtain ⟨rfl, -⟩ := EStateM.Result.ok.inj h
    exact .nil
  | cons a l ih =>
    rw [List.mapM_cons, bind_eq] at h
    cases ha : f a s with
    | error e u => simp [ha] at h
    | ok b u =>
      simp only [ha, bind_eq] at h
      cases hl : l.mapM f u with
      | error e v => simp [hl] at h
      | ok bs' v =>
        rw [hl] at h
        obtain ⟨rfl, -⟩ := EStateM.Result.ok.inj h
        exact .cons ⟨s, u, ha⟩ (ih hl)

/-- The state in which a computation ends, with or without a result. -/
def final (c : Effect σ α) (s : σ) : σ :=
  match c s with
  | .ok _ t => t
  | .error _ t => t

/-- From `s` this leads along `ext` to a state with `I`, where a result satisfies `Q`. -/
abbrev Leads (I : σ → Prop) (ext : σ → σ → Prop) (Q : σ → α → Prop) (s : σ) :
    EStateM.Result Halt σ α → Prop
  | .ok a t => I t ∧ ext s t ∧ Q t a
  | .error _ t => I t ∧ ext s t

/-- From every state with `I` the computation leads along `ext` to a state with `I`, and its result
satisfies `Q` there. -/
def Keeps (I : σ → Prop) (ext : σ → σ → Prop) (Q : σ → α → Prop) (c : Effect σ α) : Prop :=
  ∀ s, I s → Leads I ext Q s (c s)

variable {I : σ → Prop} {ext : σ → σ → Prop}

theorem Keeps.ok {Q : σ → α → Prop} {c : Effect σ α} (h : Keeps I ext Q c) {s t : σ} {a : α}
    (hs : I s) (hc : c s = .ok a t) : I t ∧ ext s t ∧ Q t a := by
  have hmatch := h s hs
  rw [hc] at hmatch
  exact hmatch

theorem Keeps.error {Q : σ → α → Prop} {c : Effect σ α} (h : Keeps I ext Q c) {s t : σ} {e : Halt}
    (hs : I s) (hc : c s = .error e t) : I t ∧ ext s t := by
  have hmatch := h s hs
  rw [hc] at hmatch
  exact hmatch

theorem Leads.trans {Q : σ → α → Prop} {s t : σ} {r : EStateM.Result Halt σ α}
    (htrans : ∀ {s t u}, ext s t → ext t u → ext s u) (hst : ext s t) (h : Leads I ext Q t r) :
    Leads I ext Q s r := by
  cases r with
  | ok a u => exact ⟨h.1, htrans hst h.2.1, h.2.2⟩
  | error e u => exact ⟨h.1, htrans hst h.2⟩

theorem Keeps.final {Q : σ → α → Prop} {c : Effect σ α} (h : Keeps I ext Q c) {s : σ} (hs : I s) :
    I (c.final s) ∧ ext s (c.final s) := by
  unfold Effect.final
  cases hc : c s with
  | ok a t => exact ⟨(h.ok hs hc).1, (h.ok hs hc).2.1⟩
  | error e t => exact h.error hs hc

theorem Keeps.map {Q : σ → α → Prop} {R : σ → β → Prop} {c : Effect σ α} {f : α → β}
    (h : Keeps I ext Q c) (hQR : ∀ t a, Q t a → R t (f a)) :
    Keeps I ext R (c >>= fun a => pure (f a)) := by
  intro s hs
  rw [bind_eq]
  cases hc : c s with
  | error e t => exact h.error hs hc
  | ok a t =>
    obtain ⟨ht, hst, ha⟩ := h.ok hs hc
    exact ⟨ht, hst, hQR t a ha⟩

/-- Computations for the elements of a list, one after the other. -/
theorem Keeps.mapM {Q : σ → α → β → Prop} {f : α → Effect σ β} {l : List α}
    (hrefl : ∀ s, ext s s) (htrans : ∀ {s t u}, ext s t → ext t u → ext s u)
    (hmono : ∀ {s t a b}, ext s t → Q s a b → Q t a b)
    (hf : ∀ a ∈ l, Keeps I ext (Q · a) (f a)) :
    Keeps I ext (fun t bs => List.Forall₂ (Q t) l bs) (l.mapM f) := by
  induction l with
  | nil => exact fun s hs => ⟨hs, hrefl s, .nil⟩
  | cons a l ih =>
    intro s hs
    rw [List.mapM_cons, bind_eq]
    cases ha : f a s with
    | error e t => exact (hf a (by simp)).error hs ha
    | ok b t =>
      obtain ⟨ht, hst, hb⟩ := (hf a (by simp)).ok hs ha
      have hrest := ih (fun a ha => hf a (by simp [ha]))
      simp only [bind_eq]
      cases hl : l.mapM f t with
      | error e u =>
        obtain ⟨hu, htu⟩ := hrest.error ht hl
        exact ⟨hu, htrans hst htu⟩
      | ok bs u =>
        obtain ⟨hu, htu, hbs⟩ := hrest.ok ht hl
        exact ⟨hu, htrans hst htu, .cons (hmono htu hb) hbs⟩

end Effect

end BytecodeFlow
