import Mathlib.Data.List.Basic

/-!
# Totem.Lib.Run — runs of a step relation, and transactions

* `Run step s es s'`: the events `es` lead from `s` to `s'`.  `Run.invariant` is the induction
  every safety result below rests on; `Run.append_iff` and `Run.cons_iff` cut a run at an event,
  `Run.restrict_or` at the first step that fails a condition, and
  `Run.congr_of_invariant` compares two kinds of steps.
* `atomic body s`: `body` as one transaction.  An error leaves the state as it was, and only the
  transaction itself can keep a write.
-/

namespace Totem.Lib

/-! ## Runs -/

section Run

variable {σ ε : Type*} {step : σ → ε → σ → Prop}

/-- The events `es` lead from the first state to the last one. -/
inductive Run (step : σ → ε → σ → Prop) : σ → List ε → σ → Prop
  | nil (s : σ) : Run step s [] s
  | cons {s s₁ s' : σ} {e : ε} {es : List ε} :
      step s e s₁ → Run step s₁ es s' → Run step s (e :: es) s'

namespace Run

theorem nil_iff {s s' : σ} : Run step s [] s' ↔ s = s' := by
  constructor
  · rintro ⟨⟩
    rfl
  · rintro rfl
    exact .nil s

theorem cons_iff {s s' : σ} {e : ε} {es : List ε} :
    Run step s (e :: es) s' ↔ ∃ s₁, step s e s₁ ∧ Run step s₁ es s' := by
  constructor
  · rintro ⟨⟩
    exact ⟨_, ‹_›, ‹_›⟩
  · rintro ⟨s₁, h, hr⟩
    exact .cons h hr

theorem append_iff {s s' : σ} {es fs : List ε} :
    Run step s (es ++ fs) s' ↔ ∃ s₁, Run step s es s₁ ∧ Run step s₁ fs s' := by
  induction es generalizing s with
  | nil => simp [nil_iff]
  | cons e es ih =>
    simp only [List.cons_append, cons_iff, ih]
    constructor
    · rintro ⟨s₁, h, s₂, hr, hr'⟩
      exact ⟨s₂, ⟨s₁, h, hr⟩, hr'⟩
    · rintro ⟨s₂, ⟨s₁, h, hr⟩, hr'⟩
      exact ⟨s₁, h, s₂, hr, hr'⟩

theorem singleton_iff {s s' : σ} {e : ε} : Run step s [e] s' ↔ step s e s' := by
  simp [cons_iff, nil_iff]

/-- **Invariants**: what every step keeps, a run keeps. -/
theorem invariant {I : σ → Prop} (hI : ∀ s e s', I s → step s e s' → I s') {s s' : σ}
    {es : List ε} (hr : Run step s es s') (hs : I s) : I s' := by
  induction hr with
  | nil s => exact hs
  | cons h _ ih => exact ih (hI _ _ _ hs h)

/-- A step fact that needs the invariant holds of every event of a run. -/
theorem forall_mem {I : σ → Prop} {Q : ε → Prop} (hI : ∀ s e s', I s → step s e s' → I s')
    (hQ : ∀ s e s', I s → step s e s' → Q e) {s s' : σ} {es : List ε} (hr : Run step s es s')
    (hs : I s) : ∀ e ∈ es, Q e := by
  induction hr with
  | nil s => simp
  | cons h _ ih =>
    intro e he
    rcases List.mem_cons.mp he with rfl | he
    · exact hQ _ _ _ hs h
    · exact ih (hI _ _ _ hs h) e he

/-- A run all of whose steps satisfy `Q`, or its first step that does not. -/
theorem restrict_or {Q : σ → ε → Prop} {s s' : σ} {es : List ε} (hr : Run step s es s') :
    Run (fun s e s' => step s e s' ∧ Q s e) s es s' ∨
      ∃ es₁ e es₂ s₁ s₂, es = es₁ ++ e :: es₂ ∧ Run (fun s e s' => step s e s' ∧ Q s e) s es₁ s₁ ∧
        step s₁ e s₂ ∧ ¬ Q s₁ e ∧ Run step s₂ es₂ s' := by
  induction hr with
  | nil s => exact .inl (.nil s)
  | @cons s s₁ s' e es h hr ih =>
    by_cases hQ : Q s e
    · rcases ih with ih | ⟨es₁, f, es₂, t₁, t₂, rfl, hr₁, hst, hf, hr₂⟩
      · exact .inl (.cons ⟨h, hQ⟩ ih)
      · exact .inr ⟨e :: es₁, f, es₂, t₁, t₂, rfl, .cons ⟨h, hQ⟩ hr₁, hst, hf, hr₂⟩
    · exact .inr ⟨[], e, es, s, s₁, rfl, .nil s, h, hQ, hr⟩

/-- A run of steps is a run of any steps they imply. -/
theorem mono {step' : σ → ε → σ → Prop} (h : ∀ s e s', step s e s' → step' s e s') {s s' : σ}
    {es : List ε} (hr : Run step s es s') : Run step' s es s' := by
  induction hr with
  | nil s => exact .nil s
  | cons hs _ ih => exact .cons (h _ _ _ hs) ih

/-- Steps that are the same under an invariant make the same runs. -/
theorem congr_of_invariant {step' : σ → ε → σ → Prop} {I : σ → Prop}
    (h : ∀ s e s', I s → (step s e s' ↔ step' s e s')) (hI : ∀ s e s', I s → step s e s' → I s') {s s' : σ}
    {es : List ε} (hs : I s) : Run step s es s' ↔ Run step' s es s' := by
  induction es generalizing s with
  | nil => rw [nil_iff, nil_iff]
  | cons e es ih =>
    rw [cons_iff, cons_iff]
    refine exists_congr fun s₁ => ?_
    rw [← h s e s₁ hs]
    exact and_congr_right fun hstep => ih (hI s e s₁ hs hstep)

/-- Deterministic steps make deterministic runs. -/
theorem deterministic (hstep : ∀ s e s₁ s₂, step s e s₁ → step s e s₂ → s₁ = s₂) {s s₁ s₂ : σ} {es : List ε}
    (h₁ : Run step s es s₁) (h₂ : Run step s es s₂) : s₁ = s₂ := by
  induction h₁ with
  | nil s => exact nil_iff.1 h₂
  | cons h _ ih =>
    obtain ⟨s', h', hr⟩ := cons_iff.1 h₂
    rw [hstep _ _ _ _ h h'] at ih
    exact ih hr

/-- The steps of a function are replayed by folding it over the events. -/
theorem of_foldlM {f : σ → ε → Option σ} {s s' : σ} {es : List ε} (h : es.foldlM f s = some s') :
    Run (fun s e s' => f s e = some s') s es s' := by
  induction es generalizing s with
  | nil =>
    obtain rfl : s = s' := by simpa using h
    exact .nil s
  | cons e es ih =>
    rw [List.foldlM_cons] at h
    obtain ⟨s₁, h₁, h⟩ := Option.bind_eq_some_iff.mp h
    exact .cons h₁ (ih h)

end Run

end Run

/-! ## Transactions -/

section Atomic

variable {σ α ε : Type*}

/-- `with transaction.atomic()`: what `body` wrote is kept when it returns and rolled back when it
raises. -/
def atomic (body : σ → Except ε (α × σ)) (s : σ) : Except ε α × σ :=
  match body s with
  | .ok (a, s') => (.ok a, s')
  | .error e => (.error e, s)

theorem atomic_ok {body : σ → Except ε (α × σ)} {s s' : σ} {a : α} (h : body s = .ok (a, s')) :
    atomic body s = (.ok a, s') := by
  simp [atomic, h]

theorem atomic_error {body : σ → Except ε (α × σ)} {s : σ} {e : ε} (h : body s = .error e) :
    atomic body s = (.error e, s) := by
  simp [atomic, h]

/-- A transaction that raises leaves the state as it was. -/
theorem atomic_snd_of_error {body : σ → Except ε (α × σ)} {s : σ} {e : ε}
    (h : (atomic body s).1 = .error e) : (atomic body s).2 = s := by
  unfold atomic at h ⊢
  cases hb : body s with
  | error e' => rfl
  | ok r => simp [hb] at h

end Atomic

end Totem.Lib
