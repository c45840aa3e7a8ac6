import Mathlib.Data.List.Basic

/-!
# Totem.Lib.Execution — executions that log events and may raise

An execution ends in a state, with or without an exception, and logs events on its way.  The
combinators are those of a language with exceptions: sequence, `try ... except`, `try ... finally` and
a block whose exit runs however the body ends.

* `Meets P Q`: the execution ends in a state of `P`, with or without an exception, and everything it
  logs is in `Q`.  There is one rule for each combinator.
-/

namespace Totem.Lib

variable {σ ε ω : Type*}

/-- How a program ended, and what it logged. -/
structure Execution (σ ε ω : Type*) where
  state : σ
  raised : Option ε
  events : List ω

namespace Execution

/-- Nothing happened. -/
def done (s : σ) : Execution σ ε ω := ⟨s, none, []⟩

/-- Raise, and change nothing. -/
def raise (s : σ) (e : ε) : Execution σ ε ω := ⟨s, some e, []⟩

/-- Log one event. -/
def logging (w : ω) (r : Execution σ ε ω) : Execution σ ε ω := { r with events := w :: r.events }

/-- Go on from where `r` ended, whatever it raised. -/
def followedBy (r : Execution σ ε ω) (k : σ → Execution σ ε ω) : Execution σ ε ω :=
  let t := k r.state
  ⟨t.state, t.raised, r.events ++ t.events⟩

/-- A sequence: what is raised skips the rest. -/
def andThen (r : Execution σ ε ω) (k : σ → Execution σ ε ω) : Execution σ ε ω :=
  match r.raised with
  | some _ => r
  | none => r.followedBy k

/-- `try ... except`, for the exceptions that `catches` accepts. -/
def handledBy (r : Execution σ ε ω) (catches : ε → Bool) (k : σ → Execution σ ε ω) : Execution σ ε ω :=
  match r.raised with
  | some e => if catches e then r.followedBy k else r
  | none => r

/-- The exit of a `with` block, told how the body ended: what it raises replaces what the body raised. -/
def exitedBy (r : Execution σ ε ω) (exit : Option ε → σ → Execution σ ε ω) : Execution σ ε ω :=
  let t := r.followedBy (exit r.raised)
  { t with raised := t.raised.or r.raised }

/-- `try ... finally`. -/
def cleanedBy (r : Execution σ ε ω) (k : σ → Execution σ ε ω) : Execution σ ε ω := r.exitedBy fun _ => k

/-- The same, with other names for the events. -/
def mapEvents {ω' : Type*} (f : ω → ω') (r : Execution σ ε ω) : Execution σ ε ω' := ⟨r.state, r.raised, r.events.map f⟩

/-- The end state is in `P`, all the events are in `Q`. -/
structure Meets (r : Execution σ ε ω) (P : σ → Prop) (Q : ω → Prop) : Prop where
  state : P r.state
  events : ∀ w ∈ r.events, Q w

variable {r : Execution σ ε ω} {k : σ → Execution σ ε ω} {P P' : σ → Prop} {Q : ω → Prop}

theorem Meets.mono (h : r.Meets P Q) (hP : ∀ s, P s → P' s) : r.Meets P' Q :=
  ⟨hP _ h.state, h.events⟩

theorem meets_done {s : σ} (h : P s) : (done s : Execution σ ε ω).Meets P Q :=
  ⟨h, fun _ hw => absurd hw List.not_mem_nil⟩

theorem meets_raise {s : σ} {e : ε} (h : P s) : (raise s e : Execution σ ε ω).Meets P Q :=
  ⟨h, fun _ hw => absurd hw List.not_mem_nil⟩

theorem meets_single {s : σ} {raised : Option ε} {w : ω} (h : P s) (hw : Q w) :
    (⟨s, raised, [w]⟩ : Execution σ ε ω).Meets P Q :=
  ⟨h, fun _ hv => List.mem_singleton.mp hv ▸ hw⟩

theorem Meets.logging (h : r.Meets P Q) {w : ω} (hw : Q w) : (r.logging w).Meets P Q := by
  refine ⟨h.state, fun v hv => ?_⟩
  rcases List.mem_cons.mp hv with rfl | hv
  · exact hw
  · exact h.events v hv

theorem Meets.followedBy (h : r.Meets P Q) (hk : ∀ s, P s → (k s).Meets P' Q) :
    (r.followedBy k).Meets P' Q := by
  have hnext := hk r.state h.state
  refine ⟨hnext.state, fun w hw => ?_⟩
  rcases List.mem_append.mp hw with hw | hw
  · exact h.events w hw
  · exact hnext.events w hw

theorem Meets.andThen (h : r.Meets P Q) (hk : ∀ s, P s → (k s).Meets P Q) : (r.andThen k).Meets P Q := by
  unfold Execution.andThen
  split
  · exact h
  · exact h.followedBy hk

theorem Meets.handledBy (h : r.Meets P Q) (catches : ε → Bool) (hk : ∀ s, P s → (k s).Meets P Q) :
    (r.handledBy catches k).Meets P Q := by
  unfold Execution.handledBy
  split
  · split_ifs
    · exact h.followedBy hk
    · exact h
  · exact h

theorem Meets.exitedBy (h : r.Meets P Q) {exit : Option ε → σ → Execution σ ε ω}
    (hexit : ∀ raised s, P s → (exit raised s).Meets P' Q) : (r.exitedBy exit).Meets P' Q :=
  ⟨(h.followedBy (hexit r.raised)).state, (h.followedBy (hexit r.raised)).events⟩

theorem Meets.mapEvents {ω' : Type*} {Q' : ω' → Prop} {f : ω → ω'} (h : r.Meets P Q) (hf : ∀ w, Q w → Q' (f w)) :
    (r.mapEvents f).Meets P Q' := by
  refine ⟨h.state, fun w hw => ?_⟩
  obtain ⟨v, hv, rfl⟩ := List.mem_map.mp hw
  exact hf v (h.events v hv)

theorem Meets.cleanedBy (h : r.Meets P Q) (hk : ∀ s, P s → (k s).Meets P' Q) : (r.cleanedBy k).Meets P' Q :=
  h.exitedBy fun _ => hk

end Execution

end Totem.Lib
