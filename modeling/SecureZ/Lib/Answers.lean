/-!
# What a component answers

A component that is called again and again: a call changes its state and gives an answer.
What its callers can tell of the state is the list of the answers to every list of calls.

Two states that are related by a relation that the calls keep, and under which they are
answered alike, cannot be told apart.  The rule is stated for two components, so that it also
compares a component with another that stands for it.
-/

namespace Transition

universe u v w x

variable {σ : Type u} {τ : Type v} {ε : Type w} {α : Type x}

/-- The state behind some calls. -/
def stateAfter (perform : ε → σ → α × σ) : σ → List ε → σ
  | s, [] => s
  | s, e :: es => stateAfter perform (perform e s).2 es

/-- The answers to some calls, one after the other. -/
def answers (perform : ε → σ → α × σ) : σ → List ε → List α
  | _, [] => []
  | s, e :: es => (perform e s).1 :: answers perform (perform e s).2 es

/-- Two components whose calls are answered alike in related states. -/
structure Matches
    (perform : ε → σ → α × σ) (perform' : ε → τ → α × τ) (Rel : σ → τ → Prop) (ok : ε → Prop) :
    Prop where
  answer : ∀ e s t, ok e → Rel s t → (perform e s).1 = (perform' e t).1
  after : ∀ e s t, ok e → Rel s t → Rel (perform e s).2 (perform' e t).2

variable {perform : ε → σ → α × σ} {perform' : ε → τ → α × τ} {Rel : σ → τ → Prop}
  {ok : ε → Prop}

/-- Related states give the same answers to every list of calls. -/
theorem answers_eq_of_matches
    (h : Matches perform perform' Rel ok)
    {s : σ} {t : τ} {es : List ε}
    (hok : ∀ e ∈ es, ok e)
    (hrel : Rel s t) :
    answers perform s es = answers perform' t es := by
  induction es generalizing s t with
  | nil =>
      rfl
  | cons e es ih =>
      rw [List.forall_mem_cons] at hok
      rw [answers, answers, h.answer e s t hok.1 hrel, ih hok.2 (h.after e s t hok.1 hrel)]

/-- Related states stay related. -/
theorem stateAfter_of_matches
    (h : Matches perform perform' Rel ok)
    {s : σ} {t : τ} {es : List ε}
    (hok : ∀ e ∈ es, ok e)
    (hrel : Rel s t) :
    Rel (stateAfter perform s es) (stateAfter perform' t es) := by
  induction es generalizing s t with
  | nil =>
      exact hrel
  | cons e es ih =>
      rw [List.forall_mem_cons] at hok
      exact ih hok.2 (h.after e s t hok.1 hrel)

end Transition
