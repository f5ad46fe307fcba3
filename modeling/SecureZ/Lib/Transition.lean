import Mathlib.Order.Basic

/-!
# Runs of a transition system

A system is a partial step function: `step s e = some s'` when event `e` can happen in
state `s` and leads to `s'`.  Events of several threads are simply interleaved in one
list, so a statement about every run is a statement about every interleaving.

Two rules turn what one step preserves into what a whole run preserves: the plain
invariant rule, and the rule for runs whose steps all meet a side condition.
-/

namespace Transition

universe u v

variable {σ : Type u} {ε : Type v}

/-- The state after a list of events, if each of them can happen in turn. -/
def run (step : σ → ε → Option σ) : σ → List ε → Option σ
  | s, [] => some s
  | s, e :: es => (step s e).bind (fun s' => run step s' es)

/-- Every step of the run meets the condition `ok` in the state before it. -/
def Guarded
    (step : σ → ε → Option σ)
    (ok : σ → ε → Prop) :
    σ → List ε → Prop
  | _, [] => True
  | s, e :: es =>
      ok s e ∧ ∀ s', step s e = some s' → Guarded step ok s' es

variable {step : σ → ε → Option σ}

/-- Whether a given run is guarded can be computed when the condition can. -/
instance decidableGuarded
    {ok : σ → ε → Prop}
    [∀ s e, Decidable (ok s e)] :
    ∀ s es, Decidable (Guarded step ok s es)
  | _, [] => isTrue trivial
  | s, e :: es =>
      match h : step s e with
      | none =>
          decidable_of_iff (ok s e) (by simp [Guarded, h])
      | some s' =>
          have : Decidable (Guarded step ok s' es) := decidableGuarded s' es
          decidable_of_iff (ok s e ∧ Guarded step ok s' es) (by simp [Guarded, h])

theorem run_cons_eq_some
    {s t : σ} {e : ε} {es : List ε} :
    run step s (e :: es) = some t
      ↔
    ∃ s', step s e = some s' ∧ run step s' es = some t := by
  simp [run, Option.bind_eq_some_iff]

/-- A condition on the events alone can be checked beforehand. -/
theorem guarded_of_forall_mem
    {ok : ε → Prop}
    {es : List ε}
    (h : ∀ e ∈ es, ok e)
    (s : σ) :
    Guarded step (fun _ e => ok e) s es := by
  induction es generalizing s with
  | nil =>
      trivial
  | cons e es ih =>
      rw [List.forall_mem_cons] at h
      exact ⟨h.1, fun s' _ => ih h.2 s'⟩

/-- A weaker condition guards the same runs. -/
theorem guarded_mono
    {ok ok' : σ → ε → Prop}
    (h : ∀ s e, ok s e → ok' s e)
    {s : σ} {es : List ε}
    (hguard : Guarded step ok s es) :
    Guarded step ok' s es := by
  induction es generalizing s with
  | nil =>
      trivial
  | cons e es ih =>
      exact ⟨h s e hguard.1, fun s' hs' => ih (hguard.2 s' hs')⟩

/-- What the condition says of an event alone holds of every event of a guarded run. -/
theorem forall_mem_of_guarded
    {ok : σ → ε → Prop} {P : ε → Prop}
    (h : ∀ s e, ok s e → P e)
    {s t : σ} {es : List ε}
    (hguard : Guarded step ok s es)
    (hrun : run step s es = some t) :
    ∀ e ∈ es, P e := by
  induction es generalizing s with
  | nil =>
      simp
  | cons e es ih =>
      obtain ⟨s', hs', hrun'⟩ := run_cons_eq_some.mp hrun
      rw [List.forall_mem_cons]
      exact ⟨h s e hguard.1, ih (hguard.2 s' hs') hrun'⟩

theorem run_append
    (s : σ) (es es' : List ε) :
    run step s (es ++ es') = (run step s es).bind (fun t => run step t es') := by
  induction es generalizing s with
  | nil =>
      rfl
  | cons e es ih =>
      cases hstep : step s e with
      | none => simp [run, hstep]
      | some s' => simp [run, hstep, ih]

/-- A run in two parts is guarded when both parts are. -/
theorem guarded_append_iff
    {ok : σ → ε → Prop}
    {s : σ} {es es' : List ε} :
    Guarded step ok s (es ++ es')
      ↔
    Guarded step ok s es ∧ ∀ t, run step s es = some t → Guarded step ok t es' := by
  induction es generalizing s with
  | nil =>
      simp [Guarded, run]
  | cons e es ih =>
      simp only [List.cons_append, Guarded, run_cons_eq_some, and_assoc]
      refine and_congr_right fun _ => ?_
      constructor
      · intro h
        refine ⟨fun s' hs' => (ih.mp (h s' hs')).1, ?_⟩
        rintro t ⟨s', hs', ht⟩
        exact (ih.mp (h s' hs')).2 t ht
      · rintro ⟨hfirst, hrest⟩ s' hs'
        exact ih.mpr ⟨hfirst s' hs', fun t ht => hrest t ⟨s', hs', ht⟩⟩

/-- What every guarded step preserves, every guarded run preserves. -/
theorem invariant_of_guarded
    {ok : σ → ε → Prop}
    {Inv : σ → Prop}
    (hstep : ∀ s e s', Inv s → ok s e → step s e = some s' → Inv s')
    {s t : σ} {es : List ε}
    (hinv : Inv s)
    (hguard : Guarded step ok s es)
    (hrun : run step s es = some t) :
    Inv t := by
  induction es generalizing s with
  | nil =>
      obtain rfl := Option.some.inj hrun
      exact hinv
  | cons e es ih =>
      obtain ⟨s', hs', hrun'⟩ := run_cons_eq_some.mp hrun
      exact ih (hstep s e s' hinv hguard.1 hs') (hguard.2 s' hs') hrun'

/-- What every step preserves, every run preserves. -/
theorem invariant_of_run
    {Inv : σ → Prop}
    (hstep : ∀ s e s', Inv s → step s e = some s' → Inv s')
    {s t : σ} {es : List ε}
    (hinv : Inv s)
    (hrun : run step s es = some t) :
    Inv t := by
  induction es generalizing s with
  | nil =>
      obtain rfl := Option.some.inj hrun
      exact hinv
  | cons e es ih =>
      obtain ⟨s', hs', hrun'⟩ := run_cons_eq_some.mp hrun
      exact ih (hstep s e s' hinv hs') hrun'

/--
The rule for the exact condition of a property of every state of a run.

When steps that meet the condition keep an invariant that implies the property, and a step
from the invariant that does not meet it breaks the property, then the property holds in every
state of a run exactly when every step of the run meets the condition.
-/
theorem always_iff_guarded
    {ok : σ → ε → Prop} {Inv Good : σ → Prop}
    (hgood : ∀ s, Inv s → Good s)
    (hkeep : ∀ s e s', Inv s → ok s e → step s e = some s' → Inv s')
    (hbreak : ∀ s e s', Inv s → ¬ ok s e → step s e = some s' → ¬ Good s')
    {s t : σ} {es : List ε}
    (hinv : Inv s)
    (hrun : run step s es = some t) :
    (∀ pre post u, es = pre ++ post → run step s pre = some u → Good u)
      ↔
    Guarded step ok s es := by
  constructor
  · intro hall
    induction es generalizing s with
    | nil =>
        trivial
    | cons e es ih =>
        obtain ⟨s', hs', hrun'⟩ := run_cons_eq_some.mp hrun
        have hok : ok s e := by
          by_contra hnot
          exact hbreak s e s' hinv hnot hs' (hall [e] es s' rfl (by simp [run, hs']))
        refine ⟨hok, fun u hu => ?_⟩
        obtain rfl : s' = u := Option.some.inj (hs'.symm.trans hu)
        refine ih (hkeep s e s' hinv hok hs') hrun' fun pre post u hsplit hpre => ?_
        exact hall (e :: pre) post u (by rw [hsplit, List.cons_append]) (by simp [run, hs', hpre])
  · rintro hguard pre post u rfl hpre
    exact hgood u (invariant_of_guarded hkeep hinv (guarded_append_iff.mp hguard).1 hpre)

end Transition
