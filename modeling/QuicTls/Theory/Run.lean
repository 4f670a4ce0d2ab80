import Mathlib.Data.List.Basic

/-!
# Runs of a step function

A system is a step function `σ → ε → σ × ω`: in a state it takes an event to the next state and an
output. `run` feeds it a list of events and keeps the log of events with their outputs.
`run_induction` is the invariant rule, for an invariant that may also speak of the log and of the
events still to come.
-/

namespace QuicTls.Run

open List

variable {σ ε ω : Type*} (step : σ → ε → σ × ω) {s : σ} {es : List ε}

/-- Feed the events in order, keeping each one with the output it produced. -/
def run : σ → List ε → σ × List (ε × ω)
  | s, [] => (s, [])
  | s, e :: es => ((run (step s e).1 es).1, (e, (step s e).2) :: (run (step s e).1 es).2)

@[simp] theorem run_nil (s : σ) : run step s [] = (s, []) := rfl

theorem run_cons (s : σ) (e : ε) (es : List ε) : run step s (e :: es) =
    ((run step (step s e).1 es).1, (e, (step s e).2) :: (run step (step s e).1 es).2) := rfl

theorem run_append (s : σ) (es es' : List ε) : run step s (es ++ es') =
    ((run step (run step s es).1 es').1,
      (run step s es).2 ++ (run step (run step s es).1 es').2) := by
  induction es generalizing s with
  | nil => rfl
  | cons e es ih => simp only [cons_append, run_cons, ih]

variable {step}

/-- Functions of states, events and outputs that commute with the step commute with runs. -/
theorem run_map {σ' ε' ω' : Type*} {step' : σ' → ε' → σ' × ω'} (f : σ → σ') (g : ε → ε')
    (k : ω → ω') (h : ∀ s e, step' (f s) (g e) = Prod.map f k (step s e)) (s : σ) (es : List ε) :
    run step' (f s) (es.map g) = Prod.map f (List.map (Prod.map g k)) (run step s es) := by
  induction es generalizing s with
  | nil => rfl
  | cons e es ih =>
    rw [map_cons, run_cons, h]
    simp only [Prod.map_fst, ih]
    rfl

/-- **Invariant rule.** An invariant of the state, the log so far and the events to come, kept by
each step, holds at every point of a run. -/
theorem run_induction (I : σ → List (ε × ω) → List ε → Prop)
    (hstep : ∀ s log e es, I s log (e :: es) → I (step s e).1 (log ++ [(e, (step s e).2)]) es)
    {pre post : List ε} (h : I s [] (pre ++ post)) :
    I (run step s pre).1 (run step s pre).2 post := by
  suffices H : ∀ log, I s log (pre ++ post) →
      I (run step s pre).1 (log ++ (run step s pre).2) post from H [] h
  clear h
  induction pre generalizing s with
  | nil => intro log h; simpa using h
  | cons e es ih =>
    intro log h
    have := ih (log ++ [(e, (step s e).2)]) (hstep _ _ _ _ h)
    simpa only [run_cons, append_assoc, singleton_append] using this

/-- The rule for an invariant of the state and the log, over events that satisfy `P`. -/
theorem run_invariant (I : σ → List (ε × ω) → Prop) (P : ε → Prop)
    (hstep : ∀ s log e, P e → I s log → I (step s e).1 (log ++ [(e, (step s e).2)]))
    (hP : ∀ e ∈ es, P e) (h : I s []) : I (run step s es).1 (run step s es).2 := by
  let J : σ → List (ε × ω) → List ε → Prop := fun s log rest => (∀ e ∈ rest, P e) ∧ I s log
  have hJ : ∀ s log e es, J s log (e :: es) → J (step s e).1 (log ++ [(e, (step s e).2)]) es := by
    intro s log e es ⟨hP, hI⟩
    exact ⟨fun e' he' => hP e' (mem_cons_of_mem _ he'), hstep s log e (hP e mem_cons_self) hI⟩
  have h0 : J s [] (es ++ []) := ⟨by simpa using hP, h⟩
  exact (run_induction J hJ h0).2

variable (step) in
/-- Every event of the run satisfies `P` in the state it comes to. -/
def Along (P : σ → ε → Prop) : σ → List ε → Prop
  | _, [] => True
  | s, e :: es => P s e ∧ Along P (step s e).1 es

instance Along.decidable (P : σ → ε → Prop) [∀ s e, Decidable (P s e)] (s : σ) (es : List ε) :
    Decidable (Along step P s es) :=
  match es with
  | [] => .isTrue trivial
  | _ :: es => @instDecidableAnd _ _ _ (Along.decidable P _ es)

theorem Along.left {P : σ → ε → Prop} {es' : List ε} (h : Along step P s (es ++ es')) :
    Along step P s es := by
  induction es generalizing s with
  | nil => trivial
  | cons e es ih => exact ⟨h.1, ih h.2⟩

theorem Along.and {P Q : σ → ε → Prop} (h : Along step P s es) (h' : Along step Q s es) :
    Along step (fun s e => P s e ∧ Q s e) s es := by
  induction es generalizing s with
  | nil => trivial
  | cons e es ih => exact ⟨⟨h.1, h'.1⟩, ih h.2 h'.2⟩

/-- What every output of a run satisfies. -/
theorem along_output {Q : ω → Prop} (h : ∀ x ∈ (run step s es).2, Q x.2) :
    Along step (fun s e => Q (step s e).2) s es := by
  induction es generalizing s with
  | nil => trivial
  | cons e es ih =>
    exact ⟨h (e, (step s e).2) mem_cons_self, ih fun x hx => h x (mem_cons_of_mem _ hx)⟩

/-- The rule for an invariant of the state and the log, over a run along which `P` holds. -/
theorem run_along (I : σ → List (ε × ω) → Prop) (P : σ → ε → Prop)
    (hstep : ∀ s log e, P s e → I s log → I (step s e).1 (log ++ [(e, (step s e).2)]))
    (hP : Along step P s es) (h : I s []) : I (run step s es).1 (run step s es).2 := by
  have hJ : ∀ s log e es, Along step P s (e :: es) ∧ I s log →
      Along step P (step s e).1 es ∧ I (step s e).1 (log ++ [(e, (step s e).2)]) :=
    fun s log e es ⟨hP, hI⟩ => ⟨hP.2, hstep s log e hP.1 hI⟩
  have h0 : Along step P s (es ++ []) ∧ I s [] := ⟨by rwa [append_nil], h⟩
  exact (run_induction (fun s log es => Along step P s es ∧ I s log) hJ h0).2

/-- **Simulation rule.** When each step of one system that satisfies `P` is followed by the other
one, with an output that satisfies `Q`, so is a run along which `P` holds. -/
theorem run_simulation {σ' ω' : Type*} {step' : σ' → ε → σ' × ω'} (R : σ → σ' → Prop)
    (P : σ → ε → Prop) (Q : ω' → Prop)
    (hstep : ∀ s s' e, R s s' → P s e → Q (step' s' e).2 ∧ R (step s e).1 (step' s' e).1) {s' : σ'}
    (hP : Along step P s es) (h : R s s') :
    (∀ x ∈ (run step' s' es).2, Q x.2) ∧ R (run step s es).1 (run step' s' es).1 := by
  induction es generalizing s s' with
  | nil => exact ⟨nofun, h⟩
  | cons e es ih =>
    obtain ⟨hout, hnext⟩ := hstep s s' e h hP.1
    obtain ⟨houts, hlast⟩ := ih hP.2 hnext
    exact ⟨forall_mem_cons.2 ⟨hout, houts⟩, hlast⟩

section Failing

variable {α : Type*} (fstep : σ → ε → Except α (σ × List ω))

/-- Feed the events in order until one fails, and collect the outputs. -/
def runUntil : σ → List ε → List ω
  | _, [] => []
  | s, e :: es =>
    match fstep s e with
    | .error _ => []
    | .ok (s', outs) => outs ++ runUntil s' es

variable {fstep}

theorem runUntil_error {e : ε} {a : α} (h : fstep s e = .error a) (es : List ε) :
    runUntil fstep s (e :: es) = [] := by
  rw [runUntil, h]

theorem runUntil_ok {s' : σ} {e : ε} {outs : List ω} (h : fstep s e = .ok (s', outs))
    (es : List ε) : runUntil fstep s (e :: es) = outs ++ runUntil fstep s' es := by
  rw [runUntil, h]

/-- **Rule for a counter.** If the outputs of every step are numbered by a counter of the state
that stays below a bound, so are the outputs of a run. -/
theorem runUntil_eq_map (I : σ → Prop) (count : σ → Nat) (bound : Nat) (f : Nat → ω)
    (hbound : ∀ s, I s → count s < bound)
    (hstep : ∀ s e s' outs, I s → fstep s e = .ok (s', outs) →
      I s' ∧ outs = (List.range' (count s) outs.length).map f ∧
        count s' = count s + outs.length) (h : I s) (es : List ε) :
    runUntil fstep s es = (List.range' (count s) (runUntil fstep s es).length).map f ∧
      count s + (runUntil fstep s es).length < bound := by
  induction es generalizing s with
  | nil => exact ⟨rfl, hbound s h⟩
  | cons e es ih =>
    cases he : fstep s e with
    | error a =>
      rw [runUntil_error he]
      exact ⟨rfl, hbound s h⟩
    | ok r =>
      obtain ⟨s', outs⟩ := r
      obtain ⟨hI, houts, hcount⟩ := hstep s e s' outs h he
      obtain ⟨hrest, hlt⟩ := ih hI
      rw [runUntil_ok he, length_append, ← range'_append_1, map_append, ← houts,
        ← hcount, ← hrest, ← Nat.add_assoc, ← hcount]
      exact ⟨rfl, hlt⟩

end Failing

end QuicTls.Run
