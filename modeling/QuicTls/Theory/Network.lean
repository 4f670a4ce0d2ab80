import Mathlib.Data.List.Basic

/-!
# Two processes over FIFO channels

Two deterministic processes that exchange messages over two queues. Whatever order their steps are
taken in, a run that can end always ends in the same state, after the same number of steps: the
steps of the two sides commute. So it is enough to find one complete run, and this one can be put
together from what each side does alone: the messages it emits and the messages it absorbs.
-/

namespace QuicTls.Network

/-! ### Runs that commute -/

section

variable {α ι : Type*}

/-- A run of `n` steps, in any order of the actors. -/
inductive Steps (next : ι → α → Option α) : Nat → α → α → Prop
  | zero {s : α} : Steps next 0 s s
  | step {a : ι} {n : Nat} {s s' t : α} : next a s = some s' → Steps next n s' t →
    Steps next (n + 1) s t

/-- No actor can take a step. -/
def Stuck (next : ι → α → Option α) (s : α) : Prop := ∀ a, next a s = none

/-- Steps of different actors commute. -/
def Commute (next : ι → α → Option α) : Prop :=
  ∀ ⦃a b s s₁ s₂⦄, a ≠ b → next a s = some s₁ → next b s = some s₂ →
    ∃ t, next b s₁ = some t ∧ next a s₂ = some t

variable {next : ι → α → Option α} {m n : Nat} {s s' t : α}

theorem Steps.trans (h : Steps next m s s') (h' : Steps next n s' t) : Steps next (m + n) s t := by
  induction h with
  | zero => rwa [Nat.zero_add]
  | step hs _ ih =>
    rw [Nat.add_right_comm]
    exact .step hs (ih h')

theorem Stuck.eq_of_steps (hs : Stuck next s) (h : Steps next n s t) : s = t := by
  cases h with
  | zero => rfl
  | @step a _ _ _ _ ha _ => cases (hs a).symm.trans ha

/-- Any step brings a run that can end one step nearer to its end. -/
theorem Steps.residual (hc : Commute next) (ht : Stuck next t) (h : Steps next n s t) {a : ι}
    (hs : next a s = some s') : ∃ m, n = m + 1 ∧ Steps next m s' t := by
  induction h generalizing s' with
  | zero => cases hs.symm.trans (ht a)
  | @step b m s s₁ _ hb hrest ih =>
    refine ⟨m, rfl, ?_⟩
    by_cases hab : a = b
    · subst hab
      cases hs.symm.trans hb
      exact hrest
    · obtain ⟨u, hu, hu'⟩ := hc hab hs hb
      obtain ⟨k, rfl, hk⟩ := ih ht hu'
      exact .step hu hk

/-- The rule for systems whose steps commute: if one run ends, every run can be completed to the
same end, and has no more steps. -/
theorem Steps.complete (hc : Commute next) (ht : Stuck next t) (h : Steps next n s t)
    (h' : Steps next m s s') : m ≤ n ∧ Steps next (n - m) s' t := by
  induction h' generalizing n with
  | zero => exact ⟨Nat.zero_le n, h⟩
  | step hs _ ih =>
    obtain ⟨k, rfl, hk⟩ := h.residual hc ht hs
    obtain ⟨hle, hrest⟩ := ih hk
    rw [Nat.add_sub_add_right]
    exact ⟨Nat.succ_le_succ hle, hrest⟩

end

/-! ### Processes -/

variable {σ μ : Type*}

/-- What a process does next in a state. -/
inductive Action (σ μ : Type*) where
  | silent (s : σ)
  | send (m : μ) (s : σ)
  | receive (f : μ → σ)
  | halt

/-- The states that an action leads to. -/
def Action.Leads : Action σ μ → σ → Prop
  | .silent s, t | .send _ s, t => t = s
  | .receive f, t => ∃ m, t = f m
  | .halt, _ => False

/-- Two processes and the messages between them. -/
@[ext]
structure Net (σ μ : Type*) where
  left : σ
  right : σ
  toRight : List μ
  toLeft : List μ

def Net.swap (n : Net σ μ) : Net σ μ := ⟨n.right, n.left, n.toLeft, n.toRight⟩

/-- A step of the left process. -/
def Net.leftStep (act : σ → Action σ μ) (n : Net σ μ) : Option (Net σ μ) :=
  match act n.left with
  | .silent s => some { n with left := s }
  | .send m s => some { n with left := s, toRight := n.toRight ++ [m] }
  | .receive f =>
    match n.toLeft with
    | [] => none
    | m :: ms => some { n with left := f m, toLeft := ms }
  | .halt => none

/-- A step of one of the processes, the left one for `false`. -/
def Net.next (l r : σ → Action σ μ) : Bool → Net σ μ → Option (Net σ μ)
  | false, n => n.leftStep l
  | true, n => (n.swap.leftStep r).map Net.swap

variable {n' : Net σ μ}

/-- What a step of the left process does, whatever comes behind in the queue it reads from. -/
theorem Net.leftStep_append {act : σ → Action σ μ} {n : Net σ μ}
    (h : n.leftStep act = some n') (r : σ) (q ms : List μ) :
    ∃ ms', n'.right = n.right ∧ n'.toRight = n.toRight ++ ms' ∧
      { n with right := r, toRight := q, toLeft := n.toLeft ++ ms }.leftStep act
        = some { n' with right := r, toRight := q ++ ms', toLeft := n'.toLeft ++ ms } := by
  unfold leftStep at h ⊢
  dsimp only
  split at h
  · cases h
    exact ⟨[], rfl, by simp, by simp⟩
  · cases h
    exact ⟨[_], rfl, rfl, rfl⟩
  · split at h
    · cases h
    · rename_i hq
      cases h
      exact ⟨[], rfl, by simp, by simp [hq]⟩
  · cases h

/-- A step of the left process and one of the right process can be taken in both orders. -/
theorem Net.leftStep_comm {l r : σ → Action σ μ} {n n₁ n₂ : Net σ μ} (h₁ : n.leftStep l = some n₁)
    (h₂ : n.swap.leftStep r = some n₂.swap) :
    ∃ t : Net σ μ, n₁.swap.leftStep r = some t.swap ∧ n₂.leftStep l = some t := by
  obtain ⟨ms, hr, hq, -⟩ := leftStep_append h₁ n₂.right n₂.toRight []
  obtain ⟨ms', hl, hq', hright⟩ := leftStep_append h₂ n₁.left n₁.toLeft ms
  obtain ⟨ms₁, -, hms, hleft⟩ := leftStep_append h₁ n₂.right n₂.toRight ms'
  obtain rfl : ms = ms₁ := List.append_cancel_left (hq.symm.trans hms)
  refine ⟨⟨n₁.left, n₂.right, n₂.toRight ++ ms, n₁.toLeft ++ ms'⟩, ?_, ?_⟩
  · have hn : n₁.swap = ⟨n.right, n₁.left, n₁.toLeft, n.toRight ++ ms⟩ := by
      rw [swap, hr, hq]
    rw [hn]
    exact hright
  · have hn : n₂ = ⟨n.left, n₂.right, n₂.toRight, n.toLeft ++ ms'⟩ :=
      Net.ext hl rfl rfl hq'
    rw [hn]
    exact hleft

theorem Net.next_commute (l r : σ → Action σ μ) : Commute (Net.next l r) := by
  intro a b n n₁ n₂ hab h₁ h₂
  cases a with
  | false =>
    cases b with
    | false => exact absurd rfl hab
    | true =>
      obtain ⟨m₂, hm₂, rfl⟩ := Option.map_eq_some_iff.mp h₂
      obtain ⟨t, ht, ht'⟩ := @leftStep_comm _ _ l r n n₁ m₂.swap h₁ hm₂
      exact ⟨t, Option.map_eq_some_iff.mpr ⟨_, ht, rfl⟩, ht'⟩
  | true =>
    cases b with
    | true => exact absurd rfl hab
    | false =>
      obtain ⟨m₁, hm₁, rfl⟩ := Option.map_eq_some_iff.mp h₁
      obtain ⟨t, ht, ht'⟩ := @leftStep_comm _ _ l r n n₂ m₁.swap h₂ hm₁
      exact ⟨t, ht', Option.map_eq_some_iff.mpr ⟨_, ht, rfl⟩⟩

/-! ### What a process does alone -/

variable {act l r : σ → Action σ μ} {s s' t : σ} {m : μ} {ms ms' : List μ} {b : Bool}

/-- What the process does alone: it sends the messages if it `speaks`, receives them otherwise, and
is then in another state. -/
inductive Flight (act : σ → Action σ μ) : (speaks : Bool) → σ → List μ → σ → Prop
  | refl {b : Bool} (s : σ) : Flight act b s [] s
  | silent {b : Bool} {s s' t : σ} {ms : List μ} : act s = .silent s' → Flight act b s' ms t →
    Flight act b s ms t
  | send {s s' t : σ} {m : μ} {ms : List μ} : act s = .send m s' → Flight act true s' ms t →
    Flight act true s (m :: ms) t
  | receive {s t : σ} {f : μ → σ} {m : μ} {ms : List μ} : act s = .receive f →
    Flight act false (f m) ms t → Flight act false s (m :: ms) t

theorem Flight.trans (h : Flight act b s ms s') (h' : Flight act b s' ms' t) :
    Flight act b s (ms ++ ms') t := by
  induction h with
  | refl => exact h'
  | silent hs _ ih => exact .silent hs (ih h')
  | send hs _ ih => exact .send hs (ih h')
  | receive hs _ ih => exact .receive hs (ih h')

/-- Without messages it does not matter who speaks. -/
theorem Flight.quiet (h : Flight act b s [] s') (b' : Bool) : Flight act b' s [] s' := by
  generalize hms : ([] : List μ) = ms at h
  induction h with
  | refl => exact .refl _
  | silent hs _ ih => exact .silent hs (ih hms)
  | send | receive => cases hms

/-- The messages lead to a state in which `P` holds. -/
def Reaches (act : σ → Action σ μ) (speaks : Bool) (s : σ) (ms : List μ) (P : σ → Prop) : Prop :=
  ∃ s', Flight act speaks s ms s' ∧ P s'

variable {Q P : σ → Prop}

/-- From every state that the first messages lead to, the others follow. -/
theorem Reaches.followed (h : Reaches act b s ms P)
    (h' : ∀ s', P s' → Reaches act b s' ms' Q) : Reaches act b s (ms ++ ms') Q := by
  obtain ⟨s₁, hs, hP⟩ := h
  obtain ⟨t, ht, hQ⟩ := h' s₁ hP
  exact ⟨t, hs.trans ht, hQ⟩

/-- The left process sends while the right one waits. -/
theorem Flight.emitted (h : Flight l true s ms s') (x : σ) (q p : List μ) :
    ∃ k, Steps (Net.next l r) k ⟨s, x, q, p⟩ ⟨s', x, q ++ ms, p⟩ := by
  generalize hb : true = b at h
  induction h generalizing q with
  | refl =>
    rw [List.append_nil]
    exact ⟨0, .zero⟩
  | silent hs _ ih =>
    obtain ⟨k, hk⟩ := ih q hb
    exact ⟨k + 1, .step (by rw [Net.next, Net.leftStep, hs]) hk⟩
  | @send _ s₁ _ m ms hs _ ih =>
    obtain ⟨k, hk⟩ := ih (q ++ [m]) hb
    rw [List.append_assoc] at hk
    exact ⟨k + 1, .step (by rw [Net.next, Net.leftStep, hs]) hk⟩
  | receive => cases hb

/-- The left process receives what is in its queue. -/
theorem Flight.absorbed (h : Flight l false s ms s') (x : σ) (q p : List μ) :
    ∃ k, Steps (Net.next l r) k ⟨s, x, q, ms ++ p⟩ ⟨s', x, q, p⟩ := by
  generalize hb : false = b at h
  induction h with
  | refl => exact ⟨0, .zero⟩
  | silent hs _ ih =>
    obtain ⟨k, hk⟩ := ih hb
    exact ⟨k + 1, .step (by rw [Net.next, Net.leftStep, hs]) hk⟩
  | send => cases hb
  | receive hs _ ih =>
    obtain ⟨k, hk⟩ := ih hb
    exact ⟨k + 1, .step (by rw [Net.next, Net.leftStep, hs]; rfl) hk⟩

theorem Net.next_swap (a : Bool) (n : Net σ μ) :
    Net.next r l (!a) n.swap = (Net.next l r a n).map Net.swap := by
  cases a with
  | false => rfl
  | true =>
    simp only [Net.next, Bool.not_true]
    cases n.swap.leftStep r <;> rfl

variable {k : Nat}

theorem Steps.swap {n : Net σ μ} (h : Steps (Net.next l r) k n n') :
    Steps (Net.next r l) k n.swap n'.swap := by
  induction h with
  | zero => exact .zero
  | @step a _ _ _ _ hs _ ih => exact .step (by rw [Net.next_swap, hs]; rfl) ih

/-- The process takes its part in a dialogue, flight by flight, and `P` holds at its end. -/
def Plays (act : σ → Action σ μ) (P : σ → Prop) : (speaks : Bool) → σ → List (List μ) → Prop
  | _, s, [] => P s
  | b, s, ms :: flights => Reaches act b s ms fun t => Plays act P (!b) t flights

/-- Two processes that play the two parts of one dialogue bring it to its end. -/
theorem Plays.steps {flights : List (List μ)} {x y : σ}
    (hl : Plays l P true x flights) (hr : Plays r Q false y flights) :
    ∃ k x' y', Steps (Net.next l r) k ⟨x, y, [], []⟩ ⟨x', y', [], []⟩ ∧ P x' ∧ Q y' := by
  -- the parts change at every flight, so the two processes do too
  induction flights generalizing l r x y P Q with
  | nil => exact ⟨0, x, y, .zero, hl, hr⟩
  | cons ms flights ih =>
    obtain ⟨s, hemits, hl⟩ := hl
    obtain ⟨t, habsorbs, hr⟩ := hr
    obtain ⟨k₁, h₁⟩ := hemits.emitted y [] []
    obtain ⟨k₂, h₂⟩ := habsorbs.absorbed s [] []
    obtain ⟨k₃, y', x', h₃, hQ, hP⟩ := ih hr hl
    rw [List.append_nil] at h₂
    exact ⟨_, x', y', h₁.trans (h₂.swap.trans h₃.swap), hP, hQ⟩

theorem Net.leads_leftStep {n : Net σ μ} (h : n.leftStep act = some n') :
    (act n.left).Leads n'.left := by
  unfold leftStep at h
  split at h <;> rename_i ha <;> rw [ha]
  · cases h
    rfl
  · cases h
    rfl
  · split at h
    · cases h
    · cases h
      exact ⟨_, rfl⟩
  · cases h

/-- The rule for an invariant of the left process alone. -/
theorem Steps.left_invariant {n : Net σ μ} (I : σ → Prop)
    (hI : ∀ s t, (l s).Leads t → I s → I t) (h : Steps (Net.next l r) k n n')
    (hn : I n.left) : I n'.left := by
  induction h with
  | zero => exact hn
  | @step a k n n₁ t hs _ ih =>
    refine ih ?_
    cases a with
    | true =>
      obtain ⟨m, hm, rfl⟩ := Option.map_eq_some_iff.mp hs
      obtain ⟨-, hr, -⟩ := Net.leftStep_append hm n.left [] []
      exact (congrArg I hr).mpr hn
    | false => exact hI _ _ (Net.leads_leftStep hs) hn

/-- A process that has halted keeps its state. -/
theorem Steps.left_halt {n : Net σ μ} (h : Steps (Net.next l r) k n n')
    (hn : l n.left = .halt) : n'.left = n.left := by
  refine h.left_invariant (· = n.left) (fun s t ht heq => ?_) rfl
  rw [heq, hn] at ht
  exact ht.elim

theorem stuck_of_halt {n : Net σ μ} (hl : l n.left = .halt) (hr : r n.right = .halt) :
    Stuck (Net.next l r) n := by
  intro a
  cases a with
  | false => simp only [Net.next, Net.leftStep, hl]
  | true => simp only [Net.next, Net.leftStep, Net.swap, hr, Option.map_none]

/-- A process that waits for a message takes the first one of its queue. -/
theorem Net.next_receive {n : Net σ μ} {f : μ → σ} (hl : l n.left = .receive f)
    (hq : n.toLeft = m :: ms) :
    Net.next l r false n = some { n with left := f m, toLeft := ms } := by
  rw [Net.next, Net.leftStep, hl]
  rw [hq]

end QuicTls.Network
