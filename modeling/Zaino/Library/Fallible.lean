/-!
# Fallible computations over a state that survives failure

A computation reads and writes a state and may fail; what it wrote before failing stays. This is
the meaning of code that mutates in place and propagates errors. `Returns` and `Fails` read a
computation as a relation between the state before and the state after; their equations for the
monad's operations split a whole run into its steps.
-/

namespace Library

/-- A computation over the state `σ` that fails with `ε` or returns an `α`. -/
def Fallible (σ ε α : Type) : Type := σ → Except ε α × σ

namespace Fallible

variable {σ ε α β : Type}

/-- The outcome and the state left behind. -/
def run (m : Fallible σ ε α) (s : σ) : Except ε α × σ := m s

instance : Monad (Fallible σ ε) where
  pure a := fun s => (.ok a, s)
  bind m f := fun s =>
    match m s with
    | (.ok a, s') => f a s'
    | (.error e, s') => (.error e, s')

/-- Fail, keeping the state. -/
def fail (e : ε) : Fallible σ ε α := fun s => (.error e, s)

/-- Read the state. -/
def get : Fallible σ ε σ := fun s => (.ok s, s)

/-- Update the state. -/
def modify (f : σ → σ) : Fallible σ ε Unit := fun s => (.ok (), f s)

/-- The outcome of a fallible pure step. -/
def ofExcept : Except ε α → Fallible σ ε α
  | .ok a => pure a
  | .error e => fail e

/-- The computation returns `a` from `s` and leaves `s'`. -/
def Returns (m : Fallible σ ε α) (s : σ) (a : α) (s' : σ) : Prop := m.run s = (.ok a, s')

/-- The computation fails with `e` from `s` and leaves `s'`. -/
def Fails (m : Fallible σ ε α) (s : σ) (e : ε) (s' : σ) : Prop := m.run s = (.error e, s')

variable {m : Fallible σ ε α} {s s' s'' : σ} {a : α} {e : ε}

theorem Returns.det {a' : α} (first : m.Returns s a s')
    (second : m.Returns s a' s'') : a = a' ∧ s' = s'' := by
  unfold Returns at first second
  rw [first] at second
  cases second
  exact ⟨rfl, rfl⟩

theorem returns_of_ok (ok : (m.run s).1 = .ok a) : m.Returns s a (m.run s).2 :=
  Prod.ext ok rfl

theorem fails_of_error (error : (m.run s).1 = .error e) : m.Fails s e (m.run s).2 :=
  Prod.ext error rfl

@[simp]
theorem returns_pure {b : α} : (pure a : Fallible σ ε α).Returns s b s' ↔ a = b ∧ s = s' := by
  constructor
  · intro returned
    cases returned
    exact ⟨rfl, rfl⟩
  · rintro ⟨rfl, rfl⟩
    rfl

variable {f : α → Fallible σ ε β}

@[simp]
theorem returns_bind {b : β} :
    (m >>= f).Returns s b s'' ↔ ∃ a s', m.Returns s a s' ∧ (f a).Returns s' b s'' := by
  constructor
  · intro returned
    change (match m s with
      | (.ok a, s') => f a s'
      | (.error e, s') => (.error e, s')) = (.ok b, s'') at returned
    cases outcome : m s with
    | mk result s' =>
      rw [outcome] at returned
      cases result with
      | ok a => exact ⟨a, s', outcome, returned⟩
      | error e => cases returned
  · rintro ⟨a, s', first, second⟩
    change (match m s with
      | (.ok a, s') => f a s'
      | (.error e, s') => (.error e, s')) = (.ok b, s'')
    rw [show m s = (.ok a, s') from first]
    exact second

theorem Returns.bind {b : β} (first : m.Returns s a s')
    (second : (f a).Returns s' b s'') : (m >>= f).Returns s b s'' :=
  returns_bind.mpr ⟨a, s', first, second⟩

@[simp]
theorem returns_fail : (fail e : Fallible σ ε α).Returns s a s' ↔ False := by
  constructor
  · intro returned
    cases returned
  · exact False.elim

@[simp]
theorem returns_get : (get : Fallible σ ε σ).Returns s s' s'' ↔ s = s' ∧ s = s'' := by
  constructor
  · intro returned
    cases returned
    exact ⟨rfl, rfl⟩
  · rintro ⟨rfl, rfl⟩
    rfl

@[simp]
theorem returns_modify {f : σ → σ} {u : Unit} :
    (modify f : Fallible σ ε Unit).Returns s u s' ↔ f s = s' := by
  constructor
  · intro returned
    cases returned
    rfl
  · rintro rfl
    rfl

@[simp]
theorem returns_ofExcept {outcome : Except ε α} :
    (ofExcept outcome : Fallible σ ε α).Returns s a s' ↔ outcome = .ok a ∧ s = s' := by
  cases outcome with
  | ok b =>
    refine returns_pure.trans ⟨?_, ?_⟩
    · rintro ⟨rfl, rfl⟩
      exact ⟨rfl, rfl⟩
    · rintro ⟨same, rfl⟩
      cases same
      exact ⟨rfl, rfl⟩
  | error e =>
    refine returns_fail.trans ⟨False.elim, ?_⟩
    rintro ⟨absurd, _⟩
    cases absurd

theorem Returns.ofExcept {outcome : Except ε α} (ok : outcome = .ok a) :
    (ofExcept outcome : Fallible σ ε α).Returns s a s :=
  returns_ofExcept.mpr ⟨ok, rfl⟩

/-! ## Postconditions -/

/-- From `s` the computation either returns and establishes `ok`, or fails and establishes
`error`. -/
def Ensures (m : Fallible σ ε α) (s : σ) (ok : α → σ → Prop) (error : ε → σ → Prop) : Prop :=
  match m.run s with
  | (.ok a, s') => ok a s'
  | (.error e, s') => error e s'

section

variable {ok : α → σ → Prop} {error : ε → σ → Prop}

variable {m : Fallible σ ε α} {s s' : σ} {a : α} {e : ε}

theorem Returns.ensured (returned : m.Returns s a s')
    (ensures : m.Ensures s ok error) : ok a s' := by
  unfold Ensures at ensures
  rw [returned] at ensures
  exact ensures

theorem Fails.ensured (failed : m.Fails s e s') (ensures : m.Ensures s ok error) : error e s' := by
  unfold Ensures at ensures
  rw [failed] at ensures
  exact ensures

theorem Ensures.mono {ok' : α → σ → Prop} {error' : ε → σ → Prop} (ensures : m.Ensures s ok error)
    (on_ok : ∀ a s', ok a s' → ok' a s')
    (on_error : ∀ e s', error e s' → error' e s') : m.Ensures s ok' error' := by
  unfold Ensures at ensures ⊢
  split at ensures
  · exact on_ok _ _ ensures
  · exact on_error _ _ ensures

@[simp]
theorem ensures_pure : (pure a : Fallible σ ε α).Ensures s ok error ↔ ok a s :=
  Iff.rfl

@[simp]
theorem ensures_fail : (fail e : Fallible σ ε α).Ensures s ok error ↔ error e s :=
  Iff.rfl

@[simp]
theorem ensures_get {ok : σ → σ → Prop} : (get : Fallible σ ε σ).Ensures s ok error ↔ ok s s :=
  Iff.rfl

@[simp]
theorem ensures_modify {ok : Unit → σ → Prop} {f : σ → σ} :
    (modify f : Fallible σ ε Unit).Ensures s ok error ↔ ok () (f s) :=
  Iff.rfl

@[simp]
theorem ensures_bind {ok : β → σ → Prop} {f : α → Fallible σ ε β} : (m >>= f).Ensures s ok error ↔
      m.Ensures s (fun a s' => (f a).Ensures s' ok error) error := by
  unfold Ensures
  change (match (match m s with
    | (.ok a, s') => f a s'
    | (.error e, s') => (.error e, s')) with
    | (.ok b, s'') => ok b s''
    | (.error e, s'') => error e s'') ↔ _
  rw [run]
  cases m s with
  | mk result s' =>
    cases result with
    | ok a => exact Iff.rfl
    | error e => exact Iff.rfl

end

/-! ## Computations that return whatever the state -/

/-- From every state the computation returns, with a result that satisfies `post`. -/
def Total (m : Fallible σ ε α) (post : α → Prop) : Prop :=
  ∀ s, ∃ a s', m.Returns s a s' ∧ post a

theorem total_pure {post : α → Prop} {a : α} (holds : post a) :
    (pure a : Fallible σ ε α).Total post :=
  fun s => ⟨a, s, rfl, holds⟩

theorem total_get : (get : Fallible σ ε σ).Total fun _ => True :=
  fun s => ⟨s, s, rfl, trivial⟩

theorem total_modify (f : σ → σ) : (modify f : Fallible σ ε Unit).Total fun _ => True :=
  fun s => ⟨(), f s, rfl, trivial⟩

theorem Total.bind {m : Fallible σ ε α} {post : α → Prop}
    {post' : β → Prop} (first : m.Total post) (second : ∀ a, post a → (f a).Total post') :
    (m >>= f).Total post' := by
  intro s
  obtain ⟨a, s', returned, holds⟩ := first s
  obtain ⟨b, s'', returned', holds'⟩ := second a holds s'
  exact ⟨b, s'', returns_bind.mpr ⟨a, s', returned, returned'⟩, holds'⟩

theorem Total.mono {m : Fallible σ ε α} {post post' : α → Prop} (total : m.Total post)
    (weaken : ∀ a, post a → post' a) : m.Total post' := by
  intro s
  obtain ⟨a, s', returned, holds⟩ := total s
  exact ⟨a, s', returned, weaken a holds⟩

/-! ## Properties of the state -/

/-- The computation preserves a property of the state, whether it returns or fails. -/
def Keeps (P : σ → Prop) (m : Fallible σ ε α) : Prop := ∀ s, P s → P (m.run s).2

section

variable {P : σ → Prop}

variable {m : Fallible σ ε α} {s s' : σ}

theorem Ensures.keeps
    (ensures : ∀ s, P s → m.Ensures s (fun _ s' => P s') fun _ s' => P s') : m.Keeps P := by
  intro s holds
  have ensured := ensures s holds
  unfold Ensures at ensured
  cases outcome : m.run s with
  | mk result s' =>
    rw [outcome] at ensured
    cases result <;> exact ensured

theorem Keeps.ensures (keeps : m.Keeps P) (holds : P s) :
    m.Ensures s (fun _ s' => P s') fun _ s' => P s' := by
  have kept := keeps s holds
  unfold Ensures
  cases outcome : m.run s with
  | mk result s' =>
    rw [outcome] at kept
    cases result <;> exact kept

theorem keeps_pure (a : α) : (pure a : Fallible σ ε α).Keeps P := fun _ holds => holds

theorem keeps_fail (e : ε) : (fail e : Fallible σ ε α).Keeps P := fun _ holds => holds

theorem keeps_get : (get : Fallible σ ε σ).Keeps P := fun _ holds => holds

theorem keeps_modify {f : σ → σ} (kept : ∀ s, P s → P (f s)) :
    (modify f : Fallible σ ε Unit).Keeps P := kept

theorem Keeps.bind {f : α → Fallible σ ε β} (first : m.Keeps P)
    (second : ∀ a, (f a).Keeps P) : (m >>= f).Keeps P := by
  refine Ensures.keeps fun s holds => ?_
  rw [ensures_bind]
  exact (first.ensures holds).mono (fun a s' holds' => (second a).ensures holds') fun _ _ kept => kept

end

end Fallible

end Library
