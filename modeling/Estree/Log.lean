import Estree.Text

/-!
What the library says about its work while it works.
-/

namespace Estree

/-- How much of the log is shown. -/
inductive Level where
  | debug
  | warning
  | error
  deriving DecidableEq, Repr

namespace Level

/-- Quiet wins over verbose. -/
def choose (verbose quiet : Bool) : Level :=
  if quiet then .error else if verbose then .debug else .warning

def name : Level → String
  | .debug => "DEBUG"
  | .warning => "WARNING"
  | .error => "ERROR"

end Level

/-- A computation that notes what it does, for debugging, and may fail.  The
notes made before a failure are kept. -/
abbrev Logged (ε : Type) := ExceptT ε (StateM (List Text))

namespace Logged

variable {ε δ α : Type}

/-- Add a line to the notes. -/
def note (line : Text) : Logged ε Unit := modify fun lines => lines ++ [line]

/-- The outcome and the notes of a computation. -/
def collect (x : Logged ε α) : Except ε α × List Text := x.run.run []

/-- A computation that notes nothing. -/
def lift (x : Except ε α) : Logged ε α := ExceptT.mk (pure x)

/-- The computation with its failures seen as failures of another kind. -/
def mapError (f : ε → δ) (x : Logged ε α) : Logged δ α :=
  ExceptT.mk (Except.mapError f <$> x.run)

/-- The notes that a level shows: all of them, or none. -/
def shownAt (level : Level) (lines : List Text) : List Text :=
  if level = .debug then lines else []

/-! ### Results -/

variable {β γ : Type}

theorem mapError_eq_ok {x : Except ε α} {f : ε → δ} {a : α} :
    x.mapError f = .ok a ↔ x = .ok a := by
  constructor
  · intro h
    cases x with
    | error e => cases h
    | ok b => exact congrArg Except.ok (Except.ok.inj h)
  · rintro rfl
    rfl

theorem mapError_eq_error {x : Except ε α} {f : ε → δ} {e : δ} :
    x.mapError f = .error e ↔ ∃ e', x = .error e' ∧ f e' = e := by
  constructor
  · intro h
    cases x with
    | error e' => exact ⟨e', rfl, Except.error.inj h⟩
    | ok a => cases h
  · rintro ⟨e', rfl, rfl⟩
    rfl

theorem map_eq_ok {x : Except ε α} {f : α → β} {b : β} :
    x.map f = .ok b ↔ ∃ a, x = .ok a ∧ f a = b := by
  cases x <;> simp [Except.map]

theorem bind_eq_ok {x : Except ε α} {f : α → Except ε β} {b : β} :
    x.bind f = .ok b ↔ ∃ a, x = .ok a ∧ f a = .ok b := by
  cases x <;> simp [Except.bind]

theorem bind_eq_error {x : Except ε α} {f : α → Except ε β} {e : ε} :
    x.bind f = .error e ↔ x = .error e ∨ ∃ a, x = .ok a ∧ f a = .error e := by
  cases x <;> simp [Except.bind]

/-- Results that agree in what is seen of them go on to results that do. -/
theorem map_bind_congr {x x' : Except ε α} {f : α → β} {k k' : α → Except ε γ} {h : γ → δ}
    (hx : x.map f = x'.map f)
    (hk : ∀ a a', x = .ok a → f a = f a' → (k a).map h = (k' a').map h) :
    (x.bind k).map h = (x'.bind k').map h := by
  cases x with
  | error e =>
    cases x' with
    | error e' => cases hx; rfl
    | ok a' => cases hx
  | ok a =>
    cases x' with
    | error e' => cases hx
    | ok a' => exact hk a a' rfl (Except.ok.inj hx)

theorem bind_map_map {α' : Type} {x : Except ε α} {f : α → α'} {k : α → Except ε β}
    {k' : α' → Except ε γ} {h : β → γ} (hk : ∀ a, k' (f a) = (k a).map h) :
    (x.map f >>= k') = (x >>= k).map h := by
  cases x with
  | error e => rfl
  | ok a => exact hk a

end Logged

end Estree
