/-!
# Actions

An action is a computation with a state that may fail. The state that it has reached survives its
failure, so what a failing step leaves behind can be stated and tested.
-/

namespace RootFinding

/-- A computation on a state `S` that fails with `ε` or answers `α`. -/
abbrev Action (ε S α : Type) : Type := ExceptT ε (StateM S) α

namespace Action

variable {ε δ S T α : Type}

/-- What an action answers from a state, and the state it reaches. -/
def eval (a : Action ε S α) (s : S) : Except ε α × S := a.run.run s

/-- The action of a function from states to answers and states. -/
def ofFun (f : S → Except ε α × S) : Action ε S α := ExceptT.mk f

/-- An action on a part of the state. -/
def within (view : S → T) (put : T → S → S) (a : Action ε T α) : Action ε S α :=
  ofFun fun s =>
    let (r, t) := a.eval (view s)
    (r, put t s)

/-- The action with its failures renamed. -/
def mapError (f : ε → δ) (a : Action ε S α) : Action δ S α :=
  ofFun fun s =>
    let (r, t) := a.eval s
    (r.mapError f, t)

/-- The outcome of an action as a value; the resulting action does not fail. -/
def attempt (a : Action ε S α) : Action δ S (Except ε α) :=
  ofFun fun s =>
    let (r, t) := a.eval s
    (.ok r, t)

@[simp] theorem eval_ofFun (f : S → Except ε α × S) (s : S) : (ofFun f).eval s = f s := rfl

@[simp] theorem eval_pure (x : α) (s : S) : (pure x : Action ε S α).eval s = (.ok x, s) := rfl

@[simp] theorem eval_throw (e : ε) (s : S) : (throw e : Action ε S α).eval s = (.error e, s) := rfl

@[simp] theorem eval_get (s : S) : (get : Action ε S S).eval s = (.ok s, s) := rfl

@[simp] theorem eval_set (t s : S) : (set t : Action ε S PUnit).eval s = (.ok ⟨⟩, t) := rfl

@[simp] theorem eval_modify (f : S → S) (s : S) :
    (modify f : Action ε S PUnit).eval s = (.ok ⟨⟩, f s) := rfl

theorem eval_bind {β : Type} (a : Action ε S α) (f : α → Action ε S β) (s : S) :
    (a >>= f).eval s =
      match a.eval s with
      | (.ok x, t) => (f x).eval t
      | (.error e, t) => (.error e, t) := by
  simp only [eval, bind, ExceptT.bind, ExceptT.mk, ExceptT.run, StateT.bind, StateT.run]
  rcases a s with ⟨r, t⟩
  cases r <;> rfl

@[simp] theorem eval_within (view : S → T) (put : T → S → S) (a : Action ε T α) (s : S) :
    (a.within view put).eval s = ((a.eval (view s)).1, put (a.eval (view s)).2 s) := rfl

@[simp] theorem eval_mapError (f : ε → δ) (a : Action ε S α) (s : S) :
    (a.mapError f).eval s = ((a.eval s).1.mapError f, (a.eval s).2) := rfl

@[simp] theorem eval_attempt (a : Action ε S α) (s : S) :
    (attempt a : Action δ S _).eval s = (.ok (a.eval s).1, (a.eval s).2) := rfl

end Action

end RootFinding
