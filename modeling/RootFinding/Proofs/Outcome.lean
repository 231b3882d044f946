import RootFinding.Failure

/-!
# Outcomes of actions

A calculus for what actions answer and leave behind.

* `Action.Ends a s Q E`: from the state `s` the action ends with an answer and a state as `Q`
  says, or with an error and a state as `E` says. Every construct of an action has one
  equivalence, tagged for `simp`, so a program is taken apart in the order in which it runs.
* `Action.Keeps π a`: whatever happens, the action leaves the part `π` of the state alone.

`Ends.bind` and `Ends.bind_keeps` are the two ways through a sequence: by a specification of its
first action, or past a first action that leaves the part of interest alone.
-/

namespace RootFinding.Action

variable {ε δ S T U α β : Type}

/-- How an action ends from a state: `Q` holds of its answer and `E` of its error, each with the
state that is left. -/
def Ends (a : Action ε S α) (s : S) (Q : α → S → Prop) (E : ε → S → Prop) : Prop :=
  match a.eval s with
  | (.ok x, t) => Q x t
  | (.error e, t) => E e t

section Rules

variable {a : Action ε S α} {s t : S} {Q Q' : α → S → Prop} {E E' : ε → S → Prop}

theorem ends_iff :
    a.Ends s Q E ↔ (∀ x t, a.eval s = (.ok x, t) → Q x t) ∧
      ∀ e t, a.eval s = (.error e, t) → E e t := by
  unfold Ends
  rcases a.eval s with ⟨x | x, t⟩ <;> simp

theorem Ends.congr {b : Action ε S α} (h : a.Ends s Q E) (hb : b.eval s = a.eval s) :
    b.Ends s Q E := by
  unfold Ends
  rw [hb]
  exact h

theorem Ends.ok {x : α} (h : a.Ends s Q E) (ha : a.eval s = (.ok x, t)) : Q x t :=
  (ends_iff.1 h).1 x t ha

theorem Ends.error {e : ε} (h : a.Ends s Q E) (ha : a.eval s = (.error e, t)) : E e t :=
  (ends_iff.1 h).2 e t ha

/-- An action without errors answers. -/
theorem Ends.exists_ok (h : a.Ends s Q fun _ _ => False) :
    ∃ x t, a.eval s = (.ok x, t) ∧ Q x t := by
  rcases ha : a.eval s with ⟨_ | x, t⟩
  · exact (h.error ha).elim
  · exact ⟨x, t, rfl, h.ok ha⟩

theorem Ends.mono (h : a.Ends s Q E) (hQ : ∀ x t, Q x t → Q' x t)
    (hE : ∀ e t, E e t → E' e t) : a.Ends s Q' E' :=
  ends_iff.2 ⟨fun x t ha => hQ x t (h.ok ha), fun e t ha => hE e t (h.error ha)⟩

theorem Ends.and (h : a.Ends s Q E) (h' : a.Ends s Q' E') :
    a.Ends s (fun x t => Q x t ∧ Q' x t) (fun e t => E e t ∧ E' e t) :=
  ends_iff.2 ⟨fun _ _ ha => ⟨h.ok ha, h'.ok ha⟩, fun _ _ ha => ⟨h.error ha, h'.error ha⟩⟩

/-- What holds of every state that is left. -/
theorem Ends.state {P : S → Prop} (h : a.Ends s (fun _ t => P t) (fun _ t => P t)) :
    P (a.eval s).2 := by
  rcases ha : a.eval s with ⟨_ | _, t⟩
  · exact h.error ha
  · exact h.ok ha

/-- Every action ends somehow. -/
theorem ends_true : a.Ends s (fun _ _ => True) (fun _ _ => True) :=
  ends_iff.2 ⟨fun _ _ _ => trivial, fun _ _ _ => trivial⟩

@[simp] theorem ends_pure {x : α} : Ends (pure x) s Q E ↔ Q x s := Iff.rfl

@[simp] theorem ends_throw {e : ε} : Ends (throw e) s Q E ↔ E e s := Iff.rfl

@[simp] theorem ends_get {Q : S → S → Prop} : Ends get s Q E ↔ Q s s := Iff.rfl

@[simp] theorem ends_set {u : S} {Q : PUnit → S → Prop} : Ends (set u) s Q E ↔ Q ⟨⟩ u := Iff.rfl

@[simp] theorem ends_modify {f : S → S} {Q : PUnit → S → Prop} :
    Ends (modify f) s Q E ↔ Q ⟨⟩ (f s) := Iff.rfl

@[simp] theorem ends_bind {f : α → Action ε S β} {Q : β → S → Prop} :
    Ends (a >>= f) s Q E ↔ a.Ends s (fun x t => (f x).Ends t Q E) E := by
  simp only [Ends, eval_bind]
  rcases a.eval s with ⟨_ | _, _⟩ <;> rfl

theorem Ends.bind {f : α → Action ε S β} {Q' : β → S → Prop} (h : a.Ends s Q E')
    (hf : ∀ x t, Q x t → (f x).Ends t Q' E) (hE : ∀ e t, E' e t → E e t) :
    Ends (a >>= f) s Q' E :=
  ends_bind.2 (h.mono hf hE)

/-- Through an action that is only taken under a condition. -/
theorem Ends.guard {p : Prop} [Decidable p] {a : Action ε S PUnit} {b : Action ε S β}
    {I : S → Prop} {Q : β → S → Prop} (ha : p → a.Ends s (fun _ t => I t) E) (hs : ¬p → I s)
    (hb : ∀ t, I t → b.Ends t Q E) : Ends (if p then a >>= fun _ => b else b) s Q E := by
  split
  next hp => exact (ha hp).bind (fun _ t ht => hb t ht) (fun _ _ he => he)
  next hp => exact hb s (hs hp)

@[simp] theorem ends_map {f : α → β} {Q : β → S → Prop} :
    Ends (f <$> a) s Q E ↔ a.Ends s (fun x t => Q (f x) t) E := by
  rw [← bind_pure_comp]
  exact ends_bind

@[simp] theorem ends_ofFun {f : S → Except ε α × S} :
    Ends (ofFun f) s Q E ↔
      (∀ x t, f s = (.ok x, t) → Q x t) ∧ ∀ e t, f s = (.error e, t) → E e t :=
  ends_iff

@[simp] theorem ends_within {view : U → S} {put : S → U → U} {s : U} {Q : α → U → Prop}
    {E : ε → U → Prop} :
    Ends (a.within view put) s Q E ↔
      a.Ends (view s) (fun x t => Q x (put t s)) (fun e t => E e (put t s)) := by
  simp only [Ends, eval_within]
  rcases a.eval (view s) with ⟨_ | _, _⟩ <;> rfl

@[simp] theorem ends_mapError {f : ε → δ} {E : δ → S → Prop} :
    Ends (a.mapError f) s Q E ↔ a.Ends s Q (fun e t => E (f e) t) := by
  simp only [Ends, eval_mapError]
  rcases a.eval s with ⟨_ | _, _⟩ <;> rfl

@[simp] theorem ends_attempt {Q : Except ε α → S → Prop} {E : δ → S → Prop} :
    Ends (attempt a) s Q E ↔ a.Ends s (fun x t => Q (.ok x) t) (fun e t => Q (.error e) t) := by
  simp only [Ends, eval_attempt]
  rcases a.eval s with ⟨_ | _, _⟩ <;> rfl

end Rules

section Faults

variable {R K : Type} {s : S} {Q : α → S → Prop} {E : Thrown R K → S → Prop}

@[simp] theorem ends_ofFault {r : Except Fault α} :
    Ends (ofFault r) s Q E ↔
      (∀ x, r = .ok x → Q x s) ∧ ∀ f, r = .error f → E (.fault f) s := by
  cases r <;> simp [ofFault]

theorem ends_ofFault_ok {r : Except Fault α} {x : α} (h : r = .ok x) :
    Ends (ofFault r) s Q E ↔ Q x s := by
  rw [h]
  exact Iff.rfl

theorem ends_ofFault_error {r : Except Fault α} {f : Fault} (h : r = .error f) :
    Ends (ofFault r) s Q E ↔ E (.fault f) s := by
  rw [h]
  exact Iff.rfl

@[simp] theorem ends_fail {f : Failure R K} :
    Ends (fail f : Action (Thrown R K) S α) s Q E ↔ E (.failure f) s := Iff.rfl

end Faults

/-! ## Frames -/

/-- The action leaves a part of the state alone, whether it answers or fails. -/
def Keeps (π : S → T) (a : Action ε S α) : Prop := ∀ s, π (a.eval s).2 = π s

section Frames

variable {π : S → T} {a : Action ε S α}

theorem Keeps.ends (h : Keeps π a) (s : S) :
    a.Ends s (fun _ t => π t = π s) (fun _ t => π t = π s) :=
  ends_iff.2 ⟨fun _ _ ha => by simpa [ha] using h s, fun _ _ ha => by simpa [ha] using h s⟩

theorem keeps_of_ends (h : ∀ s, a.Ends s (fun _ t => π t = π s) (fun _ t => π t = π s)) :
    Keeps π a := by
  intro s
  rcases ha : a.eval s with ⟨_ | _, t⟩
  · exact (h s).error ha
  · exact (h s).ok ha

/-- Past an action that leaves the part of interest alone. -/
theorem Ends.bind_keeps {f : α → Action ε S β} {s : S} {Q : β → S → Prop} {E : ε → S → Prop}
    (h : Keeps π a) (hf : ∀ x t, π t = π s → (f x).Ends t Q E)
    (hE : ∀ e t, π t = π s → E e t) : Ends (a >>= f) s Q E :=
  (h.ends s).bind hf hE

theorem keeps_pure (x : α) : Keeps π (pure x : Action ε S α) := fun _ => rfl

theorem keeps_throw (e : ε) : Keeps π (throw e : Action ε S α) := fun _ => rfl

theorem keeps_get : Keeps π (get : Action ε S S) := fun _ => rfl

theorem keeps_modify {f : S → S} (h : ∀ s, π (f s) = π s) :
    Keeps π (modify f : Action ε S PUnit) := h

theorem keeps_ofFault {R K : Type} (r : Except Fault α) :
    Keeps π (ofFault r : Action (Thrown R K) S α) := by
  cases r <;> exact fun _ => rfl

theorem Keeps.bind {f : α → Action ε S β} (h : Keeps π a) (hf : ∀ x, Keeps π (f x)) :
    Keeps π (a >>= f) := by
  refine keeps_of_ends fun s => .bind_keeps h (fun x t ht => ?_) (fun _ _ ht => ht)
  exact ((hf x).ends t).mono (fun _ _ h => h.trans ht) (fun _ _ h => h.trans ht)

/-- Past an action that is only taken under a condition. -/
theorem Keeps.guard {p : Prop} [Decidable p] {a : Action ε S PUnit} {b : Action ε S β}
    (ha : Keeps π a) (hb : Keeps π b) : Keeps π (if p then a >>= fun _ => b else b) := by
  split
  · exact ha.bind fun _ => hb
  · exact hb

theorem Keeps.mapError {f : ε → δ} (h : Keeps π a) : Keeps π (a.mapError f) := h

theorem Keeps.attempt (h : Keeps π a) : Keeps π (Action.attempt a : Action δ S _) := h

/-- An action on a part of the state leaves alone what that part does not reach. -/
theorem keeps_within {ρ : U → T} {view : U → S} {put : S → U → U} (a : Action ε S α)
    (h : ∀ s u, ρ (put s u) = ρ u) : Keeps ρ (a.within view put) :=
  fun u => h _ u

end Frames

end RootFinding.Action

/-! ## Computations with faults -/

namespace RootFinding.Fault

theorem bind_ok {α β : Type} {a : Except Fault α} {f : α → Except Fault β} {y : β}
    (h : a >>= f = .ok y) : ∃ x, a = .ok x ∧ f x = .ok y := by
  cases a with
  | error e => cases h
  | ok x => exact ⟨x, rfl, h⟩

theorem bind_error {α β : Type} {a : Except Fault α} {f : α → Except Fault β} {e : Fault}
    (h : a >>= f = .error e) : a = .error e ∨ ∃ x, a = .ok x ∧ f x = .error e := by
  cases a with
  | error e' =>
    cases h
    exact .inl rfl
  | ok x => exact .inr ⟨x, rfl, h⟩

/-- Past a check that is only made under a condition. -/
theorem guard_ok {β : Type} {p : Prop} [Decidable p] {a : Except Fault Unit}
    {b : Except Fault β} {y : β} (h : (if p then a >>= fun _ => b else b) = .ok y) :
    (p → a = .ok ()) ∧ b = .ok y := by
  split at h
  next hp =>
    obtain ⟨x, ha, hb⟩ := bind_ok h
    exact ⟨fun _ => ha, hb⟩
  next hp => exact ⟨fun h => (hp h).elim, h⟩

end RootFinding.Fault
