import RootFinding.Proofs.Containment

/-!
# Faults of spectral residual steps

A spectral residual step solves no linear system. It ends in a fault where the caller's rule for
the tolerance raises one, which nothing turns into a failure, or where the square of a part of the
step is no finite number.
-/

namespace RootFinding.SpectralResidual

open Action

variable {σ R K : Type} [Scalar R] [Entry R K] {P : K → Prop} {m : Nat} {c : Setup σ R K}
  {a : SpectralResidual σ R K}

/-- The parts of a step that a search tries: the whole step, and reductions of a part. -/
inductive Part (a : SpectralResidual σ R K) : R → Prop
  | whole : Part a 1.0
  | reduced {alpha : R} (next : R) (part : Part a alpha) :
    Part a (Scalar.clamp next (a.reduceMost * alpha) (a.reduceLeast * alpha))

/-- The faults of a step. -/
inductive Escapes (a : SpectralResidual σ R K) : Fault → Prop
  | tolerance {f : Fault} {rule : ToleranceRule σ R K} {x : StepContext R K} {w w' : σ}
    (given : a.tolerance = some rule) (raised : rule x w = (.error (.fault f), w')) : Escapes a f
  | square {alpha : R} (part : a.Part alpha) (within : Scalar.isFinite alpha)
    (beyond : Scalar.isFinite (Scalar.square alpha) = false) : Escapes a .overflow

/-- The interpolation fails only where the square of the part does. -/
theorem interpolate_error {alpha new old : R} {f : Fault}
    (h : interpolate alpha new old = .error f) :
    Checked.square alpha = .error f := by
  unfold interpolate at h
  dsimp only at h
  split at h
  · rcases hsquare : Checked.square alpha with f' | square
    · rw [hsquare] at h
      cases h
      rfl
    · rw [hsquare] at h
      cases h
  · cases h

variable {r : Run σ R K (State R)}

omit [Entry R K] in
/-- A part is reduced to a part, unless its square is no finite number. -/
theorem reduce_ends {q : Search R K} {alpha merit : R} (hpart : a.Part alpha)
    (hr : r.Going c P m) :
    (ofFault (a.reduce q alpha merit) : Stepping σ R K (State R) R).Ends r
      (fun next t => t = r ∧ a.Part next) (fun e t => t.Aborted c P m (Escapes a) e) := by
  rcases hreduce : a.reduce q alpha merit with f | next
  · refine ⟨hr.toFits, fun f hf => ?_⟩
    cases hf
    rcases Fault.bind_error hreduce with hinterpolate | ⟨next, -, h⟩
    · obtain ⟨hwithin, hbeyond, rfl⟩ := Checked.square_error (interpolate_error hinterpolate)
      exact .square hpart hwithin hbeyond
    · cases h
  · obtain ⟨x, -, h⟩ := Fault.bind_ok hreduce
    cases h
    exact ⟨rfl, .reduced x hpart⟩

omit [Entry R K] in
/-- The rule is called as it is, so its faults are those of the step. -/
theorem toleranceAt_ends (x : StepContext R K) (hr : r.Going c P m) :
    (a.toleranceAt x).Ends r (fun _ t => t.Going c P m)
      (fun e t => t.Aborted c P m (Escapes a) e) := by
  unfold toleranceAt
  split
  next rule hrule =>
    rw [Run.ends_onWork]
    refine ends_ofFun.2 ⟨fun tolerance w h => ?_, fun e w h => ?_⟩
    · exact hr.of_core rfl rfl rfl rfl
    · refine ⟨hr.toFits.of_core rfl rfl, fun f hf => ?_⟩
      subst hf
      exact .tolerance hrule (Prod.ext (Prod.mk.inj h).1 rfl)
  next => exact hr

/-- A trial has the sizes of the problem. -/
structure Trial.Sized (c : Setup σ R K) (P : K → Prop) (m : Nat) (t : Trial R K) : Prop where
  u : t.u.Fits P c.problem.size
  fu : t.fu.Fits P m

theorem trialAt_sized (hc : c.Fits P m) {u : Vec K} (hu : u.Fits P c.problem.size)
    (hr : r.Going c P m) :
    (a.trialAt c u).Ends r (fun t s => t.Sized c P m ∧ s.Going c P m)
      (fun e s => s.Aborted c P m (Escapes a) e) := by
  refine (Run.evaluate_going hc hr hu).bind (fun fu t ht => ?_) (fun _ _ he => he)
  rcases ht with ⟨w, rfl, hfu, -, -⟩
  exact ⟨⟨hu, hfu⟩, hr.withWork w⟩

/-- A search tries parts of the step only. -/
theorem search_sized (hc : c.Fits P m) {q : Search R K} (hu : q.u.Fits P c.problem.size)
    (hd : q.d.Fits P c.problem.size) (fuel : Nat) {ahead behind : R} (hahead : a.Part ahead)
    (hbehind : a.Part behind) {t : Trial R K} (ht : t.Sized c P m) (hr : r.Going c P m) :
    (a.search c q fuel ahead behind t).Ends r
      (fun x s => x.1.Sized c P m ∧ s.Going c P m)
      (fun e s => s.Aborted c P m (Escapes a) e) := by
  induction fuel generalizing ahead behind t r with
  | zero =>
    simp only [search, ends_bind, ends_get, ends_fail]
    exact ⟨hr.toFits, nofun⟩
  | succ fuel ih =>
    unfold search
    split
    · exact ⟨ht, hr⟩
    · refine (reduce_ends hahead hr).bind (fun nextAhead s hs => ?_) (fun _ _ he => he)
      rcases hs with ⟨rfl, hnextAhead⟩
      have hback : (q.u - behind • q.d).Fits P c.problem.size :=
        hu.sub hc.closed (hd.smul hc.closed _)
      refine (trialAt_sized hc hback hr).bind (fun t₁ r₁ h₁ => ?_) (fun _ _ he => he)
      rcases h₁ with ⟨ht₁, hr₁⟩
      split
      · exact ⟨ht₁, hr₁⟩
      · refine (reduce_ends hbehind hr₁).bind (fun nextBehind s hs => ?_) (fun _ _ he => he)
        rcases hs with ⟨rfl, hnextBehind⟩
        have hfront : (q.u + nextAhead • q.d).Fits P c.problem.size :=
          hu.add hc.closed (hd.smul hc.closed _)
        refine (trialAt_sized hc hfront hr₁).bind (fun t₂ r₂ h₂ => ?_) (fun _ _ he => he)
        exact ih hnextAhead hnextBehind h₂.1 h₂.2

/-- A spectral residual step ends in no other faults. -/
theorem contained (a : SpectralResidual σ R K) (hc : c.Fits P m) (hm : m = c.problem.size) :
    a.strategy.Contained c P m (fun _ _ _ => True) fun _ f =>
      c.options.termination.Escapes m c.problem.size f ∨ Escapes a f := by
  intro r hr _
  have hd : ((-r.ext.spectral) • r.fu : Vec K).Fits P c.problem.size := by
    have hfu := hr.fu
    rw [hm] at hfu
    exact hfu.smul hc.closed _
  have hwhole : (r.u + (1.0 : R) • ((-r.ext.spectral) • r.fu : Vec K)).Fits P c.problem.size :=
    hr.u.add hc.closed (hd.smul hc.closed _)
  simp only [strategy, step, ends_bind, ends_get]
  refine (toleranceAt_ends _ hr).mono (fun tolerance r₁ hr₁ => ?_)
    (fun _ _ he => he.mono fun _ => .inr)
  refine (trialAt_sized hc hwhole hr₁).mono (fun t r₂ h₂ => ?_)
    (fun _ _ he => he.mono fun _ => .inr)
  rcases h₂ with ⟨ht, hr₂⟩
  refine (search_sized hc hr.u hd _ .whole .whole ht hr₂).mono (fun x r₃ h₃ => ?_)
    (fun _ _ he => he.mono fun _ => .inr)
  rcases x with ⟨t, alpha⟩
  rcases h₃ with ⟨ht, hr₃⟩
  simp only [Run.ends_update, ends_modify, Run.ends_moveTo, ends_pure]
  have hmoved : ∀ ext : State R, Run.Going c P m
      { r₃ with previous := r.u, du := (-r.ext.spectral) • r.fu, alpha, u := t.u, fu := t.fu,
                ext } :=
    fun ext => ⟨⟨ht.u, hr.u, ht.fu, hr₃.remembers, hr₃.settings⟩, hr₃.error, hr₃.code⟩
  exact (Run.check_going (hmoved _)).mono (fun _ _ h => ⟨h.1, trivial⟩)
    (fun _ _ he => he.mono fun _ => .inl)

end RootFinding.SpectralResidual
