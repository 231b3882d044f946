import RootFinding.Proofs.Rollback

/-!
# The best iterate

In a safe mode the checks of a solve keep the best iterate that they have looked at, and a solve
that fails returns it.

* `Checker.check_challenges`: a check compares the iterate that it looks at with the best one.
* `Algorithm.Makes`: a step of the loop by how far the step of the algorithm gets.
* `Algorithm.Seen`: the start of a run and the iterates that its checks have looked at with finite
  values.
* `Algorithm.failure_best`: the best of them is the iterate of a solve that has failed.

The norms of finite residuals are compared as numbers are (`Ranks`); a norm that is undefined for a
finite vector has no best iterate.
-/

namespace RootFinding

open Action

variable {σ R K X : Type} [Scalar R] [Entry R K] {c : Setup σ R K}
  {F : Vec K → Except (Thrown R K) (Vec K)}

/-- A finite vector that is a residual of `F`. -/
def IsResidual (F : Vec K → Except (Thrown R K) (Vec K)) (f : Vec K) : Prop :=
  f.isFinite ∧ ∃ u, F u = .ok f

/-- The norms of the finite residuals of `F` are ordered as numbers are. -/
structure Ranks (F : Vec K → Except (Thrown R K) (Vec K)) (norm : Vec K → R) : Prop where
  refl : ∀ f, IsResidual F f → norm f ≤ norm f
  trans : ∀ f g h, IsResidual F f → IsResidual F g → IsResidual F h →
    norm f ≤ norm g → norm g ≤ norm h → norm f ≤ norm h
  le_of_lt : ∀ f g, IsResidual F f → IsResidual F g → norm f < norm g → norm f ≤ norm g
  le_of_not_lt : ∀ f g, IsResidual F f → IsResidual F g → ¬norm f < norm g → norm g ≤ norm f

/-- The euclidean norm of exact arithmetic ranks all residuals. -/
theorem Exact.norm_ranks (F : Vec Exact → Except (Thrown Exact Exact) (Vec Exact)) :
    Ranks F (Vec.norm : Vec Exact → Exact) where
  refl _ hf := Exact.norm_le_self hf.1
  trans _ _ _ _ _ _ := Exact.le_trans
  le_of_lt _ _ _ _ := Exact.le_of_lt
  le_of_not_lt f g hf hg h := by
    obtain ⟨x, -, hx⟩ := Exact.norm_real hf.1
    obtain ⟨y, -, hy⟩ := Exact.norm_real hg.1
    rw [hx, hy] at h ⊢
    exact Exact.real_le.2 (not_lt.1 h)

/-! ## Checks -/

namespace Checker

variable {k k' : Checker R K} {fu u : Vec K} {norm : Vec K → R}

/-- The best iterate with the norm of its residual. -/
def leader (k : Checker R K) : Vec K × R := (k.best, k.bestNorm)

/-- The best iterate after another one has been looked at. -/
def challenged (k : Checker R K) (fu u : Vec K) : Vec K × R :=
  if k.norm fu < k.bestNorm then (u, k.norm fu) else k.leader

omit [Entry R K] in
theorem best_of_challenged (h : k'.leader = k.challenged fu u) :
    k'.best = k.best ∨ k'.best = u := by
  unfold challenged leader at h
  split at h
  · exact .inr (congrArg (·.1) h)
  · exact .inl (congrArg (·.1) h)

omit [Entry R K] in
theorem checkProgress_challenges (criterion : R) (u : Vec K) :
    (checkProgress (k.norm fu) criterion u).Ends k
      (fun _ k' => k'.leader = k.challenged fu u) (fun _ k' => k'.leader = k.challenged fu u) := by
  simp only [checkProgress, ends_bind, ends_get]
  split
  next hbetter =>
    have hchallenged : k.challenged fu u = (u, k.norm fu) := if_pos hbetter
    split <;> simp only [ends_bind, ends_set, ends_get, ends_modify, ends_fail]
    · exact hchallenged.symm
    · split <;> exact hchallenged.symm
  next hworse =>
    have hchallenged : k.challenged fu u = k.leader := if_neg hworse
    split <;> simp only [ends_bind, ends_get, ends_modify, ends_fail]
    · exact hchallenged.symm
    · split <;> exact hchallenged.symm

/-- In a safe mode a check that is not passed compares the iterate with the best one, if its values
are finite. -/
theorem check_challenges (previous : Vec K) (hsafe : k.isSafe = true) :
    (Checker.check fu u previous).Ends k
      (fun b k' => k'.leader = if b then k.leader else k.challenged fu u)
      (fun e k' => ∀ f, e = .failure f →
        k'.leader = if fu.isFinite && u.isFinite then k.challenged fu u else k.leader) := by
  simp only [Checker.check, ends_bind, ends_get]
  split
  next hnot =>
    have hnot : (fu.isFinite && u.isFinite) = false := by
      rwa [Bool.not_eq_true'] at hnot
    simp only [ends_bind, ends_ofFault, ends_fail, hnot]
    exact ⟨fun _ _ _ _ => rfl, fun _ _ _ h => by cases h⟩
  next hfinite =>
    have hfinite : (fu.isFinite && u.isFinite) = true := by simpa using hfinite
    simp only [ends_bind, ends_set, hfinite, if_true]
    split
    next hmode =>
      rw [isSafe, hmode] at hsafe
      cases hsafe
    next hmode =>
      rw [isSafe, hmode] at hsafe
      cases hsafe
    next =>
      simp only [ends_bind, ends_ofFault]
      refine ⟨fun criterion _ => ?_, fun _ _ _ h => by cases h⟩
      split
      · exact rfl
      · rw [ends_bind]
        exact (checkProgress_challenges (k := { k with lastFinite := u }) criterion u).mono
          (fun _ _ h => h) (fun _ _ h _ _ => h)

/-- The best iterate is at least as good as `w`. -/
structure Covers (F : Vec K → Except (Thrown R K) (Vec K)) (norm : Vec K → R) (k : Checker R K)
    (w : Vec K) : Prop where
  best : ∃ fb, F k.best = .ok fb ∧ fb.isFinite ∧ k.bestNorm = norm fb
  le : ∃ fw, F w = .ok fw ∧ fw.isFinite ∧ k.bestNorm ≤ norm fw

theorem Covers.of_leader {w : Vec K} (h : Covers F norm k w) (hk : k'.leader = k.leader) :
    Covers F norm k' w := by
  simp only [leader, Prod.mk.injEq] at hk
  exact ⟨by rw [hk.1, hk.2]; exact h.best, by rw [hk.2]; exact h.le⟩

/-- The best iterate after a check is at least as good as whatever it was as good as, and as the
iterate that the check has looked at. -/
theorem Covers.challenged {w : Vec K} (hnorm : Ranks F norm) (h : Covers F norm k w)
    (hu : F u = .ok fu) (hfu : fu.isFinite) (hk : k.norm = norm)
    (hleader : k'.leader = k.challenged fu u) : Covers F norm k' w ∧ Covers F norm k' u := by
  obtain ⟨fb, hb, hfb, hbest⟩ := h.best
  obtain ⟨fw, hw, hfw, hle⟩ := h.le
  have hRb : IsResidual F fb := ⟨hfb, _, hb⟩
  have hRw : IsResidual F fw := ⟨hfw, _, hw⟩
  have hRu : IsResidual F fu := ⟨hfu, _, hu⟩
  rw [hbest] at hle
  unfold Checker.challenged at hleader
  rw [hk, hbest] at hleader
  split at hleader
  next hlt =>
    simp only [leader, Prod.mk.injEq] at hleader
    have hlead : ∃ f, F k'.best = .ok f ∧ f.isFinite ∧ k'.bestNorm = norm f :=
      ⟨fu, by rw [hleader.1, hu], hfu, hleader.2⟩
    have hle' : norm fu ≤ norm fw :=
      hnorm.trans fu fb fw hRu hRb hRw (hnorm.le_of_lt fu fb hRu hRb hlt) hle
    exact ⟨⟨hlead, fw, hw, hfw, hleader.2 ▸ hle'⟩,
      ⟨hlead, fu, hu, hfu, hleader.2 ▸ hnorm.refl fu hRu⟩⟩
  next hnot =>
    have hlead := h.of_leader hleader
    simp only [leader, Prod.mk.injEq] at hleader
    refine ⟨hlead, hlead.best, fu, hu, hfu, ?_⟩
    rw [hleader.2, hbest]
    exact hnorm.le_of_not_lt fu fb hRu hRb hnot

end Checker

/-! ## Steps -/

namespace Run

variable {r s t : Run σ R K X}

/-- A run that is stopped takes no more steps. -/
theorem Leads.of_stopped {S : Strategy σ R K X} (h : Leads S c r t)
    (hr : r.stopped = true) : t.stopped = true ∧ t.error = r.error :=
  h.invariant (I := fun s => s.stopped = true ∧ s.error = r.error) ⟨hr, rfl⟩ (fun _ hs => hs)
    fun _ _ hs hactive _ =>
      (Bool.false_ne_true ((stopped_of_isActive hactive).symm.trans hs.1)).elim

/-- A check of a run is one of its checks, at the iterate. -/
theorem check_eval {x : Except (Thrown R K) Bool} (h : check.eval r = (x, t)) :
    (Checker.check r.fu r.u r.previous).eval r.checker = (x, t.checker) ∧ t.u = r.u ∧
      t.fu = r.fu ∧ t.error = r.error ∧ (x = .ok true → t.stopped = true) := by
  have key : check.Ends r
      (fun b t => (Checker.check r.fu r.u r.previous).eval r.checker = (.ok b, t.checker) ∧
        t.u = r.u ∧ t.fu = r.fu ∧ t.error = r.error ∧ (b = true → t.stopped = true))
      (fun e t => (Checker.check r.fu r.u r.previous).eval r.checker = (.error e, t.checker) ∧
        t.u = r.u ∧ t.fu = r.fu ∧ t.error = r.error) := by
    simp only [check, ends_bind, ends_get, ends_within]
    refine ends_iff.2 ⟨fun b k hk => ?_, fun e k hk => ⟨hk, trivial, trivial, trivial⟩⟩
    cases b with
    | true => exact ⟨hk, rfl, rfl, rfl, fun _ => rfl⟩
    | false => exact ⟨hk, rfl, rfl, rfl, fun h => by cases h⟩
  cases x with
  | ok b =>
    obtain ⟨hk, hu, hfu, herror, hstops⟩ := key.ok h
    exact ⟨hk, hu, hfu, herror, fun hb => hstops (Except.ok.inj hb)⟩
  | error e =>
    obtain ⟨hk, hu, hfu, herror⟩ := key.error h
    exact ⟨hk, hu, hfu, herror, fun hb => by cases hb⟩

/-- A failure in a safe mode takes a run to its best iterate, or leaves it where it is, which is then
numerically the best iterate. -/
theorem EndedWith.place {f : Failure R K} (hF : c.problem.Computes F) (h : EndedWith c f r t)
    (hsafe : r.checker.isSafe = true) (hr : r.Sound F) :
    t.u = r.checker.best ∨
      r.checker.best.same t.u ∧ t.u = r.u ∧ (t.IsFinite → r.IsFinite) := by
  rcases h.best hF hsafe hr with ⟨hbest, -⟩ | ⟨hsame, hu, hfu⟩
  · exact .inl hbest
  · exact .inr ⟨hu ▸ hsame, hu, fun hfinite => ⟨hu ▸ hfinite.1, hfu ▸ hfinite.2⟩⟩

end Run

namespace Algorithm

variable {a : Algorithm σ R K} {r s t : Run σ R K a.State}

/-- A step of the loop that returns: the step of the algorithm passes its check, or it has failed
before the check or in it and the run has ended. -/
inductive Makes (a : Algorithm σ R K) (c : Setup σ R K) (r : Run σ R K a.State) :
    Run σ R K a.State → Prop
  | returned (b : Bool) (s s' t : Run σ R K a.State)
    (approach : (a.approach c).eval r = (.ok (), s))
    (checked : Run.check.eval s = (.ok b, s')) (rest : t.rest = s'.rest) :
    Makes a c r (Run.recorded c r.u t)
  | unready (f : Failure R K) (s t : Run σ R K a.State)
    (approach : (a.approach c).eval r = (.error (.failure f), s))
    (ended : Run.EndedWith c f s t) : Makes a c r (Run.recorded c r.u t)
  | refused (f : Failure R K) (s s' t : Run σ R K a.State)
    (approach : (a.approach c).eval r = (.ok (), s))
    (checked : Run.check.eval s = (.error (.failure f), s'))
    (failed : (a.strategy.step c).eval r = (.error (.failure f), s'))
    (ended : Run.EndedWith c f s' t) : Makes a c r (Run.recorded c r.u t)

theorem makes (h : (Run.step a.strategy c).eval r = (.ok (), t)) : a.Makes c r t := by
  rcases Run.step_cases h with ⟨s, hs, rfl⟩ | ⟨f, s, s', hs, ended, rfl⟩
  · obtain ⟨s₁, b, s₂, happroach, hcheck, hrest⟩ := step_returns hs
    exact .returned b s₁ s₂ s happroach hcheck hrest
  · rcases step_failure hs with happroach | ⟨s₁, happroach, hcheck⟩
    · exact .unready f s s' happroach ended
    · exact .refused f s₁ s s' happroach hcheck hs ended

variable {s' : Run σ R K a.State} {w : Vec K}

/-- The check of the step from `s` looks at `w`, with finite values. -/
def Looks (a : Algorithm σ R K) (c : Setup σ R K) (s : Run σ R K a.State) (w : Vec K) : Prop :=
  ∃ s', (a.approach c).eval s = (.ok (), s') ∧ s'.IsFinite ∧ s'.u = w

theorem looks_iff (h : (a.approach c).eval s = (.ok (), s')) :
    a.Looks c s w ↔ s'.IsFinite ∧ s'.u = w := by
  refine ⟨fun ⟨s₁, hs₁, hlooks⟩ => ?_, fun hlooks => ⟨s', h, hlooks⟩⟩
  cases h.symm.trans hs₁
  exact hlooks

theorem not_looks {e : Thrown R K} (h : (a.approach c).eval s = (.error e, s')) :
    ¬a.Looks c s w := by
  rintro ⟨s₁, hs₁, -⟩
  cases h.symm.trans hs₁

/-- The iterates that a run from `r` to `t` can choose from: its first one, and those that a check
on the way has looked at with finite values. -/
inductive Seen (a : Algorithm σ R K) (c : Setup σ R K) (r t : Run σ R K a.State) : Vec K → Prop
  | start : Seen a c r t r.u
  | checked (s t' : Run σ R K a.State) (w : Vec K) (before : Run.Leads a.strategy c r s)
    (active : s.isActive) (looks : a.Looks c s w)
    (stepped : (Run.step a.strategy c).eval s = (.ok (), t'))
    (after : Run.Leads a.strategy c t' t) : Seen a c r t w

theorem Seen.mono (h : a.Seen c r s w) (ht : Run.Leads a.strategy c s t) : a.Seen c r t w := by
  cases h with
  | start => exact .start
  | checked s₀ t₁ _ before active looks stepped after =>
    exact .checked s₀ t₁ w before active looks stepped (after.trans ht)

/-! ### The best iterate of a run -/

section Best

variable {world : σ} (hF : c.problem.Computes F) (hguess : FiniteAt F c.problem.guess.entries)
  (hsafe : c.options.termination.mode.isSafe = true)

include hF hguess

/-- Where a step comes to before its check, the residual is that of the iterate. -/
theorem approach_fits (hs : Run.Reaches a.strategy c world s)
    (happroach : (a.approach c).eval s = (.ok (), s')) :
    F s'.u = .ok s'.fu ∧ s'.checker = s.checker ∧ s'.error = s.error := by
  have hadvanced := (a.approach_ends c s).ok happroach
  refine ⟨?_, hadvanced.checker, Run.error_of_status hadvanced.status⟩
  rcases hadvanced.moved with ⟨hu, hfu⟩ | hanswered
  · rw [hu, hfu]
    exact ((a.isSound hF).reaches hF hguess hs).1.fits
  · exact hF.of_answered hanswered

omit hF hguess in
include hsafe in
theorem isSafe_of_reaches (hs : Run.Reaches a.strategy c world s) : s.checker.isSafe = true := by
  rw [Checker.isSafe, (hs.follows (a.proceeds c)).settings, hsafe]

include hsafe

/-- A step that does not converge keeps the best iterate as good as it was, and as good as the one
that its check has looked at. -/
theorem step_covers (hnorm : Ranks F c.options.norm) (hs : Run.Reaches a.strategy c world s)
    (herror : s.error = none) (hstep : (Run.step a.strategy c).eval s = (.ok (), t))
    (hw : s.checker.Covers F c.options.norm w) :
    (t.stopped = true ∧ t.error = none) ∨ (t.checker.Covers F c.options.norm w ∧
      ∀ v, a.Looks c s v → t.checker.Covers F c.options.norm v) := by
  have hissafe := isSafe_of_reaches hsafe hs
  have hfollows := hs.follows (a.proceeds c)
  cases makes hstep with
  | returned b s₁ s₂ t happroach hcheck hrest =>
    obtain ⟨hfits, hk, herror₁⟩ := approach_fits hF hguess hs happroach
    obtain ⟨hchecked, -, -, herror₂, hstops⟩ := Run.check_eval hcheck
    have ht : t.checker = s₂.checker ∧ t.error = s₂.error ∧ t.stopped = s₂.stopped := by
      rw [Run.eq_of_rest hrest]
      exact ⟨rfl, rfl, rfl⟩
    rw [Run.recorded_checker, Run.recorded_stopped, Run.recorded_error, ht.1, ht.2.1, ht.2.2]
    rw [hk] at hchecked
    cases b with
    | true => exact .inl ⟨hstops rfl, herror₂.trans (herror₁.trans herror)⟩
    | false =>
      have hleader := (Checker.check_challenges s₁.previous hissafe).ok hchecked
      have hfinite := (Checker.check_met s₁.previous hfollows).ok hchecked
      obtain ⟨hw', hu⟩ := hw.challenged hnorm hfits hfinite.2.1 hfollows.norm hleader
      exact .inr ⟨hw', fun v hv => ((looks_iff happroach).1 hv).2 ▸ hu⟩
  | unready f s₁ t happroach ended =>
    have hk := (Run.core_of_held ((a.approach_ends c s).error happroach f rfl))
    simp only [Run.core, Prod.mk.injEq] at hk
    rw [Run.recorded_checker, ended.checker_eq, hk.2.2]
    exact .inr ⟨hw, fun v hv => (not_looks happroach hv).elim⟩
  | refused f s₁ s₂ t happroach hcheck hfailed ended =>
    obtain ⟨hfits, hk, -⟩ := approach_fits hF hguess hs happroach
    obtain ⟨hchecked, -⟩ := Run.check_eval hcheck
    rw [hk] at hchecked
    have hleader := (Checker.check_challenges s₁.previous hissafe).error hchecked f rfl
    rw [Run.recorded_checker, ended.checker_eq]
    split at hleader
    next hfinite =>
      rw [Bool.and_eq_true] at hfinite
      obtain ⟨hw', hu⟩ := hw.challenged hnorm hfits hfinite.1 hfollows.norm hleader
      exact .inr ⟨hw', fun v hv => ((looks_iff happroach).1 hv).2 ▸ hu⟩
    next hnot =>
      refine .inr ⟨hw.of_leader hleader, fun v hv => ?_⟩
      have hfinite := ((looks_iff happroach).1 hv).1
      exact (hnot (by rw [hfinite.2, hfinite.1]; rfl)).elim

/-- What the best iterate is as good as, it stays as good as, until the run converges. -/
theorem leads_covers (hnorm : Ranks F c.options.norm) (hs : Run.Reaches a.strategy c world s)
    (h : Run.Leads a.strategy c s t) (hw : s.checker.Covers F c.options.norm w) :
    (t.stopped = true ∧ t.error = none) ∨ t.checker.Covers F c.options.norm w := by
  obtain ⟨r, hstart, hleads⟩ := hs
  induction h with
  | refl => exact .inr hw
  | headline _ ih => exact ih
  | @step s₁ t hs₁ hactive hstep ih =>
    have hrunning := Run.stopped_of_isActive hactive
    have hreaches : Run.Reaches a.strategy c world s₁ := ⟨r, hstart, hleads.trans hs₁⟩
    have herror : s₁.error = none := (hleads.trans hs₁).error_eq_none (a.proceeds c)
      (Run.start_error hstart) hrunning
    rcases ih with ⟨hstopped, -⟩ | hcovers
    · rw [hrunning] at hstopped
      cases hstopped
    · exact (step_covers hF hguess hsafe hnorm hreaches herror hstep hcovers).imp_right (·.1)

/-- A run that has failed has a best iterate that is as good as all that it can choose from. -/
theorem Seen.covered (hnorm : Ranks F c.options.norm)
    (hstart : Run.start a.strategy c world = .ok r)
    (ht : Run.Leads a.strategy c r t) (herror : t.error ≠ none) (hw : a.Seen c r t w) :
    t.checker.Covers F c.options.norm w := by
  have hfirst : r.checker.Covers F c.options.norm r.u := by
    obtain ⟨hfits, -, hfinite⟩ := Run.start_fits hF hguess hstart
    rw [Run.start_checker hstart]
    exact ⟨⟨r.fu, hfits, hfinite, rfl⟩, r.fu, hfits, hfinite,
      hnorm.refl r.fu ⟨hfinite, _, hfits⟩⟩
  have hfailed : ∀ {p : Prop}, (t.stopped = true ∧ t.error = none) ∨ p → p := fun h =>
    h.resolve_left fun hnone => herror hnone.2
  cases hw with
  | start => exact hfailed (leads_covers hF hguess hsafe hnorm ⟨r, hstart, .refl⟩ ht hfirst)
  | checked s t' _ before active looks stepped after =>
    have hs : Run.Reaches a.strategy c world s := ⟨r, hstart, before⟩
    have hnone : s.error = none := before.error_eq_none (a.proceeds c) (Run.start_error hstart)
      (Run.stopped_of_isActive active)
    have ht' : Run.Reaches a.strategy c world t' := ⟨r, hstart, before.step active stepped⟩
    -- the run has not converged in the step or before it, since it has failed later
    have hcovers : s.checker.Covers F c.options.norm r.u :=
      (leads_covers hF hguess hsafe hnorm ⟨r, hstart, .refl⟩ before hfirst).resolve_left
        fun hdone => Bool.false_ne_true ((Run.stopped_of_isActive active).symm.trans hdone.1)
    obtain ⟨-, hchecked⟩ :=
      (step_covers hF hguess hsafe hnorm hs hnone stepped hcovers).resolve_left
        fun hdone => herror ((after.of_stopped hdone.1).2.trans hdone.2)
    exact hfailed (leads_covers hF hguess hsafe hnorm ht' after (hchecked w looks))

/-- Where a step from `s` leaves a run: the best iterate is the one before or one that the check has
looked at; a finite iterate is the one before, the best one or one that the check has looked at; and
a run that has failed is at its best iterate or numerically there. -/
structure Offers (a : Algorithm σ R K) (c : Setup σ R K) (s t : Run σ R K a.State) : Prop where
  best : t.checker.best = s.checker.best ∨ a.Looks c s t.checker.best
  place : t.IsFinite → t.u = s.u ∧ s.IsFinite ∨ t.u = t.checker.best ∨ a.Looks c s t.u
  returned : t.error ≠ none → t.u = t.checker.best ∨ t.checker.best.same t.u

omit hguess hsafe in
/-- A run that fails in a safe mode ends at its best iterate or stays where it is: the step offers what
it has come to before it fails. -/
theorem offers_of_ended {f : Failure R K} (ended : Run.EndedWith c f s' t)
    (hissafe : s'.checker.isSafe = true) (hsound : s'.Sound F)
    (hbest : s'.checker.best = s.checker.best ∨ a.Looks c s s'.checker.best)
    (hplace : s'.IsFinite → s'.u = s.u ∧ s.IsFinite ∨ a.Looks c s s'.u) :
    a.Offers c s (Run.recorded c s.u t) := by
  have hends := ended.place hF hissafe hsound
  have hrecorded := Run.recorded_core c s.u t
  constructor
  · rw [Run.recorded_checker, ended.checker_eq]
    exact hbest
  · rw [Run.recorded_checker, Run.recorded_u, ended.checker_eq]
    intro hfinite
    rcases hends with hreturned | ⟨-, hstays, hback⟩
    · exact .inr (.inl hreturned)
    · rw [hstays]
      exact (hplace (hback (hfinite.of_core hrecorded.symm))).imp_right .inr
  · rw [Run.recorded_checker, Run.recorded_u, ended.checker_eq]
    exact fun _ => hends.imp_right (·.1)

theorem step_offers (hs : Run.Reaches a.strategy c world s) (herror : s.error = none)
    (hstep : (Run.step a.strategy c).eval s = (.ok (), t)) : a.Offers c s t := by
  have hissafe := isSafe_of_reaches hsafe hs
  have hsound := ((a.isSound hF).reaches hF hguess hs).1
  cases makes hstep with
  | returned b s₁ s₂ t happroach hcheck hrest =>
    obtain ⟨-, hk, herror₁⟩ := approach_fits hF hguess hs happroach
    obtain ⟨hchecked, hu, hfu, herror₂, -⟩ := Run.check_eval hcheck
    rw [hk] at hchecked
    have hfinite := (Checker.check_met s₁.previous (hs.follows (a.proceeds c))).ok hchecked
    have hlooks : a.Looks c s s₁.u :=
      (looks_iff happroach).2 ⟨⟨hfinite.2.2.1, hfinite.2.1⟩, rfl⟩
    have ht : t.checker = s₂.checker ∧ t.u = s₁.u ∧ t.error = none := by
      rw [Run.eq_of_rest hrest]
      exact ⟨rfl, hu, herror₂.trans (herror₁.trans herror)⟩
    have hleader := (Checker.check_challenges s₁.previous hissafe).ok hchecked
    constructor
    · rw [Run.recorded_checker, ht.1]
      cases b with
      | true => exact .inl (congrArg (·.1) hleader)
      | false =>
        refine (Checker.best_of_challenged hleader).imp_right fun h => ?_
        rw [h]
        exact hlooks
    · rw [Run.recorded_u, ht.2.1]
      exact fun _ => .inr (.inr hlooks)
    · rw [Run.recorded_error, ht.2.2]
      exact fun h => (h rfl).elim
  | unready f s₁ t happroach ended =>
    have hcore := Run.core_of_held ((a.approach_ends c s).error happroach f rfl)
    have hu : s₁.u = s.u := congrArg (·.1) hcore
    have hk : s₁.checker = s.checker := congrArg (·.2.2) hcore
    exact offers_of_ended hF ended (hk ▸ hissafe) (hsound.of_core hcore) (.inl (by rw [hk]))
      fun hfinite => .inl ⟨hu, hfinite.of_core hcore.symm⟩
  | refused f s₁ s₂ t happroach hcheck hfailed ended =>
    obtain ⟨-, hk, -⟩ := approach_fits hF hguess hs happroach
    obtain ⟨hchecked, hu, hfu, -⟩ := Run.check_eval hcheck
    rw [hk] at hchecked
    have hissafe₂ : s₂.checker.isSafe = true := by
      have hmet := (Checker.check_met s₁.previous (hs.follows (a.proceeds c))).error hchecked
      rw [Checker.isSafe, hmet.settings, hsafe]
    have hbest : s₂.checker.best = s.checker.best ∨ a.Looks c s s₂.checker.best := by
      have hleader := (Checker.check_challenges s₁.previous hissafe).error hchecked f rfl
      split at hleader
      next hfinite =>
        rw [Bool.and_eq_true] at hfinite
        exact (Checker.best_of_challenged hleader).imp_right fun hbest =>
          (looks_iff happroach).2 ⟨hfinite.symm, hbest.symm⟩
      next => exact .inl (congrArg (·.1) hleader)
    exact offers_of_ended hF ended hissafe₂ ((a.isSound hF s hsound).error hfailed) hbest
      fun hfinite => .inr ((looks_iff happroach).2 ⟨⟨hu ▸ hfinite.1, hfu ▸ hfinite.2⟩, hu.symm⟩)

/-- Where a run has come to: the best iterate of its checks is one that it can choose from, and so
is the present one if it is finite with its residual; and if the run has failed, the present one is
the best one or numerically the best one. -/
structure Traced (a : Algorithm σ R K) (c : Setup σ R K) (r t : Run σ R K a.State) : Prop where
  best : a.Seen c r t t.checker.best
  place : t.IsFinite → a.Seen c r t t.u
  returned : t.error ≠ none → t.u = t.checker.best ∨ t.checker.best.same t.u

theorem traced_of_leads (hstart : Run.start a.strategy c world = .ok r)
    (h : Run.Leads a.strategy c r t) : a.Traced c r t := by
  induction h with
  | refl =>
    have hbest : r.checker.best = r.u := congrArg (·.best) (Run.start_checker hstart)
    refine ⟨?_, fun _ => .start, fun herror => ?_⟩
    · rw [hbest]
      exact .start
    · exact (herror (Run.start_error hstart)).elim
  | @headline s _ ih =>
    have hmono : ∀ {w}, a.Seen c r s w → a.Seen c r (s.headed a.strategy) w := fun hw =>
      hw.mono (.headline .refl)
    exact ⟨hmono ih.best, fun hfinite => hmono (ih.place hfinite), ih.returned⟩
  | @step s t hs hactive hstep ih =>
    have hreaches : Run.Reaches a.strategy c world s := ⟨r, hstart, hs⟩
    have herror : s.error = none := hs.error_eq_none (a.proceeds c) (Run.start_error hstart)
      (Run.stopped_of_isActive hactive)
    obtain ⟨hbest, hplace, hreturned⟩ := step_offers hF hguess hsafe hreaches herror hstep
    have hold : ∀ {w}, a.Seen c r s w → a.Seen c r t w := fun hw =>
      hw.mono (.step .refl hactive hstep)
    have hnew : ∀ {w}, a.Looks c s w → a.Seen c r t w := fun hw =>
      .checked s t _ hs hactive hw hstep .refl
    have hseen : a.Seen c r t t.checker.best := by
      rcases hbest with hkept | hlooks
      · rw [hkept]
        exact hold ih.best
      · exact hnew hlooks
    refine ⟨hseen, fun hfinite => ?_, hreturned⟩
    rcases hplace hfinite with ⟨hu, hfinite'⟩ | hu | hlooks
    · rw [hu]
      exact hold (ih.place hfinite')
    · rw [hu]
      exact hseen
    · exact hnew hlooks

end Best

/-- A run from `r` to `t` ends at the iterate `u` with its residual `fu`, and no iterate that it can
choose from is better than `u`, up to the signs of zeros. -/
structure EndsBest (F : Vec K → Except (Thrown R K) (Vec K)) (norm : Vec K → R)
    (a : Algorithm σ R K) (c : Setup σ R K) (r t : Run σ R K a.State) (u fu : Vec K) : Prop where
  residual : F u = .ok fu
  best : ∃ b, a.Seen c r t b ∧ (u = b ∨ b.same u) ∧
    ∃ fb, F b = .ok fb ∧ ∀ w, a.Seen c r t w → ∃ fw, F w = .ok fw ∧ norm fb ≤ norm fw
  /-- If numerically equal vectors are finite together and have the same residual, `u` itself is one
  of these iterates and the best of them. -/
  itself : (∀ v w, v.same w → v.isFinite → w.isFinite ∧ F w = F v) →
    a.Seen c r t u ∧ ∀ w, a.Seen c r t w → ∃ fw, F w = .ok fw ∧ norm fu ≤ norm fw

/-- **A solve that fails in a safe mode returns its best iterate.**  For every algorithm, from a
finite guess with a finite residual: a run that has ended with an error, raised anywhere in a step,
is at the best of the iterates that it can choose from, with the residual there, and this is what
the solution shows. If the residual tells numerically equal vectors apart, the run may be at a
vector that is numerically the best iterate. -/
theorem failure_best (a : Algorithm σ R K) (c : Setup σ R K) (world : σ)
    (hF : c.problem.Computes F) (hguess : FiniteAt F c.problem.guess.entries)
    (hsafe : c.options.termination.mode.isSafe = true) (hnorm : Ranks F c.options.norm) :
    (∀ r t, Run.start a.strategy c world = .ok r → Run.Leads a.strategy c r t → t.error ≠ none →
      r.u = c.problem.guess.entries ∧ EndsBest F c.options.norm a c r t t.u t.fu) ∧
      ∀ o, a.solve c world = .ok o → o.solution.error ≠ none →
        ∃ r t, Run.start a.strategy c world = .ok r ∧ Run.Leads a.strategy c r t ∧
          EndsBest F c.options.norm a c r t o.solution.u.entries o.solution.residual.entries := by
  have hruns : ∀ r t, Run.start a.strategy c world = .ok r → Run.Leads a.strategy c r t →
      t.error ≠ none → r.u = c.problem.guess.entries ∧
        EndsBest F c.options.norm a c r t t.u t.fu := by
    intro r t hstart hleads herror
    have hsound := ((a.isSound hF).reaches hF hguess ⟨r, hstart, hleads⟩).1
    have htraced := traced_of_leads hF hguess hsafe hstart hleads
    have hcovers : ∀ w, a.Seen c r t w → t.checker.Covers F c.options.norm w := fun w hw =>
      hw.covered hF hguess hsafe hnorm hstart hleads herror
    obtain ⟨fb, hfb, hfinite, hbestNorm⟩ := (hcovers _ htraced.best).best
    have hleast : ∀ w, a.Seen c r t w →
        ∃ fw, F w = .ok fw ∧ c.options.norm fb ≤ c.options.norm fw := fun w hw => by
      obtain ⟨fw, hfw, -, hle⟩ := (hcovers w hw).le
      exact ⟨fw, hfw, hbestNorm ▸ hle⟩
    refine ⟨?_, hsound.fits, ⟨_, htraced.best, htraced.returned herror, fb, hfb, hleast⟩,
      fun hzeros => ?_⟩
    · obtain ⟨fu, work, system, ext, started⟩ := Run.start_ok hstart
      rw [started.eq]
      rfl
    rcases htraced.returned herror with hu | hsame
    · rw [← hu, hsound.fits] at hfb
      cases hfb
      exact ⟨hu ▸ htraced.best, hleast⟩
    · obtain ⟨hu, hFu⟩ := hzeros _ _ hsame hsound.remembers.best.point
      rw [hsound.fits, hfb] at hFu
      cases hFu
      exact ⟨htraced.place ⟨hu, hfinite⟩, hleast⟩
  refine ⟨hruns, fun o ho herror => ?_⟩
  obtain ⟨e, ⟨r, hstart, hleads⟩, hsolution⟩ := solve_ok ho
  obtain ⟨hu, hfu, -, he, -⟩ := Run.solution_ok hsolution
  rw [hu, hfu]
  rw [he] at herror
  exact ⟨r, e, hstart, hleads, (hruns r e hstart hleads herror).2⟩

end Algorithm

/-! ## Runs on numbers -/

namespace Rollback

/-- The residual that gives up behind its start has two values. -/
theorem recedingFunction_value {u f : Vec Number} (h : recedingFunction u = .ok f) :
    f = .ofList [.real 1.0] ∨ f = .ofList [.real 2.0] := by
  have hresidual : ∀ x y, recedingResidual x = .ok y → y = .real 1.0 ∨ y = .real 2.0 := by
    intro x y hy
    unfold recedingResidual at hy
    split at hy
    · cases hy
    · cases hy
      split
      · exact .inr rfl
      · exact .inl rfl
  unfold recedingFunction Problem.residualOf at h
  split at h
  next x _ =>
    rcases hy : recedingResidual (x.entries.toList.headD (.real 0.0)) with e | y
    · simp only [hy, Except.map, Except.mapError, reduceCtorEq] at h
    · simp only [hy, Except.map, Except.mapError, Except.ok.injEq] at h
      rw [← h]
      rcases hresidual _ y hy with rfl | rfl
      · exact .inl rfl
      · exact .inr rfl
  next => cases h

theorem recedingFunction_ranks :
    Ranks recedingFunction (recedingSetup 5).options.norm := by
  have hvalues : ∀ f, IsResidual recedingFunction f →
      f = .ofList [.real 1.0] ∨ f = .ofList [.real 2.0] := fun f hf => by
    obtain ⟨-, u, hu⟩ := hf
    exact recedingFunction_value hu
  constructor
  · intro f hf
    rcases hvalues f hf with rfl | rfl <;> decide +kernel
  · intro f g h hf hg hh
    rcases hvalues f hf with rfl | rfl <;> rcases hvalues g hg with rfl | rfl <;>
      rcases hvalues h hh with rfl | rfl <;> decide +kernel
  · intro f g hf hg
    rcases hvalues f hf with rfl | rfl <;> rcases hvalues g hg with rfl | rfl <;> decide +kernel
  · intro f g hf hg
    rcases hvalues f hf with rfl | rfl <;> rcases hvalues g hg with rfl | rfl <;> decide +kernel

/-- The solve that gives up in its second step returns its start, which is its best iterate. -/
theorem receding_best :
    recedingProblem.Computes recedingFunction ∧
      FiniteAt recedingFunction recedingProblem.guess.entries ∧
      Ranks recedingFunction (recedingSetup 5).options.norm ∧
      ∃ r t, Run.start recedingNewton.strategy (recedingSetup 5) () = .ok r ∧
        Run.Leads recedingNewton.strategy (recedingSetup 5) r t ∧ t.error ≠ none ∧
        Algorithm.EndsBest recedingFunction (recedingSetup 5).options.norm recedingNewton
          (recedingSetup 5) r t t.u t.fu := by
  have h : (runs recedingNewton (recedingSetup 5) 1).any (fun x =>
      gaveUp x.1 x.2 (recedingSetup 5)) = true := by decide +kernel
  obtain ⟨⟨s, t⟩, hruns, hup⟩ := (Option.any_eq_true _ _).1 h
  obtain ⟨⟨r, hstart, hleads⟩, hstep⟩ := runs_some hruns
  obtain ⟨hactive, f, herror, -⟩ := gaveUp_fails hruns hup
  have herror' : t.error ≠ none := herror ▸ Option.some_ne_none f
  have hlast := hleads.step hactive hstep
  exact ⟨recedingFunction_computes, recedingFunction_finite, recedingFunction_ranks, r, t, hstart,
    hlast, herror', ((Algorithm.failure_best recedingNewton (recedingSetup 5) ()
      recedingFunction_computes recedingFunction_finite rfl recedingFunction_ranks).1 r t hstart
        hlast herror').2⟩

/-- The solve from the negative zero that gives up at the positive one returns a residual with a
larger norm than that of its start. -/
theorem zero_worse :
    zeroProblem.Computes zeroFunction ∧ FiniteAt zeroFunction zeroProblem.guess.entries ∧
      ∃ o f, recedingNewton.solve zeroSetup () = .ok o ∧ o.solution.error.isSome ∧
        zeroFunction zeroProblem.guess.entries = .ok f ∧
        zeroSetup.options.norm f < zeroSetup.options.norm o.solution.residual.entries := by
  have h : ((recedingNewton.solve zeroSetup ()).toOption.any fun o => o.solution.error.isSome &&
      decide (zeroSetup.options.norm (.ofList [.real (-1.0)]) <
        zeroSetup.options.norm o.solution.residual.entries)) = true := by decide +kernel
  obtain ⟨o, ho, hx⟩ := (Option.any_eq_true _ _).1 h
  rw [Bool.and_eq_true, decide_eq_true_eq] at hx
  refine ⟨zeroFunction_computes, zeroFunction_finite, o, _, ?_, hx.1, by rfl, hx.2⟩
  rcases hs : recedingNewton.solve zeroSetup () with e | o'
  · simp [hs, Except.toOption] at ho
  · simp only [hs, Except.toOption, Option.some.injEq] at ho
    rw [ho]

end Rollback

end RootFinding
