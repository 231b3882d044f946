import RootFinding.Proofs.Faults.LevenbergMarquardt
import RootFinding.Proofs.Faults.Newton
import RootFinding.Proofs.Faults.PseudoTransient
import RootFinding.Proofs.Faults.SpectralResidual
import RootFinding.Proofs.Faults.TrustRegion

/-!
# What a solve may end with

Once it has started, a solve with any algorithm answers a solution that reports its failure,
unless a step ends in one of the faults that `Algorithm.Escapes` lists with their conditions. No
failure of a solve ever leaves the loop.
-/

namespace RootFinding

open Action

variable {σ R K : Type} [Scalar R] [Entry R K]

namespace Algorithm

/-- The Jacobian of the normal equations is formed. -/
def Forms : Algorithm σ R K → Prop
  | newton a => a.form = .normal → a.concrete = true
  | _ => True

/-- The faults of the steps of a strategy from the state `r`, for `n` unknowns, in a run that has
started as `r₀`. -/
def OwnEscapes (P : K → Prop) (n : Nat) :
    (a : Algorithm σ R K) → (r₀ r : Run σ R K a.State) → Fault → Prop
  | newton a, r₀, _ => Newton.Escapes P r₀.work.system (a.IsFinite K ∧ r₀.fu.isFinite = true)
  | pseudoTransient _, r₀, r => PseudoTransient.Escapes P r₀.work.system r.ext
  | trustRegion _, r₀, r => TrustRegion.Escapes P r₀.work.system r₀.fu.size n
      ((∀ real, Entry.isFinite (Entry.zeroAs real : K) = true) ∧ r₀.fu.isFinite = true)
      r.ext.radius.radius
  | levenbergMarquardt a, r₀, _ => a.Escapes P r₀.work.system
  | spectralResidual a, _, _ => a.Escapes

/-- The faults of a step from the state `r`, in a run that has started as `r₀`. -/
def Escapes (a : Algorithm σ R K) (c : Setup σ R K) (P : K → Prop) (r₀ r : Run σ R K a.State)
    (f : Fault) : Prop :=
  c.options.termination.Escapes r₀.fu.size c.problem.size f ∨ a.OwnEscapes P c.problem.size r₀ r f

variable {c : Setup σ R K} {P : K → Prop} {m : Nat} {world : σ}

/-- Every algorithm is contained in a run that it has started. -/
theorem contained (a : Algorithm σ R K) (ha : a.Forms) (hc : c.Fits P m)
    {r₀ : Run σ R K a.State} (hstart : Run.start a.strategy c world = .ok r₀) :
    ∃ I : Workspace σ R K → Vec K → a.State → Prop,
      a.strategy.Contained c P m I (a.Escapes c P r₀) ∧ I r₀.work r₀.fu r₀.ext := by
  obtain ⟨hgoing, hjacobian, hprepared⟩ := Run.start_going hc hstart
  have hm : r₀.fu.size = m := hgoing.fu.size
  subst hm
  cases a with
  | newton a =>
    have hfinite : a.IsFinite K ∧ r₀.fu.isFinite = true → r₀.fu.isFinite = true := And.right
    obtain ⟨hholds, hsquare, hconcrete⟩ := Newton.start_holds hc rfl hfinite hjacobian hprepared
    have hsuits : a.Suits c r₀.fu.size r₀.ext.jacobians := by
      refine ⟨hsquare, fun hnormal => ?_⟩
      unfold Problem.isMatrixFree
      rw [hconcrete, ha hnormal, Bool.not_true, Bool.and_false]
    exact ⟨_, Newton.contained hc hsuits And.left, hholds⟩
  | pseudoTransient a =>
    obtain ⟨hholds, hsquare⟩ := PseudoTransient.start_holds hc rfl hprepared
    exact ⟨_, a.contained hc hsquare, hholds⟩
  | trustRegion a =>
    have hfinite : (∀ real, Entry.isFinite (Entry.zeroAs real : K) = true) ∧
        r₀.fu.isFinite = true → r₀.fu.isFinite = true := And.right
    obtain ⟨hholds, hconcrete⟩ :=
      TrustRegion.start_holds (P := P) (m := r₀.fu.size) hfinite hprepared
    exact ⟨_, a.contained hc hconcrete And.left, hholds⟩
  | levenbergMarquardt a =>
    obtain ⟨hholds, hconcrete⟩ := LevenbergMarquardt.start_holds hc hprepared
    exact ⟨_, a.contained hc hconcrete, hholds⟩
  | spectralResidual a =>
    exact ⟨_, a.contained hc (SpectralResidual.start_ok hprepared).square, trivial⟩

/-- **No failure leaves a solve.**  Once a run has started, every active step returns, with the
failure of the strategy stored if there was one, or it ends in a fault of `Escapes`; and the solve
answers a solution that reports the failure, or it ends in such a fault of a step. -/
theorem solve_contained (a : Algorithm σ R K) (ha : a.Forms) (c : Setup σ R K) (P : K → Prop)
    (m : Nat) (hc : c.Fits P m) (world : σ) (r₀ : Run σ R K a.State)
    (hstart : Run.start a.strategy c world = .ok r₀) :
    (∀ r : Run σ R K a.State, Run.Leads a.strategy c r₀ r → r.isActive →
      (∃ t, (Run.step a.strategy c).eval r = (.ok (), t) ∧
        ∀ g s, (a.strategy.step c).eval r = (.error (.failure g), s) → t.Failed g) ∨
      ∃ f t, (Run.step a.strategy c).eval r = (.error (.fault f), t) ∧ a.Escapes c P r₀ r f) ∧
    ((∃ o, a.solve c world = .ok o ∧ o.solution.Reports) ∨
      ∃ r f, Run.Leads a.strategy c r₀ r ∧ r.isActive ∧ a.Escapes c P r₀ r f ∧
        a.solve c world = .error (.fault f)) := by
  obtain ⟨I, hcontained, hI⟩ := a.contained ha hc hstart
  have hstands : r₀.Stands c P m I := .going (Run.start_going hc hstart).1 hI
  constructor
  · intro r hr hactive
    obtain ⟨hgoing, hown⟩ := (hcontained.leads hc hr hstands).of_isActive hactive
    have hstep := hcontained.step hc hgoing hown
    rcases heval : (Run.step a.strategy c).eval r with ⟨e | x, t⟩
    · obtain ⟨f, rfl, hescapes⟩ := hstep.error heval
      exact .inr ⟨f, t, rfl, hescapes⟩
    · exact .inl ⟨t, rfl, (hstep.ok heval).2⟩
  · rw [solve_eq, outcome]
    rcases hcontained.solve hc hstart hstands with ⟨s, t, hsolve, hreports⟩ | hfault
    · rw [hsolve]
      exact .inl ⟨_, rfl, hreports⟩
    · rcases hfault with ⟨r, f, hr, hactive, hescapes, hsolve⟩
      rw [hsolve]
      exact .inr ⟨r, f, hr, hactive, hescapes, rfl⟩

end Algorithm

/-! ## Real Newton steps

A Newton step in real arithmetic has no fault, unless its linear systems were set up by hand. -/

theorem Newton.not_escapes {P : K → Prop} {s₀ : LinearSystem R K} {finite : Prop} {f : Fault}
    (hreal : ∀ x, P x → Entry.isReal x = true) (hs : s₀ = .fresh none .standard) :
    ¬Escapes P s₀ finite f := by
  have hcomplex : ¬Entry.IsComplex P := by
    intro hcomplex
    rcases hcomplex with ⟨x, hx, hfalse⟩
    rw [hreal x hx] at hfalse
    cases hfalse
  subst hs
  intro h
  cases h with
  | way entries => exact hcomplex entries
  | system fault =>
    cases fault with
    | notSquare method => cases method
    | unfit method => rcases method with h | h <;> cases h
    | complexSide _ entries => exact hcomplex entries
    | nonfinite method =>
      rcases method with h | ⟨-, h⟩
      · cases h
      · exact h.1 rfl trivial
    | noIteration limit => rcases limit with h | h <;> cases h

/-- Without a choice of its own a Newton iteration starts with a linear system as it comes. -/
theorem Newton.start_byMatrix {σ : Type} {a : Newton σ R K} {c : Setup σ R K} {u fu : Vec K}
    {system : LinearSystem R K} {s : State σ R K} (ha : a.choice = .byMatrix)
    (h : a.start c u fu = .ok (system, s)) : system = .fresh none .standard := by
  have hsystem := (start_ok h).system
  rw [ha] at hsystem
  cases hsystem
  rfl

/-- The problem whose residual is the vector of unknowns itself. -/
def plainProblem : Problem Unit Numeral Number where
  residual := .returning fun t w => (.ok t, w)
  guess := ⟨[2], .ofList [.real 1.0, .real 1.0]⟩

theorem plainProblem_fits :
    (plainSetup plainProblem).Fits (fun x => Entry.isReal x = true) 2 where
  closed := Number.closed_isReal
  answers := by
    refine ⟨?_, nofun, nofun⟩
    intro f hf v w t w' hv ht
    cases hf
    cases ht
    exact ⟨hv, id⟩
  shape := rfl
  nonempty := by decide
  guess := by decide
  backend := Backend.standard_fits Number.closed_isReal

/-- The standard Newton iteration on the numbers of double precision. -/
def plainNewton : Algorithm Unit Numeral Number := .newton (.standard .direct)

theorem plainProblem_contained :
    (plainSetup plainProblem).Fits (fun x => Entry.isReal x = true) 2 ∧
      ∃ r₀, Run.start plainNewton.strategy (plainSetup plainProblem) () = .ok r₀ ∧
        ∃ o, plainNewton.solve (plainSetup plainProblem) () = .ok o ∧ o.solution.Reports := by
  have hstarts : (Run.start plainNewton.strategy (plainSetup plainProblem) ()).toOption.isSome =
      true := by decide +kernel
  rcases hstart : Run.start plainNewton.strategy (plainSetup plainProblem) () with e | r₀
  · rw [hstart] at hstarts
    cases hstarts
  · refine ⟨plainProblem_fits, r₀, rfl, ?_⟩
    obtain ⟨-, -, hprepared⟩ := Run.start_going plainProblem_fits hstart
    rcases (Algorithm.solve_contained plainNewton nofun (plainSetup plainProblem) _ 2
      plainProblem_fits () r₀ hstart).2 with h | ⟨r, f, -, -, hescapes, -⟩
    · exact h
    · rcases hescapes with htermination | hown
      · cases htermination with
        | misaligned relative => cases relative
      · have hsystem := Newton.start_byMatrix (a := .standard .direct) rfl hprepared
        exact (Newton.not_escapes (fun x hx => hx) hsystem hown).elim

/-! ## A rule that raises

The rule for the tolerance of a spectral residual step is called as it is. What it raises leaves
the loop, where an error of a line search would have become a failure. -/

/-- A rule that raises an error. -/
def raisingRule : ToleranceRule Unit Numeral Number := fun _ w =>
  (.error (.fault (.raised .value "bad")), w)

def raisingResidual : Algorithm Unit Numeral Number :=
  .spectralResidual
    { (.standard : SpectralResidual Unit Numeral Number) with tolerance := some raisingRule }

theorem raisingRule_leaves :
    raisingResidual.validate = .ok () ∧
      (Run.start raisingResidual.strategy (plainSetup plainProblem) ()).toOption.isSome ∧
      raisingResidual.solve (plainSetup plainProblem) () =
        .error (.fault (.raised .value "bad")) := by
  refine ⟨?_, ?_, ?_⟩
  · decide +kernel
  · decide +kernel
  · rfl

end RootFinding
