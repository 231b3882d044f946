import RootFinding.Proofs.Backtracking
import RootFinding.Proofs.ExactParts
import RootFinding.Proofs.Newton

/-!
# The range of backtracking searches

What a line search by backtracking takes of a step, and how a step of a Newton run moves.

* `LineSearch.meritOf`: the merit along a step as a function. `LineSearch.phi_knows`: the search
  computes it, with or without an evaluation.
* `LineSearch.Chosen`: the range and the decrease of an answer. It is zero where the residual is not
  finite after the full step, for then the parabola has its least point there. And it may be less
  than the least part, for that is only compared with the trial before.
* `LineSearch.Searched`: how a search ends. `LineSearch.backtracking_range`: so ends every search by
  backtracking.
* `LineSearch.cliff_stays`: a search that takes nothing of a step.
-/

namespace RootFinding

open Action Exact

namespace LineSearch

section Range

variable {σ K : Type} [Entry Exact K] {F : Vec K → Work σ Exact K (Vec K)} {G : Vec K → Vec K}
  {p : SearchPoint K} {s : LineSearch σ Exact K} {least : ℝ} {warnings : Array String}

/-- The residual answers `G` at every vector of `n` entries, without a warning. -/
def Evaluates (F : Vec K → Work σ Exact K (Vec K)) (G : Vec K → Vec K) (n : Nat) : Prop :=
  ∀ v, v.size = n → ∀ w, (F v).Ends w (fun f w' => f = G v ∧ w'.warnings = w.warnings)
    fun _ _ => False

/-- The square of the norm of the residual after a part of the step. -/
noncomputable def squareAt (G : Vec K → Vec K) (p : SearchPoint K) (a : Exact) : Exact :=
  Scalar.square (G (p.u - a • p.du)).norm

/-- The merit after a part of the step. -/
noncomputable def meritOf (G : Vec K → Vec K) (p : SearchPoint K) (a : Exact) : Exact :=
  if Scalar.isFinite (squareAt G p a) then squareAt G p a else Scalar.infinity

/-- The memo is that of an evaluation, and no warning was given. -/
structure Knows (G : Vec K → Vec K) (p : SearchPoint K) (warnings : Array String)
    (t : Workspace σ Exact K × Memo Exact) : Prop where
  merit : t.2.merit = meritOf G p t.2.step
  silent : t.1.warnings = warnings

/-- A merit is a real number if the residual is finite, and infinite otherwise. -/
theorem meritOf_cases (G : Vec K → Vec K) (p : SearchPoint K) (a : Exact) :
    (∃ g, 0 ≤ g ∧ (G (p.u - a • p.du)).isFinite = true ∧ squareAt G p a = real g ∧
      meritOf G p a = real g) ∨
    (G (p.u - a • p.du)).isFinite = false ∧ meritOf G p a = posInf ∧
      ∀ x, ¬squareAt G p a ≤ real x := by
  have h : IsSize (squareAt G p a) (G (p.u - a • p.du)).isFinite := by
    rw [← (isSize_norm (G (p.u - a • p.du))).isReal]
    exact isSize_square _
  rw [meritOf, isFinite_eq, h.isReal]
  cases hfinite : (G (p.u - a • p.du)).isFinite with
  | true =>
    rw [hfinite] at h
    obtain ⟨g, hg, heq⟩ := h
    exact .inl ⟨g, hg, rfl, heq, (if_pos rfl).trans heq⟩
  | false =>
    rw [hfinite] at h
    refine .inr ⟨rfl, rfl, fun x hle => ?_⟩
    rcases h with heq | heq <;> (rw [heq] at hle; exact hle)

theorem meritOf_nonneg (a : Exact) : real 0 ≤ meritOf G p a := by
  rcases meritOf_cases G p a with ⟨g, hg, -, -, heq⟩ | ⟨-, heq, -⟩
  · rw [heq]
    exact hg
  · rw [heq]
    trivial

theorem low_iff (f a : ℝ) (x : Exact) :
    Armijo.Low f a (meritOf G p x) ↔ Armijo.Low f a (squareAt G p x) := by
  rcases meritOf_cases G p x with ⟨g, -, -, hsquare, hmerit⟩ | ⟨-, hmerit, hsquare⟩
  · rw [hmerit, hsquare]
  · rw [hmerit]
    exact iff_of_false id (hsquare _)

/-- What a search answers that gives no warning. It takes all of a step that is low enough, and
nothing of a step only if the residual is not finite after it. It takes less than the least part
only if the parabola has its least point there or is refused. -/
structure Chosen (G : Vec K → Vec K) (p : SearchPoint K) (least a : ℝ) : Prop where
  nonneg : 0 ≤ a
  le_one : a ≤ 1
  lowers : p.du.norm ≠ real 0 → p.fu.norm ≠ real 0 →
    squareAt G p (real a) ≤ real (1 - 1e-4 * a) * Scalar.square p.fu.norm
  moves : (G (p.u - real 1 • p.du)).isFinite → 0 < a
  stays : p.du.norm ≠ real 0 → p.fu.norm ≠ real 0 →
    (G (p.u - real 1 • p.du)).isFinite = false → a = 0
  full (f : ℝ) : Scalar.square p.fu.norm = real f → Armijo.Low f 1 (meritOf G p (real 1)) → a = 1
  least_le (f : ℝ) : Scalar.square p.fu.norm = real f → ¬Armijo.Refused (meritOf G p) f →
    least ≤ Armijo.vertex f (meritOf G p (real 1)) → least ≤ a

/-- Nothing is searched along no step, or without a residual. -/
theorem chosen_full (hone : least ≤ 1) (h : p.du.norm = real 0 ∨ p.fu.norm = real 0) :
    Chosen G p least 1 where
  nonneg := zero_le_one
  le_one := le_rfl
  lowers hdu hfu := (h.elim hdu hfu).elim
  moves _ := one_pos
  stays hdu hfu := (h.elim hdu hfu).elim
  full _ _ _ := rfl
  least_le _ _ _ _ := hone

theorem chosen_of_found {f a : ℝ} (hf : 0 < f) (hfu : Scalar.square p.fu.norm = real f)
    (hone : least ≤ 1) (h : Armijo.Found (meritOf G p) f (some (real a))) : Chosen G p least a := by
  have hlowers : squareAt G p (real a) ≤ real (1 - 1e-4 * a) * Scalar.square p.fu.norm := by
    rw [hfu, real_mul]
    exact (low_iff f a _).1 h.low
  rcases meritOf_cases G p (real 1) with ⟨g, -, hfinite, -, hmerit⟩ | ⟨hinfinite, hmerit, hhigh⟩
  · have hstays (h : (G (p.u - real 1 • p.du)).isFinite = false) : a = 0 :=
      Bool.noConfusion (hfinite.symm.trans h)
    cases h with
    | full =>
      exact ⟨zero_le_one, le_rfl, fun _ _ => hlowers, fun _ => one_pos, fun _ _ => hstays,
        fun _ _ _ => rfl, fun _ _ _ _ => hone⟩
    | parabola high hvertex =>
      obtain ⟨-, hpos, hlt⟩ := Armijo.vertex_mem hf (hmerit ▸ high)
      rw [← hmerit, ← hvertex] at hpos hlt
      refine ⟨hpos.le, hlt.le, fun _ _ => hlowers, fun _ => hpos, fun _ _ => hstays,
        fun f' hf' hlow => ?_, fun f' hf' _ hleast => ?_⟩
      · cases hfu.symm.trans hf'
        exact (high hlow).elim
      · cases hfu.symm.trans hf'
        rwa [hvertex]
    | cubic _ refused pos lt_one =>
      refine ⟨pos.le, lt_one.le, fun _ _ => hlowers, fun _ => pos, fun _ _ => hstays,
        fun f' hf' hlow => ?_, fun f' hf' hpassed => ?_⟩
      · cases hfu.symm.trans hf'
        exact (refused.full hlow).elim
      · cases hfu.symm.trans hf'
        exact (hpassed refused).elim
  · have hzero : a = 0 := by
      cases h with
      | full low => exact (hhigh _ ((low_iff f 1 _).1 low)).elim
      | parabola _ hvertex =>
        rw [hvertex, hmerit]
        rfl
      | cubic finite => cases hmerit.symm.trans finite
    refine ⟨hzero.ge, hzero.trans_le zero_le_one, fun _ _ => hlowers,
      fun h => Bool.noConfusion (hinfinite.symm.trans h), fun _ _ _ => hzero,
      fun f' _ hlow => (hhigh _ ((low_iff f' 1 _).1 hlow)).elim, fun f' _ _ hleast => ?_⟩
    rw [hmerit] at hleast
    rw [hzero]
    exact hleast

theorem meritAt_ends (hF : Evaluates F G p.u.size) (hsize : p.du.size = p.u.size) (a : Exact)
    (w : Workspace σ Exact K) :
    (meritAt F p a).Ends w (fun m w' => m = squareAt G p a ∧ w'.warnings = w.warnings)
      (fun _ _ => False) := by
  have hstep : (a • p.du : Vec K).size = p.u.size := (List.length_map _).trans hsize
  have hpoint : (p.u - a • p.du).size = p.u.size := by
    refine List.length_zipWith.trans ?_
    change min p.u.size (a • p.du).size = _
    rw [hstep, min_self]
  rw [meritAt, Vec.align_of_size hstep.symm, ends_bind, ends_ofFault_ok rfl, ends_bind]
  refine (hF _ hpoint w).mono (fun f w' hf => ?_) (fun _ _ he => he)
  exact ⟨congrArg (fun v => Scalar.square (Vec.norm v)) hf.1, hf.2⟩

section Merits

variable (hF : Evaluates F G p.u.size) (hsize : p.du.size = p.u.size)
  {t : Workspace σ Exact K × Memo Exact}

include hF hsize

/-- A merit that is not that of the memo is evaluated. -/
theorem phi_evaluates {a : Exact} (hnew : Scalar.same t.2.step a = false)
    (ht : t.1.warnings = warnings) :
    (phi F p a).Ends t (fun m t' => m = meritOf G p a ∧ Knows G p warnings t')
      (fun _ _ => False) := by
  rw [phi, ends_bind, ends_get]
  dsimp only
  rw [hnew, if_neg Bool.false_ne_true, ends_bind, Probe.ofWork, ends_within]
  refine (meritAt_ends hF hsize a t.1).mono (fun m w' hm => ?_) (fun _ _ he => he)
  obtain ⟨rfl, hsilent⟩ := hm
  exact ⟨rfl, rfl, hsilent.trans ht⟩

theorem phi_knows (a : Exact) (ht : Knows G p warnings t) :
    (phi F p a).Ends t (fun m t' => m = meritOf G p a ∧ Knows G p warnings t')
      (fun _ _ => False) := by
  cases hsame : Scalar.same t.2.step a with
  | false => exact phi_evaluates hF hsize hsame ht.silent
  | true =>
    rw [phi, ends_bind, ends_get]
    dsimp only
    rw [hsame, if_pos rfl]
    exact ⟨ht.merit.trans (congrArg (meritOf G p) (eq_of_same hsame)), ht⟩

/-- So ends the search of a built-in method by backtracking: it finds nothing only if the first two
trials are refused. -/
theorem builtIn_chosen (hmethod : s.method = .armijo) (hleast : s.least = real least)
    (hpos : 0 < least) (hone : least ≤ 1) (hf : p.fu.norm ≠ real 0) (size : Exact)
    (ht : t.1.warnings = warnings) (hzero : t.2.step = real 0) :
    (builtIn s F p (Scalar.square p.fu.norm) size).Ends t
      (fun x t' => t'.1.warnings = warnings ∧
        (x = none → ∀ f, Scalar.square p.fu.norm = real f → Armijo.Refused (meritOf G p) f) ∧
          ∀ y, x = some y → ∃ a, y = real a ∧ Chosen G p least a)
      (fun _ _ => False) := by
  have hnew : Scalar.same t.2.step (real 1) = false := by
    rw [hzero, ← Bool.not_eq_true, same_iff]
    exact fun h => zero_ne_one (Exact.real.inj h)
  have hfirst := phi_evaluates hF hsize hnew ht
  have hphi : ∀ a t, Knows G p warnings t → (phi F p a).Ends t
      (fun m t' => m = meritOf G p a ∧ Knows G p warnings t') fun _ _ => False :=
    fun a t => phi_knows hF hsize a
  have hmerit := isSize_square p.fu.norm
  rw [builtIn, hmethod]
  dsimp only
  rw [hleast]
  cases hfinite : p.fu.norm.isReal with
  | true =>
    rw [hfinite] at hmerit
    obtain ⟨f, hnonneg, hfu⟩ := hmerit
    have hfpos : 0 < f := lt_of_le_of_ne hnonneg fun h =>
      hf (square_eq_zero.1 (hfu.trans (congrArg real h.symm)))
    rw [hfu]
    refine (Armijo.search_found hphi meritOf_nonneg hfpos hpos hfirst).mono
      (fun x t' h => ⟨h.2.silent, fun hx f' hf' => ?_, fun y hy => ?_⟩) (fun _ _ he => he)
    · cases hf'
      rw [hx] at h
      exact h.1.refused
    · rw [hy] at h
      obtain ⟨a, rfl⟩ := h.1.exists_real
      exact ⟨a, rfl, chosen_of_found hfpos hfu hone h.1⟩
  | false =>
    rw [hfinite] at hmerit
    refine (Armijo.search_not_real hmerit hphi hfirst).mono
      (fun x t' h => ⟨h.2.silent, fun _ f hfu => ?_, fun y hy => ?_⟩) (fun _ _ he => he)
    · rw [hfu] at hmerit
      rcases hmerit with h | h <;> cases h
    · cases h.1.symm.trans hy

end Merits

/-- So ends a search that began in the workspace `w`: it gives up with a warning, unless one of its
first two trials is low enough, or it answers without one. -/
inductive Searched (G : Vec K → Vec K) (p : SearchPoint K) (least : ℝ)
    (w w' : Workspace σ Exact K) : ℝ → Prop
  | gaveUp (refused : ∀ f, Scalar.square p.fu.norm = real f → Armijo.Refused (meritOf G p) f)
    (warned : w'.warnings = w.warnings.push "Line search 'armijo' failed, using full step.") :
    Searched G p least w w' 1
  | chosen {a : ℝ} (chosen : Chosen G p least a) (silent : w'.warnings = w.warnings) :
    Searched G p least w w' a

theorem searchBuiltIn_searched (hmethod : s.method = .armijo) (hleast : s.least = real least)
    (hpos : 0 < least) (hone : least ≤ 1) (hF : Evaluates F G p.u.size)
    (hsize : p.du.size = p.u.size) (w : Workspace σ Exact K) :
    (searchBuiltIn s F p).Ends w
      (fun x w' => ∃ a, x = real a ∧ Searched G p least w w' a)
      (fun _ _ => False) := by
  have hzero : (0.0 : Exact) = real 0 := by norm_num
  have hfull : (1.0 : Exact) = real 1 := by norm_num
  have hidle : (Scalar.same p.du.norm (real 0) || Scalar.same (Scalar.square p.fu.norm) (real 0)) =
      true ↔ p.du.norm = real 0 ∨ p.fu.norm = real 0 := by
    rw [Bool.or_eq_true, same_iff, same_iff, square_eq_zero]
  rw [searchBuiltIn]
  dsimp only
  rw [hzero, hfull]
  by_cases h : p.du.norm = real 0 ∨ p.fu.norm = real 0
  · rw [if_pos (hidle.2 h)]
    exact ⟨1, rfl, .chosen (chosen_full hone h) rfl⟩
  · obtain ⟨-, hfu⟩ := not_or.1 h
    rw [if_neg (mt hidle.1 h), ends_bind]
    obtain ⟨x, t, heval, hsilent, hnothing, hchosen⟩ := (builtIn_chosen hF hsize hmethod hleast
      hpos hone hfu (p.u.norm / p.du.norm) (t := (w, ⟨real 0, Scalar.square p.fu.norm⟩)) rfl
      rfl).exists_ok
    refine ends_iff.2 ⟨fun y w' hy => ?_, fun e w' he => ?_⟩
    · rw [eval_ofFun, heval] at hy
      cases hy
      change t.1.warnings = w.warnings at hsilent
      cases x with
      | none =>
        refine ⟨1, rfl, .gaveUp (hnothing rfl) ?_⟩
        rw [hmethod, ← hsilent]
        rfl
      | some x =>
        obtain ⟨a, rfl, ha⟩ := hchosen x rfl
        exact ⟨a, if_neg (not_lt.2 ha.le_one), .chosen ha hsilent⟩
    · rw [eval_ofFun, heval] at he
      cases he

end Range

end LineSearch

/-! ## Steps of a Newton run -/

namespace Vec

variable (𝕜 : Type) {K : Type} [RCLike 𝕜] [Entry Exact K] [ExactEntry 𝕜 K] {u d : Vec K} {a : ℝ}

include 𝕜 in
/-- A vector changes when a part of a direction is taken away. -/
theorem sub_smul_ne (hu : u.isFinite) (hd : d.isFinite) (hsize : d.size = u.size)
    (hnonzero : d.isZero = false) (ha : a ≠ 0) : u - real a • d ≠ u := by
  obtain ⟨x, hx⟩ := reads_of_isFinite (𝕜 := 𝕜) hu rfl
  obtain ⟨y, hy⟩ := reads_of_isFinite (𝕜 := 𝕜) hd hsize
  have hpart : (real a • d : Vec K).Reads fun i => (a : 𝕜) * y i :=
    hy.map fun z => by rw [ExactEntry.ofReal, ExactEntry.mul]
  intro heq
  have hmoved := hx.sub hpart
  rw [heq] at hmoved
  have hzero (i : Fin u.size) : y i = 0 := by
    have hentry := congrFun (hmoved.inj hx) i
    rw [Pi.sub_apply, sub_eq_self] at hentry
    exact (mul_eq_zero.1 hentry).resolve_left (RCLike.ofReal_ne_zero.2 ha)
  have hall : d.isZero = true := by
    refine List.all_eq_true.2 fun z hz => ?_
    change z ∈ d.toList at hz
    rw [reads_iff.1 hy, List.mem_ofFn] at hz
    obtain ⟨i, rfl⟩ := hz
    rw [hzero i]
    exact (ExactEntry.isZero_iff _).2 rfl
  cases hall.symm.trans hnonzero

end Vec

namespace LineSearch

section Steps

variable {σ 𝕜 K : Type} [RCLike 𝕜] [Entry Exact K] [ExactEntry 𝕜 K] {s : LineSearch σ Exact K}
  {G : Vec K → Vec K} {c : Setup σ Exact K} {a : Newton σ Exact K}
  {r t : Run σ Exact K (Newton.State σ Exact K)} {least : ℝ}

omit [RCLike 𝕜] [ExactEntry 𝕜 K] in
theorem search_searched (hmethod : s.method = .armijo) (hleast : s.least = real least)
    (hpos : 0 < least) (hone : least ≤ 1) {F : Vec K → Work σ Exact K (Vec K)}
    {p : SearchPoint K} (hF : Evaluates F G p.u.size) (hsize : p.du.size = p.u.size)
    (w : Workspace σ Exact K) :
    ∃ x w', (s.search F p).eval w = (.ok (real x), w') ∧ Searched G p least w w' x := by
  have hsearch : s.search F p = searchBuiltIn s F p := by rw [search, hmethod]
  rw [hsearch]
  obtain ⟨x, w', heval, x', rfl, hsearched⟩ :=
    (searchBuiltIn_searched hmethod hleast hpos hone hF hsize w).exists_ok
  exact ⟨x', w', heval, hsearched⟩

include 𝕜 in
/-- A step of a Newton run moves the iterate, if its direction is not zero and the residual is
finite after the full step. -/
theorem step_moves (hmethod : r.ext.search.method = .armijo)
    (hleast : r.ext.search.least = real least) (hpos : 0 < least) (hone : least ≤ 1)
    (hF : Evaluates c.problem.evaluate G r.u.size) (hstep : (a.step c).eval r = (.ok (), t))
    (hu : r.u.isFinite) (hsize : t.du.size = r.u.size) (hnonzero : t.du.isZero = false)
    (hfinite : (G (r.u - real 1 • t.du)).isFinite) : t.u ≠ r.u := by
  obtain ⟨q, w, w₁, htaken⟩ := (Newton.step_taken r).ok hstep
  obtain ⟨b, -, hsolve⟩ := htaken.solved
  have hdu : t.du.isFinite = true := (LinearSystem.solve_finite _ _ b q.work).ok hsolve
  obtain ⟨x, w', hsearch, hsearched⟩ :=
    search_searched hmethod hleast hpos hone (p := ⟨r.u, r.fu, t.du⟩) hF hsize w
  obtain ⟨halpha, -⟩ := Prod.mk.inj (htaken.searched.symm.trans hsearch)
  rw [htaken.u, Except.ok.inj halpha]
  refine Vec.sub_smul_ne 𝕜 hu hdu hsize hnonzero ?_
  cases hsearched with
  | gaveUp => exact one_ne_zero
  | chosen hchosen => exact (hchosen.moves hfinite).ne'

include 𝕜 in
/-- **The range of a backtracking search.**  For every residual, which may be infinite or undefined
at the trials, and every step, a search by backtracking answers. Either it gives up with a warning
and takes the full step, or it answers a part of the step between zero and one at which the merit
has decreased by enough. That part is positive if the residual is finite after the full step. It is
at least `least` if one of the first two trials is low enough and the least point of the parabola is
no less. So a step of a Newton run along a direction that is not zero moves the iterate, if the
residual is finite after the full step. -/
theorem backtracking_range (s : LineSearch σ Exact K) (hmethod : s.method = .armijo)
    (hleast : s.least = real least) (hpos : 0 < least) (hone : least ≤ 1) :
    (∀ F G (p : SearchPoint K) w, Evaluates F G p.u.size → p.du.size = p.u.size →
      ∃ x w', (s.search F p).eval w = (.ok (real x), w') ∧ Searched G p least w w' x) ∧
    ∀ (a : Newton σ Exact K) c r t G, r.ext.search = s → Evaluates c.problem.evaluate G r.u.size →
      (a.step c).eval r = (.ok (), t) → r.u.isFinite → t.du.size = r.u.size →
        t.du.isZero = false → (G (r.u - real 1 • t.du)).isFinite → t.u ≠ r.u := by
  refine ⟨fun F G p w hF hsize => search_searched hmethod hleast hpos hone hF hsize w, ?_⟩
  intro a c r t G hsame hF hstep hu hsize hnonzero hfinite
  exact step_moves (𝕜 := 𝕜) (hsame ▸ hmethod) (hsame ▸ hleast) hpos hone hF hstep hu hsize hnonzero
    hfinite

end Steps

/-! ## A residual with a cliff -/

/-- The residual of the identity that is infinite up to a half. -/
noncomputable def cliff (v : Vec Exact) : Vec Exact :=
  v.map fun x => if real (1 / (2 : ℕ)) < x then x else posInf

noncomputable def cliffProblem : Problem Unit Exact Exact where
  residual := .returning fun t w => (.ok ⟨t.shape, cliff t.entries⟩, w)
  guess := ⟨[1], .ofList [real 1]⟩

noncomputable def cliffSetup : Setup Unit Exact Exact where
  problem := cliffProblem
  options :=
    { abstol := 1e-8, reltol := 1e-8, termination := .standard, norm := Vec.norm }
  backend := .standard

/-- The step from one to zero. -/
noncomputable def downhill : SearchPoint Exact where
  u := .ofList [real 1]
  fu := .ofList [real 1]
  du := .ofList [real 1]

noncomputable def backtracking : LineSearch Unit Exact Exact := .standard .armijo

theorem backtracking_least : backtracking.least = real (1 / 100) := by
  have h : backtracking.least = 1e-2 := rfl
  rw [h, ofScientific_eq]
  norm_num

theorem cliff_evaluates : Evaluates cliffProblem.evaluate cliff 1 := by
  intro v hv w
  have hx : cliffProblem.restructure v = .ok ⟨[1], v⟩ := if_pos hv
  rw [Problem.evaluate, ends_bind, ends_ofFault_ok hx]
  exact ⟨rfl, rfl⟩

theorem downhill_after (x : ℝ) :
    downhill.u - real x • downhill.du = Vec.ofList [real (1 - x)] := by
  change Vec.ofList [real 1 - real x * real 1] = _
  rw [real_mul, real_sub, mul_one]

theorem cliff_range :
    backtracking.method = .armijo ∧ backtracking.least = real (1 / 100) ∧ 0 < (1 / 100 : ℝ) ∧
      (1 / 100 : ℝ) ≤ 1 ∧
      (∃ x w', (backtracking.search cliffProblem.evaluate downhill).eval (Run.emptyWorkspace ()) =
        (.ok (real x), w') ∧
          Searched cliff downhill (1 / 100) (Run.emptyWorkspace ()) w' x) ∧
      ∀ (a : Newton Unit Exact Exact) r t, r.ext.search = backtracking → r.u.size = 1 →
        (a.step cliffSetup).eval r = (.ok (), t) → r.u.isFinite → t.du.size = r.u.size →
          t.du.isZero = false → (cliff (r.u - real 1 • t.du)).isFinite → t.u ≠ r.u := by
  have hpos : 0 < (1 / 100 : ℝ) := by norm_num
  have hone : (1 / 100 : ℝ) ≤ 1 := by norm_num
  obtain ⟨hsearch, hsteps⟩ :=
    backtracking_range (𝕜 := ℝ) backtracking rfl backtracking_least hpos hone
  refine ⟨rfl, backtracking_least, hpos, hone, hsearch _ _ _ _ cliff_evaluates rfl, ?_⟩
  intro a r t hsame hsize
  exact hsteps a cliffSetup r t cliff hsame (hsize.symm ▸ cliff_evaluates)

theorem cliff_single (x : ℝ) :
    cliff (.ofList [real x]) = .ofList [if 1 / (2 : ℕ) < x then real x else posInf] :=
  congrArg (fun y => [y]) (if_congr real_lt rfl rfl)

/-- The search takes nothing of a step over the cliff, and gives no warning. -/
theorem cliff_stays :
    cliff downhill.u = downhill.fu ∧
      ∃ w', (backtracking.search cliffProblem.evaluate downhill).eval (Run.emptyWorkspace ()) =
        (.ok (real 0), w') ∧ w'.warnings = #[] ∧ ¬backtracking.least ≤ real 0 := by
  have hstart : cliff (.ofList [real 1]) = .ofList [real 1] := by
    rw [cliff_single, if_pos (by norm_num)]
  have hend : cliff (downhill.u - real 1 • downhill.du) = .ofList [posInf] := by
    rw [downhill_after, cliff_single, if_neg (by norm_num)]
  have hbegin : cliff (downhill.u - real 0 • downhill.du) = .ofList [real 1] := by
    rw [downhill_after, sub_zero, hstart]
  have hnorm : (Vec.ofList [real 1] : Vec Exact).norm = real 1 :=
    (Vec.Reads.norm_single rfl).trans (congrArg real abs_one)
  have hleast : ¬backtracking.least ≤ real 0 := by
    rw [backtracking_least, real_le]
    norm_num
  have hsquare : Scalar.square downhill.fu.norm = real 1 := by
    change Scalar.square (Vec.ofList [real 1] : Vec Exact).norm = _
    rw [hnorm, square_real, mul_one]
  obtain ⟨x, w', heval, hsearched⟩ := search_searched (s := backtracking) rfl backtracking_least
    (by norm_num) (by norm_num) (p := downhill) cliff_evaluates rfl (Run.emptyWorkspace ())
  refine ⟨hstart, w', ?_⟩
  cases hsearched with
  | gaveUp refused =>
    have hlow : Armijo.Low 1 0 (meritOf cliff downhill (real 0)) := by
      rw [low_iff, squareAt, hbegin, hnorm, square_real, Armijo.Low, real_le]
      norm_num
    have hhigh := (refused 1 hsquare).parabola
    rcases meritOf_cases cliff downhill (real 1) with ⟨g, -, hfinite, -⟩ | ⟨-, hmerit, -⟩
    · rw [hend] at hfinite
      cases hfinite
    · rw [hmerit] at hhigh
      exact absurd hlow hhigh
  | chosen hchosen silent =>
    have hunit : (Vec.ofList [real 1] : Vec Exact).norm ≠ real 0 := by
      rw [hnorm]
      exact fun h => one_ne_zero (Exact.real.inj h)
    have hzero : x = 0 := hchosen.stays hunit hunit (by rw [hend]; rfl)
    rw [← hzero]
    exact ⟨heval, silent, hzero ▸ hleast⟩

end LineSearch

end RootFinding
