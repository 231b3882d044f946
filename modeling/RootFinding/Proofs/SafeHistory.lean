import Mathlib.Logic.Function.Basic
import Mathlib.Data.List.DropRight
import RootFinding.Proofs.Best
import RootFinding.Proofs.ExactParts

/-!
# The safe modes along a whole history

A checker of a safe mode keeps a window of norms, the best iterate and its norm, and decides by
early exits. Seen from outside, a check is a function of all the looks that the solve has taken.

* `FirstBest`: the entry of a list that a running choice of the best one ends at.
* `Checker.Passed`: the checks of a solve that have left it going.
* `Checker.Recalls`: what they leave behind. The window holds the latest norms of all the looks, and
  the best iterate is the earliest look with the least norm, the start included.
* `Checker.Judged`: what a further check must answer.
* `Checker.passed_check`: a checker that has passed any looks answers just that.

No order is assumed of the scalars beyond the norms of finite vectors being ordered as numbers are.
-/

namespace RootFinding

open Action

/-! ## The first best entry of a list -/

section FirstBest

variable {α β : Type} {r : α → α → Prop} {l : List α} {x y : α}

/-- `x` stands in the list, before all other entries that are as good: it is better than the entries
before it, and none of those after it is better. -/
def FirstBest (r : α → α → Prop) (l : List α) (x : α) : Prop :=
  ∃ before after, l = before ++ x :: after ∧ (∀ y ∈ before, r x y) ∧ ∀ y ∈ after, ¬r y x

theorem firstBest_singleton (x : α) : FirstBest r [x] x :=
  ⟨[], [], rfl, by simp, by simp⟩

theorem FirstBest.mem (h : FirstBest r l x) : x ∈ l := by
  obtain ⟨before, after, rfl, -⟩ := h
  simp

theorem FirstBest.not_better [IsStrictOrder α r] (h : FirstBest r l x) (hy : y ∈ l) : ¬r y x := by
  obtain ⟨before, after, rfl, hbefore, hafter⟩ := h
  rcases List.mem_append.1 hy with hy | hy
  · exact asymm (hbefore y hy)
  · rcases List.mem_cons.1 hy with rfl | hy
    · exact irrefl y
    · exact hafter y hy

theorem FirstBest.unique (hx : FirstBest r l x) (hy : FirstBest r l y) : x = y := by
  obtain ⟨before, after, rfl, hbefore, hafter⟩ := hx
  obtain ⟨before', after', heq, hbefore', hafter'⟩ := hy
  rcases List.append_eq_append_iff.1 heq with ⟨between, rfl, hbetween⟩ | ⟨between, rfl, hbetween⟩
  · cases between with
    | nil => exact (List.cons.inj hbetween).1
    | cons z between =>
      obtain ⟨rfl, rfl⟩ := List.cons.inj hbetween
      exact (hafter y (by simp) (hbefore' x (by simp))).elim
  · cases between with
    | nil => exact (List.cons.inj hbetween).1.symm
    | cons z between =>
      obtain ⟨rfl, rfl⟩ := List.cons.inj hbetween
      exact (hafter' x (by simp) (hbefore y (by simp))).elim

theorem FirstBest.append_worse (h : FirstBest r l x) (hy : ¬r y x) : FirstBest r (l ++ [y]) x := by
  obtain ⟨before, after, rfl, hbefore, hafter⟩ := h
  refine ⟨before, after ++ [y], by simp, hbefore, fun z hz => ?_⟩
  rcases List.mem_append.1 hz with hz | hz
  · exact hafter z hz
  · rwa [List.mem_singleton.1 hz]

/-- What is better than an entry is better than any entry that is not better than that one. -/
theorem better_of_not_better [IsStrictWeakOrder α r] {z : α} (hyx : r y x) (hzx : ¬r z x) :
    r y z := by
  by_contra hyz
  by_cases hzy : r z y
  · exact hzx (trans_of r hzy hyx)
  · -- `z` ranks with `y`, so it would be better than `x`
    by_cases hxz : r x z
    · exact hyz (trans_of r hyx hxz)
    · exact (IsStrictWeakOrder.incomp_trans y z x ⟨hyz, hzy⟩ ⟨hzx, hxz⟩).1 hyx

theorem FirstBest.append_better [IsStrictWeakOrder α r] (h : FirstBest r l x) (hy : r y x) :
    FirstBest r (l ++ [y]) y :=
  ⟨l, [], rfl, fun _ hz => better_of_not_better hy (h.not_better hz), by simp⟩

/-- A running choice of the best entry ends at the first best one. -/
theorem foldl_firstBest [IsStrictWeakOrder α r] [DecidableRel r] (x : α) (l : List α) :
    FirstBest r (x :: l) (l.foldl (fun best y => if r y best then y else best) x) := by
  induction l using List.reverseRecOn with
  | nil => exact firstBest_singleton x
  | append_singleton l y ih =>
    rw [List.foldl_append, List.foldl_cons, List.foldl_nil, ← List.cons_append]
    split
    next hy => exact ih.append_better hy
    next hy => exact ih.append_worse hy

end FirstBest

/-! ## Windows -/

/-- The latest entries can be taken from the latest entries before. -/
theorem rtake_append_rtake {α : Type} (l : List α) (x : α) (n : Nat) :
    (l.rtake n ++ [x]).rtake n = (l ++ [x]).rtake n := by
  cases n with
  | zero => simp
  | succ n =>
    rw [List.rtake_concat_succ, List.rtake_concat_succ, List.rtake_eq_reverse_take_reverse,
      List.rtake_eq_reverse_take_reverse, List.rtake_eq_reverse_take_reverse, List.reverse_reverse,
      List.take_take, Nat.min_eq_left n.le_succ]

/-! ## Looks -/

variable {R K : Type} [Scalar R] [Entry R K]

/-- What a check looks at, when its values are finite: an iterate with its residual, and the iterate
before the last step. -/
structure Look (K : Type) {R : Type} [Scalar R] [Entry R K] where
  residual : Vec K
  iterate : Vec K
  previous : Vec K
  residual_finite : residual.isFinite
  iterate_finite : iterate.isFinite

variable {norm : Vec K → R}

/-- The norms of finite vectors are ordered as numbers are. -/
def Ordered (norm : Vec K → R) : Prop :=
  IsStrictWeakOrder {v : Vec K // v.isFinite = true} fun v w => norm v < norm w

namespace Look

/-- The residual of the one look has a smaller norm than that of the other. -/
def Lower (norm : Vec K → R) (l m : Look K) : Prop := norm l.residual < norm m.residual

def Higher (norm : Vec K → R) (l m : Look K) : Prop := Lower norm m l

instance decidableLower (norm : Vec K → R) : DecidableRel (Lower norm) := fun l m =>
  Scalar.decideLt (norm l.residual) (norm m.residual)

instance decidableHigher (norm : Vec K → R) : DecidableRel (Higher norm) := fun l m =>
  Scalar.decideLt (norm m.residual) (norm l.residual)

theorem lower_order (h : Ordered norm) : IsStrictWeakOrder (Look K) (Lower norm) := by
  have h : IsStrictWeakOrder {v : Vec K // v.isFinite = true} fun v w => norm v < norm w := h
  exact inferInstanceAs (IsStrictWeakOrder (Look K) (Function.onFun
    (fun v w : {v : Vec K // v.isFinite = true} => norm v < norm w)
    fun l => ⟨l.residual, l.residual_finite⟩))

theorem higher_order (h : Ordered norm) : IsStrictWeakOrder (Look K) (Higher norm) := by
  have h := lower_order h
  exact inferInstanceAs (IsStrictWeakOrder (Look K) (Function.swap (Lower norm)))

/-- The smallest norm of some looks is that of the first look with the least norm. -/
theorem least_norm (norm : Vec K → R) (l : Look K) (looks : List (Look K)) :
    (looks.map fun m => norm m.residual).foldl Scalar.least (norm l.residual) =
      norm (looks.foldl (fun best m => if Lower norm m best then m else best) l).residual := by
  rw [List.foldl_map]
  refine List.foldl_hom (fun l : Look K => norm l.residual) fun best m => ?_
  exact (apply_ite (fun l : Look K => norm l.residual) _ _ _).symm

theorem greatest_norm (norm : Vec K → R) (l : Look K) (looks : List (Look K)) :
    (looks.map fun m => norm m.residual).foldl Scalar.greatest (norm l.residual) =
      norm (looks.foldl (fun best m => if Higher norm m best then m else best) l).residual := by
  rw [List.foldl_map]
  refine List.foldl_hom (fun l : Look K => norm l.residual) fun best m => ?_
  exact (apply_ite (fun l : Look K => norm l.residual) _ _ _).symm

end Look

/-- No significant progress over the latest looks: there are enough of them, the newest residual is
far from its bound, and the largest norm among the latest is within a factor of the smallest. -/
structure Termination.Stuck (t : Termination R) (norm : Vec K → R) (looks : List (Look K))
    (newest criterion : R) : Prop where
  patience : t.patienceSteps ≤ looks.length
  far : t.patienceMultiplier * criterion ≤ newest
  flat : ∃ high low, FirstBest (Look.Higher norm) (looks.rtake t.patienceSteps.toNat) high ∧
    FirstBest (Look.Lower norm) (looks.rtake t.patienceSteps.toNat) low ∧
    norm high.residual < t.minMaxFactor * norm low.residual

namespace Checker

variable {k k₀ k' : Checker R K} {start l : Look K} {looks : List (Look K)}

/-- The check that takes a look. -/
def look (l : Look K) : Action (Thrown R K) (Checker R K) Bool :=
  check l.residual l.iterate l.previous

/-- The checks of the looks have all left the solve going. -/
inductive Passed (k₀ : Checker R K) : List (Look K) → Checker R K → Prop
  | start : Passed k₀ [] k₀
  | next (looks : List (Look K)) (l : Look K) (k k' : Checker R K) :
      Passed k₀ looks k → (look l).eval k = (.ok false, k') → Passed k₀ (looks ++ [l]) k'

/-- The best iterate and the least norm are those of the earliest best look. -/
def LedBy (k : Checker R K) (norm : Vec K → R) (looks : List (Look K)) : Prop :=
  ∃ l, FirstBest (Look.Lower norm) looks l ∧ k.best = l.iterate ∧ k.bestNorm = norm l.residual

/-- The checker `k₀` with the window of some looks and any best iterate. -/
def withWindow (k₀ : Checker R K) (looks : List (Look K)) (best : Vec K) (bestNorm : R)
    (lastFinite : Vec K) : Checker R K :=
  { k₀ with
    best, bestNorm, lastFinite
    history := (looks.map fun l => k₀.norm l.residual).rtake k₀.settings.patienceSteps.toNat }

/-- What a checker knows of the looks that it has passed since the first one. -/
structure Recalls (k₀ : Checker R K) (start : Look K) (looks : List (Look K))
    (k : Checker R K) : Prop where
  window : ∃ best bestNorm lastFinite, k = k₀.withWindow looks best bestNorm lastFinite
  leader : k.LedBy k₀.norm (start :: looks)

/-- A window of norms shows no progress exactly if the looks that it comes from do not. -/
theorem isStuck_iff (hnorm : Ordered norm) (hsteps : 1 ≤ k.settings.patienceSteps)
    (hhistory : k.history =
      (looks.map fun l => norm l.residual).rtake k.settings.patienceSteps.toNat)
    (newest criterion : R) :
    k.isStuck newest criterion = true ↔ k.settings.Stuck norm looks newest criterion := by
  have hlow := Look.lower_order hnorm
  have hhigh := Look.higher_order hnorm
  have hwindow : k.history =
      (looks.rtake k.settings.patienceSteps.toNat).map fun l => norm l.residual := by
    rw [hhistory, List.rtake, List.rtake, List.map_drop, List.length_map]
  have hlength : (k.history.length : Int) = k.settings.patienceSteps ↔
      k.settings.patienceSteps ≤ looks.length := by
    rw [hwindow, List.length_map, List.rtake, List.length_drop]
    omega
  unfold isStuck
  cases hlooks : looks.rtake k.settings.patienceSteps.toNat with
  | nil =>
    rw [hlooks] at hwindow
    rw [hwindow] at hlength ⊢
    refine iff_of_false Bool.false_ne_true fun hstuck => ?_
    have : ((0 : Nat) : Int) = k.settings.patienceSteps := hlength.2 hstuck.patience
    omega
  | cons m window =>
    rw [hlooks, List.map_cons] at hwindow
    have hleast := foldl_firstBest (r := Look.Lower norm) m window
    have hgreatest := foldl_firstBest (r := Look.Higher norm) m window
    rw [hwindow] at hlength ⊢
    simp only [Bool.and_eq_true, beq_iff_eq, hlength, decide_eq_true_eq, Look.least_norm,
      Look.greatest_norm]
    constructor
    · rintro ⟨⟨hpatience, hfar⟩, hflat⟩
      exact ⟨hpatience, hfar, _, _, hlooks ▸ hgreatest, hlooks ▸ hleast, hflat⟩
    · rintro ⟨hpatience, hfar, high, low, hh, hl, hflat⟩
      rw [hlooks] at hh hl
      rw [hgreatest.unique hh, hleast.unique hl]
      exact ⟨⟨hpatience, hfar⟩, hflat⟩

/-- What a check must answer on a residual of the norm `newest` with the bound `criterion`, the
newest of the looks. -/
structure Judged (t : Termination R) (norm : Vec K → R) (initial : R) (looks : List (Look K))
    (newest criterion : R) (x : Except (Thrown R K) Bool) : Prop where
  converged : x = .ok true ↔ newest ≤ criterion
  diverged : (∃ f, x = .error (.failure f) ∧ f.kind = .divergence) ↔
    ¬newest ≤ criterion ∧ t.protectiveThreshold * initial < newest
  stalled : (∃ f, x = .error (.failure f) ∧ f.kind = .stall) ↔
    ¬newest ≤ criterion ∧ ¬t.protectiveThreshold * initial < newest ∧
      t.Stuck norm looks newest criterion
  undecided : x = .ok false ↔
    ¬newest ≤ criterion ∧ ¬t.protectiveThreshold * initial < newest ∧
      ¬t.Stuck norm looks newest criterion

/-- The further checks of a safe mode: a residual that has grown too far is told before a stall, and
does not enter the window. -/
theorem withWindow_checkProgress (hnorm : Ordered k₀.norm)
    (hsteps : 1 ≤ k₀.settings.patienceSteps) (looks : List (Look K)) (l : Look K) (criterion : R)
    (best : Vec K) (bestNorm : R) (lastFinite : Vec K) :
    (checkProgress (k₀.norm l.residual) criterion l.iterate).Ends
      (k₀.withWindow looks best bestNorm lastFinite)
      (fun _ k' => (¬k₀.settings.protectiveThreshold * k₀.initial < k₀.norm l.residual ∧
          ¬k₀.settings.Stuck k₀.norm (looks ++ [l]) (k₀.norm l.residual) criterion) ∧
        ∃ best bestNorm, k' = k₀.withWindow (looks ++ [l]) best bestNorm lastFinite)
      (fun e _ => ∃ f, e = .failure f ∧
        (f.kind = .divergence ∧
            k₀.settings.protectiveThreshold * k₀.initial < k₀.norm l.residual ∨
          f.kind = .stall ∧
            ¬k₀.settings.protectiveThreshold * k₀.initial < k₀.norm l.residual ∧
            k₀.settings.Stuck k₀.norm (looks ++ [l]) (k₀.norm l.residual) criterion)) := by
  simp only [checkProgress, ends_bind, ends_get]
  refine Ends.guard
    (I := fun t => ∃ best bestNorm, t = k₀.withWindow looks best bestNorm lastFinite) ?_ ?_ ?_
  · intro _
    exact ⟨l.iterate, k₀.norm l.residual, rfl⟩
  · intro _
    exact ⟨best, bestNorm, rfl⟩
  · rintro t ⟨best, bestNorm, rfl⟩
    split
    next hgrown =>
      simp only [ends_bind, ends_fail]
      exact ⟨_, rfl, .inl ⟨rfl, hgrown⟩⟩
    next hgrown =>
      have hremember : (k₀.withWindow looks best bestNorm lastFinite).remember
          (k₀.norm l.residual) =
            (k₀.withWindow (looks ++ [l]) best bestNorm lastFinite).history := by
        have := rtake_append_rtake (looks.map fun l => k₀.norm l.residual) (k₀.norm l.residual)
          k₀.settings.patienceSteps.toNat
        rwa [← List.map_singleton (f := fun l : Look K => k₀.norm l.residual),
          ← List.map_append] at this
      have hstuck := isStuck_iff (k := k₀.withWindow (looks ++ [l]) best bestNorm lastFinite)
        hnorm hsteps rfl (k₀.norm l.residual) criterion
      simp only [ends_bind, ends_modify, ends_get, hremember]
      split
      next hflat => exact ⟨_, rfl, .inr ⟨rfl, hgrown, hstuck.1 hflat⟩⟩
      next hflat => exact ⟨⟨hgrown, fun hs => hflat (hstuck.2 hs)⟩, best, bestNorm, rfl⟩

/-- The best iterate after one more look is that of the earliest best look, the new one included. -/
theorem LedBy.challenged (hnorm : Ordered k.norm) (h : k.LedBy k.norm looks)
    (hleader : k'.leader = k.challenged l.residual l.iterate) : k'.LedBy k.norm (looks ++ [l]) := by
  have hlow := Look.lower_order hnorm
  obtain ⟨m, hm, hbest, hbestNorm⟩ := h
  unfold Checker.challenged at hleader
  rw [hbestNorm] at hleader
  split at hleader
  next hlt => exact ⟨l, hm.append_better hlt, Prod.mk.inj hleader⟩
  next hnot =>
    obtain ⟨hbest', hbestNorm'⟩ := Prod.mk.inj hleader
    exact ⟨m, hm.append_worse hnot, hbest'.trans hbest, hbestNorm'.trans hbestNorm⟩

/-- A check with the window of some looks answers as it must. -/
theorem withWindow_look (hsafe : k₀.isSafe = true) (hnorm : Ordered k₀.norm)
    (hsteps : 1 ≤ k₀.settings.patienceSteps) (looks : List (Look K)) (l : Look K)
    {criterion : R} (hcriterion : k₀.criterion l.residual l.iterate = .ok criterion)
    (best : Vec K) (bestNorm : R) (lastFinite : Vec K) :
    (look l).Ends (k₀.withWindow looks best bestNorm lastFinite)
      (fun b k' => Judged k₀.settings k₀.norm k₀.initial (looks ++ [l]) (k₀.norm l.residual)
          criterion (.ok b) ∧
        (b = false → ∃ best bestNorm lastFinite,
          k' = k₀.withWindow (looks ++ [l]) best bestNorm lastFinite))
      (fun e _ => (∃ f, e = .failure f) ∧
        Judged k₀.settings k₀.norm k₀.initial (looks ++ [l]) (k₀.norm l.residual) criterion
          (.error e)) := by
  have hprogress := withWindow_checkProgress hnorm hsteps looks l criterion best bestNorm l.iterate
  simp only [look, check, ends_bind, ends_get, l.residual_finite, l.iterate_finite, Bool.and_self,
    Bool.not_true, Bool.false_eq_true, if_false, ends_set]
  split
  next hmode =>
    have hmode : k₀.settings.mode = .abs := hmode
    rw [isSafe, hmode] at hsafe
    cases hsafe
  next hmode =>
    have hmode : k₀.settings.mode = .rel := hmode
    rw [isSafe, hmode] at hsafe
    cases hsafe
  next =>
    rw [ends_bind]
    refine (ends_ofFault_ok hcriterion).2 ?_
    split
    next hle =>
      have hle : k₀.norm l.residual ≤ criterion := hle
      exact ⟨by constructor <;> simp [hle], by simp⟩
    next hnot =>
      have hnot : ¬k₀.norm l.residual ≤ criterion := hnot
      have hsafe : (k₀.withWindow looks best bestNorm lastFinite).isSafe = true := hsafe
      simp only [hsafe, if_true]
      rw [ends_bind]
      refine hprogress.mono ?_ ?_
      · rintro _ _ ⟨⟨hgrown, hstuck⟩, best', bestNorm', rfl⟩
        exact ⟨by constructor <;> simp [hnot, hgrown, hstuck],
          fun _ => ⟨best', bestNorm', l.iterate, rfl⟩⟩
      · rintro _ _ ⟨f, rfl, ⟨hkind, hgrown⟩ | ⟨hkind, hgrown, hstuck⟩⟩
        · exact ⟨⟨f, rfl⟩, by constructor <;> simp [hnot, hkind, hgrown]⟩
        · exact ⟨⟨f, rfl⟩, by constructor <;> simp [hnot, hkind, hgrown, hstuck]⟩

/-- How a check ends after looks that the checker recalls. -/
theorem Recalls.judged (hsafe : k₀.isSafe = true) (hnorm : Ordered k₀.norm)
    (hsteps : 1 ≤ k₀.settings.patienceSteps) (h : Recalls k₀ start looks k) (l : Look K)
    {criterion : R} (hcriterion : k₀.criterion l.residual l.iterate = .ok criterion) :
    (look l).Ends k
      (fun b k' => Judged k₀.settings k₀.norm k₀.initial (looks ++ [l]) (k₀.norm l.residual)
          criterion (.ok b) ∧ (b = false → Recalls k₀ start (looks ++ [l]) k'))
      (fun e k' => Judged k₀.settings k₀.norm k₀.initial (looks ++ [l]) (k₀.norm l.residual)
          criterion (.error e) ∧ k'.LedBy k₀.norm (start :: (looks ++ [l]))) := by
  obtain ⟨⟨best, bestNorm, lastFinite, rfl⟩, hled⟩ := h
  have hwindow := withWindow_look hsafe hnorm hsteps looks l hcriterion best bestNorm lastFinite
  have hchallenge : (look l).Ends (k₀.withWindow looks best bestNorm lastFinite) _ _ :=
    check_challenges l.previous hsafe
  rw [l.residual_finite, l.iterate_finite, Bool.and_self, if_pos rfl] at hchallenge
  refine (hwindow.and hchallenge).mono ?_ ?_
  · rintro b k' ⟨⟨hjudged, hkept⟩, hleader⟩
    refine ⟨hjudged, ?_⟩
    rintro rfl
    exact ⟨hkept rfl, LedBy.challenged (k := k₀.withWindow looks _ _ _) hnorm hled hleader⟩
  · rintro e k' ⟨⟨⟨f, rfl⟩, hjudged⟩, hleader⟩
    exact ⟨hjudged, LedBy.challenged (k := k₀.withWindow looks _ _ _) hnorm hled (hleader f rfl)⟩

/-- A look that is none of the three ends is recalled too. -/
theorem Recalls.undecided (hsafe : k₀.isSafe = true) (hnorm : Ordered k₀.norm)
    (hsteps : 1 ≤ k₀.settings.patienceSteps) (h : Recalls k₀ start looks k) (l : Look K)
    {criterion : R} (hcriterion : k₀.criterion l.residual l.iterate = .ok criterion)
    (hfar : ¬k₀.norm l.residual ≤ criterion)
    (hgrown : ¬k₀.settings.protectiveThreshold * k₀.initial < k₀.norm l.residual)
    (hstuck : ¬k₀.settings.Stuck k₀.norm (looks ++ [l]) (k₀.norm l.residual) criterion) :
    (look l).Ends k (fun b k' => b = false ∧ Recalls k₀ start (looks ++ [l]) k')
      (fun _ _ => False) := by
  refine (h.judged hsafe hnorm hsteps l hcriterion).mono (fun b k' hb => ?_) (fun e _ he => ?_)
  · obtain ⟨hjudged, hrecalls⟩ := hb
    obtain rfl : b = false := by simpa using hjudged.undecided.2 ⟨hfar, hgrown, hstuck⟩
    exact ⟨rfl, hrecalls rfl⟩
  · cases he.1.undecided.2 ⟨hfar, hgrown, hstuck⟩

/-- A look that shows no progress ends the solve. -/
theorem Recalls.stalls (hsafe : k₀.isSafe = true) (hnorm : Ordered k₀.norm)
    (hsteps : 1 ≤ k₀.settings.patienceSteps) (h : Recalls k₀ start looks k) (l : Look K)
    {criterion : R} (hcriterion : k₀.criterion l.residual l.iterate = .ok criterion)
    (hfar : ¬k₀.norm l.residual ≤ criterion)
    (hgrown : ¬k₀.settings.protectiveThreshold * k₀.initial < k₀.norm l.residual)
    (hstuck : k₀.settings.Stuck k₀.norm (looks ++ [l]) (k₀.norm l.residual) criterion) :
    (look l).Ends k (fun _ _ => False)
      (fun e k' => (∃ f, e = .failure f ∧ f.kind = .stall) ∧
        k'.LedBy k₀.norm (start :: (looks ++ [l]))) := by
  refine (h.judged hsafe hnorm hsteps l hcriterion).mono (fun b _ hb => ?_) (fun e k' he => ?_)
  · obtain ⟨f, hf, -⟩ := hb.1.stalled.2 ⟨hfar, hgrown, hstuck⟩
    cases hf
  · obtain ⟨f, hf, hkind⟩ := he.1.stalled.2 ⟨hfar, hgrown, hstuck⟩
    exact ⟨⟨f, Except.error.inj hf, hkind⟩, he.2⟩

/-- A check whose bound cannot be computed raises the fault. -/
theorem Recalls.look_fault (hsafe : k₀.isSafe = true) (h : Recalls k₀ start looks k) (l : Look K)
    {f : Fault} (hcriterion : k₀.criterion l.residual l.iterate = .error f) :
    (look l).Ends k (fun _ _ => False) (fun e _ => e = .fault f) := by
  obtain ⟨⟨best, bestNorm, lastFinite, rfl⟩, -⟩ := h
  simp only [look, check, ends_bind, ends_get, l.residual_finite, l.iterate_finite,
    Bool.and_self, Bool.not_true, Bool.false_eq_true, if_false, ends_set]
  split
  next hmode =>
    have hmode : k₀.settings.mode = .abs := hmode
    rw [isSafe, hmode] at hsafe
    cases hsafe
  next hmode =>
    have hmode : k₀.settings.mode = .rel := hmode
    rw [isSafe, hmode] at hsafe
    cases hsafe
  next =>
    rw [ends_bind]
    exact (ends_ofFault_error hcriterion).2 rfl

/-! ## All looks of a solve -/

section Solve

variable {t : Termination R} {abstol reltol : R}

/-- The checker of a solve that starts with a look. -/
def ofLook (t : Termination R) (start : Look K) (abstol reltol : R) (norm : Vec K → R) :
    Checker R K :=
  ofStart t start.residual start.iterate abstol reltol norm

/-- The checks that have left a solve going are recalled. -/
theorem Passed.recalls (hsafe : (ofLook t start abstol reltol norm).isSafe = true)
    (hsteps : 1 ≤ t.patienceSteps) (hnorm : Ordered norm)
    (h : Passed (ofLook t start abstol reltol norm) looks k) :
    Recalls (ofLook t start abstol reltol norm) start looks k := by
  induction h with
  | start =>
    refine ⟨⟨start.iterate, norm start.residual, start.iterate, ?_⟩, start, firstBest_singleton _,
      rfl, rfl⟩
    simp [withWindow, ofLook, ofStart]
  | next looks l k k' _ hlook ih =>
    cases hcriterion : (ofLook t start abstol reltol norm).criterion l.residual l.iterate with
    | error f => exact ((ih.look_fault hsafe l hcriterion).ok hlook).elim
    | ok criterion => exact ((ih.judged hsafe hnorm hsteps l hcriterion).ok hlook).2 rfl

/-- **The safe checks are decided by the history alone.**  In a safe mode, after any looks with
finite values that have left the solve going, one more finite look is answered as follows, where its
bound can be computed: the solve has converged if the norm of the residual is within the bound; or
else it has diverged if the norm exceeds the guarded multiple of the first one; or else it has
stalled if there are as many looks as the patience asks for, the norm is far from the bound, and the
largest of the latest norms is within a factor of the smallest; or else the solve goes on. Unless it
has converged, the best iterate is then the earliest one with the least norm of all, the start
included. -/
theorem passed_check (t : Termination R) (start : Look K) (abstol reltol : R)
    (hsafe : t.mode.isSafe = true) (haccepted : t.refusal? = none) (hnorm : Ordered norm)
    (hpassed : Passed (ofLook t start abstol reltol norm) looks k) (l : Look K) :
    ∃ x k', (look l).eval k = (x, k') ∧
      (∀ f, (ofLook t start abstol reltol norm).criterion l.residual l.iterate = .error f →
        x = .error (.fault f)) ∧
      ∀ criterion,
        (ofLook t start abstol reltol norm).criterion l.residual l.iterate = .ok criterion →
        Judged t norm (norm start.residual) (looks ++ [l]) (norm l.residual) criterion x ∧
          (x ≠ .ok true → k'.LedBy norm (start :: (looks ++ [l]))) := by
  have hsteps : 1 ≤ t.patienceSteps := by
    by_contra hfew
    have : t.patienceSteps < 1 := by omega
    simp [Termination.refusal?, this] at haccepted
  have hsafe : (ofLook t start abstol reltol norm).isSafe = true := hsafe
  have hrecalls := hpassed.recalls hsafe hsteps hnorm
  rcases hlook : (look l).eval k with ⟨x, k'⟩
  refine ⟨x, k', rfl, fun f hcriterion => ?_, fun criterion hcriterion => ?_⟩
  · have hends := hrecalls.look_fault hsafe l hcriterion
    cases x with
    | ok b => exact (hends.ok hlook).elim
    | error e => rw [hends.error hlook]
  · have hends := hrecalls.judged hsafe hnorm hsteps l hcriterion
    cases x with
    | ok b =>
      obtain ⟨hjudged, hkept⟩ := hends.ok hlook
      refine ⟨hjudged, fun hb => (hkept ?_).leader⟩
      simpa using hb
    | error e =>
      obtain ⟨hjudged, hled⟩ := hends.error hlook
      exact ⟨hjudged, fun _ => hled⟩

end Solve

end Checker

/-! ## A residual that stays the same -/

namespace SafeHistory

open Exact

/-- The euclidean norm orders the finite vectors of exact arithmetic. -/
theorem ordered_norm : Ordered (Vec.norm : Vec Exact → Exact) := by
  have hlength : ∀ v : {v : Vec Exact // v.isFinite = true},
      ∃ x, v.1.norm = real x := fun v => (norm_real v.2).imp fun _ h => h.2
  choose length hlength using hlength
  have hreal : IsStrictWeakOrder ℝ (· < ·) := isStrictWeakOrder_of_isOrderConnected
  have horder : IsStrictWeakOrder {v : Vec Exact // v.isFinite = true}
      (Function.onFun (· < ·) length) := inferInstance
  have hsame : (fun v w : {v : Vec Exact // v.isFinite = true} => v.1.norm < w.1.norm) =
      Function.onFun (· < ·) length := by
    funext v w
    rw [hlength v, hlength w]
    exact propext real_lt
  rw [Ordered, hsame]
  exact horder

/-- A safe mode that looks for progress over two steps. -/
noncomputable def twoSteps : Termination Exact :=
  { Termination.standard with mode := .absSafe, patienceSteps := (2 : ℕ) }

/-- Of two looks at residuals of the same norm none is lower. -/
theorem not_lower_level {l l' : Look Exact} {h : ℝ} (hl : l.residual.norm = real h)
    (hl' : l'.residual.norm = real h) : ¬Look.Lower Vec.norm l l' := by
  rw [Look.Lower, hl, hl']
  exact lt_irrefl h

/-- Two looks at residuals of the same norm show no progress. -/
theorem level_stuck {l l' : Look Exact} {h : ℝ} (hh : 3e-8 ≤ h) (hl : l.residual.norm = real h)
    (hl' : l'.residual.norm = real h) :
    twoSteps.Stuck Vec.norm [l, l'] l'.residual.norm 1e-8 := by
  have hlow : FirstBest (Look.Lower Vec.norm) [l, l'] l :=
    (firstBest_singleton l).append_worse (not_lower_level hl' hl)
  have hhigh : FirstBest (Look.Higher Vec.norm) [l, l'] l :=
    (firstBest_singleton l).append_worse (not_lower_level hl hl')
  refine ⟨le_refl _, ?_, l, l, hhigh, hlow, ?_⟩
  · have hthree : twoSteps.patienceMultiplier * (1e-8 : Exact) = real 3e-8 := by
      norm_num [twoSteps, Termination.standard]
    rw [hthree, hl', real_le]
    exact hh
  · have hfactor : twoSteps.minMaxFactor = real 1.3 := by
      norm_num [twoSteps, Termination.standard]
    rw [hfactor, hl, real_mul, real_lt]
    linarith

/-- From a start on, a second look at a residual of the same norm is a stall, and the start stays
the best iterate. -/
theorem level_looks {start l : Look Exact} {h : ℝ} (hh : 3e-8 ≤ h)
    (hstart : start.residual.norm = real h) (hl : l.residual.norm = real h) :
    (Checker.look l).Ends (.ofLook twoSteps start 1e-8 1e-8 Vec.norm)
      (fun b k => b = false ∧ ∀ l' : Look Exact, l'.residual.norm = real h →
        (Checker.look l').Ends k (fun _ _ => False)
          (fun e k' => (∃ f, e = .failure f ∧ f.kind = .stall) ∧ k'.best = start.iterate))
      (fun _ _ => False) := by
  have hfar : ∀ {m : Look Exact}, m.residual.norm = real h → ¬m.residual.norm ≤ (1e-8 : Exact) :=
    fun {m} hm => by
      rw [hm, ofScientific_eq, real_le, not_le]
      exact lt_of_lt_of_le (by norm_num) hh
  have hgrown : ∀ {m : Look Exact}, m.residual.norm = real h →
      ¬twoSteps.protectiveThreshold * start.residual.norm < m.residual.norm := fun {m} hm => by
    have hthousand : twoSteps.protectiveThreshold = real 1000 := by
      norm_num [twoSteps, Termination.standard]
    rw [hm, hstart, hthousand, real_mul, real_lt]
    linarith
  have hsteps : (1 : Int) ≤ twoSteps.patienceSteps := by decide
  have hpassed : Checker.Passed (.ofLook twoSteps start 1e-8 1e-8 Vec.norm) []
      (.ofLook twoSteps start 1e-8 1e-8 Vec.norm) := .start
  have hrecalls := hpassed.recalls rfl hsteps ordered_norm
  refine (hrecalls.undecided rfl ordered_norm hsteps l rfl (hfar hl) (hgrown hl)
    fun hstuck => ?_).mono (fun b k hb => ⟨hb.1, fun l' hl' => ?_⟩) (fun _ _ h => h)
  · have hpatience : (2 : Int) ≤ 1 := hstuck.patience
    exact absurd hpatience (by decide)
  · refine (hb.2.stalls rfl ordered_norm hsteps l' rfl (hfar hl') (hgrown hl')
      (level_stuck hh hl hl')).mono (fun _ _ h => h) (fun e k' he => ⟨he.1, ?_⟩)
    obtain ⟨m, hm, hbest, -⟩ := he.2
    have hled : FirstBest (Look.Lower Vec.norm) [start, l, l'] start :=
      ((firstBest_singleton start).append_worse (not_lower_level hl hstart)).append_worse
        (not_lower_level hl' hstart)
    have hstrict := Look.lower_order (K := Exact) ordered_norm
    rw [hbest, hled.unique hm]

/-- A look at the residual one. -/
noncomputable def flatLook : Look Exact where
  residual := .ofList [real 1]
  iterate := .ofList [real 1]
  previous := .ofList [real 1]
  residual_finite := rfl
  iterate_finite := rfl

theorem flatLook_norm : flatLook.residual.norm = real 1 :=
  (Vec.Reads.norm_single rfl).trans (congrArg real abs_one)

/-- The second look at the same residual is a stall, and the start is the best iterate. -/
theorem flat_looks_stall :
    twoSteps.mode.isSafe = true ∧ twoSteps.refusal? = none ∧
      Ordered (Vec.norm : Vec Exact → Exact) ∧
      ∃ k, Checker.Passed (.ofLook twoSteps flatLook 1e-8 1e-8 Vec.norm) [flatLook] k ∧
        ∃ f k', (Checker.look flatLook).eval k = (.error (.failure f), k') ∧ f.kind = .stall ∧
          k'.best = flatLook.iterate ∧ k'.bestNorm = real 1 := by
  have hnorm := flatLook_norm
  have hfar : ¬flatLook.residual.norm ≤ (1e-8 : Exact) := by
    rw [hnorm]
    norm_num
  have hguard : ¬twoSteps.protectiveThreshold * flatLook.residual.norm <
      flatLook.residual.norm := by
    change ¬(1e3 : Exact) * flatLook.residual.norm < flatLook.residual.norm
    rw [hnorm]
    norm_num
  have hfirst := Checker.passed_check twoSteps flatLook 1e-8 1e-8 rfl rfl ordered_norm .start
    flatLook
  obtain ⟨x, k, hlook, -, hjudged⟩ := hfirst
  have hx : x = .ok false := (hjudged 1e-8 rfl).1.undecided.2 ⟨hfar, hguard, fun h => by
    have := h.patience
    simp [twoSteps] at this⟩
  subst hx
  have hpassed : Checker.Passed (.ofLook twoSteps flatLook 1e-8 1e-8 Vec.norm) [flatLook] k :=
    .next [] flatLook _ k .start hlook
  obtain ⟨x, k', hlook', -, hjudged'⟩ := Checker.passed_check twoSteps flatLook 1e-8 1e-8 rfl rfl
    ordered_norm hpassed flatLook
  obtain ⟨hdecided, hled⟩ := hjudged' 1e-8 rfl
  have hstuck : twoSteps.Stuck Vec.norm [flatLook, flatLook] flatLook.residual.norm 1e-8 :=
    level_stuck (by norm_num) hnorm hnorm
  obtain ⟨f, rfl, hkind⟩ := hdecided.stalled.2 ⟨hfar, hguard, hstuck⟩
  obtain ⟨l, hl, hbest, hbestNorm⟩ := hled (by simp)
  have hflat : l = flatLook := by simpa using hl.mem
  subst hflat
  exact ⟨rfl, rfl, ordered_norm, k, hpassed, f, k', hlook', hkind, hbest, hbestNorm.trans hnorm⟩

end SafeHistory

end RootFinding
