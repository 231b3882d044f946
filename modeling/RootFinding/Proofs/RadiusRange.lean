import RootFinding.Proofs.TrustRadius

/-!
# The range of the trust radius

The trust radius stays positive in every solve, and within its largest value once it is there.

* `TrustRadius.Updated t t'`: updates that do not fail lead from `t` to `t'`, each for a step that
  is not longer than the radius.
* `TrustRadius.update_between`: one update keeps a radius between zero and a bound that is not below
  the largest radius.
* `TrustRadius.grows`: a step that agreed with the model leaves a radius within its largest value at
  least as large.
* `TrustRadius.radius_bounded`: both, from the start of a solve on.

A first radius of the caller above the largest one is used as it is, and the doubling scheme goes by
ratios of its own; `TrustRadius.oversized_shrinks` and `TrustRadius.early_doubling_shrinks` are what
comes of it.
-/

namespace RootFinding

open Action Exact

namespace Exact

/-! ## Positive numbers -/

variable {a b d : Exact} {x : ℝ}

theorem ne_undefined_of_pos (ha : real 0 < a) : a ≠ undefined := by
  rintro rfl
  exact not_lt_undefined ha

theorem le_self_of_pos (ha : real 0 < a) : a ≤ a := le_self (ne_undefined_of_pos ha)

theorem pos_mul (ha : real 0 < a) (hb : real 0 < b) : real 0 < a * b := by
  cases a with
  | real x =>
    cases b with
    | real y => exact mul_pos (real_lt.1 ha) (real_lt.1 hb)
    | posInf =>
      rw [real_mul_posInf (real_lt.1 ha)]
      trivial
    | negInf | undefined => exact hb.elim
  | posInf =>
    cases b with
    | real y =>
      have hinf : posInf * real y = posInf := if_pos (real_lt.1 hb)
      rw [hinf]
      trivial
    | posInf => trivial
    | negInf | undefined => exact hb.elim
  | negInf | undefined => exact ha.elim

theorem mul_le_of_le_one (hx : 0 < x) (hx1 : x ≤ 1) (ha : real 0 < a) : real x * a ≤ a := by
  cases a with
  | real y => exact mul_le_of_le_one_left (real_lt.1 ha).le hx1
  | posInf =>
    rw [real_mul_posInf hx]
    trivial
  | negInf | undefined => exact ha.elim

theorem le_mul_of_one_lt (hb : real 1 < b) (ha : real 0 < a) : a ≤ b * a := by
  cases b with
  | real x =>
    have hx : 1 < x := real_lt.1 hb
    cases a with
    | real y => exact le_mul_of_one_le_left (real_lt.1 ha).le hx.le
    | posInf =>
      rw [real_mul_posInf (zero_lt_one.trans hx)]
      trivial
    | negInf | undefined => exact ha.elim
  | posInf =>
    cases a with
    | real y =>
      have hinf : posInf * real y = posInf := if_pos (real_lt.1 ha)
      rw [hinf]
      trivial
    | posInf => trivial
    | negInf | undefined => exact ha.elim
  | negInf | undefined => exact hb.elim

theorem pos_least (ha : real 0 < a) (hb : real 0 < b) : real 0 < Scalar.least a b := by
  unfold Scalar.least
  split
  · exact hb
  · exact ha

theorem pos_greatest (ha : real 0 < a) (hb : real 0 < b) : real 0 < Scalar.greatest a b := by
  unfold Scalar.greatest
  split
  · exact hb
  · exact ha

theorem le_least (h : d ≤ a) (h' : d ≤ b) : d ≤ Scalar.least a b := by
  unfold Scalar.least
  split
  · exact h'
  · exact h

theorem least_le (ha : a ≠ undefined) (hb : b ≠ undefined) :
    Scalar.least a b ≤ a ∧ Scalar.least a b ≤ b := by
  unfold Scalar.least
  split
  next h => exact ⟨le_of_lt h, le_self hb⟩
  next h => exact ⟨le_self ha, le_of_not_less hb ha h⟩

theorem least_le_right (ha : real 0 < a) (hb : real 0 < b) : Scalar.least a b ≤ b :=
  (least_le (ne_undefined_of_pos ha) (ne_undefined_of_pos hb)).2

theorem le_greatest_left (ha : real 0 < a) : a ≤ Scalar.greatest a b := by
  unfold Scalar.greatest
  split
  next h => exact le_of_lt h
  next => exact le_self_of_pos ha

theorem le_greatest_right (ha : real 0 < a) (hb : real 0 < b) : b ≤ Scalar.greatest a b := by
  unfold Scalar.greatest
  split
  · exact le_self_of_pos hb
  next h => exact le_of_not_less (ne_undefined_of_pos ha) (ne_undefined_of_pos hb) h

end Exact

/-! ## Settings -/

/-- What settings that are accepted say about enlargements. -/
theorem RadiusSettings.growth {s : RadiusSettings Exact} (h : s.refusal? = none) :
    s.shrinkBelow < s.expandAbove ∧ real 1 < s.expandFactor := by
  obtain ⟨⟨-, -, habove⟩, -, -, hexpand⟩ := refusal?_eq_none.1 h
  rw [ofScientific_eq] at hexpand
  norm_num at hexpand
  exact ⟨habove, hexpand⟩

namespace TrustRadius

/-! ## Factors of the smooth scheme -/

theorem smoothFactor_pos (below : ℝ) (ratio : Exact) :
    real 0 < smoothFactor (real below) (effective ratio) := by
  by_cases hlow : effective ratio < real below
  · obtain ⟨z, hz, -, heq⟩ := smoothFactor_low hlow
    rw [heq]
    exact hz
  · rcases effective_real_or ratio with ⟨y, hy⟩ | hinf
    · rw [hy] at hlow ⊢
      have hhigh := (smoothCurve_high (not_lt.1 (mt real_lt.2 hlow))).1
      norm_num at hhigh
      rw [smoothFactor_real, real_lt]
      linarith
    · rw [hinf] at hlow
      exact absurd trivial hlow

/-! ## One update -/

/-- What the radius fulfils between two updates of a solve, for a bound that is not below the
largest radius. -/
structure Between (s : RadiusSettings Exact) (maximum bound : Exact) (t : TrustRadius Exact) :
    Prop where
  settings : t.settings = s
  maximum : t.maximum = maximum
  radius_pos : real 0 < t.radius
  radius_le : t.radius ≤ bound

section Step

variable {K : Type} {s : RadiusSettings Exact} {maximum bound ratio length : Exact}
  {t : TrustRadius Exact} {step below factor : ℝ}

theorem Between.of_radius (ht : Between s maximum bound t) {radius : Exact} (n : Nat)
    (hpos : real 0 < radius) (hle : radius ≤ bound) :
    Between s maximum bound { t with radius, shrinks := n } :=
  ⟨ht.settings, ht.maximum, hpos, hle⟩

theorem Between.shrink (ht : Between s maximum bound t) {radius : Exact} (hpos : real 0 < radius)
    (hle : radius ≤ bound) :
    (shrink radius : Action (Thrown Exact K) (TrustRadius Exact) Unit).Ends t
      (fun _ t' => Between s maximum bound t') (fun _ _ => True) :=
  (shrink_ends t radius).mono
    (fun _ t' h => by rw [h.1]; exact ht.of_radius _ hpos hle) (fun _ _ _ => trivial)

/-- A radius that is cut to the largest one. -/
theorem Between.grow (ht : Between s maximum bound t) (hmaximum : real 0 < maximum)
    (hbound : maximum ≤ bound) {radius : Exact} (hpos : real 0 < radius) :
    Between s maximum bound
      { t with radius := Scalar.least radius t.maximum, shrinks := 0 } := by
  refine ht.of_radius 0 ?_ ?_
  · rw [ht.maximum]
    exact pos_least hpos hmaximum
  · rw [ht.maximum]
    exact le_trans (least_le_right hpos hmaximum) hbound

theorem Between.updateSimple (ht : Between s maximum bound t) (hs : s.Accepted step below factor)
    (hexpand : real 1 < s.expandFactor) (hmaximum : real 0 < maximum)
    (hbound : maximum ≤ bound) :
    (updateSimple t ratio length : Action (Thrown Exact K) _ _).Ends t
      (fun _ t' => Between s maximum bound t') (fun _ _ => True) := by
  unfold TrustRadius.updateSimple
  rw [ht.settings]
  split
  · rw [hs.factor_eq]
    exact ht.shrink (pos_mul hs.factor_pos ht.radius_pos)
      (le_trans (mul_le_of_le_one hs.factor_pos hs.factor_lt_one.le ht.radius_pos) ht.radius_le)
  · dsimp only
    split
    · exact ht.grow hmaximum hbound
        (pos_mul (lt_of_real_lt zero_lt_one hexpand) ht.radius_pos)
    · exact ht.of_radius _ ht.radius_pos ht.radius_le

theorem Between.updateDoubling (ht : Between s maximum bound t) (hmaximum : real 0 < maximum)
    (hbound : maximum ≤ bound) (hlength : real 0 < length) :
    (updateDoubling t ratio length : Action (Thrown Exact K) _ _).Ends t
      (fun _ t' => Between s maximum bound t') (fun _ _ => True) := by
  have hhalf : (0.5 : Exact) = real (1 / 2) := by norm_num
  have htwo : real 0 < (2.0 : Exact) := by norm_num
  unfold TrustRadius.updateDoubling
  split
  · rw [hhalf]
    exact ht.shrink (pos_mul (real_lt.2 one_half_pos) ht.radius_pos)
      (le_trans (mul_le_of_le_one one_half_pos one_half_lt_one.le ht.radius_pos) ht.radius_le)
  · split
    · exact ht.grow hmaximum hbound (pos_greatest ht.radius_pos (pos_mul htwo hlength))
    · exact ht.of_radius _ ht.radius_pos ht.radius_le

theorem Between.updateSmooth (ht : Between s maximum bound t) (hs : s.Accepted step below factor)
    (hmaximum : real 0 < maximum) (hbound : maximum ≤ bound) (hlength : real 0 < length) :
    (updateSmooth t (effective ratio) length : Action (Thrown Exact K) _ _).Ends t
      (fun _ t' => Between s maximum bound t') (fun _ _ => True) := by
  have hsmall : real 0 < (1e-3 : Exact) := by norm_num
  have hradius : real 0 < smoothFactor t.settings.shrinkBelow (effective ratio) * length := by
    rw [ht.settings, hs.below_eq]
    exact pos_mul (smoothFactor_pos below ratio) hlength
  have hreduced : real 0 < t.settings.shrinkFactor * t.radius := by
    rw [ht.settings, hs.factor_eq]
    exact pos_mul hs.factor_pos ht.radius_pos
  have hsmaller : t.settings.shrinkFactor * t.radius ≤ t.radius := by
    rw [ht.settings, hs.factor_eq]
    exact mul_le_of_le_one hs.factor_pos hs.factor_lt_one.le ht.radius_pos
  unfold TrustRadius.updateSmooth
  dsimp only
  split
  · exact ht.shrink (pos_least hradius hreduced)
      (le_trans (least_le_right hradius hreduced) (le_trans hsmaller ht.radius_le))
  · exact ht.grow hmaximum hbound (pos_greatest hradius (pos_mul hsmall ht.radius_pos))

/-- An update for a step of positive length keeps the radius positive and within the bound. -/
theorem update_between (ht : Between s maximum bound t) (hs : s.refusal? = none)
    (hmaximum : real 0 < maximum) (hbound : maximum ≤ bound) (hlength : real 0 < length) :
    (update ratio length : Action (Thrown Exact K) (TrustRadius Exact) Bool).Ends t
      (fun _ t' => Between s maximum bound t') (fun _ _ => True) := by
  obtain ⟨step, below, factor, haccepted⟩ := RadiusSettings.accepted hs
  obtain ⟨-, hexpand⟩ := RadiusSettings.growth hs
  simp only [update, ends_bind, ends_get]
  cases t.settings.scheme with
  | simple =>
    exact (ht.updateSimple haccepted hexpand hmaximum hbound).bind (fun _ _ h => h) fun _ _ h => h
  | doubling =>
    exact (ht.updateDoubling hmaximum hbound hlength).bind (fun _ _ h => h) fun _ _ h => h
  | smooth =>
    exact (ht.updateSmooth haccepted hmaximum hbound hlength).bind (fun _ _ h => h) fun _ _ h => h

/-- A radius within its largest value does not become smaller by an update for a step that agreed
with the model. The doubling scheme goes by a ratio of a quarter, whatever its thresholds are. -/
theorem grows (hs : t.settings.refusal? = none) (hradius : real 0 < t.radius)
    (hle : t.radius ≤ t.maximum) (hratio : t.settings.expandAbove < effective ratio)
    (hscheme : t.settings.scheme = .simple ∨
      t.settings.scheme = .doubling ∧ 0.25 ≤ effective ratio) :
    (update ratio length : Action (Thrown Exact K) (TrustRadius Exact) Bool).Ends t
      (fun _ t' => t.radius ≤ t'.radius) (fun _ _ => False) := by
  obtain ⟨hbelow, hexpand⟩ := RadiusSettings.growth hs
  obtain ⟨step, below, factor, haccepted⟩ := RadiusSettings.accepted hs
  have heffective : (if Scalar.isFinite ratio then ratio else -Scalar.infinity) =
      effective ratio := rfl
  simp only [update, ends_bind, ends_get, heffective]
  rcases hscheme with hscheme | ⟨hscheme, hquarter⟩
  · have hhigh : ¬effective ratio < t.settings.shrinkBelow := by
      rw [haccepted.below_eq] at hbelow ⊢
      obtain ⟨above, hlt, habove⟩ := exists_real_of_lt_of_lt hbelow hratio
      obtain ⟨y, hy, -⟩ := real_of_lt_effective (habove ▸ hratio)
      rw [habove, hy] at hratio
      rw [hy]
      exact not_lt.2 (hlt.trans hratio).le
    simp only [hscheme, updateSimple, if_neg hhigh]
    split
    · exact le_least (le_mul_of_one_lt hexpand hradius) hle
    · exact le_self_of_pos hradius
  · have hhigh : ¬effective ratio < 0.25 := by
      rcases effective_real_or ratio with ⟨y, hy⟩ | hinf
      · rw [hy] at hquarter ⊢
        exact not_lt (α := ℝ).2 hquarter
      · rw [hinf] at hquarter
        exact hquarter.elim
    simp only [hscheme, updateDoubling, if_neg hhigh]
    split
    · exact le_least (le_greatest_left hradius) hle
    · exact le_self_of_pos hradius

end Step

/-! ## All updates of a solve -/

/-- Updates that do not fail, each for a step of positive length that is not longer than the
radius. -/
inductive Updated (K : Type) : TrustRadius Exact → TrustRadius Exact → Prop
  | refl {t : TrustRadius Exact} : Updated K t t
  | next {t t' t'' : TrustRadius Exact} {ratio length : Exact} {accepted : Bool} :
    Updated K t t' → 0.0 < length → length ≤ t'.radius →
    (update ratio length : Action (Thrown Exact K) _ _).eval t' = (.ok accepted, t'') →
    Updated K t t''

theorem Between.updated {K : Type} {s : RadiusSettings Exact} {maximum bound : Exact}
    {t t' : TrustRadius Exact} (hs : s.refusal? = none) (hmaximum : real 0 < maximum)
    (hbound : maximum ≤ bound) (ht : Between s maximum bound t) (h : Updated K t t') :
    Between s maximum bound t' := by
  induction h with
  | refl => exact ht
  | next _ hlength _ heval ih =>
    norm_num at hlength
    exact (update_between ih hs hmaximum hbound hlength).ok heval

section Start

variable {K : Type} [Entry Exact K] {s : RadiusSettings Exact} {u : Vec K}

/-- The largest radius is positive, also where the one that fits the problem is not. -/
theorem ofStart_maximum_pos (hmaximum : ∀ r, s.maximum = some r → 0.0 < r) (residual : Exact) :
    real 0 < (ofStart s u residual).maximum := by
  change real 0 < s.maximum.getD _
  cases h : s.maximum with
  | some r =>
    have hr := hmaximum r h
    norm_num at hr
    exact hr
  | none =>
    rw [Option.getD_none]
    split
    next hreach =>
      norm_num at hreach
      exact hreach
    · norm_num

/-- The first radius is positive, and within the largest one if the caller gives none. -/
theorem ofStart_radius (hmaximum : ∀ r, s.maximum = some r → 0.0 < r)
    (hinitial : ∀ r, s.initial = some r → 0.0 < r) (hu : u.isFinite) (residual : Exact) :
    real 0 < (ofStart s u residual).radius ∧
      ((ofStart s u residual).radius ≤ (ofStart s u residual).maximum ∨
        s.initial = some (ofStart s u residual).radius) := by
  have hpos : real 0 < (ofStart s u residual).maximum := ofStart_maximum_pos hmaximum residual
  generalize hm : (ofStart s u residual).maximum = m at hpos
  have hradius : (ofStart s u residual).radius = s.initial.getD
      (if s.scheme = .doubling then
        Scalar.least (if Scalar.same u.norm 0.0 then 1.0 else u.norm) m
      else m / 11.0) := by
    rw [← hm]
    rfl
  rw [hradius]
  cases h : s.initial with
  | some r =>
    have hr := hinitial r h
    norm_num at hr
    exact ⟨hr, .inr rfl⟩
  | none =>
    rw [Option.getD_none]
    split
    · have hlength : real 0 < (if Scalar.same u.norm 0.0 then 1.0 else u.norm) := by
        obtain ⟨x, hx, hnorm⟩ := norm_real hu
        have hzero : (0.0 : Exact) = real 0 := by norm_num
        rw [hnorm, hzero]
        split
        · norm_num
        next hne => exact lt_of_le_of_ne hx fun h => hne (same_iff.2 (by rw [h]))
      exact ⟨pos_least hlength hpos, .inl (least_le_right hlength hpos)⟩
    · have heleven : (11.0 : Exact) = real 11 := by norm_num
      rw [heleven]
      cases m with
      | real y =>
        have hy : 0 < y := hpos
        rw [real_div (by norm_num), real_lt, real_le]
        exact ⟨by positivity, .inl (div_le_self hy.le (by norm_num))⟩
      | posInf =>
        have hinf : posInf / real 11 = posInf := if_neg (by norm_num)
        rw [hinf]
        exact ⟨trivial, .inl trivial⟩
      | negInf | undefined => exact hpos.elim

/-- **The trust radius stays positive and bounded.**  Take settings that are not refused with
positive radii, a finite start, and any updates that do not fail. The radius is positive and at most
the largest one, or at most the first one if the caller has given one above the largest. And while
it is within the largest one, a step with a ratio above the threshold for enlargements does not make
it smaller in the simple scheme, nor in the doubling scheme with a ratio of at least a quarter. -/
theorem radius_bounded (hs : s.refusal? = none) (hmaximum : ∀ r, s.maximum = some r → 0.0 < r)
    (hinitial : ∀ r, s.initial = some r → 0.0 < r) (hu : u.isFinite) (residual : Exact)
    {t : TrustRadius Exact} (ht : Updated K (ofStart s u residual) t) :
    t.maximum = (ofStart s u residual).maximum ∧ (∀ r, s.maximum = some r → t.maximum = r) ∧
      0.0 < t.radius ∧
      t.radius ≤ Scalar.greatest t.maximum (s.initial.getD t.maximum) ∧
      ((∀ r, s.initial = some r → r ≤ t.maximum) → t.radius ≤ t.maximum) ∧
      ∀ ratio length, 0.0 < length → length ≤ t.radius → t.radius ≤ t.maximum →
        s.expandAbove < effective ratio →
        s.scheme = .simple ∨ s.scheme = .doubling ∧ 0.25 ≤ effective ratio →
          (update ratio length : Action (Thrown Exact K) _ _).Ends t
            (fun _ t' => t.radius ≤ t'.radius) (fun _ _ => False) := by
  have hpos : real 0 < (ofStart s u residual).maximum := ofStart_maximum_pos hmaximum residual
  obtain ⟨hfirst, hwithin⟩ := ofStart_radius hmaximum hinitial hu residual
  -- the run is followed once for each bound: the larger of both radii, and the largest one
  have hbetween {bound : Exact} (hm : (ofStart s u residual).maximum ≤ bound)
      (hr : (ofStart s u residual).radius ≤ bound) : Between s _ bound t :=
    Between.updated hs hpos hm ⟨rfl, rfl, hfirst, hr⟩ ht
  have hlargest := hbetween (le_greatest_left hpos) (le_greatest_right hpos hfirst)
  have hmax : t.maximum = (ofStart s u residual).maximum := hlargest.maximum
  have hcut (h : (ofStart s u residual).radius ≤ t.maximum) : t.radius ≤ t.maximum := by
    rw [hmax] at h ⊢
    exact (hbetween (le_self_of_pos hpos) h).radius_le
  refine ⟨hmax, fun r hr => ?_, ?_, ?_, fun h => ?_, fun ratio length _ _ hle habove hscheme => ?_⟩
  · rw [hmax]
    change s.maximum.getD _ = r
    rw [hr, Option.getD_some]
  · norm_num
    exact hlargest.radius_pos
  · rcases hwithin with hle | hgiven
    · rw [← hmax] at hle hpos
      exact le_trans (hcut hle) (le_greatest_left hpos)
    · rw [hgiven, Option.getD_some, hmax]
      exact hlargest.radius_le
  · rcases hwithin with hle | hgiven
    · exact hcut (hmax ▸ hle)
    · exact hcut (h _ hgiven)
  · rw [← hlargest.settings] at hs habove hscheme
    exact grows hs hlargest.radius_pos hle habove hscheme

end Start

/-- Standard settings with the given radii. -/
noncomputable def withRadii (maximum initial : ℝ) : RadiusSettings Exact :=
  { RadiusSettings.standard with maximum := some (real maximum), initial := some (real initial) }

theorem withRadii_accepted (maximum initial : ℝ) :
    (withRadii maximum initial).refusal? = none := by
  have hstep : (withRadii maximum initial).stepThreshold = 1e-4 := rfl
  unfold RadiusSettings.refusal?
  rw [hstep]
  norm_num [withRadii, RadiusSettings.standard]

/-- A reduction that the settings still allow. -/
theorem shrink_eval {K : Type} {t : TrustRadius Exact} (radius : Exact)
    (h : ((t.shrinks + 1 : Nat) : Int) ≤ t.settings.maxShrinks) :
    (shrink radius : Action (Thrown Exact K) (TrustRadius Exact) Unit).eval t =
      (.ok (), t.shrunk radius) := by
  rcases heval : (shrink radius : Action (Thrown Exact K) (TrustRadius Exact) Unit).eval t with
    ⟨e | x, t'⟩
  · obtain ⟨rfl, hmore, -⟩ := (shrink_ends t radius).error heval
    exact absurd hmore (not_lt.2 h)
  · rw [((shrink_ends t radius).ok heval).1]

/-- The radius of a solve after a first step with a ratio that is undefined. -/
theorem unit_bounded :
    (withRadii 1 1).refusal? = none ∧
      ∃ t, Updated Exact (ofStart (withRadii 1 1) (Vec.ofList [real 3, real 4]) (real 1)) t ∧
        t.shrinks = 1 ∧ t.maximum = real 1 ∧ 0.0 < t.radius ∧ t.radius ≤ t.maximum := by
  have hpositive : ∀ r : Exact, some (real 1) = some r → 0.0 < r := by
    rintro r h
    cases h
    norm_num
  have hlow : (effective undefined : Exact) < (withRadii 1 1).shrinkBelow := trivial
  have heval : (update undefined (real 1) : Action (Thrown Exact Exact) _ _).eval
      (ofStart (withRadii 1 1) (Vec.ofList [real 3, real 4]) (real 1)) =
      (.ok (decide ((withRadii 1 1).stepThreshold < effective undefined)),
        (ofStart (withRadii 1 1) (Vec.ofList [real 3, real 4]) (real 1)).shrunk
          (0.25 * real 1)) := by
    rw [update_of_low hlow (fun h => by cases h), eval_bind, shrink_eval _ (by decide)]
    rfl
  have hupdated := Updated.next .refl (by norm_num) (real_le.2 le_rfl) heval
  obtain ⟨-, hmaximum, hpos, -, hle, -⟩ := radius_bounded (withRadii_accepted 1 1) hpositive
    hpositive rfl (real 1) hupdated
  refine ⟨withRadii_accepted 1 1, _, hupdated, rfl, hmaximum _ rfl, hpos, hle fun r hr => ?_⟩
  cases hr
  exact real_le.2 le_rfl

/-- A first radius of the caller above the largest one is not cut: the radius is above the largest
one until the first step that agrees with the model, and that step makes it smaller. -/
theorem oversized_shrinks :
    (withRadii 1 5).refusal? = none ∧
      (ofStart (withRadii 1 5) (Vec.ofList [real 3, real 4]) (real 1)).radius = real 5 ∧
      (ofStart (withRadii 1 5) (Vec.ofList [real 3, real 4]) (real 1)).maximum = real 1 ∧
      (withRadii 1 5).expandAbove < real 1 ∧
      ((update (real 1) (real 5) : Action (Thrown Exact Exact) _ _).eval
        (ofStart (withRadii 1 5) (Vec.ofList [real 3, real 4]) (real 1))).2.radius = real 1 := by
  have hagrees : (withRadii 1 5).expandAbove < real 1 := by
    norm_num [withRadii, RadiusSettings.standard]
  have hlow : ¬real 1 < (withRadii 1 5).shrinkBelow := by
    norm_num [withRadii, RadiusSettings.standard]
  have hboundary : Scalar.abs (real 5 - real 5) < (1e-6 * real 5 : Exact) := by
    have habs : Scalar.abs (real 5 - real 5) = real |5 - 5| := by rw [real_sub]; rfl
    rw [habs]
    norm_num
  have hleast : Scalar.least ((withRadii 1 5).expandFactor * real 5) (real 1) = real 1 := by
    refine if_pos ?_
    norm_num [withRadii, RadiusSettings.standard]
  refine ⟨withRadii_accepted 1 5, rfl, rfl, hagrees, ?_⟩
  generalize ht : ofStart (withRadii 1 5) (Vec.ofList [real 3, real 4]) (real 1) = t
  have hsettings : t.settings = withRadii 1 5 := by rw [← ht]; rfl
  have hradius : t.radius = real 5 := by rw [← ht]; rfl
  have hmaximum : t.maximum = real 1 := by rw [← ht]; rfl
  have hfinite : Scalar.isFinite (real 1) = true := rfl
  have hscheme : (withRadii 1 5).scheme = .simple := rfl
  simp only [update, eval_bind, eval_get, hfinite, if_true, hsettings, hscheme, updateSimple,
    if_neg hlow, hradius, hmaximum, hboundary, hagrees, decide_true, and_self, hleast]
  rfl

/-- Settings of the doubling scheme whose threshold for enlargements is below a quarter. -/
noncomputable def earlyDoubling : RadiusSettings Exact :=
  { RadiusSettings.standard with
    scheme := .doubling
    shrinkBelow := real 0.1
    expandAbove := real 0.2 }

/-- The doubling scheme halves the radius below a ratio of a quarter, also for a ratio above the
threshold for enlargements. -/
theorem early_doubling_shrinks :
    earlyDoubling.refusal? = none ∧ earlyDoubling.expandAbove < real 0.22 ∧
      ((update (real 0.22) (real 1) : Action (Thrown Exact Exact) _ _).eval
        { settings := earlyDoubling, maximum := real 5, radius := real 1 }).2.radius =
        real 0.5 := by
  have hstep : earlyDoubling.stepThreshold = 0.05 := rfl
  have hfinite : Scalar.isFinite (real 0.22) = true := rfl
  have hscheme : earlyDoubling.scheme = .doubling := rfl
  have hhalf : (0.5 : Exact) * real 1 = real 0.5 := by norm_num
  refine ⟨?_, ?_, ?_⟩
  · unfold RadiusSettings.refusal?
    rw [hstep]
    norm_num [earlyDoubling, RadiusSettings.standard]
  · norm_num [earlyDoubling]
  · have hquarter : real 0.22 < (0.25 : Exact) := by norm_num
    simp only [update, eval_bind, eval_get, hfinite, if_true, hscheme, updateDoubling,
      if_pos hquarter, hhalf]
    rw [shrink_eval _ (by decide)]
    rfl

end TrustRadius

end RootFinding
