import Mathlib.Data.List.Perm.Basic
import Mathlib.Data.Multiset.Replicate
import Mathlib.Order.Bounds.Defs
import RootFinding.Proofs.Merit
import RootFinding.Proofs.ScalarOrder

/-!
# The ring of merits

A spectral residual step writes its merit to the place of the ring that the number of the steps
before it points to. So after any steps the ring holds the last merits, and the first one where it
has not been written to yet.

* `RingBuffer size filler written ring`: what a ring holds after the values of `written` went into
  it in turn, place by place and altogether. `RingBuffer.write` is one more value.
* `SpectralResidual.Visits a c r₀ ms r`: from `r₀` the run has got to `r` by steps of the loop, none
  of which failed, with the merits `ms`. `Visits.kept` is the induction over it.
* `SpectralResidual.history_recent`: the ring of a run, with the merit of the iterate in it.
-/

namespace RootFinding

/-! ## Rings -/

section Rings

variable {α : Type}

/-- A ring of `size` places over a filler, after some values were written to it in turn: a place
holds the last value that went there, or the filler if there was none, and all places together hold
the last values that there is room for. -/
structure RingBuffer (size : Nat) (filler : α) (written ring : List α) : Prop where
  length : ring.length = size
  filled {j i : Nat} : IsGreatest {i | i < written.length ∧ i % size = j} i →
    ring[j]? = written[i]?
  unfilled {j : Nat} : j < size → (∀ i < written.length, i % size ≠ j) → ring[j]? = some filler
  contents : (ring : Multiset α) = ↑(written.drop (written.length - size)) +
    Multiset.replicate (size - written.length) filler

variable {size : Nat} {filler x : α} {written ring : List α}

theorem RingBuffer.new (size : Nat) (filler : α) :
    RingBuffer size filler [] (List.replicate size filler) where
  length := List.length_replicate
  filled h := absurd h.1.1 (Nat.not_lt_zero _)
  unfilled hj _ := by simp [hj]
  contents := by simp [Multiset.coe_replicate]

/-- The value of a place is exchanged for another one. -/
theorem coe_set {j : Nat} {old : α} {rest : Multiset α} (hj : ring[j]? = some old)
    (hring : (ring : Multiset α) = old ::ₘ rest) (x : α) :
    (ring.set j x : Multiset α) = x ::ₘ rest := by
  obtain ⟨hlt, hold⟩ := List.getElem?_eq_some_iff.1 hj
  have hbefore : (ring : Multiset α) = old ::ₘ ↑(ring.eraseIdx j) := by
    rw [← hold]
    exact (Multiset.coe_eq_coe.2 (List.getElem_cons_eraseIdx_perm hlt)).symm
  have hrest : rest = ↑(ring.eraseIdx j) := (Multiset.cons_inj_right old).1 (hring.symm.trans hbefore)
  rw [hrest]
  exact Multiset.coe_eq_coe.2 (List.set_perm_cons_eraseIdx hlt x)

/-- Where the next value goes there is the filler for as long as there is room, and after that the
earliest of the values that are kept. -/
theorem RingBuffer.next (h : RingBuffer size filler written ring) (hsize : 0 < size) :
    ring[written.length % size]? =
      if written.length < size then some filler else written[written.length - size]? := by
  have hlt : written.length % size < size := Nat.mod_lt _ hsize
  split
  next hroom =>
    refine h.unfilled hlt fun i hi hmod => ?_
    rw [Nat.mod_eq_of_lt hroom, Nat.mod_eq_of_lt (hi.trans hroom)] at hmod
    exact hi.ne hmod
  next hfull =>
    refine h.filled ⟨⟨by omega, (Nat.mod_eq_sub_mod (not_lt.1 hfull)).symm⟩, fun i hi => ?_⟩
    -- a later one of the same remainder would be a whole round further
    obtain ⟨hi, hmod⟩ := hi
    by_contra hlater
    have hdvd : size ∣ written.length - i := (Nat.modEq_iff_dvd' hi.le).1 hmod
    have hle : size ≤ written.length - i := Nat.le_of_dvd (by omega) hdvd
    omega

/-- One more value takes the place of a filler, or of the earliest value that is kept. -/
theorem RingBuffer.contents_write (h : RingBuffer size filler written ring) (hsize : 0 < size)
    (x : α) : (ring.set (written.length % size) x : Multiset α) =
      ↑((written ++ [x]).drop ((written ++ [x]).length - size)) +
        Multiset.replicate (size - (written ++ [x]).length) filler := by
  have hnext := h.next hsize
  have hconcat (values : List α) : (↑(values ++ [x]) : Multiset α) = x ::ₘ ↑values :=
    Multiset.coe_eq_coe.2 (List.perm_append_singleton x values)
  rw [List.length_append, List.length_singleton]
  by_cases hroom : written.length < size
  · rw [if_pos hroom] at hnext
    have hcontents : (ring : Multiset α) =
        filler ::ₘ (↑written + Multiset.replicate (size - (written.length + 1)) filler) := by
      have hsucc : size - written.length = size - (written.length + 1) + 1 := by omega
      rw [h.contents, Nat.sub_eq_zero_of_le hroom.le, List.drop_zero, hsucc,
        Multiset.replicate_succ, Multiset.add_cons]
    rw [coe_set hnext hcontents, Nat.sub_eq_zero_of_le hroom, List.drop_zero, hconcat,
      Multiset.cons_add]
  · rw [if_neg hroom] at hnext
    have hfull : size ≤ written.length := not_lt.1 hroom
    have hlt : written.length - size < written.length := by omega
    rw [List.getElem?_eq_getElem hlt] at hnext
    have hcontents : (ring : Multiset α) = written[written.length - size] ::ₘ
        ↑(written.drop (written.length - size + 1)) := by
      rw [h.contents, Nat.sub_eq_zero_of_le hfull, Multiset.replicate_zero, add_zero,
        Multiset.cons_coe, ← List.drop_eq_getElem_cons hlt]
    have hdrop : (written ++ [x]).drop (written.length + 1 - size) =
        written.drop (written.length - size + 1) ++ [x] := by
      rw [Nat.sub_add_comm hfull, List.drop_append_of_le_length hlt]
    rw [coe_set hnext hcontents, hdrop, hconcat,
      Nat.sub_eq_zero_of_le (Nat.le_succ_of_le hfull), Multiset.replicate_zero, add_zero]

theorem RingBuffer.write (h : RingBuffer size filler written ring) (hsize : 0 < size) (x : α) :
    RingBuffer size filler (written ++ [x]) (ring.set (written.length % size) x) where
  length := by rw [List.length_set, h.length]
  filled := by
    rintro j i ⟨⟨hi, hmod⟩, hlast⟩
    rw [List.length_append, List.length_singleton] at hi
    have hj : j < size := hmod ▸ Nat.mod_lt _ hsize
    by_cases hplace : written.length % size = j
    · have hle : written.length ≤ i := hlast ⟨by simp, hplace⟩
      obtain rfl : i = written.length := by omega
      rw [hplace, List.getElem?_set_self (h.length.symm ▸ hj), List.getElem?_concat_length]
    · have hlt : i < written.length := by
        refine lt_of_le_of_ne (Nat.le_of_lt_succ hi) fun heq => hplace ?_
        rw [← heq, hmod]
      rw [List.getElem?_set_ne hplace, List.getElem?_append_left hlt]
      refine h.filled ⟨⟨hlt, hmod⟩, fun k hk => hlast ⟨?_, hk.2⟩⟩
      rw [List.length_append]
      exact hk.1.trans_le (Nat.le_add_right _ _)
  unfilled := by
    intro j hj hnone
    have hplace : written.length % size ≠ j := hnone _ (by simp)
    rw [List.getElem?_set_ne hplace]
    refine h.unfilled hj fun i hi => hnone i ?_
    rw [List.length_append]
    exact hi.trans_le (Nat.le_add_right _ _)
  contents := h.contents_write hsize x

end Rings

namespace SpectralResidual

/-! ## Runs -/

section Runs

variable {σ R K : Type} [Scalar R] [Entry R K] {a : SpectralResidual σ R K} {c : Setup σ R K}
  {r₀ r t : Run σ R K (State R)} {ms : List R}

/-- A value of the merit function. -/
def IsMerit (a : SpectralResidual σ R K) (m : R) : Prop := ∃ norm, m = merit a.exponent norm

/-- From `r₀` the run has got to the last argument by steps of the loop, none of which failed; the
list holds the merits of the iterates that the steps have left, in their order. -/
inductive Visits (a : SpectralResidual σ R K) (c : Setup σ R K) (r₀ : Run σ R K (State R)) :
    List R → Run σ R K (State R) → Prop
  | start : Visits a c r₀ [] r₀
  | headline {ms : List R} {r : Run σ R K (State R)} (before : Visits a c r₀ ms r) :
    Visits a c r₀ ms (r.headed a.strategy)
  | step {ms : List R} {r t : Run σ R K (State R)} (before : Visits a c r₀ ms r)
    (active : r.isActive) (stepped : (Run.step a.strategy c).eval r = (.ok (), t))
    (sound : t.error = none) : Visits a c r₀ (ms ++ [a.meritOf c t.fu]) t

/-- A run of the loop that has not failed has visited its iterates. -/
theorem visits_of_leads (h : Run.Leads a.strategy c r₀ r) (herror : r.error = none) :
    ∃ ms, Visits a c r₀ ms r := by
  induction h with
  | refl => exact ⟨[], .start⟩
  | headline _ ih =>
    obtain ⟨ms, hms⟩ := ih herror
    exact ⟨ms, hms.headline⟩
  | step _ active hstep ih =>
    obtain ⟨s, hs, rfl⟩ := Run.step_going hstep herror
    obtain ⟨b, tested⟩ := (a.proceeds c _).ok hs
    have hsound := herror
    rw [Run.recorded_error, tested.error_eq] at hsound
    obtain ⟨ms, hms⟩ := ih hsound
    exact ⟨_, hms.step active hstep herror⟩

/-- What a step of the loop that has not failed leaves of the count and of the ring. -/
theorem step_writes (hstep : (Run.step a.strategy c).eval r = (.ok (), t)) (ht : t.error = none) :
    t.steps = r.steps + 1 ∧
      t.ext.history = r.ext.history.set (r.steps % a.memory.toNat) (a.meritOf c t.fu) := by
  obtain ⟨s, hs, rfl⟩ := Run.step_going hstep ht
  obtain ⟨b, tested⟩ := (a.proceeds c _).ok hs
  obtain ⟨η, took⟩ := (a.step_took _).ok hs
  rw [Run.recorded_steps, Run.recorded_ext, Run.recorded_fu, tested.steps_eq]
  exact ⟨rfl, took.history⟩

/-- Where a run is, the merits of its iterates are in the ring, and that of the present one is. -/
structure Kept (a : SpectralResidual σ R K) (c : Setup σ R K) (f₁ : R) (ms : List R)
    (r : Run σ R K (State R)) : Prop where
  count : ms.length = r.steps
  ring : RingBuffer a.memory.toNat f₁ ms r.ext.history
  present : a.meritOf c r.fu ∈ r.ext.history
  merits : ∀ m ∈ r.ext.history, a.IsMerit m

theorem Kept.of_start {world : σ} (ha : 1 ≤ a.memory)
    (hstart : Run.start a.strategy c world = .ok r₀) : Kept a c (a.meritOf c r₀.fu) [] r₀ := by
  have hring : r₀.ext.history = List.replicate a.memory.toNat (a.meritOf c r₀.fu) :=
    (start_ok (Run.start_prepared hstart)).history
  refine ⟨(Run.start_steps hstart).symm, hring ▸ .new _ _, ?_, fun m hm => ?_⟩
  · rw [hring]
    exact List.mem_replicate.2 ⟨by omega, rfl⟩
  · rw [hring] at hm
    exact ⟨_, List.eq_of_mem_replicate hm⟩

theorem Kept.step {f₁ : R} (ha : 1 ≤ a.memory) (h : Kept a c f₁ ms r)
    (hstep : (Run.step a.strategy c).eval r = (.ok (), t)) (ht : t.error = none) :
    Kept a c f₁ (ms ++ [a.meritOf c t.fu]) t := by
  have hsize : 0 < a.memory.toNat := by omega
  obtain ⟨hsteps, hhistory⟩ := step_writes hstep ht
  rw [← h.count] at hhistory
  refine ⟨?_, ?_, ?_, fun m hm => ?_⟩
  · rw [hsteps, List.length_append, h.count, List.length_singleton]
  · rw [hhistory]
    exact h.ring.write hsize _
  · rw [hhistory]
    exact List.mem_set (h.ring.length.symm ▸ Nat.mod_lt _ hsize) _
  · rw [hhistory] at hm
    rcases List.mem_or_eq_of_mem_set hm with hold | rfl
    · exact h.merits m hold
    · exact ⟨_, rfl⟩

theorem Visits.kept {f₁ : R} (ha : 1 ≤ a.memory) (hstart : Kept a c f₁ [] r₀)
    (h : Visits a c r₀ ms r) : Kept a c f₁ ms r := by
  induction h with
  | start => exact hstart
  | headline _ ih => exact ⟨ih.count, ih.ring, ih.present, ih.merits⟩
  | step _ _ stepped sound ih => exact ih.step ha stepped sound

omit [Entry R K] in
/-- In a system of scalars where the merits are in order, that of the present iterate is at most the
largest one that the next step goes by. -/
theorem Kept.le_largest {f₁ : R} (h : Kept a c f₁ ms r) (hR : Scalar.Ordered a.IsMerit) :
    a.meritOf c r.fu ≤ r.ext.largest := by
  unfold State.largest
  cases hmaximum : Vec.maximum? (.ofList r.ext.history) with
  | none =>
    have hempty : r.ext.history = [] := by
      cases hhistory : r.ext.history with
      | nil => rfl
      | cons m ms =>
        rw [hhistory] at hmaximum
        cases hmaximum
    have hpresent := h.present
    rw [hempty] at hpresent
    cases hpresent
  | some m => exact hR.le_maximum? h.merits hmaximum _ h.present

/-- **The ring holds the last merits.**  A run that gets somewhere by the steps of the loop, none of
which has failed, has visited iterates with some merits, one in each step. Of these the ring holds
as many of the last ones as it has places, and the first merit in the places that are left. A place
holds the last of the merits that the count of the steps before it points there, if there is one.
The merit of the present iterate is in the ring, and so at most the largest one, which the next step
goes by. That takes merits that are in order, as they are in exact arithmetic (`isMerit_ordered`) and
in double precision (`isMerit_ordered_numeral`). -/
theorem history_recent (a : SpectralResidual σ R K) (ha : 1 ≤ a.memory) (c : Setup σ R K) (world : σ)
    (hstart : Run.start a.strategy c world = .ok r₀) :
    (∀ r, Run.Leads a.strategy c r₀ r → r.error = none → ∃ ms, Visits a c r₀ ms r) ∧
    ∀ ms r, Visits a c r₀ ms r →
      ms.length = r.steps ∧
      (r.ext.history : Multiset R) = ↑(ms.drop (ms.length - a.memory.toNat)) +
        Multiset.replicate (a.memory.toNat - ms.length) (a.meritOf c r₀.fu) ∧
      (∀ j i, IsGreatest {i | i < ms.length ∧ i % a.memory.toNat = j} i →
        r.ext.history[j]? = ms[i]?) ∧
      (∀ j < a.memory.toNat, (∀ i < ms.length, i % a.memory.toNat ≠ j) →
        r.ext.history[j]? = some (a.meritOf c r₀.fu)) ∧
      a.meritOf c r.fu ∈ r.ext.history ∧
      (Scalar.Ordered a.IsMerit → a.meritOf c r.fu ≤ r.ext.largest) := by
  refine ⟨fun r hr herror => visits_of_leads hr herror, fun ms r h => ?_⟩
  have hkept := h.kept ha (.of_start ha hstart)
  exact ⟨hkept.count, hkept.ring.contents, fun j i hi => hkept.ring.filled hi,
    fun j hj hnone => hkept.ring.unfilled hj hnone, hkept.present, hkept.le_largest⟩

end Runs

/-! ## Merits in order -/

/-- In exact arithmetic the merits are in order. -/
theorem isMerit_ordered {σ K : Type} (a : SpectralResidual σ Exact K) :
    Scalar.Ordered a.IsMerit :=
  Exact.ordered.of_imp fun _ ⟨norm, hm⟩ => hm ▸ merit_defined a.exponent norm

/-- In double precision they are as well: a merit that is not finite counts as infinite. -/
theorem isMerit_ordered_numeral {σ K : Type} (a : SpectralResidual σ Numeral K) :
    Scalar.Ordered a.IsMerit := by
  refine Numeral.ordered.of_imp fun m hm => ?_
  obtain ⟨norm, rfl⟩ := hm
  by_cases hfinite : Scalar.isFinite (Scalar.pow norm a.exponent) = true
  · obtain ⟨r, hr⟩ := FloatOrder.exists_rank_of_isFinite hfinite
    exact ⟨_, r, if_pos hfinite, hr⟩
  · exact ⟨_, _, if_neg hfinite, rfl⟩

section Echo

/-- The standard settings in double precision. -/
def echoSearch : SpectralResidual Unit Numeral Number := standard

/-- Whether the first step of a run returns and has not failed. -/
def stepsOn (a : SpectralResidual Unit Numeral Number) (c : Setup Unit Numeral Number)
    (r : Run Unit Numeral Number (State Numeral)) : Bool :=
  match (Run.step a.strategy c).eval r with
  | (.ok _, t) => r.isActive && t.error.isNone
  | (.error _, _) => false

/-- The residual that is the point itself, after one step: there is one new merit in a ring of ten,
and it is at most the largest. -/
theorem echo_recent :
    1 ≤ echoSearch.memory ∧ ∃ r₀ r m,
      Run.start echoSearch.strategy (plainSetup echoProblem) () = .ok r₀ ∧
        Visits echoSearch (plainSetup echoProblem) r₀ [m] r ∧
        (r.ext.history : Multiset Numeral) = ↑[m] +
          Multiset.replicate 9 (echoSearch.meritOf (plainSetup echoProblem) r₀.fu) ∧
        r.ext.history[0]? = some m ∧
        echoSearch.meritOf (plainSetup echoProblem) r.fu ≤ r.ext.largest := by
  have hrun : (Run.start echoSearch.strategy (plainSetup echoProblem) ()).toOption.any
      (stepsOn echoSearch (plainSetup echoProblem)) = true := by decide +kernel
  rcases hstart : Run.start echoSearch.strategy (plainSetup echoProblem) () with e | r₀
  · rw [hstart] at hrun
    cases hrun
  · rw [hstart] at hrun
    have hsteps : stepsOn echoSearch (plainSetup echoProblem) r₀ = true := hrun
    unfold stepsOn at hsteps
    rcases hstep : (Run.step echoSearch.strategy (plainSetup echoProblem)).eval r₀ with ⟨_ | _, r⟩
    · rw [hstep] at hsteps
      cases hsteps
    · rw [hstep] at hsteps
      simp only [Bool.and_eq_true, Option.isNone_iff_eq_none] at hsteps
      have hvisits : Visits echoSearch (plainSetup echoProblem) r₀
          [echoSearch.meritOf (plainSetup echoProblem) r.fu] r :=
        .step .start hsteps.1 hstep hsteps.2
      have hmemory : 1 ≤ echoSearch.memory := by decide
      obtain ⟨-, hcontents, hfilled, -, -, hle⟩ :=
        (history_recent echoSearch hmemory _ () hstart).2 _ r hvisits
      refine ⟨hmemory, r₀, r, _, rfl, hvisits, hcontents, ?_, hle (isMerit_ordered_numeral _)⟩
      exact hfilled 0 0 ⟨⟨Nat.zero_lt_one, rfl⟩, fun i hi => Nat.le_of_lt_succ hi.1⟩

end Echo

end SpectralResidual

end RootFinding
