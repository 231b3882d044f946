import RootFinding.Proofs.Safe
import RootFinding.Proofs.Traversal

/-!
# Line searches without faults

A line search evaluates the residual along a step, at points with as many entries as there are
unknowns, and whatever a search of the caller's ends with becomes a failure. So no search leaves a
fault, and none touches the stored Jacobian or the linear system.
-/

namespace RootFinding

open Action

/-- Whatever happens, an invariant is kept. -/
abbrev Action.Harmless {R K S α : Type} (I : S → Prop) (a : Action (Thrown R K) S α) : Prop :=
  Safe I (fun _ => True) (fun _ => True) a

theorem Action.Keeps.harmless {R K S T α : Type} {π : S → T} {t : T}
    {a : Action (Thrown R K) S α} (h : Keeps π a) : Harmless (fun s => π s = t) a :=
  h.safe fun _ _ => ends_true.mono (fun _ _ h => h) (fun _ _ _ _ _ => trivial)

/-- Safety up to some faults is inherited by sequences. -/
theorem Action.safe_sequential {R K S : Type} {I : S → Prop} {B : Fault → Prop} :
    Action.Sequential fun α (a : Action (Thrown R K) S α) => Safe I (fun _ => True) B a where
  pure _ := safe_pure trivial
  bind ha hf := ha.bind fun x _ => hf x

section Searches

variable {σ R K : Type} [Scalar R] [Entry R K] {P : K → Prop} {n m : Nat}
  {k : Option (Matrix R K) × LinearSystem R K} {F : Vec K → Work σ R K (Vec K)}

omit [Scalar R] [Entry R K] in
/-- A dialogue sees the errors of the residual, so only its own error is left. -/
theorem Dialogue.run_harmless {I : Workspace σ R K → Prop} (hF : ∀ v, Harmless I (F v))
    (d : Dialogue R K) : Harmless I (d.run F) := by
  induction d with
  | answer a => exact safe_pure trivial
  | raise e => exact fun _ hs => ⟨hs, fun _ _ => trivial⟩
  | evaluate u next ih =>
    apply ((hF u).attempt).bind
    intro r _
    exact ih r

namespace LineSearch

variable {p : SearchPoint K}

theorem meritAt_safe (hP : Entry.Closed P)
    (hF : Difference.Field.Fits (fun w : Workspace σ R K => w.machinery = k) P n m F)
    (hu : p.u.Fits P n) (hdu : p.du.Fits P n) (s : R) :
    Safe (fun w => w.machinery = k) (fun _ => True) NoFault (meritAt F p s) := by
  have hstep : (s • p.du : Vec K).Fits P n := hdu.smul hP s
  unfold meritAt
  rw [Vec.align_of_size (hu.size.trans hstep.size.symm)]
  exact (hF.kind (hu.sub hP hstep)).bind fun _ _ => safe_pure trivial

omit [Scalar R] [Entry R K] in
theorem Probe.ofWork_safe {α : Type} {I : Workspace σ R K → Prop} {Q : α → Prop}
    {B : Fault → Prop} {a : Work σ R K α} (ha : Safe I Q B a) :
    Safe (fun s => I s.1) Q B (Probe.ofWork a) := fun s hs =>
  ends_within.2 (ha s.1 hs)

section BuiltIn

variable (hP : Entry.Closed P)
  (hF : Difference.Field.Fits (fun w : Workspace σ R K => w.machinery = k) P n m F)
  (hu : p.u.Fits P n) (hdu : p.du.Fits P n)

include hP hF hu hdu

theorem phi_safe (s : R) :
    Safe (fun w => w.1.machinery = k) (fun _ => True) NoFault (phi F p s) := by
  unfold phi
  apply safe_get.bind
  intro w _
  dsimp only
  split
  · exact safe_pure trivial
  · apply (Probe.ofWork_safe (meritAt_safe hP hF hu hdu s)).bind
    intro merit _
    refine Safe.bind (safe_modify fun _ hw => hw) fun _ _ => ?_
    exact safe_pure trivial

theorem slope_safe (size difference s : R) :
    Safe (fun w => w.1.machinery = k) (fun _ => True) NoFault (slope F p size difference s) := by
  unfold slope
  apply (Probe.ofWork_safe (meritAt_safe hP hF hu hdu _)).bind
  intro ahead _
  apply (phi_safe hP hF hu hdu s).bind
  intro here _
  exact safe_pure trivial

theorem builtIn_safe (search : LineSearch σ R K) (merit size : R) :
    Safe (fun w => w.1.machinery = k) (fun _ => True) NoFault
      (builtIn search F p merit size) := by
  have hphi := phi_safe hP hF hu hdu
  have hslope := slope_safe hP hF hu hdu size search.difference
  unfold builtIn
  split
  · exact Wolfe.search_of safe_sequential hphi hslope _ _
  · exact Armijo.search_of safe_sequential hphi _ _ _

theorem searchBuiltIn_safe (search : LineSearch σ R K) :
    Safe (fun w => w.machinery = k) (fun _ => True) NoFault (searchBuiltIn search F p) := by
  unfold searchBuiltIn
  dsimp only
  split
  · exact safe_pure trivial
  · apply Safe.bind (Q := fun _ => True)
    · intro w hw
      have h := builtIn_safe hP hF hu hdu search (Scalar.square p.fu.norm)
        (p.u.norm / p.du.norm) (w, ⟨0.0, Scalar.square p.fu.norm⟩) hw
      rw [ends_ofFun]
      rcases heval : (builtIn search F p (Scalar.square p.fu.norm)
        (p.u.norm / p.du.norm)).eval (w, ⟨0.0, Scalar.square p.fu.norm⟩) with ⟨r, w', memo⟩
      dsimp only
      constructor
      · intro x t hx
        obtain ⟨rfl, rfl⟩ := Prod.mk.inj hx
        exact h.ok heval
      · intro e t he
        obtain ⟨rfl, rfl⟩ := Prod.mk.inj he
        exact h.error heval
    · intro found _
      cases found with
      | some a => exact safe_pure trivial
      | none =>
        refine Safe.bind (safe_modify fun _ hw => hw) fun _ _ => ?_
        exact safe_pure trivial

end BuiltIn

omit [Entry R K] in
theorem searchCustom_safe (hF : ∀ v, Harmless (fun w : Workspace σ R K => w.machinery = k) (F v))
    (f : SearchPoint K → σ → Dialogue R K × σ) :
    Safe (fun w => w.machinery = k) (fun _ => True) NoFault (searchCustom f F p) := by
  have hcall : Safe (fun w : Workspace σ R K => w.machinery = k) (fun _ => True) NoFault
      (Workspace.call (fun p w => ((.ok (f p w).1), (f p w).2)) p : Work σ R K (Dialogue R K)) :=
    fun w hw => ends_ofFun.2
      ⟨fun x t h => by obtain ⟨-, rfl⟩ := Prod.mk.inj h; exact ⟨hw, trivial⟩,
        fun e t h => nomatch (Prod.mk.inj h).1⟩
  unfold searchCustom
  apply hcall.bind
  intro dialogue _
  have herrors : ∀ (e : Thrown R K) (f : Fault), ofError e = .fault f → NoFault f := by
    intro e f h
    cases e <;> cases h
  apply ((dialogue.run_harmless hF).mapError herrors).bind
  intro a _
  split
  · exact safe_pure trivial
  · exact safe_fail

/-- No search ends in a fault, and none reaches the stored Jacobian or the linear system. -/
theorem search_safe (hP : Entry.Closed P)
    (hF : Difference.Field.Fits (fun w : Workspace σ R K => w.machinery = k) P n m F)
    (hF' : ∀ v, Harmless (fun w : Workspace σ R K => w.machinery = k) (F v))
    (hu : p.u.Fits P n) (hdu : p.du.Fits P n) (s : LineSearch σ R K) :
    Safe (fun w => w.machinery = k) (fun _ => True) NoFault (s.search F p) := by
  unfold search
  split
  · exact safe_pure trivial
  · exact searchCustom_safe hF' _
  · exact searchBuiltIn_safe hP hF hu hdu s

end LineSearch

end Searches

end RootFinding
