import RootFinding.Report.Text

/-!
# Ruled lines

A rule is meant to be as long as the text beside it, within the bounds. It is put together from
whole copies of its pattern, which are cut at the upper bound only: where the copies do not come out
even and no bound cuts them, the last one goes over the end.

* `Report.wantedLength`: the length that a rule is meant to have.
* `Report.Spans`: a line repeats a pattern over that length, as far as whole copies allow.
* `Report.rule_spans`: every rule is such a line.
* `Report.ruledLine_spans`: a text between two of them. `Report.wide_pattern_overruns`: two rules
  that are longer than they should be.
-/

namespace RootFinding.Report

/-- The length of a text, raised to the lower bound if there is one. -/
def raisedLength (text : String) (minLength : Option Int) : Int :=
  minLength.elim text.length (max text.length)

/-- The length that is meant for the rules of a text: that of the text, raised to the lower bound
and then cut to the upper one. -/
def wantedLength (text : String) (maxLength minLength : Option Int) : Int :=
  maxLength.elim (raisedLength text minLength) (min (raisedLength text minLength))

/-- A line that repeats a pattern beside a text: as many whole copies as are needed for the raised
length, then cut to the upper bound. -/
structure Spans (pattern text : String) (maxLength minLength : Option Int) (line : String) :
    Prop where
  repeats : ∀ i < line.length, line.toList[i]? = pattern.toList[i % pattern.length]?
  length : ∃ whole : Int, (pattern.length : Int) ∣ whole ∧ raisedLength text minLength ≤ whole ∧
    whole < raisedLength text minLength + pattern.length ∧
    line.length = maxLength.elim whole (min whole)

/-! ## Copies of a pattern -/

section Copies

variable {pattern : List Char} {n i : Nat}

theorem getElem?_flatten_replicate (hi : i < n * pattern.length) :
    (List.replicate n pattern).flatten[i]? = pattern[i % pattern.length]? := by
  induction n generalizing i with
  | zero => simp at hi
  | succ n ih =>
    rw [List.replicate_succ, List.flatten_cons, List.getElem?_append]
    rw [Nat.succ_mul] at hi
    split
    next hlt => rw [Nat.mod_eq_of_lt hlt]
    next hge =>
      rw [ih (by omega), ← Nat.mod_eq_sub_mod (Nat.le_of_not_lt hge)]

theorem length_repeated (pattern : List Char) (n : Nat) :
    (repeated pattern n).length = (n + pattern.length - 1) / pattern.length * pattern.length := by
  rw [repeated, List.length_flatten, List.map_replicate, List.sum_replicate_nat]

theorem getElem?_repeated (hi : i < (repeated pattern n).length) :
    (repeated pattern n)[i]? = pattern[i % pattern.length]? := by
  rw [length_repeated] at hi
  exact getElem?_flatten_replicate hi

/-- The copies reach the length that is asked for, and the last one begins before it. -/
theorem length_repeated_bounds (hp : 0 < pattern.length) (n : Nat) :
    n ≤ (repeated pattern n).length ∧ (repeated pattern n).length < n + pattern.length := by
  rw [length_repeated]
  have hle := Nat.div_mul_le_self (n + pattern.length - 1) pattern.length
  have hlt := Nat.lt_div_mul_add (a := n + pattern.length - 1) hp
  omega

end Copies

/-! ## Rules -/

variable {text pattern line : String} {maxLength minLength : Option Int}

theorem raisedLength_eq (text : String) (minLength : Option Int) :
    raisedLength text minLength = ruleLength text minLength := by
  cases minLength with
  | none => simp [raisedLength, ruleLength]
  | some m =>
    simp only [raisedLength, ruleLength, Option.elim_some, Option.getD_some]
    omega

/-- A rule is cut to the upper bound, if there is one. -/
theorem length_rule (hmax : ∀ m ∈ maxLength, 0 ≤ m) (pattern : String) (n : Nat) :
    ((rule pattern n maxLength).length : Int) =
      maxLength.elim ((repeated pattern.toList n).length : Int)
        (min (repeated pattern.toList n).length) := by
  rw [rule, String.length_ofList]
  cases maxLength with
  | none => rfl
  | some m =>
    have hm : 0 ≤ m := hmax m rfl
    simp only [Option.elim_some, cut, if_pos hm, List.length_take]
    omega

theorem getElem?_rule (hmax : ∀ m ∈ maxLength, 0 ≤ m) {n i : Nat}
    (hi : i < (rule pattern n maxLength).length) :
    (rule pattern n maxLength).toList[i]? = pattern.toList[i % pattern.length]? := by
  rw [rule, String.length_ofList] at hi
  rw [rule, String.toList_ofList, ← String.length_toList]
  cases maxLength with
  | none => exact getElem?_repeated hi
  | some m =>
    simp only [Option.elim_some, cut, if_pos (hmax m rfl), List.length_take] at hi ⊢
    rw [List.getElem?_take_of_lt (by omega), getElem?_repeated (by omega)]

theorem rule_spans (hpattern : pattern ≠ "") (hmax : ∀ m ∈ maxLength, 0 ≤ m) (text : String)
    (minLength : Option Int) :
    Spans pattern text maxLength minLength
      (rule pattern (ruleLength text minLength) maxLength) where
  repeats _ hi := getElem?_rule hmax hi
  length := by
    have hpos : 0 < pattern.toList.length := by
      rw [List.length_pos_iff, ne_eq, String.toList_eq_nil_iff]
      exact hpattern
    have hbounds := length_repeated_bounds hpos (ruleLength text minLength)
    refine ⟨_, ?_, ?_, ?_, length_rule hmax pattern _⟩
    · rw [length_repeated, String.length_toList, Int.natCast_mul]
      exact Int.dvd_mul_left _ _
    · rw [raisedLength_eq]
      exact Int.ofNat_le.2 hbounds.1
    · rw [raisedLength_eq, ← String.length_toList]
      exact_mod_cast hbounds.2

/-- The copies of a pattern come out even at the raised length, or the upper bound is at most this
length. -/
def Fits (pattern text : String) (maxLength minLength : Option Int) : Prop :=
  (pattern.length : Int) ∣ raisedLength text minLength ∨
    ∃ m ∈ maxLength, m ≤ raisedLength text minLength

theorem Spans.length_eq_iff (h : Spans pattern text maxLength minLength line) :
    (line.length : Int) = wantedLength text maxLength minLength ↔
      Fits pattern text maxLength minLength := by
  obtain ⟨whole, hwhole, hle, hlt, hline⟩ := h.length
  -- the copies come out even exactly where they end at the raised length
  have heven : (pattern.length : Int) ∣ raisedLength text minLength ↔
      whole = raisedLength text minLength := by
    refine ⟨fun hdvd => ?_, fun heq => heq ▸ hwhole⟩
    have hover : whole - raisedLength text minLength = 0 :=
      Int.eq_zero_of_dvd_of_natAbs_lt_natAbs (Int.dvd_sub hwhole hdvd) (by omega)
    omega
  rw [hline, Fits, heven, wantedLength]
  cases maxLength with
  | none => simp
  | some m =>
    simp only [Option.elim_some, Option.mem_some_iff, exists_eq_left']
    omega

/-! ## Texts between rules -/

theorem ruledLine_eq {above below : String} (habove : above ≠ "") (hbelow : below ≠ "")
    (text : String) (maxLength minLength : Option Int) :
    ruledLine text above below maxLength minLength =
      rule above (ruleLength text minLength) maxLength ++ "\n" ++ text ++ "\n" ++
        rule below (ruleLength text minLength) maxLength := by
  have hkept : ∀ {s : String}, s ≠ "" → (some s).filter (!·.isEmpty) = some s := by
    intro s hs
    rw [Option.filter_some_pos]
    simpa using hs
  rw [ruledLine, hkept habove, hkept hbelow]
  simp only [String.append_assoc]

/-- **The rules of a text.**  For patterns that are not empty and an upper bound that is not
negative, a ruled text is the text itself between two rules. Each of them repeats its pattern, with
the character at the remainder in every place, in whole copies that reach the length of the text,
raised to the lower bound, and are cut to the upper one. So it has the length that is meant exactly if
the copies come out even at the raised length or the upper bound is not over it. -/
theorem ruledLine_spans (text : String) {above below : String} {maxLength : Option Int}
    (minLength : Option Int) (habove : above ≠ "") (hbelow : below ≠ "")
    (hmax : ∀ m ∈ maxLength, 0 ≤ m) :
    ∃ top bottom : String,
      ruledLine text above below maxLength minLength =
        top ++ "\n" ++ text ++ "\n" ++ bottom ∧
      Spans above text maxLength minLength top ∧
      Spans below text maxLength minLength bottom ∧
      ((top.length : Int) = wantedLength text maxLength minLength ↔
        Fits above text maxLength minLength) ∧
      ((bottom.length : Int) = wantedLength text maxLength minLength ↔
        Fits below text maxLength minLength) := by
  have htop := rule_spans habove hmax text minLength
  have hbottom := rule_spans hbelow hmax text minLength
  exact ⟨_, _, ruledLine_eq habove hbelow text maxLength minLength, htop, hbottom,
    htop.length_eq_iff, hbottom.length_eq_iff⟩

/-- A pattern of two characters comes out even over four of them; one of three is cut there. -/
theorem two_patterns_span :
    "-=" ≠ "" ∧ "-=-" ≠ "" ∧ (∀ m ∈ some (4 : Int), 0 ≤ m) ∧
      ∃ top bottom : String,
        ruledLine "text" "-=" "-=-" (some 4) none = top ++ "\n" ++ "text" ++ "\n" ++ bottom ∧
        (top.length : Int) = 4 ∧ (bottom.length : Int) = 4 := by
  have habove : "-=" ≠ "" := by decide
  have hbelow : "-=-" ≠ "" := by decide
  have hmax : ∀ m ∈ some (4 : Int), 0 ≤ m := by simp
  obtain ⟨top, bottom, heq, -, -, htop, hbottom⟩ :=
    ruledLine_spans "text" none habove hbelow hmax
  rw [show wantedLength "text" (some 4) none = 4 by decide] at htop hbottom
  exact ⟨habove, hbelow, hmax, top, bottom, heq, htop.2 (.inl (by decide)),
    hbottom.2 (.inr ⟨4, rfl, by decide⟩)⟩

/-- Without bounds a pattern of two characters makes rules of four beside a text of three. -/
theorem wide_pattern_overruns :
    ¬∃ top bottom : String,
      ruledLine "abc" "-=" "-=" none none = top ++ "\n" ++ "abc" ++ "\n" ++ bottom ∧
        (top.length : Int) = wantedLength "abc" none none ∧
        (bottom.length : Int) = wantedLength "abc" none none := by
  rintro ⟨top, bottom, heq, htop, hbottom⟩
  rw [show wantedLength "abc" none none = 3 by decide] at htop hbottom
  -- the whole text has thirteen characters, five of them between the rules
  have hlength := congrArg String.length heq
  simp only [String.length_append] at hlength
  rw [show (ruledLine "abc" "-=" "-=" none none).length = 13 by decide,
    show "\n".length = 1 by decide, show "abc".length = 3 by decide] at hlength
  omega

end RootFinding.Report
