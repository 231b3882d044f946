import RootFinding.Vec

/-!
# Texts of a report

Ruled lines, and numbers and vectors as a report shows them. A rule repeats its pattern up to the
length of the text between the rules, within the given bounds; lengths count characters.
-/

namespace RootFinding.Report

/-- The first `bound` characters of a list, or all but the last `-bound` for a negative bound. -/
def cut (bound : Int) (cs : List Char) : List Char :=
  if 0 ≤ bound then cs.take bound.toNat else cs.take (cs.length - bound.natAbs)

/-- A pattern repeated to at least the given length. -/
def repeated (pattern : List Char) (length : Nat) : List Char :=
  (List.replicate ((length + pattern.length - 1) / pattern.length) pattern).flatten

/-- A rule of a pattern: repeated to at least the given length, then cut. -/
def rule (pattern : String) (length : Nat) (maxLength : Option Int) : String :=
  let line := repeated pattern.toList length
  String.ofList (maxLength.elim line (cut · line))

/-- The length of a text, raised to a bound if there is one. -/
def ruleLength (text : String) (minLength : Option Int) : Nat :=
  max text.length (minLength.getD 0).toNat

/-- A text between two rules. A missing or empty pattern gives no rule. -/
def ruledLine (text : String) (above below : Option String := some "-")
    (maxLength minLength : Option Int := some 72) : String :=
  let length := ruleLength text minLength
  let top := match above.filter (!·.isEmpty) with
    | some pattern => rule pattern length maxLength ++ "\n"
    | none => ""
  let bottom := match below.filter (!·.isEmpty) with
    | some pattern => "\n" ++ rule pattern length maxLength
    | none => ""
  top ++ text ++ bottom

def padLeft (width : Nat) (text : String) : String :=
  String.ofList (List.replicate (width - text.length) ' ') ++ text

/-- A number in scientific notation with `figures` significant digits, or a word of that width. -/
def sciText {R : Type} [Scalar R] (x : R) (figures : Nat := 5) : String :=
  if Scalar.isFinite x then Written.write (.scientific (figures - 1)) x
  else padLeft (figures + 6) (Written.write .shortest x)

/-- The text of a number for any count of digits; a number has no text with less than one. -/
def sciText? {R : Type} [Scalar R] (x : R) (figures : Int) : Except Fault String :=
  if Scalar.isFinite x then
    if figures < 1 then .error .precision else .ok (sciText x figures.toNat)
  else if figures < -6 then .error .precision
  else .ok (padLeft (figures + 6).toNat (Written.write .shortest x))

/-- The entries of a vector in a few digits; nothing for a vector of more than `limit` entries. -/
def vecText {R K : Type} [Scalar R] [Entry R K] (v : Vec K) (limit : Int := 6) : String :=
  if limit < v.size then ""
  else String.intercalate ", " (v.toList.map (Entry.write (.general 6)))

end RootFinding.Report
