import RootFinding.Vec

/-!
# Data in reports

The values that a failure carries and a report prints. Within a list a text stands in quotes; on its
own it stands as it is. Several values together are written as a list in round brackets.
-/

namespace RootFinding

/-- A value that a report can show. -/
inductive Datum (R K : Type) where
  | absent
  | truth (b : Bool)
  | whole (n : Int)
  | real (x : R)
  | text (s : String)
  | list (xs : List (Datum R K))
  | array (t : Tensor K)

namespace Datum

variable {R K : Type} [Written R]

/-- The text of a value inside a list. -/
def quotedText : Datum R K → String
  | absent => "None"
  | truth true => "True"
  | truth false => "False"
  | whole n => toString n
  | real x => Written.write .shortest x
  | text s => Text.quoted s
  | list xs => "[" ++ String.intercalate ", " (xs.attach.map fun ⟨x, _⟩ => x.quotedText) ++ "]"
  | array _ => "[...]"

/-- The text of a value on its own. -/
def toText : Datum R K → String
  | text s => s
  | x => x.quotedText

/-- The text of several values: none at all, one, or a list in round brackets. -/
def listText : List (Datum R K) → String
  | [] => ""
  | [x] => x.toText
  | xs => "(" ++ String.intercalate ", " (xs.map quotedText) ++ ")"

end Datum

end RootFinding
