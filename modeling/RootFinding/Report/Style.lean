import RootFinding.Datum

/-!
# Print styles

A report has levels. A style stands at the first level or below another style, and a decorated style
puts a mark before a text. Applying a style follows the chain of its parents up to the nearest plain
style or to the top, where nothing is added. A style holds its parent as a value, so a chain of
parents cannot run in a circle.
-/

namespace RootFinding

/-- What a style puts before a text. -/
inductive Decoration where
  | plain
  | dots
  | stars
  deriving DecidableEq, Repr

def Decoration.mark : Decoration → String
  | plain => ""
  | dots => "... "
  | stars => "*** "

inductive Style where
  | top (d : Decoration)
  | under (d : Decoration) (parent : Style)
  deriving DecidableEq, Repr

namespace Style

/-- The number of styles from the top down to this one. -/
def level : Style → Nat
  | top _ => 1
  | under _ parent => parent.level + 1

def apply : Style → String → String
  | top _, s => s
  | under .plain _, s => s
  | under d parent, s => parent.apply (d.mark ++ s)

end Style

/-- A text to print with further values, what stands between them and what ends them. -/
structure PrintLine (R K : Type) where
  text : String
  more : List (Datum R K) := []
  separator : String := " "
  ending : String := "\n"

def PrintLine.render {R K : Type} [Written R] (l : PrintLine R K) : String :=
  String.intercalate l.separator (l.text :: l.more.map Datum.toText) ++ l.ending

/-- What a call of `print` writes, and the warning that it gives. -/
structure Printed where
  text : String := ""
  warning : Option String := none

/-- Named styles and the last level that is shown. -/
structure PrintStyles where
  styles : List (String × Style) := []
  level : Int

namespace PrintStyles

def find? (p : PrintStyles) (name : String) : Option Style := p.styles.lookup name

/-- The style of a parent's name; no name and the empty one stand for the top. -/
def styleBelow (p : PrintStyles) (d : Decoration) (parent : Option String) : Except Fault Style :=
  match parent.filter (!·.isEmpty) with
  | none => .ok (.top d)
  | some name =>
    match p.find? name with
    | some s => .ok (.under d s)
    | none => .error (.refused (.parentMissing name))

/-- Adds a style. A name that is taken and a parent that is missing are refused. -/
def add (p : PrintStyles) (name : String) (d : Decoration) (parent : Option String) :
    Except Fault PrintStyles :=
  match p.find? name with
  | some _ => .error (.refused (.styleExists name))
  | none => (p.styleBelow d parent).map fun s => { p with styles := p.styles ++ [(name, s)] }

def apply (p : PrintStyles) (name text : String) : Except Fault String :=
  match p.find? name with
  | some s => .ok (s.apply text)
  | none => .error (.refused (.styleMissing name))

/-- Prints a line in a style if the style is within the level to show, which can be given for this
line. A line without a style is printed as it is, and so is one whose style is unknown. -/
def print {R K : Type} [Written R] (p : PrintStyles) (name : Option String) (level : Option Int)
    (l : PrintLine R K) : Printed :=
  match name with
  | none => { text := l.render }
  | some name =>
    match p.find? name with
    | none => { text := l.render, warning := some s!"Format style '{name}' not found." }
    | some s =>
      if (s.level : Int) ≤ level.getD p.level then
        { text := PrintLine.render { l with text := s.apply l.text } }
      else {}

/-- The styles of a solve: its heading and result, the iterations, and notices below these. -/
def forSolve (level : Int) : PrintStyles where
  styles :=
    [("solver", .top .plain),
     ("iteration", .under .dots (.top .plain)),
     ("notice", .under .stars (.under .dots (.top .plain)))]
  level := level

end PrintStyles

end RootFinding
