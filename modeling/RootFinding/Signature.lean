import RootFinding.Signature.Outline

/-!
# Parameter lists

The form of a residual function can be read off its parameter list: a function with three required
positional parameters fills the array that it is given first, any other one answers its residual.
Parameters stand between commas, each with an annotation after a colon and a default after an
equals sign, if it has them. A parameter with a default is not required; a lone star ends the
positional ones, a lone slash is only a mark, a star before a name collects further positional
arguments, and two stars before a name collect named ones.
-/

namespace RootFinding

inductive Parameter where
  /-- Takes one argument. -/
  | single (name : List Char) (hasDefault : Bool)
  /-- The mark before which parameters are passed by position only. -/
  | positionalOnly
  /-- The mark after which parameters are passed by name only. -/
  | namedOnly
  /-- Collects further positional arguments. -/
  | rest (name : List Char)
  /-- Collects further named arguments. -/
  | namedRest (name : List Char)
  deriving DecidableEq, Repr

namespace Parameter

def name? : Parameter → Option (List Char)
  | single name _ | rest name | namedRest name => some name
  | positionalOnly | namedOnly => none

def isRequired : Parameter → Bool
  | single _ hasDefault => !hasDefault
  | _ => false

def isRest : Parameter → Bool
  | rest _ => true
  | _ => false

/-- Whether a parameter stands among those that can be passed by position. -/
def isPositional : Parameter → Bool
  | single _ _ | positionalOnly => true
  | _ => false

end Parameter

namespace Signature

/-- Words that cannot be names. -/
def reserved : List String :=
  ["False", "None", "True", "and", "as", "assert", "async", "await", "break", "class", "continue",
    "def", "del", "elif", "else", "except", "finally", "for", "from", "global", "if", "import",
    "in", "is", "lambda", "nonlocal", "not", "or", "pass", "raise", "return", "try", "while",
    "with", "yield"]

/-- Cuts a list at the elements that are separators. -/
def cutAt {α : Type} (separates : α → Bool) : List α → List (List α)
  | [] => [[]]
  | x :: xs =>
    if separates x then [] :: cutAt separates xs
    else match cutAt separates xs with
      | [] => [[x]]
      | part :: parts => (x :: part) :: parts

/-- Cuts an outline that stands after another symbol at its first equals sign; one that belongs to
a comparison does not count. -/
def cutDefaultAfter (previous : Symbol) : List Symbol → List Symbol × Option (List Symbol)
  | [] => ([], none)
  | x :: xs =>
    let isCompared := ['=', '<', '>', '!'].any (previous == .outer ·)
    if x == .outer '=' && !isCompared && xs.head? != some (.outer '=') then ([], some xs)
    else
      let (before, after) := cutDefaultAfter x xs
      (x :: before, after)

def cutDefault (xs : List Symbol) : List Symbol × Option (List Symbol) := cutDefaultAfter .blank xs

/-- Cuts an outline at its first colon. -/
def cutAnnotation (xs : List Symbol) : List Symbol × Option (List Symbol) :=
  let before := xs.takeWhile (· != .outer ':')
  (before, (xs.drop before.length).tail?)

def isVoid (xs : List Symbol) : Bool := xs.all (· == .blank)

/-- The outline without the blanks around it. -/
def trim (xs : List Symbol) : List Symbol :=
  ((xs.dropWhile (· == .blank)).reverse.dropWhile (· == .blank)).reverse

/-- The name of an outline that holds one. -/
def readName? (xs : List Symbol) : Option (List Char) := do
  let cs ← (trim xs).mapM fun
    | .outer c => some c
    | _ => none
  if cs.all isWordChar && cs.head?.any (!·.isDigit) && !reserved.contains (String.ofList cs) then
    some cs
  else none

/-- Whether a default can stand after its equals sign. -/
def isDefault (xs : List Symbol) : Bool :=
  !isVoid xs && (cutDefault xs).2.isNone && !xs.contains (.outer ':')

/-- The parameter of a part of the list. -/
def parameter? (part : List Symbol) : Option Parameter :=
  let (declared, default) := cutDefault part
  let (target, annotation) := cutAnnotation declared
  if annotation.any isVoid || default.any (!isDefault ·) then none
  else match trim target with
    | [.outer '*'] => if annotation.isNone && default.isNone then some .namedOnly else none
    | [.outer '/'] => if annotation.isNone && default.isNone then some .positionalOnly else none
    | .outer '*' :: .outer '*' :: xs =>
      if default.isNone then .namedRest <$> readName? xs else none
    | .outer '*' :: xs => if default.isNone then .rest <$> readName? xs else none
    | xs => (.single · default.isSome) <$> readName? xs

/-- Whether these can end a list: parameters passed by name, the collecting one last. -/
def isNamedTail : List Parameter → Bool
  | [] | [.namedRest _] => true
  | .single _ _ :: ps => isNamedTail ps
  | _ => false

/-- Whether the positional parameters stand in order: the slash at most once and not first, and no
required parameter after one with a default. -/
def isPositionalFront (ps : List Parameter) : Bool :=
  ps.count .positionalOnly ≤ 1 && ps.head? != some .positionalOnly &&
    !(ps.dropWhile fun p => p.isRequired || p == .positionalOnly).any (·.isRequired)

/-- Whether the parameters after the positional ones stand in order; a lone star needs a named
parameter after it. -/
def isBack : List Parameter → Bool
  | .namedOnly :: .single _ _ :: ps => isNamedTail ps
  | .rest _ :: ps => isNamedTail ps
  | ps => isNamedTail ps

def isInOrder (ps : List Parameter) : Bool :=
  isPositionalFront (ps.takeWhile (·.isPositional)) && isBack (ps.dropWhile (·.isPositional))

def hasDistinctNames (ps : List Parameter) : Bool :=
  let names := ps.filterMap (·.name?)
  names.eraseDups.length == names.length

/-- The parameters of a list, if it is one. A comma may stand after the last parameter. -/
def parameters? (text : String) : Option (List Parameter) := do
  let parts := cutAt (· == .outer ',') (← outline? text)
  let ps ← (if parts.getLast?.any isVoid then parts.dropLast else parts).mapM parameter?
  if isInOrder ps && hasDistinctNames ps then some ps else none

/-- How many arguments have to be passed by position. -/
def required (ps : List Parameter) : Nat := (ps.takeWhile (·.isPositional)).countP (·.isRequired)

/-- Whether a function with these parameters fills the array that it is given. -/
def fills (ps : List Parameter) : Bool := !ps.any (·.isRest) && required ps == 3

/-- Whether a residual function fills its array: as the caller says, else by its parameter list. A
function whose list is not known answers its residual. -/
def isFilling? (stated : Option Bool) (list : Option String) : Option Bool :=
  list.elim (some (stated.getD false)) fun text =>
    (parameters? text).map fun ps => stated.getD (fills ps)

end Signature

end RootFinding
