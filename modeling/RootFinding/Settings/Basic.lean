import RootFinding.LineSearch.Basic
import RootFinding.Strategy.Tolerance

/-!
# Named settings

Settings by name, as a caller writes them down: values, groups of further settings, and functions. A
setting that is left out has its standard value. A value of the wrong kind is a fault.
-/

namespace RootFinding

inductive Setting (σ R K : Type) where
  | value (x : Datum R K)
  | group (fields : List (String × Setting σ R K))
  /-- A search method of the caller's. -/
  | search (m : SearchMethod σ R K)
  /-- A tolerance rule of the caller's. -/
  | tolerance (f : ToleranceRule σ R K)

abbrev Settings (σ R K : Type) : Type := List (String × Setting σ R K)

namespace Settings

variable {σ R K : Type}

/-- A setting by its name, absent when it is left out. -/
def get (s : Settings σ R K) (name : String) : Setting σ R K :=
  (s.lookup name).getD (.value .absent)

/-- The settings of a group, none when there is no such group. -/
def group (s : Settings σ R K) (name : String) : Settings σ R K :=
  match s.get name with
  | .group fields => fields
  | _ => []

/-- A setting as `read` takes it, or its standard value when it is left out. -/
def read {α : Type} (s : Settings σ R K) (read : Datum R K → Option α) (name : String)
    (standard : α) : Except Fault α :=
  match s.lookup name with
  | none => .ok standard
  | some (.value x) => (read x).elim (.error (.unfitSetting name)) .ok
  | some _ => .error (.unfitSetting name)

/-- A setting that may also be given as absent. -/
def read? {α : Type} (s : Settings σ R K) (read : Datum R K → Option α) (name : String) :
    Except Fault (Option α) :=
  let orAbsent : Datum R K → Option (Option α) := fun
    | .absent => some none
    | x => (read x).map some
  s.read orAbsent name none

def wholeOf : Datum R K → Option Int
  | .whole n => some n
  | .truth b => some (if b then 1 else 0)
  | _ => none

def truthOf : Datum R K → Option Bool
  | .truth b => some b
  | .whole n => some (n != 0)
  | .absent => some false
  | _ => none

/-- A name; other values count as their text. -/
def nameOf [Written R] (x : Datum R K) : Option String := some x.toText

def numberOf [Scalar R] : Datum R K → Option R
  | .real x => some x
  | .whole n => some (Scalar.ofInt n)
  | .truth b => some (if b then 1.0 else 0.0)
  | _ => none

def whole (s : Settings σ R K) : String → Int → Except Fault Int := s.read wholeOf

def truth (s : Settings σ R K) : String → Bool → Except Fault Bool := s.read truthOf

def name [Written R] (s : Settings σ R K) : String → String → Except Fault String := s.read nameOf

def name? [Written R] (s : Settings σ R K) : String → Except Fault (Option String) :=
  s.read? nameOf

def number [Scalar R] (s : Settings σ R K) : String → R → Except Fault R := s.read numberOf

def number? [Scalar R] (s : Settings σ R K) : String → Except Fault (Option R) :=
  s.read? numberOf

/-- A count that may be absent; nothing is counted below zero. -/
def count? (s : Settings σ R K) (name : String) : Except Fault (Option Nat) :=
  (s.read? wholeOf name).map fun n => n.map Int.toNat

/-- A setting as a report shows it: the value that was given, or the standard one. -/
def shown [Written R] (s : Settings σ R K) (name : String) (standard : Datum R K) : String :=
  match s.lookup name with
  | some (.value x) => x.quotedText
  | _ => standard.quotedText

end Settings

end RootFinding
