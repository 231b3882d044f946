/-!
# The outline of a parameter list

Only the characters at the outer level of a parameter list take part in its structure. The outline
keeps these and reduces the others to marks: what stands inside brackets, quotes or the parameters
of a nameless function is `inner`, and blanks and comments are `blank`. A text whose brackets or
quotes do not close has no outline.

A quoted text opens with one quote or with three and closes with as many; a backslash protects the
character after it. Marked as having fields, it may hold expressions in braces, inside which the
same quotes can be used again, and after a colon there the layout of the value.
-/

namespace RootFinding.Signature

/-- What a character of a parameter list is to its structure. -/
inductive Symbol where
  | outer (c : Char)
  | inner
  | blank
  deriving DecidableEq, Repr

/-- An enclosure that is open at a place of the list. -/
inductive Frame where
  | bracket (closing : Char)
  | quoted (mark : Char) (long hasFields : Bool)
  /-- An expression inside a quoted text. -/
  | field
  /-- The layout of such an expression. -/
  | layout
  | comment
  deriving DecidableEq, Repr

/-- Where a reader of a parameter list stands. -/
structure Place where
  /-- The open enclosures, innermost first. -/
  frames : List Frame := []
  /-- The word before this place, last character first. -/
  word : List Char := []
  /-- The open parameter lists of nameless functions. -/
  nameless : Nat := 0
  /-- How many of the next characters are already read. -/
  skip : Nat := 0

/-- Beyond the basic alphabet every character counts as a letter. -/
def isWordChar (c : Char) : Bool := c.isAlphanum || c == '_' || 0x80 ≤ c.toNat

def isBlank (c : Char) : Bool := c == ' ' || c == '\t' || c == '\n' || c == '\x0c'

def isQuote (c : Char) : Bool := c == '\'' || c == '"'

/-- The character that closes a bracket. -/
def closing? : Char → Option Char
  | '(' => some ')'
  | '[' => some ']'
  | '\x7b' => some '\x7d'
  | _ => none

def isClosing (c : Char) : Bool := c == ')' || c == ']' || c == '\x7d'

/-- Whether a quoted text after this word has fields. -/
def marksFields (word : List Char) : Bool :=
  ["f", "fr", "rf"].any (·.toList == word.reverse.map Char.toLower)

namespace Place

def enter (p : Place) (f : Frame) : Place := { p with frames := f :: p.frames }

def leave (p : Place) : Place := { p with frames := p.frames.tail }

/-- The place once the word before it has ended; a word of its own opens a nameless function. -/
def endWord (p : Place) : Place :=
  if p.frames.isEmpty && p.word.reverse == "lambda".toList then
    { p with word := [], nameless := p.nameless + 1 }
  else { p with word := [] }

/-- The place after a character of a quoted text. A backslash does not keep a field from opening. -/
def nextQuoted (p : Place) (mark : Char) (long hasFields : Bool) (c : Char) (cs : List Char) :
    Option Place :=
  if c = '\\' then
    some { p with skip := if hasFields && cs.head? = some '\x7b' then 0 else 1 }
  else if c = mark then
    if !long then some p.leave
    else if cs.take 2 == [mark, mark] then some { p.leave with skip := 2 }
    else some p
  else if c = '\n' && !long then none
  else if hasFields && c = '\x7b' then
    if cs.head? = some '\x7b' then some { p with skip := 1 } else some (p.enter .field)
  else some p

/-- The place after a closing bracket. -/
def close (p : Place) (c : Char) : Option Place :=
  match p.frames with
  | .bracket closing :: _ => if c = closing then some p.leave else none
  | .field :: _ => if c = '\x7d' then some p.leave else none
  | _ => none

/-- The place after a colon. -/
def colon (p : Place) : Place :=
  match p.frames with
  | [] => { p with nameless := p.nameless - 1 }
  | .field :: _ => p.leave.enter .layout
  | _ => p

/-- The place after a character that is not part of a quoted text or a comment. -/
def nextPlain (p : Place) (c : Char) (cs : List Char) : Option Place :=
  if isWordChar c then some { p with word := c :: p.word }
  else if isQuote c then
    let long := cs.take 2 == [c, c]
    let q := p.endWord.enter (.quoted c long (marksFields p.word))
    some { q with skip := if long then 2 else 0 }
  else if c = '#' then some (p.endWord.enter .comment)
  else if c = '\\' then if cs.head? = some '\n' then some p.endWord else none
  else if c = ':' then some p.endWord.colon
  else if isClosing c then p.endWord.close c
  else some ((closing? c).elim p.endWord fun d => p.endWord.enter (.bracket d))

/-- The place after a character with others behind it. -/
def next (p : Place) (c : Char) (cs : List Char) : Option Place :=
  match p.skip, p.frames with
  | k + 1, _ => some { p with skip := k }
  | 0, .comment :: _ => some (if c = '\n' then p.leave else p)
  | 0, .quoted mark long hasFields :: _ => p.nextQuoted mark long hasFields c cs
  | 0, .layout :: _ =>
    some (if c = '\x7b' then p.enter .field else if c = '\x7d' then p.leave else p)
  | 0, _ => p.nextPlain c cs

/-- What a character is that stands here. -/
def symbol (p : Place) (c : Char) : Symbol :=
  match p.skip, p.frames with
  | 0, [] =>
    if isBlank c || c == '#' || c == '\\' then .blank
    else if isQuote c || (closing? c).isSome then .inner
    else if 0 < (if isWordChar c then p else p.endWord).nameless then .inner
    else .outer c
  | 0, [.comment] => .blank
  | _, _ => .inner

/-- Whether a list can end here. -/
def isEnd (p : Place) : Bool := p.frames.isEmpty && p.endWord.nameless == 0

end Place

/-- The outline of the rest of a list. -/
def outlineFrom (p : Place) : List Char → Option (List Symbol)
  | [] => if p.isEnd then some [] else none
  | c :: cs => do
    let q ← p.next c cs
    return p.symbol c :: (← outlineFrom q cs)

/-- The characters of a text with every line end as one character. -/
def withLineEnds : List Char → List Char
  | '\r' :: '\n' :: cs => '\n' :: withLineEnds cs
  | '\r' :: cs => '\n' :: withLineEnds cs
  | c :: cs => c :: withLineEnds cs
  | [] => []

def outline? (text : String) : Option (List Symbol) := outlineFrom {} (withLineEnds text.toList)

end RootFinding.Signature
