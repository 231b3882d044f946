/-!
# Quoted text

A quoted text stands in single quotes, or in double quotes when it holds a single quote and no
double one. A backslash and the quote in use are escaped, line breaks and tabs have short escapes,
and other characters that do not print are written by their code in base sixteen. Blanks other than
the space do not print, nor do control, format, private and surrogate characters.
-/

namespace RootFinding.Text

/-- Ranges of code points, both ends included, whose characters do not print. -/
def unprintable : List (Nat × Nat) :=
  [(0x00, 0x1f), (0x7f, 0xa0), (0xad, 0xad), (0x600, 0x605), (0x61c, 0x61c), (0x6dd, 0x6dd),
   (0x70f, 0x70f), (0x890, 0x891), (0x8e2, 0x8e2), (0x1680, 0x1680), (0x180e, 0x180e),
   (0x2000, 0x200f), (0x2028, 0x202f), (0x205f, 0x206f), (0x3000, 0x3000), (0xd800, 0xf8ff),
   (0xfeff, 0xfeff), (0xfff0, 0xfffb), (0xfffe, 0xffff), (0x110bd, 0x110bd), (0x110cd, 0x110cd),
   (0xe0000, 0xe00ff), (0xe01f0, 0x10ffff)]

def isPrintable (c : Char) : Bool :=
  unprintable.all fun (first, last) => c.toNat < first || last < c.toNat

/-- `n` in base sixteen with at least `count` digits. -/
def hexText (n count : Nat) : String :=
  let text := String.ofList (Nat.toDigits 16 n)
  String.ofList (List.replicate (count - text.length) '0') ++ text

/-- One character as it stands between the quotes `q`. -/
def escape (q c : Char) : String :=
  if c = '\\' then "\\\\"
  else if c = q then String.ofList ['\\', c]
  else if c = '\n' then "\\n"
  else if c = '\r' then "\\r"
  else if c = '\t' then "\\t"
  else if isPrintable c then c.toString
  else if c.toNat < 0x100 then "\\x" ++ hexText c.toNat 2
  else if c.toNat < 0x10000 then "\\u" ++ hexText c.toNat 4
  else "\\U" ++ hexText c.toNat 8

def quoted (s : String) : String :=
  let q := if s.toList.contains '\'' && !s.toList.contains '"' then '"' else '\''
  q.toString ++ String.join (s.toList.map (escape q)) ++ q.toString

end RootFinding.Text
