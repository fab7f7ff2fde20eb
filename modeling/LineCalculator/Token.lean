/-!
# Tokens

A token is a kind and the text it was cut from. A token list usually closes with the end-of-line
token; readers of a list see that token past the list's end as well.

A line is cut into maximal runs, of digits and points and of ASCII letters, and into single marks.
Blanks separate and leave no token. Nothing is rejected here: a run such as `1.2.3` is one number
token, and a character outside the language is one stray token.
-/
namespace LineCalculator

/-- What a token is. -/
inductive TokenKind where
  /-- Digits and points. -/
  | number
  /-- A word that is not a keyword: the name of a variable. -/
  | name
  | operator
  /-- The name of a built-in function. -/
  | function
  | openParen
  | closeParen
  | equals
  /-- The keyword that starts a print statement. -/
  | print
  | endOfLine
  /-- A character outside the language. -/
  | stray
  deriving DecidableEq, Repr

/-- A token. -/
structure Token where
  kind : TokenKind
  text : String
  deriving DecidableEq, Repr

namespace Token

/-- The end of the line, which has no text. -/
def endOfLine : Token := ⟨.endOfLine, ""⟩

/-- How a token is named to the user: its text in single quotes, the end of the line in words. -/
def display (t : Token) : String :=
  if t.kind = .endOfLine then "end of input" else "'" ++ t.text ++ "'"

@[simp] theorem kind_endOfLine : endOfLine.kind = .endOfLine := rfl

@[simp] theorem text_endOfLine : endOfLine.text = "" := rfl

@[simp] theorem display_endOfLine : endOfLine.display = "end of input" := rfl

end Token

/-! ## Cutting a line into tokens -/

/-- The six blanks: space, tab, line feed, vertical tab, form feed and carriage return. -/
def isBlank (c : Char) : Bool :=
  c = ' ' || c = '\t' || c = '\n' || c = '\x0b' || c = '\x0c' || c = '\r'

/-- The characters of a number run. -/
def isNumeral (c : Char) : Bool := c.isDigit || c = '.'

/-- The characters of a word, the ASCII letters. -/
def isLetter (c : Char) : Bool := c.isAlpha

/-- The kind of a word. The two keywords are matched in this case only. -/
def wordKind (word : List Char) : TokenKind :=
  if word = ['r', 'o', 'o', 't'] then .function
  else if word = ['p', 'r', 'i', 'n', 't'] then .print
  else .name

/-- The kind of a mark, a character that is neither blank nor part of a run. -/
def markKind (c : Char) : TokenKind :=
  if c = '=' then .equals
  else if c = '+' || c = '-' || c = '*' || c = '/' || c = '^' then .operator
  else if c = '(' then .openParen
  else if c = ')' then .closeParen
  else .stray

namespace Token

/-- The token of a number run. -/
def ofNumeral (run : List Char) : Token := ⟨.number, String.ofList run⟩

/-- The token of a word. -/
def ofWord (word : List Char) : Token := ⟨wordKind word, String.ofList word⟩

/-- The token of a mark. -/
def ofMark (c : Char) : Token := ⟨markKind c, String.ofList [c]⟩

/-- The tokens of a text, from left to right. -/
def lexemes : List Char → List Token
  | [] => []
  | c :: rest =>
    if isBlank c then lexemes rest
    else if isNumeral c then
      ofNumeral (c :: rest.takeWhile isNumeral) :: lexemes (rest.dropWhile isNumeral)
    else if isLetter c then
      ofWord (c :: rest.takeWhile isLetter) :: lexemes (rest.dropWhile isLetter)
    else ofMark c :: lexemes rest
termination_by text => text.length
decreasing_by
  all_goals simp only [List.length_cons]
  all_goals have := (List.dropWhile_sublist (l := rest) isNumeral).length_le
  all_goals have := (List.dropWhile_sublist (l := rest) isLetter).length_le
  all_goals omega

/-- The tokens of a line and the end-of-line token. -/
def scan (line : String) : List Token := lexemes line.toList ++ [endOfLine]

@[simp] theorem lexemes_nil : lexemes [] = [] := by
  rw [lexemes]

theorem lexemes_cons (c : Char) (rest : List Char) :
    lexemes (c :: rest) =
      if isBlank c then lexemes rest
      else if isNumeral c then
        ofNumeral (c :: rest.takeWhile isNumeral) :: lexemes (rest.dropWhile isNumeral)
      else if isLetter c then
        ofWord (c :: rest.takeWhile isLetter) :: lexemes (rest.dropWhile isLetter)
      else ofMark c :: lexemes rest := by
  rw [lexemes]

@[simp] theorem length_scan (line : String) :
    (scan line).length = (lexemes line.toList).length + 1 := by
  simp [scan]

end Token

end LineCalculator
