import ScriptFrontend.Position

/-!
Tokens: a kind, a value and the stretch of source that spelled them.

Marks and keywords have one spelling each, and messages name them by it.  Nothing here may depend on
the order of the constructors: the order in which marks are tried is `Mark.all`.  A token list always
closes with the token for the end of input, which is as wide as nothing.
-/

namespace ScriptFrontend

inductive Mark
  | openBracket | closeBracket | openParen | closeParen
  | bind | colon | equals | notEquals | lessEquals | less | greaterEquals | greater
  | bang | ellipsis | dot | semicolon | comma | hash
  | plus | dash | slash | star | percent
  deriving DecidableEq, Repr

namespace Mark

/-- Every mark, with each spelling before its own beginnings. -/
def all : List Mark :=
  [openBracket, closeBracket, openParen, closeParen, bind, colon, equals, notEquals, lessEquals,
   less, greaterEquals, greater, bang, ellipsis, dot, semicolon, comma, hash, plus, dash, slash,
   star, percent]

/-- What the lexical rules look for. -/
def spelling : Mark → String
  | openBracket => "["
  | closeBracket => "]"
  | openParen => "("
  | closeParen => ")"
  | bind => ":-"
  | colon => ":"
  | equals => "="
  | notEquals => "<>"
  | lessEquals => "<="
  | less => "<"
  | greaterEquals => ">="
  | greater => ">"
  | bang => "!"
  | ellipsis => "..."
  | dot => "."
  | semicolon => ";"
  | comma => ","
  | hash => "#"
  | plus => "+"
  | dash => "-"
  | slash => "/"
  | star => "*"
  | percent => "%"

/-- What messages and the canonical text write. -/
def name : Mark → String
  | openBracket => "["
  | closeBracket => "]"
  | openParen => "("
  | closeParen => ")"
  | bind => ":-"
  | equals => "="
  | notEquals => "<>"
  | bang => "!"
  | less => "<"
  | lessEquals => "<="
  | greater => ">"
  | greaterEquals => ">="
  | dot => "."
  | ellipsis => "..."
  | semicolon => ";"
  | colon => ":"
  | comma => ","
  | hash => "#"
  | plus => "+"
  | dash => "-"
  | slash => "/"
  | star => "*"
  | percent => "%"

theorem name_eq_spelling (m : Mark) : m.name = m.spelling := by
  cases m <;> rfl

theorem mem_all (m : Mark) : m ∈ all := by
  cases m <;> decide

theorem spelling_length_pos (m : Mark) : 0 < m.spelling.length := by
  cases m <;> decide

end Mark

inductive Keyword
  | def_ | module_ | open_ | as_ | const | class_ | model | final | native | rec_ | end_ | begin_
  | if_ | elif | else_ | while_ | foreach | in_ | break_ | continue_ | goto | label | global
  | print | raise | return_ | true_ | false_ | nil | and_ | or_ | not_
  deriving DecidableEq, Repr

namespace Keyword

def all : List Keyword :=
  [def_, module_, open_, as_, const, class_, model, final, native, rec_, end_, begin_, if_, elif,
   else_, while_, foreach, in_, break_, continue_, goto, label, global, print, raise, return_,
   true_, false_, nil, and_, or_, not_]

def spelling : Keyword → String
  | def_ => "def"
  | module_ => "module"
  | open_ => "open"
  | as_ => "as"
  | const => "const"
  | class_ => "class"
  | model => "model"
  | final => "final"
  | native => "native"
  | rec_ => "rec"
  | end_ => "end"
  | begin_ => "begin"
  | if_ => "if"
  | elif => "elif"
  | else_ => "else"
  | while_ => "while"
  | foreach => "foreach"
  | in_ => "in"
  | break_ => "break"
  | continue_ => "continue"
  | goto => "goto"
  | label => "label"
  | global => "global"
  | print => "print"
  | raise => "raise"
  | return_ => "return"
  | true_ => "true"
  | false_ => "false"
  | nil => "nil"
  | and_ => "and"
  | or_ => "or"
  | not_ => "not"

def reserved : List (String × Keyword) :=
  [("def", def_), ("module", module_), ("open", open_), ("as", as_), ("const", const),
   ("class", class_), ("model", model), ("final", final), ("native", native), ("rec", rec_),
   ("end", end_), ("begin", begin_), ("if", if_), ("elif", elif), ("else", else_),
   ("while", while_), ("foreach", foreach), ("in", in_), ("break", break_), ("continue", continue_),
   ("goto", goto), ("label", label), ("global", global), ("print", print), ("raise", raise),
   ("return", return_), ("true", true_), ("false", false_), ("nil", nil), ("and", and_),
   ("or", or_), ("not", not_)]

def ofWord? (word : String) : Option Keyword :=
  reserved.lookup word

theorem ofWord?_spelling (k : Keyword) : ofWord? k.spelling = some k := by
  cases k <;> decide

theorem spelling_of_ofWord? {word : String} {k : Keyword} (h : ofWord? word = some k) :
    k.spelling = word := by
  obtain ⟨before, after, hsplit, -⟩ := List.lookup_eq_some_iff.1 h
  have hreserved : ∀ p ∈ reserved, p.2.spelling = p.1 := by decide
  exact hreserved (word, k) (by simp [hsplit])

end Keyword

inductive Kind
  | endOfInput
  | number
  | text
  | identifier
  | mark (m : Mark)
  | keyword (k : Keyword)
  deriving DecidableEq, Repr

/-- The name of a kind in messages: its spelling if it has only one, and what it is otherwise. -/
def Kind.name : Kind → String
  | endOfInput => "end of input"
  | number => "number"
  | text => "string"
  | identifier => "identifier"
  | mark m => m.name
  | keyword k => k.spelling

@[simp] theorem Kind.name_mark (m : Mark) : (Kind.mark m).name = m.spelling :=
  m.name_eq_spelling

def Mark.title : Mark → String
  | openBracket => "OpenBracket"
  | closeBracket => "CloseBracket"
  | openParen => "OpenParen"
  | closeParen => "CloseParen"
  | bind => "Bind"
  | colon => "Colon"
  | equals => "Equals"
  | notEquals => "NotEquals"
  | lessEquals => "LessEquals"
  | less => "Less"
  | greaterEquals => "GreaterEquals"
  | greater => "Greater"
  | bang => "Bang"
  | ellipsis => "Ellipsis"
  | dot => "Dot"
  | semicolon => "Semicolon"
  | comma => "Comma"
  | hash => "Hash"
  | plus => "Plus"
  | dash => "Dash"
  | slash => "Slash"
  | star => "Star"
  | percent => "Percent"

/-- The name of a kind in a dump of tokens: what it is, never how it is spelled. -/
def Kind.title : Kind → String
  | endOfInput => "EOF"
  | number => "Number"
  | text => "String"
  | identifier => "Identifier"
  | mark m => m.title
  | keyword k => k.spelling.capitalize

def Kind.all : List Kind :=
  [endOfInput, number, text, identifier] ++ Mark.all.map mark ++ Keyword.all.map keyword

structure Token where
  kind : Kind
  /-- The lexeme, or what it stands for if the token is a string literal. -/
  value : String
  span : Span
  deriving DecidableEq, Repr

namespace Token

def endOfInput (p : Position) : Token :=
  ⟨.endOfInput, "EOF", ⟨p, p⟩⟩

def dump (t : Token) : String :=
  "Token \x7b\nkind: " ++ t.kind.title ++ ",\nvalue: " ++ t.value ++ "\x7d"

end Token

end ScriptFrontend
