/-!
# The kinds of tokens

Words, literals, brackets and operator signs, and the classes of them that a reader may ask for. A
set of kinds is a list in which order and repetition mean nothing: it is named in the order of
`Token.Kind.all`.
-/

namespace ExprLang.Token

inductive Kind where
  | name | string | number | boolean | null
  | openBracket | closeBracket | openBrace | closeBrace | openParen | closeParen
  | plus | minus | times | divide | modulo | colon | comma | dots
  | bang | and | or | less | lessOrEqual | equal | notEqual | greaterOrEqual | greater | arrow
  | tilde | ampersand | caret | bar | shiftLeft | shiftRight | openSwitch | closeSwitch | assign | endOfInput
deriving DecidableEq

namespace Kind

def all : List Kind :=
  [name, string, number, boolean, null, openBracket, closeBracket, openBrace, closeBrace, openParen, closeParen,
    plus, minus, times, divide, modulo, colon, comma, dots, bang, and, or, less, lessOrEqual, equal, notEqual,
    greaterOrEqual, greater, arrow, tilde, ampersand, caret, bar, shiftLeft, shiftRight, openSwitch, closeSwitch,
    assign, endOfInput]

theorem mem_all (k : Kind) : k ∈ all := by cases k <;> decide

/-- How messages call a kind. -/
def title : Kind → String
  | name => "variable"
  | string => "string"
  | number => "number"
  | boolean => "boolean"
  | null => "'null'"
  | openBracket => "'['"
  | closeBracket => "']'"
  | openBrace => "'\x7b'"
  | closeBrace => "'\x7d'"
  | openParen => "'('"
  | closeParen => "')'"
  | plus => "'+'"
  | minus => "'-'"
  | times => "'*'"
  | divide => "'/'"
  | modulo => "'%'"
  | colon => "':'"
  | comma => "','"
  | dots => "'..'"
  | bang => "'!'"
  | and => "'&&'"
  | or => "'||'"
  | less => "'<'"
  | lessOrEqual => "'<='"
  | equal => "'=='"
  | notEqual => "'!='"
  | greaterOrEqual => "'>='"
  | greater => "'>'"
  | arrow => "'->'"
  | tilde => "'~'"
  | ampersand => "'&'"
  | caret => "'^'"
  | bar => "'|'"
  | shiftLeft => "'<<'"
  | shiftRight => "'>>'"
  | openSwitch => "'\x7b\x7b'"
  | closeSwitch => "'\x7d\x7d'"
  | assign => "'='"
  | endOfInput => "end of file"

/-- Alternatives as a phrase: commas, and "or" before the last. -/
def phrase (ts : List String) : String :=
  match ts.getLast?, ts.dropLast with
  | none, _ => "unknown token"
  | some last, [] => last
  | some last, before => ", ".intercalate before ++ " or " ++ last

/-- How messages call a set of kinds. -/
def titles (ks : List Kind) : String := phrase ((all.filter (ks.contains ·)).map title)

/-! ## Classes -/

def literals : List Kind := [string, number, boolean, null]

def unaryOperators : List Kind := [plus, minus, bang, tilde]

/-- The kinds with which a term other than a switch begins. -/
def simpleTerms : List Kind := [name] ++ literals ++ [openParen] ++ unaryOperators ++ [openBracket, openBrace]

/-- The kinds with which a term begins. -/
def terms : List Kind := simpleTerms ++ [openSwitch]

/-- The signs of binary operators. -/
def binaryOperators : List Kind :=
  [plus, minus, times, divide, modulo, and, or, less, lessOrEqual, equal, notEqual, greaterOrEqual, greater, arrow,
    ampersand, caret, bar, shiftLeft, shiftRight, dots]

end Kind

end ExprLang.Token
