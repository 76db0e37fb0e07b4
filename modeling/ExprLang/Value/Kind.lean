/-!
# The kinds of values
-/

namespace ExprLang

/-- What a value is, without its content. -/
inductive Kind where
  | boolean | string | number | array | map | range | null | undefined
deriving DecidableEq

def Kind.name : Kind → String
  | boolean => "Boolean"
  | string => "String"
  | number => "Number"
  | array => "Array"
  | map => "Map"
  | range => "Range"
  | null => "Null"
  | undefined => "Undefined"

end ExprLang
