/-!
# Log records

What the library reports about its work while it works: a level and a line of text.
-/

namespace TopDown

/-- How important a record is. -/
inductive LogLevel where
  | trace
  | debug
  | info
  | warn
  | error
  deriving DecidableEq, Repr

/-- A line about the work of the library. -/
structure LogRecord where
  level : LogLevel
  message : String
  deriving DecidableEq, Repr

end TopDown
