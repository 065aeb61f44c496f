import Mathlib.Algebra.Group.Int.Defs
import Mathlib.Data.List.Basic

/-!
# Byte strings

Every text of the daemon is a `std::string`, that is a sequence of bytes with
no encoding attached. Names and captured output stay byte strings throughout,
and a literal of the source is its UTF-8 encoding.
-/

namespace AgentPulse

/-- A `std::string`: any sequence of bytes. -/
abbrev Bytes := List UInt8

instance : LawfulBEq Bytes := inferInstance

/-- The bytes of a string literal of the source. -/
def text (s : String) : Bytes := s.toList.flatMap String.utf8EncodeChar

/-- `std::to_string` of an integer. -/
def intText (i : Int) : Bytes := text (toString i)

/-- `isspace` of the classic locale: blank, tab, newline, vertical tab, form
feed and carriage return. -/
def isSpace (b : UInt8) : Bool := b == 32 || (9 ≤ b && b ≤ 13)

def isDigit (b : UInt8) : Bool := 48 ≤ b && b ≤ 57

/-- The words `stream >> word` extracts one after the other. -/
def words (s : Bytes) : List Bytes := (s.splitOnP isSpace).filter (· ≠ [])

/-- The tokens `std::getline(stream, token, sep)` extracts one after the other.
Nothing is extracted after a separator that ends the text. -/
def getlines (sep : UInt8) (s : Bytes) : List Bytes :=
  let parts := s.splitOn sep
  if parts.getLast? = some [] then parts.dropLast else parts

/-- `find` followed by the two `substr` calls around the first hit. -/
def splitFirst (sep : UInt8) (s : Bytes) : Option (Bytes × Bytes) :=
  match s.dropWhile (· != sep) with
  | [] => none
  | _ :: after => some (s.takeWhile (· != sep), after)

/-- `std::stoi`: leading white space, an optional sign and the longest run of
digits; `none` is the exception for no digits or a value outside `int`. -/
def stoi (s : Bytes) : Option Int :=
  let t := s.dropWhile isSpace
  let negative := t.head? = some 45
  let unsigned := if t.head? = some 45 ∨ t.head? = some 43 then t.tail else t
  let digits := unsigned.takeWhile isDigit
  let magnitude : Int := digits.foldl (fun acc d => 10 * acc + (d.toNat - 48 : Int)) 0
  let value := if negative then -magnitude else magnitude
  if digits = [] then none
  else if -2 ^ 31 ≤ value ∧ value < 2 ^ 31 then some value else none

end AgentPulse
