import JourneyMachine.Fault
import JourneyMachine.Numeral

namespace JourneyMachine

/-- An operator on two values that imitations may define by a change of the operator's name. -/
inductive BinaryOperator where
  | compare
  | add
  | subtract
  | multiply
  | divide
  | modulo
  | exponentiate
deriving DecidableEq, Repr

namespace BinaryOperator

def change : BinaryOperator → String
  | compare => "<=>"
  | add => "+"
  | subtract => "-"
  | multiply => "*"
  | divide => "/"
  | modulo => "%"
  | exponentiate => "^"

/-- The verb of the operator and the word between its operands. -/
def wording : BinaryOperator → String × String
  | compare => ("compare", "with")
  | add => ("add", "to")
  | subtract => ("subtract", "from")
  | multiply => ("multiply", "by")
  | divide => ("divide", "by")
  | modulo => ("modulo", "by")
  | exponentiate => ("exponentiate", "by")

end BinaryOperator

/-- What went wrong. Names are those of genera or forms unless another noun is given. -/
inductive Complaint where
  | cannotCall (name : String)
  | tooManyFrames
  | noPatternMatches (journey : String)
  | argumentCount (journey : String) (expected given : Nat)
  | takesNoKeywords (form : String)
  | fieldCount (form : String) (expected given : Nat)
  | argumentGenus (field form : String)
  | fieldGenus (found field owner : String)
  | cannotMatch (name : String)
  | unknownAttribute (field name : String)
  | cannotAssign (field name : String)
  | tooManyHandlers
  | conversion (change owner : String) (expected : Genus)
  | cannotConvert (name target : String)
  | noLength (name : String)
  | binary (operator : BinaryOperator) (lhs rhs : String)
  | cannotNegate (name : String)
  | textRepetition (amount : Int64)
  | bookRepetition (amount : Int64)
  | divisionByZero
  | moduloByZero
  | zeroIndex
  | indexRange (index : Int64)
  | cannotIndex (name : String)
  | cannotIndexAssign (name : String)
  | bookGrowth (pages : Nat)
  | tooManyPairs (count : Nat)
  | asciiOnly (name : String)
  | insertOnly
  | deleteOnly
  | notScroll (name : String)
  | negativeRead
  | readArgument (name : String)
  | hostFailure
  | custom (message : String)
deriving DecidableEq, Repr

namespace Complaint

def message : Complaint → String
  | cannotCall name => s!"cannot call '{name}'"
  | tooManyFrames => "too many stackframes"
  | noPatternMatches journey => s!"no patterns match for '{journey}'"
  | argumentCount journey expected given =>
    s!"wrong number of arguments for '{journey}': expected {expected}, got {given}"
  | takesNoKeywords form => s!"'{form}' takes no keyword arguments"
  | fieldCount form expected given =>
    s!"argument mismatch for '{form}': expected {expected} arguments, got {given}"
  | argumentGenus field form => s!"argument '{field}' for '{form}' does not match its genus"
  | fieldGenus found field owner =>
    s!"cannot assign a '{found}' to '{field}' of '{owner}': genus mismatch"
  | cannotMatch name => s!"cannot `match` on {name}"
  | unknownAttribute field name => s!"unknown attribute '{field}' for genus '{name}'"
  | cannotAssign field name =>
    s!"cannot assign attribute '{field}' for a type of genus '{name}'"
  | tooManyHandlers => "too many exception handlers"
  | conversion change owner expected =>
    s!"{change} for an imitation of '{owner}' didn't return a {expected.name.toLower}"
  | cannotConvert name target => s!"cannot convert {name} to a {target}"
  | noLength name => s!"cannot get length of {name}"
  | binary operator lhs rhs =>
    s!"cannot {operator.wording.1} '{lhs}' {operator.wording.2} '{rhs}'"
  | cannotNegate name => s!"cannot numerically negate '{name}'"
  | textRepetition amount =>
    s!"text multiplication by {Numeral.arabic amount} is out of range"
  | bookRepetition amount => s!"cannot repeat by {Numeral.arabic amount}"
  | divisionByZero => "cannot divide by N"
  | moduloByZero => "cannot modulo by N"
  | zeroIndex => "cannot index by N."
  | indexRange index => s!"index '{Numeral.arabic index}' out of bounds"
  | cannotIndex name => s!"cannot index into '{name}'"
  | cannotIndexAssign name => s!"cannot index assign into '{name}'"
  | bookGrowth pages => s!"cannot grow a book to {pages} pages"
  | tooManyPairs count => s!"cannot build a book of {count} pairs"
  | asciiOnly name => s!"can only ascii numerals and text, not '{name}'"
  | insertOnly => "can only insert into books"
  | deleteOnly => "can only delete from books and codices"
  | notScroll name => s!"'{name}' is not a scroll"
  | negativeRead => "can only read nonnegative amounts"
  | readArgument name => s!"invalid read argument kind '{name}'"
  | hostFailure => "host failure"
  | custom message => message

end Complaint

end JourneyMachine
