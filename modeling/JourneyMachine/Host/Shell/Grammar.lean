namespace JourneyMachine.Host.Shell

inductive Operator where
  | value
  /-- The word stands in for a missing value. -/
  | instead
  /-- The word stands in for a value that is there. -/
  | provided
  /-- A missing value is an error, which the word describes. -/
  | demanded
  /-- The word becomes the value if there is none. -/
  | assigned
  | trimEnd (longest : Bool)
  | trimStart (longest : Bool)
  | length
  /-- No expansion has this form. -/
  | malformed
deriving DecidableEq, Repr, Inhabited

inductive Direction where
  | input
  | output
  /-- Output that replaces a file even where files are protected. -/
  | overwrite
  | append
  | both
  | copyInput
  | copyOutput
  /-- The target is the text of a document, found under its number. -/
  | document (number : Nat) (expands : Bool)
deriving DecidableEq, Repr, Inhabited

mutual

inductive Mark where
  | char (c : Char)
  /-- A character that stands for itself because a backslash or quotes say so. -/
  | escaped (c : Char)
  | quote
  /-- An expansion opens; an empty value counts as missing if `empty` says so. -/
  | parameter (operator : Operator) (empty : Bool) (name : String)
  | parameterEnd
  | command (body : Option Command)
  | arithmetic
  | arithmeticEnd

/-- A command. Lines are where messages place it. -/
inductive Command where
  | simple (line : Nat) (assignments words : List (List Mark)) (redirections : List Redirection)
  | pipeline (stages : List Command)
  | background (line : Nat) (command : Command)
  | negation (command : Command)
  | both (first second : Command)
  | either (first second : Command)
  | sequence (first second : Command)
  | redirected (line : Nat) (command : Command) (redirections : List Redirection)
  | subshell (line : Nat) (command : Command) (redirections : List Redirection)
  | choice (condition : Command) (positive : Command) (negative : Option Command)
  | loop (sense : Bool) (condition body : Command)
  | each (line : Nat) (name : String) (words : List (List Mark)) (body : Command)
  | select (line : Nat) (word : List Mark) (cases : List (List (List Mark) × Option Command))
  | define (line : Nat) (name : String) (body : Command)
  /-- Does nothing and keeps the status. -/
  | nothing

inductive Redirection where
  | mk (number : Nat) (direction : Direction) (target : List Mark)

end

instance : Inhabited Mark := ⟨.quote⟩
instance : Inhabited Command := ⟨.nothing⟩

abbrev Word := List Mark

def plainText? : Word → Option (List Char)
  | [] => some []
  | .char c :: rest => (plainText? rest).map (c :: ·)
  | _ :: _ => none

def isNameStart (c : Char) : Bool := c.isAlpha || c = '_'

def isNameChar (c : Char) : Bool := c.isAlphanum || c = '_'

def isName (cs : List Char) : Bool :=
  cs.head?.any isNameStart && cs.all isNameChar

/-- The name at the front of a word that goes on with an equals sign. -/
def assignmentName? (word : Word) : Option String :=
  let rec go : List Char → Word → Option String
    | name, .char c :: rest =>
      if c = '=' then if isName name.reverse then some (String.ofList name.reverse) else none
      else if isNameChar c then go (c :: name) rest
      else none
    | _, _ => none
  go [] word

end JourneyMachine.Host.Shell
