import JourneyMachine.Value

namespace JourneyMachine

/-- A way in which an instruction stream or an image refers to something that does not exist. -/
inductive Defect where
  | streamEnds (ip : Nat)
  | constantRange (index : Nat)
  | registerRange (index : Nat)
  | jumpPastEnd (target : Nat)
  | noFrame
  | globalRange (index : Nat)
  | fieldRange (index : Nat)
  | journeyRange (index : Nat)
  | formRange (index : Nat)
  | noHandler
  | labelUnbound (label : Nat)
  | programNotEmpty
deriving DecidableEq, Repr

namespace Defect

def message : Defect → String
  | streamEnds ip => s!"instruction stream ends at {ip}"
  | constantRange index => s!"constant {index} out of range"
  | registerRange index => s!"register {index} out of range"
  | jumpPastEnd target => s!"jump to {target} past end of code"
  | noFrame => "no frame at depth 0"
  | globalRange index => s!"global {index} out of range"
  | fieldRange index => s!"field {index} out of range"
  | journeyRange index => s!"journey {index} out of range"
  | formRange index => s!"form {index} out of range"
  | noHandler => "no exception handler to pop"
  | labelUnbound label => s!"label {label} never bound"
  | programNotEmpty => "images load into an empty program"

end Defect

inductive ImageError where
  | unexpectedEnd
  | badVarint
  | badBool
  | badOption
  | badText
  | badVariant
deriving DecidableEq, Repr

namespace ImageError

def message : ImageError → String
  | unexpectedEnd => "Hit the end of buffer, expected more data"
  | badVarint => "Found a varint that didn't terminate. Is the usize too big for this platform?"
  | badBool => "Found a bool that wasn't 0 or 1"
  | badOption => "Found an Option discriminant that wasn't 0 or 1"
  | badText => "Tried to parse invalid utf-8"
  | badVariant => "Serde Deserialization Error"

end ImageError

inductive Trouble where
  | noSuchFile
  | argumentTooLong
  | badDescriptor
  | permissionDenied
  | fileExists
  | notDirectory
  | isDirectory
  | invalidArgument
  | nameTooLong
  | nulInName
  | nulInArgument
  | unknownMode (mode : String)
  | seekBeforeStart
  | unknownOrigin (whence : Int64)
  | closed (name : String)
  | alreadyClosed (name : String)
  | notUtf8
  | brokenOutput
  /-- Anything else that a platform reports, in its own words. -/
  | other (reason : String)
deriving DecidableEq, Repr

namespace Trouble

def reason : Trouble → String
  | noSuchFile => "No such file or directory"
  | argumentTooLong => "Argument list too long"
  | badDescriptor => "Bad file descriptor"
  | permissionDenied => "Permission denied"
  | fileExists => "File exists"
  | notDirectory => "Not a directory"
  | isDirectory => "Is a directory"
  | invalidArgument => "Invalid argument"
  | nameTooLong => "File name too long"
  | nulInName => "file name contained an unexpected NUL byte"
  | nulInArgument => "nul byte found in provided data"
  | unknownMode mode => s!"unknown file mode '{mode}'"
  | seekBeforeStart => "cannot seek before the start"
  | unknownOrigin whence => s!"unknown seek origin {whence.toInt}"
  | closed name => s!"scroll '{name}' is closed"
  | alreadyClosed name => s!"scroll '{name}' is already closed"
  | notUtf8 => "stream did not contain valid UTF-8"
  | brokenOutput => "broken output"
  | other reason => reason

/-- The number the system gives a trouble, if the system reports it. -/
def number? : Trouble → Option Nat
  | noSuchFile => some 2
  | argumentTooLong => some 7
  | badDescriptor => some 9
  | permissionDenied => some 13
  | fileExists => some 17
  | notDirectory => some 20
  | isDirectory => some 21
  | invalidArgument => some 22
  | nameTooLong => some 36
  | _ => none

/-- The wording of a trouble: its reason, and its number where it has one. -/
def message (trouble : Trouble) : String :=
  match trouble.number? with
  | some number => s!"{trouble.reason} (os error {number})"
  | none => trouble.reason

end Trouble

/-- What ends a run for good. -/
inductive Fault where
  | unknownOpcode (word : UInt32) (ip : Nat)
  | unknownInterrupt (word : UInt32) (ip : Nat)
  | malformed (defect : Defect)
  | wrongGenus (expected found : Genus)
  | dangling (slot : Nat)
  | heapTooSmall (slots : Nat)
  | missingEntry
  | uncaught (dump : String)
  | exit (code : Int32)
  | image (error : ImageError)
  | host (trouble : Trouble)
  | tooDeep
  /-- A codex lost the entry that a search of it had found. -/
  | staleEntry (position : Nat)
deriving DecidableEq, Repr

namespace Fault

def hexadecimal (word : UInt32) : String :=
  "0x" ++ String.ofList (Nat.toDigits 16 word.toNat)

def message : Fault → String
  | unknownOpcode word ip => s!"unknown opcode {hexadecimal word} at instruction {ip}"
  | unknownInterrupt word ip => s!"unknown interrupt {hexadecimal word} at instruction {ip}"
  | malformed defect => s!"malformed codeblock: {defect.message}"
  | wrongGenus expected found => s!"expected a {expected.name} but found a {found.name}"
  | dangling slot => s!"dangling heap reference #{slot}"
  | heapTooSmall slots => s!"heap of {slots} slots is too small to start the runtime"
  | missingEntry => "program has no entry journey"
  | uncaught dump => s!"uncaught exception encountered: {dump}"
  | exit code => s!"program exited with status {code.toInt}"
  | image error => s!"invalid program image: {error.message}"
  | host trouble => s!"io error: {trouble.message}"
  | tooDeep => "evaluation nested too deeply"
  | staleEntry position => s!"no entry at position {position} any more"

/-- The exit code a fault asks for: its own for an exit, 1 for everything else. -/
def exitCode : Fault → Int32
  | exit code => code
  | _ => 1

/-- The process status of a fault: the low byte of the exit code, where a code other than zero
never becomes zero. -/
def exitStatus (fault : Fault) : UInt8 :=
  if fault.exitCode = 0 then 0
  else if fault.exitCode.toInt8.toUInt8 = 0 then 1
  else fault.exitCode.toInt8.toUInt8

end Fault

namespace Value

def expectNumeral : Value → Except Fault Int64
  | numeral n => .ok n
  | v => .error (.wrongGenus .numeral v.genus)

def expectHandle (genus : Genus) (v : Value) : Except Fault Handle :=
  match v.handle? with
  | some h => if v.genus = genus then .ok h else .error (.wrongGenus genus v.genus)
  | none => .error (.wrongGenus genus v.genus)

end Value

end JourneyMachine
