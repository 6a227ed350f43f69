namespace JourneyMachine.Host

inductive Entry where
  | directory
  | file (number : Nat)
  /-- A device that is always at its end and takes everything. -/
  | void
  /-- A device that stands for a descriptor of the process that opens it. -/
  | descriptor (number : Nat)
  | program (name : String)
deriving DecidableEq, Repr, Inhabited

namespace Entry

def workplace : List String := ["tmp", "journey"]

def programs : List String :=
  ["sh", "dash", "cat", "echo", "printf", "true", "false", "test", "["]

def programDirectories : List (List String) := [["bin"], ["usr", "bin"]]

def directories : List (List String) :=
  [[], ["bin"], ["dev"], ["dev", "fd"], ["dev", "shm"], ["etc"], ["home"], ["lib"], ["opt"],
   ["proc"], ["root"], ["run"], ["sbin"], ["srv"], ["sys"], ["tmp"], workplace, ["usr"],
   ["usr", "bin"], ["usr", "lib"], ["usr", "local"], ["usr", "sbin"], ["usr", "share"], ["var"],
   ["var", "tmp"]]

def fixed? (path : List String) : Option Entry :=
  if path ∈ directories then some .directory
  else
    match path with
    | ["dev", "null"] => some .void
    | ["dev", "stdin"] => some (.descriptor 0)
    | ["dev", "stdout"] => some (.descriptor 1)
    | ["dev", "stderr"] => some (.descriptor 2)
    | ["dev", "fd", number] => number.toNat?.map .descriptor
    | _ =>
      match path.getLast? with
      | some name =>
        if path.dropLast ∈ programDirectories ∧ name ∈ programs then some (.program name) else none
      | none => none

end Entry

def after? : List String → List String → Option (List String)
  | [], rest => some rest
  | _ :: _, [] => none
  | a :: as, b :: bs => if a = b then after? as bs else none

end JourneyMachine.Host
