import JourneyMachine.Host.System

namespace JourneyMachine.Host

structure Scene where
  system : System
  directory : List String

namespace Scene

/-- Whether the thing that a name, given in octets, stands for is as a letter asks. Everything may
be read and written; links, sockets and special rights there are none. -/
def answers (scene : Scene) (letter : Char) (name : String) : Bool :=
  let entry := scene.system.entry? scene.directory (ofOctets name)
  match letter with
  | 'd' => entry = some .directory
  | 'f' =>
    match entry with
    | some (.file _) | some (.program _) => true
    | _ => false
  | 'e' | 'r' | 'w' | 'O' | 'G' => entry.isSome
  | 'x' =>
    match entry with
    | some .directory | some (.program _) => true
    | _ => false
  | 's' =>
    match entry with
    | some (.file number) => 0 < (scene.system.files.content number).size
    | some .directory | some (.program _) => true
    | _ => false
  | 'c' => entry = some .void
  | _ => false

/-- The place of the thing that a name, given in octets, stands for. -/
def place? (scene : Scene) (name : String) : Option (List String) :=
  match scene.system.resolve scene.directory (ofOctets name) with
  | .ok (path, _) => if (scene.system.find? path).isSome then some path else none
  | .error _ => none

def same (scene : Scene) (a b : String) : Bool :=
  (scene.place? a).isSome && scene.place? a = scene.place? b

end Scene

end JourneyMachine.Host
