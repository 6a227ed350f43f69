import JourneyMachine.Code.Opcode

namespace JourneyMachine

namespace Image

/-- A constant of an image. Texts and books become objects when the image is loaded. -/
inductive Constant where
  | ni
  | veracity (truth : Bool)
  | numeral (n : Int64)
  | text (content : String)
  | journey (index : UInt32)
  | form (index : UInt32)
  | exception
  | ioError
  | book (pages : List Constant)
deriving BEq, Repr, Inhabited

/-- A declared parameter with the entry points of its default and its guard. -/
structure Parameter where
  name : String
  fallback : Option UInt32 := none
  guard : Option UInt32 := none
deriving BEq, Repr, Inhabited

structure Codeblock where
  registers : UInt32 := 0
  constants : List Constant := []
  code : List Word := []
deriving BEq, Repr, Inhabited

structure Pattern where
  positional : List Parameter := []
  keywords : List Parameter := []
  splat : Bool := false
  splatsplat : Bool := false
  condition : Option UInt32 := none
  start : UInt32 := 0
  block : Codeblock := {}
deriving BEq, Repr, Inhabited

structure Journey where
  name : String
  patterns : List Pattern := []
deriving BEq, Repr, Inhabited

structure Essence where
  name : String
  value : Constant
  guard : Option Constant := none
deriving BEq, Repr, Inhabited

structure Matter where
  name : String
  guard : Option Constant := none
deriving BEq, Repr, Inhabited

structure Form where
  name : String
  essences : List Essence := []
  matter : List Matter := []
  recollections : List UInt32 := []
  changes : List UInt32 := []
  imitate : Option UInt32 := none
  parents : List UInt32 := []
deriving BEq, Repr, Inhabited

structure Global where
  name : String
  value : Constant
deriving BEq, Repr, Inhabited

end Image

structure Image where
  forms : List Image.Form := []
  journeys : List Image.Journey := []
  globals : List Image.Global := []
  main : Option UInt32 := none
  argvGlobal : Option UInt32 := none
deriving BEq, Repr, Inhabited

end JourneyMachine
