namespace JourneyMachine

structure Random where
  state : UInt64
deriving DecidableEq, Repr

namespace Random

/-- The multiplier of the output, and the seed in place of zero. -/
def multiplier : UInt64 := 0x2545F4914F6CDD1D

def seeded (seed : UInt64) : Random :=
  ⟨if seed = 0 then multiplier else seed⟩

/-- The three shifts that lead from one state to the next. -/
def scramble (x : UInt64) : UInt64 :=
  let x := x ^^^ (x >>> 12)
  let x := x ^^^ (x <<< 25)
  x ^^^ (x >>> 27)

def next (r : Random) : UInt64 × Random :=
  let x := scramble r.state
  (x * multiplier, ⟨x⟩)

/-- The next non-negative numeral: the upper 63 bits of the next word. -/
def nextNumeral (r : Random) : Int64 × Random :=
  let (word, r) := r.next
  ((word >>> 1).toInt64, r)

end Random

end JourneyMachine
