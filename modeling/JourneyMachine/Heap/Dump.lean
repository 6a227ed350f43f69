import JourneyMachine.Code.Listing
import JourneyMachine.Heap.Basic
import JourneyMachine.Numeral
import JourneyMachine.Text.Quoted

namespace JourneyMachine.Heap

def dumpField (dump : Value → Except Fault String) (m : Matter) : Except Fault String :=
  match m.guard with
  | none => .ok (" " ++ m.name)
  | some guard => do
    let shown ← dump guard
    return s!" {m.name} ({shown})"

def dumpMatter (dump : Value → Except Fault String) (values : Array Value) :
    Nat → List Matter → Except Fault (List String)
  | _, [] => .ok []
  | i, m :: rest => do
    let first ← dump (values.getD i .ni)
    let others ← dumpMatter dump values (i + 1) rest
    return s!"{m.name}={first}" :: others

/-- Shows a value. `path` holds the handles of the objects around it. Each of them is a slot of its
own, so once `room` of them are left out no further slot can be in use. -/
def dumpWithin (heap : Heap) : Nat → List Handle → Value → Except Fault String
  | room, path, v =>
    match v with
    | .ni => .ok "Ni()"
    | .veracity truth => .ok (if truth then "Veracity(yea)" else "Veracity(nay)")
    | .numeral n => .ok s!"Numeral({Numeral.arabic n})"
    | .text h =>
      if h ∈ path then .ok "..." else do return "Text(" ++ Text.quote (← heap.text h) ++ ")"
    | .journey h =>
      if h ∈ path then .ok "..."
      else do
        let j ← heap.journey h
        return s!"Journey({j.name}, {j.patterns.length} patterns)"
    | .other h =>
      if h ∈ path then .ok "..."
      else do
        match ← heap.other h with
        | .scroll s => return s!"Scroll({s.filename}, mode={s.mode})"
        | o => return s!"Other({o.describe})"
    | .form h =>
      if h ∈ path then .ok "..."
      else
        match room with
        | 0 => .error (.dangling h.slot)
        | room + 1 => do
          let f ← heap.form h
          let fields ← f.matter.mapM (dumpField (heap.dumpWithin room (h :: path)))
          return s!"Form({f.name}:" ++
            (if f.matter = [] then " <none>" else ",".intercalate fields) ++ ")"
    | .imitation h =>
      if h ∈ path then .ok "..."
      else
        match room with
        | 0 => .error (.dangling h.slot)
        | room + 1 => do
          let i ← heap.imitation h
          let f ← heap.form i.form
          let fields ← dumpMatter (heap.dumpWithin room (h :: path)) i.matter 0 f.matter
          return s!"{f.name}(" ++
            (if f.matter = [] then "<none>" else ", ".intercalate fields) ++ ")"
    | .book h =>
      if h ∈ path then .ok "..."
      else
        match room with
        | 0 => .error (.dangling h.slot)
        | room + 1 => do
          let pages ← (← heap.book h).toList.mapM (heap.dumpWithin room (h :: path))
          return "Book([" ++ ", ".intercalate pages ++ "])"
    | .codex h =>
      if h ∈ path then .ok "..."
      else
        match room with
        | 0 => .error (.dangling h.slot)
        | room + 1 => do
          let entries ← (← heap.codex h).mapM fun (k, v) => do
            let key ← heap.dumpWithin room (h :: path) k
            let value ← heap.dumpWithin room (h :: path) v
            return s!"{key}: {value}"
          return "Codex(\x7b" ++ ", ".intercalate entries ++ "\x7d)"

def dump (heap : Heap) (v : Value) : Except Fault String :=
  heap.dumpWithin heap.capacity [] v

/-- The debug form of a value, or the wording of the fault that prevents it. -/
def display (heap : Heap) (v : Value) : String :=
  match heap.dump v with
  | .ok text => text
  | .error fault => s!"<{fault.message}>"

def listPatterns (heap : Heap) : Nat → List Pattern → Except Fault String
  | _, [] => .ok ""
  | i, p :: rest => do
    let block ← p.block.listing heap.display
    let others ← heap.listPatterns (i + 1) rest
    return s!"pattern {i}: {p.signature}\n" ++ block ++ others

def listing (heap : Heap) (v : Value) : Except Fault String := do
  let j ← heap.journey (← v.expectHandle .journey)
  let patterns ← heap.listPatterns 0 j.patterns
  return s!"journey {j.name} ({j.patterns.length} patterns)\n" ++ patterns

end JourneyMachine.Heap
