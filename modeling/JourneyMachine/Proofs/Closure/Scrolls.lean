import JourneyMachine.Proofs.Closure.Attributes

namespace JourneyMachine.Run

open Host (Exchange Platform)
open Machine (Within)

variable {strict : Prop} {R : Region strict} {env : Env} {m m₀ : Machine}

theorem meets_exchange {α : Type} (request : Platform → Exchange α) :
    Meets R env (exchange request) m fun _ m' => m'.heap = m.heap :=
  .instant rfl (fun _ => rfl) (fun region =>
    ⟨R.stable region (.same (R.closed region) rfl rfl rfl rfl rfl rfl), rfl⟩) fun _ =>
      .same rfl rfl

theorem meets_openScroll (filename mode : String) :
    Meets R env (openScroll filename mode) m fun v m' => m'.heap.Refers v := by
  refine (meets_exchange _).bind fun answer m' _ _ => ?_
  split
  · exact (meets_allocate (by simp [Object.genus]) (by simp [Object.links, Other.values])).bind
      fun _ _ _ placed => .pure fun _ => (Heap.refers_other).mpr placed.holds
  · exact meets_report _ _

theorem meets_onScroll {α : Type} {v : Value} (what : String)
    {action : Scroll → Platform → Exchange (α × Scroll)} (refers : m.heap.Refers v) :
    Meets R env (onScroll v what action) m fun _ _ => True := by
  unfold onScroll
  split
  · rename_i h
    refine (meets_other fun _ => (Heap.refers_other).mp refers).bind ?_
    rintro o m' _ ⟨rfl, used⟩
    split
    · refine (meets_exchange _).bind fun answer m₁ _ same => ?_
      split
      · exact (meets_update (same ▸ used) .scroll (by simp [Object.links, Other.values])
          (fun _ _ equal => by cases equal) (fun _ _ equal => by cases equal)
          fun _ equal => by cases equal).bind fun _ _ _ _ => .pure fun _ => trivial
      · exact meets_report _ _
    · exact meets_complain_type fun _ => refers
  · exact meets_complain_type fun _ => refers

theorem meets_readScroll {v : Value} (what : String)
    {action : Scroll → Platform → Exchange (String × Scroll)} (refers : m.heap.Refers v) :
    Meets R env (do newText (← onScroll v what action)) m fun r m' => m'.heap.Refers r :=
  (meets_onScroll what refers).bind fun _ _ _ _ => meets_newText _

theorem meets_scrollRead {scroll amount : Value} (refers : m.heap.Refers scroll)
    (refersAmount : m.heap.Refers amount) :
    Meets R env (scrollRead scroll amount) m fun r m' => m'.heap.Refers r := by
  unfold scrollRead
  split
  · exact meets_readScroll _ refers
  · split
    · exact meets_readScroll _ refers
    · split
      · exact meets_complain _
      · exact meets_readScroll _ refers
  · refine (meets_text fun _ => (Heap.refers_text).mp refersAmount).bind ?_
    rintro content m' _ ⟨rfl, _⟩
    split
    · exact meets_readScroll _ refers
    · exact meets_complain _
  · exact meets_complain_type fun _ => refersAmount

section Methods

variable (calls : env.Calls strict)
include calls

theorem meets_runScrollMethod (method : ScrollMethod) {args : List Value}
    (held : ∀ v ∈ args, v ∈ m₀.held) :
    Meets (.within strict m₀) env (runScrollMethod method args) m fun r m' => m'.heap.Refers r := by
  have arg : ∀ (i : Nat) m', Within strict m₀ m' → m'.heap.Refers (args.getD i .ni) := by
    intro i m' within
    rw [List.getD_eq_getElem?_getD]
    cases found : args[i]? with
    | none => exact Heap.refers_ni
    | some v => exact within.refers (held v (List.mem_of_getElem? found))
  refine .intro fun within => ?_
  cases method with
  | write =>
    refine (meets_toText calls (arg 1 m within)).bind fun _ m' region _ => ?_
    exact (meets_onScroll _ (arg 0 m' region)).bind fun _ _ _ _ => .pure fun _ => Heap.refers_ni
  | read => exact meets_scrollRead (arg 0 m within) (arg 1 m within)
  | readAll => exact meets_readScroll _ (arg 0 m within)
  | seek =>
    refine (meets_toNumeral calls (arg 1 m within)).bind fun _ m₁ first _ => ?_
    refine (meets_toNumeral calls (arg 2 m₁ first)).bind fun _ m₂ second _ => ?_
    exact (meets_onScroll _ (arg 0 m₂ second)).bind fun _ _ _ _ =>
      .pure fun _ => Heap.refers_numeral _
  | tell =>
    exact (meets_onScroll _ (arg 0 m within)).bind fun _ _ _ _ =>
      .pure fun _ => Heap.refers_numeral _
  | close =>
    exact (meets_onScroll _ (arg 0 m within)).bind fun _ _ _ _ => .pure fun _ => Heap.refers_ni

omit calls in
theorem meets_collect : Meets R env collect m fun _ _ => True := by
  refine .intro fun region => ?_
  have closed := R.closed region
  refine .instant rfl (fun _ => rfl) (fun _ => ⟨R.stable region ?_, trivial⟩) fun _ shaped => ?_
  · exact .kept closed (Heap.collect_keeps closed.tidy closed.heap m.roots fun h member => by
      rwa [m.roots_eq]) fun h o used => .inl (Heap.get?_of_collect closed.tidy used).2
  · exact ⟨shaped.collect closed.tidy (by simp [Machine.roots]) (by simp [Machine.roots]),
      Heap.ages_collect closed.tidy m.roots⟩

omit calls in
theorem meets_runProbe (probe : Probe) {args : Arguments} (held : ∀ v ∈ args.values, v ∈ m₀.held) :
    Meets (.within strict m₀) env (runProbe probe args) m fun r m' => m'.heap.Refers r := by
  have first : ∀ m', Within strict m₀ m' → m'.heap.Refers (args.positional.head?.getD .ni) := by
    intro m' within
    cases same : args.positional with
    | nil => exact Heap.refers_ni
    | cons v rest => exact within.refers (held v (by simp [Arguments.values, same]))
  cases probe with
  | first => exact .pure fun within => first m within
  | collect => exact (meets_collect).discard.bind fun _ m' within _ => .pure fun _ => first m' within
  | handlers | frames | live => exact .get (fun _ => rfl) (.pure fun _ => Heap.refers_numeral _)
  | count => exact .pure fun _ => Heap.refers_numeral _
  | fail => exact meets_complain _

theorem meets_routine (routine : Routine) {args : Arguments}
    (held : ∀ v ∈ args.values, v ∈ m₀.held) :
    Meets (.within strict m₀) env (match routine with
      | .scroll method => runScrollMethod method args.positional
      | .probe probe => runProbe probe args) m fun r m' => m'.heap.Refers r := by
  cases routine with
  | scroll method =>
    exact meets_runScrollMethod calls _ fun v member => held v (List.mem_append_left _ member)
  | probe probe => exact meets_runProbe _ held

theorem meets_callHost {journey : HostJourney} {args : Arguments}
    (held : ∀ v ∈ args.values, v ∈ m₀.held) :
    Meets (.within strict m₀) env (callHost journey args) m fun r m' => m'.heap.Refers r := by
  unfold callHost
  dsimp only
  split
  · split
    · exact (meets_complain _).bind fun _ m' _ (_ : True) => meets_routine calls _ held
    · exact meets_routine calls _ held
  · exact meets_routine calls _ held

end Methods

end JourneyMachine.Run
