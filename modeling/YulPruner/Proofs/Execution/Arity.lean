import YulPruner.Proofs.Execution.Blame
import YulPruner.Proofs.Execution.Tables

namespace YulPruner

variable {limits : Limits} {call : Caller}

section Lengths

theorem Function.length_of_apply {f : Function} {arguments values : List Word} {m m' : Machine}
    (h : f.apply limits call arguments m = .ok values m') : values.length = f.returns.length := by
  have hbody := Exec.ends_true ((Block.run limits call f.body).run (f.frame arguments)) m.down
  have happly : (f.apply limits call arguments).Ends
      (fun values _ => values.length = f.returns.length ∧ True) (fun _ _ => True) m :=
    f.apply_ends arguments (hbody.mono (fun _ _ _ _ => ⟨trivial, fun _ _ _ => trivial⟩)
      fun _ _ _ => trivial)
  exact (happly.of_ok h).1

theorem dispatch_of_ok {functions : List Function} {apply : Function → List Word → Exec (List Word)}
    {c : Name} {f : Function} {arguments values : List Word} {m m' : Machine}
    (hf : definition? functions c = some f)
    (h : dispatch limits functions apply c arguments m = .ok values m') :
    apply f arguments m = .ok values m' := by
  by_cases hlength : f.parameters.length = arguments.length
  · by_cases hfull : limits.depth ≤ m.depth
    · rw [dispatch_of_full hf hlength hfull] at h
      cases h
    · rwa [dispatch_of_room hf hlength (Nat.not_le.mp hfull)] at h
  · rw [dispatch_of_length_ne hf hlength] at h
    cases h

theorem length_of_invoke {functions : List Function} {c : Name} {f : Function}
    {arguments values : List Word} {m m' : Machine} {room : Nat}
    (hf : definition? functions c = some f)
    (h : invoke limits functions room c arguments m = .ok values m') :
    values.length = f.returns.length := by
  cases room with
  | zero => cases dispatch_of_ok hf h
  | succ room => exact Function.length_of_apply (dispatch_of_ok hf h)

end Lengths

def Place.CallsFunction (p : Program) (place : Place) : Prop :=
  ∃ c arguments, place.value = .call c arguments ∧ p.defines c = true

def Halt.IsArgumentCount (halt : Halt) : Prop :=
  ∃ c expected passed, halt = .failed (.argumentCount c expected passed)

theorem Misfit.not_isArgumentCount {values bound : Nat} {e : RunError} (h : Misfit values bound e) :
    ¬ Halt.IsArgumentCount (.failed e) := by
  rintro ⟨c, expected, passed, he⟩
  cases h with
  | bind | single | discard => cases he

theorem callBuiltin_not_isArgumentCount (c : Name) (arguments : List Word) (m : Machine) :
    (callBuiltin c arguments).Ends (fun _ _ => True) (fun halt _ => ¬ halt.IsArgumentCount) m := by
  refine callBuiltin_ends (fun b act hact => ?_) nofun
  refine (Builtin.act?_ends hact m).mono (fun _ _ _ _ => trivial) fun halt m' hhalt => ?_
  rw [hhalt]
  exact nofun

namespace Program

/-- The run of the program fails with the error, and this is the machine in which it does. -/
def FailsIn (p : Program) (limits : Limits) (e : RunError) (m : Machine) : Prop :=
  (Block.run limits (invoke limits (Block.definitions p.root) limits.depth) p.root).run [] .start =
    .error (.failed e) m

/-- The error comes from a place that holds no call of a function of the program: in the course of the
run, what stands there was evaluated, up to the machine in which the run failed, and gave another number
of values than the place takes. -/
def Blames (p : Program) (limits : Limits) (e : RunError) (m : Machine) : Prop :=
  ∃ place ∈ p.places, ¬ place.CallsFunction p ∧ ∃ frame m₀ ms values depth,
    ((Job.block p.root []).plan limits (Block.definitions p.root)).Reaches limits
      (Block.definitions p.root) (.evaluate place.value frame) m₀ .start ∧
    (Job.evaluate place.value frame).Goes limits (Block.definitions p.root) m₀ ms
      (.ok values { m with depth := depth }) ∧
    Misfit values.length place.bound e

variable {p : Program}

theorem run_eq_error {e : RunError} (he : p.run limits = .error e) :
    (∃ j, e = .jumpAtTopLevel j) ∨ ∃ m, p.FailsIn limits e m := by
  rcases run_error_cases he with ⟨j, -, -, -, hj⟩ | hfails
  · exact Or.inl ⟨j, hj⟩
  · exact Or.inr hfails

theorem upkeep_arguments {room : Nat} (hcalls : ∀ {c arguments bound},
      ⟨.call c arguments, bound⟩ ∈ p.places → ∀ values : List Word,
      values.length = arguments.length → ∀ m,
      (invoke limits (Block.definitions p.root) room c values).Ends (fun _ _ => True)
        (fun halt _ => ¬ halt.IsArgumentCount) m) :
    Upkeep limits (invoke limits (Block.definitions p.root) room) (fun _ => True)
      (fun halt _ => ¬ halt.IsArgumentCount) (fun _ => True) (Block.items p.root) where
  tick _ := Exec.Ends.tick trivial nofun
  stepLimit _ := nofun
  undefined _ _ := nofun
  set _ _ _ := trivial
  calls hplace values hlength m _ := hcalls hplace values hlength m
  misfit _ hmisfit := hmisfit.not_isArgumentCount

section Verified

variable (h : p.verify = .ok ())

include h

theorem bound_eq_of_callsFunction {place : Place} (hplace : place ∈ p.places)
    (hcalls : place.CallsFunction p) : ∃ c arguments f, place.value = .call c arguments ∧
      definition? (Block.definitions p.root) c = some f ∧ f.returns.length = place.bound := by
  obtain ⟨hhoisting, harity⟩ := verify_eq_ok.mp h
  obtain ⟨_, bound⟩ := place
  obtain ⟨c, arguments, rfl, hdefines⟩ := hcalls
  obtain ⟨f, hf⟩ := Option.isSome_iff_exists.mp hdefines
  have hsite := mem_callSites_of_mem_places hplace
  exact ⟨c, arguments, f, rfl, (definition?_eq_function? hhoisting c).trans hf,
    (lengths_of_verifyArity harity hsite hf).2⟩

theorem length_eq_bound {place : Place} (hplace : place ∈ p.places)
    (hcalls : place.CallsFunction p) {room : Nat} {frame : Frame} {m m' : Machine}
    {values : List Word}
    (hvalue : place.value.evaluate (invoke limits (Block.definitions p.root) room) frame m =
      .ok values m') : values.length = place.bound := by
  obtain ⟨c, arguments, f, hcall, hfound, hbound⟩ := bound_eq_of_callsFunction h hplace hcalls
  rw [hcall, Expr.evaluate] at hvalue
  obtain ⟨vs, m₁, -, hinvoke⟩ := bind_eq_ok.mp hvalue
  exact (length_of_invoke hfound hinvoke).trans hbound

theorem length_eq_bound_of_goes {place : Place} (hplace : place ∈ p.places)
    (hcalls : place.CallsFunction p) {frame : Frame} {m m' : Machine} {ms : List Machine}
    {values : List Word}
    (hvalue : (Job.evaluate place.value frame).Goes limits (Block.definitions p.root) m ms
      (.ok values m')) : values.length = place.bound := by
  obtain ⟨c, arguments, f, hcall, hfound, hbound⟩ := bound_eq_of_callsFunction h hplace hcalls
  obtain ⟨value, bound⟩ := place
  obtain rfl : value = .call c arguments := hcall
  exact (Job.length_of_call hfound hvalue).trans hbound

theorem call_ends {apply : Function → List Word → Exec (List Word)} {c : Name}
    {arguments : List Expr} {bound : Nat} {values : List Word}
    (hplace : ⟨.call c arguments, bound⟩ ∈ p.places) (hlength : values.length = arguments.length)
    (happly : ∀ f ∈ p.functions, ∀ m, (apply f values).Ends (fun _ _ => True)
      (fun halt _ => ¬ halt.IsArgumentCount) m) (m : Machine) :
    (dispatch limits (Block.definitions p.root) apply c values).Ends (fun _ _ => True)
      (fun halt _ => ¬ halt.IsArgumentCount) m := by
  obtain ⟨hhoisting, harity⟩ := verify_eq_ok.mp h
  have hfound := definition?_eq_function? hhoisting c
  refine dispatch_ends (fun _ => callBuiltin_not_isArgumentCount c values m)
    (fun f hf hparameters => ?_) nofun fun f hf => ?_
  · have hsite := mem_callSites_of_mem_places hplace
    exact absurd ((lengths_of_verifyArity harity hsite (hfound.symm.trans hf)).1.trans hlength.symm)
      hparameters
  · exact happly f (mem_functions_of_function? (hfound.symm.trans hf)) m

theorem invoke_ends (room : Nat) {c : Name} {arguments : List Expr} {bound : Nat}
    (hplace : ⟨.call c arguments, bound⟩ ∈ p.places) (values : List Word)
    (hlength : values.length = arguments.length) (m : Machine) :
    (invoke limits (Block.definitions p.root) room c values).Ends (fun _ _ => True)
      (fun halt _ => ¬ halt.IsArgumentCount) m := by
  -- On how deep calls may be nested: what `ih` says of the calls in a body is what its upkeep needs.
  induction room generalizing c arguments bound values m with
  | zero => exact call_ends h hplace hlength (fun f _ m => Exec.Ends.fail nofun) m
  | succ room ih =>
      refine call_ends h hplace hlength (fun f hf m => ?_) m
      have hbody := (upkeep_arguments ih).mono (Block.items_body_subset (mem_functions.mp hf))
      have happly : (f.apply limits (invoke limits (Block.definitions p.root) room) values).Ends
          (fun results _ => results.length = f.returns.length ∧ True)
          (fun halt _ => ¬ halt.IsArgumentCount) m := by
        refine f.apply_ends values ((hbody.block_keeps f.body _ trivial m.down trivial).mono ?_ ?_)
        · exact fun _ _ _ _ => ⟨trivial, fun j _ _ => nofun⟩
        · exact fun _ _ hfits => hfits
      exact happly.forget

theorem root_ends (limits : Limits) :
    ((Block.run limits (invoke limits (Block.definitions p.root) limits.depth) p.root).run []).Ends
      (fun _ _ => True) (fun halt _ => ¬ halt.IsArgumentCount) .start := by
  have hupkeep : Upkeep limits _ _ _ _ _ := upkeep_arguments (invoke_ends h limits.depth)
  exact (hupkeep.block_keeps p.root [] trivial .start trivial).forget

theorem holdsBodies : p.HoldsBodies := by
  intro c f hf
  rw [definition?_eq_function? (verify_eq_ok.mp h).1] at hf
  exact Block.items_body_subset (mem_functions.mp (mem_functions_of_function? hf))

theorem blames_of_failsIn {e : RunError} (he : e.isMisfit = true) {m : Machine}
    (hfails : p.FailsIn limits e m) : p.Blames limits e m := by
  rcases (Job.block p.root []).run_follows limits (Block.definitions p.root) .start
    (fun _ => Nat.zero_le _) with ⟨ms, hgoes, -⟩ | ⟨-, w, hlost⟩
  · have hroot : (Job.block p.root []).Within p := fun _ hi => hi
    have htidy : ((Job.block p.root []).plan limits (Block.definitions p.root)).Tidy p
        fun _ => False := Job.plan_tidy (holdsBodies h) limits hroot
    rw [show (Job.block p.root []).run limits (Block.definitions p.root) .start = _ from hfails]
      at hgoes
    rcases htidy.blames (holdsBodies h) he hgoes.of_ask with ⟨hfalse, -⟩ | hblames
    · exact hfalse.elim
    · obtain ⟨place, hplace, frame, m₀, ms₀, values, depth, hreaches, hvalue, hmisfit⟩ := hblames
      refine ⟨place, hplace, ?_, frame, m₀, ms₀, values, depth, hreaches, hvalue, hmisfit⟩
      exact fun hcalls => hmisfit.ne (length_eq_bound_of_goes h hplace hcalls hvalue)
  · cases hfails.symm.trans hlost
    cases he

/-- Calls of functions of the program do not go wrong if the program is verified. The interpreter
and the index find the same functions. No run fails for the number of arguments of a call; a
completed call gives as many values as its place takes; and a run that fails for a number of values
has just evaluated something else than such a call. The return variables can be read when a call
ends. -/
theorem calls_fit_of_verify (limits : Limits) :
    (∀ c, definition? (Block.definitions p.root) c = IndexEntry.function <$> p.entry? c) ∧
      (∀ c expected passed, p.run limits ≠ .error (.argumentCount c expected passed)) ∧
      (∀ place ∈ p.places, place.CallsFunction p → ∀ room frame m values m',
        place.value.evaluate (invoke limits (Block.definitions p.root) room) frame m =
          .ok values m' → values.length = place.bound) ∧
      (∀ e, p.run limits = .error e → e.isMisfit = true →
        ∃ m, p.FailsIn limits e m ∧ p.Blames limits e m) ∧
      ∀ (call : Caller) (f : Function) arguments m flow frame m',
        (Block.run limits call f.body).run (f.frame arguments) m = .ok (flow, frame) m' →
          ∃ values, f.returns.mapM frame.read = pure values := by
  refine ⟨fun c => ?_, fun c expected passed hrun => ?_,
    fun place hplace hcalls room frame m values m' => length_eq_bound h hplace hcalls,
    fun e hrun hmisfit => ?_, fun call f arguments m flow frame m' hbody => ?_⟩
  · rw [definition?_eq_function? (verify_eq_ok.mp h).1, map_function_entry]
  · rcases run_eq_error hrun with ⟨j, hj⟩ | ⟨m, hfails⟩
    · cases hj
    · exact (root_ends h limits).of_error hfails ⟨c, expected, passed, rfl⟩
  · rcases run_eq_error hrun with ⟨j, rfl⟩ | ⟨m, hfails⟩
    · cases hmisfit
    · exact ⟨m, hfails, blames_of_failsIn h hmisfit hfails⟩
  · obtain ⟨values, hread, -⟩ := Function.returns_read hbody
    exact ⟨values, hread⟩

end Verified

/-- A call with two results for two variables, and a builtin with one result for two variables. -/
def pairs : Program where
  root := [.function ⟨"f", ["a"], ["r", "s"], [.assignment ["r"] (.var "a")]⟩,
    .declaration ["x", "y"] (some (.call "f" [.literal (.number 1)])),
    .declaration ["u", "v"] (some (.call "add" [.var "x", .var "y"]))]

theorem calls_fit_pairs : pairs.verify = .ok () ∧ pairs.run {} = .error (.bindCount 1 2) ∧
    definition? (Block.definitions pairs.root) "f" = IndexEntry.function <$> pairs.entry? "f" ∧
    ∃ m, pairs.FailsIn {} (.bindCount 1 2) m ∧ pairs.Blames {} (.bindCount 1 2) m := by
  have hp : pairs.verify = .ok () := rfl
  have hrun : pairs.run {} = .error (.bindCount 1 2) := by rfl
  obtain ⟨hfound, -, -, hblames, -⟩ := calls_fit_of_verify hp {}
  exact ⟨hp, hrun, hfound "f", hblames _ hrun rfl⟩

end Program

end YulPruner
