import YulPruner.Proofs.Execution.Call
import YulPruner.Proofs.Execution.Upkeep

namespace YulPruner

variable {limits : Limits} {call : Caller}

theorem Exec.ends_true {α : Type} (x : Exec α) (m : Machine) :
    x.Ends (fun _ _ => True) (fun _ _ => True) m := by
  rw [Ends]
  cases x m <;> trivial

section Returns

/-- No variable ever leaves a frame. -/
theorem upkeep_slots (limits : Limits) (call : Caller) (names : List Name) (items : List Item) :
    Upkeep limits call (fun _ => True) (fun _ _ => True)
      (fun frame => ∀ x ∈ names, (frame.get? x).isSome) items where
  tick _ := Exec.ends_true _ _
  stepLimit _ := trivial
  undefined _ _ := trivial
  set x v hframe := by
    intro y hy
    rw [Frame.get?_set]
    split
    · rfl
    · exact hframe y hy
  calls _ _ _ _ _ := Exec.ends_true _ _
  misfit _ _ := trivial

theorem Frame.map_get?_of_isSome {frame : Frame} {names : List Name}
    (h : ∀ x ∈ names, (frame.get? x).isSome) :
    ∃ values : List Word, names.map frame.get? = values.map some := by
  refine ⟨names.map fun x => (frame.get? x).getD 0, ?_⟩
  rw [List.map_map]
  refine List.map_congr_left fun x hx => ?_
  obtain ⟨v, hv⟩ := Option.isSome_iff_exists.mp (h x hx)
  rw [Function.comp_apply, hv, Option.getD_some]

/-- The return variables of a call are there when its body ends, whatever the body does. -/
theorem Function.returns_read {f : Function} {arguments : List Word} {m m' : Machine} {flow : Flow}
    {frame : Frame} (h : (Block.run limits call f.body).run (f.frame arguments) m =
      .ok (flow, frame) m') :
    ∃ values, f.returns.mapM frame.read = pure values ∧
      f.returns.map frame.get? = values.map some := by
  have hstart : ∀ x ∈ f.returns, ((f.frame arguments).get? x).isSome := by
    intro x hx
    rw [Function.frame, Frame.get?_setAll_zero hx]
    rfl
  have hkeeps := (upkeep_slots limits call f.returns (Block.items f.body)).block_keeps f.body
  obtain ⟨values, hvalues⟩ := Frame.map_get?_of_isSome ((hkeeps _ hstart m trivial).of_ok h).1
  exact ⟨values, Frame.mapM_read hvalues, hvalues⟩

end Returns

section Builtins

theorem Builtin.act?_ends {b : Builtin} {arguments : List Word} {act : Exec (List Word)}
    (h : b.act? arguments = some act) (m : Machine) :
    act.Ends (fun _ _ => True) (fun halt _ => halt = .reverted) m := by
  unfold Builtin.act? at h
  split at h <;> cases h
  -- Only a revert halts.
  case h_16 => exact rfl
  all_goals exact trivial

theorem callBuiltin_ends {V : List Word → Machine → Prop} {H : Halt → Machine → Prop} {c : Name}
    {arguments : List Word} {m : Machine}
    (hact : ∀ b act, Builtin.act? b arguments = some act → act.Ends V H m)
    (hunknown : H (.failed (.unknownFunction c arguments.length)) m) :
    (callBuiltin c arguments).Ends V H m := by
  rw [callBuiltin]
  cases hlookup : (Builtin.table.lookup c).bind (·.act? arguments) with
  | some act =>
      obtain ⟨b, -, hb⟩ := Option.bind_eq_some_iff.mp hlookup
      exact hact b act hb
  | none => exact Exec.Ends.fail hunknown

end Builtins

section Calls

variable {I : Machine → Prop} {H : Halt → Machine → Prop} {m : Machine}

theorem Function.apply_ends (f : Function) (arguments : List Word)
    (hbody : ((Block.run limits call f.body).run (f.frame arguments)).Ends
      (fun u m' => I m'.leave ∧ ∀ j, u.1 = some j → j ≠ .leave →
        H (.failed (.jumpOutOfFunction j f.name)) m'.leave)
      (fun halt m' => H halt m'.leave) m.down) :
    (f.apply limits call arguments).Ends
      (fun values m' => values.length = f.returns.length ∧ I m') H m := by
  have hreturns : (Exec.deeper ((Block.run limits call f.body).run (f.frame arguments))).Ends
      (fun u m' => (∃ values, f.returns.mapM u.2.read = pure values ∧
        values.length = f.returns.length) ∧ I m' ∧
        ∀ j, u.1 = some j → j ≠ .leave → H (.failed (.jumpOutOfFunction j f.name)) m') H m := by
    refine Exec.Ends.deeper (hbody.mono ?_ fun _ _ hhalt => hhalt)
    rintro ⟨flow, frame⟩ m' hrun hends
    obtain ⟨values, hread, hvalues⟩ := returns_read hrun
    exact ⟨⟨values, hread, by simpa using (congrArg List.length hvalues).symm⟩, hends⟩
  rw [Function.apply]
  refine hreturns.bind ?_
  rintro ⟨flow, frame⟩ m' - ⟨⟨values, hread, hlength⟩, hm', hjump⟩
  have hpure : (f.returns.mapM frame.read).Ends
      (fun values m' => values.length = f.returns.length ∧ I m') H m' := by
    rw [hread]
    exact Exec.Ends.pure ⟨hlength, hm'⟩
  cases flow with
  | none => exact hpure
  | some j =>
      cases j with
      | breakLoop => exact Exec.Ends.fail (hjump _ rfl (by decide))
      | continueLoop => exact Exec.Ends.fail (hjump _ rfl (by decide))
      | leave => exact hpure

variable {functions : List Function} {apply : Function → List Word → Exec (List Word)} {c : Name}
  {arguments : List Word}

theorem mem_of_definition? {f : Function} (h : definition? functions c = some f) :
    f ∈ functions := by
  rw [definition?, List.findRev?_eq_find?_reverse] at h
  exact List.mem_reverse.mp (List.mem_of_find?_eq_some h)

theorem dispatch_ends {V : List Word → Machine → Prop}
    (hbuiltin : definition? functions c = none → (callBuiltin c arguments).Ends V H m)
    (hlength : ∀ f, definition? functions c = some f → f.parameters.length ≠ arguments.length →
      H (.failed (.argumentCount f.name f.parameters.length arguments.length)) m)
    (hdepth : H (.failed .callDepth) m)
    (happly : ∀ f, definition? functions c = some f → (apply f arguments).Ends V H m) :
    (dispatch limits functions apply c arguments).Ends V H m := by
  cases hf : definition? functions c with
  | none =>
      rw [dispatch_of_none hf]
      exact hbuiltin hf
  | some f =>
      by_cases hparameters : f.parameters.length = arguments.length
      · by_cases hfull : limits.depth ≤ m.depth
        · have hfail : (Exec.fail .callDepth : Exec (List Word)).Ends V H m := Exec.Ends.fail hdepth
          exact hfail.congr (dispatch_of_full hf hparameters hfull apply)
        · exact (happly f hf).congr (dispatch_of_room hf hparameters (Nat.not_le.mp hfull) apply)
      · rw [dispatch_of_length_ne hf hparameters]
        exact Exec.Ends.fail (hlength f hf hparameters)

end Calls

def RunError.isJump : RunError → Bool
  | .jumpOutOfFunction _ _ | .jumpAtTopLevel _ => true
  | _ => false

theorem Misfit.isJump {values bound : Nat} {e : RunError} (h : Misfit values bound e) :
    e.isJump = false := by
  cases h <;> rfl

/-- What is to be known for `I` to hold wherever an execution is, and for `H` to hold where it halts. -/
structure Invariant (limits : Limits) (functions : List Function) (I : Machine → Prop)
    (H : Halt → Machine → Prop) : Prop where
  count {m : Machine} (steps : Count) (depth : Nat) : I m → I { m with steps := steps, depth := depth }
  halt_depth {halt : Halt} {m : Machine} (depth : Nat) : H halt m → H halt { m with depth := depth }
  builtin (c : Name) (arguments : List Word) {m : Machine} :
    I m → (callBuiltin c arguments).Ends (fun _ => I) H m
  fails {e : RunError} {m : Machine} : e.isJump = false → I m → H (.failed e) m
  jumps {f : Function} {call : Caller} {arguments : List Word} {m m' : Machine} {j : Jump}
    {frame : Frame} : f ∈ functions →
    (Block.run limits call f.body).run (f.frame arguments) m = .ok (some j, frame) m' →
    j ≠ .leave → I m' → H (.failed (.jumpOutOfFunction j f.name)) m'

namespace Invariant

variable {functions : List Function} {I : Machine → Prop} {H : Halt → Machine → Prop} {m : Machine}
  (h : Invariant limits functions I H)

include h

theorem upkeep (hcall : ∀ c arguments m, I m → (call c arguments).Ends (fun _ => I) H m)
    (items : List Item) : Upkeep limits call I H (fun _ => True) items where
  tick hm := Exec.Ends.tick (h.count _ _ hm) (h.fails rfl (h.count _ _ hm))
  stepLimit hm := h.fails rfl hm
  undefined _ hm := h.fails rfl hm
  set _ _ _ := trivial
  calls _ values _ m hm := hcall _ values m hm
  misfit hm hmisfit := h.fails hmisfit.isJump hm

theorem block_ends (hcall : ∀ c arguments m, I m → (call c arguments).Ends (fun _ => I) H m)
    (b : Block) (frame : Frame) (hm : I m) :
    ((Block.run limits call b).run frame).Ends (fun _ => I) H m := by
  have hblock := (h.upkeep hcall (Block.items b)).block_keeps b frame trivial m hm
  exact hblock.mono (fun _ _ _ hend => hend.2) fun _ _ hhalt => hhalt

theorem apply_ends (hcall : ∀ c arguments m, I m → (call c arguments).Ends (fun _ => I) H m)
    {f : Function} (hf : f ∈ functions) (arguments : List Word) (hm : I m) :
    (f.apply limits call arguments).Ends (fun _ => I) H m := by
  have hbody := h.block_ends hcall f.body (f.frame arguments) (h.count m.steps (m.depth + 1) hm)
  have happly : (f.apply limits call arguments).Ends
      (fun values m' => values.length = f.returns.length ∧ I m') H m := by
    refine f.apply_ends arguments (hbody.mono ?_ fun _ _ hhalt => h.halt_depth _ hhalt)
    rintro ⟨flow, frame⟩ m' hrun hm'
    refine ⟨h.count _ _ hm', ?_⟩
    rintro j rfl hj
    exact h.halt_depth _ (h.jumps hf hrun hj hm')
  exact happly.mono (fun _ _ _ hend => hend.2) fun _ _ hhalt => hhalt

/-- Every call keeps the invariant, however deep calls may be nested in it. -/
theorem invoke_ends (room : Nat) (c : Name) (arguments : List Word) (m : Machine) (hm : I m) :
    (invoke limits functions room c arguments).Ends (fun _ => I) H m := by
  -- On how deep calls may be nested: what `ih` says is what the body of the function needs.
  induction room generalizing c arguments m with
  | zero =>
      refine dispatch_ends (fun _ => h.builtin c arguments hm) (fun _ _ _ => h.fails rfl hm)
        (h.fails rfl hm) fun f _ => ?_
      exact Exec.Ends.fail (h.fails rfl hm)
  | succ room ih =>
      refine dispatch_ends (fun _ => h.builtin c arguments hm) (fun _ _ _ => h.fails rfl hm)
        (h.fails rfl hm) fun f hf => ?_
      exact h.apply_ends ih (mem_of_definition? hf) arguments hm

end Invariant

namespace Program

variable {p : Program}

def runRoot (p : Program) (limits : Limits) : Exec (Flow × Frame) :=
  (Block.run limits (invoke limits (Block.definitions p.root) limits.depth) p.root).run []

theorem run_ok_cases {e : Execution} (h : p.run limits = .ok e) :
    (∃ frame m, p.runRoot limits .start = .ok (none, frame) m ∧ e = m.execution false) ∨
      ∃ m, p.runRoot limits .start = .error .reverted m ∧ e = m.execution true := by
  rw [run] at h
  split at h
  · next hroot =>
    cases h
    exact Or.inl ⟨_, _, hroot, rfl⟩
  · cases h
  · next hroot =>
    cases h
    exact Or.inr ⟨_, hroot, rfl⟩
  · cases h

theorem run_error_cases {e : RunError} (h : p.run limits = .error e) :
    (∃ j frame m, p.runRoot limits .start = .ok (some j, frame) m ∧ e = .jumpAtTopLevel j) ∨
      ∃ m, p.runRoot limits .start = .error (.failed e) m := by
  rw [run] at h
  split at h
  · cases h
  · next hroot =>
    cases h
    exact Or.inl ⟨_, _, _, hroot, rfl⟩
  · cases h
  · next hroot =>
    cases h
    exact Or.inr ⟨_, hroot⟩

/-- The statements at the top level keep the invariant. -/
theorem runRoot_ends {I : Machine → Prop} {H : Halt → Machine → Prop}
    (h : Invariant limits (Block.definitions p.root) I H) (hstart : I .start) :
    (p.runRoot limits).Ends (fun _ => I) H .start :=
  h.block_ends (h.invoke_ends limits.depth) p.root [] hstart

end Program

end YulPruner
