import YulPruner.Proofs.Execution.Frame

namespace YulPruner

namespace Function

theorem map_get?_spread (f : Function) {names ys : List Name} (hlength : ys.length = names.length)
    (hnodup : ys.Nodup) {frame : Frame} (hzero : ∀ y ∈ ys, frame.get? y = some 0)
    {values : List Word}
    (hvalues : values.length = (names.filter (· ∈ Block.references f.body)).length) :
    ys.map (frame.setAll ((f.mentioned names ys).zip values)).get? =
      (f.spread names values).map some := by
  induction names generalizing ys frame values with
  | nil => rw [List.length_eq_zero_iff.mp hlength]; rfl
  | cons x names ih =>
      cases ys with
      | nil => cases hlength
      | cons y ys =>
          obtain ⟨hy, hys⟩ := List.nodup_cons.mp hnodup
          have hkeys (values : List Word) : y ∉ ((f.mentioned names ys).zip values).map Prod.fst :=
            Frame.not_mem_map_fst_zip (mt (fun hmem => (f.mentioned_sublist names ys).subset hmem) hy) _
          rw [mentioned_cons, spread]
          by_cases hx : x ∈ Block.references f.body
          · rw [List.filter_cons_of_pos (by simpa using hx)] at hvalues
            cases values with
            | nil => cases hvalues
            | cons v values =>
                have hzero' : ∀ z ∈ ys, (Frame.set y v frame).get? z = some 0 := by
                  intro z hz
                  rw [Frame.get?_set, if_neg (ne_of_mem_of_not_mem hz hy),
                    hzero z (List.mem_cons_of_mem _ hz)]
                have hrest := ih (Nat.succ.inj hlength) hys hzero' (Nat.succ.inj hvalues)
                rw [if_pos hx, if_pos hx, List.zip_cons_cons, Frame.setAll_cons, List.map_cons, hrest,
                  Frame.get?_setAll_of_not_mem (hkeys _), Frame.get?_set, if_pos rfl]
                rfl
          · rw [List.filter_cons_of_neg (by simpa using hx)] at hvalues
            have hrest := ih (Nat.succ.inj hlength) hys
              (fun z hz => hzero z (List.mem_cons_of_mem _ hz)) hvalues
            rw [if_neg hx, if_neg hx, List.map_cons, hrest, Frame.get?_setAll_of_not_mem (hkeys _),
              hzero y List.mem_cons_self, List.map_cons]

end Function

theorem Block.run_singleton (limits : Limits) (call : Caller) (s : Stmt) :
    Block.run limits call [s] = (Exec.tick limits : Run Unit) >>= fun _ => s.run limits call := by
  rw [Block.run]
  refine congrArg _ (funext fun _ => ?_)
  refine Eq.trans (congrArg _ (funext fun flow => ?_)) (bind_pure (s.run limits call))
  cases flow <;> rfl

theorem Run.run_evaluate_call {call : Caller} {frame : Frame} {es : List Expr} {values : List Word}
    (h : Expr.evaluateAll call frame es = pure values) (c : Name) :
    (Run.evaluate call (.call c es)).run frame =
      call c values >>= fun results => pure (results, frame) := by
  have hcall : (Expr.call c es).evaluate call frame = call c values := by
    rw [Expr.evaluate, h, pure_bind]
  rw [← hcall]
  rfl

namespace Function.IsShim

variable {f g : Function} (h : g.IsShim f) (hnodup : g.heading.Nodup) {arguments : List Word}
  (hlength : arguments.length = f.parameters.length)

include h hnodup hlength

theorem frame_parameters : g.parameters.map (g.frame arguments).get? = arguments.map some := by
  obtain ⟨hparameters, -, hdisjoint⟩ := slots_nodup_of_heading hnodup
  rw [← Frame.map_get?_setAll hparameters (hlength.trans h.parameters_length.symm) []]
  refine List.map_congr_left fun x hx => Frame.get?_setAll_of_not_mem ?_
  rw [List.map_map]
  intro hmem
  obtain ⟨y, hy, rfl⟩ := List.mem_map.mp hmem
  exact hdisjoint _ hx hy

/-- Running the body of a shim. With as many values as the function behind it returns, what is left
to do cannot fail. -/
theorem run_body (limits : Limits) (call : Caller) : ∃ finish : List Word → Exec (Flow × Frame),
    (∀ values, values.length = f.trim.returns.length → finish values = pure (none,
      (g.frame arguments).setAll ((f.mentioned f.returns g.returns).zip values))) ∧
    (Block.run limits call g.body).run (g.frame arguments) =
      Exec.tick limits >>= fun _ =>
        call f.name (f.mentioned f.parameters arguments) >>= finish := by
  have harguments : Expr.evaluateAll call (g.frame arguments)
      ((f.mentioned f.parameters g.parameters).map .var) =
        pure (f.mentioned f.parameters arguments) := by
    refine Expr.evaluateAll_map_var call ?_
    rw [← f.mentioned_map, h.frame_parameters hnodup hlength, f.mentioned_map]
  have htargets := h.mentioned_returns_length
  have hcall := Run.run_evaluate_call harguments f.name
  rw [h.body, forward, Block.run_singleton]
  by_cases hret : f.trim.returns = []
  · have hnone := (f.mentioned_returns_eq_nil h.returns_length).mpr hret
    -- Without mentioned return variables the call is an expression, which must not give a value.
    refine ⟨fun values => ((do
      unless values.isEmpty do
        Exec.fail .discardedValues
      return none : Run Flow)).run (g.frame arguments), ?_, ?_⟩
    · intro values hvalues
      rw [hret, List.length_nil, List.length_eq_zero_iff] at hvalues
      rw [hvalues, hnone]
      rfl
    · simp only [if_pos hret, Stmt.run, StateT.run_bind, hcall, StateT.run_monadLift, monadLift_self,
        bind_assoc, pure_bind]
  · refine ⟨fun values => ((do
      Run.assign (f.mentioned f.returns g.returns) values
      return none : Run Flow)).run (g.frame arguments), ?_, ?_⟩
    · intro values hvalues
      simp only [Run.assign, if_pos (htargets.trans hvalues.symm)]
      rfl
    · simp only [if_neg hret, Stmt.run, StateT.run_bind, hcall, StateT.run_monadLift, monadLift_self,
        bind_assoc, pure_bind]

end Function.IsShim

namespace Machine

def enter (m : Machine) : Machine := { m with steps := m.steps + 1, depth := m.depth + 1 }

def down (m : Machine) : Machine := { m with depth := m.depth + 1 }

def leave (m : Machine) : Machine := { m with depth := m.depth - 1 }

end Machine

namespace Limits

/-- One step more is within the limit. -/
def Allows (limits : Limits) (steps : Count) : Prop := (steps + 1).toNat ≤ limits.steps

/-- The counter can go beyond the limit. -/
def Attainable (limits : Limits) : Prop := limits.steps < 1 <<< 64 - 1

variable {limits : Limits} {steps : Count}

theorem allows_of_not_attainable (h : ¬ limits.Attainable) (steps : Count) :
    limits.Allows steps := by
  have hlt := (steps + 1).isLt
  rw [Attainable] at h
  rw [Allows]
  omega

theorem Attainable.toNat_add_one (h : limits.Attainable) (hsteps : steps.toNat ≤ limits.steps) :
    (steps + 1).toNat = steps.toNat + 1 := by
  rw [Attainable] at h
  have hone : (1 : Count).toNat = 1 := rfl
  rw [BitVec.toNat_add, hone, Nat.mod_eq_of_lt (by omega)]

end Limits

theorem Exec.tick_of_allows {limits : Limits} {m : Machine} (h : limits.Allows m.steps) :
    Exec.tick limits m = .ok () { m with steps := m.steps + 1 } := by
  rw [Exec.tick, modify_bind, get_bind, if_neg (Nat.not_lt.mpr h)]
  rfl

theorem Exec.tick_of_not_allows {limits : Limits} {m : Machine} (h : ¬ limits.Allows m.steps) :
    Exec.tick limits m = .error (.failed .stepLimit) { m with steps := m.steps + 1 } := by
  rw [Exec.tick, modify_bind, get_bind, if_pos (Nat.not_le.mp h)]
  rfl

theorem Exec.deeper_of_ok {α : Type} {x : Exec α} {m w : Machine} {a : α}
    (h : x { m with depth := m.depth + 1 } = .ok a w) : Exec.deeper x m = .ok a w.leave := by
  simp only [Exec.deeper, h]
  rfl

theorem Exec.deeper_of_error {α : Type} {x : Exec α} {m w : Machine} {e : Halt}
    (h : x { m with depth := m.depth + 1 } = .error e w) :
    Exec.deeper x m = .error e w.leave := by
  simp only [Exec.deeper, h]
  rfl

namespace Function

theorem apply_of_error {limits : Limits} {call : Caller} {f : Function} {arguments : List Word}
    {m w : Machine} {e : Halt} (h : (Block.run limits call f.body).run (f.frame arguments)
      { m with depth := m.depth + 1 } = .error e w) :
    f.apply limits call arguments m = .error e w.leave := by
  rw [apply, bind_of_error (Exec.deeper_of_error h)]

theorem apply_of_ok {limits : Limits} {call : Caller} {f : Function} {arguments values : List Word}
    {m w : Machine} {frame : Frame} (h : (Block.run limits call f.body).run (f.frame arguments)
      { m with depth := m.depth + 1 } = .ok (none, frame) w)
    (hvalues : f.returns.map frame.get? = values.map some) :
    f.apply limits call arguments m = .ok values w.leave := by
  rw [apply, bind_of_ok (Exec.deeper_of_ok h)]
  exact congrFun (Frame.mapM_read hvalues) w.leave

namespace IsShim

variable {f g : Function} (h : g.IsShim f) (hnodup : g.heading.Nodup) {arguments : List Word}
  (hlength : arguments.length = f.parameters.length) {limits : Limits} {call : Caller}
  {m w : Machine}

include h hnodup hlength

theorem apply_hitsLimit (hsteps : ¬ limits.Allows m.steps) :
    (g.apply limits call arguments).HitsLimit m := by
  obtain ⟨finish, -, hbody⟩ := h.run_body hnodup hlength limits call
  refine ⟨_, _, apply_of_error (w := { m.enter with steps := m.steps + 1 }) (e := .failed .stepLimit) ?_,
    Or.inl rfl⟩
  rw [hbody]
  exact bind_of_error (Exec.tick_of_not_allows (m := { m with depth := m.depth + 1 }) hsteps) _

variable (hsteps : limits.Allows m.steps)

include hsteps

theorem apply_of_error {e : Halt}
    (hcall : call f.name (f.mentioned f.parameters arguments) m.enter = .error e w) :
    g.apply limits call arguments m = .error e w.leave := by
  obtain ⟨finish, -, hbody⟩ := h.run_body hnodup hlength limits call
  refine Function.apply_of_error ?_
  rw [hbody, bind_of_ok (Exec.tick_of_allows (m := { m with depth := m.depth + 1 }) hsteps)]
  exact bind_of_error hcall _

theorem apply_of_ok {values : List Word}
    (hcall : call f.name (f.mentioned f.parameters arguments) m.enter = .ok values w)
    (hvalues : values.length = f.trim.returns.length) :
    g.apply limits call arguments m = .ok (f.spread f.returns values) w.leave := by
  obtain ⟨finish, hfinish, hbody⟩ := h.run_body hnodup hlength limits call
  obtain ⟨-, hreturns, -⟩ := slots_nodup_of_heading hnodup
  have hzero : ∀ y ∈ g.returns, (g.frame arguments).get? y = some 0 :=
    fun y hy => Frame.get?_setAll_zero hy _
  refine Function.apply_of_ok ?_ (f.map_get?_spread h.returns_length hreturns hzero hvalues)
  rw [hbody, bind_of_ok (Exec.tick_of_allows (m := { m with depth := m.depth + 1 }) hsteps)]
  refine (bind_of_ok hcall _).trans ?_
  rw [hfinish values hvalues]
  rfl

end IsShim

end Function

end YulPruner
