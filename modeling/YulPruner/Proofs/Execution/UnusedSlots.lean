import YulPruner.Proofs.Analysis.Usage
import YulPruner.Proofs.Execution.Arity
import YulPruner.Proofs.Execution.Following

namespace YulPruner

open Filter (Eventually)

def Function.call (limits : Limits) (functions : List Function) (f : Function)
    (arguments : List Word) : Exec (List Word) := do
  unless f.parameters.length = arguments.length do
    Exec.fail (.argumentCount f.name f.parameters.length arguments.length)
  if limits.depth ≤ (← get).depth then
    Exec.fail .callDepth
  f.apply limits (invoke limits functions limits.depth) arguments

section Call

variable {limits : Limits} {functions : List Function} {f : Function} {c : Name}

theorem dispatch_eq_call {table : List Function} (h : definition? table c = some f)
    (arguments : List Word) :
    dispatch limits table
      (fun f arguments => f.apply limits (invoke limits functions limits.depth) arguments)
      c arguments = f.call limits functions arguments := by
  rw [definition?] at h
  rw [dispatch, h]
  rfl

def SameAt (d : Nat) (m m' : Machine) : Prop := m = m' ∧ m.depth = d

theorem deepens_sameAt (d : Nat) : Deepens (SameAt d) (SameAt (d + 1)) where
  down := by
    rintro m _ ⟨rfl, hdepth⟩
    exact ⟨rfl, congrArg Nat.succ hdepth⟩
  leave := by
    rintro m _ ⟨rfl, hdepth⟩
    exact ⟨rfl, by rw [Machine.leave, hdepth, Nat.add_sub_cancel]⟩

theorem Couples.sameAt {α : Type} {x : Exec α} {d : Nat}
    (hx : ∀ m, (Ending.machine (x m)).depth = m.depth) :
    Couples .neither (SameAt d) Eq (fun _ => x) fun _ => x := by
  rintro m _ ⟨rfl, hdepth⟩
  have hend := (hx m).trans hdepth
  refine Or.inr ⟨x m, x m, Eventually.of_forall fun _ => rfl, Eventually.of_forall fun _ => rfl, ?_⟩
  cases hm : x m with
  | ok a m' =>
      rw [hm] at hend
      exact .ok rfl ⟨rfl, hend⟩
  | error halt m' =>
      rw [hm] at hend
      exact .error ⟨rfl, hend⟩

theorem inStep_sameAt (limits : Limits) (d : Nat) :
    InStep .neither (SameAt d) (fun _ => limits) fun _ => limits where
  tick := by
    refine Couples.sameAt fun m => ?_
    by_cases hallows : limits.Allows m.steps
    · rw [Exec.tick_of_allows hallows]
      rfl
    · rw [Exec.tick_of_not_allows hallows]
      rfl
  turns := ⟨limits.steps + 1, Eventually.of_forall fun _ => ⟨rfl, rfl⟩⟩

/-- With enough room on both sides it makes no difference how much there is: the limit is reached
first. -/
theorem invoke_couples_rooms {room room' d : Nat} (hroom : limits.depth ≤ room + d)
    (hroom' : limits.depth ≤ room' + d) (c : Name) (arguments : List Word) :
    Couples .neither (SameAt d) Eq (fun _ => invoke limits functions room c arguments)
      fun _ => invoke limits functions room' c arguments := by
  induction room using Nat.strong_induction_on generalizing room' d c arguments with
  | _ room ih =>
  cases hf : definition? functions c with
  | none =>
      simp only [invoke_of_none hf]
      exact .sameAt fun m => (Exec.Quiet.callBuiltin c arguments m).2
  | some f =>
      by_cases hlength : f.parameters.length = arguments.length
      · by_cases hfull : limits.depth ≤ d
        · refine (Couples.fail .callDepth).congr ?_ ?_
          all_goals
            rintro m _ ⟨rfl, rfl⟩
            exact Eventually.of_forall fun _ => invoke_eq_of_full hf hlength hfull _
        · obtain ⟨k, rfl⟩ : ∃ k, room = k + 1 := ⟨room - 1, by omega⟩
          obtain ⟨k', rfl⟩ : ∃ k', room' = k' + 1 := ⟨room' - 1, by omega⟩
          have hcalls : CallsCouple .neither (SameAt (d + 1)) (fun _ => invoke limits functions k)
              (fun _ => invoke limits functions k') (Block.callSites f.body) :=
            fun site _ values _ => ih k (Nat.lt_succ_self k) (by omega) (by omega) site.callee values
          have hbody := (inStep_sameAt limits (d + 1)).block_couples f.body
            (ItemsCouple.own ⟨fun item _ => item.respects_eq, hcalls⟩) (f.frame arguments) _ rfl
          have happly := Function.apply_couples (deepens_sameAt d) rfl hbody (V := Eq) ?_
          · refine happly.congr ?_ ?_
            all_goals
              rintro m _ ⟨rfl, rfl⟩
              exact Eventually.of_forall fun _ => invoke_of_room hf hlength (Nat.not_le.mp hfull) _
          · rintro frame _ rfl
            exact Frame.mapM_read_couples fun _ _ => rfl
      · simp only [invoke_of_length_ne hf hlength]
        exact .fail _

theorem invoke_eq_call (h : definition? functions c = some f) (arguments : List Word) (m : Machine) :
    invoke limits functions limits.depth c arguments m = f.call limits functions arguments m := by
  have hrooms : Couples .neither (SameAt m.depth) Eq
      (fun _ => invoke limits functions limits.depth c arguments)
      fun _ => invoke limits functions (limits.depth + 1) c arguments :=
    invoke_couples_rooms (by omega) (by omega) c arguments
  rw [← dispatch_eq_call h]
  exact (hrooms.alike ⟨rfl, rfl⟩).eq fun _ _ hm => hm.1

end Call

namespace Frame

/-- The frames give the same value to every name in `S`. -/
def AgreeOn (S : Name → Prop) (frame frame' : Frame) : Prop :=
  ∀ x, S x → frame.get? x = frame'.get? x

variable {S : Name → Prop} {frame frame' : Frame}

theorem AgreeOn.set (h : AgreeOn S frame frame') (x : Name) (v : Word) :
    AgreeOn S (Frame.set x v frame) (Frame.set x v frame') := by
  intro y hy
  rw [get?_set, get?_set, h y hy]

end Frame

theorem Item.respects_agreeOn {S : Name → Prop} {item : Item} (h : ∀ x ∈ item.references, S x) :
    item.Respects (Frame.AgreeOn S) := by
  cases item with
  | value e bound => exact fun frame frame' hframe x hx => hframe x (h x hx)
  | assignment names | declaration names => exact fun x _ v frame frame' hframe => hframe.set x v
  | _ => trivial

namespace Function

variable {f : Function} {limits : Limits} {call : Caller}

/-- What the course of a call depends on: the names that the body mentions, and the return
variables. -/
def Matters (f : Function) (x : Name) : Prop := x ∈ Block.references f.body ∨ x ∈ f.returns

theorem respects_matters {item : Item} (hi : item ∈ Block.items f.body) :
    item.Respects (Frame.AgreeOn f.Matters) :=
  Item.respects_agreeOn fun _ hx => Or.inl (List.mem_flatMap.mpr ⟨item, hi, hx⟩)

theorem agreeOn_frame {a b : List Word} (ha : a.length = f.parameters.length)
    (hb : b.length = f.parameters.length)
    (h : f.mentioned f.parameters a = f.mentioned f.parameters b) :
    Frame.AgreeOn f.Matters (f.frame a) (f.frame b) := by
  intro x hx
  by_cases hreturn : x ∈ f.returns
  · rw [frame, Frame.get?_setAll_zero hreturn, frame, Frame.get?_setAll_zero hreturn]
  have hmentioned : x ∈ Block.references f.body := hx.resolve_right hreturn
  have hkeys : x ∉ (f.returns.map (·, (0 : Word))).map Prod.fst := by simpa using hreturn
  -- Both frames give the name what the mentioned parameters give it.
  have hparameters {c : List Word} (hc : c.length = f.parameters.length) :
      (f.frame c).get? x = (Frame.setAll []
        ((f.parameters.filter (· ∈ Block.references f.body)).zip
          (f.mentioned f.parameters c))).get? x := by
    rw [frame, Frame.get?_setAll_of_not_mem hkeys, f.zip_mentioned hc]
    exact Frame.get?_setAll_filter (q := fun y => y ∈ Block.references f.body) (fun _ _ => rfl) _ x
      (decide_eq_true hmentioned)
  rw [hparameters ha, hparameters hb, h]

theorem apply_congr {a b : List Word} (ha : a.length = f.parameters.length)
    (hb : b.length = f.parameters.length)
    (h : f.mentioned f.parameters a = f.mentioned f.parameters b) (m : Machine) :
    f.apply limits call a m = f.apply limits call b m := by
  have hitems : ItemsCouple .neither Eq (Frame.AgreeOn f.Matters) (fun _ => call) (fun _ => call)
      (Block.items f.body) := ⟨fun _ => respects_matters, fun _ _ _ _ => .refl _⟩
  have hbody := (InStep.refl limits).block_couples f.body hitems.own _ _ (agreeOn_frame ha hb h)
  have happly := apply_couples deepens_eq rfl hbody fun frame frame' hframe =>
    Frame.mapM_read_couples fun x hx => hframe x (Or.inr hx)
  exact (happly.alike rfl).eq fun _ _ hm => hm

theorem mentioned_congr {names : List Name} {a b : List Word} (ha : a.length = names.length)
    (hb : b.length = names.length)
    (h : ∀ (i : Nat) x, names[i]? = some x → x ∈ Block.references f.body → a[i]? = b[i]?) :
    f.mentioned names a = f.mentioned names b := by
  induction names generalizing a b with
  | nil => rw [List.length_eq_zero_iff.mp ha, List.length_eq_zero_iff.mp hb]
  | cons x names ih =>
      obtain ⟨v, a, rfl⟩ := List.exists_cons_of_length_eq_add_one ha
      obtain ⟨w, b, rfl⟩ := List.exists_cons_of_length_eq_add_one hb
      have hrest := ih (Nat.succ.inj ha) (Nat.succ.inj hb) fun i => h (i + 1)
      rw [mentioned_cons, mentioned_cons, hrest]
      by_cases hx : x ∈ Block.references f.body
      · have hvw : v = w := by simpa using h 0 x rfl hx
        rw [hvw]
      · rw [if_neg hx, if_neg hx]

structure ZeroIn (f : Function) (frame frame' : Frame) : Prop where
  same : frame = frame'
  zero {x : Name} : x ∈ f.returns → x ∉ Block.references f.body → frame.get? x = some 0

/-- No declaration in the body declares a return variable again, those in the functions that are
defined in the body aside. -/
def KeepsOwnReturns (f : Function) : Prop :=
  ∀ names, Item.declaration names ∈ Block.ownItems f.body → ∀ x ∈ names, x ∉ f.returns

theorem ZeroIn.set {frame frame' : Frame} (h : f.ZeroIn frame frame') {x : Name}
    (hx : x ∈ f.returns → x ∈ Block.references f.body) (v : Word) :
    f.ZeroIn (Frame.set x v frame) (Frame.set x v frame') := by
  refine ⟨by rw [h.same], ?_⟩
  intro y hy hnot
  have hne : y ≠ x := fun hyx => hnot (hyx ▸ hx (hyx ▸ hy))
  rw [Frame.get?_set, if_neg hne, h.zero hy hnot]

theorem respects_zeroIn (hf : f.KeepsOwnReturns) :
    ∀ item ∈ Block.ownItems f.body, item.Respects f.ZeroIn := by
  intro item hi
  have hreference {x : Name} (hx : x ∈ item.references) : x ∈ Block.references f.body :=
    List.mem_flatMap.mpr ⟨item, (Block.ownItems_sublist f.body).subset hi, hx⟩
  cases item with
  | value e bound => exact fun frame frame' hframe x _ => by rw [hframe.same]
  | assignment names =>
      exact fun x hx v frame frame' hframe => hframe.set (fun _ => hreference hx) v
  | declaration names =>
      exact fun x hx v frame frame' hframe =>
        hframe.set (fun hreturn => absurd hreturn (hf names hi x hx)) v
  | _ => trivial

theorem body_of_apply {arguments values : List Word} {m m' : Machine}
    (h : f.apply limits call arguments m = .ok values m') : ∃ flow frame w,
      (Block.run limits call f.body).run (f.frame arguments) m.down = .ok (flow, frame) w ∧
      f.returns.map frame.get? = values.map some := by
  obtain ⟨⟨flow, frame⟩, w, hdeeper, hend⟩ := YulPruner.bind_eq_ok.mp h
  rw [Exec.deeper_eq] at hdeeper
  cases hbody : (Block.run limits call f.body).run (f.frame arguments) m.down with
  | error halt w' =>
      rw [hbody] at hdeeper
      cases hdeeper
  | ok u w' =>
      rw [hbody] at hdeeper
      cases hdeeper
      refine ⟨flow, frame, w', rfl, ?_⟩
      obtain ⟨values', hread, hvalues⟩ := returns_read hbody
      rw [hvalues]
      have hreturn (hend : f.returns.mapM frame.read w'.leave = .ok values m') :
          values'.map some = values.map some := by
        rw [hread] at hend
        cases hend
        rfl
      cases flow with
      | none => exact hreturn hend
      | some j =>
          cases j with
          | breakLoop | continueLoop => cases hend
          | leave => exact hreturn hend

theorem zero_of_apply (hf : f.KeepsOwnReturns) {arguments values : List Word} {m m' : Machine}
    (h : f.apply limits call arguments m = .ok values m') {i : Nat} {x : Name}
    (hi : f.returns[i]? = some x) (hx : x ∉ Block.references f.body) : values[i]? = some 0 := by
  have hitems : ItemsCouple .neither Eq f.ZeroIn (fun _ => call) (fun _ => call)
      (Block.ownItems f.body) := ⟨respects_zeroIn hf, fun _ _ _ _ => .refl _⟩
  have hstart : f.ZeroIn (f.frame arguments) (f.frame arguments) :=
    ⟨rfl, fun hreturn _ => Frame.get?_setAll_zero hreturn _⟩
  have hbody := ((InStep.refl limits).block_couples f.body hitems _ _ hstart).alike (m := m.down) rfl
  obtain ⟨flow, frame, w, hrun, hvalues⟩ := body_of_apply h
  rw [hrun] at hbody
  cases hbody with
  | ok hv _ =>
      have hzero := hv.2.zero (List.mem_of_getElem? hi) hx
      have hvalue : (f.returns.map frame.get?)[i]? = (values.map some)[i]? := by rw [hvalues]
      rw [List.getElem?_map, hi, Option.map_some, hzero, List.getElem?_map] at hvalue
      obtain ⟨v, hv, hzero⟩ := Option.map_eq_some_iff.mp hvalue.symm
      rw [hv, Option.some_inj.mp hzero]

variable {functions : List Function}

theorem definition?_self (f : Function) : definition? [f] f.name = some f := by
  simp [definition?, List.findRev?]

theorem apply_of_call {arguments values : List Word} {m m' : Machine}
    (h : f.call limits functions arguments m = .ok values m') :
    f.apply limits (invoke limits functions limits.depth) arguments m = .ok values m' := by
  rw [← dispatch_eq_call f.definition?_self] at h
  exact dispatch_of_ok f.definition?_self h

theorem call_congr {a b : List Word} (ha : a.length = f.parameters.length)
    (hb : b.length = f.parameters.length)
    (h : f.mentioned f.parameters a = f.mentioned f.parameters b) (m : Machine) :
    f.call limits functions a m = f.call limits functions b m := by
  have hf := f.definition?_self
  rw [← dispatch_eq_call hf, ← dispatch_eq_call hf]
  by_cases hfull : limits.depth ≤ m.depth
  · rw [dispatch_of_full hf ha.symm hfull, dispatch_of_full hf hb.symm hfull]
  · rw [dispatch_of_room hf ha.symm (Nat.not_le.mp hfull),
      dispatch_of_room hf hb.symm (Nat.not_le.mp hfull)]
    exact apply_congr ha hb h m

/-- Two calls of a function that differ in unused arguments only are the same in all that can be seen
of them, and a return variable that is unused, and not declared again, is zero when a call returns. -/
theorem unused_slots (p : Program) (f : Function) (limits : Limits) (m : Machine) :
    (∀ c, definition? (Block.definitions p.root) c = some f → ∀ arguments,
      invoke limits (Block.definitions p.root) limits.depth c arguments m =
        f.call limits (Block.definitions p.root) arguments m) ∧
    (∀ a b : List Word, a.length = f.parameters.length → b.length = f.parameters.length →
      (∀ i : Nat, (f.usage p).parameters[i]? = some .used → a[i]? = b[i]?) →
      f.call limits (Block.definitions p.root) a m = f.call limits (Block.definitions p.root) b m) ∧
    (f.KeepsOwnReturns → ∀ arguments values m',
      f.call limits (Block.definitions p.root) arguments m = .ok values m' →
      values.length = f.returns.length ∧
        ∀ i : Nat, (f.usage p).returns[i]? = some .unused → values[i]? = some 0) := by
  refine ⟨fun c hc arguments => invoke_eq_call hc arguments m, ?_, ?_⟩
  · intro a b ha hb h
    refine call_congr ha hb (mentioned_congr ha hb fun i x hi hx => h i ?_) m
    rw [usage, List.getElem?_map, hi, Option.map_some, usageIn_eq_used.mpr hx]
  · intro hf arguments values m' h
    have happly := apply_of_call h
    refine ⟨length_of_apply happly, fun i hi => ?_⟩
    rw [usage, List.getElem?_map] at hi
    obtain ⟨x, hx, hunused⟩ := Option.map_eq_some_iff.mp hi
    refine zero_of_apply hf happly hx fun hmem => ?_
    rw [usageIn_eq_used.mpr hmem] at hunused
    cases hunused

/-- A function that uses neither its second parameter nor its second return variable. What its body
declares under the name of the latter is in another function. -/
def halfUsed : Function :=
  ⟨"f", ["a", "b"], ["r", "s"],
    [.function ⟨"g", [], [], [.declaration ["s"] (some (.literal (.number 7)))]⟩,
      .expression (.call "log" [.var "a"]),
      .assignment ["r"] (.call "add" [.var "a", .literal (.number 1)])]⟩

theorem unused_slots_halfUsed : halfUsed.KeepsOwnReturns ∧
    halfUsed.usage ⟨[.function halfUsed]⟩ = ⟨[.used, .unused], [.used, .unused], false⟩ ∧
    ∃ v m, halfUsed.call {} (Block.definitions [.function halfUsed]) [3, 5] .start = .ok [v, 0] m ∧
      halfUsed.call {} (Block.definitions [.function halfUsed]) [3, 8] .start = .ok [v, 0] m ∧
      invoke {} (Block.definitions [.function halfUsed]) 256 "f" [3, 8] .start = .ok [v, 0] m := by
  have hkeeps : halfUsed.KeepsOwnReturns := by
    intro names hnames
    simp [halfUsed, Block.ownItems, Stmt.ownItems] at hnames
  have husage : halfUsed.usage ⟨[.function halfUsed]⟩ =
      ⟨[.used, .unused], [.used, .unused], false⟩ := by decide
  obtain ⟨hinvoke, hcall, hzero⟩ := halfUsed.unused_slots ⟨[.function halfUsed]⟩ {} .start
  have hsame := hcall [3, 5] [3, 8] rfl rfl fun i hi => by
    rw [husage] at hi
    obtain _ | _ | i := i
    · rfl
    · cases hi
    · rfl
  obtain ⟨values, m, hrun⟩ : ∃ values m,
      halfUsed.call {} (Block.definitions [.function halfUsed]) [3, 5] .start = .ok values m :=
    ⟨_, _, rfl⟩
  obtain ⟨hlength, hvalues⟩ := hzero hkeeps [3, 5] values m hrun
  obtain ⟨v, w, rfl⟩ := List.length_eq_two.mp hlength
  have hw := hvalues 1 (by rw [husage]; rfl)
  cases hw
  exact ⟨hkeeps, husage, v, m, hrun, hsame.symm.trans hrun,
    (hinvoke "f" rfl [3, 8]).trans (hsame.symm.trans hrun)⟩

end Function

end YulPruner
