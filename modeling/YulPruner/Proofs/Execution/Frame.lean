import YulPruner.Proofs.Execution.Congruence
import YulPruner.Proofs.Pruning.Split

namespace YulPruner

namespace Frame

theorem get?_cons (z : Name) (w : Word) (frame : Frame) (y : Name) :
    get? ((z, w) :: frame) y = if y = z then some w else frame.get? y := by
  rw [get?, List.lookup_cons]
  by_cases h : y = z
  · rw [if_pos h, beq_iff_eq.mpr h]
  · rw [if_neg h, beq_false_of_ne h, get?]

theorem get?_set (x : Name) (v : Word) (frame : Frame) (y : Name) :
    (Frame.set x v frame).get? y = if y = x then some v else frame.get? y := by
  induction frame with
  | nil => rw [Frame.set, get?_cons]
  | cons zw frame ih =>
      obtain ⟨z, w⟩ := zw
      rw [Frame.set, get?_cons]
      by_cases hz : z = x
      · rw [if_pos hz, get?_cons, hz]
        by_cases h : y = x
        · rw [if_pos h, if_pos h]
        · rw [if_neg h, if_neg h, if_neg h]
      · rw [if_neg hz, get?_cons, ih]
        by_cases h : y = z
        · rw [if_pos h, if_neg fun hy => hz (h ▸ hy), if_pos h]
        · rw [if_neg h, if_neg h]

theorem setAll_cons (frame : Frame) (xv : Name × Word) (values : List (Name × Word)) :
    frame.setAll (xv :: values) = (Frame.set xv.1 xv.2 frame).setAll values := rfl

theorem get?_setAll_of_not_mem {frame : Frame} {values : List (Name × Word)} {x : Name}
    (hx : x ∉ values.map Prod.fst) : (frame.setAll values).get? x = frame.get? x := by
  induction values generalizing frame with
  | nil => rfl
  | cons yw values ih =>
      rw [List.map_cons, List.mem_cons, not_or] at hx
      rw [setAll_cons, ih hx.2, get?_set, if_neg hx.1]

theorem get?_setAll_filter {q : Name → Bool} {frame frame' : Frame}
    (h : ∀ x, q x = true → frame.get? x = frame'.get? x) (values : List (Name × Word)) :
    ∀ x, q x = true →
      (frame.setAll values).get? x = (frame'.setAll (values.filter fun xv => q xv.1)).get? x := by
  induction values generalizing frame frame' with
  | nil => exact h
  | cons yw values ih =>
      by_cases hy : q yw.1 = true
      · rw [List.filter_cons_of_pos (by simpa using hy), setAll_cons, setAll_cons]
        refine ih fun x hx => ?_
        rw [get?_set, get?_set, h x hx]
      · rw [List.filter_cons_of_neg (by simpa using hy), setAll_cons]
        refine ih fun x hx => ?_
        have hne : x ≠ yw.1 := fun hxy => hy (hxy ▸ hx)
        rw [get?_set, if_neg hne, h x hx]

theorem get?_setAll_zero {names : List Name} {x : Name} (hx : x ∈ names) (frame : Frame) :
    (frame.setAll (names.map (·, 0))).get? x = some 0 := by
  induction names generalizing frame with
  | nil => cases hx
  | cons y names ih =>
      rw [List.map_cons, setAll_cons]
      by_cases hmem : x ∈ names
      · exact ih hmem _
      · have hxy : x = y := (List.mem_cons.mp hx).resolve_right hmem
        have hkeys : x ∉ (names.map fun z => (z, (0 : Word))).map Prod.fst := by
          simpa using hmem
        rw [get?_setAll_of_not_mem hkeys, get?_set, if_pos hxy]

theorem not_mem_map_fst_zip {names : List Name} {x : Name} (hx : x ∉ names) (values : List Word) :
    x ∉ (names.zip values).map Prod.fst := by
  intro hmem
  obtain ⟨xv, hxv, rfl⟩ := List.mem_map.mp hmem
  exact hx (List.of_mem_zip hxv).1

theorem map_get?_setAll {names : List Name} (hnodup : names.Nodup) {values : List Word}
    (hlength : values.length = names.length) (frame : Frame) :
    names.map (frame.setAll (names.zip values)).get? = values.map some := by
  induction names generalizing values frame with
  | nil => rw [List.length_eq_zero_iff.mp hlength]; rfl
  | cons x names ih =>
      cases values with
      | nil => cases hlength
      | cons v values =>
          obtain ⟨hx, hnames⟩ := List.nodup_cons.mp hnodup
          have hkeys := not_mem_map_fst_zip hx values
          rw [List.zip_cons_cons, setAll_cons, List.map_cons, List.map_cons,
            ih hnames (Nat.succ.inj hlength), get?_setAll_of_not_mem hkeys, get?_set, if_pos rfl]

theorem read_of_get? {frame : Frame} {x : Name} {v : Word} (h : frame.get? x = some v) :
    frame.read x = pure v := by
  rw [read, h]

theorem mapM_read {frame : Frame} {names : List Name} {values : List Word}
    (h : names.map frame.get? = values.map some) : names.mapM frame.read = pure values := by
  induction names generalizing values with
  | nil =>
      cases values with
      | nil => rfl
      | cons => cases h
  | cons x names ih =>
      cases values with
      | nil => cases h
      | cons v values =>
          obtain ⟨hx, hnames⟩ := List.cons.inj h
          rw [List.mapM_cons, read_of_get? hx, pure_bind, ih hnames, pure_bind]

end Frame

theorem Expr.evaluateAll_map_var (call : Caller) {frame : Frame} {names : List Name}
    {values : List Word} (h : names.map frame.get? = values.map some) :
    Expr.evaluateAll call frame (names.map .var) = pure values := by
  induction names generalizing values with
  | nil =>
      cases values with
      | nil => rfl
      | cons => cases h
  | cons x names ih =>
      cases values with
      | nil => cases h
      | cons v values =>
          obtain ⟨hx, hnames⟩ := List.cons.inj h
          rw [List.map_cons, Expr.evaluateAll, Expr.evaluate, Frame.read_of_get? hx, ih hnames]
          rfl

namespace Function

variable (f : Function)

/-- The frame of `f` and that of `f.trim` give the same values to what the body mentions. The other
return variables of `f` are still zero. -/
structure FramesAgree (frame frame' : Frame) : Prop where
  get? {x : Name} : x ∈ Block.references f.body → frame.get? x = frame'.get? x
  zero {x : Name} : x ∈ f.returns → x ∉ Block.references f.body → frame.get? x = some 0

theorem zip_mentioned {α : Type} {names : List Name} {slots : List α}
    (hlength : slots.length = names.length) :
    (names.filter (· ∈ Block.references f.body)).zip (f.mentioned names slots) =
      (names.zip slots).filter fun xv => xv.1 ∈ Block.references f.body := by
  have hnames : names = (names.zip slots).map Prod.fst :=
    (List.map_fst_zip (Nat.le_of_eq hlength.symm)).symm
  refine (List.zip_of_prod ?_ rfl).symm
  conv_rhs => rw [hnames, List.filter_map]
  rfl

theorem framesAgree_frame {arguments : List Word} (hlength : arguments.length = f.parameters.length) :
    f.FramesAgree (f.frame arguments) (f.trim.frame (f.mentioned f.parameters arguments)) := by
  refine ⟨?_, ?_⟩
  · intro x hx
    have hreturns : (f.returns.map (·, (0 : Word))).filter (fun xv => xv.1 ∈ Block.references f.body) =
        f.trim.returns.map (·, (0 : Word)) := by
      rw [List.filter_map]
      rfl
    have hparameters : (f.parameters.zip arguments).filter
        (fun xv => xv.1 ∈ Block.references f.body) =
          f.trim.parameters.zip (f.mentioned f.parameters arguments) := (f.zip_mentioned hlength).symm
    rw [frame, frame, ← hreturns, ← hparameters]
    refine Frame.get?_setAll_filter (q := fun x => x ∈ Block.references f.body) ?_ _ x
      (decide_eq_true hx)
    exact Frame.get?_setAll_filter (fun _ _ => rfl) _
  · exact fun hx _ => Frame.get?_setAll_zero hx _

variable {f}

theorem FramesAgree.set {frame frame' : Frame} (h : f.FramesAgree frame frame') {x : Name}
    (hx : x ∈ f.returns → x ∈ Block.references f.body) (v : Word) :
    f.FramesAgree (Frame.set x v frame) (Frame.set x v frame') := by
  refine ⟨?_, ?_⟩
  · intro y hy
    rw [Frame.get?_set, Frame.get?_set, h.get? hy]
  · intro y hy hnot
    have hne : y ≠ x := fun hyx => hnot (hyx ▸ hx (hyx ▸ hy))
    rw [Frame.get?_set, if_neg hne, h.zero hy hnot]

/-- No declaration in the body declares a return variable again. -/
def KeepsReturns (f : Function) : Prop :=
  ∀ names, Item.declaration names ∈ Block.items f.body → ∀ x ∈ names, x ∉ f.returns

theorem respects_framesAgree (hf : f.KeepsReturns) :
    ∀ item ∈ Block.items f.body, item.Respects f.FramesAgree := by
  intro item hi
  have hreference {x : Name} (hx : x ∈ item.references) : x ∈ Block.references f.body :=
    List.mem_flatMap.mpr ⟨item, hi, hx⟩
  cases item with
  | value e bound => exact fun frame frame' hframe x hx => hframe.get? (hreference hx)
  | assignment names =>
      exact fun x hx v frame frame' hframe => hframe.set (fun _ => hreference hx) v
  | declaration names =>
      exact fun x hx v frame frame' hframe =>
        hframe.set (fun hreturn => absurd hreturn (hf names hi x hx)) v
  | _ => trivial

def spread (f : Function) : List Name → List Word → List Word
  | [], _ => []
  | x :: names, values =>
    if x ∈ Block.references f.body then values.headD 0 :: f.spread names values.tail
    else 0 :: f.spread names values

theorem FramesAgree.read_couples {lead : Side} {R : Machine → Machine → Prop} {frame frame' : Frame}
    (h : f.FramesAgree frame frame') {names : List Name} (hnames : ∀ x ∈ names, x ∈ f.returns) :
    Couples lead R
      (fun vs ws => vs = f.spread names ws ∧
        ws.length = (names.filter (· ∈ Block.references f.body)).length)
      (fun _ => names.mapM frame.read)
      (fun _ => (names.filter (· ∈ Block.references f.body)).mapM frame'.read) := by
  induction names with
  | nil => exact .pure ⟨rfl, rfl⟩
  | cons x names ih =>
      have hrest := ih fun y hy => hnames y (List.mem_cons_of_mem _ hy)
      by_cases hx : x ∈ Block.references f.body
      · rw [List.filter_cons_of_pos (by simpa using hx)]
        simp only [List.mapM_cons, spread, if_pos hx]
        refine (Frame.read_couples (h.get? hx)).bind ?_
        rintro v _ rfl
        refine hrest.bind ?_
        rintro vs ws ⟨rfl, hlength⟩
        exact .pure ⟨rfl, congrArg Nat.succ hlength⟩
      · have hzero := Frame.read_of_get? (h.zero (hnames x List.mem_cons_self) hx)
        rw [List.filter_cons_of_neg (by simpa using hx)]
        simp only [List.mapM_cons, spread, if_neg hx, hzero, pure_bind]
        have hlast := hrest.bind (W := fun vs ws => vs = 0 :: f.spread names ws ∧
          ws.length = (names.filter (· ∈ Block.references f.body)).length)
          (k := fun _ vs => pure (0 :: vs)) (l := fun _ ws => pure ws)
          fun vs ws hvs => .pure ⟨congrArg _ hvs.1, hvs.2⟩
        simpa only [bind_pure] using hlast

end Function

end YulPruner
