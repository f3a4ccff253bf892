import YulPruner.Proofs.Pruning.Calls

namespace YulPruner

theorem usageIn_congr {as bs : List Name} {x : Name} (h : x ∈ as ↔ x ∈ bs) :
    usageIn as x = usageIn bs x := by
  simp only [usageIn, h]

theorem usageIn_eq_used {as : List Name} {x : Name} : usageIn as x = .used ↔ x ∈ as := by
  simp [usageIn]

def Block.onlyCall? : Block → Option (List Name × Name × List Expr)
  | [.expression (.call c arguments)] => some ([], c, arguments)
  | [.assignment targets (.call c arguments)] => some (targets, c, arguments)
  | _ => none

theorem Block.onlyCall?_mapCallees (ρ : Name → Name) (b : Block) :
    Block.onlyCall? (Block.mapCallees ρ b) = (Block.onlyCall? b).map
      fun call => (call.1, ρ call.2.1, Expr.mapCalleesAll ρ call.2.2) := by
  cases b with
  | nil => rfl
  | cons s ss =>
      cases s with
      | expression e => cases e <;> cases ss <;> rfl
      | assignment _ e => cases e <;> cases ss <;> rfl
      | _ => cases ss <;> rfl

theorem Block.mem_callSites_of_onlyCall? {b : Block} {targets : List Name} {c : Name}
    {arguments : List Expr} (h : Block.onlyCall? b = some (targets, c, arguments)) :
    ⟨c, arguments.length, targets.length⟩ ∈ Block.callSites b := by
  unfold Block.onlyCall? at h
  split at h
  · cases h
    exact List.mem_cons_self
  · cases h
    exact List.mem_cons_self
  · cases h

namespace Function

theorem isForwarding_eq (p : Program) (f : Function) : f.isForwarding p =
    (Block.onlyCall? f.body).any fun call =>
      f.passesOn p call.2.1 call.2.2 && call.1.all (· ∈ f.returns) := by
  obtain ⟨name, parameters, returns, body⟩ := f
  cases body with
  | nil => rfl
  | cons s ss =>
      cases s with
      | expression e => cases e <;> cases ss <;> simp [isForwarding, Block.onlyCall?]
      | assignment _ e => cases e <;> cases ss <;> simp [isForwarding, Block.onlyCall?]
      | _ => cases ss <;> rfl

theorem passesOn_map_var (p : Program) (f : Function) (c : Name) (xs : List Name) :
    f.passesOn p c (xs.map .var) = (p.defines c && xs.all (· ∈ f.parameters)) := by
  rw [passesOn, List.all_map]
  rfl

theorem passesOn_mapCallees {p q : Program} {ρ : Name → Name} {c : Name}
    (hc : q.defines (ρ c) = p.defines c) (f : Function) (arguments : List Expr) :
    (f.mapCallees ρ).passesOn q (ρ c) (Expr.mapCalleesAll ρ arguments) =
      f.passesOn p c arguments := by
  rw [passesOn, passesOn, hc, Expr.mapCalleesAll_eq_map, List.all_map]
  congr 2
  funext e
  cases e <;> rfl

theorem isForwarding_mapCallees {p q : Program} {ρ : Name → Name} (f : Function)
    (hdefines : ∀ site ∈ Block.callSites f.body, q.defines (ρ site.callee) = p.defines site.callee) :
    (f.mapCallees ρ).isForwarding q = f.isForwarding p := by
  rw [isForwarding_eq, isForwarding_eq, mapCallees_body, Block.onlyCall?_mapCallees, Option.any_map]
  cases hcall : Block.onlyCall? f.body with
  | none => rfl
  | some call =>
      obtain ⟨targets, c, arguments⟩ := call
      have hsite := Block.mem_callSites_of_onlyCall? hcall
      exact congrArg (· && _) (passesOn_mapCallees (hdefines _ hsite) f arguments)

theorem passesOn_of_trim {p : Program} {f : Function} {c : Name} {arguments : List Expr}
    (h : f.trim.passesOn p c arguments = true) : f.passesOn p c arguments = true := by
  rw [passesOn, Bool.and_eq_true, List.all_eq_true] at h ⊢
  refine ⟨h.1, fun e he => ?_⟩
  have hslot := h.2 e he
  cases e with
  | var x => exact decide_eq_true (List.mem_of_mem_filter (of_decide_eq_true hslot))
  | literal => cases hslot
  | call => cases hslot

theorem isForwarding_of_trim {p : Program} {f : Function} (h : f.trim.isForwarding p = true) :
    f.isForwarding p = true := by
  rw [isForwarding_eq, trim_body] at h
  rw [isForwarding_eq]
  cases hcall : Block.onlyCall? f.body with
  | none => rw [hcall] at h; cases h
  | some call =>
      rw [hcall, Option.any_some, Bool.and_eq_true, List.all_eq_true] at h
      rw [Option.any_some, Bool.and_eq_true, List.all_eq_true]
      refine ⟨passesOn_of_trim h.1, fun y hy => ?_⟩
      exact decide_eq_true (List.mem_of_mem_filter (of_decide_eq_true (h.2 y hy)))

theorem map_usageIn_mentioned (f : Function) {names slots : List Name}
    (hlength : slots.length = names.length) (hnodup : slots.Nodup) :
    slots.map (usageIn (f.mentioned names slots)) =
      names.map (usageIn (Block.references f.body)) := by
  induction names generalizing slots with
  | nil => rw [List.length_eq_zero_iff.mp hlength]; rfl
  | cons x xs ih =>
      cases slots with
      | nil => cases hlength
      | cons y ys =>
          obtain ⟨hy, hys⟩ := List.nodup_cons.mp hnodup
          have hold : y ∉ f.mentioned xs ys := fun hmem => hy ((f.mentioned_sublist xs ys).subset hmem)
          rw [mentioned_cons, List.map_cons, List.map_cons, ← ih (Nat.succ.inj hlength) hys]
          by_cases hx : x ∈ Block.references f.body
          · rw [if_pos hx, usageIn_eq_used.mpr hx, usageIn_eq_used.mpr List.mem_cons_self]
            refine congrArg _ (List.map_congr_left fun z hz => usageIn_congr ?_)
            rw [List.mem_cons, or_iff_right]
            rintro rfl
            exact hy hz
          · rw [if_neg hx, usageIn, if_neg hold, usageIn, if_neg hx]

theorem filter_map_usageIn (references names : List Name) :
    (names.map (usageIn references)).filter (· = .used) =
      (names.filter (· ∈ references)).map (usageIn references) := by
  rw [List.filter_map]
  congr 2
  funext x
  simp [usageIn_eq_used]

end Function

def FunctionUsage.trim (u : FunctionUsage) : FunctionUsage :=
  ⟨u.parameters.filter (· = .used), u.returns.filter (· = .used), false⟩

theorem FunctionUsage.not_isPrunable_trim (u : FunctionUsage) : ¬ u.trim.isPrunable = true := by
  simp [trim, isPrunable, hasUnused]

theorem FunctionUsage.not_isPrunable_of_forwarding {u : FunctionUsage} (h : u.forwarding = true) :
    ¬ u.isPrunable = true := by
  simp [isPrunable, h]

namespace Function

theorem usage_trim {p : Program} {f : Function} (h : f.isForwarding p = false) :
    f.trim.usage p = (f.usage p).trim := by
  have hforward : f.trim.isForwarding p = false := by
    rw [← Bool.not_eq_true] at h ⊢
    exact mt isForwarding_of_trim h
  simp only [usage, FunctionUsage.trim, hforward, filter_map_usageIn, trim_body]
  rfl

theorem usage_mapCallees {p q : Program} {ρ : Name → Name} (f : Function)
    (hdefines : ∀ site ∈ Block.callSites f.body, q.defines (ρ site.callee) = p.defines site.callee) :
    (f.mapCallees ρ).usage q = f.usage p := by
  simp only [usage, isForwarding_mapCallees f hdefines, mapCallees_parameters, mapCallees_returns,
    mapCallees_body, Block.references_mapCallees]

theorem IsShim.isForwarding {f g : Function} (h : g.IsShim f) {q : Program}
    (hdefines : q.defines f.name = true) : g.isForwarding q = true := by
  have hparameters : ∀ x ∈ f.mentioned f.parameters g.parameters, x ∈ g.parameters :=
    (f.mentioned_sublist _ _).subset
  have hreturns : ∀ x ∈ f.mentioned f.returns g.returns, x ∈ g.returns :=
    (f.mentioned_sublist _ _).subset
  have hpasses : g.passesOn q f.name ((f.mentioned f.parameters g.parameters).map .var) = true := by
    rw [passesOn_map_var, hdefines, Bool.true_and, List.all_eq_true]
    exact fun x hx => decide_eq_true (hparameters x hx)
  rw [isForwarding_eq, h.body, forward]
  by_cases hret : f.trim.returns = []
  · simpa [hret, Block.onlyCall?] using hpasses
  · simpa [hret, Block.onlyCall?, hpasses] using hreturns

theorem IsShim.usage {f g : Function} (h : g.IsShim f) (hnodup : g.heading.Nodup) {p q : Program}
    (hdefines : q.defines f.name = true) : g.usage q = { f.usage p with forwarding := true } := by
  obtain ⟨hparameters, hreturns, hdisjoint⟩ := slots_nodup_of_heading hnodup
  have hparameter : ∀ x ∈ g.parameters, x ∉ f.mentioned f.returns g.returns :=
    fun x hx hmem => hdisjoint x hx ((f.mentioned_sublist _ _).subset hmem)
  have hreturn : ∀ x ∈ g.returns, x ∉ f.mentioned f.parameters g.parameters :=
    fun x hx hmem => hdisjoint x ((f.mentioned_sublist _ _).subset hmem) hx
  have hmask : g.parameters.map (usageIn (Block.references g.body)) =
      f.parameters.map (usageIn (Block.references f.body)) := by
    rw [← f.map_usageIn_mentioned h.parameters_length hparameters, h.references]
    refine List.map_congr_left fun x hx => usageIn_congr ?_
    rw [List.mem_append, or_iff_right (hparameter x hx)]
  have hmask' : g.returns.map (usageIn (Block.references g.body)) =
      f.returns.map (usageIn (Block.references f.body)) := by
    rw [← f.map_usageIn_mentioned h.returns_length hreturns, h.references]
    refine List.map_congr_left fun x hx => usageIn_congr ?_
    rw [List.mem_append, or_iff_left (hreturn x hx)]
  simp only [Function.usage, hmask, hmask', h.isForwarding hdefines]

end Function

namespace Program

def namedUsages (p : Program) : List (Name × FunctionUsage) :=
  p.usages.map fun eu => (eu.1.function.name, eu.2)

variable {p : Program} {shim : Name → Function}

theorem namedUsages_eq (p : Program) : p.namedUsages =
    (p.index.map (·.function)).map fun f => (f.name, f.usage p) := by
  rw [namedUsages, usages, List.map_map, List.map_map]
  rfl

theorem prunable_eq_nil_of_namedUsages (h : ∀ nu ∈ p.namedUsages, ¬ nu.2.isPrunable = true) :
    p.prunable = [] := by
  rw [prunable, List.filter_eq_nil_iff]
  exact fun eu heu => h _ (List.mem_map_of_mem heu)

theorem not_isForwarding_of_isPrunable {f : Function} (h : (f.usage p).isPrunable = true) :
    f.isForwarding p = false := by
  simp only [FunctionUsage.isPrunable, Function.usage, Bool.and_eq_true, Bool.not_eq_true'] at h
  exact h.1

namespace Shims

variable (h : p.Shims shim)

include h

theorem defines_callee {c : Name} (hc : c ∈ p.names) :
    (p.expansion shim).defines (p.callee shim c) = p.defines c := by
  rw [defines, defines]
  by_cases hsplit : c ∈ p.splitNames
  · obtain ⟨f, hf, -⟩ := mem_splitNames.mp hsplit
    rw [callee_of_mem hsplit, h.function?_shim hsplit, hf]
    rfl
  · rw [callee_of_not_mem hsplit, h.function?_expansion_of_mem_names hc, Option.isSome_map]

theorem defines_callee_of_mem_root {f : Function} (hf : Stmt.function f ∈ p.root) :
    ∀ site ∈ Block.callSites f.body,
      (p.expansion shim).defines (p.callee shim site.callee) = p.defines site.callee :=
  fun _ hsite => h.defines_callee (Block.callee_mem_names (Block.callSites_body_subset hf _ hsite))

/-- The index of an expansion holds the pieces of the functions that the index held before. -/
theorem indexFrom_of_expands {seen seen' : List Name} {ss out : List Stmt}
    (he : p.Expands shim seen ss out) (hseen : p.SeenAs shim seen seen') (n m : Nat) :
    (indexFrom m seen' out).map (·.function) =
      ((indexFrom n seen ss).map (·.function)).flatMap (p.pieces shim) := by
  induction he generalizing seen' n m with
  | nil => rfl
  | @split _ _ _ f hf hu hnew _ ih =>
      have hsplit := (name_mem_splitNames hf).mpr hu
      have hname := splitNames_subset_names hsplit
      rw [indexFrom_function, Function.mapCallees_name, Function.trim_name,
        if_neg (mt (hseen.mem_iff_of_mem_names h hname).mp hnew), indexFrom_function,
        if_neg (hseen.shim_not_mem h hsplit hnew), indexFrom_function, if_neg hnew, List.map_cons, List.map_cons,
        ih (hseen.split hsplit) (n + 1), List.map_cons, List.flatMap_cons, pieces, if_pos hsplit]
      rfl
  | @keep _ _ _ f hf hu hnew _ ih =>
      have hsplit := mt (name_mem_splitNames hf).mp hu
      have hname := name_mem_names (mem_root_of_function? hf)
      rw [indexFrom_function, Function.mapCallees_name,
        if_neg (mt (hseen.mem_iff_of_mem_names h hname).mp hnew), indexFrom_function, if_neg hnew,
        List.map_cons, ih (hseen.keep hsplit hname) (n + 1), List.map_cons, List.flatMap_cons,
        pieces, if_neg hsplit]
      rfl
  | again hf hmem _ ih =>
      rw [indexFrom_function, Function.mapCallees_name,
        if_pos ((hseen.mem_iff_of_mem_names h (name_mem_names hf)).mpr hmem), indexFrom_function,
        if_pos hmem, ih hseen]
  | other hs _ _ ih =>
      rw [indexFrom_of_ne (Stmt.mapCallees_ne_function hs), indexFrom_of_ne hs, ih hseen]

theorem usage_pieces {f : Function} (hf : p.function? f.name = some f) :
    (p.pieces shim f).map (fun g => (g.name, g.usage (p.expansion shim))) =
      if (f.usage p).isPrunable then
        [(f.name, (f.usage p).trim), ((shim f.name).name, { f.usage p with forwarding := true })]
      else [(f.name, f.usage p)] := by
  have hdefines := h.defines_callee_of_mem_root (mem_root_of_function? hf)
  rw [pieces]
  by_cases hu : (f.usage p).isPrunable = true
  · have hsplit := (name_mem_splitNames hf).mpr hu
    have hfound := h.function?_expansion_of_mem_names (splitNames_subset_names hsplit)
    have hname : (p.expansion shim).defines f.name = true := by rw [defines, hfound, hf]; rfl
    rw [if_pos hsplit, if_pos hu, List.map_cons, List.map_cons, List.map_nil,
      Function.usage_mapCallees f.trim hdefines,
      Function.usage_trim (not_isForwarding_of_isPrunable hu),
      (h.isShim hf hu).usage (h.heading_nodup hsplit) hname]
    rfl
  · rw [if_neg (mt (name_mem_splitNames hf).mp hu), if_neg hu, List.map_cons, List.map_nil,
      Function.usage_mapCallees f hdefines]
    rfl

theorem namedUsages_expansion : (p.expansion shim).namedUsages =
    p.usages.flatMap fun eu =>
      if eu.2.isPrunable then
        [(eu.1.function.name, eu.2.trim),
          ((shim eu.1.function.name).name, { eu.2 with forwarding := true })]
      else [(eu.1.function.name, eu.2)] := by
  have hindex : (p.expansion shim).index.map (·.function) =
      (p.index.map (·.function)).flatMap (p.pieces shim) :=
    h.indexFrom_of_expands (p.expands_expansion shim) seenAs_nil 0 0
  rw [namedUsages_eq, hindex, List.map_flatMap, List.flatMap_map, usages, List.flatMap_map]
  exact List.flatMap_congr fun e he => h.usage_pieces (function?_of_mem_index he)

theorem prunable_expansion : (p.expansion shim).prunable = [] := by
  refine prunable_eq_nil_of_namedUsages fun nu hnu => ?_
  rw [h.namedUsages_expansion] at hnu
  obtain ⟨eu, -, hmem⟩ := List.mem_flatMap.mp hnu
  by_cases hu : eu.2.isPrunable = true
  · rw [if_pos hu, List.mem_cons, List.mem_singleton] at hmem
    rcases hmem with rfl | rfl
    · exact eu.2.not_isPrunable_trim
    · exact FunctionUsage.not_isPrunable_of_forwarding rfl
  · rw [if_neg hu, List.mem_singleton] at hmem
    exact hmem ▸ hu

end Shims

end Program

end YulPruner
