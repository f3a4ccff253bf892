import YulPruner.Proofs.Syntax.Items

namespace YulPruner

/-- A part of a program in which statements stand. -/
inductive Enclosure where
  | function
  | conditional
  | arm
  | loopPre
  | loopPost
  | loopBody
  | block
deriving DecidableEq

mutual

/-- The jumps in a statement, each with all that it stands in, the innermost first. -/
def Stmt.jumps (around : List Enclosure) : Stmt → List (Jump × List Enclosure)
  | .expression _ => []
  | .assignment _ _ => []
  | .declaration _ _ => []
  | .function ⟨_, _, _, body⟩ => Block.jumps (.function :: around) body
  | .conditional _ body => Block.jumps (.conditional :: around) body
  | .switch _ cases => Case.jumps (.arm :: around) cases
  | .loop pre _ post body =>
    Block.jumps (.loopPre :: around) pre ++ Block.jumps (.loopPost :: around) post ++
      Block.jumps (.loopBody :: around) body
  | .jump j => [(j, around)]
  | .block body => Block.jumps (.block :: around) body
termination_by structural s => s

def Block.jumps (around : List Enclosure) : List Stmt → List (Jump × List Enclosure)
  | [] => []
  | s :: ss => s.jumps around ++ Block.jumps around ss
termination_by structural ss => ss

def Case.jumps (around : List Enclosure) :
    List (CaseOf (List Stmt)) → List (Jump × List Enclosure)
  | [] => []
  | ⟨_, body⟩ :: cases => Block.jumps around body ++ Case.jumps around cases
termination_by structural cases => cases

end

/-- Something around the jump takes it up. A loop takes up no jumps of the functions in it. -/
def Jump.IsPlaced (around : List Enclosure) : Jump → Prop
  | .leave => .function ∈ around
  | .breakLoop | .continueLoop =>
    ∃ e ∈ around.takeWhile (· ≠ .function), e = .loopPost ∨ e = .loopBody

instance (around : List Enclosure) : (j : Jump) → Decidable (j.IsPlaced around)
  | .leave => inferInstanceAs (Decidable (.function ∈ around))
  | .breakLoop | .continueLoop => inferInstanceAs
    (Decidable (∃ e ∈ around.takeWhile (· ≠ .function), e = .loopPost ∨ e = .loopBody))

def AllPlaced (jumps : List (Jump × List Enclosure)) : Prop :=
  ∀ x ∈ jumps, x.1.IsPlaced x.2

/-- Every break and every continue stands in the body or the update part of a loop of its own
function, and every leave in a function. -/
def Program.JumpsPlaced (p : Program) : Prop := AllPlaced (Block.jumps [] p.root)

instance (p : Program) : Decidable p.JumpsPlaced :=
  inferInstanceAs (Decidable (∀ x ∈ Block.jumps [] p.root, x.1.IsPlaced x.2))

theorem allPlaced_append {js ks : List (Jump × List Enclosure)} :
    AllPlaced (js ++ ks) ↔ AllPlaced js ∧ AllPlaced ks := List.forall_mem_append

namespace Jump

variable {j : Jump} {around : List Enclosure} {e : Enclosure}

theorem not_isPlaced_nil : ¬ j.IsPlaced [] := by
  cases j <;> simp [IsPlaced]

theorem eq_leave_of_isPlaced_function (h : j.IsPlaced (.function :: around)) : j = .leave := by
  cases j with
  | leave => rfl
  | breakLoop | continueLoop => simp [IsPlaced] at h

theorem leave_isPlaced_of_cons (he : e ≠ .function) (h : leave.IsPlaced (e :: around)) :
    leave.IsPlaced around :=
  List.mem_of_ne_of_mem he.symm h

theorem isPlaced_of_cons (he : e ∉ [Enclosure.function, .loopPost, .loopBody])
    (h : j.IsPlaced (e :: around)) : j.IsPlaced around := by
  simp only [List.mem_cons, List.not_mem_nil, or_false, not_or] at he
  obtain ⟨hfunction, hpost, hbody⟩ := he
  have hloop (h : ∃ d ∈ (e :: around).takeWhile (· ≠ .function), d = .loopPost ∨ d = .loopBody) :
      ∃ d ∈ around.takeWhile (· ≠ .function), d = .loopPost ∨ d = .loopBody := by
    rw [List.takeWhile_cons_of_pos (by simpa using hfunction)] at h
    obtain ⟨d, hd, hloop⟩ := h
    rcases List.mem_cons.mp hd with rfl | hd
    · exact absurd hloop (by simp [hpost, hbody])
    · exact ⟨d, hd, hloop⟩
  cases j with
  | leave => exact leave_isPlaced_of_cons hfunction h
  | breakLoop | continueLoop => exact hloop h

end Jump

section Definitions

variable {f : Function}

mutual

theorem Stmt.allPlaced_body {around : List Enclosure} : ∀ s : Stmt, AllPlaced (s.jumps around) →
    Item.definition f ∈ s.items → ∃ outer, AllPlaced (Block.jumps (.function :: outer) f.body)
  | .expression _, _, hf => by simp [Stmt.items] at hf
  | .assignment _ _, _, hf => by simp [Stmt.items] at hf
  | .declaration _ value, _, hf => by cases value <;> simp [Stmt.items] at hf
  | .function ⟨_, _, _, body⟩, h, hf => by
      rcases List.mem_cons.mp hf with hf | hf
      · cases hf
        exact ⟨around, h⟩
      · exact Block.allPlaced_body body h hf
  | .conditional _ body, h, hf => Block.allPlaced_body body h (by simpa [Stmt.items] using hf)
  | .switch _ cases, h, hf => Case.allPlaced_body cases h (by simpa [Stmt.items] using hf)
  | .loop pre _ post body, h, hf => by
      obtain ⟨hinit, hbody⟩ := allPlaced_append.mp h
      obtain ⟨hpre, hpost⟩ := allPlaced_append.mp hinit
      simp only [Stmt.items, List.cons_append, List.mem_cons, List.mem_append, reduceCtorEq,
        false_or] at hf
      rcases hf with hf | hf | hf
      · exact Block.allPlaced_body pre hpre hf
      · exact Block.allPlaced_body post hpost hf
      · exact Block.allPlaced_body body hbody hf
  | .jump _, _, hf => nomatch hf
  | .block body, h, hf => Block.allPlaced_body body h hf

theorem Block.allPlaced_body {around : List Enclosure} : ∀ b : Block,
    AllPlaced (Block.jumps around b) → Item.definition f ∈ Block.items b →
    ∃ outer, AllPlaced (Block.jumps (.function :: outer) f.body)
  | [], _, hf => nomatch hf
  | s :: ss, h, hf => by
      obtain ⟨hs, hss⟩ := allPlaced_append.mp h
      rcases List.mem_append.mp hf with hf | hf
      · exact Stmt.allPlaced_body s hs hf
      · exact Block.allPlaced_body ss hss hf

theorem Case.allPlaced_body {around : List Enclosure} : ∀ cases : List Case,
    AllPlaced (Case.jumps around cases) → Item.definition f ∈ Case.items cases →
    ∃ outer, AllPlaced (Block.jumps (.function :: outer) f.body)
  | [], _, hf => nomatch hf
  | ⟨_, body⟩ :: cases, h, hf => by
      obtain ⟨hbody, hcases⟩ := allPlaced_append.mp h
      rcases List.mem_append.mp hf with hf | hf
      · exact Block.allPlaced_body body hbody hf
      · exact Case.allPlaced_body cases hcases hf

end

end Definitions

end YulPruner
