import YulPruner.Proofs.Execution.Invariant
import YulPruner.Proofs.Syntax.Enclosure

namespace YulPruner

variable {limits : Limits} {call : Caller}

/-- Only a jump for which `P` holds ends the run. -/
def Run.EndsBy (P : Jump → Prop) (x : Run Flow) : Prop :=
  ∀ frame m, (x.run frame).Ends (fun u _ => ∀ j, u.1 = some j → P j) (fun _ _ => True) m

namespace Run.EndsBy

variable {P Q : Jump → Prop} {x : Run Flow}

theorem normally : EndsBy P (pure none) := fun _ _ => Exec.Ends.pure nofun

theorem jump {j : Jump} (h : P j) : EndsBy P (pure (some j)) :=
  fun _ _ => Exec.Ends.pure fun _ hj => Option.some.inj hj ▸ h

theorem fail (e : RunError) : EndsBy P (Exec.fail e : Exec Flow) :=
  fun _ _ => trivial

theorem mono (h : EndsBy P x) (hPQ : ∀ j, P j → Q j) : EndsBy Q x :=
  fun frame m => (h frame m).mono (fun _ _ _ hend j hj => hPQ j (hend j hj)) fun _ _ _ => trivial

theorem after {α : Type} (y : Run α) {k : α → Run Flow} (hk : ∀ a, EndsBy P (k a)) :
    EndsBy P (y >>= k) := by
  intro frame m
  rw [StateT.run_bind]
  exact (Exec.ends_true _ m).bind fun u m' _ _ => hk u.1 u.2 m'

theorem bind (h : EndsBy P x) {k : Flow → Run Flow}
    (hk : ∀ flow, (∀ j, flow = some j → P j) → EndsBy Q (k flow)) : EndsBy Q (x >>= k) := by
  intro frame m
  rw [StateT.run_bind]
  exact (h frame m).bind fun u m' _ hu => hk u.1 hu u.2 m'

variable {R : Jump → Prop}

theorem turns (condition : Run Word) {body post : Run Flow} (hbody : EndsBy P body)
    (hpost : EndsBy Q post) (hP : P .leave → R .leave) (hQ : Q .leave → R .leave) (bound : Nat) :
    EndsBy R (Run.turns limits condition body post bound) := by
  induction bound with
  | zero => exact fail _
  | succ bound ih =>
      have hnext : EndsBy R (post >>= fun j =>
          if j = some Jump.leave then pure (some Jump.leave) else
            (Exec.tick limits : Run Unit) >>= fun _ =>
              Run.turns limits condition body post bound) := by
        refine hpost.bind fun flow hflow => ?_
        by_cases hj : flow = some .leave
        · rw [if_pos hj]
          exact jump (hQ (hflow _ hj))
        · rw [if_neg hj]
          exact after _ fun _ => ih
      rw [Run.turns]
      refine after _ fun v => ?_
      by_cases hv : v = 0
      · rw [if_pos hv]
        exact normally
      rw [if_neg hv]
      refine hbody.bind fun flow hflow => ?_
      cases flow with
      | none => exact hnext
      | some j =>
          cases j with
          | breakLoop => exact normally
          | continueLoop => exact hnext
          | leave => exact jump (hP (hflow _ rfl))

end Run.EndsBy

section Statements

open Run.EndsBy

mutual

theorem Stmt.run_endsBy {around : List Enclosure} : ∀ s : Stmt, AllPlaced (s.jumps around) →
    Run.EndsBy (·.IsPlaced around) (s.run limits call)
  | .expression _, _ => by
      rw [Stmt.run]
      refine after _ fun values => ?_
      by_cases hempty : values.isEmpty = true
      · simp only [if_pos hempty]
        exact normally
      · simp only [if_neg hempty]
        exact after _ fun _ => normally
  | .assignment _ _, _ => by
      rw [Stmt.run]
      exact after _ fun _ => after _ fun _ => normally
  | .declaration _ (some _), _ => by
      rw [Stmt.run]
      exact after _ fun _ => after _ fun _ => normally
  | .declaration _ none, _ => by
      rw [Stmt.run]
      exact after _ fun _ => normally
  | .function _, _ => normally
  | .conditional _ body, h => by
      rw [Stmt.run]
      refine after _ fun v => ?_
      by_cases hv : v = 0
      · rw [if_pos hv]
        exact normally
      · rw [if_neg hv]
        exact (Block.run_endsBy body h).mono fun _ => Jump.isPlaced_of_cons (by decide)
  | .switch _ cases, h => by
      rw [Stmt.run]
      refine after _ fun v => ?_
      cases Case.chosen? v cases with
      | none => exact normally
      | some i => exact (Case.run_endsBy cases i h).mono fun _ => Jump.isPlaced_of_cons (by decide)
  | .loop pre _ post body, h => by
      obtain ⟨hinit, hbody⟩ := allPlaced_append.mp h
      obtain ⟨hpre, hpost⟩ := allPlaced_append.mp hinit
      rw [Stmt.run]
      -- The first part passes on all of its jumps, the turns pass on a leave and nothing else.
      refine (Block.run_endsBy pre hpre).bind fun flow hflow => ?_
      cases flow with
      | some j => exact jump (Jump.isPlaced_of_cons (by decide) (hflow j rfl))
      | none =>
          exact turns _ (Block.run_endsBy body hbody) (Block.run_endsBy post hpost)
            (Jump.leave_isPlaced_of_cons nofun) (Jump.leave_isPlaced_of_cons nofun) _
  | .jump j, h => jump (h (j, around) List.mem_cons_self)
  | .block body, h => (Block.run_endsBy body h).mono fun _ => Jump.isPlaced_of_cons (by decide)

/-- If all jumps in a block are placed, something around the block takes up each that ends it. -/
theorem Block.run_endsBy {around : List Enclosure} : ∀ b : Block,
    AllPlaced (Block.jumps around b) →
    Run.EndsBy (·.IsPlaced around) (Block.run limits call b)
  | [], _ => normally
  | s :: ss, h => by
      obtain ⟨hs, hss⟩ := allPlaced_append.mp h
      rw [Block.run]
      refine after _ fun _ => (Stmt.run_endsBy s hs).bind fun flow hflow => ?_
      cases flow with
      | some j => exact jump (hflow j rfl)
      | none => exact Block.run_endsBy ss hss

theorem Case.run_endsBy {around : List Enclosure} : ∀ (cases : List Case) (i : Nat),
    AllPlaced (Case.jumps around cases) →
    Run.EndsBy (·.IsPlaced around) (Case.run limits call cases i)
  | [], _, _ => normally
  | ⟨_, body⟩ :: _, 0, h => Block.run_endsBy body (allPlaced_append.mp h).1
  | ⟨_, _⟩ :: cases, i + 1, h => Case.run_endsBy cases i (allPlaced_append.mp h).2

end

end Statements

namespace RunError

def opening : RunError → List Char
  | .stepLimit => ['s']
  | .callDepth | .bindCount _ _ => ['c']
  | .undefinedVariable _ => ['u', 'n', 'd']
  | .unknownFunction _ _ => ['u', 'n', 'k']
  | .argumentCount _ _ _ => ['`']
  | .valueCount _ | .discardedValues => ['e']
  | .jumpOutOfFunction .breakLoop _ => ['B']
  | .jumpOutOfFunction .continueLoop _ => ['C']
  | .jumpOutOfFunction .leave _ => ['L']
  | .jumpAtTopLevel _ => ['u', 'n', 'e']

theorem opening_prefix (e : RunError) : e.opening <+: e.message.toList := by
  rw [message.eq_def]
  cases e with
  | jumpOutOfFunction j f =>
      have hlabel : (jumpOutOfFunction j f).opening <+: j.label.toList := by
        cases j <;> simp [opening, Jump.label]
      simp only [String.toList_append, List.append_assoc]
      exact hlabel.trans (List.prefix_append _ _)
  | _ => simp [opening]

theorem message_ne {e e' : RunError} (h : e.isJump = false) (h' : e'.isJump = true) :
    e.message ≠ e'.message := by
  intro heq
  have hprefix := e.opening_prefix
  rw [heq] at hprefix
  have hopening := List.prefix_or_prefix_of_prefix hprefix e'.opening_prefix
  cases e' with
  | jumpOutOfFunction j f =>
      cases e with
      | jumpOutOfFunction | jumpAtTopLevel => cases h
      | _ => cases j <;> simp [opening] at hopening
  | jumpAtTopLevel j =>
      cases e with
      | jumpOutOfFunction | jumpAtTopLevel => cases h
      | _ => simp [opening] at hopening
  | _ => cases h'

end RunError

namespace Program

variable {p : Program}

/-- Where every function takes up the jumps in it, no execution halts for a jump. -/
theorem JumpsPlaced.invariant (h : p.JumpsPlaced) (limits : Limits) :
    Invariant limits (Block.definitions p.root) (fun _ => True)
      (fun halt _ => ∀ e, halt = .failed e → e.isJump = false) where
  count _ _ _ := trivial
  halt_depth _ h := h
  builtin c arguments m _ := by
    refine callBuiltin_ends (fun b act hact => ?_) ?_
    · refine (Builtin.act?_ends hact m).mono (fun _ _ _ _ => trivial) ?_
      rintro _ _ rfl
      exact nofun
    · rintro _ ⟨⟩
      rfl
  fails he _ := by
    rintro _ ⟨⟩
    exact he
  jumps {f} _ _ _ _ _ _ hf hrun hj _ := by
    obtain ⟨outer, hplaced⟩ := Block.allPlaced_body p.root h (Block.mem_items_of_mem_definitions hf)
    have hend := (Block.run_endsBy f.body hplaced _ _).of_ok hrun _ rfl
    exact absurd (Jump.eq_leave_of_isPlaced_function hend) hj

theorem JumpsPlaced.isJump_eq_false (h : p.JumpsPlaced) {limits : Limits} {e : RunError}
    (he : p.run limits = .error e) : e.isJump = false := by
  rcases run_error_cases he with ⟨j, frame, m, hrun, -⟩ | ⟨m, hrun⟩
  · have hend := (Block.run_endsBy p.root h [] .start).of_ok hrun j rfl
    exact absurd hend Jump.not_isPlaced_nil
  · exact (runRoot_ends (h.invariant limits) trivial).of_error hrun e rfl

/-- If every break and every continue stands in the body or the update part of a loop of its own
function, and every leave in a function, then no run fails because a jump escapes. -/
theorem jumps_never_escape (h : p.JumpsPlaced) {limits : Limits} {e : RunError}
    (he : p.run limits = .error e) (j : Jump) :
    e.message ≠ "unexpected " ++ j.label ++ " at top level" ∧
      ∀ f : Name, e.message ≠ j.label ++ " outside of a loop in `" ++ f ++ "`" := by
  have hother := h.isJump_eq_false he
  have htop : e.message ≠ (RunError.jumpAtTopLevel j).message := RunError.message_ne hother rfl
  have hfunction (f : Name) : e.message ≠ (RunError.jumpOutOfFunction j f).message :=
    RunError.message_ne hother rfl
  exact ⟨htop, hfunction⟩

/-- The first part of a loop takes up no jump. -/
example : (Program.mk [.loop [.jump .breakLoop] (.literal (.number 1)) [] []]).run {} =
    .error (.jumpAtTopLevel .breakLoop) := rfl

/-- A leave in a loop of a function, a break in the update part of a loop with a continue in its body,
and a break before the first turn of a loop, for the loop around it. -/
def caughtJumps : Program where
  root := [.function ⟨"f", [], ["r"],
      [.assignment ["r"] (.literal (.number 1)),
        .loop [] (.literal (.number 1)) [] [.jump .leave]]⟩,
    .declaration ["i"] none,
    .loop [] (.call "lt" [.var "i", .literal (.number 2)])
      [.assignment ["i"] (.call "add" [.var "i", .call "f" []]), .jump .breakLoop]
      [.conditional (.literal (.number 1)) [.jump .continueLoop]],
    .loop [] (.literal (.number 1)) []
      [.loop [.jump .breakLoop] (.literal (.number 1)) [] []],
    .expression (.call "g" [.var "i"])]

theorem jumps_never_escape_caughtJumps : caughtJumps.JumpsPlaced ∧
    caughtJumps.run {} = .error (.unknownFunction "g" 1) ∧
    (RunError.unknownFunction "g" 1).message ≠ "unexpected Break at top level" ∧
    (RunError.unknownFunction "g" 1).message ≠ "Break outside of a loop in `f`" := by
  have hplaced : caughtJumps.JumpsPlaced := by decide
  have hrun : caughtJumps.run {} = .error (.unknownFunction "g" 1) := rfl
  obtain ⟨htop, hfunction⟩ := jumps_never_escape hplaced hrun .breakLoop
  exact ⟨hplaced, hrun, htop, hfunction "f"⟩

end Program

end YulPruner
