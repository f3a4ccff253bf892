import YulPruner.Syntax.Basic

namespace YulPruner

mutual

def Expr.same : Expr → Expr → Bool
  | .var x, .var y => x == y
  | .literal l, .literal m => l == m
  | .call f as, .call g bs => f == g && Expr.sameAll as bs
  | _, _ => false
termination_by structural e => e

def Expr.sameAll : List Expr → List Expr → Bool
  | [], [] => true
  | a :: as, b :: bs => a.same b && Expr.sameAll as bs
  | _, _ => false
termination_by structural es => es

end

mutual

theorem Expr.same_iff : ∀ a b : Expr, a.same b = true ↔ a = b
  | .var _, b => by cases b <;> simp [Expr.same]
  | .literal _, b => by cases b <;> simp [Expr.same]
  | .call _ as, b => by cases b <;> simp [Expr.same, Expr.sameAll_iff as]

theorem Expr.sameAll_iff : ∀ as bs : List Expr, Expr.sameAll as bs = true ↔ as = bs
  | [], bs => by cases bs <;> simp [Expr.sameAll]
  | a :: as, bs => by cases bs <;> simp [Expr.sameAll, Expr.same_iff a, Expr.sameAll_iff as]

end

instance : DecidableEq Expr := fun a b => decidable_of_iff _ (Expr.same_iff a b)

mutual

def Stmt.same : Stmt → Stmt → Bool
  | .expression a, .expression b => a == b
  | .assignment xs a, .assignment ys b => xs == ys && a == b
  | .declaration xs a, .declaration ys b => xs == ys && a == b
  | .function ⟨f, ps, rs, body⟩, .function ⟨g, qs, ts, body'⟩ =>
    f == g && ps == qs && rs == ts && Stmt.sameAll body body'
  | .conditional a body, .conditional b body' => a == b && Stmt.sameAll body body'
  | .switch a cases, .switch b cases' => a == b && Stmt.sameCases cases cases'
  | .loop pre a post body, .loop pre' b post' body' =>
    a == b && Stmt.sameAll pre pre' && Stmt.sameAll post post' && Stmt.sameAll body body'
  | .jump j, .jump k => j == k
  | .block body, .block body' => Stmt.sameAll body body'
  | _, _ => false
termination_by structural s => s

def Stmt.sameAll : List Stmt → List Stmt → Bool
  | [], [] => true
  | s :: ss, t :: ts => s.same t && Stmt.sameAll ss ts
  | _, _ => false
termination_by structural ss => ss

def Stmt.sameCases : List (CaseOf (List Stmt)) → List (CaseOf (List Stmt)) → Bool
  | [], [] => true
  | ⟨v, body⟩ :: cs, ⟨w, body'⟩ :: ds => v == w && Stmt.sameAll body body' && Stmt.sameCases cs ds
  | _, _ => false
termination_by structural cs => cs

end

mutual

theorem Stmt.same_iff : ∀ s t : Stmt, s.same t = true ↔ s = t
  | .expression _, t => by cases t <;> simp [Stmt.same]
  | .assignment _ _, t => by cases t <;> simp [Stmt.same]
  | .declaration _ _, t => by cases t <;> simp [Stmt.same]
  | .function ⟨_, _, _, body⟩, t => by
    cases t with
    | function g => cases g; simp [Stmt.same, Stmt.sameAll_iff body, and_assoc]
    | _ => simp [Stmt.same]
  | .conditional _ body, t => by cases t <;> simp [Stmt.same, Stmt.sameAll_iff body]
  | .switch _ cases, t => by
    cases t with
    | switch => simp [Stmt.same, Stmt.sameCases_iff cases]
    | _ => simp [Stmt.same]
  | .loop pre _ post body, t => by
    cases t with
    | loop =>
      simp [Stmt.same, Stmt.sameAll_iff pre, Stmt.sameAll_iff post, Stmt.sameAll_iff body,
        and_assoc, and_left_comm]
    | _ => simp [Stmt.same]
  | .jump _, t => by cases t <;> simp [Stmt.same]
  | .block body, t => by cases t <;> simp [Stmt.same, Stmt.sameAll_iff body]

theorem Stmt.sameAll_iff : ∀ ss ts : List Stmt, Stmt.sameAll ss ts = true ↔ ss = ts
  | [], ts => by cases ts <;> simp [Stmt.sameAll]
  | s :: ss, ts => by cases ts <;> simp [Stmt.sameAll, Stmt.same_iff s, Stmt.sameAll_iff ss]

theorem Stmt.sameCases_iff :
    ∀ cs ds : List (CaseOf (List Stmt)), Stmt.sameCases cs ds = true ↔ cs = ds
  | [], ds => by cases ds <;> simp [Stmt.sameCases]
  | ⟨_, body⟩ :: cs, ds => by
    cases ds with
    | nil => simp [Stmt.sameCases]
    | cons d ds => cases d; simp [Stmt.sameCases, Stmt.sameAll_iff body, Stmt.sameCases_iff cs]

end

instance : DecidableEq Stmt := fun s t => decidable_of_iff _ (Stmt.same_iff s t)

deriving instance DecidableEq for Program

end YulPruner
