import YulPruner.Proofs.Syntax.Grammar
import YulPruner.Proofs.Syntax.Items
import YulPruner.Proofs.Token.Word

namespace YulPruner

mutual

/-- What the grammar asks of a statement beyond its type. -/
def Stmt.IsShaped : Stmt → Prop
  | .expression e => ∃ f arguments, e = .call f arguments
  | .assignment targets _ => targets ≠ []
  | .declaration names _ => names ≠ []
  | .function ⟨_, _, _, body⟩ => Block.IsShaped body
  | .conditional _ body => Block.IsShaped body
  | .switch _ cases => cases ≠ [] ∧ Case.AreShaped cases
  | .loop pre _ post body => Block.IsShaped pre ∧ Block.IsShaped post ∧ Block.IsShaped body
  | .jump _ => True
  | .block body => Block.IsShaped body
termination_by structural s => s

def Block.IsShaped : List Stmt → Prop
  | [] => True
  | s :: ss => s.IsShaped ∧ Block.IsShaped ss
termination_by structural ss => ss

/-- A default arm is the last one. -/
def Case.AreShaped : List (CaseOf (List Stmt)) → Prop
  | [] => True
  | ⟨value, body⟩ :: cases => (value = none → cases = []) ∧ Block.IsShaped body ∧ Case.AreShaped cases
termination_by structural cases => cases

end

/-- The programs that have a text. -/
structure Program.WellFormed (p : Program) : Prop where
  names : ∀ x ∈ p.names, IsIdentifier x
  shape : Block.IsShaped p.root

section Shape

theorem Separated.ne_nil {α : Type} {D : α → List Token → Prop} {as : List α} {ts : List Token}
    (h : Separated D as ts) : as ≠ [] := by
  cases h <;> exact List.cons_ne_nil _ _

mutual

theorem Stmt.Derives.isShaped {s : Stmt} {ts : List Token} (h : s.Derives ts) : s.IsShaped :=
  match h with
  | .block h => h.isShaped
  | .function _ _ h => h.isShaped
  | .declaration h _ => h.ne_nil
  | .conditional _ h => h.isShaped
  | .switch _ h hne => ⟨hne, h.areShaped⟩
  | .loop hpre _ hpost h => ⟨hpre.isShaped, hpost.isShaped, h.isShaped⟩
  | .breakLoop => trivial
  | .continueLoop => trivial
  | .leave => trivial
  | .assignment h _ => h.ne_nil
  | .call _ => ⟨_, _, rfl⟩

theorem Block.Derives.isShaped {b : Block} {ts : List Token} (h : Block.Derives b ts) :
    Block.IsShaped b :=
  match h with
  | .braces h => h.isShaped

theorem Stmt.DeriveAll.isShaped {b : List Stmt} {ts : List Token} (h : Stmt.DeriveAll b ts) :
    Block.IsShaped b :=
  match h with
  | .nil => trivial
  | .cons h hs => ⟨h.isShaped, hs.isShaped⟩

theorem Case.DeriveAll.areShaped {cases : List Case} {ts : List Token}
    (h : Case.DeriveAll cases ts) : Case.AreShaped cases :=
  match h with
  | .nil => trivial
  | .default h => ⟨fun _ => rfl, h.isShaped, trivial⟩
  | .case _ h hs => ⟨nofun, h.isShaped, hs.areShaped⟩

end

end Shape

section Names

variable {x : Name}

theorem Separated.mem_iff {α : Type} {D : α → List Token → Prop} {P : α → Prop} {as : List α}
    {ts : List Token} (h : Separated D as ts)
    (hD : ∀ a ∈ as, ∀ us, D a us → (.identifier x ∈ us ↔ P a)) :
    .identifier x ∈ ts ↔ ∃ a ∈ as, P a := by
  induction h with
  | single ha => simpa using hD _ List.mem_cons_self _ ha
  | cons ha _ ih =>
      have hhead := hD _ List.mem_cons_self _ ha
      have htail := ih fun a hmem => hD a (List.mem_cons_of_mem _ hmem)
      simp [hhead, htail]

theorem Parenthesized.mem_iff {α : Type} {D : α → List Token → Prop} {P : α → Prop}
    {as : List α} {ts : List Token} (h : Parenthesized D as ts)
    (hD : ∀ a ∈ as, ∀ us, D a us → (.identifier x ∈ us ↔ P a)) :
    .identifier x ∈ ts ↔ ∃ a ∈ as, P a := by
  cases h with
  | nil => simp
  | list h => simpa using h.mem_iff hD

theorem Name.Derives.mem_iff {y : Name} {ts : List Token} (h : Name.Derives y ts) :
    .identifier x ∈ ts ↔ x = y := by
  cases h
  simp

theorem Separated.mem_names_iff {names : List Name} {ts : List Token}
    (h : Separated Name.Derives names ts) : .identifier x ∈ ts ↔ x ∈ names := by
  simpa using h.mem_iff fun _ _ _ => Name.Derives.mem_iff

theorem Parenthesized.mem_names_iff {names : List Name} {ts : List Token}
    (h : Parenthesized Name.Derives names ts) : .identifier x ∈ ts ↔ x ∈ names := by
  simpa using h.mem_iff fun _ _ _ => Name.Derives.mem_iff

theorem ReturnsDerive.mem_iff {names : List Name} {ts : List Token} (h : ReturnsDerive names ts) :
    .identifier x ∈ ts ↔ x ∈ names := by
  cases h with
  | none => simp
  | some h => simpa using h.mem_names_iff

theorem Literal.Derives.not_mem {l : Literal} {ts : List Token} (h : Literal.Derives l ts) :
    .identifier x ∉ ts := by
  cases h <;> simp

def Expr.Mentions (e : Expr) (b : Nat) (x : Name) : Prop :=
  x ∈ e.variables ∨ ∃ site ∈ e.callSites b, site.callee = x

theorem Expr.mentions_call {f : Name} {arguments : List Expr} {b : Nat} :
    (Expr.call f arguments).Mentions b x ↔ x = f ∨ ∃ e ∈ arguments, e.Mentions 1 x := by
  simp only [Expr.Mentions, Expr.variables, Expr.callSites, List.mem_cons, Expr.mem_variablesAll,
    Expr.mem_callSitesAll]
  constructor
  · rintro (⟨e, he, hx⟩ | ⟨site, rfl | ⟨e, he, hsite⟩, rfl⟩)
    · exact Or.inr ⟨e, he, Or.inl hx⟩
    · exact Or.inl rfl
    · exact Or.inr ⟨e, he, Or.inr ⟨site, hsite, rfl⟩⟩
  · rintro (rfl | ⟨e, he, hx | ⟨site, hsite, rfl⟩⟩)
    · exact Or.inr ⟨_, Or.inl rfl, rfl⟩
    · exact Or.inl ⟨e, he, hx⟩
    · exact Or.inr ⟨site, Or.inr ⟨e, he, hsite⟩, rfl⟩

theorem Expr.Derives.mem_iff {e : Expr} {ts : List Token} (h : e.Derives ts) (b : Nat) :
    .identifier x ∈ ts ↔ e.Mentions b x := by
  induction e using Expr.argumentInduction generalizing ts b with
  | var y =>
      cases h
      simp [Expr.Mentions, Expr.variables, Expr.callSites]
  | literal l =>
      cases h with
      | literal h => simp [Expr.Mentions, Expr.variables, Expr.callSites, h.not_mem]
  | call f arguments ih =>
      cases h with
      | call h =>
          rw [Expr.mentions_call, List.mem_cons, h.mem_iff fun e he _ hderives => ih e he hderives 1]
          simp

theorem ValueDerives.mem_iff {value : Option Expr} {ts : List Token} (b : Nat)
    (h : ValueDerives value ts) : .identifier x ∈ ts ↔ ∃ e ∈ value, e.Mentions b x := by
  cases h with
  | none => simp
  | some h => simpa using h.mem_iff b

mutual

theorem Stmt.Derives.mem_iff {s : Stmt} {ts : List Token} (h : s.Derives ts) :
    .identifier x ∈ ts ↔ ∃ item ∈ s.items, x ∈ item.names :=
  match h with
  | .block h => h.mem_iff
  | .function hparameters hreturns h => by
      simp [Stmt.items, Item.names, hparameters.mem_names_iff, hreturns.mem_iff, h.mem_iff, or_assoc]
  | @Stmt.Derives.declaration names _ _ _ hnames hvalue => by
      simp [Stmt.items, Item.names, hnames.mem_names_iff, hvalue.mem_iff names.length,
        Expr.Mentions]
  | .conditional hcondition h => by
      simp [Stmt.items, Item.names, hcondition.mem_iff 1, h.mem_iff, Expr.Mentions]
  | .switch hscrutinee h hne => by
      simp [Stmt.items, Item.names, hscrutinee.mem_iff 1, h.mem_iff, Expr.Mentions]
  | .loop hpre hcondition hpost h => by
      simp [Stmt.items, Item.names, hcondition.mem_iff 1, hpre.mem_iff, hpost.mem_iff,
        h.mem_iff, Expr.Mentions, or_and_right, exists_or]
  | .breakLoop => by simp [Stmt.items]
  | .continueLoop => by simp [Stmt.items]
  | .leave => by simp [Stmt.items]
  | @Stmt.Derives.assignment targets _ _ _ htargets hvalue => by
      simp [Stmt.items, Item.names, htargets.mem_names_iff, hvalue.mem_iff targets.length,
        Expr.Mentions]
  | @Stmt.Derives.call f _ _ h => by
      have hcall := Expr.Derives.mem_iff (x := x) (.call (f := f) h) 0
      simpa [Stmt.items, Item.names, Expr.Mentions] using hcall

theorem Block.Derives.mem_iff {b : Block} {ts : List Token} (h : Block.Derives b ts) :
    .identifier x ∈ ts ↔ ∃ item ∈ Block.items b, x ∈ item.names :=
  match h with
  | .braces h => by simpa using h.mem_iff

theorem Stmt.DeriveAll.mem_iff {b : List Stmt} {ts : List Token} (h : Stmt.DeriveAll b ts) :
    .identifier x ∈ ts ↔ ∃ item ∈ Block.items b, x ∈ item.names :=
  match h with
  | .nil => by simp [Block.items]
  | .cons h hs => by simp [Block.items, h.mem_iff, hs.mem_iff, or_and_right, exists_or]

theorem Case.DeriveAll.mem_iff {cases : List Case} {ts : List Token}
    (h : Case.DeriveAll cases ts) : .identifier x ∈ ts ↔ ∃ item ∈ Case.items cases, x ∈ item.names :=
  match h with
  | .nil => by simp [Case.items]
  | .default h => by simp [Case.items, h.mem_iff]
  | .case hvalue h hs => by
      simp [Case.items, h.mem_iff, hs.mem_iff, hvalue.not_mem, or_and_right, exists_or]

end

/-- The names of a program are the identifiers among its tokens. -/
theorem Program.Derives.mem_names_iff {p : Program} {ts : List Token} (h : p.Derives ts) :
    .identifier x ∈ ts ↔ x ∈ p.names := by
  rw [Program.names, Block.names, List.mem_flatMap]
  exact Block.Derives.mem_iff h

end Names

end YulPruner
