import YulPruner.Proofs.Analysis.Index
import YulPruner.Proofs.Analysis.Precondition
import YulPruner.Proofs.Syntax.Listing

namespace YulPruner

/-- The violation stands at a place, and any other stands behind it. -/
def PrintedFirst (V : Nat → Violation → Prop) (v : Violation) : Prop :=
  ∃ k, V k v ∧ ∀ j w, V j w → (j = k ∧ w = v) ∨ k < j

theorem report_head?_of_listed {V : Nat → Violation → Prop} {size : Nat} {vs : List Violation}
    (h : Listed V size vs) : (report vs.head? = .ok () ↔ ∀ k v, ¬ V k v) ∧
      ∀ v, report vs.head? = .error v ↔ PrintedFirst V v := by
  constructor
  · rw [report_eq_ok, h.head?_eq_none_iff]
  · intro v
    rw [report_eq_error, h.head?_eq_some_iff, PrintedFirst]

theorem picked_definition? {Q : List Portion → Nat → Node → Prop} {portions : List Portion} {k : Nat}
    {f : Function} : Picked Q Node.definition? portions k f ↔
      ∃ depth, Q portions k (.stmt depth (.function f)) := by
  constructor
  · rintro ⟨n, hn, hf⟩
    cases n with
    | value e bound => cases hf
    | stmt depth s =>
        cases s with
        | function g =>
            cases hf
            exact ⟨depth, hn⟩
        | _ => cases hf
  · rintro ⟨depth, hn⟩
    exact ⟨_, hn, rfl⟩

section Hoisting

abbrev Hoists : List Portion → Nat → Function → Prop := Picked HasChild Node.definition?

abbrev Nests : List Portion → Nat → Function → Prop := Picked Inside Node.definition?

/-- A definition is inside a child, or it is a child of a name that is seen, be it that of an earlier
child. -/
inductive Objected (seen : Name → Prop) (portions : List Portion) (k : Nat) : Violation → Prop
  | nested {f : Function} (h : Nests portions k f) : Objected seen portions k (.notHoisted f.name)
  | repeated {f : Function} (h : Hoists portions k f)
      (hseen : seen f.name ∨ ∃ j g, j < k ∧ Hoists portions j g ∧ g.name = f.name) :
      Objected seen portions k (.duplicateFunction f.name)

def SeenAfter (seen : Name → Prop) (portions : List Portion) (x : Name) : Prop :=
  seen x ∨ ∃ k f, Hoists portions k f ∧ f.name = x

variable {seen : Name → Prop} {as bs portions : List Portion} {vs ws : List Violation} {k : Nat}

theorem Hoists.lt {f : Function} (h : Hoists portions k f) : k < (printed portions).length := by
  obtain ⟨depth, h⟩ := picked_definition?.mp h
  by_contra hle
  have hstarts := h.starts
  rw [List.drop_eq_nil_of_le (Nat.not_lt.mp hle), List.prefix_nil] at hstarts
  cases hstarts

theorem objected_append {v : Violation} : Objected seen (as ++ bs) k v ↔ Objected seen as k v ∨
    ∃ i, k = (printed as).length + i ∧ Objected (SeenAfter seen as) bs i v := by
  constructor
  · rintro (hnested | ⟨hhoists, hseen⟩)
    · rcases Additive.append_iff.mp hnested with h | ⟨i, rfl, h⟩
      · exact Or.inl (.nested h)
      · exact Or.inr ⟨i, rfl, .nested h⟩
    · rcases Additive.append_iff.mp hhoists with h | ⟨i, rfl, h⟩
      · refine Or.inl (.repeated h (hseen.imp_right ?_))
        rintro ⟨j, g, hlt, hg, hname⟩
        rcases Additive.append_iff.mp hg with hleft | ⟨j, rfl, -⟩
        · exact ⟨j, g, hlt, hleft, hname⟩
        · -- What is repeated stands in the first portions, and nothing of the others is earlier.
          have := h.lt
          omega
      · refine Or.inr ⟨i, rfl, .repeated h ?_⟩
        rcases hseen with hseen | ⟨j, g, hlt, hg, hname⟩
        · exact Or.inl (Or.inl hseen)
        · rcases Additive.append_iff.mp hg with hleft | ⟨j, rfl, hright⟩
          · exact Or.inl (Or.inr ⟨j, g, hleft, hname⟩)
          · exact Or.inr ⟨j, g, Nat.lt_of_add_lt_add_left hlt, hright, hname⟩
  · rintro ((h | ⟨h, hseen⟩) | ⟨i, rfl, h | ⟨h, hseen⟩⟩)
    · exact .nested (Additive.append_iff.mpr (Or.inl h))
    · refine .repeated (Additive.append_iff.mpr (Or.inl h)) (hseen.imp_right ?_)
      rintro ⟨j, g, hlt, hg, hname⟩
      exact ⟨j, g, hlt, Additive.append_iff.mpr (Or.inl hg), hname⟩
    · exact .nested (Additive.append_iff.mpr (Or.inr ⟨i, rfl, h⟩))
    · refine .repeated (Additive.append_iff.mpr (Or.inr ⟨i, rfl, h⟩)) ?_
      rcases hseen with (hseen | ⟨j, g, hg, hname⟩) | ⟨j, g, hlt, hg, hname⟩
      · exact Or.inl hseen
      · exact Or.inr ⟨j, g, Nat.lt_add_right i hg.lt, Additive.append_iff.mpr (Or.inl hg), hname⟩
      · exact Or.inr ⟨_, g, Nat.add_lt_add_left hlt _,
          Additive.append_iff.mpr (Or.inr ⟨j, rfl, hg⟩), hname⟩

theorem Reads.append_objected (h : Reads (Objected seen) as vs)
    (h' : Reads (Objected (SeenAfter seen as)) bs ws) : Reads (Objected seen) (as ++ bs) (vs ++ ws) := by
  rw [Reads, printed_append, List.length_append]
  exact Listed.append h h' fun k v => objected_append

theorem reads_objected_owned (pieces : List Piece) : Reads (Objected seen) (owned pieces) [] := by
  refine Listed.nil fun k v h => ?_
  cases h with
  | nested h => exact Additive.not_owned h
  | repeated h => exact Additive.not_owned h

theorem seenAfter_owned (seen : Name → Prop) (pieces : List Piece) :
    SeenAfter seen (owned pieces) = seen := by
  funext x
  refine propext (or_iff_left ?_)
  rintro ⟨k, f, h, -⟩
  exact Additive.not_owned h

section Child

variable {n : Node} {fs : List Function}

theorem hoists_child {f : Function} : Hoists [.child n] k f ↔ k = 0 ∧ n.definition? = some f := by
  simp only [Picked, hasChild_child]
  constructor
  · rintro ⟨m, ⟨rfl, rfl⟩, hf⟩
    exact ⟨rfl, hf⟩
  · rintro ⟨rfl, hf⟩
    exact ⟨n, ⟨rfl, rfl⟩, hf⟩

theorem seenAfter_child {x : Name} : SeenAfter seen [.child n] x ↔
    seen x ∨ ∃ f, n.definition? = some f ∧ f.name = x := by
  simp only [SeenAfter, hoists_child]
  refine or_congr_right ⟨?_, ?_⟩
  · rintro ⟨-, f, ⟨rfl, hf⟩, hx⟩
    exact ⟨f, hf, hx⟩
  · rintro ⟨f, hf, hx⟩
    exact ⟨0, f, ⟨rfl, hf⟩, hx⟩

theorem objected_child {v : Violation} : Objected seen [.child n] k v ↔
    (k = 0 ∧ ∃ f, n.definition? = some f ∧ seen f.name ∧ v = .duplicateFunction f.name) ∨
      ∃ f, Picked Occurs Node.definition? n.portions k f ∧ .notHoisted f.name = v := by
  constructor
  · rintro (⟨m, hm, hf⟩ | ⟨h, hseen⟩)
    · exact Or.inr ⟨_, ⟨m, inside_child.mp hm, hf⟩, rfl⟩
    · obtain ⟨rfl, hf⟩ := hoists_child.mp h
      rcases hseen with hseen | ⟨j, g, hlt, -⟩
      · exact Or.inl ⟨rfl, _, hf, hseen, rfl⟩
      · exact absurd hlt (Nat.not_lt_zero j)
  · rintro (⟨rfl, f, hf, hseen, rfl⟩ | ⟨f, ⟨m, hm, hf⟩, rfl⟩)
    · exact .repeated (hoists_child.mpr ⟨rfl, hf⟩) (Or.inl hseen)
    · exact .nested ⟨m, inside_child.mpr hm, hf⟩

theorem reads_objected_child (h : Reads (Picked Occurs Node.definition?) n.portions fs)
    (hn : ∀ f, n.definition? = some f → ¬ seen f.name) :
    Reads (Objected seen) [.child n] (fs.map (.notHoisted ·.name)) := by
  rw [Reads, length_printed_child]
  refine Listed.map _ h fun k v => objected_child.trans (or_iff_right ?_)
  rintro ⟨-, f, hf, hseen, -⟩
  exact hn f hf hseen

theorem reads_objected_repeated {depth : Nat} {f : Function}
    (h : Reads (Picked Occurs Node.definition?) (Node.stmt depth (.function f)).portions fs)
    (hseen : seen f.name) : Reads (Objected seen) [.child (.stmt depth (.function f))]
      (.duplicateFunction f.name :: fs.map (.notHoisted ·.name)) := by
  rw [Reads, length_printed_child]
  have hfresh := Listed.map (fun f : Function => Violation.notHoisted f.name) h fun _ _ => Iff.rfl
  refine Listed.cons hfresh (Nat.succ_pos _) ?_ fun k v => ?_
  · rintro k v ⟨g, ⟨m, hm, -⟩, -⟩
    exact pos_of_occurs_own hm
  · rw [objected_child]
    refine or_congr_left (and_congr_right fun _ => ⟨?_, ?_⟩)
    · rintro ⟨g, hg, -, rfl⟩
      cases hg
      rfl
    · rintro rfl
      exact ⟨f, rfl, hseen, rfl⟩

end Child

def objections (seen : List Name) : List Stmt → List Violation
  | [] => []
  | .function f :: ss =>
    (if f.name ∈ seen then [.duplicateFunction f.name] else []) ++
      (Block.definitions f.body).map (.notHoisted ·.name) ++ objections (f.name :: seen) ss
  | s :: ss => (Block.definitions [s]).map (.notHoisted ·.name) ++ objections seen ss

theorem objections_function (seen : List Name) (f : Function) (ss : List Stmt) :
    objections seen (.function f :: ss) =
      (if f.name ∈ seen then [.duplicateFunction f.name] else []) ++
        (Block.definitions f.body).map (.notHoisted ·.name) ++ objections (f.name :: seen) ss := rfl

theorem objections_of_ne {s : Stmt} (hs : ∀ f, s ≠ .function f) (seen : List Name)
    (ss : List Stmt) : objections seen (s :: ss) =
      (Block.definitions [s]).map (.notHoisted ·.name) ++ objections seen ss := by
  cases s with
  | function f => exact absurd rfl (hs f)
  | _ => rfl

theorem head?_objections (seen : List Name) (ss : List Stmt) :
    (objections seen ss).head? = hoistingViolation? seen ss := by
  induction ss using rootInduction generalizing seen with
  | nil => rfl
  | function f ss ih =>
      rw [objections_function, hoistingViolation?_function]
      split
      · rfl
      · rw [List.nil_append, List.head?_append, List.head?_map, ih, nested?]
  | other s ss hs ih =>
      rw [objections_of_ne hs, hoistingViolation?_of_ne hs, List.head?_append, List.head?_map, ih,
        nested?]

theorem reads_definitions (depth : Nat) (b : Block) :
    Reads (Picked Occurs Node.definition?) (linePortions depth b) (Block.definitions b) := by
  rw [Block.definitions, List.filterMap_eq_flatMap_toList]
  exact reader_definitions.reads_lines depth b

theorem reads_objected_lines (depth : Nat) (seen : List Name) (ss : List Stmt) :
    Reads (Objected (· ∈ seen)) (linePortions depth ss) (objections seen ss) := by
  have hline {s : Stmt} {ss : List Stmt} : linePortions depth (s :: ss) =
      owned [.newline depth] ++ ([.child (.stmt depth s)] ++ linePortions depth ss) := rfl
  have hafter {s : Stmt} {ss : List Stmt} {seen seen' : List Name} {vs ws : List Violation}
      (h : Reads (Objected (· ∈ seen)) [.child (.stmt depth s)] vs)
      (h' : Reads (Objected (· ∈ seen')) (linePortions depth ss) ws)
      (hseen : ∀ x, x ∈ seen' ↔ SeenAfter (· ∈ seen) [.child (.stmt depth s)] x) :
      Reads (Objected (· ∈ seen)) (linePortions depth (s :: ss)) (vs ++ ws) := by
    rw [show (fun x => x ∈ seen') = _ from funext fun x => propext (hseen x)] at h'
    rw [hline, ← List.nil_append (vs ++ ws)]
    refine (reads_objected_owned _).append_objected ?_
    rw [seenAfter_owned]
    exact h.append_objected h'
  induction ss using rootInduction generalizing seen with
  | nil => exact reads_objected_owned []
  | function f ss ih =>
      have hbody : Reads (Picked Occurs Node.definition?)
          (Node.stmt depth (.function f)).portions (Block.definitions f.body) :=
        (reads_block depth (reads_definitions (depth + 1) f.body)).after_owned _
      rw [objections_function]
      refine hafter ?_ (ih (f.name :: seen)) fun x => ?_
      · split
        · next hmem => exact reads_objected_repeated hbody hmem
        · next hmem =>
          refine reads_objected_child hbody fun g hg => ?_
          cases hg
          exact hmem
      · rw [seenAfter_child, List.mem_cons, or_comm]
        simp [Node.definition?, eq_comm]
  | other s ss hs ih =>
      have hs' : Node.definition? (.stmt depth s) = none := reader_definitions.stmt depth hs
      have hinside : Reads (Picked Occurs Node.definition?) (Node.stmt depth s).portions
          (Block.definitions [s]) := by
        rw [← reads_child hs', Block.definitions, Block.items_singleton,
          List.filterMap_eq_flatMap_toList]
        exact reader_definitions.reads_stmt depth s
      rw [objections_of_ne hs]
      refine hafter (reads_objected_child hinside fun f hf => ?_) (ih seen) fun x => ?_
      · cases hs'.symm.trans hf
      · rw [seenAfter_child, hs']
        simp

theorem reads_objected_block (depth : Nat) (seen : List Name) (b : Block) :
    Reads (Objected (· ∈ seen)) (blockPortions depth b) (objections seen b) := by
  rw [blockPortions]
  split
  · next hempty =>
    rw [List.isEmpty_iff.mp hempty]
    exact reads_objected_owned _
  · have hlines := reads_objected_lines (depth + 1) seen b
    rw [← seenAfter_owned (· ∈ seen) [.mark .leftBrace]] at hlines
    have hbefore := (reads_objected_owned _).append_objected hlines
    have hafter := hbefore.append_objected (reads_objected_owned [.newline depth, .mark .rightBrace])
    rwa [List.append_nil] at hafter

end Hoisting

namespace Program

variable (p : Program)

def portions : List Portion := blockPortions 0 p.root

/-- The node is printed behind so many pieces of the program. -/
def OccursAt (k : Nat) (n : Node) : Prop := Occurs p.portions k n

def DefinedAt (k : Nat) (f : Function) : Prop := ∃ depth, p.OccursAt k (.stmt depth (.function f))

/-- The definition at the place is a statement of the root. -/
def HoistedAt (k : Nat) (f : Function) : Prop :=
  ∃ depth, HasChild p.portions k (.stmt depth (.function f))

inductive HoistingViolatedAt (k : Nat) : Violation → Prop
  | nested {f : Function} (h : p.DefinedAt k f) (hnot : ¬ p.HoistedAt k f) :
      HoistingViolatedAt k (.notHoisted f.name)
  | repeated {f g : Function} {j : Nat} (h : p.HoistedAt k f) (hlt : j < k) (hg : p.HoistedAt j g)
      (hname : g.name = f.name) : HoistingViolatedAt k (.duplicateFunction f.name)

/-- Of the definitions among the statements of the root, the function is the first one with the name. -/
def DefinesFirst (c : Name) (f : Function) : Prop :=
  f.name = c ∧ ∃ before after, p.root = before ++ .function f :: after ∧
    ∀ g, Stmt.function g ∈ before → g.name ≠ c

/-- The call at the place does not fit the first definition of its callee. -/
inductive ArityViolatedAt (k : Nat) : Violation → Prop
  | mismatch {c : Name} {arguments : List Expr} {bound : Nat} {f : Function}
      (hcall : p.OccursAt k (.value (.call c arguments) bound)) (hf : p.DefinesFirst c f)
      (hfit : ¬ (f.parameters.length = arguments.length ∧ f.returns.length = bound)) :
      ArityViolatedAt k
        (.arityMismatch ⟨c, arguments.length, bound⟩ f.parameters.length f.returns.length)

section Hoisting

variable {p} {k : Nat} {f : Function}

theorem definedAt_iff : p.DefinedAt k f ↔ p.HoistedAt k f ∨ Nests p.portions k f := by
  rw [Nests, picked_definition?, HoistedAt, DefinedAt, ← exists_or]
  exact exists_congr fun depth => occurs_iff

theorem HoistedAt.not_nests (h : p.HoistedAt k f) : ¬ Nests p.portions k f := by
  intro hnests
  -- Were the name seen, there would be two violations at one place.
  have hrepeated : Objected (· ∈ [f.name]) p.portions k (.duplicateFunction f.name) :=
    .repeated (picked_definition?.mpr h) (Or.inl (List.mem_singleton_self _))
  cases (reads_objected_block 0 [f.name] p.root).eq_of_same_place hrepeated (.nested hnests)

theorem hoistingViolatedAt_iff {v : Violation} :
    p.HoistingViolatedAt k v ↔ Objected (· ∈ []) p.portions k v := by
  constructor
  · rintro (⟨h, hnot⟩ | ⟨h, hlt, hg, hname⟩)
    · exact .nested ((definedAt_iff.mp h).resolve_left hnot)
    · exact .repeated (picked_definition?.mpr h)
        (Or.inr ⟨_, _, hlt, picked_definition?.mpr hg, hname⟩)
  · rintro (h | ⟨h, hseen⟩)
    · exact .nested (definedAt_iff.mpr (Or.inr h)) fun hhoisted => hhoisted.not_nests h
    · rcases hseen with hseen | ⟨j, g, hlt, hg, hname⟩
      · cases hseen
      · exact .repeated (picked_definition?.mp h) hlt (picked_definition?.mp hg) hname

theorem verifyHoisting_iff (p : Program) :
    (p.verifyHoisting = .ok () ↔ ∀ k v, ¬ p.HoistingViolatedAt k v) ∧
      ∀ v, p.verifyHoisting = .error v ↔ PrintedFirst p.HoistingViolatedAt v := by
  have hviolated : p.HoistingViolatedAt = Objected (· ∈ []) p.portions :=
    funext fun k => funext fun v => propext hoistingViolatedAt_iff
  rw [verifyHoisting, ← head?_objections, hviolated]
  exact report_head?_of_listed (reads_objected_block 0 [] p.root)

theorem forall_not_hoistingViolatedAt : (∀ k v, ¬ p.HoistingViolatedAt k v) ↔
    (∀ k f, p.DefinedAt k f → p.HoistedAt k f) ∧
      ∀ j k f g, p.DefinedAt j f → p.DefinedAt k g → f.name = g.name → j = k := by
  constructor
  · intro h
    have hhoisted (k : Nat) (f : Function) (hf : p.DefinedAt k f) : p.HoistedAt k f := by
      by_contra hnot
      exact h k _ (.nested hf hnot)
    refine ⟨hhoisted, fun j k f g hf hg hname => ?_⟩
    rcases Nat.lt_trichotomy j k with hlt | rfl | hlt
    · exact absurd (.repeated (hhoisted k g hg) hlt (hhoisted j f hf) hname) (h k _)
    · rfl
    · exact absurd (.repeated (hhoisted j f hf) hlt (hhoisted k g hg) hname.symm) (h j _)
  · rintro ⟨hhoisted, hunique⟩ k v (⟨hf, hnot⟩ | ⟨hf, hlt, hg, hname⟩)
    · exact hnot (hhoisted k _ hf)
    · have hsame := hunique _ _ _ _ (definedAt_iff.mpr (Or.inl hg)) (definedAt_iff.mpr (Or.inl hf)) hname
      exact Nat.ne_of_lt hlt hsame

end Hoisting

section Arity

variable {p} in
theorem function?_eq_some_iff {c : Name} {f : Function} :
    p.function? c = some f ↔ p.DefinesFirst c f := by
  constructor
  · intro h
    obtain rfl := name_of_function? h
    obtain ⟨e, he, rfl⟩ := exists_mem_index h
    obtain ⟨-, before, after, hroot, -, hbefore⟩ := mem_indexFrom.mp he
    exact ⟨rfl, before, after, hroot, hbefore⟩
  · rintro ⟨rfl, before, after, hroot, hbefore⟩
    have hfirst : IndexEntry.IsFirst ⟨before.length, f⟩ p.root 0 :=
      ⟨before, after, hroot, (Nat.zero_add _).symm, hbefore⟩
    exact hfirst.function?

theorem arityViolatedAt_iff {k : Nat} {v : Violation} : p.ArityViolatedAt k v ↔
    ∃ site, Picked Occurs Node.callSite? p.portions k site ∧ p.arityViolation? site = some v := by
  constructor
  · rintro ⟨hcall, hf, hfit⟩
    refine ⟨_, ⟨_, hcall, rfl⟩, ?_⟩
    rw [arityViolation?, function?_eq_some_iff.mpr hf]
    exact if_neg hfit
  · rintro ⟨site, ⟨n, hn, hsite⟩, hv⟩
    rw [arityViolation?] at hv
    cases n with
    | stmt depth s => cases hsite
    | value e bound =>
        cases e with
        | var | literal => cases hsite
        | call c arguments =>
            cases hsite
            cases hf : p.function? c with
            | none => simp only [hf] at hv; cases hv
            | some f =>
                simp only [hf] at hv
                split at hv
                · cases hv
                · next hfit =>
                  cases hv
                  exact .mismatch hn (function?_eq_some_iff.mp hf) hfit

theorem verifyArity_iff : (p.verifyArity = .ok () ↔ ∀ k v, ¬ p.ArityViolatedAt k v) ∧
    ∀ v, p.verifyArity = .error v ↔ PrintedFirst p.ArityViolatedAt v := by
  have hsites : Reads (Picked Occurs Node.callSite?) p.portions (Block.callSites p.root) :=
    reads_block 0 (reader_callSites.reads_lines 1 p.root)
  rw [verifyArity, ← List.head?_filterMap]
  exact report_head?_of_listed (hsites.filterMap _ fun k v => p.arityViolatedAt_iff)

theorem forall_not_arityViolatedAt : (∀ k v, ¬ p.ArityViolatedAt k v) ↔
    ∀ k c arguments bound, p.OccursAt k (.value (.call c arguments) bound) →
      ∀ f, p.DefinesFirst c f →
        arguments.length = f.parameters.length ∧ bound = f.returns.length := by
  constructor
  · intro h k c arguments bound hcall f hf
    by_contra hfit
    exact h k _ (.mismatch hcall hf fun hsame => hfit ⟨hsame.1.symm, hsame.2.symm⟩)
  · rintro h k v ⟨hcall, hf, hfit⟩
    obtain ⟨hpassed, hbound⟩ := h k _ _ _ hcall _ hf
    exact hfit ⟨hpassed.symm, hbound.symm⟩

end Arity

theorem OccursAt.starts {p : Program} {k : Nat} {n : Node} (h : p.OccursAt k n) :
    n.pieces <+: (Block.pieces 0 p.root).drop k := by
  rw [← printed_blockPortions]
  exact Occurs.starts h

/-- The verification passes if every definition is a statement of the root and has a name of its own,
and every call of a defined function, wherever it stands, passes and binds as many values as the first
definition of the name takes and returns. Otherwise what is reported is the violation that is printed
first. -/
theorem verification_reports_first :
    (∀ k n, p.OccursAt k n → n.pieces <+: (Block.pieces 0 p.root).drop k) ∧
    (p.verifyHoisting = .ok () ↔
      (∀ k f, p.DefinedAt k f → p.HoistedAt k f) ∧
        ∀ j k f g, p.DefinedAt j f → p.DefinedAt k g → f.name = g.name → j = k) ∧
    (p.verifyArity = .ok () ↔
      ∀ k c arguments bound, p.OccursAt k (.value (.call c arguments) bound) →
        ∀ f, p.DefinesFirst c f →
          arguments.length = f.parameters.length ∧ bound = f.returns.length) ∧
    (∀ v, p.verifyHoisting = .error v ↔ PrintedFirst p.HoistingViolatedAt v) ∧
    ∀ v, p.verifyArity = .error v ↔ PrintedFirst p.ArityViolatedAt v := by
  obtain ⟨hhoisted, hfirst⟩ := p.verifyHoisting_iff
  obtain ⟨harity, hfirst'⟩ := p.verifyArity_iff
  exact ⟨fun _ _ h => h.starts, hhoisted.trans forall_not_hoistingViolatedAt,
    harity.trans p.forall_not_arityViolatedAt, hfirst, hfirst'⟩

/-- A call without the argument that the first definition of its callee takes, and behind it a second
definition, which the last call fits, with another one inside. -/
def redefined : Program where
  root := [.function ⟨"f", ["a"], ["r"], [.assignment ["r"] (.var "a")]⟩,
    .expression (.call "log" [.call "f" []]),
    .function ⟨"f", [], ["r"], [.function ⟨"g", [], [], []⟩]⟩,
    .declaration ["x"] (some (.call "f" []))]

theorem verification_reports_first_redefined :
    (redefined.verifyHoisting = .error (.duplicateFunction "f") ∧
      PrintedFirst redefined.HoistingViolatedAt (.duplicateFunction "f")) ∧
    redefined.verifyArity = .error (.arityMismatch ⟨"f", 0, 1⟩ 1 1) ∧
      PrintedFirst redefined.ArityViolatedAt (.arityMismatch ⟨"f", 0, 1⟩ 1 1) := by
  obtain ⟨-, -, -, hhoisting, harity⟩ := redefined.verification_reports_first
  have hrepeated : redefined.verifyHoisting = .error (.duplicateFunction "f") := by decide
  have hmismatch : redefined.verifyArity = .error (.arityMismatch ⟨"f", 0, 1⟩ 1 1) := by decide
  exact ⟨⟨hrepeated, (hhoisting _).mp hrepeated⟩, hmismatch, (harity _).mp hmismatch⟩

end Program

end YulPruner
