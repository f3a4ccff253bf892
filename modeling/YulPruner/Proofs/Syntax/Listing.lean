import YulPruner.Proofs.Syntax.Items
import YulPruner.Proofs.Syntax.Occurrence
import Mathlib.Data.List.Nodup

namespace YulPruner

variable {α β : Type}

/-- What stands where, if `R` tells so, is `as` in the order of places, all of them before `size`. -/
def Listed (R : Nat → α → Prop) (size : Nat) (as : List α) : Prop :=
  ∃ places : List (Nat × α), places.map Prod.snd = as ∧ places.Pairwise (·.1 < ·.1) ∧
    (∀ k a, (k, a) ∈ places ↔ R k a) ∧ ∀ place ∈ places, place.1 < size

namespace Listed

variable {R R₁ R₂ : Nat → α → Prop} {m n : Nat} {as bs : List α}

protected theorem nil (hR : ∀ k a, ¬ R k a) : Listed R n [] :=
  ⟨[], rfl, List.Pairwise.nil, fun k a => iff_of_false List.not_mem_nil (hR k a), nofun⟩

theorem cons {a : α} (h : Listed R₁ n as) (hn : 0 < n) (hpos : ∀ k b, R₁ k b → 0 < k)
    (hR : ∀ k b, R k b ↔ (k = 0 ∧ b = a) ∨ R₁ k b) : Listed R n (a :: as) := by
  obtain ⟨places, rfl, hsorted, hmem, hsize⟩ := h
  refine ⟨(0, a) :: places, rfl, ?_, fun k b => ?_, fun place hplace => ?_⟩
  · exact List.pairwise_cons.mpr ⟨fun place hplace => hpos _ _ ((hmem _ _).mp hplace), hsorted⟩
  · rw [List.mem_cons, Prod.mk.injEq, hmem, hR]
  · rcases List.mem_cons.mp hplace with rfl | hplace
    · exact hn
    · exact hsize place hplace

theorem append (h₁ : Listed R₁ m as) (h₂ : Listed R₂ n bs)
    (hR : ∀ k a, R k a ↔ R₁ k a ∨ ∃ i, k = m + i ∧ R₂ i a) : Listed R (m + n) (as ++ bs) := by
  obtain ⟨left, rfl, hleft, hmem, hsize⟩ := h₁
  obtain ⟨right, rfl, hright, hmem', hsize'⟩ := h₂
  refine ⟨left ++ right.map fun place => (m + place.1, place.2), ?_, ?_, fun k a => ?_,
    fun place hplace => ?_⟩
  · rw [List.map_append, List.map_map]
    rfl
  · refine List.pairwise_append.mpr ⟨hleft, ?_, fun place hplace other hother => ?_⟩
    · exact List.pairwise_map.mpr (hright.imp fun hlt => Nat.add_lt_add_left hlt m)
    · obtain ⟨shifted, -, rfl⟩ := List.mem_map.mp hother
      exact (hsize place hplace).trans_le (Nat.le_add_right ..)
  · rw [List.mem_append, List.mem_map, hmem, hR]
    refine or_congr_right ⟨?_, ?_⟩
    · rintro ⟨⟨i, b⟩, hplace, heq⟩
      cases heq
      exact ⟨i, rfl, (hmem' i b).mp hplace⟩
    · rintro ⟨i, rfl, ha⟩
      exact ⟨(i, a), (hmem' i a).mpr ha, rfl⟩
  · rcases List.mem_append.mp hplace with hplace | hplace
    · exact (hsize place hplace).trans_le (Nat.le_add_right ..)
    · obtain ⟨shifted, hshifted, rfl⟩ := List.mem_map.mp hplace
      exact Nat.add_lt_add_left (hsize' shifted hshifted) m

theorem filterMap {S : Nat → β → Prop} (pick : α → Option β) (h : Listed R n as)
    (hS : ∀ k b, S k b ↔ ∃ a, R k a ∧ pick a = some b) : Listed S n (as.filterMap pick) := by
  obtain ⟨places, rfl, hsorted, hmem, hsize⟩ := h
  have hplace {place : Nat × β} : place ∈ places.filterMap (fun q => (pick q.2).map (q.1, ·)) ↔
      ∃ a, (place.1, a) ∈ places ∧ pick a = some place.2 := by
    rw [List.mem_filterMap]
    constructor
    · rintro ⟨⟨k, a⟩, ha, heq⟩
      obtain ⟨b, hb, rfl⟩ := Option.map_eq_some_iff.mp heq
      exact ⟨a, ha, hb⟩
    · rintro ⟨a, ha, hb⟩
      exact ⟨_, ha, Option.map_eq_some_iff.mpr ⟨_, hb, rfl⟩⟩
  refine ⟨places.filterMap fun q => (pick q.2).map (q.1, ·), ?_, ?_, fun k b => ?_,
    fun place hmap => ?_⟩
  · rw [List.map_filterMap, List.filterMap_map]
    refine List.filterMap_congr fun q _ => ?_
    rw [Option.map_map]
    exact Option.map_id'
  · refine List.pairwise_filterMap.mpr (hsorted.imp fun hlt b hb c hc => ?_)
    obtain ⟨_, -, rfl⟩ := Option.map_eq_some_iff.mp hb
    obtain ⟨_, -, rfl⟩ := Option.map_eq_some_iff.mp hc
    exact hlt
  · rw [hplace, hS]
    exact exists_congr fun a => and_congr_left fun _ => hmem k a
  · obtain ⟨a, ha, -⟩ := hplace.mp hmap
    exact hsize _ ha

theorem map {S : Nat → β → Prop} (k : α → β) (h : Listed R n as)
    (hS : ∀ i b, S i b ↔ ∃ a, R i a ∧ k a = b) : Listed S n (as.map k) := by
  rw [← List.filterMap_eq_map]
  exact h.filterMap (some ∘ k) (by simpa using hS)

theorem eq_of_same_place (h : Listed R n as) {k : Nat} {a b : α} (ha : R k a) (hb : R k b) :
    a = b := by
  obtain ⟨places, -, hsorted, hmem, -⟩ := h
  have hnodup : (places.map Prod.fst).Nodup :=
    List.pairwise_map.mpr (hsorted.imp Nat.ne_of_lt)
  have heq := List.inj_on_of_nodup_map hnodup ((hmem k a).mpr ha) ((hmem k b).mpr hb) rfl
  exact congrArg Prod.snd heq

theorem head?_eq_some_iff (h : Listed R n as) {a : α} :
    as.head? = some a ↔ ∃ k, R k a ∧ ∀ j b, R j b → (j = k ∧ b = a) ∨ k < j := by
  obtain ⟨places, rfl, hsorted, hmem, -⟩ := h
  cases places with
  | nil =>
      refine iff_of_false nofun ?_
      rintro ⟨k, hk, -⟩
      cases (hmem k a).mpr hk
  | cons place places =>
      obtain ⟨k, c⟩ := place
      have hlater {j : Nat} {b : α} (hb : R j b) : (j = k ∧ b = c) ∨ k < j := by
        rcases List.mem_cons.mp ((hmem j b).mpr hb) with heq | hb
        · cases heq
          exact Or.inl ⟨rfl, rfl⟩
        · exact Or.inr ((List.pairwise_cons.mp hsorted).1 _ hb)
      have hk : R k c := (hmem k c).mp List.mem_cons_self
      rw [List.map_cons, List.head?_cons, Option.some_inj]
      constructor
      · rintro rfl
        exact ⟨k, hk, fun j b => hlater⟩
      · rintro ⟨i, hi, hfirst⟩
        rcases hlater hi with ⟨rfl, rfl⟩ | hlt
        · rfl
        · rcases hfirst k c hk with ⟨rfl, -⟩ | hgt
          · exact absurd hlt (Nat.lt_irrefl k)
          · exact absurd hgt hlt.asymm

theorem head?_eq_none_iff (h : Listed R n as) : as.head? = none ↔ ∀ k a, ¬ R k a := by
  obtain ⟨places, rfl, -, hmem, -⟩ := h
  rw [List.head?_eq_none_iff, List.map_eq_nil_iff, List.eq_nil_iff_forall_not_mem]
  constructor
  · exact fun hnone k a ha => hnone _ ((hmem k a).mpr ha)
  · rintro hnone ⟨k, a⟩ ha
    exact hnone k a ((hmem k a).mp ha)

end Listed

/-- What `Q` finds among portions is found in the parts of them that are not pieces, and each part adds
to the places in the next one. -/
class Additive (Q : List Portion → Nat → α → Prop) : Prop where
  not_owned {pieces : List Piece} {k : Nat} {a : α} : ¬ Q (owned pieces) k a
  append_iff {as bs : List Portion} {k : Nat} {a : α} : Q (as ++ bs) k a ↔
    Q as k a ∨ ∃ i, k = (printed as).length + i ∧ Q bs i a

/-- What `Q` finds among the portions is `as`, in the order in which it is printed. -/
def Reads (Q : List Portion → Nat → α → Prop) (portions : List Portion) (as : List α) : Prop :=
  Listed (Q portions) (printed portions).length as

section Reads

variable {Q : List Portion → Nat → α → Prop} [Additive Q] {portions portions' : List Portion}
  {as bs : List α}

theorem reads_owned (pieces : List Piece) : Reads Q (owned pieces) [] :=
  Listed.nil fun _ _ => Additive.not_owned

theorem Reads.append (h : Reads Q portions as) (h' : Reads Q portions' bs) :
    Reads Q (portions ++ portions') (as ++ bs) := by
  rw [Reads, printed_append, List.length_append]
  exact Listed.append h h' fun k a => Additive.append_iff

theorem Reads.then_owned (h : Reads Q portions as) (pieces : List Piece) :
    Reads Q (portions ++ owned pieces) as := by
  have happend := h.append (reads_owned pieces)
  rwa [List.append_nil] at happend

theorem Reads.after_owned (h : Reads Q portions as) (pieces : List Piece) :
    Reads Q (owned pieces ++ portions) as :=
  (reads_owned pieces).append h

theorem reads_block (depth : Nat) {b : Block} (hlines : Reads Q (linePortions (depth + 1) b) as) :
    Reads Q (blockPortions depth b) as := by
  rw [blockPortions]
  split
  · next hempty =>
    rw [List.isEmpty_iff.mp hempty] at hlines
    have hpieces := hlines.after_owned [.mark .leftBrace, .space, .mark .rightBrace]
    rwa [linePortions, List.flatMap_nil, List.append_nil] at hpieces
  · exact (hlines.after_owned _).then_owned _

end Reads

theorem length_printed_child (n : Node) :
    (printed [.child n]).length = (printed n.portions).length := by
  rw [printed_child, n.printed_portions]

instance : Additive HasChild := ⟨fun h => not_hasChild_owned _ h, hasChild_append⟩

instance : Additive Inside := ⟨fun h => not_inside_owned _ h, inside_append⟩

instance : Additive Occurs where
  not_owned h := (occurs_iff.mp h).elim Additive.not_owned Additive.not_owned
  append_iff {as bs k n} := by
    simp only [occurs_iff, Additive.append_iff (Q := HasChild), Additive.append_iff (Q := Inside)]
    grind

def Picked (Q : List Portion → Nat → Node → Prop) (pick : Node → Option α)
    (portions : List Portion) (k : Nat) (a : α) : Prop :=
  ∃ n, Q portions k n ∧ pick n = some a

instance {Q : List Portion → Nat → Node → Prop} [Additive Q] {pick : Node → Option α} :
    Additive (Picked Q pick) where
  not_owned := by
    rintro pieces k a ⟨n, hn, -⟩
    exact Additive.not_owned hn
  append_iff := by
    intro as bs k a
    simp only [Picked, Additive.append_iff (Q := Q)]
    constructor
    · rintro ⟨n, hn | ⟨i, rfl, hn⟩, hpick⟩
      · exact Or.inl ⟨n, hn, hpick⟩
      · exact Or.inr ⟨i, rfl, n, hn, hpick⟩
    · rintro (⟨n, hn, hpick⟩ | ⟨i, rfl, n, hn, hpick⟩)
      · exact ⟨n, Or.inl hn, hpick⟩
      · exact ⟨n, Or.inr ⟨i, rfl, hn⟩, hpick⟩

section Picked

variable {pick : Node → Option α} {portions : List Portion} {as : List α} {n : Node}

theorem picked_child {k : Nat} {a : α} : Picked Occurs pick [.child n] k a ↔
    (k = 0 ∧ pick n = some a) ∨ Picked Occurs pick n.portions k a := by
  simp only [Picked, occurs_child]
  constructor
  · rintro ⟨m, ⟨rfl, rfl⟩ | hm, hpick⟩
    · exact Or.inl ⟨rfl, hpick⟩
    · exact Or.inr ⟨m, hm, hpick⟩
  · rintro (⟨rfl, hpick⟩ | ⟨m, hm, hpick⟩)
    · exact ⟨n, Or.inl ⟨rfl, rfl⟩, hpick⟩
    · exact ⟨m, Or.inr hm, hpick⟩

theorem reads_child (hn : pick n = none) :
    Reads (Picked Occurs pick) [.child n] as ↔ Reads (Picked Occurs pick) n.portions as := by
  have hsame : Picked Occurs pick [.child n] = Picked Occurs pick n.portions := by
    funext k a
    rw [picked_child, hn]
    simp
  rw [Reads, Reads, length_printed_child, hsame]

theorem Reads.child (h : Reads (Picked Occurs pick) n.portions as) (hn : pick n = none) :
    Reads (Picked Occurs pick) [.child n] as :=
  (reads_child hn).mpr h

theorem pos_of_occurs_own {piece : Piece} {k : Nat} (h : Occurs (.own piece :: portions) k n) :
    0 < k := by
  have hpos {k : Nat} {n : Node} (h : HasChild (.own piece :: portions) k n) : 0 < k := by
    cases h with
    | tail h => exact Nat.add_pos_left Nat.one_pos _
  cases h with
  | child h => exact hpos h
  | inside h hs => exact Nat.add_pos_left (hpos h) _

theorem Reads.child_own {piece : Piece} {a : α} (h : Reads (Picked Occurs pick) n.portions as)
    (hown : n.portions = .own piece :: portions) (hn : pick n = some a) :
    Reads (Picked Occurs pick) [.child n] (a :: as) := by
  rw [Reads, length_printed_child]
  refine Listed.cons h ?_ ?_ fun k b => ?_
  · rw [hown]
    exact Nat.succ_pos _
  · rintro k b ⟨m, hm, -⟩
    rw [hown] at hm
    exact pos_of_occurs_own hm
  · rw [picked_child, hn, Option.some_inj]
    exact or_congr_left (and_congr_right fun _ => eq_comm)

end Picked

/-- What is picked among the nodes is what `read` gives for the items. -/
structure Reader (pick : Node → Option α) (read : Item → List α) : Prop where
  value (e : Expr) (bound : Nat) :
    Reads (Picked Occurs pick) [.child (.value e bound)] (read (.value e bound))
  definition (depth : Nat) (f : Function) :
    read (.definition f) = (pick (.stmt depth (.function f))).toList
  stmt (depth : Nat) {s : Stmt} : (∀ f, s ≠ .function f) → pick (.stmt depth s) = none
  heading (item : Item) : (∀ f, item ≠ .definition f) → (∀ e bound, item ≠ .value e bound) →
    read item = []

namespace Reader

variable {pick : Node → Option α} {read : Item → List α}

theorem child (h : Reader pick read) {depth : Nat} {s : Stmt} {as : List α} (hs : ∀ f, s ≠ .function f)
    (hinside : Reads (Picked Occurs pick) (Node.stmt depth s).portions as) :
    Reads (Picked Occurs pick) [.child (.stmt depth s)] as :=
  hinside.child (h.stmt depth hs)

theorem child_function (h : Reader pick read) {depth : Nat} {f : Function} {as : List α}
    (hinside : Reads (Picked Occurs pick) (Node.stmt depth (.function f)).portions as) :
    Reads (Picked Occurs pick) [.child (.stmt depth (.function f))] (read (.definition f) ++ as) := by
  rw [h.definition depth f]
  cases hpick : pick (.stmt depth (.function f)) with
  | none => exact hinside.child hpick
  | some a => exact hinside.child_own rfl hpick

mutual

theorem reads_stmt (h : Reader pick read) (depth : Nat) : ∀ s : Stmt,
    Reads (Picked Occurs pick) [.child (.stmt depth s)] (s.items.flatMap read)
  | .expression e => by
      have hitems : (Stmt.expression e).items.flatMap read = read (.value e 0) := by
        simp [Stmt.items]
      rw [hitems]
      exact h.child nofun (h.value e 0)
  | .assignment targets e => by
      have hitems : (Stmt.assignment targets e).items.flatMap read =
          read (.value e targets.length) := by
        simp [Stmt.items, h.heading (.assignment targets) nofun nofun]
      rw [hitems]
      exact h.child nofun (((h.value e _).after_owned _).after_owned _)
  | .declaration names none => by
      have hitems : (Stmt.declaration names none).items.flatMap read = [] := by
        simp [Stmt.items, h.heading (.declaration names) nofun nofun]
      rw [hitems]
      exact h.child nofun ((reads_owned []).after_owned _)
  | .declaration names (some e) => by
      have hitems : (Stmt.declaration names (some e)).items.flatMap read =
          read (.value e names.length) := by
        simp [Stmt.items, h.heading (.declaration names) nofun nofun]
      rw [hitems]
      exact h.child nofun (((h.value e _).after_owned _).after_owned _)
  | .function ⟨name, parameters, returns, body⟩ => by
      rw [Stmt.items, List.flatMap_cons]
      exact h.child_function ((reads_block depth (h.reads_lines (depth + 1) body)).after_owned _)
  | .conditional condition body => by
      have hitems : (Stmt.conditional condition body).items.flatMap read =
          read (.value condition 1) ++ (Block.items body).flatMap read := by
        simp [Stmt.items, h.heading .conditional nofun nofun]
      have hbody := reads_block depth (h.reads_lines (depth + 1) body)
      rw [hitems]
      exact h.child nofun ((((h.value condition 1).after_owned _).then_owned _).append hbody)
  | .switch scrutinee cases => by
      have hitems : (Stmt.switch scrutinee cases).items.flatMap read =
          read (.value scrutinee 1) ++ (Case.items cases).flatMap read := by
        simp [Stmt.items, h.heading .switch nofun nofun]
      rw [hitems]
      exact h.child nofun (((h.value scrutinee 1).after_owned _).append (h.reads_cases depth cases))
  | .loop pre condition post body => by
      have hitems : (Stmt.loop pre condition post body).items.flatMap read =
          (Block.items pre).flatMap read ++ read (.value condition 1) ++
            (Block.items post).flatMap read ++ (Block.items body).flatMap read := by
        simp [Stmt.items, h.heading .loop nofun nofun]
      have hpre := reads_block depth (h.reads_lines (depth + 1) pre)
      have hpost := reads_block depth (h.reads_lines (depth + 1) post)
      have hbody := reads_block depth (h.reads_lines (depth + 1) body)
      have hinit := (hpre.after_owned [.keyword .loop, .space]).then_owned [.space]
      have hturn := ((hinit.append (h.value condition 1)).then_owned [.space]).append hpost
      rw [hitems]
      exact h.child nofun ((hturn.then_owned [.space]).append hbody)
  | .jump j => h.child nofun (reads_owned _)
  | .block body => h.child nofun (reads_block depth (h.reads_lines (depth + 1) body))

theorem reads_lines (h : Reader pick read) (depth : Nat) : ∀ b : Block,
    Reads (Picked Occurs pick) (linePortions depth b) ((Block.items b).flatMap read)
  | [] => reads_owned []
  | s :: ss => by
      have hline := (h.reads_stmt depth s).after_owned [.newline depth]
      rw [Block.items, List.flatMap_append]
      exact hline.append (h.reads_lines depth ss)

theorem reads_cases (h : Reader pick read) (depth : Nat) : ∀ cases : List Case,
    Reads (Picked Occurs pick) (casePortions depth cases) ((Case.items cases).flatMap read)
  | [] => reads_owned []
  | ⟨value, body⟩ :: cases => by
      have hbody := reads_block depth (h.reads_lines (depth + 1) body)
      rw [Case.items, List.flatMap_append]
      exact (hbody.after_owned _).append (h.reads_cases depth cases)

end

end Reader

section Values

def Node.callSite? : Node → Option CallSite
  | .value (.call c arguments) bound => some ⟨c, arguments.length, bound⟩
  | _ => none

variable {pick : Node → Option α} {ofSite : CallSite → Option α}

mutual

theorem reads_value
    (h : ∀ e bound, pick (.value e bound) = (Node.callSite? (.value e bound)).bind ofSite)
    (bound : Nat) : ∀ e : Expr,
    Reads (Picked Occurs pick) [.child (.value e bound)] ((e.callSites bound).filterMap ofSite)
  | .var x => (reads_owned [.name x]).child (h _ _)
  | .literal l => (reads_owned [.token l.token]).child (h _ _)
  | .call c arguments => by
      have hinside : Reads (Picked Occurs pick) (Node.value (.call c arguments) bound).portions
          ((Expr.callSitesAll arguments).filterMap ofSite) :=
        ((reads_values h arguments).after_owned _).then_owned _
      rw [Expr.callSites, List.filterMap_cons]
      cases hsite : ofSite ⟨c, arguments.length, bound⟩ with
      | none => exact hinside.child ((h _ _).trans hsite)
      | some a => exact hinside.child_own rfl ((h _ _).trans hsite)

theorem reads_values
    (h : ∀ e bound, pick (.value e bound) = (Node.callSite? (.value e bound)).bind ofSite) :
    ∀ es : List Expr,
    Reads (Picked Occurs pick) (argumentPortions es) ((Expr.callSitesAll es).filterMap ofSite)
  | [] => reads_owned []
  | [e] => by
      rw [Expr.callSitesAll, Expr.callSitesAll, List.append_nil]
      exact reads_value h 1 e
  | e :: d :: es => by
      rw [Expr.callSitesAll, List.filterMap_append]
      exact ((reads_value h 1 e).then_owned _).append (reads_values h (d :: es))

end

theorem reader_callSites : Reader Node.callSite? Item.callSites where
  value e bound := by
    have hsites := reads_value (fun _ _ => (Option.bind_fun_some _).symm) bound e
    rwa [List.filterMap_some] at hsites
  definition _ _ := rfl
  stmt _ _ _ := rfl
  heading item hdefinition hvalue := by
    cases item with
    | value e bound => exact absurd rfl (hvalue e bound)
    | _ => rfl

def Node.definition? : Node → Option Function
  | .stmt _ (.function f) => some f
  | _ => none

theorem reader_definitions : Reader Node.definition? fun item => item.definition?.toList where
  value e bound := by
    have hnone : Reads (Picked Occurs Node.definition?) [.child (.value e bound)]
        ((e.callSites bound).filterMap fun _ => none) :=
      reads_value (fun _ _ => (Option.bind_fun_none _).symm) bound e
    rwa [List.filterMap_none] at hnone
  definition _ _ := rfl
  stmt depth {s} hs := by
    cases s with
    | function f => exact absurd rfl (hs f)
    | _ => rfl
  heading item hdefinition hvalue := by
    cases item with
    | definition f => exact absurd rfl (hdefinition f)
    | _ => rfl

end Values

end YulPruner
