import YulPruner.Proofs.Naming.Least

namespace YulPruner

namespace NameSupply

section Search

/-- The search that tries one number after the other, from the first one on until a number makes a
name not in use, ends with the second one. -/
inductive Finds (used : List Name) (hint : Name) : Nat → Nat → Prop
  | free {n : Nat} (h : numbered hint n ∉ used) : Finds used hint n n
  | taken {n m : Nat} (h : numbered hint n ∈ used) (hs : Finds used hint (n + 1) m) :
      Finds used hint n m

theorem finds_add {used : List Name} {hint : Name} {n k : Nat} (hfree : numbered hint (n + k) ∉ used)
    (htaken : ∀ i < k, numbered hint (n + i) ∈ used) : Finds used hint n (n + k) := by
  induction k generalizing n with
  | zero => exact .free hfree
  | succ k ih =>
      have hshift (i : Nat) : n + 1 + i = n + (i + 1) := by omega
      have hrest : Finds used hint (n + 1) (n + 1 + k) := by
        refine ih ?_ fun i hi => ?_
        · rwa [hshift]
        · rw [hshift]
          exact htaken (i + 1) (Nat.succ_lt_succ hi)
      rw [hshift] at hrest
      exact .taken (htaken 0 (Nat.zero_lt_succ k)) hrest

theorem finds_number (s : NameSupply) (hint : Name) :
    Finds s.used hint (s.start hint) (s.number hint) := by
  obtain ⟨-, hmem, htaken⟩ := List.find?_range'_eq_some.mp (s.find?_eq_some_number hint)
  obtain ⟨k, hk⟩ := Nat.exists_eq_add_of_le (List.mem_range'_1.mp hmem).1
  have hfree := s.numbered_number_not_mem hint
  rw [hk] at hfree htaken ⊢
  refine finds_add hfree fun i hi => ?_
  simpa using htaken (s.start hint + i) (Nat.le_add_right ..) (Nat.add_lt_add_left hi _)

end Search

section Avoids

/-- The names that the supply issued are all different, and `names` are none of them. -/
structure Avoids (names : List Name) (s : NameSupply) : Prop where
  nodup : s.issued.Nodup
  not_mem {x : Name} : x ∈ s.issued → x ∉ names
  mem_used {x : Name} : x ∈ names → x ∈ s.used

variable {names : List Name} {s : NameSupply}

theorem avoids_ofNames (names : List Name) : (ofNames names).Avoids names :=
  ⟨List.nodup_nil, nofun, fun hx => hx⟩

theorem Avoids.fresh (h : s.Avoids names) (hint : Name) : (fresh hint s).2.Avoids names := by
  have hnew := s.numbered_number_not_mem hint
  refine ⟨List.nodup_cons.mpr ⟨fun hmem => hnew (List.mem_append_left _ hmem), h.nodup⟩,
    fun {x} hx => ?_, fun hx => List.mem_cons_of_mem _ (h.mem_used hx)⟩
  rcases List.mem_cons.mp hx with rfl | hx
  · exact fun hmem => hnew (h.mem_used hmem)
  · exact h.not_mem hx

theorem Avoids.reserve (h : s.Avoids names) (x : Name) : (s.reserve x).Avoids names := by
  refine ⟨h.nodup, h.not_mem, fun {y} hy => ?_⟩
  rcases List.mem_append.mp (h.mem_used hy) with hissued | hreserved
  · exact List.mem_append_left _ hissued
  · exact List.mem_append_right _ (List.mem_cons_of_mem x hreserved)

theorem Tight.reserve (h : s.Tight) (x : Name) : (s.reserve x).Tight := by
  refine ⟨h.start_pos, fun {hint n} hpos hlt => ?_⟩
  rcases List.mem_append.mp (h.mem_used hpos hlt) with hissued | hreserved
  · exact List.mem_append_left _ hissued
  · exact List.mem_append_right _ (List.mem_cons_of_mem x hreserved)

end Avoids

section Requests

inductive Request where
  | fresh (hint : Name)
  | reserve (x : Name)

def Request.reserved? : Request → Option Name
  | .fresh _ => none
  | .reserve x => some x

/-- The answer is the name that is drawn, if one is. -/
def serve : Request → StateM NameSupply (Option Name)
  | .fresh hint => do return some (← fresh hint)
  | .reserve x => do
    modify (·.reserve x)
    return none

def serveAll : List Request → StateM NameSupply (List (Option Name))
  | [] => return []
  | r :: rs => do
    let answer ← serve r
    return answer :: (← serveAll rs)

def answers (names : List Name) (requests : List Request) : List (Option Name) :=
  (serveAll requests (ofNames names)).1

def afterAll (names : List Name) (requests : List Request) : NameSupply :=
  (serveAll requests (ofNames names)).2

/-- The names that are in use before the requests, or come into use with them. -/
def inUse (names : List Name) (requests : List Request) : List Name :=
  names ++ requests.filterMap Request.reserved? ++ (answers names requests).filterMap id

theorem serve_fresh (hint : Name) (s : NameSupply) :
    serve (.fresh hint) s = (some (fresh hint s).1, (fresh hint s).2) := rfl

theorem serve_reserve (x : Name) (s : NameSupply) :
    serve (.reserve x) s = (none, s.reserve x) := rfl

theorem serveAll_cons (r : Request) (rs : List Request) (s : NameSupply) :
    serveAll (r :: rs) s =
      ((serve r s).1 :: (serveAll rs (serve r s).2).1, (serveAll rs (serve r s).2).2) := rfl

theorem serveAll_append (as bs : List Request) (s : NameSupply) :
    serveAll (as ++ bs) s =
      ((serveAll as s).1 ++ (serveAll bs (serveAll as s).2).1, (serveAll bs (serveAll as s).2).2) := by
  induction as generalizing s with
  | nil => rfl
  | cons r rs ih => rw [List.cons_append, serveAll_cons, ih, serveAll_cons, List.cons_append]

theorem length_serveAll (rs : List Request) (s : NameSupply) :
    (serveAll rs s).1.length = rs.length := by
  induction rs generalizing s with
  | nil => rfl
  | cons r rs ih => rw [serveAll_cons, List.length_cons, ih, List.length_cons]

theorem issued_serveAll (rs : List Request) (s : NameSupply) :
    (serveAll rs s).2.issued = ((serveAll rs s).1.filterMap id).reverse ++ s.issued := by
  induction rs generalizing s with
  | nil => rfl
  | cons r rs ih =>
      rw [serveAll_cons, ih]
      cases r with
      | fresh hint =>
          have hdrawn : (NameSupply.fresh hint s).2.issued =
              [(NameSupply.fresh hint s).1] ++ s.issued := rfl
          rw [serve_fresh, hdrawn, ← List.append_assoc, ← List.reverse_cons]
          rfl
      | reserve x => rfl

theorem reserved_serveAll (rs : List Request) (s : NameSupply) :
    (serveAll rs s).2.reserved = (rs.filterMap Request.reserved?).reverse ++ s.reserved := by
  induction rs generalizing s with
  | nil => rfl
  | cons r rs ih =>
      rw [serveAll_cons, ih]
      cases r with
      | fresh hint => rfl
      | reserve x =>
          have hkept : (s.reserve x).reserved = [x] ++ s.reserved := rfl
          rw [serve_reserve, hkept, ← List.append_assoc, ← List.reverse_cons]
          rfl

theorem serveAll_induction {P : NameSupply → Prop} (hfresh : ∀ s hint, P s → P (fresh hint s).2)
    (hreserve : ∀ s x, P s → P (s.reserve x)) (rs : List Request) {s : NameSupply} (hs : P s) :
    P (serveAll rs s).2 := by
  induction rs generalizing s with
  | nil => exact hs
  | cons r rs ih =>
      rw [serveAll_cons]
      cases r with
      | fresh hint => exact ih (hfresh s hint hs)
      | reserve x => exact ih (hreserve s x hs)

theorem tight_afterAll (names : List Name) (requests : List Request) :
    (afterAll names requests).Tight :=
  serveAll_induction (fun _ hint h => h.fresh hint) (fun _ x h => h.reserve x) requests
    (tight_ofNames names)

theorem avoids_afterAll (names : List Name) (requests : List Request) :
    (afterAll names requests).Avoids names :=
  serveAll_induction (fun _ hint h => h.fresh hint) (fun _ x h => h.reserve x) requests
    (avoids_ofNames names)

theorem mem_used_afterAll (names : List Name) (requests : List Request) (x : Name) :
    x ∈ (afterAll names requests).used ↔ x ∈ inUse names requests := by
  rw [afterAll, used, issued_serveAll, reserved_serveAll, inUse, answers, ofNames]
  simp only [List.append_nil, List.mem_append, List.mem_reverse]
  tauto

theorem answers_append_fresh (names : List Name) (before : List Request) (hint : Name)
    (rest : List Request) : (answers names (before ++ .fresh hint :: rest))[before.length]? =
      some (some (numbered hint ((afterAll names before).number hint))) := by
  rw [answers, serveAll_append, serveAll_cons,
    List.getElem?_append_right (length_serveAll ..).le, length_serveAll, Nat.sub_self]
  rfl

/-- Before the `rest`, the requests have any history. The name that is then drawn for a hint has the
least number from one on that makes a name not in use, and the search for it ends there. In use are
the names to avoid, those reserved and those drawn, so that no name is drawn that is one of them. -/
theorem fresh_after_requests (names : List Name) (requests : List Request) :
    (∀ x, (afterAll names requests).isUsed x = true ↔ x ∈ inUse names requests) ∧
      ((answers names requests).filterMap id).Nodup ∧
      names.Disjoint ((answers names requests).filterMap id) ∧
      ∀ hint rest, ∃ n,
        (answers names (requests ++ .fresh hint :: rest))[requests.length]? =
          some (some (numbered hint n)) ∧
        IsLeast {n | 1 ≤ n ∧ numbered hint n ∉ inUse names requests} n ∧
        Finds (afterAll names requests).used hint ((afterAll names requests).start hint) n := by
  have hissued : (afterAll names requests).issued =
      ((answers names requests).filterMap id).reverse := by
    rw [afterAll, issued_serveAll, answers, ofNames, List.append_nil]
  have havoids := avoids_afterAll names requests
  refine ⟨fun x => ?_, ?_, fun x hx hdrawn => ?_, fun hint rest =>
    ⟨_, answers_append_fresh names requests hint rest, ?_, finds_number _ hint⟩⟩
  · rw [isUsed, decide_eq_true_iff, mem_used_afterAll]
  · rw [← List.nodup_reverse, ← hissued]
    exact havoids.nodup
  · rw [← List.mem_reverse, ← hissued] at hdrawn
    exact havoids.not_mem hdrawn hx
  · have hleast := (tight_afterAll names requests).isLeast_number hint
    simpa only [freeNumbers, mem_used_afterAll] using hleast

end Requests

end NameSupply

end YulPruner
