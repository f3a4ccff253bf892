import YulPruner.Proofs.Basic
import YulPruner.Proofs.Syntax.Grammar
import YulPruner.Syntax.Parser

namespace YulPruner

namespace Parser

variable {α β : Type}

/-- Whatever the parser gives, `D` relates it to the tokens that the parser takes. -/
def Gives (x : Parser α) (D : α → List Token → Prop) : Prop :=
  ∀ s a s', x s = .ok a s' → ∃ ts, s.kinds = ts ++ s'.kinds ∧ D a ts

/-- The same in front of the token `t`. -/
def GivesAt (t : Token) (x : Parser α) (D : α → List Token → Prop) : Prop :=
  ∀ s a s', s.kinds.head? = some t → x s = .ok a s' → ∃ ts, s.kinds = ts ++ s'.kinds ∧ D a ts

/-- In front of the tokens `ts`, the parser takes just them and gives `a`, if `F` holds of the token
behind them. -/
def Takes (x : Parser α) (F : Option Token → Prop) (ts : List Token) (a : α) : Prop :=
  ∀ s rest, s.kinds = ts ++ rest → F rest.head? → ∃ s', x s = .ok a s' ∧ s'.kinds = rest

def Any (_ : Option Token) : Prop := True

theorem peek?_bind (k : Option Token → Parser α) (s : TokenStream) :
    (peek? >>= k) s = k s.kinds.head? s := by
  rw [TokenStream.kinds, List.head?_map]
  rfl

theorem peekSecond?_bind (k : Option Token → Parser α) (s : TokenStream) :
    (peekSecond? >>= k) s = k s.kinds[1]? s := by
  rw [TokenStream.kinds, List.getElem?_map]
  rfl

theorem bound_bind (k : Nat → Parser α) (s : TokenStream) :
    (bound >>= k) s = k (s.kinds.length + 1) s := by
  rw [TokenStream.kinds, List.length_map]
  rfl

theorem advance_bind {t : Token} {s : TokenStream} (h : s.kinds.head? = some t)
    (k : Unit → Parser α) : ∃ s', (advance >>= k) s = k () s' ∧ s.kinds = t :: s'.kinds := by
  obtain ⟨tokens, finish⟩ := s
  cases tokens with
  | nil => cases h
  | cons u us =>
      cases h
      exact ⟨⟨us, finish⟩, rfl, rfl⟩

theorem fail_eq (fault : Fault) (s : TokenStream) :
    (fail fault : Parser α) s = .error ⟨s.position, fault⟩ s := rfl

namespace Gives

variable {x : Parser α} {D : α → List Token → Prop} {E : β → List Token → Prop}

theorem givesAt {t : Token} (h : Gives x D) : GivesAt t x D := fun s a s' _ hx => h s a s' hx

theorem mono (h : Gives x D) {D' : α → List Token → Prop} (hD : ∀ a ts, D a ts → D' a ts) :
    Gives x D' := by
  intro s a s' hx
  obtain ⟨ts, hs, ha⟩ := h s a s' hx
  exact ⟨ts, hs, hD a ts ha⟩

protected theorem pure {a : α} (h : D a []) : Gives (pure a) D := by
  intro s b s' hx
  cases hx
  exact ⟨[], rfl, h⟩

protected theorem fail (fault : Fault) : Gives (fail fault : Parser α) D := by
  intro s a s' hx
  rw [fail_eq] at hx
  cases hx

protected theorem unexpected (what : Expectation) : Gives (unexpected what : Parser α) D := by
  intro s a s' hx
  rw [unexpected, peek?_bind, fail_eq] at hx
  cases hx

theorem bind {k : α → Parser β} (hx : Gives x D)
    (hk : ∀ a ts, D a ts → Gives (k a) fun b us => E b (ts ++ us)) : Gives (x >>= k) E := by
  intro s b s' h
  obtain ⟨a, t, ha, hb⟩ := bind_eq_ok.mp h
  obtain ⟨ts, hs, hD⟩ := hx s a t ha
  obtain ⟨us, ht, hE⟩ := hk a ts hD t b s' hb
  exact ⟨ts ++ us, by rw [hs, ht, List.append_assoc], hE⟩

theorem peek {k : Option Token → Parser α} (hnone : Gives (k none) D)
    (hsome : ∀ t, GivesAt t (k (some t)) D) : Gives (peek? >>= k) D := by
  intro s a s' h
  rw [peek?_bind] at h
  cases hhead : s.kinds.head? with
  | none =>
      rw [hhead] at h
      exact hnone s a s' h
  | some t =>
      rw [hhead] at h
      exact hsome t s a s' hhead h

theorem peekSecond {k : Option Token → Parser α} (h : ∀ o, Gives (k o) D) :
    Gives (peekSecond? >>= k) D := by
  intro s a s' hx
  rw [peekSecond?_bind] at hx
  exact h _ s a s' hx

theorem bound {k : Nat → Parser α} (h : ∀ n, Gives (k n) D) : Gives (bound >>= k) D := by
  intro s a s' hx
  rw [bound_bind] at hx
  exact h _ s a s' hx

end Gives

theorem GivesAt.advance {t : Token} {k : Unit → Parser α} {D : α → List Token → Prop}
    (h : Gives (k ()) fun a ts => D a (t :: ts)) : GivesAt t (advance >>= k) D := by
  intro s a s' hhead hx
  obtain ⟨u, hadvance, hkinds⟩ := advance_bind hhead k
  obtain ⟨ts, hu, ha⟩ := h u a s' (hadvance.symm.trans hx)
  exact ⟨t :: ts, by rw [hkinds, hu, List.cons_append], ha⟩

namespace Takes

variable {x : Parser α} {F G : Option Token → Prop} {ts us : List Token} {a : α} {b : β}

theorem mono (h : Takes x F ts a) (hF : ∀ o, G o → F o) : Takes x G ts a :=
  fun s rest hs hrest => h s rest hs (hF _ hrest)

protected theorem pure (a : α) : Takes (pure a) F [] a :=
  fun s _ hs _ => ⟨s, rfl, hs⟩

/-- What the second parser takes decides what the first one finds behind its tokens. -/
theorem bind {k : α → Parser β} (hx : Takes x F ts a) (hk : Takes (k a) G us b)
    (hF : ∀ o, G o → F (us.head?.or o)) : Takes (x >>= k) G (ts ++ us) b := by
  intro s rest hs hrest
  rw [List.append_assoc] at hs
  obtain ⟨t, hx, ht⟩ := hx s (us ++ rest) hs (by rw [List.head?_append]; exact hF _ hrest)
  obtain ⟨u, hk, hu⟩ := hk t rest ht hrest
  exact ⟨u, bind_eq_ok.mpr ⟨a, t, hx, hk⟩, hu⟩

theorem bind_nil {k : α → Parser β} (hx : Takes x F ts a) (hk : Takes (k a) G [] b)
    (hF : ∀ o, G o → F o) : Takes (x >>= k) G ts b := by
  have hbind := hx.bind hk hF
  rwa [List.append_nil] at hbind

theorem map (h : Takes x F ts a) (f : α → β) : Takes (do return f (← x)) F ts (f a) :=
  bind_nil (k := fun a => pure (f a)) h (.pure (f a)) fun _ ho => ho

theorem of_any (h : Takes x Any ts a) (F : Option Token → Prop) : Takes x F ts a :=
  h.mono fun _ _ => trivial

theorem bind_any {k : α → Parser β} (hx : Takes x Any ts a) (hk : Takes (k a) G us b) :
    Takes (x >>= k) G (ts ++ us) b :=
  hx.bind hk fun _ _ => trivial

theorem peek {k : Option Token → Parser α} {t : Token} (h : Takes (k (some t)) F (t :: ts) a) :
    Takes (peek? >>= k) F (t :: ts) a := by
  intro s rest hs hrest
  rw [peek?_bind, hs, List.cons_append, List.head?_cons]
  exact h s rest hs hrest

theorem peek_nil {k : Option Token → Parser α} (h : ∀ o, F o → Takes (k o) F [] a) :
    Takes (peek? >>= k) F [] a := by
  intro s rest hs hrest
  rw [peek?_bind, hs, List.nil_append]
  exact h _ hrest s rest hs hrest

theorem peekSecond {k : Option Token → Parser α} {t u : Token}
    (h : Takes (k (some u)) F (t :: u :: ts) a) : Takes (peekSecond? >>= k) F (t :: u :: ts) a := by
  intro s rest hs hrest
  have hsecond : s.kinds[1]? = some u := by rw [hs]; rfl
  rw [peekSecond?_bind, hsecond]
  exact h s rest hs hrest

theorem bound {k : Nat → Parser α} (h : ∀ n, ts.length < n → Takes (k n) F ts a) :
    Takes (bound >>= k) F ts a := by
  intro s rest hs hrest
  rw [bound_bind]
  refine h _ ?_ s rest hs hrest
  rw [hs, List.length_append]
  omega

theorem advance {k : Unit → Parser α} {t : Token} (h : Takes (k ()) F ts a) :
    Takes (advance >>= k) F (t :: ts) a := by
  rintro ⟨tokens, finish⟩ rest hs hrest
  cases tokens with
  | nil => cases hs
  | cons u tokens => exact h ⟨tokens, finish⟩ rest (List.cons.inj hs).2 hrest

end Takes

section Tokens

theorem gives_accept (t : Token) :
    Gives (accept t) fun b ts => ts = if b then [t] else [] := by
  refine .peek ?_ fun u => ?_
  · rw [if_neg (by simp)]
    exact .pure rfl
  · by_cases hu : some u = some t
    · cases hu
      rw [if_pos rfl]
      exact .advance (.pure rfl)
    · rw [if_neg hu]
      exact Gives.givesAt (.pure rfl)

theorem takes_accept (t : Token) : Takes (accept t) Any [t] true := by
  refine .peek ?_
  rw [if_pos rfl]
  exact .advance (.pure true)

theorem takes_accept_nil (t : Token) : Takes (accept t) (· ≠ some t) [] false := by
  refine .peek_nil fun o ho => ?_
  rw [if_neg ho]
  exact .pure false

theorem gives_expect (m : Mark) : Gives (expect m) fun _ ts => ts = [.mark m] := by
  refine (gives_accept (.mark m)).bind fun b ts hts => ?_
  cases b with
  | true => exact .pure (by simpa using hts)
  | false => exact .unexpected _

theorem takes_expect (m : Mark) : Takes (expect m) Any [.mark m] () :=
  (takes_accept (.mark m)).bind_any (.pure ())

theorem gives_identifier : Gives identifier Name.Derives := by
  refine .peek (.unexpected _) fun t => ?_
  cases t with
  | identifier x => exact .advance (.pure (.identifier x))
  | _ => exact Gives.givesAt (.unexpected _)

theorem takes_identifier {x : Name} {ts : List Token} (h : Name.Derives x ts) :
    Takes identifier Any ts x := by
  cases h
  exact .peek (.advance (.pure x))

theorem gives_literal : Gives literal Literal.Derives := by
  refine .peek (.unexpected _) fun t => ?_
  cases t with
  | number n => exact .advance (.pure (.number n))
  | string s => exact .advance (.pure (.string s))
  | keyword k =>
      cases k with
      | true => exact .advance (.pure .true)
      | false => exact .advance (.pure .false)
      | _ => exact Gives.givesAt (.unexpected _)
  | _ => exact Gives.givesAt (.unexpected _)

theorem takes_literal {l : Literal} {ts : List Token} (h : Literal.Derives l ts) :
    Takes literal Any ts l := by
  cases h with
  | number n => exact .peek (.advance (.pure _))
  | string s => exact .peek (.advance (.pure _))
  | true => exact .peek (.advance (.pure _))
  | false => exact .peek (.advance (.pure _))

end Tokens

end Parser

end YulPruner
