import Mathlib.Tactic.Common

/-!
# Results and exceptions

Rules for pure functions that return or raise. A sequence of calls that returns is taken apart by
`bind_eq_ok`; a loop whose body returns at each element returns.
-/

namespace Except

variable {ε α β : Type}

/-- `if c: raise e`. -/
def raiseIf (c : Prop) [Decidable c] (e : ε) : Except ε Unit := if c then .error e else .ok ()

theorem raiseIf_eq_ok {c : Prop} [Decidable c] {e : ε} {u : Unit} :
    raiseIf c e = .ok u ↔ ¬ c := by
  unfold raiseIf
  split
  · next h =>
    constructor
    · intro hok
      cases hok
    · intro hc
      exact absurd h hc
  · next h => exact iff_of_true rfl h

/-- A test that does not raise is skipped. -/
theorem raiseIf_bind {c : Prop} [Decidable c] {e : ε} {f : Unit → Except ε α} (hc : ¬ c) :
    raiseIf c e >>= f = f () := by
  rw [raiseIf_eq_ok.mpr hc]
  rfl

/-- A sequence returns when both parts do. -/
theorem bind_eq_ok {x : Except ε α} {f : α → Except ε β} {b : β} :
    (x >>= f) = .ok b ↔ ∃ a, x = .ok a ∧ f a = .ok b := by
  cases x with
  | error e =>
    constructor
    · intro h
      cases h
    · rintro ⟨_, h, _⟩
      cases h
  | ok a =>
    constructor
    · intro h
      exact ⟨a, rfl, h⟩
    · rintro ⟨_, ha, h⟩
      obtain rfl := Except.ok.inj ha
      exact h

/-- What a function of the result says of the result. -/
theorem exists_of_map_eq_ok {x : Except ε α} {f : α → β} {b : β} (h : x.map f = .ok b) :
    ∃ a, x = .ok a ∧ f a = b := by
  cases x with
  | error e => cases h
  | ok a => exact ⟨a, rfl, Except.ok.inj h⟩

/-- A sequence returns something when the first part returns and the second part does then. -/
theorem exists_bind_eq_ok {x : Except ε α} {f : α → Except ε β} {a : α} (hx : x = .ok a)
    (hf : ∃ b, f a = .ok b) : ∃ b, (x >>= f) = .ok b := by
  obtain ⟨b, hb⟩ := hf
  exact ⟨b, bind_eq_ok.mpr ⟨a, hx, hb⟩⟩

/-- A loop of calls that all return. -/
theorem mapM_eq_ok {f : α → Except ε β} {g : α → β} {l : List α} (h : ∀ a ∈ l, f a = .ok (g a)) :
    l.mapM f = .ok (l.map g) := by
  induction l with
  | nil => rfl
  | cons a l ih =>
    have hrest := ih fun b hb => h b (List.mem_cons_of_mem a hb)
    rw [List.mapM_cons, h a List.mem_cons_self, hrest]
    rfl

/-- A loop of calls returns results that are related to the elements when each call does. -/
theorem exists_mapM_forall₂ {f : α → Except ε β} {Q : α → β → Prop} {l : List α} :
    (∃ r, l.mapM f = .ok r ∧ List.Forall₂ Q l r) ↔ ∀ a ∈ l, ∃ b, f a = .ok b ∧ Q a b := by
  induction l with
  | nil => exact iff_of_true ⟨[], rfl, .nil⟩ fun _ h => nomatch h
  | cons a l ih =>
    rw [List.forall_mem_cons, ← ih]
    constructor
    · rintro ⟨r, hr, hQ⟩
      rw [List.mapM_cons] at hr
      obtain ⟨b, hb, hr⟩ := bind_eq_ok.mp hr
      obtain ⟨r', hr', hr⟩ := bind_eq_ok.mp hr
      obtain rfl := Except.ok.inj hr
      cases hQ with
      | cons hfirst hrest => exact ⟨⟨b, hb, hfirst⟩, r', hr', hrest⟩
    · rintro ⟨⟨b, hb, hfirst⟩, r, hr, hrest⟩
      refine ⟨b :: r, ?_, .cons hfirst hrest⟩
      rw [List.mapM_cons, hb, hr]
      rfl

/-- The results of a loop of calls come from the elements. -/
theorem mem_of_mapM_ok {f : α → Except ε β} {l : List α} {r : List β} (h : l.mapM f = .ok r) {b : β}
    (hb : b ∈ r) : ∃ a ∈ l, f a = .ok b := by
  induction l generalizing r with
  | nil =>
    obtain rfl := Except.ok.inj h
    cases hb
  | cons a l ih =>
    rw [List.mapM_cons] at h
    obtain ⟨b', hb', h⟩ := bind_eq_ok.mp h
    obtain ⟨r', hr', h⟩ := bind_eq_ok.mp h
    obtain rfl := Except.ok.inj h
    cases List.mem_cons.mp hb with
    | inl heq => exact ⟨a, List.mem_cons_self, heq ▸ hb'⟩
    | inr hmem =>
      obtain ⟨a', ha', hfa'⟩ := ih hr' hmem
      exact ⟨a', List.mem_cons_of_mem a ha', hfa'⟩

/-- A loop of calls that all return gives one result for each element. -/
theorem exists_mapM_eq_ok {f : α → Except ε β} {l : List α} (h : ∀ a ∈ l, ∃ b, f a = .ok b) :
    ∃ r, l.mapM f = .ok r ∧ r.length = l.length := by
  induction l with
  | nil => exact ⟨[], rfl, rfl⟩
  | cons a l ih =>
    obtain ⟨b, hb⟩ := h a List.mem_cons_self
    obtain ⟨r, hr, hlength⟩ := ih fun a' ha' => h a' (List.mem_cons_of_mem a ha')
    refine ⟨b :: r, ?_, congrArg (· + 1) hlength⟩
    rw [List.mapM_cons, hb, hr]
    rfl

/-- What every round of a loop preserves holds of its result. -/
theorem foldlM_ok {f : β → α → Except ε β} {I : β → Prop} {l : List α} {b r : β}
    (hstep : ∀ b a b', a ∈ l → I b → f b a = .ok b' → I b') (hI : I b)
    (h : l.foldlM f b = .ok r) : I r := by
  induction l generalizing b with
  | nil =>
    obtain rfl := Except.ok.inj h
    exact hI
  | cons a l ih =>
    rw [List.foldlM_cons] at h
    obtain ⟨b', hb', hrest⟩ := bind_eq_ok.mp h
    exact ih (fun b a b' ha => hstep b a b' (List.mem_cons_of_mem _ ha))
      (hstep b a b' List.mem_cons_self hI hb') hrest

private theorem returns_of_filterAuxM_ok {p : α → Except ε Bool} {l acc r : List α}
    (h : l.filterAuxM p acc = .ok r) : ∀ a ∈ l, p a = .ok ((p a).toOption.getD false) := by
  induction l generalizing acc with
  | nil => exact fun _ ha => absurd ha List.not_mem_nil
  | cons b l ih =>
    obtain ⟨keep, hkeep, hrest⟩ := bind_eq_ok.mp h
    refine List.forall_mem_cons.mpr ⟨?_, ih hrest⟩
    rw [hkeep]
    rfl

private theorem filterAuxM_eq_ok {p : α → Except ε Bool} {q : α → Bool} {l : List α}
    (h : ∀ a ∈ l, p a = .ok (q a)) (acc : List α) :
    l.filterAuxM p acc = .ok ((l.filter q).reverse ++ acc) := by
  induction l generalizing acc with
  | nil => rfl
  | cons a l ih =>
    have hrest := ih fun b hb => h b (List.mem_cons_of_mem a hb)
    rw [List.filterAuxM, h a List.mem_cons_self]
    cases hq : q a with
    | true =>
      rw [List.filter_cons_of_pos hq, List.reverse_cons, List.append_assoc]
      exact hrest (a :: acc)
    | false =>
      rw [List.filter_cons_of_neg (Bool.not_eq_true _ ▸ hq)]
      exact hrest acc

/-- A filter with a test that returns at each element. -/
theorem filterM_eq_ok {p : α → Except ε Bool} {q : α → Bool} {l : List α}
    (h : ∀ a ∈ l, p a = .ok (q a)) : l.filterM p = .ok (l.filter q) := by
  unfold List.filterM
  rw [filterAuxM_eq_ok h, List.append_nil]
  exact congrArg Except.ok (List.reverse_reverse _)

/-- A filter with a test that may raise is a filter, if it returns. -/
theorem eq_filter_of_filterM_ok {p : α → Except ε Bool} {l r : List α} (h : l.filterM p = .ok r) :
    r = l.filter fun a => (p a).toOption.getD false := by
  obtain ⟨kept, hkept, -⟩ := bind_eq_ok.mp h
  exact Except.ok.inj (h.symm.trans (filterM_eq_ok (returns_of_filterAuxM_ok hkept)))

/-- It keeps the elements that pass the test. -/
theorem mem_of_filterM_ok {p : α → Except ε Bool} {l r : List α} (h : l.filterM p = .ok r) {a : α} :
    a ∈ r ↔ a ∈ l ∧ p a = .ok true := by
  have hpass : (p a).toOption.getD false = true ↔ p a = .ok true := by
    cases hp : p a with
    | error e => exact iff_of_false Bool.false_ne_true (fun heq => nomatch heq)
    | ok keep => exact ⟨congrArg _, Except.ok.inj⟩
  rw [eq_filter_of_filterM_ok h, List.mem_filter, hpass]

end Except
