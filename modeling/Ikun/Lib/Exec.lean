import Mathlib.Tactic.Common
import Mathlib.Logic.Relation

/-!
# Imperative methods with exceptions

A method of a stateful object is a program of `EStateM ε σ`: it reads and writes the object and may
raise. `EStateM` does not roll the state back when an exception is raised, which is what a method
that mutates its object and then raises does.

`wp m Q R s` is the weakest precondition of `m`: run from `s`, the program `m` either returns with
`Q` or raises with `R`. The `wp_*` lemmas push it through the constructs of the language, so that a
method is executed symbolically by rewriting; `wp_mono` cites the specification of a callee;
`wp_forM` is the invariant rule of a `for` loop.
-/

namespace Exec

variable {ε σ α β : Type}

/-! ## Statements -/

/-- `if c: raise e`. -/
def raiseIf (c : Prop) [Decidable c] (e : ε) : EStateM ε σ Unit :=
  if c then throw e else pure ()

/-- `try: m; except E: handler; raise` for every exception: `handler` runs, then the exception of
`m` is raised again, unless `handler` raises itself. -/
def onException (m : EStateM ε σ α) (handler : EStateM ε σ Unit) : EStateM ε σ α := fun s =>
  match m s with
  | .ok a s' => .ok a s'
  | .error e s' =>
    match handler s' with
    | .ok _ s'' => .error e s''
    | .error e' s'' => .error e' s''

/-- Runs a program on a component of the state. -/
def focus {τ : Type} (get : σ → τ) (put : τ → σ → σ) (m : EStateM ε τ α) : EStateM ε σ α :=
  fun s =>
    match m (get s) with
    | .ok a t => .ok a (put t s)
    | .error e t => .error e (put t s)

/-! ## Weakest preconditions -/

/-- Run from `s`, the program returns with `Q` or raises with `R`. -/
def wp (m : EStateM ε σ α) (Q : α → σ → Prop) (R : ε → σ → Prop) (s : σ) : Prop :=
  match m s with
  | .ok a s' => Q a s'
  | .error e s' => R e s'

section rules

variable {Q : α → σ → Prop} {R : ε → σ → Prop} {s : σ}

theorem wp_ok {m : EStateM ε σ α} {a : α} {s' : σ} (h : m s = .ok a s') :
    wp m Q R s ↔ Q a s' := by
  simp only [wp, h]

theorem wp_error {m : EStateM ε σ α} {e : ε} {s' : σ} (h : m s = .error e s') :
    wp m Q R s ↔ R e s' := by
  simp only [wp, h]

/-- What a specification says of a run that returned. -/
theorem of_wp_ok {m : EStateM ε σ α} {a : α} {s' : σ} (h : wp m Q R s) (hr : m s = .ok a s') :
    Q a s' :=
  (wp_ok hr).mp h

/-- What a specification says of a run that raised. -/
theorem of_wp_error {m : EStateM ε σ α} {e : ε} {s' : σ} (h : wp m Q R s)
    (hr : m s = .error e s') : R e s' :=
  (wp_error hr).mp h

/-- A specification is a statement about both outcomes. -/
theorem wp_iff {m : EStateM ε σ α} :
    wp m Q R s ↔ (∀ a s', m s = .ok a s' → Q a s') ∧ (∀ e s', m s = .error e s' → R e s') := by
  constructor
  · exact fun h => ⟨fun _ _ hr => of_wp_ok h hr, fun _ _ hr => of_wp_error h hr⟩
  · rintro ⟨hQ, hR⟩
    unfold wp
    split
    · next h => exact hQ _ _ h
    · next h => exact hR _ _ h

theorem wp_mono {m : EStateM ε σ α} {Q' : α → σ → Prop} {R' : ε → σ → Prop} (h : wp m Q R s)
    (hQ : ∀ a s', Q a s' → Q' a s') (hR : ∀ e s', R e s' → R' e s') : wp m Q' R' s := by
  rw [wp_iff] at h ⊢
  exact ⟨fun a s' hr => hQ a s' (h.1 a s' hr), fun e s' hr => hR e s' (h.2 e s' hr)⟩

theorem wp_and {m : EStateM ε σ α} {Q' : α → σ → Prop} {R' : ε → σ → Prop} (h : wp m Q R s)
    (h' : wp m Q' R' s) :
    wp m (fun a s' => Q a s' ∧ Q' a s') (fun e s' => R e s' ∧ R' e s') s := by
  rw [wp_iff] at h h' ⊢
  exact ⟨fun a s' hr => ⟨h.1 a s' hr, h'.1 a s' hr⟩, fun e s' hr => ⟨h.2 e s' hr, h'.2 e s' hr⟩⟩

@[simp] theorem wp_pure (a : α) : wp (pure a) Q R s ↔ Q a s := Iff.rfl

@[simp] theorem wp_throw (e : ε) : wp (throw e : EStateM ε σ α) Q R s ↔ R e s := Iff.rfl

@[simp] theorem wp_get {Q : σ → σ → Prop} : wp get Q R s ↔ Q s s := Iff.rfl

@[simp] theorem wp_set {Q : PUnit → σ → Prop} (s' : σ) : wp (set s') Q R s ↔ Q ⟨⟩ s' := Iff.rfl

@[simp] theorem wp_modify {Q : PUnit → σ → Prop} (f : σ → σ) :
    wp (modify f) Q R s ↔ Q ⟨⟩ (f s) := Iff.rfl

@[simp] theorem wp_bind {m : EStateM ε σ β} {f : β → EStateM ε σ α} :
    wp (m >>= f) Q R s ↔ wp m (fun b s' => wp (f b) Q R s') R s := by
  show wp (EStateM.bind m f) Q R s ↔ _
  unfold wp EStateM.bind
  cases m s <;> rfl

@[simp] theorem wp_map {m : EStateM ε σ β} {f : β → α} :
    wp (f <$> m) Q R s ↔ wp m (fun b s' => Q (f b) s') R s := by
  show wp (EStateM.map f m) Q R s ↔ _
  unfold wp EStateM.map
  cases m s <;> rfl

theorem wp_ite {c : Prop} [Decidable c] {m m' : EStateM ε σ α} :
    wp (if c then m else m') Q R s ↔ (c → wp m Q R s) ∧ (¬ c → wp m' Q R s) := by
  by_cases h : c <;> simp [h]

@[simp] theorem wp_raiseIf {Q : Unit → σ → Prop} {c : Prop} [Decidable c] {e : ε} :
    wp (raiseIf c e) Q R s ↔ (c → R e s) ∧ (¬ c → Q () s) := by
  unfold raiseIf
  by_cases h : c <;> simp [h]

theorem wp_onException {m : EStateM ε σ α} {handler : EStateM ε σ Unit} :
    wp (onException m handler) Q R s ↔
      wp m Q (fun e s' => wp handler (fun _ s'' => R e s'') R s') s := by
  unfold wp onException
  cases m s with
  | ok a s' => rfl
  | error e s' => cases h : handler s' <;> simp [h]

theorem wp_focus {τ : Type} {get : σ → τ} {put : τ → σ → σ} {m : EStateM ε τ α} :
    wp (focus get put m) Q R s ↔
      wp m (fun a t => Q a (put t s)) (fun e t => R e (put t s)) (get s) := by
  unfold wp focus
  cases m (get s) <;> rfl

end rules

/-! ## Loops -/

/-- The invariant rule of `for x in xs: f(x)`: `I ys s` says what holds when `ys` is still to be
visited. -/
theorem wp_forM {f : α → EStateM ε σ PUnit} {I : List α → σ → Prop} {R : ε → σ → Prop}
    (step : ∀ x xs s, I (x :: xs) s → wp (f x) (fun _ s' => I xs s') R s) :
    ∀ (xs : List α) (s : σ), I xs s → wp (forM xs f) (fun _ s' => I [] s') R s
  | [], _, h => h
  | x :: xs, s, h => by
    rw [List.forM_cons, wp_bind]
    refine wp_mono (step x xs s h) (fun _ s' hs' => ?_) fun _ _ hR => hR
    exact wp_forM step xs s' hs'

/-! ## Frames -/

/-- Whether the program returns or raises, it keeps `P`. -/
def Preserves (P : σ → Prop) (m : EStateM ε σ α) : Prop :=
  ∀ s, P s → wp m (fun _ s' => P s') (fun _ s' => P s') s

namespace Preserves

variable {P : σ → Prop} {m : EStateM ε σ α}

theorem pure (a : α) : Preserves P (pure a : EStateM ε σ α) := fun _ hs => hs

theorem throw (e : ε) : Preserves P (throw e : EStateM ε σ α) := fun _ hs => hs

theorem set {t : σ} (ht : P t) : Preserves P (set t : EStateM ε σ PUnit) := fun _ _ => ht

theorem modify {f : σ → σ} (hf : ∀ s, P s → P (f s)) :
    Preserves P (modify f : EStateM ε σ PUnit) := hf

theorem bind {m : EStateM ε σ β} {f : β → EStateM ε σ α} (hm : Preserves P m)
    (hf : ∀ b, Preserves P (f b)) : Preserves P (m >>= f) := fun s hs =>
  wp_bind.mpr (wp_mono (hm s hs) (fun b s' hs' => hf b s' hs') fun _ _ hs' => hs')

/-- The state that is read has the property. -/
theorem get_bind {f : σ → EStateM ε σ α} (hf : ∀ s, P s → Preserves P (f s)) :
    Preserves P (MonadState.get >>= f) := fun s hs => hf s hs s hs

theorem map {m : EStateM ε σ β} (f : β → α) (hm : Preserves P m) : Preserves P (f <$> m) :=
  fun s hs => wp_map.mpr (hm s hs)

theorem ite {c : Prop} [Decidable c] {m' : EStateM ε σ α} (hm : c → Preserves P m)
    (hm' : ¬ c → Preserves P m') : Preserves P (if c then m else m') := by
  split
  · next h => exact hm h
  · next h => exact hm' h

/-- `if c: m`, followed by `f`. -/
theorem ite_bind {c : Prop} [Decidable c] {m : EStateM ε σ PUnit} {f : PUnit → EStateM ε σ α}
    (hm : c → Preserves P m) (hf : Preserves P (f ⟨⟩)) :
    Preserves P (if c then m >>= f else f ⟨⟩) :=
  .ite (fun h => (hm h).bind fun _ => hf) fun _ => hf

theorem raiseIf {c : Prop} [Decidable c] {e : ε} :
    Preserves P (raiseIf c e : EStateM ε σ Unit) := fun _ hs =>
  wp_raiseIf.mpr ⟨fun _ => hs, fun _ => hs⟩

theorem onException {handler : EStateM ε σ Unit} (hm : Preserves P m)
    (hh : Preserves P handler) : Preserves P (onException m handler) := fun s hs =>
  wp_onException.mpr (wp_mono (hm s hs) (fun _ _ hs' => hs') fun _ s' hs' => hh s' hs')

theorem forM {f : β → EStateM ε σ PUnit} (hf : ∀ b, Preserves P (f b)) :
    ∀ bs : List β, Preserves P (forM bs f)
  | [] => fun _ hs => hs
  | b :: bs => by
    rw [List.forM_cons]
    exact (hf b).bind fun _ => forM hf bs

end Preserves

/-! ## Outcomes -/

/-- The exception that a run raised. -/
def exnOf : EStateM.Result ε σ α → Option ε
  | .ok _ _ => none
  | .error e _ => some e

/-- The state that a run ended in. -/
def stateOf : EStateM.Result ε σ α → σ
  | .ok _ s => s
  | .error _ s => s

theorem eq_ok_of_exnOf {r : EStateM.Result ε σ Unit} (h : exnOf r = none) :
    r = .ok () (stateOf r) := by
  cases r with
  | ok a s => rfl
  | error e s => exact absurd h (by simp [exnOf])

theorem exists_eq_ok_of_exnOf {r : EStateM.Result ε σ α} (h : exnOf r = none) :
    ∃ a, r = .ok a (stateOf r) := by
  cases r with
  | ok a s => exact ⟨a, rfl⟩
  | error e s => exact absurd h (by simp [exnOf])

theorem eq_error_of_exnOf {r : EStateM.Result ε σ α} {e : ε} (h : exnOf r = some e) :
    r = .error e (stateOf r) := by
  cases r with
  | ok a s => exact absurd h (by simp [exnOf])
  | error e' s =>
    obtain rfl := Option.some.inj h
    rfl

/-! ## Runs that return -/

@[simp] theorem bind_ok_iff {m : EStateM ε σ β} {f : β → EStateM ε σ α} {s s'' : σ} {a : α} :
    (m >>= f) s = .ok a s'' ↔ ∃ b s', m s = .ok b s' ∧ f b s' = .ok a s'' := by
  show EStateM.bind m f s = _ ↔ _
  unfold EStateM.bind
  cases h : m s <;> simp

@[simp] theorem map_ok_iff {m : EStateM ε σ β} {f : β → α} {s s' : σ} {a : α} :
    (f <$> m) s = .ok a s' ↔ ∃ b, a = f b ∧ m s = .ok b s' := by
  show EStateM.map f m s = _ ↔ _
  unfold EStateM.map
  cases h : m s with
  | ok b t =>
    simp only [EStateM.Result.ok.injEq]
    constructor
    · rintro ⟨rfl, rfl⟩
      exact ⟨b, rfl, rfl, rfl⟩
    · rintro ⟨_, rfl, rfl, rfl⟩
      exact ⟨rfl, rfl⟩
  | error e t => simp

@[simp] theorem pure_ok_iff {a b : α} {s s' : σ} :
    (pure a : EStateM ε σ α) s = .ok b s' ↔ b = a ∧ s' = s := by
  show EStateM.Result.ok a s = _ ↔ _
  rw [EStateM.Result.ok.injEq]
  exact and_congr eq_comm eq_comm

@[simp] theorem throw_ok_iff {e : ε} {b : α} {s s' : σ} :
    (throw e : EStateM ε σ α) s = .ok b s' ↔ False := by
  show EStateM.Result.error e s = _ ↔ _
  simp

@[simp] theorem get_ok_iff {a s s' : σ} :
    (get : EStateM ε σ σ) s = .ok a s' ↔ a = s ∧ s' = s := by
  show EStateM.Result.ok s s = _ ↔ _
  rw [EStateM.Result.ok.injEq]
  exact and_congr eq_comm eq_comm

@[simp] theorem set_ok_iff {t s s' : σ} {u : PUnit} :
    (set t : EStateM ε σ PUnit) s = .ok u s' ↔ s' = t := by
  show EStateM.Result.ok PUnit.unit t = _ ↔ _
  rw [EStateM.Result.ok.injEq]
  exact ⟨fun h => h.2.symm, fun h => ⟨rfl, h.symm⟩⟩

@[simp] theorem modify_ok_iff {f : σ → σ} {s s' : σ} {u : PUnit} :
    (modify f : EStateM ε σ PUnit) s = .ok u s' ↔ s' = f s := by
  show EStateM.Result.ok PUnit.unit (f s) = _ ↔ _
  rw [EStateM.Result.ok.injEq]
  exact ⟨fun h => h.2.symm, fun h => ⟨rfl, h.symm⟩⟩

@[simp] theorem raiseIf_ok_iff {c : Prop} [Decidable c] {e : ε} {s s' : σ} {u : Unit} :
    raiseIf c e s = .ok u s' ↔ ¬ c ∧ s' = s := by
  unfold raiseIf
  by_cases h : c <;> simp [h]

/-! ## Invariants of runs -/

/-- What holds initially and is preserved by a step holds in every reachable state. -/
theorem invariant_of_step {step : σ → σ → Prop} {I : σ → Prop} {s s' : σ}
    (hstep : ∀ s s', I s → step s s' → I s') (h₀ : I s) (h : Relation.ReflTransGen step s s') :
    I s' := by
  induction h with
  | refl => exact h₀
  | tail _ hs ih => exact hstep _ _ ih hs

end Exec
