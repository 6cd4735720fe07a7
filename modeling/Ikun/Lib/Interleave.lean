import Mathlib.Algebra.BigOperators.Group.Finset.Basic
import Mathlib.Algebra.Order.BigOperators.Group.Finset
import Mathlib.Tactic.Common

/-!
# Interleaved threads

Threads that share a state and take atomic steps in any order. A schedule is the list of threads
that take their next step. A step that has no result is a fault.

What every step keeps holds in every interleaving (`run_invariant`), and a program whose steps do
not fault from such states does not fault (`not_fault`). If moreover every step brings its thread
closer to its end, all interleavings end in such a state, and there is one (`returns`). Programs that
run one after the other are composed by `andThen`.
-/

namespace Interleave

/-! ## Outcomes -/

section outcomes

variable {α β : Type}

/-- The second program runs when the first has ended without a fault. -/
def andThen (x : Option α → Prop) (f : α → Option β → Prop) (o : Option β) : Prop :=
  (x none ∧ o = none) ∨ ∃ a, x (some a) ∧ f a o

/-- The program ends, it does not fault, and what it returns is in `P`. -/
structure Returns (x : Option α → Prop) (P : α → Prop) : Prop where
  ends : ∃ o, x o
  sound : ∀ o, x o → ∃ a, o = some a ∧ P a

theorem Returns.andThen {x : Option α → Prop} {f : α → Option β → Prop} {P : α → Prop}
    {Q : β → Prop} (hx : Returns x P) (hf : ∀ a, P a → Returns (f a) Q) :
    Returns (andThen x f) Q := by
  constructor
  · obtain ⟨o, ho⟩ := hx.ends
    obtain ⟨a, rfl, ha⟩ := hx.sound o ho
    obtain ⟨o', ho'⟩ := (hf a ha).ends
    exact ⟨o', Or.inr ⟨a, ho, ho'⟩⟩
  · intro o ho
    cases ho with
    | inl ho =>
      obtain ⟨a, heq, _⟩ := hx.sound none ho.1
      exact absurd heq (by simp)
    | inr ho =>
      obtain ⟨a, ha, ho⟩ := ho
      obtain ⟨a', heq, ha'⟩ := hx.sound (some a) ha
      obtain rfl := Option.some.inj heq
      exact (hf a ha').sound o ho

/-- A program without threads. -/
theorem Returns.of_eq {r : Option α} {a : α} {P : α → Prop} (h : r = some a) (ha : P a) :
    Returns (fun o => o = r) P :=
  ⟨⟨r, rfl⟩, fun _ ho => ⟨a, ho.trans h, ha⟩⟩

theorem andThen_some {x : Option α → Prop} {f : α → Option β → Prop} {b : β}
    (h : andThen x f (some b)) : ∃ a, x (some a) ∧ f a (some b) :=
  h.resolve_left fun h => absurd h.2 (by simp)

end outcomes

/-! ## Threads -/

/-- A program for threads: from its own state and the shared one, a thread computes both anew. -/
structure Threads (Local Shared : Type) where
  count : ℕ
  start : Local
  isDone : Local → Bool
  step : ℕ → Local → Shared → Option (Local × Shared)

/-- The states of all threads, and the one that they share. -/
structure Config (Local Shared : Type) where
  locals : ℕ → Local
  shared : Shared

/-- The threads below `n` whose state is in `P`. -/
def threadsIn {Local : Type} (P : Local → Bool) (n : ℕ) (locals : ℕ → Local) : Finset ℕ :=
  (Finset.range n).filter fun t => P (locals t) = true

section threadsIn

variable {Local : Type} {P : Local → Bool} {n t : ℕ} {locals : ℕ → Local} {l : Local}

theorem mem_threadsIn {i : ℕ} : i ∈ threadsIn P n locals ↔ i < n ∧ P (locals i) = true := by
  rw [threadsIn, Finset.mem_filter, Finset.mem_range]

theorem threadsIn_update_same (h : t < n → P l = P (locals t)) :
    threadsIn P n (Function.update locals t l) = threadsIn P n locals := by
  refine Finset.filter_congr fun i hi => ?_
  by_cases hit : i = t
  · subst hit
    rw [Function.update_self, h (Finset.mem_range.mp hi)]
  · rw [Function.update_of_ne hit]

theorem threadsIn_update_insert (ht : t < n) (hl : P l = true) :
    threadsIn P n (Function.update locals t l) = insert t (threadsIn P n locals) := by
  ext i
  rw [Finset.mem_insert, mem_threadsIn, mem_threadsIn]
  by_cases hit : i = t
  · subst hit
    simp [ht, hl]
  · simp [hit]

end threadsIn

namespace Threads

variable {Local Shared : Type} (p : Threads Local Shared)

def init (s : Shared) : Config Local Shared := ⟨fun _ => p.start, s⟩

/-- Does the thread have a step to take? -/
def Active (c : Config Local Shared) (t : ℕ) : Prop := t < p.count ∧ p.isDone (c.locals t) = false

instance (c : Config Local Shared) (t : ℕ) : Decidable (p.Active c t) :=
  inferInstanceAs (Decidable (_ ∧ _))

/-- Thread `t` takes its next step. -/
def next (c : Config Local Shared) (t : ℕ) : Option (Config Local Shared) :=
  if p.Active c t then
    (p.step t (c.locals t) c.shared).map fun r => ⟨Function.update c.locals t r.1, r.2⟩
  else some c

/-- The threads take their steps in the order of the schedule. -/
def run (c : Config Local Shared) (schedule : List ℕ) : Option (Config Local Shared) :=
  schedule.foldlM p.next c

def Finished (c : Config Local Shared) : Prop := ∀ t < p.count, p.isDone (c.locals t) = true

/-- What the program ends with, in some interleaving; `none` is a fault. -/
inductive Ends (s : Shared) : Option Shared → Prop
  | finished {schedule c} : p.run (p.init s) schedule = some c → p.Finished c → Ends s (some c.shared)
  | fault {schedule} : p.run (p.init s) schedule = none → Ends s none

variable {p} {I : Config Local Shared → Prop} {s : Shared} {c c' : Config Local Shared}

/-- Does every step that is taken from a state in `I` lead to a state in `I`? -/
def Keeps (p : Threads Local Shared) (I : Config Local Shared → Prop) : Prop :=
  ∀ c t l s', I c → p.Active c t → p.step t (c.locals t) c.shared = some (l, s') →
    I ⟨Function.update c.locals t l, s'⟩

theorem next_invariant {t : ℕ} (hkeeps : p.Keeps I) (hc : I c) (hnext : p.next c t = some c') :
    I c' := by
  unfold next at hnext
  split at hnext
  · next hactive =>
    obtain ⟨⟨l, s'⟩, hstep, rfl⟩ := Option.map_eq_some_iff.mp hnext
    exact hkeeps c t l s' hc hactive hstep
  · obtain rfl := Option.some.inj hnext
    exact hc

/-- What every step keeps holds in every interleaving. -/
theorem run_invariant {schedule : List ℕ} (hkeeps : p.Keeps I) (hc : I c)
    (hrun : p.run c schedule = some c') : I c' := by
  induction schedule generalizing c with
  | nil =>
    obtain rfl := Option.some.inj hrun
    exact hc
  | cons t schedule ih =>
    obtain ⟨c₁, hnext, hrest⟩ := Option.bind_eq_some_iff.mp hrun
    exact ih (next_invariant hkeeps hc hnext) hrest

/-- A program whose steps do not fault from the states that they keep does not fault. -/
theorem not_fault {schedule : List ℕ} (hkeeps : p.Keeps I)
    (hsafe : ∀ c t, I c → p.Active c t → p.step t (c.locals t) c.shared ≠ none) (hc : I c) :
    p.run c schedule ≠ none := by
  induction schedule generalizing c with
  | nil => exact Option.some_ne_none c
  | cons t schedule ih =>
    have hnext : p.next c t ≠ none := by
      unfold next
      split
      · next hactive => exact mt Option.map_eq_none_iff.mp (hsafe c t hc hactive)
      · exact Option.some_ne_none c
    obtain ⟨c₁, hc₁⟩ := Option.ne_none_iff_exists'.mp hnext
    intro hrun
    refine ih (next_invariant hkeeps hc hc₁) ?_
    unfold run at hrun
    rw [List.foldlM_cons, hc₁] at hrun
    exact hrun

/-- What the interleavings that do not fault end with. -/
theorem ends_some {s' : Shared} (hkeeps : p.Keeps I) (hinit : I (p.init s))
    (h : p.Ends s (some s')) : ∃ c, c.shared = s' ∧ p.Finished c ∧ I c := by
  generalize ho : some s' = o at h
  cases h with
  | @finished _ c hrun hfinished =>
    exact ⟨c, (Option.some.inj ho).symm, hfinished, run_invariant hkeeps hinit hrun⟩
  | fault hrun => exact absurd ho (Option.some_ne_none s')

/-- The steps that the threads still have to take are bounded, so some schedule takes all of them or
leads to a fault. -/
theorem exists_schedule (rank : Local → ℕ)
    (hrank : ∀ t l s l' s', p.isDone l = false → p.step t l s = some (l', s') → rank l' < rank l)
    (c : Config Local Shared) : ∃ schedule,
      p.run c schedule = none ∨ ∃ c', p.run c schedule = some c' ∧ p.Finished c' := by
  induction h : ∑ t ∈ Finset.range p.count, rank (c.locals t) using Nat.strong_induction_on
    generalizing c with
  | _ n ih =>
    by_cases hfinished : p.Finished c
    · exact ⟨[], Or.inr ⟨c, rfl, hfinished⟩⟩
    · obtain ⟨t, ht, hdone⟩ : ∃ t < p.count, p.isDone (c.locals t) = false := by
        simpa [Finished] using hfinished
      cases hstep : p.step t (c.locals t) c.shared with
      | none =>
        refine ⟨[t], Or.inl ?_⟩
        simp [run, next, Active, ht, hdone, hstep]
      | some r =>
        obtain ⟨l, s'⟩ := r
        have hnext : p.next c t = some ⟨Function.update c.locals t l, s'⟩ := by
          simp [next, Active, ht, hdone, hstep]
        have hlt : ∑ i ∈ Finset.range p.count, rank (Function.update c.locals t l i) < n := by
          rw [← h]
          refine Finset.sum_lt_sum (fun i _ => ?_) ⟨t, Finset.mem_range.mpr ht, ?_⟩
          · by_cases hi : i = t
            · subst hi
              rw [Function.update_self]
              exact (hrank i _ _ _ _ hdone hstep).le
            · rw [Function.update_of_ne hi]
          · rw [Function.update_self]
            exact hrank t _ _ _ _ hdone hstep
        obtain ⟨schedule, hschedule⟩ := ih _ hlt ⟨Function.update c.locals t l, s'⟩ rfl
        refine ⟨t :: schedule, ?_⟩
        unfold run at hschedule ⊢
        rw [List.foldlM_cons, hnext]
        exact hschedule

/-- A program whose steps keep `I` and do not fault from there returns a state in which all threads
are finished. -/
theorem returns (rank : Local → ℕ)
    (hrank : ∀ t l s l' s', p.isDone l = false → p.step t l s = some (l', s') → rank l' < rank l)
    (hkeeps : p.Keeps I)
    (hsafe : ∀ c t, I c → p.Active c t → p.step t (c.locals t) c.shared ≠ none)
    (hinit : I (p.init s)) :
    Returns (p.Ends s) fun s' => ∃ c, c.shared = s' ∧ p.Finished c ∧ I c := by
  constructor
  · obtain ⟨schedule, hschedule⟩ := exists_schedule rank hrank (p.init s)
    cases hschedule with
    | inl hfault => exact ⟨none, .fault hfault⟩
    | inr hends =>
      obtain ⟨c, hrun, hfinished⟩ := hends
      exact ⟨some c.shared, .finished hrun hfinished⟩
  · intro o ho
    cases ho with
    | @finished _ c hrun hfinished =>
      exact ⟨c.shared, rfl, c, rfl, hfinished, run_invariant hkeeps hinit hrun⟩
    | fault hrun => exact absurd hrun (not_fault hkeeps hsafe hinit)

end Threads

end Interleave
