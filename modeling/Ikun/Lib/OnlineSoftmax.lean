import Mathlib.Algebra.BigOperators.Group.List.Basic
import Mathlib.Algebra.BigOperators.Ring.List
import Mathlib.Algebra.Order.BigOperators.Group.List
import Mathlib.Algebra.Order.Field.Basic
import Mathlib.Tactic.Common

/-!
# Softmax that is accumulated

A softmax over a list of scores and values can be accumulated piece by piece: a reference `μ`, the sum
of the weights `exp (s - μ)` and the values mixed with these weights. Another reference scales both
by the same factor (`expSum_shift`, `expMix_shift`), so the quotient does not depend on it
(`mix_div_sum`).

The exponential is abstract. A score is a number or `none`, which stands for minus infinity and has no
weight. `ExtNum` are the numbers with minus infinity and a `nan` for everything that is not a number.
-/

namespace OnlineSoftmax

variable {K : Type} [Field K] [LinearOrder K] [IsStrictOrderedRing K]

/-- A positive exponential. -/
structure Exponential (K : Type) [Field K] [LinearOrder K] where
  exp : K → K
  exp_pos : ∀ a, 0 < exp a
  exp_add : ∀ a b, exp (a + b) = exp a * exp b

/-! ## Weights -/

section weights

variable {D : Type} (e : Exponential K)

/-- The weight of a score. -/
def weight (μ : K) : Option K → K
  | some s => e.exp (s - μ)
  | none => 0

/-- The sum of the weights. -/
def expSum (μ : K) (pairs : List (Option K × (D → K))) : K :=
  (pairs.map fun p => weight e μ p.1).sum

/-- The values, mixed with the weights. -/
def expMix (μ : K) (pairs : List (Option K × (D → K))) (d : D) : K :=
  (pairs.map fun p => weight e μ p.1 * p.2 d).sum

/-- The softmax of the scores, applied to the values. -/
def softmax (pairs : List (Option K × (D → K))) (d : D) : K :=
  expMix e 0 pairs d / expSum e 0 pairs

variable {e} {μ μ' : K} {pairs pairs' : List (Option K × (D → K))}

omit [IsStrictOrderedRing K] in
theorem weight_shift (s : Option K) : weight e μ' s = e.exp (μ - μ') * weight e μ s := by
  cases s with
  | none => exact (mul_zero _).symm
  | some s =>
    unfold weight
    rw [← e.exp_add, add_comm, sub_add_sub_cancel]

omit [IsStrictOrderedRing K] in
theorem weight_nonneg (s : Option K) : 0 ≤ weight e μ s := by
  cases s with
  | none => exact le_refl _
  | some s => exact (e.exp_pos _).le

omit [IsStrictOrderedRing K] in
theorem expSum_append : expSum e μ (pairs ++ pairs') = expSum e μ pairs + expSum e μ pairs' := by
  unfold expSum
  rw [List.map_append, List.sum_append]

omit [IsStrictOrderedRing K] in
theorem expMix_append (d : D) :
    expMix e μ (pairs ++ pairs') d = expMix e μ pairs d + expMix e μ pairs' d := by
  unfold expMix
  rw [List.map_append, List.sum_append]

omit [IsStrictOrderedRing K] in
/-- Another reference scales the sum of the weights. -/
theorem expSum_shift (μ μ' : K) (pairs : List (Option K × (D → K))) :
    expSum e μ' pairs = e.exp (μ - μ') * expSum e μ pairs := by
  unfold expSum
  rw [← List.sum_map_mul_left]
  exact congrArg List.sum (List.map_congr_left fun p _ => weight_shift p.1)

omit [IsStrictOrderedRing K] in
/-- Another reference scales the mixed values. -/
theorem expMix_shift (μ μ' : K) (pairs : List (Option K × (D → K))) (d : D) :
    expMix e μ' pairs d = e.exp (μ - μ') * expMix e μ pairs d := by
  unfold expMix
  rw [← List.sum_map_mul_left]
  refine congrArg List.sum (List.map_congr_left fun p _ => ?_)
  rw [weight_shift, mul_assoc]

/-- A score that is a number has a weight. -/
theorem expSum_pos (h : ∃ p ∈ pairs, p.1 ≠ none) : 0 < expSum e μ pairs := by
  obtain ⟨p, hp, hscore⟩ := h
  obtain ⟨front, behind, rfl⟩ := List.append_of_mem hp
  have hnonneg : ∀ l : List (Option K × (D → K)), 0 ≤ expSum e μ l := fun l =>
    List.sum_nonneg fun x hx => by
      obtain ⟨q, -, rfl⟩ := List.mem_map.mp hx
      exact weight_nonneg q.1
  have hpos : 0 < weight e μ p.1 := by
    cases hs : p.1 with
    | none => exact absurd hs hscore
    | some s => exact e.exp_pos _
  have hcons : expSum e μ (p :: behind) = weight e μ p.1 + expSum e μ behind := List.sum_cons
  rw [expSum_append, hcons]
  exact add_pos_of_nonneg_of_pos (hnonneg front) (add_pos_of_pos_of_nonneg hpos (hnonneg behind))

omit [IsStrictOrderedRing K] in
/-- The reference does not matter for the quotient. -/
theorem mix_div_sum (d : D) : expMix e μ pairs d / expSum e μ pairs = softmax e pairs d := by
  unfold softmax
  rw [expMix_shift 0 μ, expSum_shift 0 μ, mul_div_mul_left _ _ (e.exp_pos _).ne']

omit [IsStrictOrderedRing K] in
/-- Scores without weight can be left out. -/
theorem softmax_filter (d : D) :
    softmax e (pairs.filter fun p => p.1.isSome) d = softmax e pairs d := by
  have hsum : ∀ f : Option K × (D → K) → K, (∀ p ∈ pairs, p.1 = none → f p = 0) →
      ((pairs.filter fun p => p.1.isSome).map f).sum = (pairs.map f).sum := by
    intro f hf
    induction pairs with
    | nil => rfl
    | cons p pairs ih =>
      have hrest := ih fun q hq => hf q (List.mem_cons_of_mem p hq)
      cases hs : p.1 with
      | none =>
        rw [List.filter_cons_of_neg (by rw [hs]; exact Bool.false_ne_true), hrest, List.map_cons, List.sum_cons,
          hf p List.mem_cons_self hs, zero_add]
      | some s =>
        rw [List.filter_cons_of_pos (by rw [hs]; rfl), List.map_cons, List.sum_cons, hrest,
          List.map_cons, List.sum_cons]
  unfold softmax expMix expSum
  rw [hsum _ fun p _ hp => by rw [hp]; exact zero_mul _, hsum _ fun p _ hp => by rw [hp]; rfl]

end weights

/-! ## Numbers with minus infinity -/

/-- A number, minus infinity, or what is neither. -/
inductive ExtNum (K : Type)
  | nan
  | negInf
  | fin (x : K)
  deriving DecidableEq

namespace ExtNum

/-- A score as a number. -/
def ofScore : Option K → ExtNum K
  | none => negInf
  | some s => fin s

/-- Sum of two numbers. -/
def add : ExtNum K → ExtNum K → ExtNum K
  | fin x, fin y => fin (x + y)
  | nan, _ => nan
  | _, nan => nan
  | _, _ => negInf

/-- Difference; what minus infinity is taken from is no number. -/
def sub : ExtNum K → ExtNum K → ExtNum K
  | fin x, fin y => fin (x - y)
  | negInf, fin _ => negInf
  | _, _ => nan

/-- Product of two numbers. -/
def mul : ExtNum K → ExtNum K → ExtNum K
  | fin x, fin y => fin (x * y)
  | _, _ => nan

/-- Quotient of two numbers; what is divided by zero is no number. -/
def div : ExtNum K → ExtNum K → ExtNum K
  | fin x, fin y => if y = 0 then nan else fin (x / y)
  | _, _ => nan

/-- The larger of two numbers. -/
def maximum : ExtNum K → ExtNum K → ExtNum K
  | fin x, fin y => fin (max x y)
  | nan, _ => nan
  | _, nan => nan
  | negInf, y => y
  | x, negInf => x

/-- The larger of two numbers, where what is no number does not count. -/
def fmax : ExtNum K → ExtNum K → ExtNum K
  | fin x, fin y => fin (max x y)
  | nan, y => y
  | x, nan => x
  | negInf, y => y
  | x, negInf => x

/-- The exponential; that of minus infinity is zero. -/
def exp (e : Exponential K) : ExtNum K → ExtNum K
  | fin x => fin (e.exp x)
  | negInf => fin 0
  | nan => nan

/-- The largest of some numbers; there is none of no numbers. -/
def amax : List (ExtNum K) → ExtNum K
  | [] => nan
  | x :: xs => xs.foldl maximum x

/-- The sum of some numbers. -/
def sum (xs : List (ExtNum K)) : ExtNum K := xs.foldl add (fin 0)

/-- The sum of products. -/
def dot (xs ys : List (ExtNum K)) : ExtNum K := sum (List.zipWith mul xs ys)

omit [LinearOrder K] [IsStrictOrderedRing K] in
theorem add_comm' (a b : ExtNum K) : add a b = add b a := by
  cases a <;> cases b <;> first | rfl | exact congrArg fin (add_comm _ _)

omit [LinearOrder K] [IsStrictOrderedRing K] in
theorem add_assoc' (a b c : ExtNum K) : add (add a b) c = add a (add b c) := by
  cases a <;> cases b <;> cases c <;> first | rfl | exact congrArg fin (add_assoc _ _ _)

omit [LinearOrder K] [IsStrictOrderedRing K] in
theorem add_zero' (a : ExtNum K) : add a (fin 0) = a := by
  cases a <;> first | rfl | exact congrArg fin (add_zero _)

omit [LinearOrder K] [IsStrictOrderedRing K] in
theorem mul_comm' (a b : ExtNum K) : mul a b = mul b a := by
  cases a <;> cases b <;> first | rfl | exact congrArg fin (mul_comm _ _)

omit [IsStrictOrderedRing K] [Field K] in
theorem fmax_comm (a b : ExtNum K) : fmax a b = fmax b a := by
  cases a <;> cases b <;> first | rfl | exact congrArg fin (max_comm _ _)

omit [IsStrictOrderedRing K] [Field K] in
theorem fmax_assoc (a b c : ExtNum K) : fmax (fmax a b) c = fmax a (fmax b c) := by
  cases a <;> cases b <;> cases c <;> first | rfl | exact congrArg fin (max_assoc _ _ _)

omit [IsStrictOrderedRing K] [Field K] in
theorem maximum_assoc (a b c : ExtNum K) :
    maximum (maximum a b) c = maximum a (maximum b c) := by
  cases a <;> cases b <;> cases c <;> first | rfl | exact congrArg fin (max_assoc _ _ _)

omit [LinearOrder K] [IsStrictOrderedRing K] in
instance : Std.Commutative (add (K := K)) := ⟨add_comm'⟩

omit [LinearOrder K] [IsStrictOrderedRing K] in
instance : Std.Associative (add (K := K)) := ⟨add_assoc'⟩

omit [IsStrictOrderedRing K] [Field K] in
instance : Std.Commutative (fmax (K := K)) := ⟨fmax_comm⟩

omit [IsStrictOrderedRing K] [Field K] in
instance : Std.Associative (fmax (K := K)) := ⟨fmax_assoc⟩

omit [LinearOrder K] [IsStrictOrderedRing K] in
/-- The factors of a sum of products can be exchanged. -/
theorem dot_comm (xs ys : List (ExtNum K)) : dot xs ys = dot ys xs :=
  congrArg sum (List.zipWith_comm_of_comm mul_comm')

omit [LinearOrder K] [IsStrictOrderedRing K] in
theorem sum_map_fin (xs : List K) : sum (xs.map fin) = fin xs.sum := by
  have hfold : ∀ (xs : List K) (a : K), (xs.map fin).foldl add (fin a) = fin (a + xs.sum) := by
    intro xs
    induction xs with
    | nil => exact fun a => congrArg fin (add_zero a).symm
    | cons x xs ih =>
      intro a
      rw [List.map_cons, List.foldl_cons, List.sum_cons, ← add_assoc]
      exact ih (a + x)
  unfold sum
  rw [hfold, zero_add]

omit [LinearOrder K] [IsStrictOrderedRing K] in
theorem dot_map_fin (xs ys : List K) :
    dot (xs.map fin) (ys.map fin) = fin (List.zipWith (· * ·) xs ys).sum := by
  unfold dot
  rw [← sum_map_fin, List.map_zipWith, List.zipWith_map]
  rfl

omit [IsStrictOrderedRing K] in
/-- The weight of a score, as the exponential of a difference. -/
theorem exp_sub (e : Exponential K) (μ : K) (s : Option K) :
    exp e (sub (ofScore s) (fin μ)) = fin (weight e μ s) := by
  cases s with
  | none => rfl
  | some s => rfl

omit [IsStrictOrderedRing K] [Field K] in
theorem maximum_ofScore (s s' : Option K) :
    ∃ m, maximum (ofScore s) (ofScore s') = ofScore m ∧ (m = none ↔ s = none ∧ s' = none) := by
  cases s with
  | none =>
    cases s' with
    | none => exact ⟨none, rfl, iff_of_true rfl ⟨rfl, rfl⟩⟩
    | some y => exact ⟨some y, rfl, iff_of_false (Option.some_ne_none y) fun h => by cases h.2⟩
  | some x =>
    cases s' with
    | none => exact ⟨some x, rfl, iff_of_false (Option.some_ne_none x) fun h => by cases h.1⟩
    | some y => exact ⟨some (max x y), rfl, iff_of_false (Option.some_ne_none _) fun h => by cases h.1⟩

omit [IsStrictOrderedRing K] [Field K] in
/-- The largest of some scores is a score, and minus infinity only if all are. -/
theorem amax_map_ofScore {scores : List (Option K)} (hne : scores ≠ []) :
    ∃ m, amax (scores.map ofScore) = ofScore m ∧ (m = none → ∀ s ∈ scores, s = none) := by
  have hfold : ∀ (scores : List (Option K)) (s : Option K),
      ∃ m, (scores.map ofScore).foldl maximum (ofScore s) = ofScore m ∧
        (m = none → s = none ∧ ∀ s ∈ scores, s = none) := by
    intro scores
    induction scores with
    | nil => exact fun s => ⟨s, rfl, fun hm => ⟨hm, fun _ h => absurd h List.not_mem_nil⟩⟩
    | cons x scores ih =>
      intro s
      obtain ⟨m, hm, hnone⟩ := maximum_ofScore s x
      obtain ⟨m', hm', hnone'⟩ := ih m
      refine ⟨m', ?_, fun h => ?_⟩
      · rw [List.map_cons, List.foldl_cons, hm, hm']
      · obtain ⟨hs, hx⟩ := hnone.mp (hnone' h).1
        exact ⟨hs, List.forall_mem_cons.mpr ⟨hx, (hnone' h).2⟩⟩
  cases scores with
  | nil => exact absurd rfl hne
  | cons s scores =>
    obtain ⟨m, hm, hnone⟩ := hfold scores s
    exact ⟨m, hm, fun h => List.forall_mem_cons.mpr (hnone h)⟩

omit [IsStrictOrderedRing K] [Field K] in
/-- Scores are numbers, so their maximum can be taken in either way. -/
theorem foldl_fmax {scores : List (Option K)} (hne : scores ≠ []) (s : Option K) :
    (scores.map ofScore).foldl fmax (ofScore s)
      = maximum (ofScore s) (amax (scores.map ofScore)) := by
  have hsame : ∀ s s' : Option K, fmax (ofScore s) (ofScore s') = maximum (ofScore s) (ofScore s') := by
    intro s s'
    cases s <;> cases s' <;> rfl
  have hfold : ∀ (scores : List (Option K)) (s : Option K),
      (scores.map ofScore).foldl fmax (ofScore s) = (scores.map ofScore).foldl maximum (ofScore s) := by
    intro scores
    induction scores with
    | nil => exact fun _ => rfl
    | cons x scores ih =>
      intro s
      obtain ⟨m, hm, -⟩ := maximum_ofScore s x
      rw [List.map_cons, List.foldl_cons, List.foldl_cons, hsame, hm]
      exact ih m
  have hassoc : ∀ (xs : List (ExtNum K)) (a b : ExtNum K),
      xs.foldl maximum (maximum a b) = maximum a (xs.foldl maximum b) := by
    intro xs
    induction xs with
    | nil => exact fun _ _ => rfl
    | cons x xs ih =>
      intro a b
      rw [List.foldl_cons, List.foldl_cons, maximum_assoc]
      exact ih a (maximum b x)
  rw [hfold]
  cases scores with
  | nil => exact absurd rfl hne
  | cons x scores => exact hassoc _ _ _

end ExtNum

end OnlineSoftmax
