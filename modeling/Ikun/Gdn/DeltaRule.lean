import Mathlib.Algebra.BigOperators.Group.Finset.Basic
import Mathlib.Algebra.BigOperators.Intervals
import Mathlib.Algebra.BigOperators.Ring.Finset
import Mathlib.Algebra.Field.Basic
import Mathlib.Tactic.Abel
import Mathlib.Tactic.LinearCombination
import Mathlib.Tactic.Ring
import Ikun.Lib.Triangular

/-!
# The gated delta rule

`torchRecurrentGatedDeltaRule` updates the state of a head token by token.
`torchChunkGatedDeltaRule` takes the tokens in chunks: inside a chunk the updates are the solution
of a triangular system, which is solved by forward substitution, and the state is touched once for
each chunk.

The arithmetic is exact, in a commutative ring with an abstract exponential. The functions are those
of one batch entry and one head. `κ` indexes the components of a key, `ν` those of a value; positions
of a chunk are natural numbers.
-/

namespace Ikun.Gdn

open Finset

/-- The functions that the rules take from the tensor library. -/
structure DeltaOps (F : Type) [CommRing F] where
  exp : F → F
  rsqrt : F → F
  /-- The epsilon of `_l2norm`. -/
  eps : F
  /-- `1 / head_k_dim ** 0.5`. -/
  scale : F
  exp_add : ∀ a b, exp (a + b) = exp a * exp b
  exp_zero : exp 0 = 1

/-- What the rules read of one token. -/
structure DeltaToken (F κ ν : Type) where
  query : κ → F
  key : κ → F
  value : ν → F
  g : F
  beta : F

/-- The recurrent state of a head. -/
abbrev HeadState (F κ ν : Type) := κ → ν → F

variable {F κ ν : Type} [CommRing F] [Fintype κ]

/-- `_l2norm`. -/
def l2norm (ops : DeltaOps F) (x : κ → F) : κ → F :=
  fun d => x d * ops.rsqrt (∑ d, x d * x d + ops.eps)

/-- The token with normalised query and key, if asked for, and a scaled query. -/
def DeltaToken.prepare (ops : DeltaOps F) (useQkL2norm : Bool) (t : DeltaToken F κ ν) :
    DeltaToken F κ ν :=
  let query := if useQkL2norm then l2norm ops t.query else t.query
  let key := if useQkL2norm then l2norm ops t.key else t.key
  { t with query := fun d => query d * ops.scale, key := key }

/-! ## Token by token -/

/-- The state after a token. -/
def recurrentStep (ops : DeltaOps F) (lastState : HeadState F κ ν) (t : DeltaToken F κ ν) :
    HeadState F κ ν :=
  let decayed : HeadState F κ ν := fun d e => lastState d e * ops.exp t.g
  let kvMem := fun e => ∑ d, decayed d e * t.key d
  let delta := fun e => (t.value e - kvMem e) * t.beta
  fun d e => decayed d e + t.key d * delta e

/-- What a query reads from the state. -/
def readOut (state : HeadState F κ ν) (query : κ → F) : ν → F := fun e => ∑ d, state d e * query d

/-- The loop over the tokens. -/
def recurrentLoop (ops : DeltaOps F) :
    HeadState F κ ν → List (DeltaToken F κ ν) → List (ν → F) × HeadState F κ ν
  | lastState, [] => ([], lastState)
  | lastState, t :: ts =>
    let lastState := recurrentStep ops lastState t
    let rest := recurrentLoop ops lastState ts
    (readOut lastState t.query :: rest.1, rest.2)

/-- `_torch_recurrent_gated_delta_rule`. -/
def torchRecurrentGatedDeltaRule (ops : DeltaOps F) (tokens : List (DeltaToken F κ ν))
    (initialState : HeadState F κ ν) (useQkL2norm : Bool) : List (ν → F) × HeadState F κ ν :=
  recurrentLoop ops initialState (tokens.map (·.prepare ops useQkL2norm))

/-! ## Chunk by chunk -/

/-- The token that `F.pad` appends. -/
def DeltaToken.zero : DeltaToken F κ ν := ⟨fun _ => 0, fun _ => 0, fun _ => 0, 0, 0⟩

section chunk

variable (ops : DeltaOps F) (chunkSize : ℕ) (c : ℕ → DeltaToken F κ ν)

/-- `g.cumsum(dim=-1)`. -/
def cumsum (i : ℕ) : F := ∑ s ∈ range (i + 1), (c s).g

/-- `decay_mask`. -/
def decayMask (i j : ℕ) : F := if j ≤ i then ops.exp (cumsum c i - cumsum c j) else 0

/-- `attn` before the substitution: zero on and above the diagonal. -/
def attnInit (i j : ℕ) : F :=
  if i ≤ j then 0
  else -((∑ d, (c i).key d * (c i).beta * (c j).key d) * decayMask ops c i j)

/-- One round of the forward substitution: row `i` takes up the rows before it. -/
def substituteRow (attn : ℕ → ℕ → F) (i : ℕ) : ℕ → ℕ → F := fun i' j =>
  if i' = i ∧ j < i then attn i j + ∑ m ∈ range i, attn i m * attn m j else attn i' j

/-- `attn` after the substitution, with the unit diagonal. -/
def attnSolved (i j : ℕ) : F :=
  (List.range' 1 (chunkSize - 1)).foldl substituteRow (attnInit ops c) i j + if i = j then 1 else 0

/-- `attn @ v_beta`. -/
def valueMixed (i : ℕ) (e : ν) : F :=
  ∑ j ∈ range chunkSize, attnSolved ops chunkSize c i j * ((c j).value e * (c j).beta)

/-- `attn @ (k_beta * g.exp())`. -/
def kCumdecay (i : ℕ) (d : κ) : F :=
  ∑ j ∈ range chunkSize,
    attnSolved ops chunkSize c i j * ((c j).key d * (c j).beta * ops.exp (cumsum c j))

/-- `v_new`. -/
def vNew (lastState : HeadState F κ ν) (i : ℕ) (e : ν) : F :=
  valueMixed ops chunkSize c i e - ∑ d, kCumdecay ops chunkSize c i d * lastState d e

/-- `core_out` at position `i` of the chunk. -/
def coreOut (lastState : HeadState F κ ν) (i : ℕ) (e : ν) : F :=
  (∑ d, (c i).query d * ops.exp (cumsum c i) * lastState d e)
    + ∑ j ∈ range chunkSize,
      (if i < j then 0 else (∑ d, (c i).query d * (c j).key d) * decayMask ops c i j)
        * vNew ops chunkSize c lastState j e

/-- `last_state` after the chunk. -/
def chunkState (lastState : HeadState F κ ν) : HeadState F κ ν := fun d e =>
  lastState d e * ops.exp (cumsum c (chunkSize - 1))
    + ∑ i ∈ range chunkSize, (c i).key d * ops.exp (cumsum c (chunkSize - 1) - cumsum c i)
      * vNew ops chunkSize c lastState i e

end chunk

/-- The loop over the chunks. -/
def chunkLoop (ops : DeltaOps F) (chunkSize : ℕ) :
    ℕ → List (DeltaToken F κ ν) → HeadState F κ ν → List (ν → F) × HeadState F κ ν
  | 0, _, lastState => ([], lastState)
  | n + 1, tokens, lastState =>
    let c := fun i => tokens.getD i DeltaToken.zero
    let rest := chunkLoop ops chunkSize n (tokens.drop chunkSize)
      (chunkState ops chunkSize c lastState)
    ((List.range chunkSize).map (coreOut ops chunkSize c lastState) ++ rest.1, rest.2)

/-- `_torch_chunk_gated_delta_rule`. -/
def torchChunkGatedDeltaRule (ops : DeltaOps F) (tokens : List (DeltaToken F κ ν)) (chunkSize : ℕ)
    (initialState : HeadState F κ ν) (useQkL2norm : Bool) : List (ν → F) × HeadState F κ ν :=
  let seqLen := tokens.length
  let pad := (chunkSize - seqLen % chunkSize) % chunkSize
  let padded := tokens.map (·.prepare ops useQkL2norm) ++ List.replicate pad DeltaToken.zero
  let result := chunkLoop ops chunkSize ((seqLen + pad) / chunkSize) padded initialState
  (result.1.take seqLen, result.2)

/-! ## The triangular system of a chunk -/

section system

variable {ops : DeltaOps F} {chunkSize : ℕ} {c : ℕ → DeltaToken F κ ν}

/-- The rows up to `n` have been substituted. -/
theorem foldl_substituteRow (A : ℕ → ℕ → F) (hA : ∀ i j, i ≤ j → A i j = 0) (n : ℕ) :
    Triangular.IsResolvent (n + 1) A ((List.range' 1 n).foldl substituteRow A) ∧
      ∀ i j, n < i → (List.range' 1 n).foldl substituteRow A i j = A i j := by
  induction n with
  | zero =>
    refine ⟨⟨fun i j _ hij => hA i j hij, fun i j hi hj => ?_⟩, fun _ _ _ => rfl⟩
    exact absurd (Nat.lt_of_lt_of_le hj (Nat.lt_succ_iff.mp hi)) (Nat.not_lt_zero j)
  | succ n ih =>
    obtain ⟨⟨hstrict, hlower⟩, hrest⟩ := ih
    rw [List.range'_1_concat, List.foldl_append, List.foldl_cons, List.foldl_nil]
    generalize (List.range' 1 n).foldl substituteRow A = T at hstrict hlower hrest ⊢
    -- the other rows stay
    have hother : ∀ i j, i ≠ 1 + n → substituteRow T (1 + n) i j = T i j := fun i j hi =>
      if_neg fun h => hi h.1
    refine ⟨⟨fun i j hi hij => ?_, fun i j hi hj => ?_⟩, fun i j hi => ?_⟩
    · by_cases he : i = 1 + n
      · subst he
        rw [substituteRow, if_neg fun h => absurd h.2 (Nat.not_lt.mpr hij),
          hrest _ j (by omega), hA _ j hij]
      · rw [hother i j he, hstrict i j (by omega) hij]
    · by_cases he : i = 1 + n
      · subst he
        rw [substituteRow, if_pos ⟨rfl, hj⟩, hrest _ j (by omega)]
        congr 1
        refine Finset.sum_congr rfl fun m hm => ?_
        rw [hrest _ m (by omega), hother m j (by have := Finset.mem_range.mp hm; omega)]
      · rw [hother i j he, hlower i j (by omega) hj]
        congr 1
        refine Finset.sum_congr rfl fun m hm => ?_
        rw [hother m j (by have := Finset.mem_range.mp hm; omega)]
    · rw [hother i j (by omega), hrest i j (by omega)]

/-- The right-hand side of the system: the update that a token would make if the state did not
change inside the chunk. -/
def rhs (ops : DeltaOps F) (c : ℕ → DeltaToken F κ ν) (lastState : HeadState F κ ν) (e : ν)
    (i : ℕ) : F :=
  (c i).beta * ((c i).value e
    - ops.exp (cumsum c i) * ∑ d, (c i).key d * lastState d e)

/-- `v_new` solves the triangular system of the chunk. -/
theorem vNew_eq (lastState : HeadState F κ ν) (e : ν) {i : ℕ} (hi : i < chunkSize) :
    vNew ops chunkSize c lastState i e
      = rhs ops c lastState e i
        + ∑ j ∈ range i, attnInit ops c i j * vNew ops chunkSize c lastState j e := by
  have hA : ∀ i j, i ≤ j → attnInit ops c i j = 0 := fun i j h => if_pos h
  obtain ⟨n, rfl⟩ : ∃ n, chunkSize = n + 1 := ⟨chunkSize - 1, by omega⟩
  have hres := (foldl_substituteRow (attnInit ops c) hA n).1
  have hmix : ∀ k < n + 1, vNew ops (n + 1) c lastState k e
      = rhs ops c lastState e k + ∑ j ∈ range k,
        (List.range' 1 n).foldl substituteRow (attnInit ops c) k j * rhs ops c lastState e j := by
    intro k hk
    have hsum : vNew ops (n + 1) c lastState k e
        = ∑ j ∈ range (n + 1), attnSolved ops (n + 1) c k j * rhs ops c lastState e j := by
      unfold vNew valueMixed kCumdecay
      simp only [Finset.sum_mul]
      rw [Finset.sum_comm, ← Finset.sum_sub_distrib]
      refine Finset.sum_congr rfl fun j _ => ?_
      unfold rhs
      rw [mul_sub, mul_sub, Finset.mul_sum, Finset.mul_sum, Finset.mul_sum]
      congr 1
      · ring
      · exact Finset.sum_congr rfl fun d _ => by ring
    rw [hsum]
    unfold attnSolved
    simp only [add_mul, ite_mul, one_mul, zero_mul, Finset.sum_add_distrib, Nat.add_sub_cancel]
    rw [Finset.sum_ite_eq, if_pos (Finset.mem_range.mpr hk), hres.sum_eq _ hk hk.le, add_comm]
  rw [hmix i hi, hres.solves _ hi]
  congr 1
  refine Finset.sum_congr rfl fun m hm => ?_
  rw [hmix m ((Finset.mem_range.mp hm).trans hi)]

end system

/-! ## A chunk is a run of the recurrence -/

section recurrence

variable {ops : DeltaOps F} {chunkSize : ℕ} {c : ℕ → DeltaToken F κ ν}

/-- The state after the first tokens of a chunk. -/
def stateAfter (ops : DeltaOps F) (c : ℕ → DeltaToken F κ ν) (lastState : HeadState F κ ν) :
    ℕ → HeadState F κ ν
  | 0 => lastState
  | i + 1 => recurrentStep ops (stateAfter ops c lastState i) (c i)

omit [Fintype κ] in
theorem decayMask_of_le {i j : ℕ} (h : j ≤ i) :
    decayMask ops c i j = ops.exp (cumsum c i - cumsum c j) := if_pos h

/-- The state is the decayed initial state plus the decayed updates of the tokens so far. -/
theorem stateAfter_eq (chunkSize : ℕ) (lastState : HeadState F κ ν) (d : κ) (e : ν) :
    ∀ {i : ℕ}, i ≤ chunkSize → stateAfter ops c lastState i d e
      = lastState d e * ops.exp (∑ s ∈ range i, (c s).g)
        + ∑ j ∈ range i, (c j).key d * ops.exp (∑ s ∈ range i, (c s).g - cumsum c j)
          * vNew ops chunkSize c lastState j e
  | 0, _ => by simp [stateAfter, ops.exp_zero]
  | i + 1, hi => by
    have hP : cumsum c i = ∑ s ∈ range i, (c s).g + (c i).g := Finset.sum_range_succ _ i
    have hdecayed : ∀ d, stateAfter ops c lastState i d e * ops.exp (c i).g
        = lastState d e * ops.exp (cumsum c i)
          + ∑ j ∈ range i, (c j).key d * decayMask ops c i j
            * vNew ops chunkSize c lastState j e := by
      intro d
      rw [stateAfter_eq chunkSize lastState d e (Nat.le_of_succ_le hi), add_mul, Finset.sum_mul, hP,
        ops.exp_add, mul_assoc]
      congr 1
      refine Finset.sum_congr rfl fun j hj => ?_
      have hexp : ops.exp (∑ s ∈ range i, (c s).g - cumsum c j) * ops.exp (c i).g
          = decayMask ops c i j := by
        rw [decayMask_of_le (Finset.mem_range.mp hj).le, ← ops.exp_add, hP]
        congr 1
        abel
      rw [← hexp]
      ring
    -- the update of the recurrence is the solution of the triangular system
    have hdelta : ((c i).value e
        - ∑ d, stateAfter ops c lastState i d e * ops.exp (c i).g * (c i).key d) * (c i).beta
          = vNew ops chunkSize c lastState i e := by
      have hmem : ∑ d, stateAfter ops c lastState i d e * ops.exp (c i).g * (c i).key d
          = ops.exp (cumsum c i) * ∑ d, (c i).key d * lastState d e
            + ∑ j ∈ range i, (∑ d, (c i).key d * (c j).key d) * decayMask ops c i j
              * vNew ops chunkSize c lastState j e := by
        simp only [hdecayed, add_mul, Finset.sum_mul, Finset.mul_sum, Finset.sum_add_distrib]
        congr 1
        · exact Finset.sum_congr rfl fun d _ => by ring
        · rw [Finset.sum_comm]
          refine Finset.sum_congr rfl fun j _ => Finset.sum_congr rfl fun d _ => ?_
          ring
      rw [vNew_eq lastState e hi, hmem]
      have hattn : ∑ j ∈ range i, attnInit ops c i j * vNew ops chunkSize c lastState j e
          = -((c i).beta * ∑ j ∈ range i, (∑ d, (c i).key d * (c j).key d) * decayMask ops c i j
              * vNew ops chunkSize c lastState j e) := by
        rw [Finset.mul_sum, ← Finset.sum_neg_distrib]
        refine Finset.sum_congr rfl fun j hj => ?_
        have hkey : ∑ d, (c i).key d * (c i).beta * (c j).key d
            = (c i).beta * ∑ d, (c i).key d * (c j).key d := by
          rw [Finset.mul_sum]
          exact Finset.sum_congr rfl fun d _ => by ring
        rw [attnInit, if_neg (Nat.not_le.mpr (Finset.mem_range.mp hj)), hkey]
        ring
      rw [hattn, rhs]
      ring
    show stateAfter ops c lastState i d e * ops.exp (c i).g + (c i).key d * (((c i).value e
        - ∑ d, stateAfter ops c lastState i d e * ops.exp (c i).g * (c i).key d) * (c i).beta) = _
    have hlast := Finset.sum_range_succ (fun j => (c j).key d
      * ops.exp (∑ s ∈ range (i + 1), (c s).g - cumsum c j) * vNew ops chunkSize c lastState j e) i
    have hself : ops.exp (∑ s ∈ range (i + 1), (c s).g - cumsum c i) = 1 := by
      rw [cumsum, sub_self, ops.exp_zero]
    rw [hself, mul_one] at hlast
    rw [hdelta, hdecayed, hlast, add_assoc]
    refine congrArg₂ _ rfl (congrArg₂ _ (Finset.sum_congr rfl fun j hj => ?_) rfl)
    rw [decayMask_of_le (Finset.mem_range.mp hj).le, cumsum]

/-- What the chunk computes at a position is what the recurrence reads there. -/
theorem coreOut_eq (lastState : HeadState F κ ν) {i : ℕ} (hi : i < chunkSize) :
    coreOut ops chunkSize c lastState i
      = readOut (stateAfter ops c lastState (i + 1)) (c i).query := by
  funext e
  unfold readOut coreOut
  simp only [stateAfter_eq chunkSize lastState _ e hi, add_mul, Finset.sum_mul,
    Finset.sum_add_distrib]
  congr 1
  · exact Finset.sum_congr rfl fun d _ => by rw [cumsum]; ring
  · rw [Finset.sum_comm]
    have hsub : ∑ j ∈ range chunkSize, (if i < j then 0
        else (∑ d, (c i).query d * (c j).key d) * decayMask ops c i j)
          * vNew ops chunkSize c lastState j e
        = ∑ j ∈ range (i + 1), (if i < j then 0
          else (∑ d, (c i).query d * (c j).key d) * decayMask ops c i j)
            * vNew ops chunkSize c lastState j e := by
      symm
      refine Finset.sum_subset (Finset.range_mono hi) fun j _ hj => ?_
      rw [if_pos (by simpa using hj), zero_mul]
    simp only [Finset.sum_mul] at hsub
    rw [hsub]
    refine Finset.sum_congr rfl fun j hj => ?_
    have hji : j ≤ i := Nat.lt_succ_iff.mp (Finset.mem_range.mp hj)
    rw [if_neg (Nat.not_lt.mpr hji), decayMask_of_le hji, Finset.sum_mul]
    refine Finset.sum_congr rfl fun d _ => ?_
    rw [cumsum]
    ring

/-- The state after the chunk is the state after its last token. -/
theorem chunkState_eq (lastState : HeadState F κ ν) (h : 0 < chunkSize) :
    chunkState ops chunkSize c lastState = stateAfter ops c lastState chunkSize := by
  funext d e
  rw [stateAfter_eq chunkSize lastState d e le_rfl]
  unfold chunkState cumsum
  rw [Nat.sub_add_cancel h]

/-- The recurrence over consecutive tokens of a chunk. -/
theorem recurrentLoop_stateAfter (ops : DeltaOps F) (c : ℕ → DeltaToken F κ ν)
    (lastState : HeadState F κ ν) (n : ℕ) : ∀ s, recurrentLoop ops (stateAfter ops c lastState s) ((List.range' s n).map c)
      = ((List.range' s n).map fun i => readOut (stateAfter ops c lastState (i + 1)) (c i).query,
          stateAfter ops c lastState (s + n)) := by
  induction n with
  | zero => exact fun s => rfl
  | succ n ih =>
    intro s
    have hstep : recurrentStep ops (stateAfter ops c lastState s) (c s)
        = stateAfter ops c lastState (s + 1) := rfl
    rw [List.range'_succ, List.map_cons, List.map_cons, recurrentLoop, hstep, ih (s + 1)]
    simp only [Nat.add_assoc, Nat.add_comm n 1]

/-- The recurrence over a list is chained over its parts. -/
theorem recurrentLoop_append (S : HeadState F κ ν) (xs ys : List (DeltaToken F κ ν)) :
    recurrentLoop ops S (xs ++ ys)
      = ((recurrentLoop ops S xs).1 ++ (recurrentLoop ops (recurrentLoop ops S xs).2 ys).1,
          (recurrentLoop ops (recurrentLoop ops S xs).2 ys).2) := by
  induction xs generalizing S with
  | nil => rfl
  | cons x xs ih =>
    rw [List.cons_append, recurrentLoop, ih]
    rfl

theorem length_recurrentLoop (S : HeadState F κ ν) (xs : List (DeltaToken F κ ν)) :
    (recurrentLoop ops S xs).1.length = xs.length := by
  induction xs generalizing S with
  | nil => rfl
  | cons x xs ih => rw [recurrentLoop, List.length_cons, List.length_cons, ih]

/-- A padding token leaves the state alone. -/
theorem recurrentLoop_replicate_zero (S : HeadState F κ ν) (n : ℕ) :
    (recurrentLoop ops S (List.replicate n DeltaToken.zero)).2 = S := by
  induction n generalizing S with
  | zero => rfl
  | succ n ih =>
    have hstep : recurrentStep ops S (DeltaToken.zero : DeltaToken F κ ν) = S := by
      funext d e
      simp [recurrentStep, DeltaToken.zero, ops.exp_zero]
    rw [List.replicate_succ, recurrentLoop, hstep]
    exact ih S

/-- The loop over whole chunks is the recurrence. -/
theorem chunkLoop_eq (h : 0 < chunkSize) (n : ℕ) :
    ∀ (tokens : List (DeltaToken F κ ν)) (S : HeadState F κ ν), tokens.length = n * chunkSize →
      chunkLoop ops chunkSize n tokens S = recurrentLoop ops S tokens := by
  induction n with
  | zero =>
    intro tokens S hlen
    rw [Nat.zero_mul] at hlen
    rw [List.length_eq_zero_iff.mp hlen]
    rfl
  | succ n ih =>
    intro tokens S hlen
    rw [Nat.succ_mul] at hlen
    have htake : tokens.take chunkSize
        = (List.range' 0 chunkSize).map fun i => tokens.getD i DeltaToken.zero := by
      refine List.ext_getElem (by simp [hlen]) fun i h₁ h₂ => ?_
      have hi : i < tokens.length := by
        rw [List.length_take] at h₁
        omega
      simp [List.getElem?_eq_getElem hi]
    have hhead := recurrentLoop_stateAfter ops (fun i => tokens.getD i DeltaToken.zero) S
      chunkSize 0
    conv_rhs => rw [← List.take_append_drop chunkSize tokens, recurrentLoop_append, htake]
    rw [show S = stateAfter ops (fun i => tokens.getD i DeltaToken.zero) S 0 from rfl, hhead,
      chunkLoop, Nat.zero_add]
    dsimp only [stateAfter]
    rw [chunkState_eq S h, ih _ _ (by rw [List.length_drop]; omega)]
    congr 2
    rw [← List.range_eq_range']
    exact List.map_congr_left fun i hi => coreOut_eq S (List.mem_range.mp hi)

/-- The chunked rule computes the recurrence. -/
theorem torchChunkGatedDeltaRule_eq (h : 0 < chunkSize) (tokens : List (DeltaToken F κ ν))
    (S : HeadState F κ ν) (useQkL2norm : Bool) :
    torchChunkGatedDeltaRule ops tokens chunkSize S useQkL2norm
      = torchRecurrentGatedDeltaRule ops tokens S useQkL2norm := by
  unfold torchChunkGatedDeltaRule torchRecurrentGatedDeltaRule
  dsimp only
  have hdvd : chunkSize ∣ tokens.length + (chunkSize - tokens.length % chunkSize) % chunkSize := by
    have hlt := Nat.mod_lt tokens.length h
    rw [Nat.dvd_iff_mod_eq_zero, Nat.add_mod, Nat.mod_mod]
    rcases Nat.eq_zero_or_pos (tokens.length % chunkSize) with hz | hpos
    · simp [hz]
    · rw [Nat.mod_eq_of_lt (Nat.sub_lt h hpos), Nat.add_sub_of_le hlt.le, Nat.mod_self]
  rw [chunkLoop_eq h _ _ S (by
    rw [List.length_append, List.length_map, List.length_replicate, Nat.div_mul_cancel hdvd]),
    recurrentLoop_append]
  refine Prod.ext ?_ (recurrentLoop_replicate_zero _ _)
  exact List.take_left' (by rw [length_recurrentLoop, List.length_map])

end recurrence

end Ikun.Gdn
