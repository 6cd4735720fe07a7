import Mathlib.Algebra.Order.Ring.Nat
import Mathlib.Data.List.Nodup
import Mathlib.Data.List.Perm.Basic
import Mathlib.Tactic.Common

/-!
# Loops over buffers

The loops of a device program. Buffers are lists, and what is read or written outside of a buffer is
`none`; so a program that returns something has computed no index out of range.

A loop in which every iteration writes a cell of its own does not depend on the order of its iterations
(`forEachAcc_spec`, `forEach_spec`). The iterations of a grid, `gridStride`, are those up to its total,
each once (`gridStride_perm`). The tree reduction of a block of threads combines what the threads have
in any order (`blockReduce_spec`).
-/

namespace Device

variable {α β ι τ : Type}

/-- A read. -/
def load (buf : List α) (i : ℕ) : Option α := buf[i]?

/-- A write. -/
def store (buf : List α) (i : ℕ) (v : α) : Option (List α) :=
  if i < buf.length then some (buf.set i v) else none

/-- The iterations of thread `t` of `threads`: `for (i = t; i < total; i += threads)`. -/
def strided (total threads t : ℕ) : List ℕ :=
  (List.range ((total - t + threads - 1) / threads)).map fun k => t + k * threads

/-- The iterations of all threads. -/
def gridStride (total threads : ℕ) : List ℕ :=
  (List.range threads).flatMap (strided total threads)

/-- A loop that writes the cell `addr i` at iteration `i` and accumulates what it writes. -/
def forEachAcc (indices : List ι) (addr : ι → ℕ) (f : ι → List α → Option α) (op : β → α → β)
    (state : List α × β) : Option (List α × β) :=
  indices.foldlM (fun state i => do
    let v ← f i state.1
    return (← store state.1 (addr i) v, op state.2 v)) state

/-- A loop that writes the cell `addr i` at iteration `i`. -/
def forEach (indices : List ι) (addr : ι → ℕ) (f : ι → List α → Option α) (buf : List α) :
    Option (List α) :=
  indices.foldlM (fun buf i => do store buf (addr i) (← f i buf)) buf

/-- The loops of a block of threads, one after the other; each thread accumulates from `start`. -/
def blockLoop (threads : List τ) (indices : τ → List ι) (addr : ι → ℕ)
    (f : ι → List α → Option α) (op : β → α → β) (start : β) (buf : List α) :
    Option (List α × List β) :=
  threads.foldlM (fun state t => do
    let (buf, acc) ← forEachAcc (indices t) addr f op (state.1, start)
    return (buf, state.2 ++ [acc])) (buf, [])

/-- The tree reduction of a block: `for (; stride > 0; stride /= 2)`, with a barrier at each round. -/
def blockReduce (op : α → α → α) (threads stride : ℕ) (buf : List α) : Option (List α) :=
  if 0 < stride then do
    let buf ← forEach ((List.range threads).filter (· < stride)) id
      (fun t buf => do return op (← load buf t) (← load buf (t + stride))) buf
    blockReduce op threads (stride / 2) buf
  else some buf
termination_by stride

/-- A program whose first part returns goes on with the second. -/
theorem bind_eq {x : Option α} {a : α} (h : x = some a) (f : α → Option β) : x >>= f = f a := by
  rw [h]
  rfl

/-- A program that reads some values. -/
theorem mapM_eq {l : List τ} {f : τ → Option α} {g : τ → α} (h : ∀ t ∈ l, f t = some (g t)) :
    l.mapM f = some (l.map g) := by
  induction l with
  | nil => rfl
  | cons t l ih =>
    rw [List.mapM_cons]
    refine (bind_eq (h t List.mem_cons_self) _).trans ?_
    exact (bind_eq (ih fun t ht => h t (List.mem_cons_of_mem _ ht)) _).trans rfl

/-- The cells of a buffer, read one by one. -/
theorem range_map_getD {l : List α} {n : ℕ} (h : l.length = n) (d : α) :
    (List.range n).map (fun i => l.getD i d) = l := by
  refine List.ext_getElem? fun i => ?_
  rw [List.getElem?_map]
  cases Nat.lt_or_ge i n with
  | inl hi =>
    have hin : i < l.length := h ▸ hi
    have hcell : l.getD i d = l[i] := by
      rw [List.getD_eq_getElem?_getD, List.getElem?_eq_getElem hin, Option.getD_some]
    rw [List.getElem?_range hi, List.getElem?_eq_getElem hin, ← hcell]
    rfl
  | inr hi =>
    have hlist : (List.range n).length ≤ i := Nat.le_trans (Nat.le_of_eq List.length_range) hi
    rw [List.getElem?_eq_none (Nat.le_trans (Nat.le_of_eq h) hi), List.getElem?_eq_none hlist]
    rfl

/-- A loop that accumulates what it reads. -/
theorem foldlM_eq {l : List τ} {f : β → τ → Option β} {g : β → τ → β} (start : β)
    (h : ∀ t ∈ l, ∀ b, f b t = some (g b t)) : l.foldlM f start = some (l.foldl g start) := by
  induction l generalizing start with
  | nil => rfl
  | cons t l ih =>
    rw [List.foldlM_cons, h t List.mem_cons_self, List.foldl_cons]
    exact ih _ fun t ht => h t (List.mem_cons_of_mem _ ht)

/-- A loop whose rounds keep an invariant. -/
theorem foldlM_range {P : ℕ → β → Prop} {f : β → ℕ → Option β} {n : ℕ} (start : β)
    (hstart : P 0 start) (hstep : ∀ i < n, ∀ b, P i b → ∃ b', f b i = some b' ∧ P (i + 1) b') :
    ∃ b, (List.range n).foldlM f start = some b ∧ P n b := by
  induction n with
  | zero => exact ⟨start, rfl, hstart⟩
  | succ n ih =>
    obtain ⟨b, hok, hb⟩ := ih fun i hi => hstep i (Nat.lt_succ_of_lt hi)
    obtain ⟨b', hok', hb'⟩ := hstep n (Nat.lt_succ_self n) b hb
    refine ⟨b', ?_, hb'⟩
    rw [List.range_succ, List.foldlM_append]
    refine (bind_eq hok _).trans ?_
    rw [List.foldlM_cons]
    exact (bind_eq hok' _).trans rfl

/-! ## Addresses -/

section addresses

variable {n m i i' j j' : ℕ}

/-- A cell of a matrix of `n` rows is in its buffer. -/
theorem cell_lt (hi : i < n) (hj : j < m) : i * m + j < n * m := by
  have hrow := Nat.mul_le_mul_right m (Nat.succ_le_of_lt hi)
  rw [Nat.succ_mul] at hrow
  exact Nat.lt_of_lt_of_le (Nat.add_lt_add_left hj _) hrow

theorem cell_div (hj : j < m) : (i * m + j) / m = i := by
  rw [Nat.mul_comm, Nat.mul_add_div (Nat.zero_lt_of_lt hj), Nat.div_eq_of_lt hj, Nat.add_zero]

theorem cell_mod (hj : j < m) : (i * m + j) % m = j := by
  rw [Nat.add_comm, Nat.add_mul_mod_self_right, Nat.mod_eq_of_lt hj]

/-- Two cells of a matrix have different addresses. -/
theorem cell_inj (hj : j < m) (hj' : j' < m) (h : i * m + j = i' * m + j') : i = i' ∧ j = j' :=
  ⟨by rw [← cell_div (i := i) hj, h, cell_div hj'], by rw [← cell_mod (i := i) hj, h, cell_mod hj']⟩

/-- The cells of a matrix, row by row. -/
theorem range_flatMap_range (n m : ℕ) :
    ((List.range n).flatMap fun i => (List.range m).map fun j => i * m + j) = List.range (n * m) := by
  induction n with
  | zero => rw [Nat.zero_mul]; rfl
  | succ n ih =>
    rw [List.range_succ, List.flatMap_append, ih, Nat.succ_mul, List.range_add,
      List.flatMap_singleton]

/-- A cell of rows that are laid out one after the other. -/
theorem getElem?_flatMap {rows : List τ} {row : τ → List α} (hrow : ∀ t, (row t).length = m)
    (hj : j < m) : (rows.flatMap row)[i * m + j]? = rows[i]?.bind fun t => (row t)[j]? := by
  induction rows generalizing i with
  | nil => rfl
  | cons t rows ih =>
    rw [List.flatMap_cons, List.getElem?_append]
    cases i with
    | zero =>
      rw [Nat.zero_mul, Nat.zero_add, hrow, if_pos hj]
      rfl
    | succ i =>
      have hle : m ≤ (i + 1) * m + j := by
        rw [Nat.succ_mul]
        omega
      have hsub : (i + 1) * m + j - m = i * m + j := by
        rw [Nat.succ_mul]
        omega
      rw [hrow, if_neg (Nat.not_lt.mpr hle), hsub, ih]
      rfl

end addresses

/-! ## Iterations -/

theorem mem_strided {total threads t i : ℕ} (h : 0 < threads) :
    i ∈ strided total threads t ↔ i < total ∧ ∃ k, i = t + k * threads := by
  unfold strided
  rw [List.mem_map]
  constructor
  · intro hmem
    obtain ⟨k, hk, rfl⟩ := hmem
    have hk := (Nat.le_div_iff_mul_le h).mp (Nat.succ_le_of_lt (List.mem_range.mp hk))
    rw [Nat.succ_mul] at hk
    exact ⟨by omega, k, rfl⟩
  · intro hi
    obtain ⟨hlt, k, rfl⟩ := hi
    refine ⟨k, List.mem_range.mpr ?_, rfl⟩
    refine (Nat.le_div_iff_mul_le h).mpr ?_
    rw [Nat.succ_mul]
    omega

theorem nodup_strided {total threads t : ℕ} (h : 0 < threads) : (strided total threads t).Nodup := by
  refine List.Nodup.map_on (fun k _ k' _ heq => ?_) List.nodup_range
  exact Nat.eq_of_mul_eq_mul_right h (Nat.add_left_cancel heq)

/-- The threads of a grid share the iterations: each is made once. -/
theorem gridStride_perm (total : ℕ) {threads : ℕ} (h : 0 < threads) :
    (gridStride total threads).Perm (List.range total) := by
  refine (List.perm_ext_iff_of_nodup ?_ List.nodup_range).mpr fun i => ?_
  · refine List.nodup_flatMap.mpr ⟨fun t _ => nodup_strided h, ?_⟩
    refine List.nodup_range.imp_of_mem fun {t t'} ht ht' hne i hi hi' => ?_
    obtain ⟨-, k, rfl⟩ := (mem_strided h).mp hi
    obtain ⟨-, k', heq⟩ := (mem_strided h).mp hi'
    have hmod := congrArg (· % threads) heq
    rw [Nat.add_mul_mod_self_right, Nat.add_mul_mod_self_right,
      Nat.mod_eq_of_lt (List.mem_range.mp ht), Nat.mod_eq_of_lt (List.mem_range.mp ht')] at hmod
    exact hne hmod
  · unfold gridStride
    rw [List.mem_flatMap, List.mem_range]
    constructor
    · intro hmem
      obtain ⟨t, -, hi⟩ := hmem
      exact ((mem_strided h).mp hi).1
    · intro hi
      refine ⟨i % threads, List.mem_range.mpr (Nat.mod_lt i h), (mem_strided h).mpr ⟨hi, i / threads, ?_⟩⟩
      rw [Nat.mul_comm]
      exact (Nat.mod_add_div i threads).symm

/-! ## Loops that write -/

/-- Some cells are written, the others are as before. -/
structure Written (indices : List ι) (addr : ι → ℕ) (v : ι → α) (buf buf' : List α) : Prop where
  length : buf'.length = buf.length
  written : ∀ i ∈ indices, buf'[addr i]? = some (v i)
  kept : ∀ a, (∀ i ∈ indices, addr i ≠ a) → buf'[a]? = buf[a]?

variable {indices : List ι} {addr : ι → ℕ} {f : ι → List α → Option α} {v : ι → α}
  {buf : List α}

/-- What an iteration may read: its own cell, and the cells that the loop does not write. -/
def ReadsOwn (indices : List ι) (addr : ι → ℕ) (f : ι → List α → Option α) (v : ι → α)
    (buf : List α) : Prop :=
  ∀ i ∈ indices, ∀ buf' : List α, buf'[addr i]? = buf[addr i]? →
    (∀ a, (∀ j ∈ indices, addr j ≠ a) → buf'[a]? = buf[a]?) → f i buf' = some (v i)

theorem forEachAcc_spec (op : β → α → β) (acc : β) (hnodup : (indices.map addr).Nodup)
    (hbound : ∀ i ∈ indices, addr i < buf.length) (hf : ReadsOwn indices addr f v buf) :
    ∃ buf', forEachAcc indices addr f op (buf, acc)
        = some (buf', (indices.map v).foldl op acc) ∧ Written indices addr v buf buf' := by
  induction indices generalizing buf acc with
  | nil => exact ⟨buf, rfl, rfl, fun i hi => absurd hi List.not_mem_nil, fun _ _ => rfl⟩
  | cons i indices ih =>
    rw [List.map_cons, List.nodup_cons] at hnodup
    obtain ⟨hfresh, hnodup⟩ := hnodup
    have hne : ∀ j ∈ indices, addr j ≠ addr i := fun j hj heq =>
      hfresh (List.mem_map.mpr ⟨j, hj, heq⟩)
    have hi := hbound i List.mem_cons_self
    have hvalue := hf i List.mem_cons_self buf rfl fun _ _ => rfl
    have hset : ∀ a, addr i ≠ a → (buf.set (addr i) (v i))[a]? = buf[a]? := fun a ha =>
      List.getElem?_set_ne ha
    obtain ⟨buf', hok, hwritten⟩ := @ih (buf.set (addr i) (v i)) (op acc (v i)) hnodup
      (fun j hj => by rw [List.length_set]; exact hbound j (List.mem_cons_of_mem i hj))
      (fun j hj b hown hrest => hf j (List.mem_cons_of_mem i hj) b
        (hown.trans (hset _ (hne j hj).symm))
        fun a ha => (hrest a fun k hk => ha k (List.mem_cons_of_mem i hk)).trans
          (hset a (ha i List.mem_cons_self)))
    refine ⟨buf', ?_, ?_, ?_, ?_⟩
    · have hstep : (forEachAcc (i :: indices) addr f op (buf, acc))
          = forEachAcc indices addr f op (buf.set (addr i) (v i), op acc (v i)) := by
        unfold forEachAcc
        rw [List.foldlM_cons]
        dsimp only
        rw [hvalue]
        unfold store
        dsimp only [bind, Option.bind]
        rw [if_pos hi]
        rfl
      rw [hstep, hok]
      rfl
    · rw [hwritten.length, List.length_set]
    · intro j hj
      cases List.mem_cons.mp hj with
      | inl heq =>
        rw [heq, hwritten.kept _ hne]
        exact List.getElem?_set_self hi
      | inr hrest => exact hwritten.written j hrest
    · intro a ha
      rw [hwritten.kept a fun j hj => ha j (List.mem_cons_of_mem i hj)]
      exact hset a (ha i List.mem_cons_self)

/-- A loop that only writes, as one that accumulates nothing. -/
theorem forEach_eq (indices : List ι) (buf : List α) :
    forEach indices addr f buf
      = (forEachAcc indices addr f (fun u _ => u) (buf, ())).map Prod.fst := by
  induction indices generalizing buf with
  | nil => rfl
  | cons i indices ih =>
    unfold forEach forEachAcc at ih ⊢
    rw [List.foldlM_cons, List.foldlM_cons]
    cases hf : f i buf with
    | none => rfl
    | some v =>
      cases hs : store buf (addr i) v with
      | none =>
        dsimp only [bind, Option.bind]
        rw [hs]
        rfl
      | some buf' =>
        dsimp only [bind, Option.bind]
        rw [hs]
        exact ih buf'

theorem forEach_spec (indices : List ι) (addr : ι → ℕ) (f : ι → List α → Option α) (v : ι → α)
    (buf : List α) (hnodup : (indices.map addr).Nodup) (hbound : ∀ i ∈ indices, addr i < buf.length)
    (hf : ReadsOwn indices addr f v buf) :
    ∃ buf', forEach indices addr f buf = some buf' ∧ Written indices addr v buf buf' := by
  obtain ⟨buf', hok, hwritten⟩ := forEachAcc_spec (fun u _ => u) () hnodup hbound hf
  exact ⟨buf', by rw [forEach_eq, hok]; rfl, hwritten⟩

/-- A loop that returns leaves the cells as they are that it does not write. -/
theorem forEach_kept {buf' : List α} {a : ℕ} (ha : ∀ i ∈ indices, addr i ≠ a)
    (h : forEach indices addr f buf = some buf') : buf'[a]? = buf[a]? := by
  induction indices generalizing buf with
  | nil => exact congrArg (·[a]?) (Option.some.inj h).symm
  | cons i indices ih =>
    obtain ⟨buf₁, hstep, hrest⟩ := Option.bind_eq_some_iff.mp h
    obtain ⟨v, _, hstore⟩ := Option.bind_eq_some_iff.mp hstep
    unfold store at hstore
    split at hstore
    · obtain rfl := Option.some.inj hstore
      rw [ih (fun j hj => ha j (List.mem_cons_of_mem i hj)) hrest]
      exact List.getElem?_set_ne (ha i List.mem_cons_self)
    · exact absurd hstore (by simp)

/-- The loops of a block, when no two threads write the same cell. -/
theorem blockLoop_spec (threads : List τ) (indices : τ → List ι) (addr : ι → ℕ)
    (f : ι → List α → Option α) (v : ι → α) (op : β → α → β) (start : β) (buf : List α)
    (hnodup : ((threads.flatMap indices).map addr).Nodup)
    (hbound : ∀ i ∈ threads.flatMap indices, addr i < buf.length)
    (hf : ReadsOwn (threads.flatMap indices) addr f v buf) :
    ∃ buf', blockLoop threads indices addr f op start buf
        = some (buf', threads.map fun t => ((indices t).map v).foldl op start) ∧
      Written (threads.flatMap indices) addr v buf buf' := by
  have hloop : ∀ (threads : List τ) (buf : List α) (sums : List β),
      ((threads.flatMap indices).map addr).Nodup →
      (∀ i ∈ threads.flatMap indices, addr i < buf.length) →
      ReadsOwn (threads.flatMap indices) addr f v buf →
      ∃ buf', threads.foldlM (fun state t => do
          let (buf, acc) ← forEachAcc (indices t) addr f op (state.1, start)
          return (buf, state.2 ++ [acc])) (buf, sums)
          = some (buf', sums ++ threads.map fun t => ((indices t).map v).foldl op start) ∧
        Written (threads.flatMap indices) addr v buf buf' := by
    intro threads
    induction threads with
    | nil =>
      intro buf sums _ _ _
      exact ⟨buf, by rw [List.map_nil, List.append_nil]; rfl, rfl,
        fun i hi => absurd hi List.not_mem_nil, fun _ _ => rfl⟩
    | cons t threads ih =>
      intro buf sums hnodup hbound hf
      rw [List.flatMap_cons] at hnodup hbound hf
      rw [List.map_append, List.nodup_append] at hnodup
      obtain ⟨hfirst, hrest, hdisjoint⟩ := hnodup
      have hne : ∀ i ∈ indices t, ∀ j ∈ threads.flatMap indices, addr i ≠ addr j :=
        fun i hi j hj => hdisjoint _ (List.mem_map_of_mem hi) _ (List.mem_map_of_mem hj)
      obtain ⟨buf₁, hok₁, hwritten₁⟩ := forEachAcc_spec op start hfirst
        (fun i hi => hbound i (List.mem_append_left _ hi))
        (v := v) (f := f) (fun i hi b hown hkept => hf i (List.mem_append_left _ hi) b hown
          fun a ha => hkept a fun j hj => ha j (List.mem_append_left _ hj))
      obtain ⟨buf₂, hok₂, hwritten₂⟩ := ih buf₁
        (sums ++ [((indices t).map v).foldl op start]) hrest
        (fun i hi => hwritten₁.length ▸ hbound i (List.mem_append_right _ hi))
        (fun i hi b hown hkept => hf i (List.mem_append_right _ hi) b
          (hown.trans (hwritten₁.kept _ fun j hj => hne j hj i hi))
          fun a ha => (hkept a fun j hj => ha j (List.mem_append_right _ hj)).trans
            (hwritten₁.kept a fun j hj => ha j (List.mem_append_left _ hj)))
      refine ⟨buf₂, ?_, hwritten₂.length.trans hwritten₁.length, ?_, ?_⟩
      · rw [List.foldlM_cons]
        dsimp only
        rw [hok₁]
        dsimp only [bind, Option.bind, pure]
        refine hok₂.trans ?_
        rw [List.append_assoc]
        rfl
      · intro i hi
        rw [List.flatMap_cons] at hi
        cases List.mem_append.mp hi with
        | inl hin =>
          rw [hwritten₂.kept _ fun j hj heq => hne i hin j hj heq.symm]
          exact hwritten₁.written i hin
        | inr hin => exact hwritten₂.written i hin
      · intro a ha
        rw [List.flatMap_cons] at ha
        rw [hwritten₂.kept a fun j hj => ha j (List.mem_append_right _ hj),
          hwritten₁.kept a fun j hj => ha j (List.mem_append_left _ hj)]
  obtain ⟨buf', hok, hwritten⟩ := hloop threads buf [] hnodup hbound hf
  exact ⟨buf', hok, hwritten⟩

/-- The iterations of a loop that writes, in another order. -/
theorem Written.perm {indices' : List ι} {buf' : List α} (h : Written indices addr v buf buf')
    (hperm : indices.Perm indices') : Written indices' addr v buf buf' where
  length := h.length
  written i hi := h.written i (hperm.mem_iff.mpr hi)
  kept a ha := h.kept a fun i hi => ha i (hperm.mem_iff.mp hi)

/-- A kernel that writes every cell up to a total. -/
theorem forEach_gridStride {f : ℕ → List α → Option α} {total threads : ℕ} (v : ℕ → α)
    (buf : List α) (hthreads : 0 < threads) (hbound : total ≤ buf.length)
    (hf : ReadsOwn (List.range total) id f v buf) :
    ∃ buf', forEach (gridStride total threads) id f buf = some buf' ∧
      Written (List.range total) id v buf buf' := by
  have hperm := gridStride_perm total hthreads
  obtain ⟨buf', hok, hwritten⟩ := forEach_spec (gridStride total threads) id f v buf (by rw [List.map_id]; exact hperm.nodup_iff.mpr List.nodup_range)
    (fun i hi => (List.mem_range.mp (hperm.mem_iff.mp hi)).trans_le hbound)
    (fun i hi b hown hkept => hf i (hperm.mem_iff.mp hi) b hown fun a ha =>
      hkept a fun j hj => ha j (hperm.mem_iff.mp hj))
  exact ⟨buf', hok, hwritten.perm hperm⟩

/-- A loop that writes a constant where a test holds. -/
theorem foldlM_store_if {p : ℕ → Bool} (c : α) (indices : List ℕ) (buf : List α) :
    indices.foldlM (fun buf i => if p i then store buf i c else some buf) buf
      = forEach (indices.filter p) id (fun _ _ => some c) buf := by
  induction indices generalizing buf with
  | nil => rfl
  | cons i indices ih =>
    rw [List.foldlM_cons, List.filter_cons]
    cases hp : p i with
    | false => exact ih buf
    | true =>
      rw [if_pos rfl, if_pos rfl]
      unfold forEach at ih ⊢
      rw [List.foldlM_cons]
      exact congrArg (store buf i c).bind (funext ih)

/-- A loop that writes two buffers writes each as a loop of its own. -/
theorem foldlM_store_pair {f : ℕ → Option (α × α)} {v w : ℕ → α} {indices : List ℕ}
    (hf : ∀ i ∈ indices, f i = some (v i, w i)) {bufs bufs' : List α × List α}
    (hfirst : forEach indices id (fun i _ => some (v i)) bufs.1 = some bufs'.1)
    (hsecond : forEach indices id (fun i _ => some (w i)) bufs.2 = some bufs'.2) :
    indices.foldlM (fun bufs i => do
        let (a, b) ← f i
        return (← store bufs.1 i a, ← store bufs.2 i b)) bufs = some bufs' := by
  induction indices generalizing bufs with
  | nil => exact congrArg some (Prod.ext (Option.some.inj hfirst) (Option.some.inj hsecond))
  | cons i indices ih =>
    unfold forEach at hfirst hsecond
    rw [List.foldlM_cons] at hfirst hsecond
    obtain ⟨first, hstore, hfirst⟩ := Option.bind_eq_some_iff.mp hfirst
    obtain ⟨second, hstore', hsecond⟩ := Option.bind_eq_some_iff.mp hsecond
    rw [List.foldlM_cons]
    have hstep : (do
        let (a, b) ← f i
        return (← store bufs.1 i a, ← store bufs.2 i b)) = some (first, second) := by
      refine (bind_eq (hf i List.mem_cons_self) _).trans ?_
      exact (bind_eq hstore _).trans ((bind_eq hstore' _).trans rfl)
    refine (bind_eq hstep _).trans ?_
    exact ih (fun j hj => hf j (List.mem_cons_of_mem i hj)) hfirst hsecond

/-! ## Reductions -/

section reduce

variable {op : α → α → α} [Std.Commutative op] [Std.Associative op]

theorem foldl_op_left (u a : α) (l : List α) : l.foldl op (op u a) = op (l.foldl op u) a := by
  induction l generalizing u with
  | nil => rfl
  | cons b l ih =>
    have hassoc : ∀ a b c, op (op a b) c = op a (op b c) := Std.Associative.assoc
    have hcomm : op a b = op b a := Std.Commutative.comm a b
    rw [List.foldl_cons, List.foldl_cons, ← ih]
    exact congrArg (l.foldl op) (by rw [hassoc, hcomm, ← hassoc])

/-- Two halves, combined cell by cell. -/
theorem foldl_zipWith (u : α) {xs ys : List α} (h : xs.length = ys.length) :
    (List.zipWith op xs ys).foldl op u = (xs ++ ys).foldl op u := by
  induction xs generalizing ys u with
  | nil =>
    cases ys with
    | nil => rfl
    | cons y ys => exact absurd h (Nat.succ_ne_zero ys.length).symm
  | cons x xs ih =>
    cases ys with
    | nil => exact absurd h (Nat.succ_ne_zero xs.length)
    | cons y ys =>
      have hxy : op u (op x y) = op (op u x) y := (Std.Associative.assoc u x y).symm
      rw [List.zipWith_cons_cons, List.foldl_cons, ih _ (Nat.succ.inj h), hxy, foldl_op_left,
        List.cons_append, List.foldl_cons, List.foldl_append, List.foldl_append, List.foldl_cons,
        foldl_op_left u x]
      exact (foldl_op_left _ y ys).symm

/-- What the threads have accumulated from `start`, combined. -/
theorem foldl_foldl {start u : α} (hu : op u start = u)
    (parts : List (List α)) :
    (parts.map fun part => part.foldl op start).foldl op u = parts.flatten.foldl op u := by
  have hpart : ∀ (u : α) (part : List α), op u (part.foldl op start) = op (part.foldl op u) start := by
    intro u part
    induction part generalizing u with
    | nil => rfl
    | cons a part ih =>
      have hassoc : ∀ a b c, op (op a b) c = op a (op b c) := Std.Associative.assoc
      have hcomm : op start a = op a start := Std.Commutative.comm start a
      rw [List.foldl_cons, List.foldl_cons, foldl_op_left, ← ih, ← hassoc, ih, ih, foldl_op_left,
        hassoc, hcomm, ← hassoc]
  induction parts generalizing u with
  | nil => rfl
  | cons part parts ih =>
    have hkept : op (part.foldl op u) start = part.foldl op u := by
      exact (foldl_op_left u start part).symm.trans (congrArg (part.foldl op) hu)
    rw [List.map_cons, List.foldl_cons, hpart, hkept, List.flatten_cons, List.foldl_append]
    exact ih hkept

/-- A round: the first cells are combined with those a stride behind. -/
theorem halve_spec (op : α → α → α) {stride threads : ℕ} {buf : List α} (hpos : 0 < stride)
    (hthreads : stride ≤ threads) (hlength : 2 * stride ≤ buf.length) :
    ∃ buf', forEach ((List.range threads).filter (· < stride)) id
        (fun t buf => do return op (← load buf t) (← load buf (t + stride))) buf = some buf' ∧
      buf'.length = buf.length ∧
      buf'.take stride = List.zipWith op (buf.take stride) ((buf.take (2 * stride)).drop stride) := by
  have hmem : ∀ t, t ∈ (List.range threads).filter (· < stride) ↔ t < stride := by
    intro t
    rw [List.mem_filter, List.mem_range, decide_eq_true_eq]
    exact ⟨And.right, fun ht => ⟨Nat.lt_of_lt_of_le ht hthreads, ht⟩⟩
  have hcell : ∀ t, t < 2 * stride → buf[t]? = some (buf.getD t (buf.head fun h => by
      rw [h] at hlength
      exact absurd hlength (Nat.not_le.mpr (Nat.mul_pos (Nat.succ_pos 1) hpos)))) := by
    intro t ht
    rw [List.getD_eq_getElem?_getD, List.getElem?_eq_getElem (Nat.lt_of_lt_of_le ht hlength), Option.getD_some]
  generalize (buf.head _ : α) = d at hcell
  obtain ⟨buf', hok, hwritten⟩ := forEach_spec ((List.range threads).filter (· < stride)) id
    (fun t buf => do return op (← load buf t) (← load buf (t + stride)))
    (fun t => op (buf.getD t d) (buf.getD (t + stride) d)) buf
    (by rw [List.map_id]; exact List.nodup_range.filter _)
    (fun t ht => by
      have ht := (hmem t).mp ht
      exact Nat.lt_of_lt_of_le (by dsimp only [id]; omega) hlength)
    (fun t ht b hown hkept => by
      have ht := (hmem t).mp ht
      have hother : b[t + stride]? = buf[t + stride]? := hkept _ fun j hj heq => by
        have hj := (hmem j).mp hj
        dsimp only [id] at heq
        omega
      have hfirst : load b t = _ := (show b[t]? = buf[t]? from hown).trans (hcell t (by omega))
      have hsecond : load b (t + stride) = _ := hother.trans (hcell (t + stride) (by omega))
      exact (bind_eq hfirst _).trans (bind_eq hsecond _))
  refine ⟨buf', hok, hwritten.length, List.ext_getElem? fun t => ?_⟩
  rw [List.getElem?_take, List.getElem?_zipWith, List.getElem?_take, List.getElem?_drop,
    List.getElem?_take]
  cases Nat.lt_or_ge t stride with
  | inl ht =>
    rw [if_pos ht, if_pos ht, if_pos (by omega), hcell t (by omega),
      hcell (stride + t) (by omega), Nat.add_comm stride t]
    exact hwritten.written t ((hmem t).mpr ht)
  | inr ht =>
    rw [if_neg (Nat.not_lt.mpr ht), if_neg (Nat.not_lt.mpr ht)]

/-- The first cell combines all cells, in any order. -/
theorem blockReduce_spec (op : α → α → α) [Std.Commutative op] [Std.Associative op] (k : ℕ)
    {buf : List α} {threads : ℕ} (hthreads : 2 ^ k ≤ threads) (hlength : 2 * 2 ^ k ≤ buf.length) :
    ∃ buf' r, blockReduce op threads (2 ^ k) buf = some buf' ∧ buf'[0]? = some r ∧
      ∀ u, op u r = (buf.take (2 * 2 ^ k)).foldl op u := by
  induction k generalizing buf with
  | zero =>
    obtain ⟨buf', hok, hlen, htake⟩ := halve_spec op Nat.one_pos hthreads hlength
    match buf, hlength with
    | a :: b :: rest, _ =>
      match buf', hlen with
      | r :: rest', _ =>
        have hr : r = op a b := (List.cons.inj htake).1
        refine ⟨r :: rest', r, ?_, rfl, fun u => ?_⟩
        · rw [blockReduce, if_pos (Nat.two_pow_pos 0)]
          have hdone : 2 ^ 0 / 2 = 0 := rfl
          refine (bind_eq hok _).trans ?_
          rw [hdone, blockReduce, if_neg (Nat.lt_irrefl 0)]
        · rw [hr]
          exact (Std.Associative.assoc u a b).symm
  | succ k ih =>
    have hpos : 0 < 2 ^ (k + 1) := Nat.two_pow_pos _
    have hhalf : 2 ^ (k + 1) / 2 = 2 ^ k := by rw [pow_succ, Nat.mul_div_cancel _ Nat.two_pos]
    have htwice : 2 * 2 ^ k = 2 ^ (k + 1) := by rw [pow_succ, Nat.mul_comm]
    obtain ⟨buf₁, hok₁, hlen₁, htake₁⟩ := halve_spec op hpos hthreads hlength
    obtain ⟨buf', r, hok, hr, hfold⟩ := @ih buf₁ (by omega) (by omega)
    refine ⟨buf', r, ?_, hr, fun u => ?_⟩
    · rw [blockReduce, if_pos hpos]
      refine (bind_eq hok₁ _).trans ?_
      rw [hhalf]
      exact hok
    · rw [hfold, htwice, htake₁, foldl_zipWith]
      · have hfront : buf.take (2 ^ (k + 1)) = (buf.take (2 * 2 ^ (k + 1))).take (2 ^ (k + 1)) := by
          rw [List.take_take, Nat.min_eq_left (by omega)]
        rw [hfront, List.take_append_drop]
      · rw [List.length_take, List.length_drop, List.length_take]
        omega

end reduce

end Device
