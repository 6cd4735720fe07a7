import Mathlib.Algebra.Ring.Nat
import Ikun.Basic
import Ikun.Lib.Except

/-!
# The MoE of a data-parallel group

The ranks of a data-parallel group gather their rows, run the MoE on all of them and keep their own.
Each rank decides by itself between a gather of padded and one of exact contributions, and finds its
rows by the counts of the ranks in front of it. When the metadata of the ranks is consistent
(`Consistent`), they decide alike, and every rank ends with the MoE of its own rows
(`dataParallel_eq_local`).

The MoE is a function of single rows. A collective returns when every rank calls it, with buffers of the
sizes that the ranks send.
-/

namespace Ikun.Moe

open Except

/-! ## The gather -/

/-- The attention metadata of a rank, as far as the gather reads it. -/
structure DpMetadata where
  dpTokenCounts : List ℕ
  isPrefill : Bool
  isChunkedPrefill : Bool
  /-- `execution_state is not None`. -/
  isGraph : Bool
  dpIsDecode : Option (List ℤ)

/-- The rank is in a prefill or a chunked prefill. -/
def DpMetadata.inPrefill (metadata : DpMetadata) : Bool :=
  metadata.isPrefill || metadata.isChunkedPrefill

/-- A rank with its rows. -/
structure DpRank (ρ : Type) where
  hiddenStates : List ρ
  metadata : DpMetadata

variable {ρ σ : Type}

/-- A collective as a rank calls it. -/
inductive GatherCall (ρ : Type)
  | allGather (tensor : List ρ) (worldSize : ℕ)
  | allGatherVariable (tensor : List ρ) (tokenCounts : List ℕ) (dpRank : ℕ)

namespace GatherCall

/-- Both collectives differ in their buffers. -/
def isVariable : GatherCall ρ → Bool
  | allGather _ _ => false
  | allGatherVariable _ _ _ => true

/-- The rows that the rank sends. -/
def sent : GatherCall ρ → List ρ
  | allGather tensor _ => tensor
  | allGatherVariable tensor tokenCounts dpRank => tensor.take (tokenCounts.getD dpRank 0)

/-- The numbers of rows that the rank has buffers for. -/
def buffers : GatherCall ρ → List ℕ
  | allGather tensor worldSize => List.replicate worldSize tensor.length
  | allGatherVariable tensor tokenCounts dpRank =>
    tokenCounts.mapIdx fun i count => if i = dpRank then min count tensor.length else count

end GatherCall

/-- How a step of the group can end without its outputs: a rank raises, or the ranks do not call the
same collective with the same sizes. -/
inductive GroupFailure
  | raised (e : Exn)
  | mismatch

/-- The collective: the contributions of all ranks, in order. -/
def collective (calls : List (GatherCall ρ)) : Except GroupFailure (List ρ) :=
  if (∀ call ∈ calls, ∀ call' ∈ calls, call.isVariable = call'.isVariable) ∧
      ∀ call ∈ calls, call.buffers = calls.map (·.sent.length) then
    .ok (calls.flatMap (·.sent))
  else .error .mismatch

/-- The call of a rank, with `padded_tokens` and `use_compact_gather`. -/
structure GatherPlan (ρ : Type) where
  call : GatherCall ρ
  paddedTokens : ℕ
  useCompactGather : Bool

/-- `_dp_gather_inputs` up to its collective. Padding appends rows of zeros. -/
def dpGatherInputs (zero : ρ) (dpSize dpRank : ℕ) (hiddenStates : List ρ)
    (dpTokenCounts : List ℕ) (isGraph isPrefill : Bool) (dpIsDecode : Option (List ℤ)) :
    Except Exn (GatherPlan ρ) :=
  let localTokens := hiddenStates.length
  let allDecode := match dpIsDecode with
    | some flags => flags.all (· ≠ 0)
    | none => false
  if isGraph || isPrefill || !allDecode then
    match dpTokenCounts.max? with
    | none => .error (.valueError "max() arg is an empty sequence")
    | some paddedTokens =>
      .ok ⟨.allGather (hiddenStates ++ List.replicate (paddedTokens - localTokens) zero) dpSize,
        paddedTokens, false⟩
  else
    match dpTokenCounts[dpRank]? with
    | none => .error .indexError
    | some _ => .ok ⟨.allGatherVariable hiddenStates dpTokenCounts dpRank, 0, true⟩

/-- `tensor.narrow(0, start, length)`. -/
def narrow (tensor : List σ) (start length : ℕ) : Except Exn (List σ) :=
  if start + length ≤ tensor.length then .ok ((tensor.drop start).take length)
  else .error (.runtimeError "start + length exceeds dimension size")

/-- `_dp_scatter_output`. -/
def dpScatterOutput (dpRank : ℕ) (output : List σ) (localTokens paddedTokens : ℕ)
    (useCompactGather : Bool) (dpTokenCounts : List ℕ) : Except Exn (List σ) :=
  if useCompactGather then narrow output (dpTokenCounts.take dpRank).sum localTokens
  else if 0 < paddedTokens then narrow output (dpRank * paddedTokens) localTokens
  else .ok output

/-! ## A step of the group -/

/-- The collective of a rank that uses `DPAwareMoEMixin`. -/
def mixinPlan (zero : ρ) (dpSize dpRank : ℕ) (rank : DpRank ρ) : Except Exn (GatherPlan ρ) :=
  dpGatherInputs zero dpSize dpRank rank.hiddenStates rank.metadata.dpTokenCounts
    rank.metadata.isGraph rank.metadata.inPrefill
    rank.metadata.dpIsDecode

/-- The collective of a rank in `dp_forward_moe_wrapper`, which checks the number of counts and gathers
in the same way. -/
def wrapperPlan (zero : ρ) (dpSize dpRank : ℕ) (rank : DpRank ρ) : Except Exn (GatherPlan ρ) := do
  raiseIf (rank.metadata.dpTokenCounts.length ≠ dpSize)
    (.runtimeError "expected dp_size DP token counts")
  dpGatherInputs zero dpSize dpRank rank.hiddenStates rank.metadata.dpTokenCounts
    rank.metadata.isGraph rank.metadata.inPrefill
    rank.metadata.dpIsDecode

/-- All ranks gather, run the MoE on the gathered rows and keep their part of its output. -/
def gatherMoeSlice (plan : ℕ → DpRank ρ → Except Exn (GatherPlan ρ)) (moe : List ρ → List σ)
    (ranks : List (DpRank ρ)) : Except GroupFailure (List (List σ)) := do
  let plans ← ranks.zipIdx.mapM fun rank => (plan rank.2 rank.1).mapError .raised
  let gathered ← collective (plans.map (·.call))
  (ranks.zipIdx.zip plans).mapM fun (rank, plan) =>
    (dpScatterOutput rank.2 (moe gathered) rank.1.hiddenStates.length plan.paddedTokens
      plan.useCompactGather rank.1.metadata.dpTokenCounts).mapError .raised

/-- A MoE between `_dp_gather_inputs` and `_dp_scatter_output`, on all ranks. -/
def mixinForward (zero : ρ) (moe : List ρ → List σ) (ranks : List (DpRank ρ)) :
    Except GroupFailure (List (List σ)) :=
  gatherMoeSlice (mixinPlan zero ranks.length) moe ranks

/-- `dp_forward_moe_wrapper` on all ranks. -/
def dpForwardMoeWrapper (zero : ρ) (moe : List ρ → List σ) (ranks : List (DpRank ρ)) :
    Except GroupFailure (List (List σ)) :=
  if ranks.length ≤ 1 then .ok (ranks.map fun rank => moe rank.hiddenStates)
  else gatherMoeSlice (wrapperPlan zero ranks.length) moe ranks

/-- The metadata of the ranks is consistent: they know the same counts, which are their numbers of rows,
and the same flags, which are zero on the ranks with a prefill, and all of them or none replay a
graph. -/
structure Consistent (ranks : List (DpRank ρ)) : Prop where
  counts : ∀ rank ∈ ranks,
    rank.metadata.dpTokenCounts = ranks.map (·.hiddenStates.length)
  flags : ∃ flags : List ℤ, (∀ rank ∈ ranks, rank.metadata.dpIsDecode = some flags) ∧
    List.Forall₂ (fun rank flag => flag = 0 ↔
      rank.metadata.inPrefill = true) ranks flags
  graph : ∀ rank ∈ ranks, ∀ rank' ∈ ranks, rank.metadata.isGraph = rank'.metadata.isGraph

/-! ## All ranks decide alike -/

variable {ranks : List (DpRank ρ)}

/-- The ranks of the group pad their rows. -/
def Padded (ranks : List (DpRank ρ)) : Prop := ∃ rank ∈ ranks, rank.metadata.isGraph = true ∨
  rank.metadata.inPrefill = true

/-- Some rank has a prefill when not all flags are set. -/
theorem flags_all_iff {flags : List ℤ} (h : List.Forall₂ (fun (rank : DpRank ρ) flag => flag = 0 ↔
      rank.metadata.inPrefill = true) ranks flags) :
    flags.all (· ≠ 0) = false ↔
      ∃ rank ∈ ranks, rank.metadata.inPrefill = true := by
  induction h with
  | nil => simp
  | cons hflag _ ih =>
    rw [List.all_cons, Bool.and_eq_false_iff, ih]
    simp [hflag]

theorem Consistent.pads_iff (h : Consistent ranks) {rank : DpRank ρ} (hrank : rank ∈ ranks) :
    (rank.metadata.isGraph || rank.metadata.inPrefill ||
      !(match rank.metadata.dpIsDecode with
        | some flags => flags.all (· ≠ 0)
        | none => false)) = true ↔ Padded ranks := by
  obtain ⟨flags, hflags, hall⟩ := h.flags
  have hiff := flags_all_iff hall
  rw [hflags rank hrank]
  simp only [Bool.or_eq_true, Bool.not_eq_true', hiff]
  unfold Padded
  constructor
  · rintro ((hgraph | hprefill) | ⟨other, hother, hprefill⟩)
    · exact ⟨rank, hrank, .inl hgraph⟩
    · exact ⟨rank, hrank, .inr hprefill⟩
    · exact ⟨other, hother, .inr hprefill⟩
  · rintro ⟨other, hother, hgraph | hprefill⟩
    · exact .inl (.inl ((h.graph rank hrank other hother).trans hgraph))
    · exact .inr ⟨other, hother, hprefill⟩

/-! ## A step whose ranks have plans -/

/-- The rows of a part of a concatenation are found by the lengths of the parts in front of it. -/
theorem narrow_flatten {parts : List (List σ)} {part : List σ} {i k : ℕ}
    (hpart : parts[i]? = some part) (hk : k ≤ part.length) :
    narrow parts.flatten ((parts.take i).map List.length).sum k = .ok (part.take k) := by
  have hsplit := List.getElem?_eq_some_iff.mp hpart
  have hflatten : parts.flatten =
      (parts.take i).flatten ++ (part ++ (parts.drop (i + 1)).flatten) := by
    rw [← hsplit.2, ← List.flatten_cons, ← List.drop_eq_getElem_cons hsplit.1,
      ← List.flatten_append, List.take_append_drop]
  have hstart : ((parts.take i).map List.length).sum = (parts.take i).flatten.length :=
    List.length_flatten.symm
  unfold narrow
  rw [hflatten, hstart, if_pos, List.drop_left, List.take_append_of_le_length hk]
  rw [List.length_append, List.length_append]
  omega

variable {plan : ℕ → DpRank ρ → Except Exn (GatherPlan ρ)} {moe : List ρ → List σ}

/-- A step in which every rank has a plan, the plans match and every rank finds its output. -/
theorem gatherMoeSlice_eq (g : DpRank ρ × ℕ → GatherPlan ρ) (out : DpRank ρ → List σ)
    {gathered : List ρ} (hplan : ∀ rank ∈ ranks.zipIdx, plan rank.2 rank.1 = .ok (g rank))
    (hgather : collective (ranks.zipIdx.map fun rank => (g rank).call) = .ok gathered)
    (hout : ∀ rank ∈ ranks.zipIdx, dpScatterOutput rank.2 (moe gathered)
      rank.1.hiddenStates.length (g rank).paddedTokens (g rank).useCompactGather
      rank.1.metadata.dpTokenCounts = .ok (out rank.1)) :
    gatherMoeSlice plan moe ranks = .ok (ranks.map out) := by
  have hplans : (ranks.zipIdx.mapM fun rank => (plan rank.2 rank.1).mapError GroupFailure.raised) =
      .ok (ranks.zipIdx.map g) :=
    mapM_eq_ok fun rank hrank => by
      rw [hplan rank hrank]
      rfl
  have hzip : ranks.zipIdx.zip (ranks.zipIdx.map g) = ranks.zipIdx.map fun rank => (rank, g rank) := by
    rw [List.zip_eq_zipWith, List.zipWith_map_right, List.zipWith_self]
  refine bind_eq_ok.mpr ⟨_, hplans, bind_eq_ok.mpr ⟨gathered, ?_, ?_⟩⟩
  · rw [List.map_map]
    exact hgather
  · rw [hzip, List.mapM_map]
    have houts : (ranks.zipIdx.mapM fun rank => (dpScatterOutput rank.2 (moe gathered)
        rank.1.hiddenStates.length (g rank).paddedTokens (g rank).useCompactGather
        rank.1.metadata.dpTokenCounts).mapError GroupFailure.raised) =
        .ok (ranks.zipIdx.map fun rank => out rank.1) :=
      mapM_eq_ok fun rank hrank => by
        rw [hout rank hrank]
        rfl
    have hfst : (ranks.zipIdx.map fun rank => out rank.1) = ranks.map out := by
      conv_rhs => rw [← List.zipIdx_map_fst 0 ranks, List.map_map]
      rfl
    rw [← hfst]
    exact houts

/-! ## The two gathers -/

/-- The rows that a rank sends to the padded gather. -/
def paddedRows (zero : ρ) (paddedTokens : ℕ) (rank : DpRank ρ) : List ρ :=
  rank.hiddenStates ++ List.replicate (paddedTokens - rank.hiddenStates.length) zero

variable {zero : ρ} {paddedTokens : ℕ}

theorem length_paddedRows (zero : ρ) (hmax : (ranks.map (·.hiddenStates.length)).max? = some paddedTokens)
    {rank : DpRank ρ} (hrank : rank ∈ ranks) :
    (paddedRows zero paddedTokens rank).length = paddedTokens := by
  have hle : rank.hiddenStates.length ≤ paddedTokens :=
    (List.max?_le_iff hmax).mp (Nat.le_refl _) _ (List.mem_map_of_mem hrank)
  rw [paddedRows, List.length_append, List.length_replicate]
  omega

theorem Consistent.mixinPlan_padded (zero : ρ) (h : Consistent ranks) (hpads : Padded ranks)
    (hmax : (ranks.map (·.hiddenStates.length)).max? = some paddedTokens)
    {rank : DpRank ρ} (hrank : rank ∈ ranks) (i : ℕ) :
    mixinPlan zero ranks.length i rank = .ok
      ⟨.allGather (paddedRows zero paddedTokens rank) ranks.length, paddedTokens, false⟩ := by
  unfold mixinPlan dpGatherInputs
  rw [h.counts rank hrank]
  simp only [(h.pads_iff hrank).mpr hpads, if_true, hmax]
  rfl

theorem Consistent.mixinPlan_compact (zero : ρ) (h : Consistent ranks) (hpads : ¬ Padded ranks)
    {rank : DpRank ρ} {i : ℕ} (hrank : ranks[i]? = some rank) :
    mixinPlan zero ranks.length i rank = .ok
      ⟨.allGatherVariable rank.hiddenStates (ranks.map (·.hiddenStates.length)) i, 0, true⟩ := by
  have hmem := List.mem_of_getElem? hrank
  unfold mixinPlan dpGatherInputs
  rw [h.counts rank hmem]
  simp only [Bool.eq_false_iff.mpr fun hpad => hpads ((h.pads_iff hmem).mp hpad),
    Bool.false_eq_true, if_false, List.getElem?_map, hrank, Option.map_some]

theorem Consistent.wrapperPlan_eq (h : Consistent ranks) {rank : DpRank ρ} (hrank : rank ∈ ranks)
    (i : ℕ) : wrapperPlan zero ranks.length i rank = mixinPlan zero ranks.length i rank := by
  refine raiseIf_bind (not_not.mpr ?_)
  rw [h.counts rank hrank, List.length_map]

theorem collective_padded (hmax : (ranks.map (·.hiddenStates.length)).max? = some paddedTokens) :
    collective (ranks.zipIdx.map fun rank =>
        GatherCall.allGather (paddedRows zero paddedTokens rank.1) ranks.length) =
      .ok (ranks.map (paddedRows zero paddedTokens)).flatten := by
  have hcalls : (ranks.zipIdx.map fun rank =>
      GatherCall.allGather (paddedRows zero paddedTokens rank.1) ranks.length) =
      ranks.map fun rank => .allGather (paddedRows zero paddedTokens rank) ranks.length := by
    conv_rhs => rw [← List.zipIdx_map_fst 0 ranks, List.map_map]
    rw [List.zipIdx_map_fst]
    rfl
  have hlengths : ranks.map (fun rank => (paddedRows zero paddedTokens rank).length) =
      List.replicate ranks.length paddedTokens :=
    List.eq_replicate_iff.mpr ⟨List.length_map _, fun n hn => by
      obtain ⟨rank, hrank, rfl⟩ := List.mem_map.mp hn
      exact length_paddedRows zero hmax hrank⟩
  rw [hcalls]
  unfold collective
  rw [if_pos, List.flatMap_map, ← List.flatMap_def]
  · rfl
  · constructor
    · intro call hcall call' hcall'
      obtain ⟨rank, -, rfl⟩ := List.mem_map.mp hcall
      obtain ⟨rank', -, rfl⟩ := List.mem_map.mp hcall'
      rfl
    · intro call hcall
      obtain ⟨rank, hrank, rfl⟩ := List.mem_map.mp hcall
      rw [List.map_map]
      refine Eq.trans ?_ hlengths.symm
      exact congrArg _ (length_paddedRows zero hmax hrank)

theorem collective_compact :
    collective (ranks.zipIdx.map fun rank => GatherCall.allGatherVariable rank.1.hiddenStates
        (ranks.map (·.hiddenStates.length)) rank.2) =
      .ok (ranks.map (·.hiddenStates)).flatten := by
  have hsent : ∀ rank ∈ ranks.zipIdx, (GatherCall.allGatherVariable rank.1.hiddenStates
      (ranks.map (·.hiddenStates.length)) rank.2).sent = rank.1.hiddenStates := by
    intro rank hrank
    have hget := List.mem_zipIdx_iff_getElem?.mp hrank
    simp only [GatherCall.sent, List.getD_eq_getElem?_getD, List.getElem?_map, hget,
      Option.map_some, Option.getD_some, List.take_length]
  have hsents : (ranks.zipIdx.map fun rank => GatherCall.allGatherVariable rank.1.hiddenStates
      (ranks.map (·.hiddenStates.length)) rank.2).map (·.sent) = ranks.map (·.hiddenStates) := by
    rw [List.map_map]
    conv_rhs => rw [← List.zipIdx_map_fst 0 ranks, List.map_map]
    exact List.map_congr_left hsent
  unfold collective
  rw [if_pos, List.flatMap_def, hsents]
  constructor
  · intro call hcall call' hcall'
    obtain ⟨rank, -, rfl⟩ := List.mem_map.mp hcall
    obtain ⟨rank', -, rfl⟩ := List.mem_map.mp hcall'
    rfl
  · intro call hcall
    have hlengths := congrArg (List.map List.length) hsents
    rw [List.map_map] at hlengths
    obtain ⟨rank, hrank, rfl⟩ := List.mem_map.mp hcall
    obtain ⟨hlt, hrankEq⟩ := List.getElem?_eq_some_iff.mp (List.mem_zipIdx_iff_getElem?.mp hrank)
    have hbuffers : (GatherCall.allGatherVariable rank.1.hiddenStates
        (ranks.map (·.hiddenStates.length)) rank.2).buffers =
        (ranks.map (·.hiddenStates)).map List.length := by
      refine List.ext_getElem (by simp [GatherCall.buffers]) fun i hi hi' => ?_
      simp only [GatherCall.buffers, List.getElem_mapIdx, List.getElem_map]
      split
      · next heq =>
        subst heq
        rw [hrankEq, Nat.min_self]
      · rfl
    exact hbuffers.trans hlengths.symm

/-! ## Every rank keeps its own rows -/

/-- In the padded gather, the rows of a rank start at a multiple of `padded_tokens`. -/
theorem dpScatterOutput_padded (f : ρ → σ)
    (hmax : (ranks.map (·.hiddenStates.length)).max? = some paddedTokens)
    {rank : DpRank ρ} {i : ℕ} (hrank : ranks[i]? = some rank) (counts : List ℕ) :
    dpScatterOutput i ((ranks.map (paddedRows zero paddedTokens)).flatten.map f)
      rank.hiddenStates.length paddedTokens false counts = .ok (rank.hiddenStates.map f) := by
  have hmem := List.mem_of_getElem? hrank
  have hlength := length_paddedRows zero hmax hmem
  have hparts : ((ranks.map (paddedRows zero paddedTokens)).flatten.map f) =
      (ranks.map fun rank => (paddedRows zero paddedTokens rank).map f).flatten := by
    rw [List.map_flatten, List.map_map]
    rfl
  have hpart : (ranks.map fun rank => (paddedRows zero paddedTokens rank).map f)[i]? =
      some ((paddedRows zero paddedTokens rank).map f) := by
    rw [List.getElem?_map, hrank]
    rfl
  have hlengths : ((ranks.map fun rank => (paddedRows zero paddedTokens rank).map f).take i).map
      List.length = List.replicate i paddedTokens := by
    refine List.eq_replicate_iff.mpr ⟨?_, fun n hn => ?_⟩
    · have hlt := (List.getElem?_eq_some_iff.mp hrank).1
      rw [List.length_map, List.length_take, List.length_map, Nat.min_eq_left (Nat.le_of_lt hlt)]
    · obtain ⟨part, hpart, rfl⟩ := List.mem_map.mp hn
      obtain ⟨rank', hrank', rfl⟩ := List.mem_map.mp (List.mem_of_mem_take hpart)
      rw [List.length_map, length_paddedRows zero hmax hrank']
  have hown : ((paddedRows zero paddedTokens rank).map f).take rank.hiddenStates.length =
      rank.hiddenStates.map f := by
    rw [paddedRows, List.map_append, List.take_left' (List.length_map _)]
  have hle : rank.hiddenStates.length ≤ ((paddedRows zero paddedTokens rank).map f).length := by
    rw [List.length_map, paddedRows, List.length_append]
    exact Nat.le_add_right _ _
  unfold dpScatterOutput
  rw [if_neg Bool.false_ne_true]
  split
  · have hnarrow := narrow_flatten hpart hle
    rw [hlengths, List.sum_replicate_nat, hown] at hnarrow
    rw [hparts]
    exact hnarrow
  · next hzero =>
    -- No rank has a row.
    have hnil : ∀ rank' ∈ ranks, paddedRows zero paddedTokens rank' = [] := fun rank' hrank' =>
      List.length_eq_zero_iff.mp ((length_paddedRows zero hmax hrank').trans (Nat.eq_zero_of_not_pos hzero))
    have hempty : rank.hiddenStates = [] := (List.append_eq_nil_iff.mp (hnil rank hmem)).1
    have hflatten : (ranks.map (paddedRows zero paddedTokens)).flatten = [] :=
      List.flatten_eq_nil_iff.mpr fun part hpart => by
        obtain ⟨rank', hrank', rfl⟩ := List.mem_map.mp hpart
        exact hnil rank' hrank'
    rw [hflatten, hempty]

/-- In the compact gather, the rows of a rank are behind those of the ranks in front of it. -/
theorem dpScatterOutput_compact (f : ρ → σ) {rank : DpRank ρ} {i : ℕ}
    (hrank : ranks[i]? = some rank) (padded : ℕ) :
    dpScatterOutput i ((ranks.map (·.hiddenStates)).flatten.map f) rank.hiddenStates.length padded
      true (ranks.map (·.hiddenStates.length)) = .ok (rank.hiddenStates.map f) := by
  have hparts : ((ranks.map (·.hiddenStates)).flatten.map f) =
      (ranks.map fun rank => rank.hiddenStates.map f).flatten := by
    rw [List.map_flatten, List.map_map]
    rfl
  have hpart : (ranks.map fun rank => rank.hiddenStates.map f)[i]? =
      some (rank.hiddenStates.map f) := by
    rw [List.getElem?_map, hrank]
    rfl
  have hlengths : ((ranks.map fun rank => rank.hiddenStates.map f).take i).map List.length =
      (ranks.map (·.hiddenStates.length)).take i := by
    rw [← List.map_take, ← List.map_take, List.map_map]
    exact List.map_congr_left fun rank _ => List.length_map _
  have hlength : (rank.hiddenStates.map f).length = rank.hiddenStates.length := List.length_map _
  have hnarrow := narrow_flatten hpart (Nat.le_of_eq hlength.symm)
  rw [hlengths, List.take_of_length_le (Nat.le_of_eq hlength)] at hnarrow
  rw [dpScatterOutput, if_pos rfl, hparts]
  exact hnarrow

/-- A step in which the ranks pad their rows. -/
theorem gatherMoeSlice_padded (f : ρ → σ)
    (hmax : (ranks.map (·.hiddenStates.length)).max? = some paddedTokens)
    (hplan : ∀ rank ∈ ranks.zipIdx, plan rank.2 rank.1 = .ok
      ⟨.allGather (paddedRows zero paddedTokens rank.1) ranks.length, paddedTokens, false⟩) :
    gatherMoeSlice plan (List.map f) ranks = .ok (ranks.map fun rank => rank.hiddenStates.map f) :=
  gatherMoeSlice_eq (fun rank =>
      ⟨.allGather (paddedRows zero paddedTokens rank.1) ranks.length, paddedTokens, false⟩) _
    hplan (collective_padded hmax)
    fun _ hrank => dpScatterOutput_padded f hmax (List.mem_zipIdx_iff_getElem?.mp hrank) _

/-- A step in which the ranks send exactly their rows. -/
theorem gatherMoeSlice_compact (f : ρ → σ) (h : Consistent ranks)
    (hplan : ∀ rank ∈ ranks.zipIdx, plan rank.2 rank.1 = .ok ⟨.allGatherVariable
      rank.1.hiddenStates (ranks.map (·.hiddenStates.length)) rank.2, 0, true⟩) :
    gatherMoeSlice plan (List.map f) ranks = .ok (ranks.map fun rank => rank.hiddenStates.map f) :=
  gatherMoeSlice_eq (fun rank => ⟨.allGatherVariable rank.1.hiddenStates
      (ranks.map (·.hiddenStates.length)) rank.2, 0, true⟩) _ hplan collective_compact
    fun rank hrank => by
      have hget := List.mem_zipIdx_iff_getElem?.mp hrank
      rw [h.counts rank.1 (List.mem_of_getElem? hget)]
      exact dpScatterOutput_compact f hget 0

/-- The ranks of a group with consistent metadata choose the same gather, and each of them ends with the
MoE of its own rows, in the wrapper as in the mixin. -/
theorem dataParallel_eq_local (zero : ρ) (f : ρ → σ) (ranks : List (DpRank ρ)) (hne : ranks ≠ [])
    (h : Consistent ranks) :
    (∃ padded compact, ∀ i rank, ranks[i]? = some rank → ∃ call,
      wrapperPlan zero ranks.length i rank = .ok ⟨call, padded, compact⟩ ∧
        mixinPlan zero ranks.length i rank = .ok ⟨call, padded, compact⟩) ∧
      dpForwardMoeWrapper zero (List.map f) ranks =
        .ok (ranks.map fun rank => rank.hiddenStates.map f) ∧
      mixinForward zero (List.map f) ranks =
        .ok (ranks.map fun rank => rank.hiddenStates.map f) := by
  have hwrapper {plan} {i : ℕ} {rank : DpRank ρ} (hrank : ranks[i]? = some rank)
      (hplan : mixinPlan zero ranks.length i rank = .ok plan) :
      wrapperPlan zero ranks.length i rank = .ok plan :=
    (h.wrapperPlan_eq (List.mem_of_getElem? hrank) i).trans hplan
  have hsingle (hslice : gatherMoeSlice (wrapperPlan zero ranks.length) (List.map f) ranks =
      .ok (ranks.map fun rank => rank.hiddenStates.map f)) :
      dpForwardMoeWrapper zero (List.map f) ranks =
        .ok (ranks.map fun rank => rank.hiddenStates.map f) := by
    unfold dpForwardMoeWrapper
    split
    · rfl
    · exact hslice
  by_cases hpads : Padded ranks
  · obtain ⟨paddedTokens, hmax⟩ : ∃ n, (ranks.map (·.hiddenStates.length)).max? = some n :=
      Option.ne_none_iff_exists'.mp fun hnone =>
        hne (List.map_eq_nil_iff.mp (List.max?_eq_none_iff.mp hnone))
    have hplan {i : ℕ} {rank : DpRank ρ} (hrank : ranks[i]? = some rank) :=
      h.mixinPlan_padded zero hpads hmax (List.mem_of_getElem? hrank) i
    refine ⟨⟨paddedTokens, false, fun i rank hrank => ?_⟩, hsingle ?_, ?_⟩
    · exact ⟨_, hwrapper hrank (hplan hrank), hplan hrank⟩
    · exact gatherMoeSlice_padded f hmax fun rank hrank =>
        have hget := List.mem_zipIdx_iff_getElem?.mp hrank
        hwrapper hget (hplan hget)
    · exact gatherMoeSlice_padded f hmax fun rank hrank =>
        hplan (List.mem_zipIdx_iff_getElem?.mp hrank)
  · have hplan {i : ℕ} {rank : DpRank ρ} (hrank : ranks[i]? = some rank) :=
      h.mixinPlan_compact zero hpads hrank
    refine ⟨⟨0, true, fun i rank hrank => ?_⟩, hsingle ?_, ?_⟩
    · exact ⟨_, hwrapper hrank (hplan hrank), hplan hrank⟩
    · exact gatherMoeSlice_compact f h fun rank hrank =>
        have hget := List.mem_zipIdx_iff_getElem?.mp hrank
        hwrapper hget (hplan hget)
    · exact gatherMoeSlice_compact f h fun rank hrank =>
        hplan (List.mem_zipIdx_iff_getElem?.mp hrank)

/-- A rank with two rows, in a prefill or not, one without rows and one that decodes. -/
def threeRanks (prefill : Bool) : List (DpRank ℕ) :=
  let flags := some [if prefill then 0 else 1, 1, 1]
  [⟨[1, 2], ⟨[2, 0, 1], prefill, false, false, flags⟩⟩,
    ⟨[], ⟨[2, 0, 1], false, false, false, flags⟩⟩,
    ⟨[3], ⟨[2, 0, 1], false, false, false, flags⟩⟩]

theorem threeRanks_consistent (prefill : Bool) : Consistent (threeRanks prefill) where
  counts := by simp [threeRanks]
  flags := ⟨[if prefill then 0 else 1, 1, 1], by simp [threeRanks], by
    cases prefill with
    | true => exact .cons (by decide) (.cons (by decide) (.cons (by decide) .nil))
    | false => exact .cons (by decide) (.cons (by decide) (.cons (by decide) .nil))⟩
  graph := by simp [threeRanks]

/-- With a prefill the rows are padded, without one they are not. -/
theorem dataParallel_eq_local_threeRanks :
    (dpForwardMoeWrapper 0 (List.map (· + 10)) (threeRanks true) = .ok [[11, 12], [], [13]] ∧
      mixinForward 0 (List.map (· + 10)) (threeRanks true) = .ok [[11, 12], [], [13]]) ∧
    dpForwardMoeWrapper 0 (List.map (· + 10)) (threeRanks false) = .ok [[11, 12], [], [13]] ∧
      mixinForward 0 (List.map (· + 10)) (threeRanks false) = .ok [[11, 12], [], [13]] :=
  ⟨(dataParallel_eq_local 0 (· + 10) (threeRanks true) (List.cons_ne_nil _ _)
      (threeRanks_consistent true)).2,
    (dataParallel_eq_local 0 (· + 10) (threeRanks false) (List.cons_ne_nil _ _)
      (threeRanks_consistent false)).2⟩

end Ikun.Moe
