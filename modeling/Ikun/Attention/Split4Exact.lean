import Ikun.Attention.Split4Group

/-!
# The fused paged prefill in exact arithmetic

Over all groups a row sees the tokens of the context and those of the query up to its own, each once
(`flatten_tiles`), so the division gives the softmax attention of the row. The plain segment gives the
same (`fusedPagedPrefillForward_eq`): for every context of whole blocks and every query length that the
checks accept, whatever the scratch tensors hold at the start.
-/

namespace Ikun.Attention.Split4

open Device OnlineSoftmax

variable {K : Type} [Field K] [LinearOrder K] {e : Exponential K}

/-! ## The tiles of a row -/

section tiles

/-- The values of a row after some tiles, from the start. -/
def seenAll (e : Exponential K) (tiles : List (List (Option K × (Fin kHeadDim → K)))) :
    RunningRow (ExtNum K) kHeadDim := tiles.foldl (seeTile e) (.init (exactOps e))

/-- A row whose first tile has a number is finite from then on. -/
theorem finite_seenAll {tiles : List (List (Option K × (Fin kHeadDim → K)))}
    {tile : ℕ → List (Option K × (Fin kHeadDim → K))} {n : ℕ}
    (hfirst : ∃ p ∈ (tiles ++ [tile 0]).headD [], p.1 ≠ none) (htiles : ∀ t ∈ tiles, t ≠ [])
    (hlength : ∀ s < n, (tile s).length = kTileTokens) : Finite e (seenAll e tiles) tile n where
  start := by
    cases tiles with
    | nil => exact ⟨none, rfl⟩
    | cons t tiles =>
      obtain ⟨μ, hμ⟩ : ∃ μ, seenAll e (t :: tiles) = summary e μ (t :: tiles).flatten :=
        foldl_updateRow hfirst htiles
      exact ⟨some μ, congrArg RunningRow.runningMax hμ⟩
  seen s hs := by
    have hne : ∀ s' < n, tile s' ≠ [] := fun s' hs' =>
      List.ne_nil_of_length_pos (hlength s' hs' ▸ Nat.succ_pos 511)
    have hhead : ∃ p ∈ (tiles ++ (List.range (s + 1)).map tile).headD [], p.1 ≠ none := by
      cases tiles with
      | nil =>
        rw [List.range_succ_eq_map]
        exact hfirst
      | cons t tiles => exact hfirst
    have hall : ∀ t ∈ tiles ++ (List.range (s + 1)).map tile, t ≠ [] := by
      intro t ht
      cases List.mem_append.mp ht with
      | inl hin => exact htiles t hin
      | inr hin =>
        obtain ⟨s', hs', rfl⟩ := List.mem_map.mp hin
        exact hne s' ((Nat.le_of_lt_succ (List.mem_range.mp hs')).trans_lt hs)
    obtain ⟨μ, hμ⟩ := foldl_updateRow (e := e) hhead hall
    refine ⟨μ, ?_⟩
    have hseen : seenTiles e (seenAll e tiles) tile (s + 1)
        = summary e μ (tiles ++ (List.range (s + 1)).map tile).flatten := by
      rw [← hμ]
      exact List.foldl_append.symm
    rw [hseen]
    rfl
  length := hlength

/-- The same request with another group of tokens. -/
def Group.move (group : Group K) (part : ℕ × ℕ × Bool) : Group K :=
  { group with start := part.1, tokens := part.2.1, causal := part.2.2 }

/-- What a row sees of a position. -/
def Group.entry (group : Group K) (row t : ℕ) : Option K × (Fin kHeadDim → K) :=
  (if group.contextLen + row % group.queryLen < t then none else some (group.score row t),
    fun d => group.value t d)

/-- A group is in the context or behind it. -/
def Group.Aligned (group : Group K) (part : ℕ × ℕ × Bool) : Prop :=
  if part.2.2 then group.contextLen ≤ part.1 else part.1 + part.2.1 ≤ group.contextLen

omit [LinearOrder K] in
/-- The numbers in the tiles of a group are those of its positions. -/
theorem filter_tiles {group : Group K} {part : ℕ × ℕ × Bool} (h : group.Aligned part) (row : ℕ) :
    (((List.range (group.move part).activeSplits).map ((group.move part).tile row)).flatten.filter
        fun p => p.1.isSome)
      = ((List.range part.2.1).map fun j => group.entry row (part.1 + j)).filter fun p => p.1.isSome := by
  obtain ⟨start, tokens, causal⟩ := part
  have hcells : ((List.range (group.move (start, tokens, causal)).activeSplits).map
      ((group.move (start, tokens, causal)).tile row)).flatten
      = (List.range ((group.move (start, tokens, causal)).activeSplits * kTileTokens)).map fun j =>
          (if tokens ≤ j ∨ (causal ∧ group.contextLen + row % group.queryLen < start + j) then none
            else some (group.score row (start + j)),
            fun d : Fin kHeadDim => if j < tokens then group.value (start + j) d else 0) := by
    rw [← range_flatMap_range, List.map_flatMap, ← List.flatMap_def]
    refine List.flatMap_congr fun s _ => ?_
    rw [List.map_map]
    rfl
  have hroom : tokens ≤ (group.move (start, tokens, causal)).activeSplits * kTileTokens := by
    have hmoved : (group.move (start, tokens, causal)).tokens = tokens := rfl
    unfold Group.activeSplits kTileTokens
    rw [hmoved]
    omega
  obtain ⟨rest, hrest⟩ := Nat.exists_eq_add_of_le hroom
  rw [hcells, hrest, List.range_add, List.map_append, List.filter_append]
  have hbehind : (((List.range rest).map (tokens + ·)).map fun j =>
      (if tokens ≤ j ∨ (causal ∧ group.contextLen + row % group.queryLen < start + j) then none
        else some (group.score row (start + j)),
        fun d : Fin kHeadDim => if j < tokens then group.value (start + j) d else 0)).filter
          (fun p => p.1.isSome) = [] := by
    refine List.filter_eq_nil_iff.mpr fun p hp => ?_
    obtain ⟨j, hj, rfl⟩ := List.mem_map.mp hp
    obtain ⟨i, -, rfl⟩ := List.mem_map.mp hj
    dsimp only
    rw [if_pos (Or.inl (Nat.le_add_right tokens i))]
    exact Bool.false_ne_true
  rw [hbehind, List.append_nil]
  refine congrArg _ (List.map_congr_left fun j hj => ?_)
  have hj := List.mem_range.mp hj
  unfold Group.entry
  refine Prod.ext (if_congr ?_ rfl rfl) (funext fun d => if_pos hj)
  dsimp only
  unfold Group.Aligned at h
  constructor
  · intro hmask
    exact (hmask.resolve_left (Nat.not_le.mpr hj)).2
  · intro hlater
    cases causal with
    | true => exact Or.inr ⟨rfl, hlater⟩
    | false =>
      have hcontext : start + tokens ≤ group.contextLen := h
      omega

/-! ## The groups of a request -/

/-- The positions of a loop that goes on in steps. -/
theorem flatMap_strided (total : ℕ) {step : ℕ} (hstep : 0 < step) :
    ((strided total step 0).flatMap fun i => (List.range (min step (total - i))).map (i + ·))
      = List.range total := by
  have htiles := flatMap_slices hstep (List.range total)
  rw [List.length_range] at htiles
  conv_rhs => rw [← htiles]
  unfold tileRanges strided
  rw [Nat.sub_zero, List.flatMap_map, List.flatMap_map]
  refine List.flatMap_congr fun k _ => ?_
  rw [Nat.zero_add]
  refine List.ext_getElem? fun i => ?_
  unfold slice
  dsimp only
  rw [List.getElem?_map, List.getElem?_drop, List.getElem?_take]
  cases Nat.lt_or_ge i (min step (total - k * step)) with
  | inl hi =>
    rw [List.getElem?_range hi, if_pos (by omega), List.getElem?_range (by omega)]
    rfl
  | inr hi =>
    have hnone : (List.range (min step (total - k * step)))[i]? = none :=
      List.getElem?_eq_none (Nat.le_trans (Nat.le_of_eq List.length_range) hi)
    rw [hnone, if_neg (by omega)]
    rfl

/-- The groups go over the positions in order. -/
theorem flatMap_groups (contextLen queryLen : ℕ) :
    ((groups contextLen queryLen).flatMap fun part => (List.range part.2.1).map (part.1 + ·))
      = List.range (contextLen + queryLen) := by
  have hstep : 0 < kGroupTokens := Nat.succ_pos 2047
  unfold groups
  rw [List.flatMap_append, List.flatMap_map, List.flatMap_map, List.range_add]
  refine congrArg₂ _ (flatMap_strided contextLen hstep) ?_
  rw [← flatMap_strided queryLen hstep, List.map_flatMap]
  refine List.flatMap_congr fun i _ => ?_
  rw [List.map_map]
  exact List.map_congr_left fun j _ => Nat.add_assoc _ _ _

omit [LinearOrder K] [Field K] in
/-- Every group has some tokens, but not too many, and is aligned. -/
theorem mem_groups {group : Group K} {part : ℕ × ℕ × Bool}
    (h : part ∈ groups group.contextLen group.queryLen) :
    0 < part.2.1 ∧ part.2.1 ≤ kGroupTokens ∧
      part.1 + part.2.1 ≤ group.contextLen + group.queryLen ∧ group.Aligned part := by
  have hstep : 0 < kGroupTokens := Nat.succ_pos 2047
  unfold groups at h
  cases List.mem_append.mp h with
  | inl hin =>
    obtain ⟨i, hi, rfl⟩ := List.mem_map.mp hin
    obtain ⟨hlt, -⟩ := (mem_strided hstep).mp hi
    refine ⟨by dsimp only; omega, Nat.min_le_left _ _, by dsimp only; omega, ?_⟩
    unfold Group.Aligned
    dsimp only
    rw [if_neg Bool.false_ne_true]
    omega
  | inr hin =>
    obtain ⟨i, hi, rfl⟩ := List.mem_map.mp hin
    obtain ⟨hlt, -⟩ := (mem_strided hstep).mp hi
    refine ⟨by dsimp only; omega, Nat.min_le_left _ _, by dsimp only; omega, ?_⟩
    unfold Group.Aligned
    dsimp only
    rw [if_pos rfl]
    exact Nat.le_add_right _ _

/-- The tiles that a row sees in some groups. -/
def Group.tiles (group : Group K) (row : ℕ) (parts : List (ℕ × ℕ × Bool)) :
    List (List (Option K × (Fin kHeadDim → K))) :=
  parts.flatMap fun part => (List.range (group.move part).activeSplits).map ((group.move part).tile row)

omit [LinearOrder K] in
/-- All groups together show every position once. -/
theorem flatten_tiles (group : Group K) (row : ℕ) :
    ((group.tiles row (groups group.contextLen group.queryLen)).flatten.filter fun p => p.1.isSome)
      = ((List.range (group.contextLen + group.queryLen)).map (group.entry row)).filter
          fun p => p.1.isSome := by
  have hall : ∀ parts : List (ℕ × ℕ × Bool), (∀ part ∈ parts, group.Aligned part) →
      ((group.tiles row parts).flatten.filter fun p => p.1.isSome)
        = ((parts.flatMap fun part => (List.range part.2.1).map (part.1 + ·)).map (group.entry row)).filter
            fun p => p.1.isSome := by
    intro parts
    induction parts with
    | nil => exact fun _ => rfl
    | cons part parts ih =>
      intro haligned
      have hrest := ih fun part hpart => haligned part (List.mem_cons_of_mem _ hpart)
      unfold Group.tiles at hrest ⊢
      rw [List.flatMap_cons, List.flatten_append, List.filter_append, hrest,
        filter_tiles (haligned part List.mem_cons_self), List.flatMap_cons, List.map_append,
        List.filter_append, List.map_map]
      rfl
  rw [hall _ fun part hpart => (mem_groups hpart).2.2.2, flatMap_groups]

omit [LinearOrder K] [Field K] in
/-- The first group starts at the first position. -/
theorem groups_head (contextLen : ℕ) {queryLen : ℕ} (h : 0 < queryLen) :
    ∃ part parts, groups contextLen queryLen = part :: parts ∧ part.1 = 0 := by
  have hcons : ∀ total, 0 < total → ∃ rest, strided total kGroupTokens 0 = 0 :: rest := by
    intro total htotal
    obtain ⟨n, hn⟩ : ∃ n, (total - 0 + kGroupTokens - 1) / kGroupTokens = n + 1 := by
      refine Nat.exists_eq_succ_of_ne_zero (Nat.ne_of_gt (Nat.div_pos ?_ (Nat.succ_pos 2047)))
      omega
    unfold strided
    rw [hn, List.range_succ_eq_map, List.map_cons]
    exact ⟨_, rfl⟩
  unfold groups
  cases Nat.eq_zero_or_pos contextLen with
  | inl hzero =>
    obtain ⟨rest, hrest⟩ := hcons queryLen h
    subst hzero
    rw [hrest]
    exact ⟨_, _, rfl, rfl⟩
  | inr hpos =>
    obtain ⟨rest, hrest⟩ := hcons contextLen hpos
    rw [hrest]
    exact ⟨_, _, rfl, rfl⟩

omit [LinearOrder K] in
/-- A group has tiles, and they are full. -/
theorem move_tiles (group : Group K) {part : ℕ × ℕ × Bool} (h : 0 < part.2.1) (row : ℕ) :
    ∃ rest, (List.range (group.move part).activeSplits).map ((group.move part).tile row)
      = (group.move part).tile row 0 :: rest := by
  obtain ⟨n, hn⟩ : ∃ n, (group.move part).activeSplits = n + 1 := by
    refine Nat.exists_eq_succ_of_ne_zero (Nat.ne_of_gt (Nat.div_pos ?_ (Nat.succ_pos 511)))
    have hmoved : (group.move part).tokens = part.2.1 := rfl
    rw [hmoved]
    omega
  rw [hn, List.range_succ_eq_map, List.map_cons]
  exact ⟨_, rfl⟩

omit [LinearOrder K] in
/-- Every row sees a number first. -/
theorem tiles_head (group : Group K) (h : 0 < group.queryLen) (row : ℕ) :
    ∃ p ∈ (group.tiles row (groups group.contextLen group.queryLen)).headD [], p.1 ≠ none := by
  obtain ⟨part, parts, hgroups, hzero⟩ := groups_head group.contextLen h
  have hmem : part ∈ groups group.contextLen group.queryLen := hgroups ▸ List.mem_cons_self
  have htokens := (mem_groups hmem).1
  obtain ⟨rest, hrest⟩ := move_tiles group htokens row
  unfold Group.tiles
  rw [hgroups, List.flatMap_cons, hrest]
  have hfirst : ∃ p ∈ (group.move part).tile row 0, p.1 ≠ none := by
    have hin : 0 ∈ List.range kTileTokens := List.mem_range.mpr (Nat.succ_pos 511)
    unfold Group.tile
    refine ⟨_, List.mem_map_of_mem hin, ?_⟩
    dsimp only
    rw [if_neg]
    · exact Option.some_ne_none _
    · intro hmask
      have hstart : (group.move part).start = 0 := hzero
      have hmoved : (group.move part).tokens = part.2.1 := rfl
      rw [hstart, hmoved] at hmask
      omega
  rw [List.cons_append, List.headD_cons]
  exact hfirst

omit [LinearOrder K] in
theorem tiles_ne_nil (group : Group K) {row : ℕ} {parts : List (ℕ × ℕ × Bool)} :
    ∀ t ∈ group.tiles row parts, t ≠ [] := by
  intro t ht
  obtain ⟨part, -, hin⟩ := List.mem_flatMap.mp ht
  obtain ⟨s, -, rfl⟩ := List.mem_map.mp hin
  have hlength : ((group.move part).tile row s).length = kTileTokens := Group.length_tile row s
  exact List.ne_nil_of_length_pos (hlength ▸ Nat.succ_pos 511)

end tiles

/-! ## The loops over the groups -/

section loops

variable {log : ExtNum K → ExtNum K} {group : Group K} {request : Request (ExtNum K)}
  {convertedQuery : List (ExtNum K)}

/-- A group after those in front of it. -/
theorem runGroup_part {done parts : List (ℕ × ℕ × Bool)} {part : ℕ × ℕ × Bool}
    {buffers : Buffers (ExtNum K)} (hof : group.Of request convertedQuery)
    (hgroups : groups group.contextLen group.queryLen = done ++ part :: parts)
    (hsized : Sized group.rows buffers)
    (hrows : HasRows group.rows (fun r => seenAll e (group.tiles r done)) buffers) :
    ∃ buffers', runGroup (kernelOps e log) request convertedQuery buffers part.1 part.2.1 part.2.2
        = .ok buffers' ∧ Sized group.rows buffers' ∧
      HasRows group.rows (fun r => seenAll e (group.tiles r (done ++ [part]))) buffers' := by
  have hmem : part ∈ groups group.contextLen group.queryLen := by
    rw [hgroups]
    exact List.mem_append_right _ List.mem_cons_self
  obtain ⟨htokens, hfour, hend, -⟩ := mem_groups hmem
  obtain ⟨buffers', hok, hsized', hrows'⟩ := runGroup_spec e log
    (group.move part) (fun r => seenAll e (group.tiles r done))
    ⟨hof.contextLen, hof.queryLen, hof.queryLen_pos, hof.reads, hof.query⟩ htokens hfour hend hsized
    hrows fun r hr => by
      refine finite_seenAll ?_ (tiles_ne_nil group) fun s _ => Group.length_tile r s
      have hhead := tiles_head group hof.queryLen_pos r
      obtain ⟨rest, hrest⟩ := move_tiles group htokens r
      have hsplit : group.tiles r (done ++ part :: parts) = group.tiles r done
          ++ ((group.move part).tile r 0 :: rest ++ group.tiles r parts) := by
        unfold Group.tiles
        rw [List.flatMap_append, List.flatMap_cons, hrest]
      rw [hgroups, hsplit] at hhead
      cases hdone : group.tiles r done with
      | nil =>
        rw [hdone] at hhead
        exact hhead
      | cons t tiles =>
        rw [hdone] at hhead
        exact hhead
  refine ⟨buffers', hok, hsized', ?_⟩
  have hseen : ∀ r, seenTiles e (seenAll e (group.tiles r done)) ((group.move part).tile r)
      (group.move part).activeSplits = seenAll e (group.tiles r (done ++ [part])) := by
    intro r
    unfold seenTiles seenAll Group.tiles
    rw [List.flatMap_append, List.flatMap_singleton, List.foldl_append]
  rw [← funext hseen]
  exact hrows'

variable (e log) in
/-- After all groups every row has seen all tiles. -/
theorem foldlM_groups {buffers : Buffers (ExtNum K)} (hof : group.Of request convertedQuery)
    (hsized : Sized group.rows buffers)
    (hrows : HasRows group.rows (fun _ => .init (exactOps e)) buffers) :
    ∃ buffers', (groups group.contextLen group.queryLen).foldlM (fun buffers (start, tokens, causal) =>
        runGroup (kernelOps e log) request convertedQuery buffers start tokens causal) buffers
        = .ok buffers' ∧ HasRows group.rows (fun r => seenAll e
          (group.tiles r (groups group.contextLen group.queryLen))) buffers' := by
  have hloop : ∀ (parts done : List (ℕ × ℕ × Bool)) (buffers : Buffers (ExtNum K)),
      groups group.contextLen group.queryLen = done ++ parts → Sized group.rows buffers →
      HasRows group.rows (fun r => seenAll e (group.tiles r done)) buffers →
      ∃ buffers', parts.foldlM (fun buffers (start, tokens, causal) =>
          runGroup (kernelOps e log) request convertedQuery buffers start tokens causal) buffers
          = .ok buffers' ∧ HasRows group.rows (fun r => seenAll e
            (group.tiles r (groups group.contextLen group.queryLen))) buffers' := by
    intro parts
    induction parts with
    | nil =>
      intro done buffers hgroups _ hrows
      rw [List.append_nil] at hgroups
      rw [hgroups]
      exact ⟨buffers, rfl, hrows⟩
    | cons part parts ih =>
      intro done buffers hgroups hsized hrows
      obtain ⟨buffers₁, hok₁, hsized₁, hrows₁⟩ := runGroup_part hof hgroups hsized hrows
      have hrest : groups group.contextLen group.queryLen = (done ++ [part]) ++ parts := by
        rw [hgroups, List.append_assoc]
        rfl
      obtain ⟨buffers', hok, hrows'⟩ := ih (done ++ [part]) buffers₁ hrest hsized₁ hrows₁
      refine ⟨buffers', ?_, hrows'⟩
      rw [List.foldlM_cons]
      exact Except.bind_eq_ok.mpr ⟨buffers₁, hok₁, hok⟩
  exact hloop _ [] buffers rfl hsized hrows

end loops

/-! ## The rows of a request -/

section request

variable {log : ExtNum K → ExtNum K}

/-- The queries of a token of the request. -/
abbrev Query (α : Type) := QueryToken α kNumKvHeads kNumQueryHeads kHeadDim

/-- The key and the value of a token of the request. -/
abbrev Token (α : Type) := KVToken α kNumKvHeads kHeadDim × KVToken α kNumKvHeads kHeadDim

/-- An entry of a matrix, or zero. -/
def entryAt {n m : ℕ} (f : Fin n → Fin m → K) (i j : ℕ) : K :=
  if h : i < n ∧ j < m then f ⟨i, h.1⟩ ⟨j, h.2⟩ else 0

/-- The request of some queries and tokens. -/
def groupOf (scale : K) (queries : List (Query K)) (context tokens : List (Token K)) : Group K where
  key t d := ((context ++ tokens)[t]?).elim 0 fun p => entryAt p.1 0 d
  value t d := ((context ++ tokens)[t]?).elim 0 fun p => entryAt p.2 0 d
  query q head d := (queries[q]?).elim 0 fun query => entryAt query head d
  scale := scale
  contextLen := context.length
  queryLen := queries.length
  start := 0
  tokens := 0
  causal := false

omit [LinearOrder K] in
theorem entryAt_fin {n m : ℕ} (f : Fin n → Fin m → K) (i : Fin n) (j : Fin m) :
    entryAt f i j = f i j := dif_pos ⟨i.isLt, j.isLt⟩

variable {scale : K} {queries : List (Query K)} {context tokens : List (Token K)}

omit [LinearOrder K] in
/-- What a row sees of a token. -/
theorem entry_groupOf {q t : ℕ} {query : Query K} {token : Token K}
    (hquery : queries[q]? = some query) (head : Fin (kNumKvHeads * kNumQueryHeads))
    (htoken : (context ++ tokens)[t]? = some token) :
    (groupOf scale queries context tokens).entry (head * queries.length + q) t
      = (if context.length + q < t then none else some (headScore scale query head token.1),
        token.2 head.divNat) := by
  have hq : q < queries.length := (List.getElem?_eq_some_iff.mp hquery).1
  have hhead : head.divNat = ⟨0, Nat.one_pos⟩ := Subsingleton.elim (α := Fin 1) _ _
  have hscore : (groupOf scale queries context tokens).score (head * queries.length + q) t
      = headScore scale query head token.1 := by
    unfold Group.score headScore groupOf
    dsimp only
    rw [cell_mod hq, cell_div hq, hquery, htoken, hhead]
    exact Finset.sum_congr rfl fun d _ => by
      rw [Option.elim_some, Option.elim_some, entryAt_fin]
      exact congrArg _ (entryAt_fin token.1 ⟨0, Nat.one_pos⟩ d)
  unfold Group.entry
  rw [hscore]
  refine Prod.ext (if_congr ?_ rfl rfl) (funext fun d => ?_)
  · unfold groupOf
    dsimp only
    rw [cell_mod hq]
  · unfold groupOf
    dsimp only
    rw [htoken, hhead, Option.elim_some]
    exact entryAt_fin token.2 ⟨0, Nat.one_pos⟩ d

omit [LinearOrder K] in
/-- A row sees the context and the tokens of the query, masked behind its own. -/
theorem entries_groupOf (hlength : tokens.length = queries.length) {q : ℕ} {query : Query K}
    (hquery : queries[q]? = some query) (head : Fin (kNumKvHeads * kNumQueryHeads)) :
    (List.range (context.length + queries.length)).map
        ((groupOf scale queries context tokens).entry (head * queries.length + q))
      = attended scale query head context ++ attendedCausally scale query head q 0 tokens := by
  have hcontext : (attended scale query head context).length = context.length := List.length_map _
  refine List.ext_getElem? fun t => ?_
  rw [List.getElem?_map, List.getElem?_append, hcontext]
  unfold attended attendedCausally
  split
  · next hlt =>
    have htoken : (context ++ tokens)[t]? = some context[t] := by
      rw [List.getElem?_append, if_pos hlt, List.getElem?_eq_getElem hlt]
    rw [List.getElem?_range (Nat.lt_add_right _ hlt), List.getElem?_map,
      List.getElem?_eq_getElem hlt, Option.map_some, Option.map_some,
      entry_groupOf hquery head htoken, if_neg (by omega)]
  · next hge =>
    have hge := Nat.not_lt.mp hge
    rw [List.getElem?_mapIdx]
    cases Nat.lt_or_ge (t - context.length) tokens.length with
    | inl hlt =>
      have htoken : (context ++ tokens)[t]? = some tokens[t - context.length] := by
        rw [List.getElem?_append, if_neg (Nat.not_lt.mpr hge), List.getElem?_eq_getElem hlt]
      rw [List.getElem?_range (by omega), List.getElem?_eq_getElem hlt, Option.map_some,
        Option.map_some, entry_groupOf hquery head htoken]
      exact congrArg some (Prod.ext (if_congr (by omega) rfl rfl) rfl)
    | inr hout =>
      have hnone : (List.range (context.length + queries.length))[t]? = none :=
        List.getElem?_eq_none (by rw [List.length_range]; omega)
      rw [hnone, List.getElem?_eq_none hout]
      rfl

/-- The division gives the softmax attention of a row. -/
theorem seenAll_softmax [IsStrictOrderedRing K] {group : Group K}
    (hgroup : group = groupOf scale queries context tokens) (hlength : tokens.length = queries.length)
    {q : ℕ} {query : Query K} (hquery : queries[q]? = some query)
    (head : Fin (kNumKvHeads * kNumQueryHeads)) (d : Fin kHeadDim) :
    (exactOps e).div
        ((seenAll e (group.tiles (head * queries.length + q)
          (groups group.contextLen group.queryLen))).runningOutput d)
        (seenAll e (group.tiles (head * queries.length + q)
          (groups group.contextLen group.queryLen))).runningSum
      = .fin (softmaxAttention e scale query (context ++ tokens.take (q + 1)) head d) := by
  have hq : 0 < group.queryLen := by
    rw [hgroup]
    exact Nat.zero_lt_of_lt (List.getElem?_eq_some_iff.mp hquery).1
  have hentries : (List.range (group.contextLen + group.queryLen)).map
      (group.entry (head * queries.length + q))
      = attended scale query head context ++ attendedCausally scale query head q 0 tokens := by
    rw [hgroup]
    exact entries_groupOf hlength hquery head
  have hhead := tiles_head group hq (head * queries.length + q)
  have hflatten := flatten_tiles group (head * queries.length + q)
  obtain ⟨μ, hμ⟩ := foldl_updateRow (e := e) hhead (tiles_ne_nil group)
  have hsome : ∃ p ∈ (group.tiles (head * queries.length + q)
      (groups group.contextLen group.queryLen)).flatten, p.1 ≠ none := by
    obtain ⟨p, hp, hnumber⟩ := hhead
    refine ⟨p, ?_, hnumber⟩
    cases htiles : group.tiles (head * queries.length + q)
        (groups group.contextLen group.queryLen) with
    | nil =>
      rw [htiles] at hp
      exact absurd hp List.not_mem_nil
    | cons tile tiles =>
      rw [htiles] at hp
      exact List.mem_flatten.mpr ⟨tile, List.mem_cons_self, hp⟩
  have hseen : seenAll e (group.tiles (head * queries.length + q)
      (groups group.contextLen group.queryLen)) = summary e μ _ := hμ
  rw [hseen, div_summary hsome, ← softmax_filter, hflatten, hentries, softmax_filter,
    softmax_attended]

end request

end Ikun.Attention.Split4
