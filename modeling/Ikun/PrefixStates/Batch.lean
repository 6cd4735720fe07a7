import Ikun.PrefixStates.Queues

/-!
# The batch of a step

The metadata of a step with at most one prompt, and the input that the model runner builds from it.
Decodes carry no actions, so that the input has the actions of the prompt and its query.
-/

namespace Ikun.PrefixStates

open Except GdnPrefix Scheduling Scheduling.Scheduler

variable {ρ δ A T : Type} [DecidableEq ρ] [DecidableEq δ]
variable {cfg : SchedulerConfig A T δ} {env : Environment ρ δ}
  {s s' : Scheduler ρ δ A T} {g : SequenceGroup ρ δ}

/-! ## The metadata of a group -/

/-- The metadata of a decode: no prompt, and no actions. -/
structure IsDecode (md : SequenceGroupMetadata ρ δ) : Prop where
  isPrompt : ¬ md.isPrompt
  given : ¬ (gdnActions md).given

/-- The metadata of a prompt, which sends actions that fit its query. -/
structure IsPrompt (cfg : SchedulerConfig A T δ) (p p' : GdnPrefixStatePolicy δ)
    (a : PrefillActions δ) (md : SequenceGroupMetadata ρ δ) : Prop where
  isPrompt : md.isPrompt
  sent : gdnActions md = sentActions a
  query_pos : 0 < (queryLens cfg.blockSize md).queryLen
  actions : PromptActions p p' a (queryLens cfg.blockSize md).queryLen

omit [DecidableEq ρ] [DecidableEq δ] in
theorem quiet_accessBlocks {blocks : List ℕ} (hok : s.accessBlocks cfg env g = .ok (blocks, s')) :
    ∃ m, s' = { s with blockManager := m } := by
  unfold accessBlocks at hok
  split at hok
  · obtain ⟨accessed, -, hok⟩ := bind_eq_ok.mp hok
    obtain ⟨computed, -, hok⟩ := bind_eq_ok.mp hok
    obtain ⟨-, rfl⟩ := Prod.mk.inj (Except.ok.inj hok)
    exact ⟨_, rfl⟩
  · obtain ⟨-, rfl⟩ := Prod.mk.inj (Except.ok.inj hok)
    exact ⟨s.blockManager, rfl⟩

/-- A decode leaves the index alone. -/
theorem buildMetadata_decode {scheduled : ScheduledSequenceGroup ρ δ}
    {md : SequenceGroupMetadata ρ δ} (hdecode : ¬ scheduled.seqGroup.isPrefill)
    (hok : s.buildMetadata cfg env scheduled = .ok (md, s')) : IsDecode md ∧
      s'.gdnPrefixPolicy = s.gdnPrefixPolicy ∧
      s'.gdnRequestRestoreKeys = s.gdnRequestRestoreKeys := by
  unfold buildMetadata at hok
  obtain ⟨table, -, hok⟩ := bind_eq_ok.mp hok
  obtain ⟨⟨blocks, accessed⟩, haccessed, hok⟩ := bind_eq_ok.mp hok
  obtain ⟨m, rfl⟩ := quiet_accessBlocks haccessed
  dsimp only at hok
  rw [if_pos hdecode] at hok
  obtain ⟨rfl, rfl⟩ := Prod.mk.inj (Except.ok.inj hok)
  rw [if_neg fun h => hdecode h.1]
  refine ⟨⟨hdecode, ?_⟩, rfl, rfl⟩
  unfold gdnActions metadataOf GdnActions.given
  dsimp only
  rw [if_neg hdecode, if_neg hdecode, if_neg hdecode]
  exact Bool.false_ne_true

omit [DecidableEq δ] in
/-- A prompt without actions. -/
theorem promptActions_nil {p : GdnPrefixStatePolicy δ} (h : Residents p) (queryLen : ℕ) :
    PromptActions p p {} queryLen :=
  ⟨h.admitted_nil, .nil, Nat.zero_le 2, fun _ h => absurd h List.not_mem_nil, (fun _ h => nomatch h),
    fun _ h => absurd h List.not_mem_nil, Nat.zero_le 3⟩

/-- A prompt sends actions that fit its query. -/
theorem buildMetadata_prompt {scheduled : ScheduledSequenceGroup ρ δ}
    {md : SequenceGroupMetadata ρ δ} (hresidents : Residents s.gdnPrefixPolicy)
    (hprefill : scheduled.seqGroup.isPrefill)
    (hfits : QueryFits cfg s scheduled.seqGroup scheduled.tokenChunkSize)
    (hlast : ∀ key, restoredOf s scheduled.seqGroup = some key →
      [key] <:+ s.gdnPrefixPolicy.resident)
    (hok : s.buildMetadata cfg env scheduled = .ok (md, s')) :
    (∃ a, IsPrompt cfg s.gdnPrefixPolicy s'.gdnPrefixPolicy a md) ∧
      ∀ requestId key, restoreEntry s' requestId = some key → restoreEntry s requestId = some key := by
  unfold buildMetadata at hok
  obtain ⟨table, -, hok⟩ := bind_eq_ok.mp hok
  obtain ⟨⟨blocks, accessed⟩, haccessed, hok⟩ := bind_eq_ok.mp hok
  obtain ⟨m, rfl⟩ := quiet_accessBlocks haccessed
  dsimp only at hok
  rw [if_neg (not_not.mpr hprefill)] at hok
  have hpopped : ∀ (built : Scheduler ρ δ A T) (c : Prop) [Decidable c],
      (if c then built.popGdnEntries scheduled.seqGroup.requestId else built).gdnPrefixPolicy
        = built.gdnPrefixPolicy ∧
      ∀ requestId key, restoreEntry (if c then
        built.popGdnEntries scheduled.seqGroup.requestId else built) requestId = some key →
          restoreEntry built requestId = some key := fun built c _ => by
    split
    · exact ⟨rfl, (gdnCalm_popGdnEntries built _).entries⟩
    · exact ⟨rfl, fun _ _ => id⟩
  split at hok
  · obtain ⟨⟨actions, built⟩, hbuilt, hok⟩ := bind_eq_ok.mp hok
    obtain ⟨rfl, rfl⟩ := Prod.mk.inj (Except.ok.inj hok)
    obtain ⟨hpolicy, hentries⟩ := hpopped built (scheduled.seqGroup.isPrefill ∧
      scheduled.seqGroup.len ≤ scheduled.seqGroup.numComputedTokens + scheduled.tokenChunkSize)
    have hspec := prefillActions_spec (s := { s with blockManager := m }) hresidents hlast
      ⟨hfits.chunk_pos, hfits.computed_lt, hfits.query_le⟩ hbuilt
      (show (metadataOf scheduled.seqGroup scheduled.tokenChunkSize
        (cfg.tables.physicalBlockIds table) actions).tokenIds = _ from rfl) rfl rfl rfl
    refine ⟨⟨actions, hprefill, ?_, hspec.2.1, ?_⟩, fun requestId key hkey => ?_⟩
    · unfold gdnActions metadataOf
      dsimp only
      rw [if_pos hprefill, if_pos hprefill, if_pos hprefill]
      rfl
    · rw [hpolicy]
      exact hspec.1
    · have hold := hentries requestId key hkey
      unfold restoreEntry at hold ⊢
      rwa [hspec.2.2] at hold
  · obtain ⟨rfl, rfl⟩ := Prod.mk.inj (Except.ok.inj hok)
    obtain ⟨hpolicy, hentries⟩ := hpopped { s with blockManager := m } (scheduled.seqGroup.isPrefill ∧
      scheduled.seqGroup.len ≤ scheduled.seqGroup.numComputedTokens + scheduled.tokenChunkSize)
    refine ⟨⟨{}, hprefill, ?_, ?_, ?_⟩, hentries⟩
    · unfold gdnActions metadataOf
      dsimp only
      rw [if_pos hprefill, if_pos hprefill, if_pos hprefill]
      rfl
    · exact (computeForPrefixCacheHit_spec (lt_min hfits.computed_lt
        (Nat.lt_add_of_pos_right hfits.chunk_pos))).1
    · rw [hpolicy]
      exact promptActions_nil hresidents _

/-! ## The batch -/

/-- The metadata of a batch with at most one prompt. -/
inductive OnePromptBatch (cfg : SchedulerConfig A T δ) (p p' : GdnPrefixStatePolicy δ) :
    List (SequenceGroupMetadata ρ δ) → Prop
  | decodes {metadata : List (SequenceGroupMetadata ρ δ)} : p' = p →
      (∀ md ∈ metadata, IsDecode md) → OnePromptBatch cfg p p' metadata
  | prompt {front back : List (SequenceGroupMetadata ρ δ)} {md : SequenceGroupMetadata ρ δ}
      {a : PrefillActions δ} : (∀ md ∈ front, IsDecode md) → IsPrompt cfg p p' a md →
      (∀ md ∈ back, IsDecode md) → OnePromptBatch cfg p p' (front ++ md :: back)

omit [DecidableEq ρ] [DecidableEq δ] in
/-- A decode in front of the batch. -/
theorem OnePromptBatch.cons {p p' : GdnPrefixStatePolicy δ} {md : SequenceGroupMetadata ρ δ}
    {metadata : List (SequenceGroupMetadata ρ δ)} (h : OnePromptBatch cfg p p' metadata)
    (hmd : IsDecode md) : OnePromptBatch cfg p p' (md :: metadata) := by
  cases h with
  | decodes heq hmetadata => exact .decodes heq (List.forall_mem_cons.mpr ⟨hmd, hmetadata⟩)
  | prompt hfront hprompt hback =>
    rw [← List.cons_append]
    exact .prompt (List.forall_mem_cons.mpr ⟨hmd, hfront⟩) hprompt hback

/-- The loop of `schedule` over decodes. -/
theorem buildAll_decodes {scheduled : List (ScheduledSequenceGroup ρ δ)}
    {metadata : List (SequenceGroupMetadata ρ δ)}
    (hdecodes : ∀ sg ∈ scheduled, ¬ sg.seqGroup.isPrefill)
    (hok : buildAll cfg env scheduled s = .ok (metadata, s')) :
    (∀ md ∈ metadata, IsDecode md) ∧ s'.gdnPrefixPolicy = s.gdnPrefixPolicy ∧
      s'.gdnRequestRestoreKeys = s.gdnRequestRestoreKeys := by
  induction scheduled generalizing s metadata with
  | nil =>
    obtain ⟨rfl, rfl⟩ := Prod.mk.inj (Except.ok.inj hok)
    exact ⟨fun _ h => absurd h List.not_mem_nil, rfl, rfl⟩
  | cons sg scheduled ih =>
    obtain ⟨⟨md, s₁⟩, hmd, hok⟩ := bind_eq_ok.mp hok
    obtain ⟨⟨others, s₂⟩, hothers, hok⟩ := bind_eq_ok.mp hok
    obtain ⟨rfl, rfl⟩ := Prod.mk.inj (Except.ok.inj hok)
    obtain ⟨hdecode, hpolicy, hkeys⟩ := buildMetadata_decode (hdecodes sg List.mem_cons_self) hmd
    obtain ⟨hrest, hpolicy', hkeys'⟩ :=
      ih (fun sg' hsg' => hdecodes sg' (List.mem_cons_of_mem sg hsg')) hothers
    exact ⟨List.forall_mem_cons.mpr ⟨hdecode, hrest⟩, hpolicy'.trans hpolicy, hkeys'.trans hkeys⟩

/-- The loop of `schedule` over scheduled groups with at most one prompt. -/
theorem buildAll_onePrompt {scheduled : List (ScheduledSequenceGroup ρ δ)}
    {metadata : List (SequenceGroupMetadata ρ δ)} (hresidents : Residents s.gdnPrefixPolicy)
    (hone : (scheduled.filter (·.seqGroup.isPrefill)).length ≤ 1)
    (hprompts : ∀ sg ∈ scheduled, sg.seqGroup.isPrefill →
      QueryFits cfg s sg.seqGroup sg.tokenChunkSize ∧
        ∀ key, restoredOf s sg.seqGroup = some key → [key] <:+ s.gdnPrefixPolicy.resident)
    (hok : buildAll cfg env scheduled s = .ok (metadata, s')) :
    OnePromptBatch cfg s.gdnPrefixPolicy s'.gdnPrefixPolicy metadata ∧
      ∀ requestId key, restoreEntry s' requestId = some key → restoreEntry s requestId = some key := by
  have hkept : ∀ {s₁ s₂ : Scheduler ρ δ A T},
      s₂.gdnRequestRestoreKeys = s₁.gdnRequestRestoreKeys → ∀ requestId key,
        restoreEntry s₂ requestId = some key → restoreEntry s₁ requestId = some key :=
    fun hkeys requestId key hkey => by
      unfold restoreEntry at hkey ⊢
      rwa [hkeys] at hkey
  induction scheduled generalizing s metadata with
  | nil =>
    obtain ⟨rfl, rfl⟩ := Prod.mk.inj (Except.ok.inj hok)
    exact ⟨.decodes rfl fun _ h => absurd h List.not_mem_nil, fun _ _ => id⟩
  | cons sg scheduled ih =>
    obtain ⟨⟨md, s₁⟩, hmd, hok⟩ := bind_eq_ok.mp hok
    obtain ⟨⟨others, s₂⟩, hothers, hok⟩ := bind_eq_ok.mp hok
    obtain ⟨rfl, rfl⟩ := Prod.mk.inj (Except.ok.inj hok)
    by_cases hprefill : sg.seqGroup.isPrefill
    · obtain ⟨hfits, hlast⟩ := hprompts sg List.mem_cons_self hprefill
      obtain ⟨⟨a, hprompt⟩, hentries⟩ := buildMetadata_prompt hresidents hprefill hfits hlast hmd
      rw [List.filter_cons, if_pos hprefill, List.length_cons] at hone
      -- the rest of the batch are decodes
      have hnone := List.length_eq_zero_iff.mp (Nat.le_zero.mp (Nat.le_of_succ_le_succ hone))
      obtain ⟨hrest, hpolicy, hkeys⟩ := buildAll_decodes (List.filter_eq_nil_iff.mp hnone) hothers
      have hsame : s₂.gdnPrefixPolicy = s₁.gdnPrefixPolicy := hpolicy
      refine ⟨?_, fun requestId key hkey => hentries requestId key (hkept hkeys requestId key hkey)⟩
      dsimp only
      rw [hsame]
      rw [← List.nil_append (md :: others)]
      exact .prompt (fun _ h => absurd h List.not_mem_nil) hprompt hrest
    · obtain ⟨hdecode, hpolicy, hkeys⟩ := buildMetadata_decode hprefill hmd
      rw [List.filter_cons, if_neg hprefill] at hone
      have hsame : ∀ g : SequenceGroup ρ δ, restoredOf s₁ g = restoredOf s g := fun g => by
        unfold restoredOf
        rw [hkeys]
      obtain ⟨hbatch, hrest⟩ := ih (hpolicy ▸ hresidents) hone (fun sg' hsg' hprefill' => by
        obtain ⟨hfits, hlast⟩ := hprompts sg' (List.mem_cons_of_mem sg hsg') hprefill'
        refine ⟨⟨hfits.chunk_pos, hfits.computed_lt, ?_⟩, fun key hkey => ?_⟩
        · have hle := hfits.query_le
          unfold physicalContext at hle ⊢
          rwa [hsame]
        · rw [hpolicy]
          exact hlast key ((hsame _).symm.trans hkey)) hothers
      rw [hpolicy] at hbatch
      exact ⟨hbatch.cons hdecode, fun requestId key hkey =>
        hkept hkeys requestId key (hrest requestId key hkey)⟩

/-! ## The prompts of a batch -/

omit [DecidableEq ρ] [DecidableEq δ] in
theorem given_metadataOf {chunk : ℕ} {table : List ℕ} {a : PrefillActions δ}
    (hrestored : ¬ g.isPrefill → a.restoreKey = none) :
    (gdnActions (metadataOf g chunk table a)).given = g.isPrefill := by
  unfold gdnActions metadataOf GdnActions.given
  cases hprefill : g.isPrefill with
  | true => exact Bool.or_eq_true_iff.mpr (.inr rfl)
  | false =>
    rw [hrestored (hprefill ▸ Bool.false_ne_true)]
    rfl

/-- Every prompt sends lists of actions, which may be empty. -/
theorem buildMetadata_isPrompt {scheduled : ScheduledSequenceGroup ρ δ}
    {md : SequenceGroupMetadata ρ δ} (hok : s.buildMetadata cfg env scheduled = .ok (md, s')) :
    md.isPrompt = scheduled.seqGroup.isPrefill ∧ (gdnActions md).given = md.isPrompt := by
  unfold buildMetadata at hok
  obtain ⟨table, -, hok⟩ := bind_eq_ok.mp hok
  obtain ⟨accessed, -, hok⟩ := bind_eq_ok.mp hok
  dsimp only at hok
  split at hok
  · obtain ⟨rfl, -⟩ := Prod.mk.inj (Except.ok.inj hok)
    exact ⟨rfl, given_metadataOf fun _ => rfl⟩
  · next hprefill =>
    split at hok
    · obtain ⟨built, -, hok⟩ := bind_eq_ok.mp hok
      obtain ⟨rfl, -⟩ := Prod.mk.inj (Except.ok.inj hok)
      exact ⟨rfl, given_metadataOf fun hdecode => absurd hdecode hprefill⟩
    · obtain ⟨rfl, -⟩ := Prod.mk.inj (Except.ok.inj hok)
      exact ⟨rfl, given_metadataOf fun _ => rfl⟩

/-- The prompts of a batch. -/
def promptsOf (metadata : List (SequenceGroupMetadata ρ δ)) : List (SequenceGroupMetadata ρ δ) :=
  metadata.filter (·.isPrompt)

/-- The prompts of the metadata are those of the scheduled groups. -/
theorem buildAll_prompts {scheduled : List (ScheduledSequenceGroup ρ δ)}
    {metadata : List (SequenceGroupMetadata ρ δ)}
    (hok : buildAll cfg env scheduled s = .ok (metadata, s')) :
    (promptsOf metadata).length = (scheduled.filter (·.seqGroup.isPrefill)).length ∧
      ∀ md ∈ metadata, (gdnActions md).given = md.isPrompt := by
  induction scheduled generalizing s metadata with
  | nil =>
    obtain ⟨rfl, -⟩ := Prod.mk.inj (Except.ok.inj hok)
    exact ⟨rfl, fun _ h => absurd h List.not_mem_nil⟩
  | cons sg scheduled ih =>
    obtain ⟨⟨md, s₁⟩, hmd, hok⟩ := bind_eq_ok.mp hok
    obtain ⟨⟨others, s₂⟩, hothers, hok⟩ := bind_eq_ok.mp hok
    obtain ⟨rfl, rfl⟩ := Prod.mk.inj (Except.ok.inj hok)
    obtain ⟨hprompt, hgiven⟩ := buildMetadata_isPrompt hmd
    obtain ⟨hlength, hrest⟩ := ih hothers
    refine ⟨?_, List.forall_mem_cons.mpr ⟨hgiven, hrest⟩⟩
    unfold promptsOf at hlength ⊢
    rw [List.filter_cons, List.filter_cons, hprompt]
    split
    · exact congrArg Nat.succ hlength
    · exact hlength

/-- Two prompts in a batch are refused when the second one is added. -/
def severalPromptsError : Exn := .runtimeError "only one GDN prefix-cache action group is supported"

omit [DecidableEq ρ] [DecidableEq δ] in
/-- A batch with two prompts has no input. -/
theorem foldlM_addSeqGroup_prompts {a : GdnActions δ} {metadata : List (SequenceGroupMetadata ρ δ)}
    (hgiven : ∀ md ∈ metadata, (gdnActions md).given = md.isPrompt)
    (h : 2 ≤ (promptsOf metadata).length + (if a.given then 1 else 0)) :
    metadata.foldlM GdnActions.addSeqGroup a = .error severalPromptsError := by
  induction metadata generalizing a with
  | nil =>
    change 2 ≤ 0 + (if a.given then 1 else 0) at h
    split at h <;> omega
  | cons md metadata ih =>
    have hrest : ∀ md' ∈ metadata, (gdnActions md').given = md'.isPrompt := fun md' hmd' =>
      hgiven md' (List.mem_cons_of_mem md hmd')
    have hmd : (gdnActions md).given = md.isPrompt := hgiven md List.mem_cons_self
    unfold promptsOf at h ih
    rw [List.filter_cons] at h
    rw [List.foldlM_cons]
    cases hprompt : md.isPrompt with
    | false =>
      rw [hprompt, if_neg Bool.false_ne_true] at h
      have hadd : a.addSeqGroup md = .ok a :=
        if_neg (hmd.trans hprompt ▸ Bool.false_ne_true)
      rw [hadd]
      exact ih hrest h
    | true =>
      rw [hprompt, if_pos rfl, List.length_cons] at h
      unfold GdnActions.addSeqGroup
      rw [if_pos (hmd.trans hprompt), raiseIf_bind (not_not.mpr hprompt)]
      by_cases hfirst : a.given
      · unfold raiseIf
        rw [if_pos hfirst]
        rfl
      · rw [raiseIf_bind hfirst]
        rw [if_neg hfirst] at h
        refine ih hrest ?_
        rw [if_pos (hmd.trans hprompt)]
        exact h

/-! ## The input of the model -/

omit [DecidableEq ρ] [DecidableEq δ] in
/-- Decodes are added without a change. -/
theorem foldlM_addSeqGroup_decodes {a : GdnActions δ} {metadata : List (SequenceGroupMetadata ρ δ)}
    (h : ∀ md ∈ metadata, IsDecode md) : metadata.foldlM GdnActions.addSeqGroup a = .ok a := by
  induction metadata with
  | nil => rfl
  | cons md metadata ih =>
    have hadd : a.addSeqGroup md = .ok a := if_neg (h md List.mem_cons_self).given
    rw [List.foldlM_cons, hadd]
    exact ih fun md' hmd' => h md' (List.mem_cons_of_mem md hmd')

omit [DecidableEq ρ] [DecidableEq δ] in
theorem filter_isPrompt_decodes {metadata : List (SequenceGroupMetadata ρ δ)}
    (h : ∀ md ∈ metadata, IsDecode md) : metadata.filter (·.isPrompt) = [] :=
  List.filter_eq_nil_iff.mpr fun md hmd => (h md hmd).isPrompt

/-- The metadata sends an action on captured states. -/
def SendsAction (md : SequenceGroupMetadata ρ δ) : Prop :=
  md.gdnRestoreKey ≠ none ∨ md.gdnCapturePoints.getD [] ≠ [] ∨ md.gdnEvictKeys.getD [] ≠ [] ∨
    md.gdnSegmentOffsets.getD [] ≠ []

omit [DecidableEq ρ] [DecidableEq δ] in
theorem IsDecode.not_sendsAction {md : SequenceGroupMetadata ρ δ} (h : IsDecode md) :
    ¬ SendsAction md := by
  have hnone : ¬ (gdnActions md).given := h.given
  unfold GdnActions.given gdnActions at hnone
  simp only [Bool.or_eq_true, not_or, Option.isSome_iff_ne_none, not_not] at hnone
  obtain ⟨⟨⟨hrestore, hcapture⟩, hevict⟩, hsegments⟩ := hnone
  rintro (h | h | h | h)
  · exact h hrestore
  · exact h (by rw [hcapture]; rfl)
  · exact h (by rw [hevict]; rfl)
  · exact h (by rw [hsegments]; rfl)

omit [DecidableEq ρ] [DecidableEq δ] in
theorem IsPrompt.sendsAction_iff {p p' : GdnPrefixStatePolicy δ} {a : PrefillActions δ}
    {md : SequenceGroupMetadata ρ δ} (h : IsPrompt cfg p p' a md) : SendsAction md ↔ Acts a := by
  have hsent := h.sent
  unfold gdnActions sentActions at hsent
  obtain ⟨hrestore, hcapture, hevict, hsegments⟩ := GdnActions.mk.inj hsent
  unfold SendsAction Acts
  rw [hrestore, hcapture, hevict, hsegments]
  exact Iff.rfl

omit [DecidableEq ρ] [DecidableEq δ] in
/-- The input of a batch with at most one prompt: no actions, or those of the prompt with the length
of its query. -/
theorem OnePromptBatch.input {p p' : GdnPrefixStatePolicy δ}
    {metadata : List (SequenceGroupMetadata ρ δ)} (h : OnePromptBatch cfg p p' metadata) :
    (p' = p ∧ (¬ ∃ md ∈ metadata, SendsAction md) ∧
      buildModelInput cfg.blockSize metadata = .ok ⟨metadata.length, 0, {}⟩) ∨
      ∃ md ∈ metadata, ∃ a, IsPrompt cfg p p' a md ∧
        ((∃ md' ∈ metadata, SendsAction md') ↔ Acts a) ∧
        buildModelInput cfg.blockSize metadata
          = .ok ⟨metadata.length, (queryLens cfg.blockSize md).queryLen, sentActions a⟩ := by
  cases h with
  | decodes heq hmetadata =>
    refine .inl ⟨heq, fun ⟨md, hmd, hsends⟩ => (hmetadata md hmd).not_sendsAction hsends,
      bind_eq_ok.mpr ⟨{}, foldlM_addSeqGroup_decodes hmetadata, ?_⟩⟩
    rw [filter_isPrompt_decodes hmetadata]
    rfl
  | prompt hfront hprompt hback =>
    rename_i front back md a
    have hgiven : (gdnActions md).given := by
      rw [hprompt.sent]
      unfold sentActions GdnActions.given
      exact Bool.or_eq_true_iff.mpr (.inr rfl)
    have hadd : GdnActions.addSeqGroup {} md = .ok (gdnActions md) := by
      unfold GdnActions.addSeqGroup
      rw [if_pos hgiven, raiseIf_bind (not_not.mpr hprompt.isPrompt)]
      exact raiseIf_bind Bool.false_ne_true
    refine .inr ⟨md, List.mem_append_right _ List.mem_cons_self, a, hprompt, ?_,
      bind_eq_ok.mpr ⟨gdnActions md, ?_, ?_⟩⟩
    · rw [← hprompt.sendsAction_iff]
      constructor
      · rintro ⟨md', hmem, hsends⟩
        cases List.mem_append.mp hmem with
        | inl h => exact absurd hsends (hfront md' h).not_sendsAction
        | inr h =>
          cases List.mem_cons.mp h with
          | inl h => exact h ▸ hsends
          | inr h => exact absurd hsends (hback md' h).not_sendsAction
      · exact fun h => ⟨md, List.mem_append_right _ List.mem_cons_self, h⟩
    · rw [List.foldlM_append, foldlM_addSeqGroup_decodes hfront]
      change (md :: back).foldlM GdnActions.addSeqGroup {} = _
      rw [List.foldlM_cons, hadd]
      exact foldlM_addSeqGroup_decodes hback
    · rw [List.filter_append, filter_isPrompt_decodes hfront, List.nil_append,
        List.filter_cons, if_pos hprompt.isPrompt, filter_isPrompt_decodes hback, ← hprompt.sent]
      simp only [List.map_cons, List.map_nil, List.sum_cons, List.sum_nil, Nat.add_zero]
      rfl

end Ikun.PrefixStates
