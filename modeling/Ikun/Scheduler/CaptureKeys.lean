import Ikun.Scheduler.GdnPlan

/-!
# Which state to capture

For the end of a prompt the scheduler captures one state, and a prompt may only start from a state
that is eligible. The two decisions are made apart, each with a case for every mode. They agree: the
key that is captured is eligible for the same prompt, and no longer prefix of the prompt is
(`finalCaptureKey_best`).
-/

namespace Ikun.GdnPrefix

open Except

variable {δ : Type}

/-! ## Block counts -/

section counts

variable {tokens blockSize alignment k : ℕ}

/-- An accepted alignment is a positive multiple of the block size. -/
theorem gdnRestoreAlignment_ok {mode : RestoreMode} {chunkTokens : ℕ}
    (h : gdnRestoreAlignment mode blockSize chunkTokens = .ok alignment) :
    0 < blockSize ∧ 0 < alignment ∧ blockSize ∣ alignment := by
  obtain ⟨_, hpos, h⟩ := bind_eq_ok.mp h
  have hbs : 0 < blockSize := Nat.pos_of_ne_zero (raiseIf_eq_ok.mp hpos)
  split at h
  · obtain rfl := Except.ok.inj h
    exact ⟨hbs, hbs, Nat.dvd_refl _⟩
  · dsimp only at h
    obtain ⟨_, hvalid, h⟩ := bind_eq_ok.mp h
    obtain rfl := Except.ok.inj h
    have hvalid := not_or.mp (raiseIf_eq_ok.mp hvalid)
    exact ⟨hbs, Nat.pos_of_ne_zero hvalid.1, Nat.dvd_of_mod_eq_zero (not_not.mp hvalid.2)⟩

theorem directBlockCount_le_div : directBlockCount tokens blockSize ≤ (tokens - 1) / blockSize := by
  unfold directBlockCount
  dsimp only
  split
  · exact Nat.sub_le _ _
  · exact Nat.le_refl _

/-- Two tokens are left behind the blocks of the direct mode. -/
theorem directBlockCount_add_two_le (hbs : 0 < blockSize)
    (hpos : 0 < directBlockCount tokens blockSize) :
    directBlockCount tokens blockSize * blockSize + 2 ≤ tokens := by
  have hle := Nat.div_mul_le_self (tokens - 1) blockSize
  unfold directBlockCount gdnDirectMinReplayTokens at hpos ⊢
  generalize (tokens - 1) / blockSize = q at hle hpos ⊢
  dsimp only at hpos ⊢
  split
  · next h =>
    obtain ⟨q, rfl⟩ := Nat.exists_eq_add_one_of_ne_zero (Nat.ne_of_gt h.1)
    rw [Nat.succ_mul] at hle h
    rw [Nat.add_sub_cancel]
    omega
  · next h =>
    rw [if_neg h] at hpos
    have hfew : ¬ tokens - q * blockSize < 2 := fun hlt => h ⟨hpos, hlt⟩
    omega

/-- No more blocks leave two tokens. -/
theorem le_directBlockCount (hbs : 0 < blockSize) (htwo : k * blockSize + 2 ≤ tokens) :
    k ≤ directBlockCount tokens blockSize := by
  have hle : k ≤ (tokens - 1) / blockSize := (Nat.le_div_iff_mul_le hbs).mpr (by omega)
  unfold directBlockCount gdnDirectMinReplayTokens
  dsimp only
  split
  · next h =>
    cases Nat.lt_or_eq_of_le hle with
    | inl hlt => exact Nat.le_sub_one_of_lt hlt
    | inr heq =>
      rw [← heq] at h
      exact absurd h.2 (by omega)
  · exact hle

/-- The blocks in front of the state that is captured for the end of a prompt. -/
def captureBlockCount (mode : RestoreMode) (tokens blockSize alignment : ℕ) : ℕ :=
  match mode with
  | .direct | .hybrid64 => directBlockCount tokens blockSize
  | .chunk64 | .aligned => (tokens - 1) / alignment * alignment / blockSize

theorem captureBlockCount_le {mode : RestoreMode} :
    captureBlockCount mode tokens blockSize alignment ≤ (tokens - 1) / blockSize := by
  cases mode with
  | direct => exact directBlockCount_le_div
  | hybrid64 => exact directBlockCount_le_div
  | chunk64 => exact Nat.div_le_div_right (Nat.div_mul_le_self _ _)
  | aligned => exact Nat.div_le_div_right (Nat.div_mul_le_self _ _)

/-- What a mode demands of the blocks in front of a state. -/
def MayRestore (mode : RestoreMode) (tokens blockSize alignment blockCount : ℕ)
    (isDirectFinal : Prop) : Prop :=
  match mode with
  | .direct => blockCount * blockSize + 2 ≤ tokens
  | .hybrid64 => blockCount * blockSize + 2 ≤ tokens ∧
      (alignment ∣ blockCount * blockSize ∨ isDirectFinal)
  | .chunk64 | .aligned => blockCount * blockSize < tokens ∧ alignment ∣ blockCount * blockSize

/-- The last aligned boundary in front of the last token. -/
theorem alignedBlockCount_spec (hbs : 0 < blockSize) (hal : 0 < alignment)
    (hdvd : blockSize ∣ alignment) :
    (0 < (tokens - 1) / alignment * alignment / blockSize →
      (tokens - 1) / alignment * alignment / blockSize * blockSize < tokens ∧
        alignment ∣ (tokens - 1) / alignment * alignment / blockSize * blockSize) ∧
      (k * blockSize < tokens → alignment ∣ k * blockSize →
        k ≤ (tokens - 1) / alignment * alignment / blockSize) := by
  have hmul : (tokens - 1) / alignment * alignment / blockSize * blockSize
      = (tokens - 1) / alignment * alignment :=
    Nat.div_mul_cancel (Nat.dvd_mul_left_of_dvd hdvd _)
  have hle := Nat.div_mul_le_self (tokens - 1) alignment
  refine ⟨fun hpos => ?_, fun hlt hboundary => ?_⟩
  · have hboundary : 0 < (tokens - 1) / alignment * alignment / blockSize * blockSize :=
      Nat.mul_pos hpos hbs
    rw [hmul] at hboundary ⊢
    exact ⟨by omega, Nat.dvd_mul_left _ _⟩
  · obtain ⟨m, hm⟩ := hboundary
    rw [Nat.le_div_iff_mul_le hbs, hm, Nat.mul_comm alignment]
    refine Nat.mul_le_mul_right alignment ((Nat.le_div_iff_mul_le hal).mpr ?_)
    rw [Nat.mul_comm m, ← hm]
    omega

/-- The state that is captured may be restored. -/
theorem mayRestore_captureBlockCount {mode : RestoreMode} (hbs : 0 < blockSize)
    (hal : 0 < alignment) (hdvd : blockSize ∣ alignment)
    (hpos : 0 < captureBlockCount mode tokens blockSize alignment) :
    MayRestore mode tokens blockSize alignment
      (captureBlockCount mode tokens blockSize alignment) True := by
  cases mode with
  | direct => exact directBlockCount_add_two_le hbs hpos
  | hybrid64 => exact ⟨directBlockCount_add_two_le hbs hpos, .inr trivial⟩
  | chunk64 => exact (alignedBlockCount_spec (k := 0) hbs hal hdvd).1 hpos
  | aligned => exact (alignedBlockCount_spec (k := 0) hbs hal hdvd).1 hpos

/-- No later state may be restored. -/
theorem le_captureBlockCount {mode : RestoreMode} {isDirectFinal : Prop} (hbs : 0 < blockSize)
    (hal : 0 < alignment) (hdvd : blockSize ∣ alignment)
    (h : MayRestore mode tokens blockSize alignment k isDirectFinal) :
    k ≤ captureBlockCount mode tokens blockSize alignment := by
  cases mode with
  | direct => exact le_directBlockCount hbs h
  | hybrid64 => exact le_directBlockCount hbs h.1
  | chunk64 => exact (alignedBlockCount_spec hbs hal hdvd).2 h.1 h.2
  | aligned => exact (alignedBlockCount_spec hbs hal hdvd).2 h.1 h.2

end counts

/-! ## Keys -/

section keys

variable {blockHashes : List δ} {promptTokens blockSize alignment : ℕ} {mode : RestoreMode}

/-- The key of the first blocks of a prompt. -/
def prefixKey (blockHashes : List δ) (blockCount : ℕ) : Option (GdnPrefixKey δ) :=
  if blockCount = 0 then none else blockHashes[blockCount - 1]?.map (blockCount, ·)

theorem prefixKey_fst {blockCount : ℕ} {key : GdnPrefixKey δ}
    (h : prefixKey blockHashes blockCount = some key) : key.1 = blockCount ∧ 0 < blockCount := by
  unfold prefixKey at h
  split at h
  · cases h
  · next hne =>
    obtain ⟨digest, -, rfl⟩ := Option.map_eq_some_iff.mp h
    exact ⟨rfl, Nat.pos_of_ne_zero hne⟩

/-- The keys of a prompt are those of its first blocks. -/
theorem mem_keysFromBlockHashes_iff {key : GdnPrefixKey δ} :
    key ∈ keysFromBlockHashes blockHashes ↔ prefixKey blockHashes key.1 = some key := by
  unfold keysFromBlockHashes prefixKey
  rw [List.mem_mapIdx]
  constructor
  · intro ⟨i, hi, hkey⟩
    subst hkey
    rw [if_neg (Nat.succ_ne_zero i), Nat.add_sub_cancel, List.getElem?_eq_getElem hi]
    rfl
  · intro h
    split at h
    · cases h
    · next hne =>
      obtain ⟨digest, hdigest, hkey⟩ := Option.map_eq_some_iff.mp h
      obtain ⟨hlt, heq⟩ := List.getElem?_eq_some_iff.mp hdigest
      refine ⟨key.1 - 1, hlt, ?_⟩
      rw [heq, Nat.sub_add_cancel (Nat.pos_of_ne_zero hne)]
      exact hkey

/-- Some block counts have a key. -/
theorem prefixKey_eq_keyAt {blockCount : ℕ} (hpos : 0 < blockCount)
    (hle : blockCount ≤ blockHashes.length) :
    (keyAt blockHashes blockCount).map some = .ok (prefixKey blockHashes blockCount) := by
  have hlt : blockCount - 1 < blockHashes.length := by omega
  unfold prefixKey
  rw [keyAt_eq hpos hlt, if_neg (Nat.ne_of_gt hpos), List.getElem?_eq_getElem hlt]
  rfl

/-- The key that is captured for the end of a prompt. -/
theorem finalCaptureKey_eq (hbs : 0 < blockSize) (hal : 0 < alignment) (hdvd : blockSize ∣ alignment)
    (hlen : blockHashes.length = promptTokens / blockSize) :
    finalCaptureKey blockHashes promptTokens blockSize mode alignment
      = .ok (prefixKey blockHashes
          (captureBlockCount mode promptTokens blockSize alignment)) := by
  have henough : (promptTokens - 1) / blockSize ≤ blockHashes.length :=
    hlen ▸ Nat.div_le_div_right (Nat.sub_le _ _)
  have haligned : finalCaptureKey blockHashes promptTokens blockSize .chunk64 alignment
      = .ok (prefixKey blockHashes
          ((promptTokens - 1) / alignment * alignment / blockSize)) := by
    have hle : (promptTokens - 1) / alignment * alignment / blockSize ≤ blockHashes.length :=
      Nat.le_trans (Nat.div_le_div_right (Nat.div_mul_le_self _ _)) henough
    unfold finalCaptureKey
    dsimp only
    rw [Nat.min_eq_right hle]
    split
    · next h =>
      -- only a prompt of at most one token has no boundary here
      have hone : promptTokens ≤ 1 := by
        cases h with
        | inl h => exact absurd h (Nat.ne_of_gt hal)
        | inr h =>
          cases h with
          | inl h => exact absurd (Nat.mod_eq_zero_of_dvd hdvd) h
          | inr h => exact h
      rw [Nat.sub_eq_zero_of_le hone, Nat.zero_div, Nat.zero_mul, Nat.zero_div]
      rfl
    · split
      · next hzero => rw [hzero]; rfl
      · next hne => exact prefixKey_eq_keyAt (Nat.pos_of_ne_zero hne) hle
  cases mode with
  | direct => exact finalCaptureKey_direct hbs henough
  | hybrid64 =>
    have hdirect : finalCaptureKey blockHashes promptTokens blockSize .direct alignment = _ :=
      finalCaptureKey_direct hbs henough
    exact hdirect
  | chunk64 => exact haligned
  | aligned => exact haligned

variable [DecidableEq δ]

/-- What eligibility demands. -/
theorem restoreKeyIsEligible_eq (mode : RestoreMode) (promptTokens : ℕ) {key : GdnPrefixKey δ}
    (directFinalKey : Option (GdnPrefixKey δ)) (hpos : 0 < key.1) (hbs : 0 < blockSize) (hal : 0 < alignment) :
    ∃ eligible, restoreKeyIsEligible key promptTokens blockSize mode alignment directFinalKey
        = .ok eligible ∧
      (eligible = true ↔
        MayRestore mode promptTokens blockSize alignment key.1 (some key = directFinalKey)) := by
  unfold restoreKeyIsEligible makePrefixKey gdnDirectMinReplayTokens
  rw [if_neg (Nat.ne_of_gt hpos)]
  change ∃ eligible, (raiseIf (blockSize = 0) _ >>= _) = _ ∧ _
  rw [raiseIf_bind (Nat.ne_of_gt hbs)]
  dsimp only
  split
  · next hnone =>
    refine ⟨false, rfl, ⟨fun h => absurd h Bool.false_ne_true, fun h => ?_⟩⟩
    cases mode with
    | direct => exact absurd h (by unfold MayRestore; omega)
    | hybrid64 => exact absurd h.1 (by omega)
    | chunk64 => exact absurd h.1 (by omega)
    | aligned => exact absurd h.1 (by omega)
  · next hsome =>
    cases mode with
    | direct =>
      refine ⟨_, rfl, decide_eq_true_iff.trans ?_⟩
      unfold MayRestore
      omega
    | hybrid64 =>
      refine ⟨_, rfl, decide_eq_true_iff.trans ?_⟩
      unfold MayRestore
      rw [← Nat.dvd_iff_mod_eq_zero]
      exact ⟨fun h => ⟨by omega, h.2.2⟩, fun h => ⟨by omega, hal, h.2⟩⟩
    | chunk64 =>
      refine ⟨_, rfl, decide_eq_true_iff.trans ?_⟩
      unfold MayRestore
      rw [← Nat.dvd_iff_mod_eq_zero]
      exact ⟨fun h => ⟨by omega, h.2⟩, fun h => ⟨hal, h.2⟩⟩
    | aligned =>
      refine ⟨_, rfl, decide_eq_true_iff.trans ?_⟩
      unfold MayRestore
      rw [← Nat.dvd_iff_mod_eq_zero]
      exact ⟨fun h => ⟨by omega, h.2⟩, fun h => ⟨hal, h.2⟩⟩

/-- Whether the scheduler finds a key of a prompt eligible. -/
def prefixIsEligible (blockHashes : List δ) (promptTokens blockSize : ℕ) (mode : RestoreMode)
    (alignment : ℕ) (key : GdnPrefixKey δ) : Except Exn Bool := do
  let directFinalKey ← finalCaptureKey blockHashes promptTokens blockSize .direct blockSize
  restoreKeyIsEligible key promptTokens blockSize mode alignment
    (if mode = .hybrid64 then directFinalKey else none)

/-- Eligible are some of the keys with at most the blocks of the captured one, and that one. -/
theorem prefixIsEligible_eq (mode : RestoreMode) {key : GdnPrefixKey δ} (hbs : 0 < blockSize) (hal : 0 < alignment)
    (hdvd : blockSize ∣ alignment) (hlen : blockHashes.length = promptTokens / blockSize)
    (hpos : 0 < key.1) :
    ∃ eligible, prefixIsEligible blockHashes promptTokens blockSize mode alignment key
        = .ok eligible ∧
      (eligible = true →
        key.1 ≤ captureBlockCount mode promptTokens blockSize alignment) ∧
      (prefixKey blockHashes (captureBlockCount mode promptTokens blockSize alignment) = some key →
        eligible = true) := by
  obtain ⟨eligible, heligible, hiff⟩ := restoreKeyIsEligible_eq mode promptTokens
    (if mode = .hybrid64 then prefixKey blockHashes (directBlockCount promptTokens blockSize)
      else none) hpos hbs hal
  refine ⟨eligible, ?_, fun h => le_captureBlockCount hbs hal hdvd (hiff.mp h), fun h => ?_⟩
  · unfold prefixIsEligible
    rw [finalCaptureKey_eq hbs hbs (Nat.dvd_refl _) hlen]
    exact heligible
  · obtain ⟨hcount, hcountPos⟩ := prefixKey_fst h
    have hmay := mayRestore_captureBlockCount hbs hal hdvd hcountPos
    rw [← hcount] at hmay
    refine hiff.mpr ?_
    cases mode with
    | direct => exact hmay
    | hybrid64 => exact ⟨hmay.1, .inr h.symm⟩
    | chunk64 => exact hmay
    | aligned => exact hmay

/-- For every mode, block size and accepted alignment, and for every prompt: the key that is
captured is a key of the prompt that may be restored, and no key of the prompt with more blocks may
be. If no key is captured, none may be restored. -/
theorem finalCaptureKey_best (mode : RestoreMode) (blockSize chunkTokens alignment : ℕ)
    (halign : gdnRestoreAlignment mode blockSize chunkTokens = .ok alignment)
    (blockHashes : List δ) (promptTokens : ℕ)
    (hlen : blockHashes.length = promptTokens / blockSize) :
    ∃ finalKey, finalCaptureKey blockHashes promptTokens blockSize mode alignment = .ok finalKey ∧
      (∀ key, finalKey = some key → key ∈ keysFromBlockHashes blockHashes ∧
        prefixIsEligible blockHashes promptTokens blockSize mode alignment key = .ok true ∧
        ∀ longer ∈ keysFromBlockHashes blockHashes, key.1 < longer.1 →
          prefixIsEligible blockHashes promptTokens blockSize mode alignment longer = .ok false) ∧
      (finalKey = none → ∀ key ∈ keysFromBlockHashes blockHashes,
        prefixIsEligible blockHashes promptTokens blockSize mode alignment key = .ok false) := by
  obtain ⟨hbs, hal, hdvd⟩ := gdnRestoreAlignment_ok halign
  have hlonger : ∀ key ∈ keysFromBlockHashes blockHashes,
      captureBlockCount mode promptTokens blockSize alignment < key.1 →
        prefixIsEligible blockHashes promptTokens blockSize mode alignment key = .ok false := by
    intro key hkey hlt
    obtain ⟨eligible, heligible, hle, -⟩ := prefixIsEligible_eq mode hbs hal hdvd hlen
      (mem_keysFromBlockHashes hkey).1
    cases eligible with
    | false => exact heligible
    | true => exact absurd (hle rfl) (Nat.not_le.mpr hlt)
  refine ⟨_, finalCaptureKey_eq hbs hal hdvd hlen, fun key hkey => ?_, fun hnone key hkey => ?_⟩
  · obtain ⟨hcount, hcountPos⟩ := prefixKey_fst hkey
    obtain ⟨eligible, heligible, -, hself⟩ := prefixIsEligible_eq mode hbs hal hdvd hlen
      (hcount ▸ hcountPos)
    refine ⟨mem_keysFromBlockHashes_iff.mpr (hcount ▸ hkey), ?_, fun longer hmem hlt => ?_⟩
    · rw [heligible, hself hkey]
    · exact hlonger longer hmem (hcount ▸ hlt)
  · -- a count of some blocks would have a key
    refine hlonger key hkey ?_
    unfold prefixKey at hnone
    split at hnone
    · next hzero =>
      rw [hzero]
      exact (mem_keysFromBlockHashes hkey).1
    · next hne =>
      have hout := List.getElem?_eq_none_iff.mp (Option.map_eq_none_iff.mp hnone)
      have hle : captureBlockCount mode promptTokens blockSize alignment ≤ blockHashes.length :=
        hlen ▸ Nat.le_trans captureBlockCount_le (Nat.div_le_div_right (Nat.sub_le _ _))
      exact absurd hout (by omega)

/-- A prompt of three blocks that ends at a block boundary: the state of two blocks is captured. -/
theorem finalCaptureKey_best_threeBlocks :
    finalCaptureKey [10, 11, 12] 48 16 .direct 16 = .ok (some (2, 11)) ∧
      prefixIsEligible [10, 11, 12] 48 16 .direct 16 (3, 12) = .ok false := by
  have hkey : finalCaptureKey [10, 11, 12] 48 16 .direct 16 = .ok (some (2, 11)) := by
    decide +kernel
  obtain ⟨finalKey, hfinal, hbest, -⟩ := finalCaptureKey_best .direct 16 64 16 (by decide +kernel)
    [10, 11, 12] 48 rfl
  obtain rfl := Except.ok.inj (hkey.symm.trans hfinal)
  exact ⟨hkey, (hbest _ rfl).2.2 (3, 12) (by decide +kernel) (by decide)⟩

end keys

end Ikun.GdnPrefix
