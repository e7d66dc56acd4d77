import Mathlib.Tactic

/-!
# Bitmap encoding

The bitmap encoding moves every large enough element of a vector towards zero and
records the move in two bits of a word that sixteen elements share: the low half of the
word says which elements moved by the threshold, the high half holds the signs.  A sign
without its bit stands for half a threshold.

Encoding walks over the elements in blocks of sixteen, decoding walks over words.  The
decoder takes one word more than the encoder wrote when the last block is full.

Main results:

- Theorem `encodeBitmapGeneric_spec`: what encoding leaves in the vector, in the
  words and in the count.
- Theorem `decodeBitmapGeneric_eq`: what decoding adds to each position.
- Theorem `bitmapInverse_iff`: decoding inverts encoding exactly if the last block
  is not full, or the word behind it is zero.
-/

namespace LibND4J
namespace Encoding

/-- The float of a `FloatBits` union, as a number; infinities and NaN are no number. -/
def floatOfBits (i_ : BitVec 32) : Option ℚ :=
  let exponent := (i_.extractLsb' 23 8).toNat
  let mantissa := (i_.extractLsb' 0 23).toNat
  let magnitude : ℚ :=
    if exponent = 0 then mantissa / 2 ^ 149 else (2 ^ 23 + mantissa) * 2 ^ exponent / 2 ^ 150
  if exponent = 255 then none
  else some (if i_.msb then -magnitude else magnitude)

/-! ## The loops -/

/-- What the inner loop of the encoder changes. -/
structure BlockState where
  byte : BitVec 32
  dx : Nat → ℚ
  retVal : Nat

/-- One element of a block. -/
def encodeElement (N : Nat) (threshold : ℚ) (x : Nat) (s : BlockState) (f : Nat) : BlockState :=
  let e := x + f
  if e ≥ N then
    s
  else
    let val := s.dx e
    let abs := |val|
    let bitId := e % 16
    if abs ≥ threshold then
      let byte := s.byte ||| 1#32 <<< bitId
      if val < 0 then
        { byte := byte ||| 1#32 <<< (bitId + 16)
          dx := Function.update s.dx e (val + threshold)
          retVal := s.retVal + 1 }
      else
        { byte := byte, dx := Function.update s.dx e (val - threshold), retVal := s.retVal + 1 }
    else if abs ≥ threshold / 2 ∧ val < 0 then
      { byte := s.byte ||| 1#32 <<< (bitId + 16)
        dx := Function.update s.dx e (val + threshold / 2)
        retVal := s.retVal + 1 }
    else
      s

/-- The vector, the words and the count of the encoder. -/
structure Encoded where
  dx : Nat → ℚ
  dz : Nat → BitVec 32
  retVal : Nat

/-- One block of sixteen elements, from `x` on. -/
def encodeBlock (N : Nat) (threshold : ℚ) (s : Encoded) (x : Nat) : Encoded :=
  let byteId := x / 16 + 4
  let block := (List.range 16).foldl (encodeElement N threshold x) ⟨0#32, s.dx, s.retVal⟩
  { dx := block.dx, dz := Function.update s.dz byteId block.byte, retVal := block.retVal }

/-- `encodeBitmapGeneric`.  The blocks touch different elements and words, so the order
in which the threads take them is irrelevant. -/
def encodeBitmapGeneric (dx : Nat → ℚ) (N : Nat) (dz : Nat → BitVec 32) (threshold : ℚ) : Encoded :=
  ((List.range ((N + 15) / 16)).map (16 * ·)).foldl (encodeBlock N threshold) ⟨dx, dz, 0⟩

/-- One bit pair of the word `x[e]`. -/
def decodeBit (threshold : ℚ) (word : BitVec 32) (e : Nat) (dz : Nat → ℚ) (bitId : Nat) : Nat → ℚ :=
  let hasBit := word &&& 1#32 <<< bitId ≠ 0#32
  let hasSign := word &&& 1#32 <<< (bitId + 16) ≠ 0#32
  let i := (e - 4) * 16 + bitId
  if hasBit then
    if hasSign then Function.update dz i (dz i - threshold)
    else Function.update dz i (dz i + threshold)
  else if hasSign then Function.update dz i (dz i - threshold / 2)
  else dz

/-- `decodeBitmapGeneric`; `none` if the header holds no number. -/
def decodeBitmapGeneric (x : Nat → BitVec 32) (N : Nat) (dz : Nat → ℚ) : Option (Nat → ℚ) :=
  let lim := N / 16 + 5
  (floatOfBits (x 2)).map fun threshold =>
    (List.range' 4 (lim - 4)).foldl
      (fun dz e => (List.range 16).foldl (decodeBit threshold (x e) e) dz) dz

/-! ## One element -/

section Element

variable (threshold : ℚ)

/-- The element moves by the whole threshold. -/
def Marked (v : ℚ) : Prop :=
  threshold ≤ |v|

/-- The element moves up. -/
def Signed (v : ℚ) : Prop :=
  threshold / 2 ≤ |v| ∧ v < 0

instance (v : ℚ) : Decidable (Marked threshold v) :=
  inferInstanceAs (Decidable (_ ≤ _))

instance (v : ℚ) : Decidable (Signed threshold v) :=
  inferInstanceAs (Decidable (_ ∧ _))

/-- What encoding leaves of an element. -/
def residual (v : ℚ) : ℚ :=
  if Marked threshold v then
    if v < 0 then v + threshold else v - threshold
  else if Signed threshold v then v + threshold / 2
  else v

/-- What decoding adds for a bit pair. -/
def decoded (hasBit hasSign : Bool) : ℚ :=
  if hasBit then
    if hasSign then -threshold else threshold
  else if hasSign then -(threshold / 2)
  else 0

variable {threshold}

variable (hpos : 0 < threshold)

include hpos

theorem signed_of_marked {v : ℚ} (h : Marked threshold v) : Signed threshold v ↔ v < 0 := by
  unfold Marked at h
  refine ⟨fun hs => hs.2, fun hneg => ⟨?_, hneg⟩⟩
  linarith

/-- The bits of an element record what encoding took from it. -/
theorem decoded_bits (v : ℚ) :
    decoded threshold (Marked threshold v) (Signed threshold v) = v - residual threshold v := by
  unfold decoded residual
  by_cases hm : Marked threshold v
  · have hs := signed_of_marked hpos hm
    by_cases hneg : v < 0
    · simp [hm, hs, hneg]
    · simp [hm, hs, hneg]
  · by_cases hs : Signed threshold v
    · simp [hm, hs]
    · simp [hm, hs]

/-- Decoding a bit pair adds nothing only if both bits are clear. -/
theorem decoded_eq_zero_iff (b s : Bool) : decoded threshold b s = 0 ↔ b = false ∧ s = false := by
  have hne : threshold ≠ 0 := ne_of_gt hpos
  cases b with
  | true => cases s <;> simp [decoded, hne]
  | false => cases s <;> simp [decoded, hne]

theorem residual_ne_iff (v : ℚ) :
    residual threshold v ≠ v ↔ Marked threshold v ∨ Signed threshold v := by
  have hdecoded := decoded_bits hpos v
  have hzero := decoded_eq_zero_iff hpos (Marked threshold v) (Signed threshold v)
  rw [hdecoded, sub_eq_zero] at hzero
  rw [ne_comm, ne_eq, hzero]
  by_cases hm : Marked threshold v
  · simp [hm]
  · simp [hm]

omit hpos

/-- The three bands: how much smaller an element gets. -/
theorem abs_residual (v : ℚ) :
    |residual threshold v| =
      if threshold ≤ |v| then |v| - threshold
      else if threshold / 2 ≤ |v| ∧ v < 0 then |v| - threshold / 2
      else |v| := by
  by_cases hm : Marked threshold v
  · have hle : threshold ≤ |v| := hm
    rw [if_pos hle, residual, if_pos hm]
    by_cases hneg : v < 0
    · rw [if_pos hneg]
      rw [abs_of_neg hneg] at hle ⊢
      rw [abs_of_nonpos (by linarith)]
      ring
    · have hnonneg : 0 ≤ v := not_lt.mp hneg
      rw [if_neg hneg]
      rw [abs_of_nonneg hnonneg] at hle ⊢
      exact abs_of_nonneg (by linarith)
  · rw [if_neg (show ¬ threshold ≤ |v| from hm), residual, if_neg hm]
    by_cases hs : Signed threshold v
    · obtain ⟨hhalf, hneg⟩ := hs
      rw [if_pos ⟨hhalf, hneg⟩, if_pos ⟨hhalf, hneg⟩]
      rw [abs_of_neg hneg] at hhalf ⊢
      rw [abs_of_nonpos (by linarith)]
      ring
    · rw [if_neg hs, if_neg (show ¬ (threshold / 2 ≤ |v| ∧ v < 0) from hs)]

end Element

/-! ## Bits of a word -/

variable {w : Nat}

/-- Testing one bit by a mask. -/
theorem and_mask_ne_zero (word : BitVec w) {k : Nat} (hk : k < w) :
    (word &&& 1#w <<< k ≠ 0#w) ↔ word.getLsbD k = true := by
  have hmask : 1#w <<< k = BitVec.twoPow w k := rfl
  rw [hmask, BitVec.and_twoPow]
  cases hbit : word.getLsbD k with
  | true =>
      simp only [if_true, iff_true]
      intro hzero
      have hget := congrArg (fun b : BitVec w => b.getLsbD k) hzero
      simp [hk] at hget
  | false => simp

/-- Setting one bit by a mask. -/
theorem getLsbD_or_mask (word : BitVec w) (k : Nat) {j : Nat} (hj : j < w) :
    (word ||| 1#w <<< k).getLsbD j = (word.getLsbD j || decide (j = k)) := by
  rw [BitVec.getLsbD_or, BitVec.getLsbD_shiftLeft]
  congr 1
  by_cases hjk : j < k
  · have hne : j ≠ k := Nat.ne_of_lt hjk
    simp [hjk, hne]
  · by_cases heq : j = k
    · subst heq
      simp
      omega
    · have hsub : j - k ≠ 0 := by omega
      simp [heq, hsub]

/-- Setting one bit under a condition. -/
theorem getLsbD_or_mask_if (word : BitVec w) (p : Prop) [Decidable p] (k : Nat) {j : Nat}
    (hj : j < w) :
    (word ||| if p then 1#w <<< k else 0#w).getLsbD j = (word.getLsbD j || decide (j = k ∧ p)) := by
  by_cases hp : p
  · rw [if_pos hp, getLsbD_or_mask word k hj]
    simp [hp]
  · rw [if_neg hp]
    simp [hp]

/-! ## Encoding -/

section Encode

variable {N : Nat} {threshold : ℚ} {x : Nat → ℚ}

/-- The vector once the elements below `k` are encoded. -/
def encodedBelow (N : Nat) (threshold : ℚ) (x : Nat → ℚ) (k i : Nat) : ℚ :=
  if i < k ∧ i < N then residual threshold (x i) else x i

/-- How many of the elements below `k` encoding has changed. -/
def changedBelow (N : Nat) (threshold : ℚ) (x : Nat → ℚ) (k : Nat) : Nat :=
  (List.range k).countP fun i => i < N ∧ residual threshold (x i) ≠ x i

theorem changedBelow_succ (k : Nat) :
    changedBelow N threshold x (k + 1) = changedBelow N threshold x k +
      if k < N ∧ residual threshold (x k) ≠ x k then 1 else 0 := by
  simp [changedBelow, List.range_succ, List.countP_append, List.countP_singleton]

/-- Encoding the element at `k` extends the encoded part by one. -/
theorem encodedBelow_succ {k : Nat} (hk : k < N) :
    Function.update (encodedBelow N threshold x k) k (residual threshold (x k)) =
      encodedBelow N threshold x (k + 1) := by
  funext i
  by_cases hi : i = k
  · subst hi
    simp [encodedBelow, hk]
  · rw [Function.update_of_ne hi]
    have hiff : i < k ↔ i < k + 1 := by omega
    simp [encodedBelow, hiff]

/-- The bit pairs of a word record the elements `x[16w]` to `x[16w + n - 1]`. -/
structure Records (N : Nat) (threshold : ℚ) (x : Nat → ℚ) (w n : Nat) (byte : BitVec 32) : Prop where
  bit : ∀ j < 16, byte.getLsbD j =
    decide (j < n ∧ 16 * w + j < N ∧ Marked threshold (x (16 * w + j)))
  sign : ∀ j < 16, byte.getLsbD (j + 16) =
    decide (j < n ∧ 16 * w + j < N ∧ Signed threshold (x (16 * w + j)))

/-- A block of which the first `n` elements are encoded. -/
structure InBlock (N : Nat) (threshold : ℚ) (x : Nat → ℚ) (w n : Nat) (s : BlockState) : Prop where
  dx_eq : s.dx = encodedBelow N threshold x (16 * w + n)
  retVal_eq : s.retVal = changedBelow N threshold x (16 * w + n)
  records : Records N threshold x w n s.byte

/-- One step of the inner loop, in terms of the element it reads. -/
theorem encodeElement_eq (hpos : 0 < threshold) (s : BlockState) {e f : Nat} (hlt : e + f < N) :
    Encoding.encodeElement N threshold e s f =
      { byte := (s.byte ||| if Marked threshold (s.dx (e + f)) then 1#32 <<< ((e + f) % 16)
            else 0#32) |||
          if Signed threshold (s.dx (e + f)) then 1#32 <<< ((e + f) % 16 + 16) else 0#32
        dx := Function.update s.dx (e + f) (residual threshold (s.dx (e + f)))
        retVal := s.retVal +
          if residual threshold (s.dx (e + f)) ≠ s.dx (e + f) then 1 else 0 } := by
  have hin : ¬ e + f ≥ N := Nat.not_le.mpr hlt
  have hchanged := residual_ne_iff hpos (s.dx (e + f))
  unfold Encoding.encodeElement
  simp only [if_neg hin, hchanged]
  by_cases hm : Marked threshold (s.dx (e + f))
  · have hs := signed_of_marked hpos hm
    rw [if_pos (show |s.dx (e + f)| ≥ threshold from hm)]
    by_cases hneg : s.dx (e + f) < 0
    · simp [hm, hs, hneg, residual]
    · simp [hm, hs, hneg, residual]
  · rw [if_neg (show ¬ |s.dx (e + f)| ≥ threshold from hm)]
    by_cases hs : Signed threshold (s.dx (e + f))
    · rw [if_pos (show |s.dx (e + f)| ≥ threshold / 2 ∧ s.dx (e + f) < 0 from hs)]
      simp [hm, hs, residual]
    · rw [if_neg (show ¬ (|s.dx (e + f)| ≥ threshold / 2 ∧ s.dx (e + f) < 0) from hs)]
      simp [hm, hs, residual]

/-- One step of the inner loop encodes one element and records it. -/
theorem InBlock.encodeElement (hpos : 0 < threshold) {w n : Nat} {s : BlockState}
    (h : InBlock N threshold x w n s) (hn : n < 16) :
    InBlock N threshold x w (n + 1) (encodeElement N threshold (16 * w) s n) := by
  by_cases hend : 16 * w + n ≥ N
  · -- past the end of the vector nothing happens
    have hsame : Encoding.encodeElement N threshold (16 * w) s n = s := by
      simp [Encoding.encodeElement, hend]
    rw [hsame]
    have hlt : ¬ 16 * w + n < N := Nat.not_lt.mpr hend
    constructor
    · rw [h.dx_eq]
      funext i
      have hiff : (i < 16 * w + n ∧ i < N) ↔ (i < 16 * w + (n + 1) ∧ i < N) := by omega
      simp [encodedBelow, hiff]
    · rw [h.retVal_eq, ← Nat.add_assoc, changedBelow_succ]
      simp [hlt]
    · constructor
      · intro j hj
        rw [h.records.bit j hj, decide_eq_decide]
        have hiff : (j < n ∧ 16 * w + j < N) ↔ (j < n + 1 ∧ 16 * w + j < N) := by omega
        rw [← and_assoc, hiff, and_assoc]
      · intro j hj
        rw [h.records.sign j hj, decide_eq_decide]
        have hiff : (j < n ∧ 16 * w + j < N) ↔ (j < n + 1 ∧ 16 * w + j < N) := by omega
        rw [← and_assoc, hiff, and_assoc]
  · have hlt : 16 * w + n < N := Nat.not_le.mp hend
    have hval : s.dx (16 * w + n) = x (16 * w + n) := by
      rw [h.dx_eq]
      simp [encodedBelow]
    have hbitId : (16 * w + n) % 16 = n := by omega
    rw [encodeElement_eq hpos s hlt, hval, hbitId]
    constructor
    · rw [h.dx_eq]
      exact encodedBelow_succ hlt
    · rw [h.retVal_eq, ← Nat.add_assoc, changedBelow_succ]
      simp [hlt]
    · constructor
      · intro j hj
        have hne : j ≠ n + 16 := by omega
        rw [getLsbD_or_mask_if _ _ _ (by omega), getLsbD_or_mask_if _ _ _ (by omega),
          h.records.bit j hj, Bool.eq_iff_iff]
        simp only [hne, false_and, decide_false, Bool.or_false, Bool.or_eq_true, decide_eq_true_eq]
        constructor
        · rintro (⟨hjn, hrest⟩ | ⟨rfl, hmarked⟩)
          · exact ⟨by omega, hrest⟩
          · exact ⟨by omega, hlt, hmarked⟩
        · intro hj'
          by_cases heq : j = n
          · subst heq
            exact Or.inr ⟨rfl, hj'.2.2⟩
          · exact Or.inl ⟨by omega, hj'.2⟩
      · intro j hj
        have hne : j + 16 ≠ n := by omega
        rw [getLsbD_or_mask_if _ _ _ (by omega), getLsbD_or_mask_if _ _ _ (by omega),
          h.records.sign j hj, Bool.eq_iff_iff]
        simp only [hne, false_and, decide_false, Bool.or_false, Bool.or_eq_true, decide_eq_true_eq,
          Nat.add_right_cancel_iff]
        constructor
        · rintro (⟨hjn, hrest⟩ | ⟨rfl, hsigned⟩)
          · exact ⟨by omega, hrest⟩
          · exact ⟨by omega, hlt, hsigned⟩
        · intro hj'
          by_cases heq : j = n
          · subst heq
            exact Or.inr ⟨rfl, hj'.2.2⟩
          · exact Or.inl ⟨by omega, hj'.2⟩

/-- A whole block encodes sixteen elements. -/
theorem inBlock_foldl (hpos : 0 < threshold) (w : Nat) {n : Nat} (hn : n ≤ 16) (dx : Nat → ℚ)
    (retVal : Nat) (hdx : dx = encodedBelow N threshold x (16 * w))
    (hretVal : retVal = changedBelow N threshold x (16 * w)) :
    InBlock N threshold x w n
      ((List.range n).foldl (encodeElement N threshold (16 * w)) ⟨0#32, dx, retVal⟩) := by
  induction n with
  | zero =>
      refine ⟨hdx, hretVal, ?_, ?_⟩
      · intro j hj
        simp
      · intro j hj
        simp
  | succ n ih =>
      rw [List.range_succ, List.foldl_append]
      exact (ih (by omega)).encodeElement hpos hn

/-- The first `m` blocks are encoded; other words are as before. -/
structure InBlocks (N : Nat) (threshold : ℚ) (x : Nat → ℚ) (dz : Nat → BitVec 32) (m : Nat)
    (s : Encoded) : Prop where
  dx_eq : s.dx = encodedBelow N threshold x (16 * m)
  retVal_eq : s.retVal = changedBelow N threshold x (16 * m)
  records : ∀ w < m, Records N threshold x w 16 (s.dz (w + 4))
  unchanged : ∀ i, (∀ w < m, i ≠ w + 4) → s.dz i = dz i

theorem InBlocks.encodeBlock (hpos : 0 < threshold) {dz : Nat → BitVec 32} {m : Nat} {s : Encoded}
    (h : InBlocks N threshold x dz m s) :
    InBlocks N threshold x dz (m + 1) (encodeBlock N threshold s (16 * m)) := by
  have hblock := inBlock_foldl (x := x) hpos m (le_refl 16) s.dx s.retVal h.dx_eq h.retVal_eq
  have hword : 16 * m / 16 + 4 = m + 4 := by omega
  unfold Encoding.encodeBlock
  simp only [hword]
  constructor
  · rw [hblock.dx_eq, Nat.mul_succ]
  · rw [hblock.retVal_eq, Nat.mul_succ]
  · intro w hw
    by_cases heq : w = m
    · subst heq
      simp only [Function.update_self]
      exact hblock.records
    · have hother : w + 4 ≠ m + 4 := by omega
      simp only [Function.update_of_ne hother]
      exact h.records w (by omega)
  · intro i hi
    have hother : i ≠ m + 4 := hi m (by omega)
    simp only [Function.update_of_ne hother]
    exact h.unchanged i fun w hw => hi w (by omega)

theorem inBlocks_foldl (hpos : 0 < threshold) (dz : Nat → BitVec 32) (m : Nat) :
    InBlocks N threshold x dz m
      (((List.range m).map (16 * ·)).foldl (encodeBlock N threshold) ⟨x, dz, 0⟩) := by
  induction m with
  | zero =>
      refine ⟨?_, rfl, fun w hw => absurd hw (Nat.not_lt_zero w), fun i _ => rfl⟩
      funext i
      simp [encodedBelow]
  | succ m ih =>
      rw [List.range_succ, List.map_append, List.foldl_append]
      exact ih.encodeBlock hpos

/-- What encoding leaves in the vector, the words and the count. -/
theorem encodeBitmapGeneric_spec (hpos : 0 < threshold) (x : Nat → ℚ) (N : Nat)
    (dz : Nat → BitVec 32) :
    (∀ i, (encodeBitmapGeneric x N dz threshold).dx i =
        if i < N then residual threshold (x i) else x i) ∧
      (encodeBitmapGeneric x N dz threshold).retVal =
        (List.range N).countP (fun i => residual threshold (x i) ≠ x i) ∧
      (∀ w < (N + 15) / 16,
        Records N threshold x w 16 ((encodeBitmapGeneric x N dz threshold).dz (w + 4))) ∧
      ∀ i, (∀ w < (N + 15) / 16, i ≠ w + 4) →
        (encodeBitmapGeneric x N dz threshold).dz i = dz i := by
  have h : InBlocks N threshold x dz ((N + 15) / 16) (encodeBitmapGeneric x N dz threshold) :=
    inBlocks_foldl hpos dz _
  have hcover : ∀ i, i < N → i < 16 * ((N + 15) / 16) := by omega
  refine ⟨fun i => ?_, ?_, h.records, h.unchanged⟩
  · rw [h.dx_eq, encodedBelow]
    have hiff : (i < 16 * ((N + 15) / 16) ∧ i < N) ↔ i < N := by
      have hi := hcover i
      omega
    simp only [hiff]
  · rw [h.retVal_eq, changedBelow]
    obtain ⟨k, hk⟩ : ∃ k, 16 * ((N + 15) / 16) = N + k := ⟨16 * ((N + 15) / 16) - N, by omega⟩
    rw [hk, List.range_add, List.countP_append, List.countP_map]
    have hfirst : (List.range N).countP (fun i => i < N ∧ residual threshold (x i) ≠ x i) =
        (List.range N).countP (fun i => residual threshold (x i) ≠ x i) := by
      apply List.countP_congr
      intro i hi
      have hlt := List.mem_range.mp hi
      simp [hlt]
    have hrest : (List.range k).countP ((fun i => decide (i < N ∧ residual threshold (x i) ≠ x i)) ∘
        (N + ·)) = 0 := by
      apply List.countP_eq_zero.mpr
      intro i _
      simp
    rw [hfirst, hrest, Nat.add_zero]

end Encode

/-! ## Decoding -/

section Decode

variable {threshold : ℚ}

/-- What decoding adds to position `i`. -/
def decodedAt (threshold : ℚ) (x : Nat → BitVec 32) (i : Nat) : ℚ :=
  decoded threshold ((x (i / 16 + 4)).getLsbD (i % 16)) ((x (i / 16 + 4)).getLsbD (i % 16 + 16))

/-- One bit pair adds to one position. -/
theorem decodeBit_eq (word : BitVec 32) (w : Nat) (dz : Nat → ℚ) {bitId : Nat} (hbit : bitId < 16) :
    decodeBit threshold word (w + 4) dz bitId =
      Function.update dz (16 * w + bitId) (dz (16 * w + bitId) +
        decoded threshold (word.getLsbD bitId) (word.getLsbD (bitId + 16))) := by
  have hi : (w + 4 - 4) * 16 + bitId = 16 * w + bitId := by omega
  unfold decodeBit
  simp only [hi, and_mask_ne_zero word (show bitId < 32 by omega),
    and_mask_ne_zero word (show bitId + 16 < 32 by omega)]
  cases word.getLsbD bitId with
  | true => cases word.getLsbD (bitId + 16) <;> simp [decoded, sub_eq_add_neg]
  | false => cases word.getLsbD (bitId + 16) <;> simp [decoded, sub_eq_add_neg]

/-- Adding to the position behind a decoded part extends it. -/
theorem update_decodedBelow (x : Nat → BitVec 32) (d : Nat → ℚ) (k : Nat) :
    Function.update (fun i => d i + if i < k then decodedAt threshold x i else 0) k
        (d k + (if k < k then decodedAt threshold x k else 0) + decodedAt threshold x k) =
      fun i => d i + if i < k + 1 then decodedAt threshold x i else 0 := by
  funext i
  by_cases hi : i = k
  · subst hi
    simp
  · rw [Function.update_of_ne hi]
    have hiff : i < k ↔ i < k + 1 := by omega
    simp only [hiff]

theorem decodeWord_eq (x : Nat → BitVec 32) (d : Nat → ℚ) (w : Nat) {n : Nat} (hn : n ≤ 16) :
    (List.range n).foldl (decodeBit threshold (x (w + 4)) (w + 4))
        (fun i => d i + if i < 16 * w then decodedAt threshold x i else 0) =
      fun i => d i + if i < 16 * w + n then decodedAt threshold x i else 0 := by
  induction n with
  | zero => rfl
  | succ n ih =>
      have hword : (16 * w + n) / 16 + 4 = w + 4 := by omega
      have hbit : (16 * w + n) % 16 = n := by omega
      have hadd := @update_decodedBelow threshold x d (16 * w + n)
      rw [List.range_succ, List.foldl_append, ih (by omega), List.foldl_cons, List.foldl_nil,
        decodeBit_eq _ _ _ (by omega)]
      simp only [decodedAt, hword, hbit] at hadd ⊢
      exact hadd

/-- What decoding adds to each position. -/
theorem decodeBitmapGeneric_eq (x : Nat → BitVec 32) (N : Nat) (d : Nat → ℚ)
    (hthreshold : floatOfBits (x 2) = some threshold) :
    decodeBitmapGeneric x N d = some fun i =>
      d i + if i < 16 * (N / 16 + 1) then decodedAt threshold x i else 0 := by
  have hwords : ∀ m, (List.range' 4 m).foldl
      (fun dz e => (List.range 16).foldl (decodeBit threshold (x e) e) dz) d =
        fun i => d i + if i < 16 * m then decodedAt threshold x i else 0 := by
    intro m
    induction m with
    | zero => simp
    | succ m ih =>
        rw [List.range'_concat, List.foldl_append, ih, List.foldl_cons, List.foldl_nil,
          Nat.one_mul, Nat.add_comm 4 m, decodeWord_eq x d m (le_refl 16)]
        rfl
  have hlim : N / 16 + 5 - 4 = N / 16 + 1 := by omega
  unfold decodeBitmapGeneric
  simp only [hthreshold, Option.map_some, hlim, hwords]

end Decode

/-! ## The round trip -/

/-- Decoding what encoding wrote gives back what it took from the vector, and nothing
else; the count is that of the changed elements, which shrink by their bands. -/
structure BitmapInverse (x : Nat → ℚ) (N : Nat) (buf : Nat → BitVec 32) (threshold : ℚ)
    (d : Nat → ℚ) : Prop where
  decodes : ∃ d', decodeBitmapGeneric (encodeBitmapGeneric x N buf threshold).dz N d = some d' ∧
    (∀ i < N, d' i = d i + (x i - (encodeBitmapGeneric x N buf threshold).dx i)) ∧
    ∀ i ≥ N, d' i = d i
  count : (encodeBitmapGeneric x N buf threshold).retVal =
    (List.range N).countP fun i => (encodeBitmapGeneric x N buf threshold).dx i ≠ x i
  bands : ∀ i < N, |(encodeBitmapGeneric x N buf threshold).dx i| =
    if threshold ≤ |x i| then |x i| - threshold
    else if threshold / 2 ≤ |x i| ∧ x i < 0 then |x i| - threshold / 2
    else |x i|

section RoundTrip

variable {x : Nat → ℚ} {N : Nat} {buf : Nat → BitVec 32} {threshold : ℚ}

variable (hpos : 0 < threshold)

include hpos

/-- The word behind the header that belongs to an element records it. -/
theorem decodedAt_encode_of_lt {i : Nat} (hi : i < N) :
    decodedAt threshold (encodeBitmapGeneric x N buf threshold).dz i =
      x i - residual threshold (x i) := by
  obtain ⟨-, -, hrecords, -⟩ := encodeBitmapGeneric_spec hpos x N buf
  have hword := hrecords (i / 16) (by omega)
  have hindex : 16 * (i / 16) + i % 16 = i := Nat.div_add_mod i 16
  have hmod : i % 16 < 16 := Nat.mod_lt i (by decide)
  rw [decodedAt, hword.bit _ hmod, hword.sign _ hmod, hindex]
  simp only [hmod, hi, true_and]
  exact decoded_bits hpos (x i)

/-- In a block that is not full, nothing is recorded behind the last element. -/
theorem decodedAt_encode_of_ge (hrest : N % 16 ≠ 0) {i : Nat} (hge : N ≤ i)
    (hi : i < 16 * (N / 16 + 1)) :
    decodedAt threshold (encodeBitmapGeneric x N buf threshold).dz i = 0 := by
  obtain ⟨-, -, hrecords, -⟩ := encodeBitmapGeneric_spec hpos x N buf
  have hword := hrecords (i / 16) (by omega)
  have hindex : 16 * (i / 16) + i % 16 = i := Nat.div_add_mod i 16
  have hmod : i % 16 < 16 := Nat.mod_lt i (by decide)
  have hlt : ¬ i < N := Nat.not_lt.mpr hge
  rw [decodedAt, hword.bit _ hmod, hword.sign _ hmod, hindex]
  simp [hlt, decoded]

/-- Behind full blocks the decoder takes a word the encoder did not write. -/
theorem decodedAt_encode_of_full (hfull : N % 16 = 0) {j : Nat} (hj : j < 16) :
    decodedAt threshold (encodeBitmapGeneric x N buf threshold).dz (N + j) =
      decoded threshold ((buf (N / 16 + 4)).getLsbD j) ((buf (N / 16 + 4)).getLsbD (j + 16)) := by
  obtain ⟨-, -, -, hunchanged⟩ := encodeBitmapGeneric_spec hpos x N buf
  have hdiv : (N + j) / 16 = N / 16 := by omega
  have hmod : (N + j) % 16 = j := by omega
  rw [decodedAt, hdiv, hmod, hunchanged]
  intro w hw
  omega

/-- Encoding leaves the header alone. -/
theorem header_encode : (encodeBitmapGeneric x N buf threshold).dz 2 = buf 2 :=
  (encodeBitmapGeneric_spec hpos x N buf).2.2.2 2 (by omega)

/-- A round trip with full blocks needs the word behind them to be zero. -/
theorem word_eq_zero_of_bitmapInverse (hbits : floatOfBits (buf 2) = some threshold)
    (hfull : N % 16 = 0) {d : Nat → ℚ} (h : BitmapInverse x N buf threshold d) :
    buf (N / 16 + 4) = 0#32 := by
  obtain ⟨d', hdecode, -, hbehind⟩ := h.decodes
  rw [decodeBitmapGeneric_eq _ N d ((congrArg floatOfBits (header_encode hpos)).trans hbits),
    Option.some.injEq] at hdecode
  have hclear : ∀ j < 16, (buf (N / 16 + 4)).getLsbD j = false ∧
      (buf (N / 16 + 4)).getLsbD (j + 16) = false := by
    intro j hj
    have hsame := hbehind (N + j) (Nat.le_add_right N j)
    have hin : N + j < 16 * (N / 16 + 1) := by omega
    rw [← hdecode] at hsame
    simp only [hin, if_true, add_eq_left] at hsame
    rw [decodedAt_encode_of_full hpos hfull hj] at hsame
    exact (decoded_eq_zero_iff hpos _ _).mp hsame
  apply BitVec.eq_of_getLsbD_eq
  intro i hi
  rw [BitVec.getLsbD_zero]
  by_cases hlow : i < 16
  · exact (hclear i hlow).1
  · have hhigh := (hclear (i - 16) (by omega)).2
    rwa [Nat.sub_add_cancel (by omega)] at hhigh

omit hpos

/-- Decoding inverts encoding exactly if the last block is not full, or the word behind
it is zero. -/
theorem bitmapInverse_iff (x : Nat → ℚ) (N : Nat) (buf : Nat → BitVec 32) (d : Nat → ℚ)
    (hpos : 0 < threshold) (hbits : floatOfBits (buf 2) = some threshold) :
    BitmapInverse x N buf threshold d ↔ N % 16 ≠ 0 ∨ buf (N / 16 + 4) = 0#32 := by
  constructor
  · intro h
    by_cases hfull : N % 16 = 0
    · exact Or.inr (word_eq_zero_of_bitmapInverse hpos hbits hfull h)
    · exact Or.inl hfull
  · intro hcond
    obtain ⟨hdx, hretVal, -, -⟩ := encodeBitmapGeneric_spec hpos x N buf
    refine ⟨⟨_, decodeBitmapGeneric_eq _ N d
      ((congrArg floatOfBits (header_encode hpos)).trans hbits), ?_, ?_⟩, ?_, ?_⟩
    · intro i hi
      have hin : i < 16 * (N / 16 + 1) := by omega
      simp only [hin, if_true]
      rw [decodedAt_encode_of_lt hpos hi, hdx, if_pos hi]
    · intro i hi
      by_cases hin : i < 16 * (N / 16 + 1)
      · simp only [hin, if_true, add_eq_left]
        rcases hcond with hrest | hzero
        · exact decodedAt_encode_of_ge hpos hrest hi hin
        · by_cases hfull : N % 16 = 0
          · have hat := @decodedAt_encode_of_full x N buf threshold hpos hfull (i - N) (by omega)
            rw [Nat.add_sub_cancel' hi, hzero] at hat
            simpa [decoded] using hat
          · exact decodedAt_encode_of_ge hpos hfull hi hin
      · simp [hin]
    · rw [hretVal]
      apply List.countP_congr
      intro i hi
      rw [hdx, if_pos (List.mem_range.mp hi)]
    · intro i hi
      rw [hdx, if_pos hi]
      exact abs_residual (x i)

end RoundTrip

/-- The header of a buffer with threshold one. -/
def unitHeader (word : BitVec 32) (i : Nat) : BitVec 32 :=
  if i = 2 then 0x3F800000#32 else if i = 5 then word else 0#32

theorem floatOfBits_one : floatOfBits 0x3F800000#32 = some 1 := by
  have hexponent : (BitVec.extractLsb' 23 8 0x3F800000#32).toNat = 127 := by decide
  have hmantissa : (BitVec.extractLsb' 0 23 0x3F800000#32).toNat = 0 := by decide
  have hsign : (0x3F800000#32).msb = false := by decide
  simp only [floatOfBits, hexponent, hmantissa, hsign]
  norm_num

theorem floatOfBits_unitHeader (word : BitVec 32) : floatOfBits (unitHeader word 2) = some 1 := by
  rw [unitHeader, if_pos rfl]
  exact floatOfBits_one

theorem bitmapInverse_iff_seventeen :
    BitmapInverse (fun i => (i : ℚ) - 3) 17 (unitHeader 7#32) 1 (fun _ => 0) ↔
      17 % 16 ≠ 0 ∨ unitHeader 7#32 (17 / 16 + 4) = 0#32 :=
  bitmapInverse_iff _ 17 (unitHeader 7#32) _ one_pos (floatOfBits_unitHeader _)

/-- Sixteen zeros are encoded into one word; the decoder also adds what the next one held. -/
theorem not_bitmapInverse_always :
    ¬ ∀ (x : Nat → ℚ) (N : Nat) (buf : Nat → BitVec 32) (threshold : ℚ) (d : Nat → ℚ), 1 ≤ N →
      0 < threshold → floatOfBits (buf 2) = some threshold →
      BitmapInverse x N buf threshold d := by
  intro h
  have hinverse := h (fun _ => 0) 16 (unitHeader 1#32) 1 (fun _ => 0) (by decide) one_pos
    (floatOfBits_unitHeader _)
  have hword := word_eq_zero_of_bitmapInverse one_pos (floatOfBits_unitHeader _) rfl hinverse
  exact absurd hword (by decide)

end Encoding
end LibND4J
