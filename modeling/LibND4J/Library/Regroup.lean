import LibND4J.Library.Strided

/-!
# Regrouping strided axes

Two lists of axes describe the same walk when they have the same volume and give
every index the same offset.  The file shows how that relation composes along
concatenation, that a packed list of axes walks at a constant step, and the
converse needed for completeness: when no inner boundary of one list has the
place value of an inner boundary of the other, a common walk forces the first
list to be packed.

Main results:

- Theorem `SameWalk.append`: walks compose block by block.
- Theorem `linear_of_packed`: packed axes move by the innermost stride.
- Theorem `packed_of_sameWalk`: a common walk without common inner
  boundaries is packed.
-/

namespace Strided

variable {G : Type*} [AddCommGroup G]

/-! ## Walks -/

/-- Both lists of axes send every index to the same offset. -/
structure SameWalk (xs ys : List (Nat × G)) : Prop where
  volume_eq : volume xs = volume ys
  offset_eq : ∀ k < volume xs, offsetAt xs k = offsetAt ys k

/-- The walk moves by the constant step `e`. -/
def Linear (axes : List (Nat × G)) (e : G) : Prop :=
  ∀ k < volume axes, offsetAt axes k = k • e

variable {xs ys xs₁ xs₂ : List (Nat × G)} {e : G} {a x : Nat × G}

theorem SameWalk.symm (h : SameWalk xs ys) : SameWalk ys xs :=
  ⟨h.volume_eq.symm, fun k hk => (h.offset_eq k (h.volume_eq ▸ hk)).symm⟩

theorem SameWalk.trans {zs : List (Nat × G)} (h : SameWalk xs ys) (h' : SameWalk ys zs) :
    SameWalk xs zs :=
  ⟨h.volume_eq.trans h'.volume_eq,
    fun k hk => (h.offset_eq k hk).trans (h'.offset_eq k (h.volume_eq ▸ hk))⟩

theorem sameWalk_squeeze (xs : List (Nat × G)) : SameWalk (squeeze xs) xs :=
  ⟨volume_squeeze xs, fun _ hk => offsetAt_squeeze xs (volume_squeeze xs ▸ hk)⟩

/-- Walks compose along concatenation. -/
theorem SameWalk.append {ys₁ ys₂ : List (Nat × G)} (h₁ : SameWalk xs₁ ys₁) (h₂ : SameWalk xs₂ ys₂) :
    SameWalk (xs₁ ++ xs₂) (ys₁ ++ ys₂) := by
  have hvol : volume (xs₁ ++ xs₂) = volume (ys₁ ++ ys₂) := by
    rw [volume_append, volume_append, h₁.volume_eq, h₂.volume_eq]
  refine ⟨hvol, fun k hk => ?_⟩
  have hk' : k < volume ys₁ * volume ys₂ := by rwa [hvol, volume_append] at hk
  rw [volume_append] at hk
  have hpos : 0 < volume xs₂ := Nat.pos_of_ne_zero fun hzero => by simp [hzero] at hk
  rw [offsetAt_append _ _ hk, offsetAt_append _ _ hk',
    h₁.offset_eq _ ((Nat.div_lt_iff_lt_mul hpos).mpr hk),
    h₂.offset_eq _ (Nat.mod_lt k hpos), h₂.volume_eq]

/-- A block of a common walk between boundaries of equal place value is common. -/
theorem SameWalk.middle {xs₃ ys₁ ys₂ ys₃ : List (Nat × G)}
    (h : SameWalk (xs₁ ++ (xs₂ ++ xs₃)) (ys₁ ++ (ys₂ ++ ys₃)))
    (hpos : 0 < volume (xs₁ ++ (xs₂ ++ xs₃))) (h₂ : volume xs₂ = volume ys₂)
    (h₃ : volume xs₃ = volume ys₃) : SameWalk xs₂ ys₂ := by
  have hprod := h.volume_eq ▸ hpos
  simp only [volume_append] at hpos hprod
  have hpos₁ : 0 < volume xs₁ := Nat.pos_of_mul_pos_right hpos
  have hpos₃ : 0 < volume xs₃ := Nat.pos_of_mul_pos_left (Nat.pos_of_mul_pos_left hpos)
  have hposy : 0 < volume ys₁ := Nat.pos_of_mul_pos_right hprod
  refine ⟨h₂, fun k hk => ?_⟩
  have hinner : k * volume xs₃ < volume (xs₂ ++ xs₃) := by
    rw [volume_append]
    exact Nat.mul_lt_mul_of_pos_right hk hpos₃
  have hinner' : k * volume ys₃ < volume (ys₂ ++ ys₃) := by
    rw [volume_append, ← h₂, ← h₃]
    exact Nat.mul_lt_mul_of_pos_right hk hpos₃
  have hwhole : k * volume xs₃ < volume (xs₁ ++ (xs₂ ++ xs₃)) := by
    rw [volume_append]
    exact lt_of_lt_of_le hinner (Nat.le_mul_of_pos_left _ hpos₁)
  have key := h.offset_eq _ hwhole
  rw [offsetAt_append_of_lt _ _ hinner hpos₁, offsetAt_append_mul _ _ hk hpos₃, h₃,
    offsetAt_append_of_lt _ _ hinner' hposy,
    offsetAt_append_mul _ _ (h₂ ▸ hk) (h₃ ▸ hpos₃)] at key
  exact key

/-- Two walks of equal volume that move by the same constant step are the same. -/
theorem SameWalk.of_linear (hvol : volume xs = volume ys) (hx : Linear xs e) (hy : Linear ys e) :
    SameWalk xs ys :=
  ⟨hvol, fun k hk => (hx k hk).trans (hy k (hvol ▸ hk)).symm⟩

/-! ## Packed axes -/

/-- Each axis strides over exactly one sweep of the next one. -/
def Packed (axes : List (Nat × G)) : Prop :=
  axes.IsChain fun a b => a.2 = b.1 • b.2

theorem packed_singleton (a : Nat × G) : Packed [a] :=
  List.isChain_singleton a

theorem packed_cons_cons {b : Nat × G} {axes : List (Nat × G)} :
    Packed (a :: b :: axes) ↔ a.2 = b.1 • b.2 ∧ Packed (b :: axes) := by
  simp [Packed]

/-- The leading stride of a packed list is one sweep of everything behind it. -/
theorem Packed.head_eq (h : Packed (x :: (xs ++ [a]))) : x.2 = volume (xs ++ [a]) • a.2 := by
  induction xs generalizing x with
  | nil =>
      rw [List.nil_append, packed_cons_cons] at h
      simpa using h.1
  | cons y ys ih =>
      rw [List.cons_append, packed_cons_cons] at h
      rw [h.1, ih h.2, List.cons_append, volume_cons, mul_smul]

/-- A packed list of axes walks by its innermost stride. -/
theorem linear_of_packed (h : Packed (xs ++ [a])) : Linear (xs ++ [a]) a.2 := by
  induction xs with
  | nil =>
      intro k _
      simp [offsetAt_cons]
  | cons x xs ih =>
      intro k hk
      have htail : Packed (xs ++ [a]) := by
        rw [List.cons_append] at h
        exact List.IsChain.tail h
      have hpos : 0 < volume (xs ++ [a]) := by
        rw [List.cons_append, volume_cons] at hk
        exact Nat.pos_of_ne_zero fun hzero => by simp [hzero] at hk
      rw [List.cons_append, offsetAt_cons, Packed.head_eq h, ih htail _ (Nat.mod_lt k hpos),
        ← mul_smul, ← add_smul, Nat.div_add_mod']

/-- In a linear walk every stride is one sweep of everything behind it. -/
theorem Linear.stride_eq (h : Linear (x :: xs) e) (hx : 2 ≤ x.1) (hpos : 0 < volume xs) :
    x.2 = volume xs • e := by
  have hlt : volume xs < volume (x :: xs) := by
    rw [volume_cons]
    nlinarith
  have key := h _ hlt
  rwa [offsetAt_cons, Nat.div_self hpos, Nat.mod_self, one_smul, offsetAt_zero, add_zero] at key

/-! ## Boundaries -/

omit [AddCommGroup G] in
/-- The longest inner block whose volume divides `A`, and the axis in front of it. -/
theorem exists_boundary {A : Nat} (h : ¬ volume ys ∣ A) :
    ∃ ys₁ b ys₂, ys = ys₁ ++ b :: ys₂ ∧ volume ys₂ ∣ A ∧ ¬ b.1 * volume ys₂ ∣ A := by
  induction ys with
  | nil => simp at h
  | cons y ys ih =>
      by_cases hdvd : volume ys ∣ A
      · exact ⟨[], y, ys, rfl, hdvd, by rwa [volume_cons] at h⟩
      · obtain ⟨ys₁, b, ys₂, rfl, hb, hnb⟩ := ih hdvd
        exact ⟨y :: ys₁, b, ys₂, rfl, hb, hnb⟩

/-- One step across a boundary whose digit does not wrap adds that digit's stride. -/
theorem offsetAt_snoc_succ (xs : List (Nat × G)) (b : Nat × G) {m : Nat} (hm : 0 < m)
    (hb : ¬ b.1 ∣ m) (hlt : m < volume (xs ++ [b])) :
    offsetAt (xs ++ [b]) m = offsetAt (xs ++ [b]) (m - 1) + b.2 := by
  have hvol : volume [b] = b.1 := by simp
  have hlt' : m < volume xs * volume [b] := by rwa [volume_append] at hlt
  have hbpos : 0 < b.1 := Nat.pos_of_ne_zero fun hzero => by simp [hzero] at hlt
  have hdm := Nat.div_add_mod (m - 1) b.1
  have hmod := Nat.mod_lt (m - 1) hbpos
  have hsucc : m = b.1 * ((m - 1) / b.1) + ((m - 1) % b.1 + 1) := by omega
  have hwrap : (m - 1) % b.1 + 1 < b.1 := by
    rcases Nat.lt_or_ge ((m - 1) % b.1 + 1) b.1 with h | h
    · exact h
    · have heq : (m - 1) % b.1 + 1 = b.1 := by omega
      have hmul : m = b.1 * ((m - 1) / b.1 + 1) := by rw [mul_add, mul_one]; omega
      exact absurd ⟨_, hmul⟩ hb
  have hdiv : m / b.1 = (m - 1) / b.1 := by
    conv_lhs => rw [hsucc]
    rw [Nat.mul_add_div hbpos, Nat.div_eq_of_lt hwrap, add_zero]
  have hrem : m % b.1 = (m - 1) % b.1 + 1 := by
    conv_lhs => rw [hsucc]
    rw [Nat.mul_add_mod, Nat.mod_eq_of_lt hwrap]
  rw [offsetAt_append _ _ hlt', offsetAt_append _ _ (by omega), hvol, hdiv, hrem]
  simp only [offsetAt_cons, volume_nil, Nat.div_one, offsetAt_nil, add_zero, add_smul, one_smul]
  abel

/-- The jump of the walk at a multiple of an inner block depends on the boundary only. -/
theorem jump_eq (xs ys : List (Nat × G)) (b : Nat × G) {m : Nat} (hm : 0 < m)
    (hb : ¬ b.1 ∣ m) (hlt : m * volume ys < volume (xs ++ b :: ys)) :
    offsetAt (xs ++ b :: ys) (m * volume ys) =
      offsetAt (xs ++ b :: ys) (m * volume ys - 1) + (b.2 - offsetAt ys (volume ys - 1)) := by
  have hsplit : xs ++ b :: ys = (xs ++ [b]) ++ ys := by simp
  rw [hsplit, volume_append] at hlt
  have hpos : 0 < volume ys := Nat.pos_of_ne_zero fun hzero => by simp [hzero] at hlt
  have hlt' : m < volume (xs ++ [b]) := Nat.lt_of_mul_lt_mul_right hlt
  obtain ⟨n, rfl⟩ : ∃ n, m = n + 1 := ⟨m - 1, by omega⟩
  have hpred : (n + 1) * volume ys - 1 = n * volume ys + (volume ys - 1) := by
    rw [add_mul, one_mul]
    omega
  have hdiv : (n * volume ys + (volume ys - 1)) / volume ys = n := by
    rw [Nat.mul_comm, Nat.mul_add_div hpos, Nat.div_eq_of_lt (by omega), add_zero]
  have hmod : (n * volume ys + (volume ys - 1)) % volume ys = volume ys - 1 := by
    rw [Nat.mul_comm, Nat.mul_add_mod, Nat.mod_eq_of_lt (by omega)]
  have hstep := offsetAt_snoc_succ xs b hm hb hlt'
  rw [Nat.add_sub_cancel] at hstep
  have hwhole : n * volume ys + (volume ys - 1) < volume (xs ++ [b]) * volume ys := by omega
  rw [hsplit, offsetAt_append_mul _ _ hlt' hpos, hpred, offsetAt_append _ _ hwhole, hdiv,
    hmod, hstep]
  abel

/-! ## Completeness -/

/-- No inner boundary of the first list has the place value of an inner boundary
of the second. -/
def NoCommonBoundary (xs ys : List (Nat × G)) : Prop :=
  ∀ xs₁ xs₂ ys₁ ys₂, xs = xs₁ ++ xs₂ → ys = ys₁ ++ ys₂ →
    xs₁ ≠ [] → xs₂ ≠ [] → ys₁ ≠ [] → ys₂ ≠ [] → volume xs₂ ≠ volume ys₂

/-- When a suffix of the first list is linear, the stride in front of it is one
sweep of the suffix: its jump is also the jump of a shorter step inside the suffix. -/
theorem stride_eq_of_sameWalk (hwalk : SameWalk xs ys) (hsep : NoCommonBoundary xs ys)
    (hx : ∀ a ∈ xs, 2 ≤ a.1) (hxs : xs = xs₁ ++ x :: xs₂) (hne : xs₂ ≠ []) (hlin : Linear xs₂ e) :
    x.2 = volume xs₂ • e := by
  have hxpos : ∀ a ∈ xs, 0 < a.1 := fun a ha => lt_of_lt_of_le Nat.two_pos (hx a ha)
  have hx2 : 2 ≤ x.1 := hx x (by simp [hxs])
  have hpos₁ : 0 < volume xs₁ := volume_pos fun a ha => hxpos a (by simp [hxs, ha])
  have hpos₂ : 0 < volume xs₂ := volume_pos fun a ha => hxpos a (by simp [hxs, ha])
  set A := volume xs₂ with hA
  have hAlt : A < volume (x :: xs₂) := by
    rw [volume_cons]
    nlinarith
  have hAvol : A < volume xs := by
    rw [hxs, volume_append]
    exact lt_of_lt_of_le hAlt (Nat.le_mul_of_pos_left _ hpos₁)
  have hA2 : 2 ≤ A := by
    obtain ⟨y, zs, rfl⟩ := List.exists_cons_of_ne_nil hne
    have hz : 0 < volume zs := volume_pos fun a ha => hxpos a (by simp [hxs, ha])
    have hy2 : 2 ≤ y.1 := hx y (by simp [hxs])
    rw [hA, volume_cons]
    nlinarith
  -- the longest inner block of `ys` whose volume divides `A` is shorter than `A`
  have hndvd : ¬ volume ys ∣ A := by
    rw [← hwalk.volume_eq]
    exact Nat.not_dvd_of_pos_of_lt hpos₂ hAvol
  obtain ⟨ys₁, b, ys₂, hys, ⟨m, hm⟩, hnb⟩ := exists_boundary hndvd
  set B := volume ys₂ with hB
  have hBpos : 0 < B := Nat.pos_of_ne_zero fun hzero => by simp [hzero] at hm; omega
  have hmpos : 0 < m := Nat.pos_of_ne_zero fun hzero => by simp [hzero] at hm; omega
  have hbm : ¬ b.1 ∣ m := by
    rintro ⟨c, rfl⟩
    exact hnb ⟨c, by rw [hm]; ring⟩
  have hb1 : ¬ b.1 ∣ 1 := by
    intro h
    exact hbm (h.trans (one_dvd m))
  have hneB : A ≠ B := by
    rcases eq_or_ne ys₂ [] with rfl | hys₂
    · rw [hB, volume_nil]
      omega
    · exact hsep (xs₁ ++ [x]) xs₂ (ys₁ ++ [b]) ys₂ (by simp [hxs]) (by simp [hys])
        (by simp) hne (by simp) hys₂
  have hBA : B < A := lt_of_le_of_ne (Nat.le_of_dvd hpos₂ ⟨m, hm⟩) hneB.symm
  -- the two jumps, read off `ys`
  have hvoly : volume ys = volume xs := hwalk.volume_eq.symm
  have hmA : m * B = A := by rw [hm, Nat.mul_comm]
  have hjumpA := jump_eq ys₁ ys₂ b hmpos hbm (by rw [← hys, ← hB, hmA, hvoly]; exact hAvol)
  have hjumpB := jump_eq ys₁ ys₂ b Nat.one_pos hb1
    (by rw [← hys, ← hB, one_mul, hvoly]; omega)
  rw [← hys, ← hB, hmA, ← hwalk.offset_eq _ hAvol, ← hwalk.offset_eq _ (by omega)] at hjumpA
  rw [← hys, ← hB, one_mul, ← hwalk.offset_eq _ (by omega),
    ← hwalk.offset_eq _ (by omega)] at hjumpB
  -- and their values, read off `xs`
  have hinner : ∀ k < A, offsetAt xs k = k • e := by
    intro k hk
    have hsplit : xs = (xs₁ ++ [x]) ++ xs₂ := by simp [hxs]
    have hfront : 0 < volume (xs₁ ++ [x]) :=
      volume_pos fun a ha => hxpos a (by rw [hsplit]; exact List.mem_append_left _ ha)
    rw [hsplit, offsetAt_append_of_lt _ _ hk hfront]
    exact hlin k hk
  have hatA : offsetAt xs A = x.2 := by
    rw [hxs, offsetAt_append_of_lt _ _ hAlt hpos₁, offsetAt_cons, ← hA, Nat.div_self hpos₂,
      Nat.mod_self, one_smul, offsetAt_zero, add_zero]
  rw [hatA, hinner _ (by omega)] at hjumpA
  rw [hinner _ hBA, hinner _ (by omega)] at hjumpB
  have hstep : b.2 - offsetAt ys₂ (B - 1) = e := by
    have hBe : B • e = (B - 1) • e + e := by
      rw [← succ_nsmul, Nat.sub_add_cancel hBpos]
    rw [hBe] at hjumpB
    exact (add_left_cancel hjumpB).symm
  rw [hjumpA, hstep, ← succ_nsmul, Nat.sub_add_cancel hpos₂]

/-- A common walk without common inner boundaries is packed. -/
theorem packed_of_sameWalk (hwalk : SameWalk xs ys) (hsep : NoCommonBoundary xs ys)
    (hx : ∀ a ∈ xs, 2 ≤ a.1) : Packed xs := by
  suffices hsuffix : ∀ xs₂ xs₁ a, xs = xs₁ ++ (xs₂ ++ [a]) → Packed (xs₂ ++ [a]) by
    rcases List.eq_nil_or_concat xs with rfl | ⟨zs, a, hzs⟩
    · exact List.isChain_nil
    · rw [List.concat_eq_append] at hzs
      rw [hzs]
      exact hsuffix zs [] a (by simp [hzs])
  intro xs₂
  induction xs₂ with
  | nil =>
      intro _ a _
      exact packed_singleton a
  | cons x xs₂ ih =>
      intro xs₁ a hxs
      have htail : Packed (xs₂ ++ [a]) := ih (xs₁ ++ [x]) a (by simp [hxs])
      have hlin : Linear (xs₂ ++ [a]) a.2 := linear_of_packed htail
      have hstride : x.2 = volume (xs₂ ++ [a]) • a.2 :=
        stride_eq_of_sameWalk hwalk hsep hx hxs (by simp) hlin
      obtain ⟨y, zs, hzs⟩ := List.exists_cons_of_ne_nil (show xs₂ ++ [a] ≠ [] by simp)
      rw [List.cons_append, hzs, packed_cons_cons]
      refine ⟨?_, hzs ▸ htail⟩
      have hyzs : ∀ c ∈ y :: zs, 2 ≤ c.1 := fun c hc =>
        hx c (by rw [hxs, List.cons_append, hzs]; simp only [List.mem_append, List.mem_cons] at hc ⊢
                 tauto)
      have hpos : 0 < volume zs :=
        volume_pos fun c hc => lt_of_lt_of_le Nat.two_pos (hyzs c (List.mem_cons_of_mem _ hc))
      have hy := Linear.stride_eq (hzs ▸ hlin) (hyzs y List.mem_cons_self) hpos
      rw [hstride, hzs, volume_cons, hy, mul_smul]

end Strided
