import LibND4J.Shape.ShapeBuffer

/-!
# The computed element-wise stride

`computeElementWiseStride` reshapes an array to a row and returns the stride of this row.  A
vector has its last stride returned at once.  In F order the result is multiplied by the length of
the row, which belongs to a further axis that the row does not have.

Main results:

- Theorem `computeElementWiseStride_eq`: away from vectors the step between the elements is
  found if there is one.
- Theorem `stepsRight_vector_iff`: the last stride is that of a vector's elements unless it
  belongs to an axis of extent one.
- Theorem `stepsRight_iff`: the stride that is returned steps through the elements exactly if
  there is none to be found in F order.
-/

namespace LibND4J
namespace Shape

open Strided

/-- The elements in an order lie a step apart. -/
def EvenlySpaced (isFOrder : Bool) (axes : List (Nat × Int)) (e : Int) : Prop :=
  ∀ k < volume axes, elementOffset isFOrder axes k = k * e

/-- A positive stride that is returned steps through the elements. -/
def StepsRight (axes : List (Nat × Int)) (isFOrder : Bool) : Prop :=
  ∃ e, computeElementWiseStride axes isFOrder = some e ∧ (e ≥ 1 → EvenlySpaced isFOrder axes e)

/-- The last stride. -/
def lastOfStrides (axes : List (Nat × Int)) : Int :=
  (axes.map Prod.snd).getLastD 0

section Steps

variable {axes : List (Nat × Int)} {isFOrder : Bool} {e : Int}

/-- At most one element is a step apart from nothing. -/
theorem evenlySpaced_of_volume (hone : volume axes ≤ 1) : EvenlySpaced isFOrder axes e := by
  intro k hk
  have hzero : k = 0 := by omega
  subst hzero
  rw [elementOffset_eq isFOrder axes hk, offsetAt_zero, Nat.cast_zero, zero_mul]

/-- The step is the offset of the second element. -/
theorem EvenlySpaced.eq_of_lt {e' : Int} (hlong : 1 < volume axes)
    (h : EvenlySpaced isFOrder axes e) (h' : EvenlySpaced isFOrder axes e') : e = e' := by
  have hsecond := (h 1 hlong).symm.trans (h' 1 hlong)
  rwa [Nat.cast_one, one_mul, one_mul] at hsecond

/-- A row that views the elements has their step. -/
theorem evenlySpaced_iff_row {s₀ : Int} :
    SameElements isFOrder [(1, s₀), (volume axes, e)] axes ↔ EvenlySpaced isFOrder axes e := by
  have hvolume : volume [(1, s₀), (volume axes, e)] = volume axes := by simp
  have hrow : ∀ k < volume axes,
      elementOffset isFOrder [(1, s₀), (volume axes, e)] k = k * e := by
    intro k hk
    rw [elementOffset_eq _ _ (hvolume.symm ▸ hk)]
    cases isFOrder <;>
      simp [orient, offsetAt_cons, Nat.div_eq_of_lt hk, Nat.mod_eq_of_lt hk, Nat.mod_one]
  constructor
  · intro h k hk
    rw [← h.2 k (hvolume.symm ▸ hk), hrow k hk]
  · intro h
    refine ⟨hvolume, fun k hk => ?_⟩
    rw [hvolume] at hk
    rw [h k hk, hrow k hk]

end Steps

section Groups

variable {axes : List (Nat × Int)}

/-- Away from vectors the step between the elements is found if there is one; in F order it is
multiplied by the number of the elements. -/
theorem computeElementWiseStride_eq (hpos : ∀ a ∈ axes, 0 < a.1) (hlong : 1 < volume axes)
    (hvector : isVectorShape (dims axes) = false) (isFOrder : Bool) :
    (computeElementWiseStride axes isFOrder = some (-1) ∧ ∀ s, ¬ EvenlySpaced isFOrder axes s) ∨
    ∃ s, EvenlySpaced isFOrder axes s ∧ computeElementWiseStride axes isFOrder =
      some (if isFOrder then s * volume axes else s) := by
  have hinfo : (ShapeInfo.ofAxes axes 0 0 'c').Positive := by
    intro d hd
    obtain ⟨a, ha, rfl⟩ := List.mem_map.mp hd
    exact hpos a ha
  have hnew : ∀ d ∈ [1, volume axes], 0 < d := by
    simpa using Nat.zero_lt_of_lt hlong
  have hsqueeze := sameElements_squeeze isFOrder axes
  have hspec := reshapeGroups_spec hinfo hnew isFOrder
  rw [ShapeInfo.axes_ofAxes] at hspec
  unfold computeElementWiseStride
  simp only [hvector, Bool.false_eq_true, if_false]
  cases hgroups : reshapeGroups (ShapeInfo.ofAxes axes 0 0 'c') [1, volume axes] isFOrder with
  | outOfBounds =>
      rw [hgroups] at hspec
      exact hspec.elim
  | no =>
      rw [hgroups] at hspec
      refine Or.inl ⟨rfl, fun s hs => ?_⟩
      exact hspec [0, s] rfl ((evenlySpaced_iff_row.mpr hs).trans hsqueeze.symm)
  | yes result =>
      obtain ⟨ni, newStrides⟩ := result
      rw [hgroups] at hspec
      obtain ⟨hlength, hni, hones, hview⟩ := hspec
      -- all of the row has got strides
      have htwo : ni = 2 := by
        have hle : ni ≤ 2 := hni
        have hne : volume axes ≠ 1 := by omega
        have hnotZero : ni ≠ 0 := fun h => hne (hones _ (by simp [h]))
        have hnotOne : ni ≠ 1 := fun h => hne (hones _ (by simp [h]))
        omega
      subst htwo
      obtain ⟨s₀, s₁, rfl⟩ := List.length_eq_two.mp hlength
      refine Or.inr ⟨s₁, evenlySpaced_iff_row.mp (hview.trans hsqueeze), ?_⟩
      cases isFOrder <;> rfl

/-- There is always a result. -/
theorem exists_computeElementWiseStride (axes : List (Nat × Int)) (isFOrder : Bool) :
    ∃ e, computeElementWiseStride axes isFOrder = some e := by
  cases hvector : isVectorShape (dims axes) with
  | true => exact ⟨_, by rw [computeElementWiseStride, if_pos hvector]⟩
  | false =>
      by_cases hzero : volume axes = 0
      · refine ⟨-1, ?_⟩
        unfold computeElementWiseStride
        simp [hvector, reshapeGroups, hzero]
      · unfold computeElementWiseStride
        simp only [hvector, Bool.false_eq_true, if_false]
        have hinfo : (ShapeInfo.ofAxes axes 0 0 'c').Positive := by
          intro d hd
          apply Nat.pos_of_ne_zero
          rintro rfl
          exact hzero (List.prod_eq_zero hd)
        have hspec := reshapeGroups_spec hinfo
          (show ∀ d ∈ [1, volume axes], 0 < d by simpa using Nat.pos_of_ne_zero hzero) isFOrder
        cases hgroups : reshapeGroups (ShapeInfo.ofAxes axes 0 0 'c') [1, volume axes] isFOrder with
        | outOfBounds =>
            rw [hgroups] at hspec
            exact hspec.elim
        | no => exact ⟨_, rfl⟩
        | yes result => exact ⟨_, rfl⟩

theorem stepsRight_iff_of_eq {isFOrder : Bool} {e : Int}
    (h : computeElementWiseStride axes isFOrder = some e) :
    StepsRight axes isFOrder ↔ (e ≥ 1 → EvenlySpaced isFOrder axes e) := by
  constructor
  · rintro ⟨e', he', hright⟩
    rw [h, Option.some.injEq] at he'
    exact he' ▸ hright
  · intro hright
    exact ⟨e, h, hright⟩

/-! ## Vectors -/

variable (hvector : isVectorShape (dims axes))

include hvector

/-- A vector of more than one element has one axis that moves, the first or the last one. -/
theorem axes_of_isVectorShape (hlong : 1 < volume axes) :
    ∃ a b, axes = [a, b] ∧ (a.1 = 1 ∧ b.1 ≠ 1 ∨ a.1 ≠ 1 ∧ b.1 = 1) := by
  match axes, hvector with
  | [a], h =>
      have hone : a.1 = 1 := by simpa [isVectorShape] using h
      simp [hone] at hlong
  | [a, b], h =>
      have hone : a.1 = 1 ∨ b.1 = 1 := by simpa [isVectorShape] using h
      refine ⟨a, b, rfl, ?_⟩
      simp only [volume_cons, volume_nil, mul_one] at hlong
      rcases hone with hone | hone
      · rw [hone, one_mul] at hlong
        exact Or.inl ⟨hone, by omega⟩
      · rw [hone, mul_one] at hlong
        exact Or.inr ⟨by omega, hone⟩

/-- The elements of a vector lie a stride of the moving axis apart. -/
theorem evenlySpaced_vector_iff (hlong : 1 < volume axes) (isFOrder : Bool) (e : Int) :
    EvenlySpaced isFOrder axes e ↔ ∀ a ∈ axes, a.1 ≠ 1 → a.2 = e := by
  obtain ⟨a, b, rfl, hone⟩ := axes_of_isVectorShape hvector hlong
  -- the moving axis alone spaces the elements evenly
  obtain ⟨s, hs, hspaced⟩ : ∃ s, ((∀ c ∈ [a, b], c.1 ≠ 1 → c.2 = e) ↔ s = e) ∧
      EvenlySpaced isFOrder [a, b] s := by
    obtain ⟨d, s⟩ := a
    obtain ⟨d', s'⟩ := b
    rcases hone with ⟨rfl, hne⟩ | ⟨hne, rfl⟩
    · refine ⟨s', by simp [hne], fun k hk => ?_⟩
      rw [elementOffset_eq _ _ hk]
      have hk : k < d' := by simpa using hk
      cases isFOrder <;>
        simp [orient, offsetAt_cons, Nat.div_eq_of_lt hk, Nat.mod_eq_of_lt hk, Nat.mod_one]
    · refine ⟨s, by simp [hne], fun k hk => ?_⟩
      rw [elementOffset_eq _ _ hk]
      have hk : k < d := by simpa using hk
      cases isFOrder <;>
        simp [orient, offsetAt_cons, Nat.div_eq_of_lt hk, Nat.mod_eq_of_lt hk, Nat.mod_one]
  rw [hs]
  constructor
  · intro h
    exact hspaced.eq_of_lt hlong h
  · rintro rfl
    exact hspaced

theorem stepsRight_vector_iff (hlong : 1 < volume axes) (isFOrder : Bool) :
    StepsRight axes isFOrder ↔
      lastOfStrides axes < 1 ∨ ∀ a ∈ axes, a.1 ≠ 1 → a.2 = lastOfStrides axes := by
  have hlast : computeElementWiseStride axes isFOrder = some (lastOfStrides axes) := by
    rw [computeElementWiseStride, if_pos hvector, lastOfStrides]
  rw [stepsRight_iff_of_eq hlast, evenlySpaced_vector_iff hvector hlong, imp_iff_not_or, ge_iff_le,
    not_le]

omit hvector

/-! ## Other arrays -/

theorem stepsRight_of_c_order (hpos : ∀ a ∈ axes, 0 < a.1) (hlong : 1 < volume axes)
    (hvector : isVectorShape (dims axes) = false) : StepsRight axes false := by
  rcases computeElementWiseStride_eq hpos hlong hvector false with ⟨hno, -⟩ | ⟨s, hs, hfound⟩
  · exact ⟨-1, hno, by omega⟩
  · exact ⟨s, hfound, fun _ => hs⟩

/-- In F order a step that is found is returned times the number of the elements. -/
theorem stepsRight_f_order_iff (hpos : ∀ a ∈ axes, 0 < a.1) (hlong : 1 < volume axes)
    (hvector : isVectorShape (dims axes) = false) :
    StepsRight axes true ↔ ∀ s ≥ 1, ¬ EvenlySpaced true axes s := by
  rcases computeElementWiseStride_eq hpos hlong hvector true with ⟨hno, hnone⟩ | ⟨s, hs, hfound⟩
  · rw [stepsRight_iff_of_eq hno]
    exact ⟨fun _ s _ => hnone s, fun _ h => absurd h (by decide)⟩
  · rw [if_pos rfl] at hfound
    rw [stepsRight_iff_of_eq hfound]
    have hlong' : (1 : Int) < volume axes := by exact_mod_cast hlong
    constructor
    · intro hright t ht htspaced
      have hstep : t = s := htspaced.eq_of_lt hlong hs
      subst hstep
      have hlarge : t * volume axes > t := lt_mul_of_one_lt_right (by omega) hlong'
      have hsame := hs.eq_of_lt hlong (hright (by omega))
      omega
    · intro hnone hge
      have hs1 : s ≥ 1 := by
        by_contra hnot
        have hnonpos : s * volume axes ≤ 0 := mul_nonpos_of_nonpos_of_nonneg (by omega) (by omega)
        omega
      exact absurd hs (hnone s hs1)

/-- The computed stride steps through the elements exactly for at most one element, for a vector
whose last stride is not positive or that of its elements, and for another array in C order, or in
F order if its elements are not evenly spaced. -/
theorem stepsRight_iff (axes : List (Nat × Int)) (isFOrder : Bool) :
    StepsRight axes isFOrder ↔
      volume axes ≤ 1 ∨
      isVectorShape (dims axes) = true ∧
        (lastOfStrides axes < 1 ∨ ∀ a ∈ axes, a.1 ≠ 1 → a.2 = lastOfStrides axes) ∨
      isVectorShape (dims axes) = false ∧
        (isFOrder = false ∨ ∀ s ≥ 1, ¬ EvenlySpaced true axes s) := by
  rcases Nat.lt_or_ge 1 (volume axes) with hlong | hshort
  · have hpos : ∀ a ∈ axes, 0 < a.1 := by
      intro a ha
      apply Nat.pos_of_ne_zero
      intro hzero
      have hvolume : volume axes = 0 := List.prod_eq_zero (List.mem_map.mpr ⟨a, ha, hzero⟩)
      omega
    have hnot : ¬ volume axes ≤ 1 := by omega
    cases hvector : isVectorShape (dims axes) with
    | true =>
        rw [stepsRight_vector_iff hvector hlong]
        simp [hnot]
    | false =>
        cases isFOrder with
        | false =>
            have hright := stepsRight_of_c_order hpos hlong hvector
            simp [hright]
        | true =>
            rw [stepsRight_f_order_iff hpos hlong hvector]
            simp [hnot]
  · obtain ⟨e, he⟩ := exists_computeElementWiseStride axes isFOrder
    exact iff_of_true ⟨e, he, fun _ => evenlySpaced_of_volume hshort⟩ (Or.inl hshort)

/-- A dense square in F order: the stride that is returned is four. -/
theorem not_stepsRight_always :
    ¬ ∀ (axes : List (Nat × Int)) (isFOrder : Bool), StepsRight axes isFOrder := by
  intro h
  obtain ⟨e, he, hright⟩ := h [(2, 1), (2, 2)] true
  have hfour : computeElementWiseStride [(2, 1), (2, 2)] true = some 4 := by decide +kernel
  rw [hfour, Option.some.injEq] at he
  subst he
  have hsecond : elementOffset true [(2, 1), (2, 2)] 1 = 1 := by decide
  have hwrong := hright (by decide) 1 (by decide)
  rw [hsecond] at hwrong
  exact absurd hwrong (by decide)

end Groups

end Shape
end LibND4J
