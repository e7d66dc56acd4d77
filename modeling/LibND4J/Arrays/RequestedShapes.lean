import LibND4J.Arrays.Operations

/-!
# Requested shapes

`reshapei` replaces the first negative extent of a request by what the others leave of the
length.  It looks at no extent behind it, so that the check for a second negative one is never
reached, and tests the product alone.

Main results:

- Theorem `prod_resolveShape`: the product of an inferred shape.
- Theorem `slips_iff`: the product is that of the array although an extent is below one
  exactly if the extents behind the first negative one cancel.
- Theorem `request_validates_iff`: all other requests are refused, or lead to the shape that is asked
  for.
-/

namespace LibND4J
namespace Arrays

open Shape

/-- A call of `reshapei`: how it ends, and the array that it leaves.  What is thrown is thrown
before the array is touched. -/
def NDArray.callReshapei {T : Type} (run : Runtime T) (order : Char) (cshape : List Int)
    (array : NDArray T) : Except Failure Unit × NDArray T :=
  match array.reshape run order cshape with
  | .error failure => (.error failure, array)
  | .ok reshaped => (.ok (), reshaped)

/-- A shape that answers a request: at most one extent was negative, the others are kept, and all
of the array is covered by extents of one or more. -/
structure Answers (lengthOf : Nat) (cshape : List Int) (shape : List Nat) : Prop where
  one_negative : (cshape.filter (· < 0)).length ≤ 1
  kept : List.Forall₂ (fun (request : Int) (d : Nat) => 0 ≤ request → (d : Int) = request)
    cshape shape
  positive : ∀ d ∈ shape, 1 ≤ d
  prod_eq : shape.prod = lengthOf

/-- The routine returns with an answer only, and throws at any other request. -/
structure Validates {T : Type} (run : Runtime T) (order : Char) (cshape : List Int)
    (array : NDArray T) : Prop where
  answers : ∀ out, array.callReshapei run order cshape = (.ok (), out) →
    Answers array.shapeInfo.length cshape out.shapeInfo.shape
  refuses : (¬ ∃ shape, Answers array.shapeInfo.length cshape shape) →
    ∃ message, array.callReshapei run order cshape = (.error (.thrown message), array)

/-- The product is that of the array, although an extent is below one. -/
def Slips (lengthOf : Nat) (cshape : List Int) : Prop :=
  (resolveShape lengthOf cshape).prod = lengthOf ∧ ∃ d ∈ resolveShape lengthOf cshape, d < 1

/-- No extent is zero, the positive ones divide the length, and behind the first negative one there
is an even number of others, all of them minus one. -/
def Cancels (lengthOf : Nat) (cshape : List Int) : Prop :=
  (∀ d ∈ cshape, d ≠ 0) ∧ (cshape.filter (· ≥ 1)).prod ∣ (lengthOf : Int) ∧
    (cshape.filter (· < 0)).tail ≠ [] ∧ (∀ d ∈ (cshape.filter (· < 0)).tail, d = -1) ∧
      Even (cshape.filter (· < 0)).tail.length

/-! ## Inferred shapes -/

section Inferred

variable {lengthOf : Nat} {cshape : List Int}

/-- A request without a negative extent is taken as it is; otherwise the first one is replaced. -/
theorem resolveShape_cases (lengthOf : Nat) (cshape : List Int) :
    ((∀ d ∈ cshape, 0 ≤ d) ∧ resolveShape lengthOf cshape = cshape) ∨
    ∃ front d rest, cshape = front ++ d :: rest ∧ (∀ a ∈ front, 0 ≤ a) ∧ d < 0 ∧
      resolveShape lengthOf cshape = front ++
        (((lengthOf : Int) / (cshape.filter (· ≥ 1)).prod).natAbs : Int) :: rest := by
  cases hfind : cshape.findIdx? (· < 0) with
  | none =>
      left
      refine ⟨fun d hd => ?_, by rw [resolveShape, hfind]⟩
      have hnone := List.findIdx?_eq_none_iff.mp hfind d hd
      exact not_lt.mp (of_decide_eq_false hnone)
  | some i =>
      right
      obtain ⟨hi, hnegative, hfront⟩ := List.findIdx?_eq_some_iff_getElem.mp hfind
      refine ⟨cshape.take i, cshape[i], cshape.drop (i + 1), ?_, fun a ha => ?_,
        of_decide_eq_true hnegative, ?_⟩
      · rw [← List.drop_eq_getElem_cons, List.take_append_drop]
      · obtain ⟨j, hj, rfl⟩ := List.mem_take_iff_getElem.mp ha
        have hnot := hfront j (by omega)
        simpa using hnot
      · rw [resolveShape, hfind]
        simp only
        rw [List.set_eq_take_append_cons_drop, if_pos hi]

/-- The product of extents that are not zero is that of the positive and the negative ones. -/
theorem prod_filter_mul_prod_filter (hzero : ∀ d ∈ cshape, d ≠ 0) :
    (cshape.filter (· ≥ 1)).prod * (cshape.filter (· < 0)).prod = cshape.prod := by
  induction cshape with
  | nil => rfl
  | cons d cshape ih =>
      rw [List.forall_mem_cons] at hzero
      have ih := ih hzero.2
      rcases lt_or_gt_of_ne hzero.1 with hneg | hpos
      · rw [List.filter_cons_of_neg (by simpa using by omega),
          List.filter_cons_of_pos (by simpa using hneg), List.prod_cons, List.prod_cons, ← ih]
        ring
      · rw [List.filter_cons_of_pos (by simpa using by omega),
          List.filter_cons_of_neg (by simpa using by omega), List.prod_cons, List.prod_cons, ← ih]
        ring

theorem prod_filter_pos (cshape : List Int) : 0 < (cshape.filter (· ≥ 1)).prod := by
  apply List.prod_pos
  intro d hd
  have hge : d ≥ 1 := of_decide_eq_true (List.mem_filter.mp hd).2
  omega

/-- The negative extents behind the first one. -/
theorem tail_negatives {front rest : List Int} {d : Int} (hfront : ∀ a ∈ front, 0 ≤ a)
    (hd : d < 0) : ((front ++ d :: rest).filter (· < 0)).tail = rest.filter (· < 0) := by
  have hnone : front.filter (· < 0) = [] := by
    rw [List.filter_eq_nil_iff]
    intro a ha
    simpa using hfront a ha
  rw [List.filter_append, hnone, List.nil_append, List.filter_cons_of_pos (by simpa using hd),
    List.tail_cons]

/-- The product of an inferred shape without zeros. -/
theorem prod_resolveShape {front rest : List Int} {d : Int} (hfront : ∀ a ∈ front, 0 ≤ a)
    (hd : d < 0) (hzero : ∀ a ∈ front ++ d :: rest, a ≠ 0) (r : Int) :
    (front ++ r :: rest).prod =
      r * ((front ++ d :: rest).filter (· ≥ 1)).prod * (rest.filter (· < 0)).prod := by
  have hpositive : ((front ++ d :: rest).filter (· ≥ 1)) =
      front.filter (· ≥ 1) ++ rest.filter (· ≥ 1) := by
    rw [List.filter_append, List.filter_cons_of_neg (by simpa using by omega)]
  have hall : front.filter (· ≥ 1) = front := by
    rw [List.filter_eq_self]
    intro a ha
    have hge := hfront a ha
    have hne := hzero a (List.mem_append_left _ ha)
    simpa using by omega
  have hrest := @prod_filter_mul_prod_filter rest fun a ha =>
    hzero a (List.mem_append_right _ (List.mem_cons_of_mem _ ha))
  rw [hpositive, hall, List.prod_append, List.prod_append, List.prod_cons, ← hrest]
  ring

/-- Negative extents with the product one are an even number of ones with a minus. -/
theorem prod_eq_one_iff {ds : List Int} (hneg : ∀ d ∈ ds, d < 0) :
    ds.prod = 1 ↔ (∀ d ∈ ds, d = -1) ∧ Even ds.length := by
  constructor
  · intro hone
    have hunits : ∀ d ∈ ds, d = -1 := by
      intro d hd
      have hunit : IsUnit d := isUnit_of_dvd_one (hone ▸ List.dvd_prod hd)
      have hlt := hneg d hd
      rcases Int.isUnit_iff.mp hunit with h | h
      · omega
      · exact h
    refine ⟨hunits, ?_⟩
    rw [List.eq_replicate_of_mem hunits, List.prod_replicate] at hone
    exact (neg_one_pow_eq_one_iff_even (by decide)).mp hone
  · rintro ⟨hunits, heven⟩
    rw [List.eq_replicate_of_mem hunits, List.prod_replicate]
    exact heven.neg_one_pow

end Inferred

/-- What a division leaves of a number goes into it once at most. -/
theorem eq_one_of_div_mul_mul {n p t : Int} (hn : 0 < n) (hp : 0 < p) (h : n / p * p * t = n) :
    t = 1 := by
  have hle : n / p * p ≤ n := Int.ediv_mul_le _ hp.ne'
  have hlt : n < n / p * p + p := by
    have hnext := Int.lt_ediv_add_one_mul_self n hp
    rwa [add_mul, one_mul] at hnext
  have hquot : 1 ≤ n / p := by
    by_contra hnot
    have hzero : n / p = 0 := by
      have hnonneg := Int.ediv_nonneg hn.le hp.le
      omega
    rw [hzero, zero_mul, zero_mul] at h
    omega
  have hge : p ≤ n / p * p := le_mul_of_one_le_left hp.le hquot
  by_contra hne
  rcases lt_or_gt_of_ne hne with hsmall | hlarge
  · have hnonpos : n / p * p * t ≤ 0 := mul_nonpos_of_nonneg_of_nonpos (by omega) (by omega)
    omega
  · have htwice : n / p * p * 2 ≤ n / p * p * t := mul_le_mul_of_nonneg_left (by omega) (by omega)
    omega

/-! ## Slips -/

section Slip

variable {lengthOf : Nat} {cshape : List Int}

/-- For an empty array every request with an extent below one slips, and no other one. -/
theorem slips_zero_iff : Slips 0 cshape ↔ ∃ d ∈ cshape, d < 1 := by
  rcases resolveShape_cases 0 cshape with ⟨hnonneg, hresolved⟩ |
    ⟨front, d, rest, rfl, -, hd, hresolved⟩
  · rw [Slips, hresolved]
    refine and_iff_right_of_imp ?_
    rintro ⟨d, hd, hlt⟩
    have hge := hnonneg d hd
    have hzero : d = 0 := by omega
    exact List.prod_eq_zero (hzero ▸ hd)
  · refine iff_of_true ⟨?_, 0, ?_, by decide⟩ ⟨d, by simp, by omega⟩
    · rw [hresolved]
      simp
    · rw [hresolved]
      simp

/-- For another array a request slips exactly if its negative extents cancel. -/
theorem slips_pos_iff (hlength : 0 < lengthOf) :
    Slips lengthOf cshape ↔ Cancels lengthOf cshape := by
  have hlength' : (0 : Int) < lengthOf := by exact_mod_cast hlength
  rcases resolveShape_cases lengthOf cshape with ⟨hnonneg, hresolved⟩ |
    ⟨front, d, rest, hcshape, hfront, hd, hresolved⟩
  · -- without a negative extent only a zero is below one
    have hnone : cshape.filter (· < 0) = [] := by
      rw [List.filter_eq_nil_iff]
      intro a ha
      simpa using hnonneg a ha
    refine iff_of_false ?_ ?_
    · rw [Slips, hresolved]
      rintro ⟨hprod, a, ha, hlt⟩
      have hge := hnonneg a ha
      have hzero : a = 0 := by omega
      rw [List.prod_eq_zero (hzero ▸ ha)] at hprod
      omega
    · rintro ⟨-, -, hne, -⟩
      exact hne (by rw [hnone]; rfl)
  · subst hcshape
    rw [Slips, Cancels, hresolved, tail_negatives hfront hd]
    set P := ((front ++ d :: rest).filter (· ≥ 1)).prod with hP
    have hPpos : 0 < P := prod_filter_pos _
    have hquotient : 0 ≤ (lengthOf : Int) / P := Int.ediv_nonneg hlength'.le hPpos.le
    rw [Int.natAbs_of_nonneg hquotient]
    have hnegatives : ∀ a ∈ rest.filter (· < 0), a < 0 := fun a ha =>
      of_decide_eq_true (List.mem_filter.mp ha).2
    constructor
    · rintro ⟨hprod, b, hb, hlt⟩
      have hnozero : ∀ a ∈ front ++ (lengthOf : Int) / P :: rest, a ≠ 0 := by
        rintro a ha rfl
        rw [List.prod_eq_zero ha] at hprod
        omega
      simp only [List.forall_mem_append, List.forall_mem_cons] at hnozero
      obtain ⟨hfront0, hquot0, hrest0⟩ := hnozero
      have hzero : ∀ a ∈ front ++ d :: rest, a ≠ 0 := by
        simp only [List.forall_mem_append, List.forall_mem_cons]
        exact ⟨hfront0, by omega, hrest0⟩
      rw [prod_resolveShape hfront hd hzero, ← hP] at hprod
      have hone := eq_one_of_div_mul_mul hlength' hPpos hprod
      obtain ⟨hunits, heven⟩ := (prod_eq_one_iff hnegatives).mp hone
      rw [hone, mul_one] at hprod
      refine ⟨hzero, Dvd.intro_left _ hprod, ?_, hunits, heven⟩
      -- the extent below one stands behind the first negative one
      have hmem : b ∈ rest := by
        rw [List.mem_append, List.mem_cons] at hb
        rcases hb with hb | rfl | hb
        · have hge := hfront b hb
          have hne := hfront0 b hb
          omega
        · omega
        · exact hb
      have hne := hrest0 b hmem
      exact List.ne_nil_of_mem (List.mem_filter.mpr ⟨hmem, decide_eq_true (by omega)⟩)
    · rintro ⟨hzero, hdvd, hne, hunits, heven⟩
      constructor
      · rw [prod_resolveShape hfront hd hzero, ← hP,
          (prod_eq_one_iff hnegatives).mpr ⟨hunits, heven⟩, mul_one, Int.ediv_mul_cancel hdvd]
      · obtain ⟨a, ha⟩ := List.exists_mem_of_ne_nil _ hne
        have hneg := hnegatives a ha
        exact ⟨a, List.mem_append_right _ (List.mem_cons_of_mem _ (List.mem_filter.mp ha).1),
          by omega⟩

/-- A request slips exactly if it has an extent below one and the array is empty, or its negative
extents cancel. -/
theorem slips_iff (lengthOf : Nat) (cshape : List Int) :
    Slips lengthOf cshape ↔
      lengthOf = 0 ∧ (∃ d ∈ cshape, d < 1) ∨ 0 < lengthOf ∧ Cancels lengthOf cshape := by
  rcases Nat.eq_zero_or_pos lengthOf with rfl | hlength
  · rw [slips_zero_iff]
    simp
  · rw [slips_pos_iff hlength]
    simp [hlength, hlength.ne']

end Slip

/-! ## Calls -/

section Calls

variable {T : Type} {run : Runtime T} {order : Char} {cshape : List Int} {array : NDArray T}

/-- A product that is not the length is refused. -/
theorem reshape_of_prod_ne
    (h : (resolveShape array.shapeInfo.length cshape).prod ≠ array.shapeInfo.length) :
    array.reshape run order cshape = .error (.thrown "Bad shape!") := by
  simp only [NDArray.reshape, reshapei, if_pos h]

/-- Nothing else is. -/
theorem reshape_ne_thrown
    (h : (resolveShape array.shapeInfo.length cshape).prod = array.shapeInfo.length)
    (message : String) : array.reshape run order cshape ≠ .error (.thrown message) := by
  simp only [NDArray.reshape, reshapei, if_neg (not_not.mpr h)]
  split
  · next hthrown =>
      split at hthrown
      · cases hthrown
      · split at hthrown
        · cases hthrown
        · split at hthrown <;> cases hthrown
        · cases hthrown
  · simp
  · simp
  · simp

/-- An array that is returned has the inferred shape. -/
theorem shape_of_reshape {out : NDArray T} (h : array.reshape run order cshape = .ok out) :
    (resolveShape array.shapeInfo.length cshape).prod = array.shapeInfo.length ∧
      out.shapeInfo.shape.map Nat.cast = resolveShape array.shapeInfo.length cshape := by
  have hprod : (resolveShape array.shapeInfo.length cshape).prod = array.shapeInfo.length := by
    by_contra hne
    rw [reshape_of_prod_ne hne] at h
    cases h
  refine ⟨hprod, ?_⟩
  have hcast : (¬ ∃ d ∈ resolveShape array.shapeInfo.length cshape, d < 0) →
      ((resolveShape array.shapeInfo.length cshape).map Int.toNat).map (Nat.cast : Nat → Int) =
        resolveShape array.shapeInfo.length cshape := by
    intro hnonneg
    rw [List.map_map]
    refine (List.map_congr_left fun d hd => ?_).trans (List.map_id _)
    exact Int.toNat_of_nonneg (not_lt.mp fun hlt => hnonneg ⟨d, hd, hlt⟩)
  have hshape : ∀ shape, (freshShapeInfo order shape).shape = shape := by
    intro shape
    rw [freshShapeInfo]
    split <;> simp
  simp only [NDArray.reshape, reshapei, if_neg (not_not.mpr hprod)] at h
  split at h
  · cases h
  · cases h
  · next hview =>
      cases h
      split at hview
      · cases hview
      · next hnonneg =>
          split at hview
          · cases hview
          · split at hview
            · next htarget =>
                cases hview
                unfold reshapeCF at htarget
                split at htarget
                · cases htarget
                · cases htarget
                · cases htarget
                  exact hcast hnonneg
            · cases hview
          · simp only [Except.ok.injEq] at hview
            obtain ⟨work, -, hcopy⟩ := Option.map_eq_some_iff.mp hview
            cases hcopy
  · next hcopied =>
      cases h
      split at hcopied
      · cases hcopied
      · next hnonneg =>
          split at hcopied
          · cases hcopied
          · split at hcopied <;> cases hcopied
          · simp only [Except.ok.injEq] at hcopied
            obtain ⟨work, -, hcopy⟩ := Option.map_eq_some_iff.mp hcopied
            cases hcopy
            rw [hshape]
            exact hcast hnonneg

/-- An inferred shape without extents below one answers the request. -/
theorem answers_of_prod {lengthOf : Nat} {shape : List Nat}
    (hshape : shape.map Nat.cast = resolveShape lengthOf cshape)
    (hprod : (resolveShape lengthOf cshape).prod = lengthOf)
    (hpos : ∀ d ∈ resolveShape lengthOf cshape, 1 ≤ d) : Answers lengthOf cshape shape where
  one_negative := by
    rcases resolveShape_cases lengthOf cshape with ⟨hnonneg, -⟩ |
      ⟨front, d, rest, rfl, hfront, hd, hresolved⟩
    · rw [List.filter_eq_nil_iff.mpr fun a ha => by simpa using hnonneg a ha]
      exact Nat.zero_le 1
    · rw [hresolved] at hpos
      have hrest : rest.filter (· < 0) = [] := by
        rw [List.filter_eq_nil_iff]
        intro a ha
        have hge := hpos a (List.mem_append_right _ (List.mem_cons_of_mem _ ha))
        simpa using by omega
      have htail := @tail_negatives front rest d hfront hd
      have hlength := congrArg List.length (htail.trans hrest)
      rw [List.length_tail, List.length_nil] at hlength
      omega
  kept := by
    have hkept : List.Forall₂ (fun request d : Int => 0 ≤ request → d = request) cshape
        (resolveShape lengthOf cshape) := by
      rcases resolveShape_cases lengthOf cshape with ⟨-, hresolved⟩ |
        ⟨front, d, rest, rfl, -, hd, hresolved⟩
      · rw [hresolved]
        exact List.forall₂_same.mpr fun _ _ _ => rfl
      · rw [hresolved]
        refine List.rel_append (List.forall₂_same.mpr fun _ _ _ => rfl) ?_
        exact .cons (fun hge => absurd hge (by omega)) (List.forall₂_same.mpr fun _ _ _ => rfl)
    rw [← hshape, List.forall₂_map_right_iff] at hkept
    exact hkept
  positive := by
    intro d hd
    have hge := hpos d (hshape ▸ List.mem_map_of_mem hd)
    exact_mod_cast hge
  prod_eq := by
    rw [← hshape, ← Nat.cast_list_prod] at hprod
    exact_mod_cast hprod

/-- The extents of an answer are at least one, and so are those that are inferred. -/
theorem not_slips_of_answers {lengthOf : Nat} {shape : List Nat}
    (h : Answers lengthOf cshape shape) : ¬ Slips lengthOf cshape := by
  rintro ⟨hprod, a, ha, hlt⟩
  have hlength : 0 < lengthOf := by
    rw [← h.prod_eq]
    exact List.prod_pos fun d hd => h.positive d hd
  have hcancels := (slips_pos_iff hlength).mp ⟨hprod, a, ha, hlt⟩
  have hone := h.one_negative
  refine hcancels.2.2.1 (List.eq_nil_of_length_eq_zero ?_)
  rw [List.length_tail]
  omega

/-- The routine validates its requests exactly if none slips through the test of the product. -/
theorem validates_iff_not_slips :
    Validates run order cshape array ↔ ¬ Slips array.shapeInfo.length cshape := by
  constructor
  · rintro ⟨-, hrefuses⟩ hslips
    obtain ⟨message, hthrown⟩ := hrefuses fun ⟨shape, hanswers⟩ =>
      not_slips_of_answers hanswers hslips
    have hne := @reshape_ne_thrown T run order cshape array hslips.1 message
    rw [NDArray.callReshapei] at hthrown
    split at hthrown
    · next failure hfailure =>
        simp only [Prod.mk.injEq, Except.error.injEq, and_true] at hthrown
        exact hne (hthrown ▸ hfailure)
    · simp at hthrown
  · intro hslips
    have hpos : (resolveShape array.shapeInfo.length cshape).prod = array.shapeInfo.length →
        ∀ d ∈ resolveShape array.shapeInfo.length cshape, 1 ≤ d := by
      intro hprod d hd
      exact not_lt.mp fun hlt => hslips ⟨hprod, d, hd, hlt⟩
    constructor
    · intro out hout
      rw [NDArray.callReshapei] at hout
      split at hout
      · simp at hout
      · next reshaped hreshaped =>
          simp only [Prod.mk.injEq, true_and] at hout
          subst hout
          obtain ⟨hprod, hshape⟩ := shape_of_reshape hreshaped
          exact answers_of_prod hshape hprod (hpos hprod)
    · intro hnone
      have hne : (resolveShape array.shapeInfo.length cshape).prod ≠ array.shapeInfo.length := by
        intro hprod
        refine hnone ⟨(resolveShape array.shapeInfo.length cshape).map Int.toNat,
          answers_of_prod ?_ hprod (hpos hprod)⟩
        rw [List.map_map]
        refine (List.map_congr_left fun d hd => ?_).trans (List.map_id _)
        have hge := hpos hprod d hd
        exact Int.toNat_of_nonneg (by omega)
      exact ⟨"Bad shape!", by rw [NDArray.callReshapei, reshape_of_prod_ne hne]⟩

end Calls

end Arrays
end LibND4J
