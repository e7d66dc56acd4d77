import LibND4J.Arrays.Permutations
import LibND4J.Arrays.Products
import LibND4J.Library.Tiling

/-!
# Contractions

`NDArrayFactory::tensorDot` moves the axes that are summed over to the end of the first array
and to the front of the second one, reshapes both to matrices and multiplies them.

Main results:

- Theorem `reshape_elements`: an array reshaped in C order keeps its elements in their order.
- Theorem `mmulHelper_new`: a product that gets an array of its own.
- Theorem `mmulHelper_of_thin`: where it gets none.
- Theorem `tensorDot_spec`: the elements of a contraction.
-/

namespace LibND4J
namespace Arrays

open Shape Strided Ops

/-! ## The routine -/

/-- The axes that are not summed over. -/
def keptAxes (rank : Nat) (axes : List Nat) : List Nat :=
  (List.range rank).filter (· ∉ axes)

/-- The extents of some axes. -/
def extentsOf (shape axes : List Nat) : List Nat :=
  axes.map (shape.getD · 0)

/-- The shape that the axes that are kept contribute. -/
def oldShape (shape axes : List Nat) : List Nat :=
  if keptAxes shape.length axes = [] then [1] else extentsOf shape (keptAxes shape.length axes)

/-- `NDArrayFactory::tensorDot` without an array for the result, for axes that count from the
front. -/
def tensorDot {T : Type} [CommRing T] [DecidableEq T] (run : Runtime T) (a b : NDArray T)
    (axes0 axes1 : List Nat) : Except Failure (NDArray T) :=
  let shapeA := a.shapeInfo.shape
  let shapeB := b.shapeInfo.shape
  if ∃ p ∈ axes0.zip axes1, shapeA.getD p.1 0 ≠ shapeB.getD p.2 0 then
    .error (.thrown "Size of the given axes at each dimension must be the same size.")
  else do
    let n2 := (extentsOf shapeA (axes0.take shapeA.length)).prod
    let n3 := (extentsOf shapeB (axes1.take shapeB.length)).prod
    let aT ← a.permute (keptAxes shapeA.length axes0 ++ axes0)
    let bT ← b.permute (axes1 ++ keptAxes shapeB.length axes1)
    let aT ← aT.reshape run 'c' [-1, n2]
    let bT ← bT.reshape run 'c' [n3, -1]
    let c ← aT.mmulHelper run bT none 1 0
    match c with
    | none => .error .undefined
    | some c => c.reshape run 'c' ((oldShape shapeA axes0 ++ oldShape shapeB axes1).map Nat.cast)

/-! ## Reshaping -/

section Reshaping

variable {T : Type} {array : NDArray T} {cshape : List Int} {shape : List Nat}

/-- An array reshaped in C order keeps its elements in their order, whether it is viewed or
copied. -/
theorem reshape_elements (run : Runtime T) (hpos : array.shapeInfo.Positive)
    (hews : array.shapeInfo.HonestEws) (hadm : Admissible array.shapeInfo.length cshape shape) :
    ∃ result, array.reshape run 'c' cshape = .ok result ∧ result.shapeInfo.shape = shape ∧
      result.shapeInfo.order = 'c' ∧ result.shapeInfo.HonestEws ∧
      ∀ k < array.shapeInfo.length,
        result.element (decode shape k) = array.element (decode array.shapeInfo.shape k) := by
  rcases reshape_cases hpos hadm.positive (decide ('c' = 'f')) with ⟨hyes, -⟩ | ⟨hno, -⟩
  · obtain ⟨target, htarget, hshape, horder, hews', hview⟩ :=
      reshape_view run hpos (Or.inl rfl) hadm hyes
    have htargetPos : target.Positive := by
      rw [ShapeInfo.Positive, hshape]
      exact hadm.positive
    refine ⟨_, htarget, hshape, horder, fun h => absurd (hews' ▸ h) (by decide), fun k hk => ?_⟩
    rw [← hshape]
    exact element_view hpos htargetPos hview hk
  · obtain ⟨buffer, hresult, helement⟩ := reshape_copy run hpos hews (Or.inl rfl) hadm hno
    exact ⟨_, hresult, shape_freshShapeInfo 'c' shape, order_freshShapeInfo (Or.inl rfl) shape,
      honestEws_freshShapeInfo 'c' hadm.positive, helement⟩

/-- The element of a permuted array. -/
theorem element_permute {p c : List Nat} (hp : p.Perm (List.range array.shapeInfo.rank))
    (hc : InBox array.shapeInfo.shape c) :
    (NDArray.mk (permuteShapeBuffer array.shapeInfo p) array.buffer).element
        (p.map (c.getD · 0)) = array.element c :=
  congrArg array.buffer (getOffset_permuteShapeBuffer hp hc 0)

theorem honestEws_permute (info : ShapeInfo) (p : List Nat) :
    (permuteShapeBuffer info p).HonestEws := by
  intro hslot
  exact absurd hslot (by
    show ¬ (0 : Int) < -1
    decide)

/-- A shape with another length is refused. -/
theorem reshape_of_other_length (run : Runtime T) (order : Char)
    (hprod : shape.prod ≠ array.shapeInfo.length) :
    array.reshape run order (shape.map Nat.cast) = .error (.thrown "Bad shape!") := by
  have hnone : (shape.map (Nat.cast : Nat → Int)).findIdx? (· < 0) = none := by
    rw [List.findIdx?_eq_none_iff]
    intro d hd
    obtain ⟨n, -, rfl⟩ := List.mem_map.mp hd
    simp
  have hne : ((shape.map (Nat.cast : Nat → Int)).prod) ≠ array.shapeInfo.length := by
    rw [← Nat.cast_list_prod]
    exact fun h => hprod (Int.ofNat_inj.mp h)
  rw [NDArray.reshape, reshapei, resolveShape, hnone]
  simp only
  rw [if_pos hne]

variable {s₁ s₂ : List Nat}

/-- The index of a coordinate in two halves, as one of a matrix. -/
theorem decode_halves {c₁ c₂ : List Nat} (h₁ : InBox s₁ c₁) (h₂ : InBox s₂ c₂) :
    decode [s₁.prod, s₂.prod] (encode (s₁ ++ s₂) (c₁ ++ c₂)) = [encode s₁ c₁, encode s₂ c₂] := by
  have hbox : InBox [s₁.prod, s₂.prod] [encode s₁ c₁, encode s₂ c₂] :=
    .cons (encode_lt h₁) (.cons (encode_lt h₂) .nil)
  have hindex : encode (s₁ ++ s₂) (c₁ ++ c₂) =
      encode [s₁.prod, s₂.prod] [encode s₁ c₁, encode s₂ c₂] := by
    rw [encode_append h₁.length_eq]
    simp [encode]
  rw [hindex, decode_encode hbox]

/-- An array as a matrix: its first axes number the rows, the other ones the columns. -/
theorem reshape_split (run : Runtime T) (hshape : array.shapeInfo.shape = s₁ ++ s₂)
    (hpos : array.shapeInfo.Positive) (hews : array.shapeInfo.HonestEws)
    (hadm : Admissible array.shapeInfo.length cshape [s₁.prod, s₂.prod]) :
    ∃ matrix, array.reshape run 'c' cshape = .ok matrix ∧ Factor matrix s₁.prod s₂.prod ∧
      ∀ c₁ c₂, InBox s₁ c₁ → InBox s₂ c₂ →
        matrix.element [encode s₁ c₁, encode s₂ c₂] = array.element (c₁ ++ c₂) := by
  obtain ⟨matrix, hmatrix, hnew, horder, hhonest, helement⟩ := reshape_elements run hpos hews hadm
  refine ⟨matrix, hmatrix, ⟨hnew, hadm.positive _ (by simp), hadm.positive _ (by simp), hhonest,
    Or.inl horder⟩, fun c₁ c₂ h₁ h₂ => ?_⟩
  have hbox : InBox array.shapeInfo.shape (c₁ ++ c₂) := hshape ▸ h₁.append h₂
  have hvalue := helement _ (encode_lt hbox)
  rwa [decode_encode hbox, hshape, decode_halves h₁ h₂] at hvalue

/-- A matrix as an array again. -/
theorem reshape_join (run : Runtime T) (hshape : array.shapeInfo.shape = [s₁.prod, s₂.prod])
    (hpos : ∀ d ∈ s₁ ++ s₂, 0 < d) (hews : array.shapeInfo.HonestEws) :
    ∃ result, array.reshape run 'c' ((s₁ ++ s₂).map Nat.cast) = .ok result ∧
      result.shapeInfo.shape = s₁ ++ s₂ ∧ result.shapeInfo.HonestEws ∧
      ∀ c₁ c₂, InBox s₁ c₁ → InBox s₂ c₂ →
        result.element (c₁ ++ c₂) = array.element [encode s₁ c₁, encode s₂ c₂] := by
  have hlength : (s₁ ++ s₂).prod = array.shapeInfo.length := by
    rw [length_of_shape hshape, List.prod_append]
  have hmatrixPos : array.shapeInfo.Positive := fun d hd =>
    Nat.pos_of_dvd_of_pos (List.dvd_prod hd) (by
      rw [← ShapeInfo.length, ← hlength]
      exact prod_pos_of_pos hpos)
  obtain ⟨result, hresult, hnew, -, hhonest, helement⟩ :=
    reshape_elements run hmatrixPos hews (admissible_of_nat hpos hlength)
  refine ⟨result, hresult, hnew, hhonest, fun c₁ c₂ h₁ h₂ => ?_⟩
  have hbox := h₁.append h₂
  have hvalue := helement _ (hlength ▸ encode_lt hbox)
  rwa [decode_encode hbox, hshape, decode_halves h₁ h₂] at hvalue

theorem pos_extentsOf {shape axes : List Nat} (hpos : ∀ d ∈ shape, 0 < d)
    (haxes : ∀ i ∈ axes, i < shape.length) : ∀ d ∈ extentsOf shape axes, 0 < d := by
  intro d hd
  obtain ⟨i, hi, rfl⟩ := List.mem_map.mp hd
  rw [List.getD_eq_getElem?_getD, List.getElem?_eq_getElem (haxes i hi), Option.getD_some]
  exact hpos _ (List.getElem_mem _)

/-- A permuted array as a matrix. -/
theorem reshape_permuted (run : Runtime T) {info : ShapeInfo} {buffer : Int → T} {p₁ p₂ : List Nat}
    {cshape : List Int} (hpos : info.Positive) (hperm : (p₁ ++ p₂).Perm (List.range info.shape.length))
    (hcshape : cshape = [-1, ((extentsOf info.shape p₂).prod : Int)] ∨
      cshape = [((extentsOf info.shape p₁).prod : Int), -1]) :
    ∃ matrix, (NDArray.mk (permuteShapeBuffer info (p₁ ++ p₂)) buffer).reshape run 'c' cshape =
        .ok matrix ∧
      Factor matrix (extentsOf info.shape p₁).prod (extentsOf info.shape p₂).prod ∧
      ∀ c₁ c₂, InBox (extentsOf info.shape p₁) c₁ → InBox (extentsOf info.shape p₂) c₂ →
        matrix.element [encode (extentsOf info.shape p₁) c₁, encode (extentsOf info.shape p₂) c₂] =
          (NDArray.mk (permuteShapeBuffer info (p₁ ++ p₂)) buffer).element (c₁ ++ c₂) := by
  have hshape : (permuteShapeBuffer info (p₁ ++ p₂)).shape =
      extentsOf info.shape p₁ ++ extentsOf info.shape p₂ := by
    rw [shape_permuteShapeBuffer hperm, List.map_append, extentsOf, extentsOf]
  have haxes : ∀ i ∈ p₁ ++ p₂, i < info.shape.length := fun i hi =>
    List.mem_range.mp (hperm.mem_iff.mp hi)
  have hpos₁ := prod_pos_of_pos (pos_extentsOf hpos fun i hi => haxes i (List.mem_append_left p₂ hi))
  have hpos₂ := prod_pos_of_pos (pos_extentsOf hpos fun i hi => haxes i (List.mem_append_right p₁ hi))
  have hnew : (permuteShapeBuffer info (p₁ ++ p₂)).Positive := by
    rw [ShapeInfo.Positive, hshape]
    intro d hd
    rcases List.mem_append.mp hd with hd | hd
    · exact pos_extentsOf hpos (fun i hi => haxes i (List.mem_append_left p₂ hi)) d hd
    · exact pos_extentsOf hpos (fun i hi => haxes i (List.mem_append_right p₁ hi)) d hd
  have hlength : (permuteShapeBuffer info (p₁ ++ p₂)).length =
      (extentsOf info.shape p₁).prod * (extentsOf info.shape p₂).prod := by
    rw [ShapeInfo.length, hshape, List.prod_append]
  have hadm : Admissible (permuteShapeBuffer info (p₁ ++ p₂)).length cshape
      [(extentsOf info.shape p₁).prod, (extentsOf info.shape p₂).prod] := by
    rw [hlength]
    rcases hcshape with rfl | rfl
    · exact admissible_rows hpos₁ hpos₂
    · exact admissible_columns hpos₁ hpos₂
  exact reshape_split run hshape hnew (honestEws_permute info _) hadm

end Reshaping

/-! ## Products with an array of their own -/

section NewProducts

variable {T : Type} [CommRing T] [DecidableEq T] {A B : NDArray T} {M K N : Nat}

/-- A product of two matrices, or of a row and a matrix, that gets an array of its own. -/
theorem mmulHelper_new (run : Runtime T) (hK : K ≠ 1) (hN : N ≠ 1) (hA : Factor A M K)
    (hB : Factor B K N) :
    ∃ c, A.mmulHelper run B none 1 0 = .ok (some c) ∧ c.shapeInfo.shape = [M, N] ∧
      c.shapeInfo.HonestEws ∧ ∀ r < M, ∀ s < N, c.element [r, s] = productAt A B K r s := by
  have hshape : (NDArray.ofMatrix (T := T) M N 'f').shapeInfo.shape = [M, N] := by
    rw [NDArray.ofMatrix, shape_withEws, shape_newShapeInfo]
  obtain ⟨buffer, hresult, hbuffer⟩ := gemmResult_spec run hA hB hshape
    (order_newShapeInfo (Or.inr rfl) [M, N]) 1 0
  refine ⟨⟨withEws (newShapeInfo 'f' [M, N]) 1, buffer⟩, ?_, hshape,
    honestEws_withEws (Or.inr rfl) _, fun r hr s hs => ?_⟩
  · rw [mmulHelper_gemm run hK hN hA.shape_eq hB.shape_eq, Option.getD_none, hresult]
    rfl
  · have hdense : Consecutive true (withEws (newShapeInfo 'f' [M, N]) 1) :=
      dense_newShapeInfo (Or.inr rfl) [M, N]
    have hread := @columnsInBuffer_of_dense T ⟨withEws (newShapeInfo 'f' [M, N]) 1, buffer⟩ M N
      hshape hdense r hr s hs
    have hentry := hbuffer r hr s hs
    rw [one_mul, zero_mul, add_zero] at hentry
    exact hread.symm.trans hentry

/-- A product that gets none: its inner extent is one, or it is a column. -/
theorem mmulHelper_of_thin (run : Runtime T) (hthin : K = 1 ∨ N = 1 ∧ M ≠ 1)
    (hA : A.shapeInfo.shape = [M, K]) (hB : B.shapeInfo.shape = [K, N]) :
    (∃ e, A.mmulHelper run B none 1 0 = .error e) ∨ A.mmulHelper run B none 1 0 = .ok none ∨
      M * N ≠ 1 ∧ ∃ c, A.mmulHelper run B none 1 0 = .ok (some c) ∧ c.shapeInfo.length = 1 := by
  unfold NDArray.mmulHelper
  rw [isVectorArray_of_shape hA, isVectorArray_of_shape hB, isMatrix_of_shape hA,
    isMatrix_of_shape hB, length_of_shape hA, length_of_shape hB]
  by_cases hone : K = 1
  · subst hone
    by_cases hvectors : M ≠ 1 ∧ N ≠ 1
    · obtain ⟨hM, hN⟩ := hvectors
      by_cases hlengths : M = N
      · -- the sum of the products of the entries is all that is left
        right; right
        have hprod : M * N ≠ 1 := fun h => hM (Nat.eq_one_of_mul_eq_one_right h)
        refine ⟨hprod, ⟨(NDArray.ofMatrix (T := T) 1 1 'c').shapeInfo, Function.update
          (NDArray.ofMatrix (T := T) 1 1 'c').buffer 0 (Blas.dot A.buffer B.buffer M)⟩, ?_, ?_⟩
        · simp [hN, hlengths]
        · rw [NDArray.ofMatrix, ShapeInfo.length, shape_withEws, shape_newShapeInfo]
          rfl
      · left
        refine ⟨.thrown "A length != B length", ?_⟩
        simp [hM, hN, hlengths]
    · right; left
      have hnot : (decide ((M = 1 ∨ 1 = 1) ∧ ¬ (M = 1 ∧ 1 = 1)) &&
          decide ((1 = 1 ∨ N = 1) ∧ ¬ (1 = 1 ∧ N = 1))) = false := by
        simp
        tauto
      rw [hnot]
      simp
  · obtain ⟨rfl, hM⟩ := hthin.resolve_left hone
    left
    refine ⟨.undefined, ?_⟩
    simp [hone, hM, rows, columns, hA, hB]
    rfl

end NewProducts

/-! ## Contractions -/

section Contractions

variable {T : Type} [CommRing T] [DecidableEq T] {a b : NDArray T} {axes0 axes1 : List Nat}

/-- The axes of a call are axes of the arrays, some are left, and the ones that are summed over
have equal extents. -/
structure Contracts (a b : ShapeInfo) (axes0 axes1 : List Nat) : Prop where
  posA : a.Positive
  posB : b.Positive
  permA : (keptAxes a.shape.length axes0 ++ axes0).Perm (List.range a.shape.length)
  permB : (axes1 ++ keptAxes b.shape.length axes1).Perm (List.range b.shape.length)
  keptA : keptAxes a.shape.length axes0 ≠ []
  keptB : keptAxes b.shape.length axes1 ≠ []
  extentsOf_eq : extentsOf a.shape axes0 = extentsOf b.shape axes1

/-- The axes of a call are axes of the arrays, and the ones that are summed over have equal
extents. -/
structure Aligned (a b : ShapeInfo) (axes0 axes1 : List Nat) : Prop where
  posA : a.Positive
  posB : b.Positive
  permA : (keptAxes a.shape.length axes0 ++ axes0).Perm (List.range a.shape.length)
  permB : (axes1 ++ keptAxes b.shape.length axes1).Perm (List.range b.shape.length)
  extentsOf_eq : extentsOf a.shape axes0 = extentsOf b.shape axes1

theorem Contracts.aligned {a b : ShapeInfo} (h : Contracts a b axes0 axes1) :
    Aligned a b axes0 axes1 :=
  ⟨h.posA, h.posB, h.permA, h.permB, h.extentsOf_eq⟩

theorem oldShape_eq {shape axes : List Nat} (h : keptAxes shape.length axes ≠ []) :
    oldShape shape axes = extentsOf shape (keptAxes shape.length axes) :=
  if_neg h

theorem prod_oldShape (shape axes : List Nat) :
    (oldShape shape axes).prod = (extentsOf shape (keptAxes shape.length axes)).prod := by
  rw [oldShape]
  by_cases hnone : keptAxes shape.length axes = []
  · rw [if_pos hnone, hnone]
    rfl
  · rw [if_neg hnone]

/-- The matrices that are multiplied are the permuted arrays, reshaped. -/
theorem tensorDot_matrices (run : Runtime T)
    (h : Aligned a.shapeInfo b.shapeInfo axes0 axes1) :
    ∃ A B, tensorDot run a b axes0 axes1 = (do
        let c ← A.mmulHelper run B none 1 0
        match c with
        | none => .error .undefined
        | some c =>
            c.reshape run 'c' ((oldShape a.shapeInfo.shape axes0 ++
              oldShape b.shapeInfo.shape axes1).map Nat.cast)) ∧
      (NDArray.mk (permuteShapeBuffer a.shapeInfo
          (keptAxes a.shapeInfo.shape.length axes0 ++ axes0)) a.buffer).reshape run 'c'
        [-1, (extentsOf a.shapeInfo.shape axes0).prod] = .ok A ∧
      (NDArray.mk (permuteShapeBuffer b.shapeInfo
          (axes1 ++ keptAxes b.shapeInfo.shape.length axes1)) b.buffer).reshape run 'c'
        [(extentsOf a.shapeInfo.shape axes0).prod, -1] = .ok B ∧
      Factor A (extentsOf a.shapeInfo.shape (keptAxes a.shapeInfo.shape.length axes0)).prod
        (extentsOf a.shapeInfo.shape axes0).prod ∧
      Factor B (extentsOf a.shapeInfo.shape axes0).prod
        (extentsOf b.shapeInfo.shape (keptAxes b.shapeInfo.shape.length axes1)).prod ∧
      (∀ c k, InBox (extentsOf a.shapeInfo.shape (keptAxes a.shapeInfo.shape.length axes0)) c →
        InBox (extentsOf a.shapeInfo.shape axes0) k →
          A.element [encode (extentsOf a.shapeInfo.shape
                (keptAxes a.shapeInfo.shape.length axes0)) c,
              encode (extentsOf a.shapeInfo.shape axes0) k] =
            (NDArray.mk (permuteShapeBuffer a.shapeInfo
              (keptAxes a.shapeInfo.shape.length axes0 ++ axes0)) a.buffer).element (c ++ k)) ∧
      ∀ k c, InBox (extentsOf a.shapeInfo.shape axes0) k →
        InBox (extentsOf b.shapeInfo.shape (keptAxes b.shapeInfo.shape.length axes1)) c →
          B.element [encode (extentsOf a.shapeInfo.shape axes0) k,
              encode (extentsOf b.shapeInfo.shape
                (keptAxes b.shapeInfo.shape.length axes1)) c] =
            (NDArray.mk (permuteShapeBuffer b.shapeInfo
              (axes1 ++ keptAxes b.shapeInfo.shape.length axes1)) b.buffer).element (k ++ c) := by
  have hnone : ¬ ∃ p ∈ axes0.zip axes1,
      a.shapeInfo.shape.getD p.1 0 ≠ b.shapeInfo.shape.getD p.2 0 := by
    rintro ⟨p, hp, hne⟩
    obtain ⟨i, hi, rfl⟩ := List.mem_iff_getElem.mp hp
    rw [List.length_zip, lt_min_iff] at hi
    have hsame := congrArg (·[i]?) h.extentsOf_eq
    simp only [extentsOf, List.getElem?_map, List.getElem?_eq_getElem hi.1,
      List.getElem?_eq_getElem hi.2, Option.map_some, Option.some.injEq] at hsame
    exact hne (by simpa using hsame)
  have hlengthA : axes0.length ≤ a.shapeInfo.shape.length := by
    have hlength := h.permA.length_eq
    rw [List.length_append, List.length_range] at hlength
    omega
  have hlengthB : axes1.length ≤ b.shapeInfo.shape.length := by
    have hlength := h.permB.length_eq
    rw [List.length_append, List.length_range] at hlength
    omega
  obtain ⟨A, hA, hfactorA, helementA⟩ := @reshape_permuted T run a.shapeInfo a.buffer _ _ _ h.posA
    h.permA (Or.inl rfl)
  obtain ⟨B, hB, hfactorB, helementB⟩ := @reshape_permuted T run b.shapeInfo b.buffer _ _ _ h.posB
    h.permB (Or.inr rfl)
  rw [← h.extentsOf_eq] at hB hfactorB helementB
  refine ⟨A, B, ?_, hA, hB, hfactorA, hfactorB, helementA, helementB⟩
  have hpermuteA := @permute_eq T a _ (h.permA.length_eq.trans List.length_range)
  have hpermuteB := @permute_eq T b _ (h.permB.length_eq.trans List.length_range)
  unfold tensorDot
  simp only [if_neg hnone, List.take_of_length_le hlengthA, List.take_of_length_le hlengthB,
    ← h.extentsOf_eq, hpermuteA, hpermuteB]
  show ((NDArray.mk (permuteShapeBuffer a.shapeInfo
    (keptAxes a.shapeInfo.shape.length axes0 ++ axes0)) a.buffer).reshape run 'c' _ >>=
      fun aT => _) = _
  rw [hA]
  show ((NDArray.mk (permuteShapeBuffer b.shapeInfo
    (axes1 ++ keptAxes b.shapeInfo.shape.length axes1)) b.buffer).reshape run 'c' _ >>=
      fun bT => _) = _
  rw [hB]
  rfl

/-- A contraction over an extent of one, or to a column of several rows, fails. -/
theorem tensorDot_fails (run : Runtime T) (h : Aligned a.shapeInfo b.shapeInfo axes0 axes1)
    (hthin : (extentsOf a.shapeInfo.shape axes0).prod = 1 ∨
      (oldShape b.shapeInfo.shape axes1).prod = 1 ∧ (oldShape a.shapeInfo.shape axes0).prod ≠ 1) :
    ∃ e, tensorDot run a b axes0 axes1 = .error e := by
  obtain ⟨A, B, hrun, -, -, hfactorA, hfactorB, -⟩ := tensorDot_matrices run h
  rw [← prod_oldShape] at hfactorA hfactorB
  rw [hrun]
  rcases mmulHelper_of_thin run hthin hfactorA.shape_eq hfactorB.shape_eq with
    ⟨e, he⟩ | hnone | ⟨hlength, c, hc, hone⟩
  · exact ⟨e, by rw [he]; rfl⟩
  · exact ⟨.undefined, by rw [hnone]; rfl⟩
  · refine ⟨.thrown "Bad shape!", ?_⟩
    rw [hc]
    refine reshape_of_other_length run 'c' ?_
    rw [List.prod_append, hone]
    exact hlength

variable (run : Runtime T) (h : Contracts a.shapeInfo b.shapeInfo axes0 axes1)

include h

/-- The matrices that are multiplied. -/
theorem tensorDot_eq :
    ∃ A B, tensorDot run a b axes0 axes1 = (do
        let c ← A.mmulHelper run B none 1 0
        match c with
        | none => .error .undefined
        | some c =>
            c.reshape run 'c' ((oldShape a.shapeInfo.shape axes0 ++
              oldShape b.shapeInfo.shape axes1).map Nat.cast)) ∧
      Factor A (oldShape a.shapeInfo.shape axes0).prod (extentsOf a.shapeInfo.shape axes0).prod ∧
      Factor B (extentsOf a.shapeInfo.shape axes0).prod (oldShape b.shapeInfo.shape axes1).prod ∧
      (∀ c k, InBox (oldShape a.shapeInfo.shape axes0) c →
        InBox (extentsOf a.shapeInfo.shape axes0) k →
          A.element [encode (oldShape a.shapeInfo.shape axes0) c,
              encode (extentsOf a.shapeInfo.shape axes0) k] =
            (NDArray.mk (permuteShapeBuffer a.shapeInfo
              (keptAxes a.shapeInfo.shape.length axes0 ++ axes0)) a.buffer).element (c ++ k)) ∧
      ∀ k c, InBox (extentsOf a.shapeInfo.shape axes0) k →
        InBox (oldShape b.shapeInfo.shape axes1) c →
          B.element [encode (extentsOf a.shapeInfo.shape axes0) k,
              encode (oldShape b.shapeInfo.shape axes1) c] =
            (NDArray.mk (permuteShapeBuffer b.shapeInfo
              (axes1 ++ keptAxes b.shapeInfo.shape.length axes1)) b.buffer).element (k ++ c) := by
  rw [oldShape_eq h.keptA, oldShape_eq h.keptB]
  obtain ⟨A, B, hrun, -, -, hrest⟩ := tensorDot_matrices run h.aligned
  rw [oldShape_eq h.keptA, oldShape_eq h.keptB] at hrun
  exact ⟨A, B, hrun, hrest⟩

/-- The elements of a contraction. -/
theorem tensorDot_spec (hK : (extentsOf a.shapeInfo.shape axes0).prod ≠ 1)
    (hN : (oldShape b.shapeInfo.shape axes1).prod ≠ 1) :
    ∃ c, tensorDot run a b axes0 axes1 = .ok c ∧
      c.shapeInfo.shape = oldShape a.shapeInfo.shape axes0 ++ oldShape b.shapeInfo.shape axes1 ∧
      c.shapeInfo.HonestEws ∧
      ∀ cA cB, InBox (oldShape a.shapeInfo.shape axes0) cA →
        InBox (oldShape b.shapeInfo.shape axes1) cB →
          c.element (cA ++ cB) = ∑ k ∈ Finset.range (extentsOf a.shapeInfo.shape axes0).prod,
            (NDArray.mk (permuteShapeBuffer a.shapeInfo
                (keptAxes a.shapeInfo.shape.length axes0 ++ axes0)) a.buffer).element
                  (cA ++ decode (extentsOf a.shapeInfo.shape axes0) k) *
              (NDArray.mk (permuteShapeBuffer b.shapeInfo
                (axes1 ++ keptAxes b.shapeInfo.shape.length axes1)) b.buffer).element
                  (decode (extentsOf a.shapeInfo.shape axes0) k ++ cB) := by
  obtain ⟨A, B, hrun, hfactorA, hfactorB, helementA, helementB⟩ := tensorDot_eq run h
  obtain ⟨product, hproduct, hshape, hews, helement⟩ := mmulHelper_new run hK hN hfactorA hfactorB
  have haxesA : ∀ i ∈ keptAxes a.shapeInfo.shape.length axes0, i < a.shapeInfo.shape.length :=
    fun i hi => List.mem_range.mp (List.mem_of_mem_filter hi)
  have haxesB : ∀ i ∈ keptAxes b.shapeInfo.shape.length axes1, i < b.shapeInfo.shape.length :=
    fun i hi => List.mem_range.mp (List.mem_of_mem_filter hi)
  have hsummed : ∀ d ∈ extentsOf a.shapeInfo.shape axes0, 0 < d :=
    pos_extentsOf h.posA fun i hi => List.mem_range.mp (h.permA.mem_iff.mp (List.mem_append_right _ hi))
  have hpos : ∀ d ∈ oldShape a.shapeInfo.shape axes0 ++ oldShape b.shapeInfo.shape axes1, 0 < d := by
    rw [oldShape_eq h.keptA, oldShape_eq h.keptB]
    intro d hd
    rcases List.mem_append.mp hd with hd | hd
    · exact pos_extentsOf h.posA haxesA d hd
    · exact pos_extentsOf h.posB haxesB d hd
  obtain ⟨c, hc, hcShape, hcEws, hcElement⟩ := reshape_join run hshape hpos hews
  refine ⟨c, ?_, hcShape, hcEws, fun cA cB hA hB => ?_⟩
  · rw [hrun, hproduct]
    exact hc
  · rw [hcElement cA cB hA hB, helement _ (encode_lt hA) _ (encode_lt hB), productAt]
    refine Finset.sum_congr rfl fun k hk => ?_
    have hk := Finset.mem_range.mp hk
    have hbox := inBox_decode hsummed hk
    have hentryA := helementA cA _ hA hbox
    have hentryB := helementB _ cB hbox hB
    rw [encode_decode hsummed hk] at hentryA hentryB
    rw [hentryA, hentryB]

/-- A contraction over an extent of one, or with a single column, fails. -/
theorem tensorDot_of_thin (hthin : (extentsOf a.shapeInfo.shape axes0).prod = 1 ∨
      (oldShape b.shapeInfo.shape axes1).prod = 1 ∧ (oldShape a.shapeInfo.shape axes0).prod ≠ 1) :
    ∃ e, tensorDot run a b axes0 axes1 = .error e :=
  tensorDot_fails run h.aligned hthin

end Contractions

end Arrays
end LibND4J
