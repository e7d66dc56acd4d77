import LibND4J.Arrays.InPlace

/-!
# The gradient of softmax

`softmax_bp` multiplies the softmax of its input by the gradient that comes in, sums the
products of each row, and broadcasts the sums along the columns with another multiplication.

Main results:

- Theorem `softmaxBp_spec`: what a square array becomes.
- Theorem `softmaxBp_of_not_square`: the sums do not fit the rows of any other array.
- Theorem `computesGradient_iff`: when the result is the gradient of softmax.
-/

namespace LibND4J
namespace Ops

open Arrays Loops Shape Strided

/-! ## The operation -/

section Operation

variable {T : Type} [CommRing T]

/-- `softmax_bp`, for the transform that stores the softmax of an array in another one. -/
def softmax_bp (run : Runtime T) (softMax : NDArray T → NDArray T → NDArray T)
    (input epsInput z : NDArray T) : Except Failure (NDArray T) := do
  let z ← (softMax input z).pairwise (fun d1 d2 => d1 * d2) run epsInput
  let sum ← sumAlong run z [-1]
  if hrank : z.shapeInfo.rank = 2 then
    z.broadcastAlong (fun d1 d2 => d1 * d2) run sum (columnsAxis hrank)
  else
    -- only matrices are looked at here
    .error .undefined

end Operation

/-! ## What is asked for -/

/-- A matrix as the library makes it or cuts it out of another array. -/
structure MatrixLayout (info : ShapeInfo) (m n : Nat) : Prop where
  shape_eq : info.shape = [m, n]
  honest : info.HonestEws
  cellsApart : CellsApart info

/-- The rows of a matrix are positive and add up to one. -/
structure RowsOfOne {T : Type} [CommRing T] [PartialOrder T] (m n : Nat) (s : Nat → Nat → T) :
    Prop where
  positive : ∀ i < m, ∀ j < n, 0 < s i j
  sum_eq : ∀ i < m, ∑ j ∈ Finset.range n, s i j = 1

section Wanted

variable {T : Type} [CommRing T]

/-- The product of a row of the softmax and the row of the gradient that comes in. -/
def rowProduct (n : Nat) (s : Nat → Nat → T) (epsInput : NDArray T) (i : Nat) : T :=
  ∑ k ∈ Finset.range n, s i k * epsInput.element [i, k]

/-- The operation returns the product of the gradient that comes in with the derivative of
softmax. -/
def ComputesGradient (run : Runtime T) (softMax : NDArray T → NDArray T → NDArray T)
    (input epsInput z : NDArray T) (m n : Nat) (s : Nat → Nat → T) : Prop :=
  ∃ result, softmax_bp run softMax input epsInput z = .ok result ∧ ∀ i < m, ∀ j < n,
    result.element [i, j] = s i j * (epsInput.element [i, j] - rowProduct n s epsInput i)

/-- The array is square, and the gradient that comes in is the one that makes up for the other
operation and the other axis. -/
def MakesUp (m n : Nat) (s : Nat → Nat → T) (epsInput : NDArray T) : Prop :=
  m = n ∧ ∀ i < m, ∀ j < n,
    epsInput.element [i, j] * (1 - rowProduct n s epsInput j) = rowProduct n s epsInput i

end Wanted

/-! ## What is computed -/

section Computed

variable {T : Type} [CommRing T] {run : Runtime T} {softMax : NDArray T → NDArray T → NDArray T}
  {input epsInput z : NDArray T} {m n : Nat} {s : Nat → Nat → T}

/-- The transform stores the softmax in an array of the layout of `z`. -/
structure StoresSoftmax (softMax : NDArray T → NDArray T → NDArray T) (input z : NDArray T)
    (m n : Nat) (s : Nat → Nat → T) : Prop where
  shapeInfo_eq : (softMax input z).shapeInfo = z.shapeInfo
  element_eq : ∀ i < m, ∀ j < n, (softMax input z).element [i, j] = s i j

/-- The products of the softmax with the gradient that comes in, and their sums. -/
theorem exists_products (hsoft : StoresSoftmax softMax input z m n s) (hm : 0 < m) (hn : 0 < n)
    (hz : MatrixLayout z.shapeInfo m n) (heps : MatrixLayout epsInput.shapeInfo m n)
    (hspan : SpanFits run.settings (m * n)) :
    ∃ products sum, (softMax input z).pairwise (fun d1 d2 => d1 * d2) run epsInput = .ok products ∧
      products.shapeInfo = z.shapeInfo ∧
      (∀ i < m, ∀ j < n, products.element [i, j] = s i j * epsInput.element [i, j]) ∧
      sumAlong run products [-1] = .ok sum ∧ sum.shapeInfo.shape = [m, 1] ∧
      sum.shapeInfo.HonestEws ∧
      ∀ i < m, sum.element (decode [m, 1] i) = rowProduct n s epsInput i := by
  have hinfo := hsoft.shapeInfo_eq
  have hpos : z.shapeInfo.Positive := by
    rw [ShapeInfo.Positive, hz.shape_eq]
    simp [hm, hn]
  have hlength : z.shapeInfo.length = m * n := length_of_shape hz.shape_eq
  obtain ⟨buffer, hproducts, hvalue⟩ := pairwise_elements
    (fun d1 d2 => d1 * d2) run (softMax input z) epsInput (hinfo ▸ hpos) (hinfo ▸ hz.honest) (hinfo ▸ hz.cellsApart)
    heps.honest (by rw [hinfo, hz.shape_eq, heps.shape_eq])
    (by rw [hinfo, hz.shape_eq]; exact List.cons_ne_nil _ _) (by rw [hinfo, hlength]; exact hspan)
  have helement : ∀ i < m, ∀ j < n,
      (NDArray.mk (softMax input z).shapeInfo buffer).element [i, j] =
        s i j * epsInput.element [i, j] := by
    intro i hi j hj
    have hbox : InBox (softMax input z).shapeInfo.shape [i, j] := by
      rw [hinfo, hz.shape_eq]
      exact .cons hi (.cons hj .nil)
    rw [hvalue _ hbox, hsoft.element_eq i hi j hj]
  obtain ⟨sum, hsum, hshape, hews, hsums⟩ := sumAlong_columns run
    ⟨(softMax input z).shapeInfo, buffer⟩ (by rw [hinfo]; exact hz.shape_eq) hm hn
    (hinfo ▸ hz.honest)
  refine ⟨_, sum, hproducts, hinfo, helement, hsum, hshape, hews, fun i hi => ?_⟩
  rw [hsums i hi, rowProduct]
  exact Finset.sum_congr rfl fun j hj => helement i hi j (Finset.mem_range.mp hj)

theorem isLine_column (m : Nat) : IsLine [m, 1] := by
  by_cases hm : m = 1
  · simp [IsLine, hm]
  · simp [IsLine, hm]

/-- What a square array becomes. -/
theorem softmaxBp_spec (hsoft : StoresSoftmax softMax input z n n s) (hn : 0 < n)
    (hz : MatrixLayout z.shapeInfo n n) (heps : MatrixLayout epsInput.shapeInfo n n)
    (hspan : SpanFits run.settings (n * n)) :
    ∃ result, softmax_bp run softMax input epsInput z = .ok result ∧ ∀ i < n, ∀ j < n,
      result.element [i, j] = s i j * epsInput.element [i, j] * rowProduct n s epsInput j := by
  obtain ⟨products, sum, hproducts, hinfo, helement, hsum, hshape, hews, hsums⟩ :=
    exists_products hsoft hn hn hz heps hspan
  have hrank : products.shapeInfo.rank = 2 := by
    rw [hinfo, ShapeInfo.rank, hz.shape_eq]
    rfl
  have hpos : sum.shapeInfo.Positive := by
    rw [ShapeInfo.Positive, hshape]
    simp [hn]
  obtain ⟨buffer, hresult, hvalue⟩ := broadcastColumns_spec products sum
    (fun d1 d2 => d1 * d2) run (by rw [hinfo]; exact hz.shape_eq) hn hn (hinfo ▸ hz.honest)
    (hinfo ▸ hz.cellsApart) hpos (hshape ▸ isLine_column n)
    (by rw [ShapeInfo.length, hshape]; simp) hews hrank
  refine ⟨⟨products.shapeInfo, buffer⟩, ?_, fun i hi j hj => ?_⟩
  · rw [softmax_bp, hproducts]
    simp only [bind, Except.bind, hsum, dif_pos hrank]
    exact hresult
  · rw [hvalue i hi j hj, helement i hi j hj, hshape, hsums j hj]

/-- The sums do not fit the rows of any other array. -/
theorem softmaxBp_of_not_square (hsoft : StoresSoftmax softMax input z m n s) (hm : 0 < m)
    (hn : 0 < n) (hz : MatrixLayout z.shapeInfo m n) (heps : MatrixLayout epsInput.shapeInfo m n)
    (hspan : SpanFits run.settings (m * n)) (hmn : m ≠ n) :
    softmax_bp run softMax input epsInput z = .error (.thrown "Tad length mismatch") := by
  obtain ⟨products, sum, hproducts, hinfo, -, hsum, hshape, -, -⟩ :=
    exists_products hsoft hm hn hz heps hspan
  have hrank : products.shapeInfo.rank = 2 := by
    rw [hinfo, ShapeInfo.rank, hz.shape_eq]
    rfl
  rw [softmax_bp, hproducts]
  simp only [bind, Except.bind, hsum, dif_pos hrank]
  refine broadcastColumns_of_length _ run (by rw [hinfo]; exact hz.shape_eq) hrank ?_
  rw [ShapeInfo.length, hshape]
  simpa using hmn

end Computed

/-! ## When the gradient is right -/

section Right

variable {T : Type} [CommRing T] [PartialOrder T] [IsDomain T] {run : Runtime T}
  {softMax : NDArray T → NDArray T → NDArray T} {input epsInput z : NDArray T} {m n : Nat}
  {s : Nat → Nat → T}

/-- The result is the gradient of softmax exactly for a square array and a gradient that makes up
for the other operation and the other axis. -/
theorem computesGradient_iff (hsoft : StoresSoftmax softMax input z m n s) (hrows : RowsOfOne m n s)
    (hm : 0 < m) (hn : 0 < n) (hz : MatrixLayout z.shapeInfo m n)
    (heps : MatrixLayout epsInput.shapeInfo m n) (hspan : SpanFits run.settings (m * n)) :
    ComputesGradient run softMax input epsInput z m n s ↔ MakesUp m n s epsInput := by
  by_cases hmn : m = n
  · subst hmn
    obtain ⟨result, hresult, helement⟩ := softmaxBp_spec hsoft hn hz heps hspan
    have hcell : ∀ i < m, ∀ j < m,
        (result.element [i, j] = s i j * (epsInput.element [i, j] - rowProduct m s epsInput i) ↔
          epsInput.element [i, j] * (1 - rowProduct m s epsInput j) =
            rowProduct m s epsInput i) := by
      intro i hi j hj
      rw [helement i hi j hj, mul_assoc, mul_right_inj' (hrows.positive i hi j hj).ne', mul_sub,
        mul_one, eq_sub_iff_add_eq, sub_eq_iff_eq_add', add_comm, eq_comm]
    constructor
    · rintro ⟨result', hresult', hright⟩
      rw [hresult, Except.ok.injEq] at hresult'
      subst hresult'
      exact ⟨rfl, fun i hi j hj => (hcell i hi j hj).mp (hright i hi j hj)⟩
    · rintro ⟨-, hmakes⟩
      exact ⟨result, hresult, fun i hi j hj => (hcell i hi j hj).mpr (hmakes i hi j hj)⟩
  · refine iff_of_false ?_ fun h => hmn h.1
    rintro ⟨result, hresult, -⟩
    rw [softmaxBp_of_not_square hsoft hm hn hz heps hspan hmn] at hresult
    cases hresult

end Right

/-! ## A softmax of zeros -/

/-- The softmax of two columns of zeros. -/
def halves (_ z : NDArray Rat) : NDArray Rat :=
  ⟨z.shapeInfo, fun _ => 1 / 2⟩

/-- A square with one value. -/
def constantSquare (v : Rat) : NDArray Rat :=
  ⟨newShapeInfo 'c' [2, 2], fun _ => v⟩

theorem matrixLayout_constantSquare (v : Rat) : MatrixLayout (constantSquare v).shapeInfo 2 2 where
  shape_eq := shape_newShapeInfo 'c' [2, 2]
  honest := honestEws_newShapeInfo (Or.inl rfl) (by decide)
  cellsApart := cellsApart_newShapeInfo (Or.inl rfl) (by decide)

theorem element_constantSquare (v : Rat) (c : List Nat) : (constantSquare v).element c = v :=
  rfl

theorem storesSoftmax_halves :
    StoresSoftmax halves (constantSquare 0) (constantSquare 0) 2 2 fun _ _ => 1 / 2 where
  shapeInfo_eq := rfl
  element_eq := fun _ _ _ _ => rfl

theorem rowProduct_constantSquare (v : Rat) (i : Nat) :
    rowProduct 2 (fun _ _ => 1 / 2) (constantSquare v) i = v := by
  simp only [rowProduct, element_constantSquare, Finset.sum_range_succ, Finset.sum_range_zero]
  ring

theorem computesGradient_iff_zeros :
    ComputesGradient (oneThread fun _ => 0) halves (constantSquare 0) (constantSquare 0)
      (constantSquare 0) 2 2 fun _ _ => 1 / 2 := by
  have hrows : RowsOfOne (T := Rat) 2 2 fun _ _ => 1 / 2 :=
    ⟨fun _ _ _ _ => by norm_num, fun _ _ => by norm_num [Finset.sum_range_succ]⟩
  refine (computesGradient_iff storesSoftmax_halves hrows Nat.two_pos Nat.two_pos
    (matrixLayout_constantSquare 0) (matrixLayout_constantSquare 0) (by decide)).mpr
      ⟨rfl, fun i _ j _ => ?_⟩
  rw [rowProduct_constantSquare, rowProduct_constantSquare, element_constantSquare, zero_mul]

/-- A gradient of ones should become zero, but is kept. -/
theorem not_computesGradient_always :
    ¬ ∀ (run : Runtime Rat) (softMax : NDArray Rat → NDArray Rat → NDArray Rat)
      (input epsInput z : NDArray Rat) (m n : Nat) (s : Nat → Nat → Rat),
      StoresSoftmax softMax input z m n s → RowsOfOne m n s → 0 < m → 0 < n →
      MatrixLayout z.shapeInfo m n → MatrixLayout epsInput.shapeInfo m n →
      SpanFits run.settings (m * n) → ComputesGradient run softMax input epsInput z m n s := by
  intro h
  have hrows : RowsOfOne (T := Rat) 2 2 fun _ _ => 1 / 2 :=
    ⟨fun _ _ _ _ => by norm_num, fun _ _ => by norm_num [Finset.sum_range_succ]⟩
  have hspan : SpanFits (oneThread fun _ => (0 : Rat)).settings (2 * 2) := by decide
  obtain ⟨result, hresult, hright⟩ := h (oneThread fun _ => 0) halves (constantSquare 0)
    (constantSquare 1) (constantSquare 0) 2 2 (fun _ _ => 1 / 2) storesSoftmax_halves hrows
    Nat.two_pos Nat.two_pos (matrixLayout_constantSquare 0) (matrixLayout_constantSquare 1) hspan
  obtain ⟨result', hresult', helement⟩ := @softmaxBp_spec Rat _ (oneThread fun _ => 0) halves
    (constantSquare 0) (constantSquare 1) (constantSquare 0) 2 _ storesSoftmax_halves Nat.two_pos (matrixLayout_constantSquare 0)
    (matrixLayout_constantSquare 1) hspan
  rw [hresult, Except.ok.injEq] at hresult'
  subst hresult'
  have hboth := (helement 0 Nat.two_pos 0 Nat.two_pos).symm.trans
    (hright 0 Nat.two_pos 0 Nat.two_pos)
  rw [rowProduct_constantSquare, element_constantSquare] at hboth
  norm_num at hboth

end Ops
end LibND4J
