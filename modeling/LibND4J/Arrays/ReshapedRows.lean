import LibND4J.Arrays.Cells
import LibND4J.Arrays.Tilei

/-!
# Arrays as rows

An array is reshaped to a matrix with its last axis for the columns.  In both orders a row holds the
elements with the same leading indices.  A view has the cells of the array; a copy is laid out
anew.

Main results:

- Theorem `indexOf_concat`: the number of an element is that of its row and its column.
- Theorem `reshapeOn_rows`: where the elements lie in the rows of an array.
-/

namespace LibND4J
namespace Arrays

open Strided Shape

/-- `NDArray::reshape`, and whether the new array is on the buffer of the old one. -/
def NDArray.reshapeOn {T : Type} (run : Runtime T) (order : Char) (cshape : List Int)
    (array : NDArray T) : Except Failure (Bool × NDArray T) :=
  match reshapei run.settings order cshape array.shapeInfo with
  | .error message => .error (.thrown message)
  | .ok none => .error .undefined
  | .ok (some (.view shapeInfoNew)) => .ok (true, ⟨shapeInfoNew, array.buffer⟩)
  | .ok (some (.copy shapeInfoNew work)) =>
      .ok (false, ⟨shapeInfoNew, runCopies array.buffer (run.schedule work) run.fresh⟩)

/-- A new array is on the buffer exactly if the array can be viewed. -/
theorem reshapeOn_eq {T : Type} {run : Runtime T} {order : Char} {cshape : List Int}
    {array out : NDArray T} {shape : List Nat}
    (hadm : Admissible array.shapeInfo.length cshape shape)
    (hout : array.reshape run order cshape = .ok out) :
    array.reshapeOn run order cshape =
      .ok (decide (canReshape array.shapeInfo shape (order = 'f') = .yes ()), out) := by
  unfold NDArray.reshape at hout
  unfold NDArray.reshapeOn
  rw [reshapei_eq run.settings hadm] at hout ⊢
  cases hcan : canReshape array.shapeInfo shape (decide (order = 'f')) with
  | outOfBounds =>
      rw [hcan] at hout
      cases hout
  | yes =>
      cases hview : reshapeCF array.shapeInfo shape (decide (order = 'f')) with
      | outOfBounds =>
          rw [hcan, hview] at hout
          cases hout
      | no =>
          rw [hcan, hview] at hout
          cases hout
      | yes shapeInfoNew =>
          rw [hcan, hview] at hout
          cases hout
          rfl
  | no =>
      cases hwork : Loops.exec array.shapeInfo.length run.settings (freshShapeInfo order shape)
          array.shapeInfo (freshShapeInfo order shape) 0 0 0 with
      | none =>
          rw [hcan, hwork] at hout
          cases hout
      | some work =>
          rw [hcan, hwork] at hout
          cases hout
          rfl

/-! ## Rows -/

section Rows

variable {T : Type} {lead : List Nat} {N : Nat} {x : ShapeInfo}

/-- Shape information of an array whose last extent is `N`. -/
structure RowsLayout (x : ShapeInfo) (lead : List Nat) (N : Nat) : Prop where
  shape_eq : x.shape = lead ++ [N]
  honest : x.HonestEws
  cellsApart : CellsApart x
  order_eq : x.order = 'c' ∨ x.order = 'f'

/-- The array can be viewed as rows. -/
def CanBeRows (x : ShapeInfo) (lead : List Nat) (N : Nat) : Prop :=
  canReshape x [lead.prod, N] (x.order = 'f') = .yes ()

instance (x : ShapeInfo) (lead : List Nat) (N : Nat) : Decidable (CanBeRows x lead N) :=
  inferInstanceAs (Decidable (_ = _))

/-- The cell of an element in the rows of its array: that of the element in a view, and that of its
row and column in a copy. -/
def rowPlace (x : ShapeInfo) (lead : List Nat) (N : Nat) (l : List Nat) (c : Nat) : Int :=
  if CanBeRows x lead N then dot (l ++ [c]) x.stride
  else indexOf (x.order = 'f') [lead.prod, N] [encode lead l, c]

variable {l : List Nat}

theorem inBox_concat {c : Nat} (hl : InBox lead l) (hc : c < N) : InBox (lead ++ [N]) (l ++ [c]) :=
  List.rel_append hl (.cons hc .nil)

/-- The number of an element is that of its row and its column. -/
theorem indexOf_concat (isFOrder : Bool) (hl : InBox lead l) (c : Nat) :
    indexOf isFOrder (lead ++ [N]) (l ++ [c]) =
      indexOf isFOrder [lead.prod, N] [indexOf isFOrder lead l, c] := by
  cases isFOrder with
  | false =>
      show encode (lead ++ [N]) (l ++ [c]) = encode [lead.prod, N] [encode lead l, c]
      rw [encode_concat hl.length_eq]
      simp [encode]
  | true =>
      show encode (lead ++ [N]).reverse (l ++ [c]).reverse =
        encode [N, lead.prod] [c, encode lead.reverse l.reverse]
      rw [List.reverse_append, List.reverse_append]
      simp [encode]

theorem coordinateOf_rows (isFOrder : Bool) (hl : InBox lead l) {c : Nat} (hc : c < N) :
    coordinateOf isFOrder [lead.prod, N] (indexOf isFOrder (lead ++ [N]) (l ++ [c])) =
      [indexOf isFOrder lead l, c] := by
  rw [indexOf_concat isFOrder hl]
  exact coordinateOf_indexOf (.cons (indexOf_lt isFOrder hl) (.cons hc .nil))

/-- Every number is that of some coordinate. -/
theorem exists_indexOf (isFOrder : Bool) (hpos : ∀ d ∈ lead, 0 < d) {r : Nat} (hr : r < lead.prod) :
    ∃ l, InBox lead l ∧ indexOf isFOrder lead l = r := by
  have hbij := bijOn_coordinateOf isFOrder hpos
  have hl := hbij.mapsTo hr
  exact ⟨_, hl, hbij.injOn (indexOf_lt isFOrder hl) hr (coordinateOf_indexOf hl)⟩

theorem RowsLayout.length_eq (h : RowsLayout x lead N) : x.length = lead.prod * N := by
  rw [ShapeInfo.length, h.shape_eq, List.prod_append, List.prod_singleton]

theorem RowsLayout.positive (h : RowsLayout x lead N) (hlead : ∀ d ∈ lead, 0 < d) (hN : 0 < N) :
    x.Positive := by
  rw [ShapeInfo.Positive, h.shape_eq]
  intro d hd
  rcases List.mem_append.mp hd with hd | hd
  · exact hlead d hd
  · rwa [List.mem_singleton.mp hd]

/-- The rows of an array: their elements, and the cells where they lie. -/
structure RowsOf (array rows : NDArray T) (lead : List Nat) (N : Nat) (isFOrder : Bool) : Prop where
  shape_eq : rows.shapeInfo.shape = [lead.prod, N]
  honest : rows.shapeInfo.HonestEws
  cellsApart : CellsApart rows.shapeInfo
  place_eq : ∀ l, InBox lead l → ∀ c < N, dot [indexOf isFOrder lead l, c] rows.shapeInfo.stride =
    rowPlace array.shapeInfo lead N l c
  element_eq : ∀ l, InBox lead l → ∀ c < N,
    rows.buffer (rowPlace array.shapeInfo lead N l c) = array.element (l ++ [c])

/-- A view has the cells of the array. -/
theorem rowsOf_view {buffer : Int → T} {t : ShapeInfo} (h : RowsLayout x lead N)
    (hlead : ∀ d ∈ lead, 0 < d) (hN : 0 < N) (hcan : CanBeRows x lead N)
    (hshape : t.shape = [lead.prod, N]) (hews : t.elementWiseStride = -1) {isFOrder : Bool}
    (hview : SameElements isFOrder t.axes x.axes) :
    RowsOf ⟨x, buffer⟩ ⟨t, buffer⟩ lead N isFOrder := by
  have hpos := h.positive hlead hN
  have htpos : t.Positive := by
    rw [ShapeInfo.Positive, hshape]
    simp [hN, List.prod_pos hlead]
  have hlength : t.length = x.length := by rw [← t.volume_axes, hview.1, x.volume_axes]
  have hplace : ∀ l, InBox lead l → ∀ c < N, dot [indexOf isFOrder lead l, c] t.stride =
      rowPlace x lead N l c := by
    intro l hl c hc
    have hbox := inBox_concat hl hc
    have hk : indexOf isFOrder (lead ++ [N]) (l ++ [c]) < volume t.axes := by
      rw [t.volume_axes, hlength, ShapeInfo.length, h.shape_eq]
      exact indexOf_lt isFOrder hbox
    have hsame := hview.2 _ hk
    rw [elementOffset_eq_dot, elementOffset_eq_dot, hshape, h.shape_eq,
      coordinateOf_rows isFOrder hl hc, coordinateOf_indexOf hbox] at hsame
    rw [hsame, rowPlace, if_pos hcan]
  refine ⟨hshape, fun hslot => absurd hslot ?_, fun c c' hc hc' heq => ?_, hplace,
    fun l hl c hc => ?_⟩
  · show ¬ t.elementWiseStride ≥ 1
    rw [hews]
    decide
  · obtain ⟨k, hk, rfl⟩ := (bijOn_coordinateOf isFOrder htpos).surjOn hc
    obtain ⟨k', hk', rfl⟩ := (bijOn_coordinateOf isFOrder htpos).surjOn hc'
    have hk : k < t.length := hk
    have hk' : k' < t.length := hk'
    rw [← elementOffset_eq_dot, ← elementOffset_eq_dot, hview.2 k (by rwa [t.volume_axes]),
      hview.2 k' (by rwa [t.volume_axes])] at heq
    rw [elementOffset_inj hpos h.cellsApart isFOrder (hlength ▸ hk) (hlength ▸ hk') heq]
  · rw [element_eq (h.shape_eq.symm ▸ inBox_concat hl hc), rowPlace, if_pos hcan]

/-- A copy has its elements in C order. -/
theorem rowsOf_copy {buffer rows : Int → T} (h : RowsLayout x lead N)
    (hlead : ∀ d ∈ lead, 0 < d) (hN : 0 < N) (hcan : ¬ CanBeRows x lead N)
    (helements : ∀ k < x.length,
      (NDArray.mk (freshShapeInfo x.order [lead.prod, N]) rows).element (decode [lead.prod, N] k) =
        (NDArray.mk x buffer).element (decode x.shape k)) :
    RowsOf ⟨x, buffer⟩ ⟨freshShapeInfo x.order [lead.prod, N], rows⟩ lead N false := by
  have hdims : ∀ d ∈ [lead.prod, N], 0 < d := by simp [hN, List.prod_pos hlead]
  have hnew : freshShapeInfo x.order [lead.prod, N] = newShapeInfo x.order [lead.prod, N] :=
    (newShapeInfo_eq h.order_eq _).symm
  have hshape : (freshShapeInfo x.order [lead.prod, N]).shape = [lead.prod, N] :=
    shape_freshShapeInfo _ _
  have hplace : ∀ l, InBox lead l → ∀ c < N,
      dot [indexOf false lead l, c] (freshShapeInfo x.order [lead.prod, N]).stride =
        rowPlace x lead N l c := by
    intro l hl c hc
    have hbox : InBox [lead.prod, N] [indexOf false lead l, c] :=
      .cons (indexOf_lt false hl) (.cons hc .nil)
    have hdense := dense_newShapeInfo h.order_eq [lead.prod, N]
    have hk : indexOf (decide (x.order = 'f')) [lead.prod, N] [indexOf false lead l, c] <
        (newShapeInfo x.order [lead.prod, N]).length := by
      rw [ShapeInfo.length, shape_newShapeInfo]
      exact indexOf_lt _ hbox
    have hcell := hdense.dot_eq hk
    rw [shape_newShapeInfo, coordinateOf_indexOf hbox] at hcell
    rw [hnew, hcell, rowPlace, if_neg hcan]
    rfl
  refine ⟨hshape, ?_, ?_, hplace, fun l hl c hc => ?_⟩
  · show (freshShapeInfo x.order [lead.prod, N]).HonestEws
    rw [hnew]
    exact honestEws_newShapeInfo h.order_eq hdims
  · show CellsApart (freshShapeInfo x.order [lead.prod, N])
    rw [hnew]
    exact cellsApart_newShapeInfo h.order_eq hdims
  · have hbox := inBox_concat hl hc
    have hk : indexOf false (lead ++ [N]) (l ++ [c]) < x.length := by
      rw [ShapeInfo.length, h.shape_eq]
      exact indexOf_lt false hbox
    have hvalue := helements _ hk
    have hrow : decode [lead.prod, N] (indexOf false (lead ++ [N]) (l ++ [c])) =
        [indexOf false lead l, c] := coordinateOf_rows false hl hc
    have hold : decode (lead ++ [N]) (indexOf false (lead ++ [N]) (l ++ [c])) = l ++ [c] :=
      @coordinateOf_indexOf false (lead ++ [N]) _ hbox
    rw [hrow, h.shape_eq, hold] at hvalue
    have hin : InBox (freshShapeInfo x.order [lead.prod, N]).shape [indexOf false lead l, c] :=
      hshape.symm ▸ .cons (indexOf_lt false hl) (.cons hc .nil)
    rw [← hplace l hl c hc, ← hvalue]
    exact (element_eq hin).symm

/-- Where the elements lie in the rows of an array. -/
theorem reshapeOn_rows (run : Runtime T) (h : RowsLayout x lead N) (hlead : ∀ d ∈ lead, 0 < d)
    (hN : 0 < N) (buffer : Int → T) :
    ∃ rows isFOrder, (NDArray.mk x buffer).reshapeOn run x.order [-1, (N : Int)] =
        .ok (decide (CanBeRows x lead N), rows) ∧
      (CanBeRows x lead N → rows.buffer = buffer) ∧ RowsOf ⟨x, buffer⟩ rows lead N isFOrder := by
  have hpos := h.positive hlead hN
  have hadm : Admissible x.length [-1, (N : Int)] [lead.prod, N] := by
    rw [h.length_eq]
    exact admissible_rows (List.prod_pos hlead) hN
  by_cases hcan : CanBeRows x lead N
  · obtain ⟨t, hview, hshape, -, hews, hsame⟩ := @reshape_view T ⟨x, buffer⟩ _ _ _ run hpos
      h.order_eq hadm hcan
    exact ⟨_, _, reshapeOn_eq hadm hview, fun _ => rfl,
      rowsOf_view h hlead hN hcan hshape hews hsame⟩
  · have hno : canReshape x [lead.prod, N] (x.order = 'f') = .no := by
      rcases reshape_cases hpos hadm.positive (decide (x.order = 'f')) with ⟨hyes, -⟩ | ⟨hno, -⟩
      · exact absurd hyes hcan
      · exact hno
    obtain ⟨rows, hcopy, helements⟩ := @reshape_copy T ⟨x, buffer⟩ _ _ _ run hpos h.honest
      h.order_eq hadm hno
    exact ⟨_, _, reshapeOn_eq hadm hcopy, fun hyes => absurd hyes hcan,
      rowsOf_copy h hlead hN hcan helements⟩

end Rows

end Arrays
end LibND4J
