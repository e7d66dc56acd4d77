import LibND4J.Arrays.Repeat
import LibND4J.Arrays.Tilei

/-!
# Repeating an array into a new one

`tile` reshapes the array to two axes, repeats it along the first one, and does the same to
the result for the axes behind.  The first array it reshapes is its receiver.

Main results:

- Theorem `tileStep_spec`: one axis is repeated.
- Theorem `tileLoop_spec`: so are all of them, one after the other.
- Theorem `tile_of_ones`: without counts the receiver is what is returned.
- Theorem `tile_spec`: what the new array holds, and the shape that the receiver is left with.
- Theorem `tilesApart_iff`: when the receiver is left as it was.
- Theorem `not_tilesApart_always`: a matrix whose rows are repeated.
-/

namespace LibND4J
namespace Arrays

open Shape Strided

/-! ## The routine -/

/-- What the routine works on: its receiver, and the array that the result points to, `none` while
that is the receiver. -/
structure TileState (T : Type) where
  receiver : NDArray T
  result : Option (NDArray T)

section Routine

variable {T : Type}

/-- The array that the result points to. -/
def TileState.current (state : TileState T) : NDArray T :=
  state.result.getD state.receiver

/-- Change it in place. -/
def TileState.setCurrent (state : TileState T) (array : NDArray T) : TileState T :=
  match state.result with
  | none => ⟨array, none⟩
  | some _ => ⟨state.receiver, some array⟩

variable [Zero T]

/-- One axis: the array is reshaped in place, and repeated into a new one. -/
def tileStep (run : Runtime T) (n r : Nat) (state : TileState T) : Except Failure (TileState T) :=
  if r = 1 then .ok state
  else do
    let reshaped ← state.current.reshape run 'c' [-1, (n : Int)]
    let tmp ← repeatNDArray 0 [r] reshaped
    .ok ⟨(state.setCurrent reshaped).receiver, some tmp⟩

/-- The loop over the axes, with extents and counts; `n` is what the axes to come make up. -/
def tileLoop (run : Runtime T) : List (Nat × Nat) → Nat → TileState T →
    Except Failure (TileState T)
  | [], _, state => .ok state
  | a :: axes, n, state => do
      let state ← tileStep run n a.2 state
      tileLoop run axes (n / max a.1 1) state

/-- `NDArray::tile`. -/
def tile (run : Runtime T) (reps : List Nat) (array : NDArray T) :
    Except Failure (TileState T) :=
  let origShape := array.shapeInfo.shape
  let origOrder := array.shapeInfo.order
  let wasReshaped := origShape.length < reps.length
  if 0 ∈ reps then
    .error (.thrown "Tile method: one of the elements in reps array is zero !")
  else do
    let this ←
      if wasReshaped then
        array.reshape run 'c'
          ((List.replicate (reps.length - origShape.length) 1 ++ origShape).map Nat.cast)
      else .ok array
    let shape := this.shapeInfo.shape
    let repeats := List.replicate (shape.length - reps.length) 1 ++ reps
    let state ← tileLoop run (shape.zip repeats) (max this.shapeInfo.length 1) ⟨this, none⟩
    let result ← state.current.reshape run 'c' ((tileShape shape reps).map Nat.cast)
    let state := state.setCurrent result
    if wasReshaped then do
      let receiver ← state.receiver.reshape run origOrder (origShape.map Nat.cast)
      .ok ⟨receiver, state.result⟩
    else .ok state

end Routine

/-! ## What is asked for -/

/-- The receiver has the shape, the order and the elements it had. -/
structure Unchanged {T : Type} (array receiver : NDArray T) : Prop where
  shape : receiver.shapeInfo.shape = array.shapeInfo.shape
  order : receiver.shapeInfo.order = array.shapeInfo.order
  element : ∀ c, InBox array.shapeInfo.shape c → receiver.element c = array.element c

/-- Whatever the buffer holds, the array is repeated into another one, and left as it was. -/
def TilesApart (reps : List Nat) (info : ShapeInfo) : Prop :=
  ∀ {T : Type} [Zero T] (run : Runtime T) (buffer : Int → T),
    ∃ state, tile run reps ⟨info, buffer⟩ = .ok state ∧ Unchanged ⟨info, buffer⟩ state.receiver ∧
      ∃ result, state.result = some result ∧ Tiled reps ⟨info, buffer⟩ result

/-- The two axes that an array is reshaped to where its first repeated axis starts. -/
def splitShape (axes : List (Nat × Nat)) : List Nat :=
  [(oldDims (axes.takeWhile fun a => a.2 = 1)).prod,
    (oldDims (axes.dropWhile fun a => a.2 = 1)).prod]

/-- Something is repeated, and the receiver gets its shape back, or has it all along. -/
def TilesBack (reps : List Nat) (info : ShapeInfo) : Prop :=
  reps.prod ≠ 1 ∧
    (info.shape.length < reps.length ∨ info.shape = splitShape (tileAxes info.shape reps))

instance (reps : List Nat) (info : ShapeInfo) : Decidable (TilesBack reps info) :=
  inferInstanceAs (Decidable (_ ∧ _))

/-! ## The loop -/

/-- The axes that are done are repeated: what a dense buffer holds then. -/
structure TiledSoFar {T : Type} (buffer : Int → T) (done rest : List (Nat × Nat))
    (current : NDArray T) : Prop where
  positive : current.shapeInfo.Positive
  dense : Consecutive false current.shapeInfo
  length_eq : current.shapeInfo.length = (newDims done ++ oldDims rest).prod
  value : ∀ c, InBox (newDims done ++ oldDims rest) c →
    current.buffer (encode (newDims done ++ oldDims rest) c : Nat) =
      buffer (encode (oldDims (done ++ rest)) (wrapped (done ++ rest) c) : Nat)

section Loop

variable {T : Type} {run : Runtime T} {buffer : Int → T} {done rest : List (Nat × Nat)}
  {current : NDArray T}

/-- A dense array is reshaped in place to two axes. -/
theorem reshape_matrix (h : TiledSoFar buffer done rest current) :
    ∃ target, current.reshape run 'c' [-1, ((oldDims rest).prod : Int)] =
        .ok ⟨target, current.buffer⟩ ∧
      target.shape = [(newDims done).prod, (oldDims rest).prod] ∧ target.order = 'c' ∧
      target.elementWiseStride = -1 ∧ Consecutive false target := by
  have hprod := h.positive.length_pos
  rw [h.length_eq, List.prod_append] at hprod
  have hadm := admissible_rows (Nat.pos_of_mul_pos_right hprod) (Nat.pos_of_mul_pos_left hprod)
  rw [← List.prod_append, ← h.length_eq] at hadm
  exact reshape_dense run h.positive (Or.inl rfl) hadm h.dense

/-- An axis that is not repeated is done as it is. -/
theorem TiledSoFar.skip {a : Nat × Nat} (hone : a.2 = 1)
    (h : TiledSoFar buffer done (a :: rest) current) :
    TiledSoFar buffer (done ++ [a]) rest current := by
  have hdims : newDims (done ++ [a]) ++ oldDims rest = newDims done ++ oldDims (a :: rest) := by
    rw [dims_concat, hone, Nat.mul_one, oldDims_cons]
  have haxes : done ++ [a] ++ rest = done ++ a :: rest := List.append_assoc done [a] rest
  refine ⟨h.positive, h.dense, ?_, ?_⟩
  · rw [hdims, h.length_eq]
  · rw [hdims, haxes]
    exact h.value

/-- What is left of the length behind an axis. -/
theorem prod_div_extent {a : Nat × Nat} (h : TiledSoFar buffer done (a :: rest) current) :
    (oldDims (a :: rest)).prod / max a.1 1 = (oldDims rest).prod := by
  have hprod := h.positive.length_pos
  rw [h.length_eq, List.prod_append, oldDims_cons, List.prod_cons] at hprod
  have hextent : 0 < a.1 := Nat.pos_of_mul_pos_right (Nat.pos_of_mul_pos_left hprod)
  rw [oldDims_cons, List.prod_cons, Nat.max_eq_left hextent, Nat.mul_div_cancel_left _ hextent]

variable [Zero T]

/-- An axis that is repeated: the array is reshaped, and its rows are repeated. -/
theorem tileStep_spec {a : Nat × Nat} {state : TileState T} (hcount : 0 < a.2) (hne : a.2 ≠ 1)
    (h : TiledSoFar buffer done (a :: rest) state.current) :
    ∃ target tmp, tileStep run (oldDims (a :: rest)).prod a.2 state =
        .ok ⟨(state.setCurrent ⟨target, state.current.buffer⟩).receiver, some tmp⟩ ∧
      target.shape = [(newDims done).prod, (oldDims (a :: rest)).prod] ∧ target.order = 'c' ∧
      Consecutive false target ∧ TiledSoFar buffer (done ++ [a]) rest tmp := by
  obtain ⟨target, htarget, hshape, horder, hews, hdense⟩ := @reshape_matrix T run _ _ _ _ h
  have hprod := h.positive.length_pos
  rw [h.length_eq, List.prod_append] at hprod
  have hrows := Nat.pos_of_mul_pos_right hprod
  have hcolumns := Nat.pos_of_mul_pos_left hprod
  have hpos : target.Positive := by
    rw [ShapeInfo.Positive, hshape]
    exact pos_matrix hrows hcolumns
  have hhonest : target.HonestEws := fun hpositive => absurd (hews ▸ hpositive) (by decide)
  obtain ⟨cells, hrepeat, hcells⟩ := @repeatNDArray_spec _ _ T _ ⟨target, state.current.buffer⟩ a.2
    hshape hpos hhonest hdense hcount
  refine ⟨target, ⟨newShapeInfo 'c' [(newDims done).prod * a.2, (oldDims (a :: rest)).prod], cells⟩,
    ?_, hshape, horder, hdense, ?_⟩
  · rw [tileStep, if_neg hne, htarget]
    show (repeatNDArray 0 [a.2] ⟨target, state.current.buffer⟩ >>= fun tmp => _) = _
    rw [hrepeat]
    rfl
  · have hmatrix := pos_matrix (Nat.mul_pos hrows hcount) hcolumns
    refine ⟨positive_newShapeInfo hmatrix 'c', dense_newShapeInfo (Or.inl rfl) _, ?_, ?_⟩
    · rw [ShapeInfo.length, shape_newShapeInfo, dims_concat, oldDims_cons]
      simp only [List.prod_append, List.prod_cons, List.prod_nil]
      ring
    · intro c hc
      rw [dims_concat] at hc
      obtain ⟨cd, c, rfl, hcd, hc⟩ := exists_append_of_inBox hc
      obtain ⟨x, cr, rfl⟩ := List.exists_cons_of_length_eq_add_one hc.length_eq.symm
      obtain ⟨hx, hcr⟩ := List.forall₂_cons.mp hc
      obtain ⟨q, hq, e, he, hnew, hold⟩ := encode_rows hcd hx hcr
      have hextent : 0 < a.1 := Nat.pos_of_mul_pos_right (Nat.zero_lt_of_lt hx)
      have hvalue := h.value (cd ++ x % a.1 :: cr) (hcd.append (.cons (Nat.mod_lt _ hextent) hcr))
      have hlength : done.length = cd.length := (length_of_inBox_newDims hcd).symm
      rw [hold, wrapped_mod hlength] at hvalue
      rw [hnew, List.append_assoc, List.singleton_append]
      exact (hcells q hq e he).trans hvalue

/-- Without counts the loop does nothing. -/
theorem tileLoop_of_ones (hones : ∀ a ∈ rest, a.2 = 1) (n : Nat) (state : TileState T) :
    tileLoop run rest n state = .ok state := by
  induction rest generalizing n with
  | nil => rfl
  | cons a rest ih =>
      rw [tileLoop, tileStep, if_pos (hones a List.mem_cons_self)]
      exact ih (fun b hb => hones b (List.mem_cons_of_mem _ hb)) _

/-- From the first repetition on the loop works on arrays of its own. -/
theorem tileLoop_of_some (hcounts : ∀ a ∈ rest, 0 < a.2) (receiver : NDArray T)
    (h : TiledSoFar buffer done rest current) :
    ∃ current', tileLoop run rest (oldDims rest).prod ⟨receiver, some current⟩ =
        .ok ⟨receiver, some current'⟩ ∧ TiledSoFar buffer (done ++ rest) [] current' := by
  induction rest generalizing done current with
  | nil =>
      refine ⟨current, rfl, ?_⟩
      rwa [List.append_nil]
  | cons a rest ih =>
      have hrest : ∀ b ∈ rest, 0 < b.2 := fun b hb => hcounts b (List.mem_cons_of_mem _ hb)
      have haxes : done ++ [a] ++ rest = done ++ a :: rest := List.append_assoc done [a] rest
      rw [tileLoop, prod_div_extent h, ← haxes]
      by_cases hone : a.2 = 1
      · rw [tileStep, if_pos hone]
        exact ih hrest (h.skip hone)
      · obtain ⟨target, tmp, hstep, -, -, -, htmp⟩ :=
          @tileStep_spec T run _ _ _ _ a ⟨receiver, some current⟩
            (hcounts a List.mem_cons_self) hone h
        rw [hstep]
        exact ih hrest htmp

/-- The loop repeats the axes; its receiver is left with two of them. -/
theorem tileLoop_spec {this : NDArray T} (hcounts : ∀ a ∈ rest, 0 < a.2)
    (hrepeated : ∃ a ∈ rest, a.2 ≠ 1) (h : TiledSoFar buffer done rest this) :
    ∃ target current', tileLoop run rest (oldDims rest).prod ⟨this, none⟩ =
        .ok ⟨⟨target, this.buffer⟩, some current'⟩ ∧
      target.shape = [(newDims (done ++ rest.takeWhile fun a => a.2 = 1)).prod,
        (oldDims (rest.dropWhile fun a => a.2 = 1)).prod] ∧
      target.order = 'c' ∧ Consecutive false target ∧
      TiledSoFar buffer (done ++ rest) [] current' := by
  induction rest generalizing done with
  | nil =>
      obtain ⟨a, ha, -⟩ := hrepeated
      exact absurd ha List.not_mem_nil
  | cons a rest ih =>
      have hrest : ∀ b ∈ rest, 0 < b.2 := fun b hb => hcounts b (List.mem_cons_of_mem _ hb)
      have haxes : ∀ behind, done ++ [a] ++ behind = done ++ a :: behind :=
        List.append_assoc done [a]
      rw [tileLoop, prod_div_extent h, ← haxes]
      by_cases hone : a.2 = 1
      · have hlater : ∃ b ∈ rest, b.2 ≠ 1 := by
          obtain ⟨b, hb, hne⟩ := hrepeated
          rcases List.mem_cons.mp hb with rfl | hb
          · exact absurd hone hne
          · exact ⟨b, hb, hne⟩
        have hskip : decide (a.2 = 1) = true := decide_eq_true hone
        rw [tileStep, if_pos hone, List.takeWhile_cons, List.dropWhile_cons, if_pos hskip,
          if_pos hskip, ← haxes]
        exact ih hrest hlater (h.skip hone)
      · obtain ⟨target, tmp, hstep, hshape, horder, hdense, htmp⟩ :=
          @tileStep_spec T run _ _ _ _ a ⟨this, none⟩ (hcounts a List.mem_cons_self) hone h
        obtain ⟨current', hloop, hcurrent⟩ := @tileLoop_of_some T run _ _ _ _ _ hrest
          ⟨target, this.buffer⟩ htmp
        refine ⟨target, current', ?_, ?_, horder, hdense, hcurrent⟩
        · rw [hstep]
          exact hloop
        · have hstop : ¬ decide (a.2 = 1) = true := by simpa using hone
          rw [List.takeWhile_cons, List.dropWhile_cons, if_neg hstop, if_neg hstop,
            List.append_nil, hshape]

end Loop

/-! ## The whole routine -/

section Tiles

variable {T : Type} (run : Runtime T) {info : ShapeInfo} {reps : List Nat}

/-- The extents and the counts that the loop meets. -/
theorem zip_repeats (shape reps : List Nat) :
    (rightAligned (max shape.length reps.length) shape).zip
      (List.replicate
        ((rightAligned (max shape.length reps.length) shape).length - reps.length) 1 ++ reps) =
      tileAxes shape reps := by
  rw [length_rightAligned (Nat.le_max_left _ _), tileAxes, rightAligned, rightAligned]

/-- The new extents are those of the array with the axes in front. -/
theorem tileShape_rightAligned (shape reps : List Nat) :
    tileShape (rightAligned (max shape.length reps.length) shape) reps =
      newDims (tileAxes shape reps) := by
  have hlength := length_rightAligned (Nat.le_max_left shape.length reps.length)
  have hmax : max (max shape.length reps.length) reps.length = max shape.length reps.length :=
    Nat.max_eq_left (Nat.le_max_right _ _)
  rw [tileShape_eq, tileAxes, hlength, hmax, rightAligned_of_le (ge_of_eq hlength), tileAxes]

/-- The array that the loop starts from: axes of extent one are put in front, as far as there are
more counts than axes. -/
theorem exists_aligned (horder : info.order = 'c') (hpos : info.Positive)
    (hdense : Consecutive false info) (reps : List Nat) (buffer : Int → T) :
    ∃ this : ShapeInfo, (if info.shape.length < reps.length then
        (NDArray.mk info buffer).reshape run 'c'
          ((List.replicate (reps.length - info.shape.length) 1 ++ info.shape).map Nat.cast)
      else .ok ⟨info, buffer⟩) = .ok ⟨this, buffer⟩ ∧
      this.shape = rightAligned (max info.shape.length reps.length) info.shape ∧
      this.order = 'c' ∧ Consecutive false this := by
  by_cases hlt : info.shape.length < reps.length
  · have hadm := @admissible_of_nat (rightAligned reps.length info.shape) info.length
      (pos_rightAligned hpos) (by rw [prod_rightAligned, ShapeInfo.length])
    obtain ⟨this, hthis, hshape, hslot, -, hview⟩ :=
      @reshape_dense T ⟨info, buffer⟩ _ 'c' _ run hpos (Or.inl rfl) hadm hdense
    refine ⟨this, ?_, ?_, hslot, hview⟩
    · rw [if_pos hlt]
      exact hthis
    · rw [hshape, Nat.max_eq_right (Nat.le_of_lt hlt)]
  · refine ⟨info, if_neg hlt, ?_, horder, hdense⟩
    rw [Nat.max_eq_left (Nat.not_lt.mp hlt), rightAligned_of_le (Nat.le_refl _)]

/-- Before the loop nothing is repeated. -/
theorem tiledSoFar_start {this : ShapeInfo} (hpos : info.Positive)
    (hshape : this.shape = rightAligned (max info.shape.length reps.length) info.shape)
    (hdense : Consecutive false this) (buffer : Int → T) :
    TiledSoFar buffer [] (tileAxes info.shape reps) ⟨this, buffer⟩ where
  positive := by
    rw [ShapeInfo.Positive, hshape]
    exact pos_rightAligned hpos
  dense := hdense
  length_eq := by
    rw [ShapeInfo.length, hshape, ← oldDims_tileAxes]
    rfl
  value := by
    intro c hc
    have hbox : InBox (oldDims (tileAxes info.shape reps)) c := hc
    rw [List.nil_append, wrapped_of_inBox hbox]
    rfl

/-- What the receiver is left with: its axes, if some were put in front of them. -/
theorem exists_restored (horder : info.order = 'c') (hpos : info.Positive) {target : ShapeInfo}
    (hlength : target.length = info.length) (htarget : target.order = 'c')
    (hdense : Consecutive false target) (reps : List Nat) (buffer : Int → T) :
    ∃ receiver : ShapeInfo, (if info.shape.length < reps.length then
        (NDArray.mk target buffer).reshape run info.order (info.shape.map Nat.cast)
      else .ok ⟨target, buffer⟩) = .ok ⟨receiver, buffer⟩ ∧
      receiver.order = 'c' ∧ Consecutive false receiver ∧
      receiver.shape = if info.shape.length < reps.length then info.shape else target.shape := by
  by_cases hlt : info.shape.length < reps.length
  · have hpositive : target.Positive := fun d hd =>
      Nat.pos_of_dvd_of_pos (List.dvd_prod hd) (hlength ▸ hpos.length_pos : 0 < target.length)
    obtain ⟨receiver, hreceiver, hshape, hslot, -, hview⟩ :=
      @reshape_dense T ⟨target, buffer⟩ _ 'c' _ run hpositive (Or.inl rfl)
        (admissible_of_nat hpos hlength.symm) hdense
    refine ⟨receiver, ?_, hslot, hview, ?_⟩
    · rw [if_pos hlt, horder]
      exact hreceiver
    · rw [if_pos hlt, hshape]
  · exact ⟨target, if_neg hlt, htarget, hdense, (if_neg hlt).symm⟩

variable [Zero T]

/-- The routine, around its loop. -/
theorem tile_of_loop {this : ShapeInfo} {buffer : Int → T} (hreps : ∀ n ∈ reps, 0 < n)
    (hthis : (if info.shape.length < reps.length then
        (NDArray.mk info buffer).reshape run 'c'
          ((List.replicate (reps.length - info.shape.length) 1 ++ info.shape).map Nat.cast)
      else .ok ⟨info, buffer⟩) = .ok ⟨this, buffer⟩)
    (hshape : this.shape = rightAligned (max info.shape.length reps.length) info.shape)
    (hstart : TiledSoFar buffer [] (tileAxes info.shape reps) ⟨this, buffer⟩)
    {state : TileState T} (hloop : tileLoop run (tileAxes info.shape reps)
      (oldDims (tileAxes info.shape reps)).prod ⟨⟨this, buffer⟩, none⟩ = .ok state)
    {result receiver : NDArray T} (hresult : state.current.reshape run 'c'
      ((newDims (tileAxes info.shape reps)).map Nat.cast) = .ok result)
    (hreceiver : (if info.shape.length < reps.length then
        (state.setCurrent result).receiver.reshape run info.order (info.shape.map Nat.cast)
      else .ok (state.setCurrent result).receiver) = .ok receiver) :
    tile run reps ⟨info, buffer⟩ = .ok ⟨receiver, (state.setCurrent result).result⟩ := by
  have hzero : 0 ∉ reps := fun h => absurd (hreps 0 h) (lt_irrefl 0)
  have hlength : max this.length 1 = (oldDims (tileAxes info.shape reps)).prod := by
    rw [Nat.max_eq_left hstart.positive.length_pos]
    exact hstart.length_eq
  rw [← hlength, ← zip_repeats, ← hshape] at hloop
  rw [← tileShape_rightAligned, ← hshape] at hresult
  unfold tile
  by_cases hlt : info.shape.length < reps.length
  · simp only [if_pos hlt] at hthis hreceiver ⊢
    simp only [if_neg hzero, hthis]
    show (tileLoop run (this.shape.zip (List.replicate (this.shape.length - reps.length) 1 ++ reps))
      (max this.length 1) ⟨⟨this, buffer⟩, none⟩ >>= fun state => _) = _
    rw [hloop]
    show (state.current.reshape run 'c' ((tileShape this.shape reps).map Nat.cast) >>=
      fun result => _) = _
    rw [hresult]
    show ((state.setCurrent result).receiver.reshape run info.order (info.shape.map Nat.cast) >>=
      fun receiver => _) = _
    rw [hreceiver]
    rfl
  · simp only [if_neg hlt] at hthis hreceiver ⊢
    cases hthis
    cases hreceiver
    simp only [if_neg hzero]
    show (tileLoop run (info.shape.zip (List.replicate (info.shape.length - reps.length) 1 ++ reps))
      (max info.length 1) ⟨⟨info, buffer⟩, none⟩ >>= fun state => _) = _
    rw [hloop]
    show (state.current.reshape run 'c' ((tileShape info.shape reps).map Nat.cast) >>=
      fun result => _) = _
    rw [hresult]
    rfl

/-- What the new array holds, and the shape that the receiver is left with. -/
theorem tile_spec (horder : info.order = 'c') (hpos : info.Positive)
    (hdense : Consecutive false info) (hreps : ∀ n ∈ reps, 0 < n) (hprod : reps.prod ≠ 1)
    (buffer : Int → T) :
    ∃ receiver result, tile run reps ⟨info, buffer⟩ = .ok ⟨⟨receiver, buffer⟩, some result⟩ ∧
      Tiled reps ⟨info, buffer⟩ result ∧ receiver.order = 'c' ∧ Consecutive false receiver ∧
      receiver.shape = if info.shape.length < reps.length then info.shape
        else splitShape (tileAxes info.shape reps) := by
  obtain ⟨this, hthis, hshape, -, hview⟩ := exists_aligned run horder hpos hdense reps buffer
  have hstart := tiledSoFar_start hpos hshape hview buffer
  have hpositive := pos_tileAxes hpos hreps
  have hrepeated : ∃ a ∈ tileAxes info.shape reps, a.2 ≠ 1 := by
    by_contra hones
    push Not at hones
    have hcounts : ∀ n ∈ rightAligned (max info.shape.length reps.length) reps, n = 1 := by
      rw [← counts_tileAxes]
      intro n hn
      obtain ⟨a, ha, rfl⟩ := List.mem_map.mp hn
      exact hones a ha
    have hone := List.prod_eq_one hcounts
    rw [prod_rightAligned] at hone
    exact hprod hone
  obtain ⟨target, current, hloop, hsplit, hslot, htarget, hcurrent⟩ :=
    @tileLoop_spec T run _ _ _ _ _ (fun a ha => (hpositive a ha).2) hrepeated hstart
  rw [List.nil_append] at hsplit hcurrent
  -- the new array gets its extents
  have hnewPos : ∀ d ∈ newDims (tileAxes info.shape reps), 0 < d := by
    intro d hd
    obtain ⟨a, ha, rfl⟩ := List.mem_map.mp hd
    exact Nat.mul_pos (hpositive a ha).1 (hpositive a ha).2
  have hnewLength : (newDims (tileAxes info.shape reps)).prod = current.shapeInfo.length := by
    rw [hcurrent.length_eq, oldDims, List.map_nil, List.append_nil]
  obtain ⟨final, hfinal, hfinalShape, -, -, hfinalDense⟩ := reshape_dense run hcurrent.positive
    (Or.inl rfl) (admissible_of_nat hnewPos hnewLength) hcurrent.dense
  -- and the receiver gets its own ones back
  have hones : newDims ((tileAxes info.shape reps).takeWhile fun a => a.2 = 1) =
      oldDims ((tileAxes info.shape reps).takeWhile fun a => a.2 = 1) :=
    newDims_of_ones fun a ha => of_decide_eq_true (List.all_eq_true.mp List.all_takeWhile a ha)
  have htargetShape : target.shape = splitShape (tileAxes info.shape reps) := by
    rw [hsplit, hones, splitShape]
  have htargetLength : target.length = info.length := by
    have hsplitProd : (splitShape (tileAxes info.shape reps)).prod = info.shape.prod := by
      have hwhole := congrArg (fun axes => (oldDims axes).prod)
        (@List.takeWhile_append_dropWhile _ (fun a => a.2 = 1) (tileAxes info.shape reps))
      simp only [oldDims, List.map_append, List.prod_append] at hwhole
      rw [splitShape, List.prod_cons, List.prod_singleton]
      refine hwhole.trans ?_
      rw [← oldDims, oldDims_tileAxes, prod_rightAligned]
    rw [ShapeInfo.length, htargetShape, hsplitProd, ShapeInfo.length]
  obtain ⟨receiver, hreceiver, hreceiverOrder, hreceiverDense, hreceiverShape⟩ :=
    exists_restored run horder hpos htargetLength hslot htarget reps buffer
  refine ⟨receiver, ⟨final, current.buffer⟩, ?_, ?_, hreceiverOrder, hreceiverDense, ?_⟩
  · exact tile_of_loop run hreps hthis hshape hstart hloop hfinal hreceiver
  · refine (tiled_iff hpos hdense hfinalDense hfinalShape).mpr
      ((forall_indexOf_iff false _).mpr fun c hc => ?_)
    have hvalue := hcurrent.value c (by rwa [oldDims, List.map_nil, List.append_nil])
    rwa [List.append_nil, oldDims, List.map_nil, List.append_nil] at hvalue
  · rw [hreceiverShape, htargetShape]

/-- Without counts the receiver is what is returned. -/
theorem tile_of_ones (horder : info.order = 'c') (hpos : info.Positive)
    (hdense : Consecutive false info) (hreps : ∀ n ∈ reps, 0 < n) (hprod : reps.prod = 1)
    (buffer : Int → T) :
    ∃ receiver, tile run reps ⟨info, buffer⟩ = .ok ⟨⟨receiver, buffer⟩, none⟩ := by
  obtain ⟨this, hthis, hshape, hslot, hview⟩ := exists_aligned run horder hpos hdense reps buffer
  have hstart := @tiledSoFar_start T info reps _ hpos hshape hview buffer
  have hones : ∀ a ∈ tileAxes info.shape reps, a.2 = 1 := by
    intro a ha
    rcases List.mem_append.mp (List.of_mem_zip ha).2 with hone | hmem
    · exact List.eq_of_mem_replicate hone
    · exact eq_one_of_prod_eq_one hprod _ hmem
  have hnewShape : newDims (tileAxes info.shape reps) = this.shape := by
    rw [newDims_of_ones hones, oldDims_tileAxes, hshape]
  have hnewPos : ∀ d ∈ newDims (tileAxes info.shape reps), 0 < d := hnewShape ▸ hstart.positive
  obtain ⟨target, hresult, htargetShape, htargetOrder, -, htarget⟩ :=
    reshape_dense run hstart.positive (Or.inl rfl)
      (admissible_of_nat hnewPos (congrArg List.prod hnewShape)) hview
  have hlength : target.length = info.length := by
    rw [ShapeInfo.length, htargetShape, hnewShape, hshape, prod_rightAligned, ShapeInfo.length]
  obtain ⟨receiver, hreceiver, -⟩ :=
    exists_restored run horder hpos hlength htargetOrder htarget reps buffer
  exact ⟨receiver, tile_of_loop run hreps hthis hshape hstart (tileLoop_of_ones hones _ _) hresult
    hreceiver⟩

/-- An array is repeated into another one and left as it was exactly if something is repeated, and
it gets its shape back, or has two axes from the start, which the first repeated one splits. -/
theorem tilesApart_iff (horder : info.order = 'c') (hpos : info.Positive)
    (hdense : Consecutive false info) (hreps : ∀ n ∈ reps, 0 < n) :
    TilesApart reps info ↔ TilesBack reps info := by
  by_cases hprod : reps.prod = 1
  · refine ⟨fun h => ?_, fun h => absurd hprod h.1⟩
    obtain ⟨state, hstate, -, result, hresult, -⟩ := h (oneThread fun _ => 0) fun _ => 0
    obtain ⟨receiver, hones⟩ := tile_of_ones (oneThread fun _ => 0) horder hpos hdense hreps hprod
      fun _ => 0
    rw [hones] at hstate
    cases hstate
    cases hresult
  · constructor
    · intro h
      obtain ⟨state, hstate, hunchanged, -⟩ := h (oneThread fun _ => 0) fun _ => 0
      obtain ⟨receiver, result, htile, -, -, -, hshape⟩ :=
        tile_spec (oneThread fun _ => 0) horder hpos hdense hreps hprod fun _ => 0
      rw [htile] at hstate
      cases hstate
      refine ⟨hprod, ?_⟩
      by_cases hlt : info.shape.length < reps.length
      · exact Or.inl hlt
      · rw [if_neg hlt] at hshape
        exact Or.inr (hunchanged.shape.symm.trans hshape)
    · intro h T _ run buffer
      obtain ⟨receiver, result, htile, htiled, hslot, hreceiver, hshape⟩ :=
        tile_spec run horder hpos hdense hreps hprod buffer
      have hsame : receiver.shape = info.shape := by
        by_cases hlt : info.shape.length < reps.length
        · rw [hshape, if_pos hlt]
        · rw [hshape, if_neg hlt, ← h.2.resolve_left hlt]
      refine ⟨_, htile, ⟨hsame, hslot.trans horder.symm, fun c hc => ?_⟩, result, rfl, htiled⟩
      have hbox : InBox receiver.shape c := hsame ▸ hc
      rw [element_of_consecutive hreceiver buffer hbox, element_of_consecutive hdense buffer hc,
        hsame]

theorem tilesApart_iff_row :
    TilesApart [2] (newShapeInfo 'c' [1, 3]) ↔ TilesBack [2] (newShapeInfo 'c' [1, 3]) :=
  tilesApart_iff rfl (by decide) (dense_newShapeInfo (Or.inl rfl) [1, 3]) (by decide)

/-- A matrix whose rows are repeated is left as one row. -/
theorem not_tilesApart_always :
    ¬ ∀ (info : ShapeInfo) (reps : List Nat), info.order = 'c' → info.Positive →
      Consecutive false info → (∀ n ∈ reps, 0 < n) → TilesApart reps info := by
  intro h
  have hapart : TilesApart [2, 1] (newShapeInfo 'c' [2, 3]) := h _ _ rfl (by decide)
    (dense_newShapeInfo (Or.inl rfl) [2, 3]) (by decide)
  obtain ⟨state, hstate, hunchanged, -⟩ := hapart (oneThread fun _ => 0) fun _ => 0
  obtain ⟨receiver, result, htile, -, -, -, hshape⟩ :=
    @tile_spec Nat (oneThread fun _ => 0) (newShapeInfo 'c' [2, 3]) [2, 1] _ rfl (by decide)
      (dense_newShapeInfo (Or.inl rfl) [2, 3]) (by decide) (by decide) fun _ => 0
  rw [htile] at hstate
  cases hstate
  exact absurd (hunchanged.shape.symm.trans hshape) (by decide)

end Tiles

end Arrays
end LibND4J
