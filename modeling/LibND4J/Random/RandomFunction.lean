import LibND4J.Arrays.Cells
import LibND4J.Library.Translates
import LibND4J.Random.RandomBuffer

/-!
# Random functions

The three functions apply an operation to the elements of up to two inputs and to a number that
picks the random words.  Arrays that all have element-wise strides are walked by them, each in
its own order; all others are walked by coordinates in F order, which gives the number its meaning
for the whole shape.

Main results:

- Theorem `serves_of_cells`: a walk that visits the coordinates in F order serves every
  coordinate with its number there.
- Theorem `number_decodeF`: a numbering that also serves an array without a slot is the one
  in F order.
- Theorem `numbersAlike_iff`: the arrays are numbered by their shape exactly under the
  condition, for any number of inputs; `execTransform_numbersAlike_iff` for the three
  functions.
-/

namespace LibND4J
namespace Random

open Arrays Shape Strided

/-- An array in one of the buffers, from a pointer on. -/
structure Operand where
  info : ShapeInfo
  buffer : Nat

namespace RandomFunction

/-- The cell of iteration `e` by the element-wise stride; a stride of one has a loop of its own,
which does the same. -/
def ewsCell (info : ShapeInfo) (e : Nat) : Int :=
  e * info.elementWiseStride

/-- The cell of iteration `e` by coordinates. -/
def coordinateCell (info : ShapeInfo) (e : Nat) : Int :=
  getOffset info.offset info.shape info.stride (ind2sub info.shape e)

/-- All arrays have positive element-wise strides. -/
def SlotsPositive {r : Nat} (inputs : Fin r → Operand) (z : Operand) : Prop :=
  (∀ i, (inputs i).info.elementWiseStride ≥ 1) ∧ z.info.elementWiseStride ≥ 1

instance {r : Nat} (inputs : Fin r → Operand) (z : Operand) :
    Decidable (SlotsPositive inputs z) :=
  inferInstanceAs (Decidable (_ ∧ _))

section Operation

variable {T : Type*}

/-- A loop over the elements, its iterations in the order of a schedule. -/
def fill {r : Nat} (cell : ShapeInfo → Nat → Int) (op : (Fin r → T) → Nat → T)
    (inputs : Fin r → Operand) (z : Operand) (schedule : List Nat) (memory : Nat × Int → T) :
    Nat × Int → T :=
  Stores.storeAll (fun e => (z.buffer, cell z.info e))
    (fun e memory => op (fun i => memory ((inputs i).buffer, cell (inputs i).info e)) e)
    schedule memory

/-- The two loops of the functions. -/
def transform {r : Nat} (op : (Fin r → T) → Nat → T) (inputs : Fin r → Operand) (z : Operand)
    (schedule : List Nat) (memory : Nat × Int → T) : Nat × Int → T :=
  if SlotsPositive inputs z then
    fill ewsCell op inputs z schedule memory
  else
    fill coordinateCell op inputs z schedule memory

/-- `RandomFunction::execTransform` of `x`, `y` and `z`, for an operation that is not special. -/
def execTransformXYZ (op : T → T → Nat → Nat → RandomBuffer → T) (state : RandomBuffer)
    (x y z : Operand) (schedule : List Nat) (memory : Nat × Int → T) :
    (Nat × Int → T) × RandomBuffer :=
  let length := z.info.length
  (transform (fun v e => op (v 0) (v 1) e length state) ![x, y] z schedule memory,
    -- update rng state
    state.rewindH length)

/-- `RandomFunction::execTransform` of `x` and `z`. -/
def execTransformXZ (op : T → Nat → Nat → RandomBuffer → T) (state : RandomBuffer)
    (x z : Operand) (schedule : List Nat) (memory : Nat × Int → T) :
    (Nat × Int → T) × RandomBuffer :=
  let length := z.info.length
  (transform (fun v e => op (v 0) e length state) ![x] z schedule memory, state.rewindH length)

/-- `RandomFunction::execTransform` of `z`. -/
def execTransformZ (op : Nat → Nat → RandomBuffer → T) (state : RandomBuffer) (z : Operand)
    (schedule : List Nat) (memory : Nat × Int → T) : (Nat × Int → T) × RandomBuffer :=
  let length := z.info.length
  (transform (fun _ e => op e length state) ![] z schedule memory, state.rewindH length)

end Operation

/-! ## Numberings -/

/-- The loops put the operation of the elements at a coordinate, and of its number, there. -/
def Serves {r : Nat} (inputs : Fin r → Operand) (z : Operand) (k : List Nat → Nat) : Prop :=
  ∀ (T : Type) (op : (Fin r → T) → Nat → T) (memory : Nat × Int → T) (schedule : List Nat),
    schedule.Perm (List.range z.info.length) → ∀ c, InBox z.info.shape c →
      transform op inputs z schedule memory (z.buffer, dot c z.info.stride) =
        op (fun i => memory ((inputs i).buffer, dot c (inputs i).info.stride)) (k c)

/-- An array in C order without an element-wise stride. -/
def reference (shape : List Nat) : Operand where
  info :=
    { shape
      stride := calcStrides shape
      offset := 0
      elementWiseStride := 0
      order := 'c'
      stride_length := length_calcStrides shape }
  buffer := 0

/-- One numbering of the coordinates of the shape serves the arrays, and also an array without an
element-wise stride. -/
def NumbersAlike {r : Nat} (inputs : Fin r → Operand) (z : Operand) : Prop :=
  ∃ k : List Nat → Nat,
    Set.BijOn k {c | InBox z.info.shape c} {i | i < z.info.length} ∧
      Serves inputs z k ∧ Serves ![] (reference z.info.shape) k

/-- There is no element; or element-wise strides walk the arrays in F order, or the array is one
line; or coordinates walk arrays at the offset zero, and the output has cells of their own. -/
def Condition {r : Nat} (inputs : Fin r → Operand) (z : Operand) : Prop :=
  z.info.length = 0 ∨
    SlotsPositive inputs z ∧
      (IsLine z.info.shape ∨ z.info.isFOrder ∧ ∀ i, (inputs i).info.isFOrder) ∨
    ¬ SlotsPositive inputs z ∧
      CellsApart z.info ∧ z.info.offset = 0 ∧ ∀ i, (inputs i).info.offset = 0

/-- The number of a coordinate in F order. -/
def indexF (shape : List Nat) (c : List Nat) : Nat :=
  encode shape.reverse c.reverse

theorem indexF_decodeF {shape : List Nat} (hpos : ∀ d ∈ shape, 0 < d) {k : Nat}
    (hk : k < shape.prod) : indexF shape (decodeF shape k) = k := by
  have hpos' : ∀ d ∈ shape.reverse, 0 < d := fun d hd => hpos d (List.mem_reverse.mp hd)
  rw [indexF, decodeF, List.reverse_reverse]
  exact encode_decode hpos' (by rwa [List.prod_reverse])

theorem bijOn_indexF {shape : List Nat} (hpos : ∀ d ∈ shape, 0 < d) :
    Set.BijOn (indexF shape) {c | InBox shape c} {i | i < shape.prod} := by
  have hbij := bijOn_decodeF hpos
  refine ⟨fun c hc => ?_, fun c hc c' hc' heq => ?_, fun k hk => ?_⟩
  · obtain ⟨k, hk, rfl⟩ := hbij.surjOn hc
    show indexF shape (decodeF shape k) < shape.prod
    rw [indexF_decodeF hpos hk]
    exact hk
  · obtain ⟨k, hk, rfl⟩ := hbij.surjOn hc
    obtain ⟨k', hk', rfl⟩ := hbij.surjOn hc'
    rw [indexF_decodeF hpos hk, indexF_decodeF hpos hk'] at heq
    rw [heq]
  · exact ⟨decodeF shape k, hbij.mapsTo hk, indexF_decodeF hpos hk⟩

section Numberings

variable {r : Nat} {inputs : Fin r → Operand} {z : Operand} {k : List Nat → Nat}
    {T : Type} {e : Nat} {info : ShapeInfo}

/-- What a loop stores when its cells are distinct: no iteration reads what another one writes. -/
theorem fill_apply {cell : ShapeInfo → Nat → Int} {n : Nat}
    (hcells : ∀ e < n, ∀ e' < n, cell z.info e = cell z.info e' → e = e')
    (halias : ∀ i, (inputs i).buffer ≠ z.buffer ∨ inputs i = z) (op : (Fin r → T) → Nat → T)
    (memory : Nat × Int → T) {schedule : List Nat} (hschedule : schedule.Perm (List.range n))
    (he : e < n) :
    fill cell op inputs z schedule memory (z.buffer, cell z.info e) =
      op (fun i => memory ((inputs i).buffer, cell (inputs i).info e)) e := by
  have hlt : ∀ v ∈ schedule, v < n := fun v hv => List.mem_range.mp (hschedule.mem_iff.mp hv)
  refine @Stores.storeAll_of_independent Nat (Nat × Int) T _ _ _ schedule ?_ ?_ memory e
    (hschedule.mem_iff.mpr (List.mem_range.mpr he))
  · refine (hschedule.nodup_iff.mpr List.nodup_range).map_on fun v hv w hw heq => ?_
    exact hcells v (hlt v hv) w (hlt w hw) (Prod.ext_iff.mp heq).2
  · intro v hv w hw hne memory b
    refine congrArg (op · v) (funext fun i => ?_)
    rw [Function.update_of_ne]
    intro heq
    rcases halias i with hbuffer | hsame
    · exact hbuffer (Prod.ext_iff.mp heq).1
    · rw [hsame] at heq
      exact hne heq

/-- A walk that visits the coordinates in F order serves every coordinate with its number there. -/
theorem serves_of_cells {cell : ShapeInfo → Nat → Int} (hpos : z.info.Positive)
    (hloop : ∀ {T : Type} (op : (Fin r → T) → Nat → T) schedule memory,
      transform op inputs z schedule memory = fill cell op inputs z schedule memory)
    (halias : ∀ i, (inputs i).buffer ≠ z.buffer ∨ inputs i = z)
    (hcells : ∀ e < z.info.length, ∀ e' < z.info.length,
      cell z.info e = cell z.info e' → e = e')
    (hz : ∀ e < z.info.length, cell z.info e = dot (decodeF z.info.shape e) z.info.stride)
    (hinputs : ∀ i, ∀ e < z.info.length,
      cell (inputs i).info e = dot (decodeF z.info.shape e) (inputs i).info.stride) :
    Serves inputs z (indexF z.info.shape) := by
  intro T op memory schedule hschedule c hc
  obtain ⟨e, he, rfl⟩ := (bijOn_decodeF hpos).surjOn hc
  rw [hloop, indexF_decodeF hpos he, ← hz e he, fill_apply hcells halias op memory hschedule he]
  exact congrArg (op · e) (funext fun i => by rw [hinputs i e he])

/-! ### The cells of the two loops -/

theorem coordinateCell_eq (he : e < info.length) :
    coordinateCell info e = info.offset + dot (decodeF info.shape e) info.stride := by
  rw [coordinateCell, getOffset_ind2sub_eq (positive_of_length (Nat.zero_lt_of_lt he)) he,
    elementOffset_eq_dot]
  rfl

theorem ewsCell_eq (hews : info.HonestEws) (hslot : info.elementWiseStride ≥ 1)
    (he : e < info.length) :
    ewsCell info e = dot (coordinateOf info.isFOrder info.shape e) info.stride := by
  rw [ewsCell, ← hews hslot e he, elementOffset_eq_dot]

theorem ewsCell_inj (hslot : info.elementWiseStride ≥ 1) {e' : Nat}
    (h : ewsCell info e = ewsCell info e') : e = e' :=
  Nat.cast_injective (mul_right_cancel₀ (by omega) h)

theorem coordinateCell_inj (hcells : CellsApart info) :
    ∀ e < info.length, ∀ e' < info.length, coordinateCell info e = coordinateCell info e' →
      e = e' := by
  intro e he e' he' heq
  have hbij := bijOn_decodeF (positive_of_length (Nat.zero_lt_of_lt he))
  rw [coordinateCell_eq he, coordinateCell_eq he', add_right_inj] at heq
  exact hbij.injOn he he' (hcells _ _ (hbij.mapsTo he) (hbij.mapsTo he') heq)

theorem transform_ews (hslots : SlotsPositive inputs z) (op : (Fin r → T) → Nat → T)
    (schedule : List Nat) (memory : Nat × Int → T) :
    transform op inputs z schedule memory = fill ewsCell op inputs z schedule memory :=
  if_pos hslots

theorem transform_coordinates (hslots : ¬ SlotsPositive inputs z) (op : (Fin r → T) → Nat → T)
    (schedule : List Nat) (memory : Nat × Int → T) :
    transform op inputs z schedule memory = fill coordinateCell op inputs z schedule memory :=
  if_neg hslots

/-- Coordinates serve arrays at the offset zero. -/
theorem serves_coordinates (hpos : z.info.Positive) (hslots : ¬ SlotsPositive inputs z)
    (hshape : ∀ i, (inputs i).info.shape = z.info.shape)
    (halias : ∀ i, (inputs i).buffer ≠ z.buffer ∨ inputs i = z) (hcells : CellsApart z.info)
    (hz : z.info.offset = 0) (hinputs : ∀ i, (inputs i).info.offset = 0) :
    Serves inputs z (indexF z.info.shape) := by
  refine serves_of_cells hpos (transform_coordinates hslots) halias (coordinateCell_inj hcells)
    (fun e he => ?_) fun i e he => ?_
  · rw [coordinateCell_eq he, hz, zero_add]
  · have he' : e < (inputs i).info.length := by rwa [ShapeInfo.length, hshape i]
    rw [coordinateCell_eq he', hinputs i, zero_add, hshape i]

theorem serves_reference {shape : List Nat} (hpos : ∀ d ∈ shape, 0 < d) :
    Serves ![] (reference shape) (indexF shape) := by
  have hslots : ¬ SlotsPositive ![] (reference shape) := by
    rintro ⟨-, hslot⟩
    exact absurd hslot (show ¬ (0 : Int) ≥ 1 by decide)
  have hcells : CellsApart (reference shape).info := by
    refine cellsApart_of_nodup hpos ?_
    refine List.nodup_range.map_on fun e he e' he' heq => ?_
    have hdense : ∀ {k}, k < shape.prod →
        elementOffset false (reference shape).info.axes k = k := elementOffset_calcStrides
    rw [hdense (List.mem_range.mp he), hdense (List.mem_range.mp he')] at heq
    exact Nat.cast_injective heq
  exact serves_coordinates hpos hslots (fun i => i.elim0) (fun i => i.elim0) hcells rfl
    fun i => i.elim0

/-- Element-wise strides serve arrays in F order, and lines. -/
theorem serves_ews (hpos : z.info.Positive) (hslots : SlotsPositive inputs z)
    (hshape : ∀ i, (inputs i).info.shape = z.info.shape)
    (hews : ∀ i, (inputs i).info.HonestEws) (hewsZ : z.info.HonestEws)
    (halias : ∀ i, (inputs i).buffer ≠ z.buffer ∨ inputs i = z)
    (horder : IsLine z.info.shape ∨ z.info.isFOrder ∧ ∀ i, (inputs i).info.isFOrder) :
    Serves inputs z (indexF z.info.shape) := by
  have hcoordinate : ∀ isFOrder : Bool, (IsLine z.info.shape ∨ isFOrder) →
      ∀ e < z.info.length, coordinateOf isFOrder z.info.shape e = decodeF z.info.shape e := by
    rintro (_ | _) hisF e he
    · exact (forall_coordinateOf_iff hpos).mpr (hisF.resolve_right Bool.false_ne_true) e he
    · rfl
  refine serves_of_cells hpos (transform_ews hslots) halias
    (fun e _ e' _ heq => ewsCell_inj hslots.2 heq) (fun e he => ?_) fun i e he => ?_
  · rw [ewsCell_eq hewsZ hslots.2 he, hcoordinate _ (horder.imp_right And.left) e he]
  · have he' : e < (inputs i).info.length := by rwa [ShapeInfo.length, hshape i]
    rw [ewsCell_eq (hews i) (hslots.1 i) he', hshape i,
      hcoordinate _ (horder.imp_right fun h => h.2 i) e he]

theorem numbersAlike_of_condition (hshape : ∀ i, (inputs i).info.shape = z.info.shape)
    (hews : ∀ i, (inputs i).info.HonestEws) (hewsZ : z.info.HonestEws)
    (halias : ∀ i, (inputs i).buffer ≠ z.buffer ∨ inputs i = z) (h : Condition inputs z) :
    NumbersAlike inputs z := by
  rcases Nat.eq_zero_or_pos z.info.length with hzero | hlength
  · have hempty : ∀ c, ¬ InBox z.info.shape c := by
      intro c hc
      have hlt := encode_lt hc
      rw [ShapeInfo.length] at hzero
      omega
    refine ⟨fun _ => 0, ⟨fun c hc => absurd hc (hempty c), fun c hc => absurd hc (hempty c),
      fun i hi => ?_⟩, ?_, ?_⟩
    · have hi : i < z.info.length := hi
      omega
    · exact fun _ _ _ _ _ c hc => absurd hc (hempty c)
    · exact fun _ _ _ _ _ c hc => absurd hc (hempty c)
  · have hpos := positive_of_length hlength
    refine ⟨indexF z.info.shape, bijOn_indexF hpos, ?_, serves_reference hpos⟩
    rcases h with hzero | ⟨hslots, horder⟩ | ⟨hslots, hcells, hz, hinputs⟩
    · omega
    · exact serves_ews hpos hslots hshape hews hewsZ halias horder
    · exact serves_coordinates hpos hslots hshape halias hcells hz hinputs

/-! ### The numbering in F order -/

/-- A numbering that also serves an array without a slot is the one in F order. -/
theorem number_decodeF {shape : List Nat} (hpos : ∀ d ∈ shape, 0 < d)
    (h : Serves ![] (reference shape) k) (he : e < shape.prod) : k (decodeF shape e) = e := by
  have hbox : InBox shape (decodeF shape e) := (bijOn_decodeF hpos).mapsTo he
  have hk := h Nat (fun _ e => e) (fun _ => 0) _ (List.Perm.refl _) _ hbox
  have hindex := serves_reference hpos Nat (fun _ e => e) (fun _ => 0) _ (List.Perm.refl _) _ hbox
  rw [hk, indexF_decodeF hpos he] at hindex
  exact hindex

/-- Where element-wise strides are numbered alike, they walk in F order or through a line. -/
theorem order_of_ews (hpos : z.info.Positive) (hslots : SlotsPositive inputs z)
    (hshape : ∀ i, (inputs i).info.shape = z.info.shape)
    (hews : ∀ i, (inputs i).info.HonestEws) (hewsZ : z.info.HonestEws)
    (halias : ∀ i, (inputs i).buffer ≠ z.buffer ∨ inputs i = z) (hserves : Serves inputs z k)
    (hnumber : ∀ e < z.info.length, k (decodeF z.info.shape e) = e)
    (hbij : Set.BijOn k {c | InBox z.info.shape c} {i | i < z.info.length}) :
    IsLine z.info.shape ∨ z.info.isFOrder ∧ ∀ i, (inputs i).info.isFOrder := by
  have hcoordinates := fun isFOrder => bijOn_coordinateOf isFOrder hpos
  -- what is stored for the own element `e` of the output, by the loop and by the numbering
  have hboth : ∀ {T : Type} (op : (Fin r → T) → Nat → T) (memory : Nat × Int → T),
      ∀ e < z.info.length,
        op (fun i => memory ((inputs i).buffer, ewsCell (inputs i).info e)) e =
        op (fun i => memory ((inputs i).buffer,
            dot (coordinateOf z.info.isFOrder z.info.shape e) (inputs i).info.stride))
          (k (coordinateOf z.info.isFOrder z.info.shape e)) := by
    intro T op memory e he
    rw [← hserves T op memory _ (List.Perm.refl _) _ ((hcoordinates _).mapsTo he),
      ← ewsCell_eq hewsZ hslots.2 he, transform_ews hslots]
    exact (fill_apply (fun e _ e' _ heq => ewsCell_inj hslots.2 heq) halias op memory
      (List.Perm.refl _) he).symm
  have hown : ∀ e < z.info.length,
      coordinateOf z.info.isFOrder z.info.shape e = decodeF z.info.shape e := by
    intro e he
    apply hbij.injOn ((hcoordinates _).mapsTo he) ((hcoordinates true).mapsTo he)
    exact (hboth (fun _ e => e) (fun _ => 0) e he).symm.trans (hnumber e he).symm
  have hinput : ∀ i, ∀ e < z.info.length,
      coordinateOf (inputs i).info.isFOrder z.info.shape e = decodeF z.info.shape e := by
    intro i e he
    have he' : e < (inputs i).info.length := by rwa [ShapeInfo.length, hshape i]
    have hcell := hboth (fun v _ => v i) id e he
    simp only [id_eq] at hcell
    rw [hown e he, ewsCell_eq (hews i) (hslots.1 i) he', hshape i] at hcell
    have hcells := cellsApart_of_honest (hews i) (hslots.1 i)
    rw [CellsApart, hshape i] at hcells
    exact hcells _ _ ((hcoordinates _).mapsTo he) ((hcoordinates true).mapsTo he)
      (Prod.ext_iff.mp hcell).2
  have hline : ∀ isFOrder : Bool,
      (∀ e < z.info.length, coordinateOf isFOrder z.info.shape e = decodeF z.info.shape e) →
        IsLine z.info.shape ∨ isFOrder := by
    rintro (_ | _) hsame
    · exact .inl ((forall_coordinateOf_iff hpos).mp hsame)
    · exact .inr rfl
  by_cases hone : IsLine z.info.shape
  · exact .inl hone
  · exact .inr ⟨(hline _ hown).resolve_left hone, fun i => (hline _ (hinput i)).resolve_left hone⟩

/-- Where coordinates are numbered alike, the arrays start at the offset zero. -/
theorem offsets_of_coordinates (hlength : 0 < z.info.length) (hslots : ¬ SlotsPositive inputs z)
    (hshape : ∀ i, (inputs i).info.shape = z.info.shape)
    (halias : ∀ i, (inputs i).buffer ≠ z.buffer ∨ inputs i = z) (hserves : Serves inputs z k)
    (hbij : Set.BijOn k {c | InBox z.info.shape c} {i | i < z.info.length}) :
    CellsApart z.info ∧ z.info.offset = 0 ∧ ∀ i, (inputs i).info.offset = 0 := by
  have hpos := positive_of_length hlength
  have hdecode := bijOn_decodeF hpos
  have hcells : CellsApart z.info := by
    intro c c' hc hc' hdot
    apply hbij.injOn hc hc'
    have hfirst := hserves Nat (fun _ e => e) (fun _ => 0) _ (List.Perm.refl _) c hc
    have hsecond := hserves Nat (fun _ e => e) (fun _ => 0) _ (List.Perm.refl _) c' hc'
    rw [hdot] at hfirst
    exact hfirst.symm.trans hsecond
  have hoffset : z.info.offset = 0 := by
    -- every coordinate is written
    refine @Translates.eq_zero_of_subset_translate Int _ _
      ((List.range z.info.length).map fun e => dot (decodeF z.info.shape e) z.info.stride)
      (by simp; omega) z.info.offset fun v hv => ?_
    obtain ⟨e, he, rfl⟩ := List.mem_map.mp hv
    rw [List.mem_range] at he
    have hwritten := hserves Bool (fun _ _ => true) (fun _ => false) _ (List.Perm.refl _) _
      (hdecode.mapsTo he)
    by_contra hnone
    rw [transform_coordinates hslots, fill, Stores.storeAll_of_not_written] at hwritten
    · exact Bool.false_ne_true hwritten
    · intro j hj heq
      rw [List.mem_range] at hj
      have hcell := (Prod.ext_iff.mp heq).2
      simp only at hcell
      rw [coordinateCell_eq hj] at hcell
      refine hnone ?_
      rw [List.map_map]
      exact List.mem_map.mpr ⟨j, List.mem_range.mpr hj, hcell⟩
  refine ⟨hcells, hoffset, fun i => ?_⟩
  have hi : 0 < (inputs i).info.length := by rwa [ShapeInfo.length, hshape i]
  have hread := hserves (Nat × Int) (fun v _ => v i) id _ (List.Perm.refl _) _
    (hdecode.mapsTo hlength)
  have hcell : coordinateCell z.info 0 = dot (decodeF z.info.shape 0) z.info.stride := by
    rw [coordinateCell_eq hlength, hoffset, zero_add]
  rw [transform_coordinates hslots, ← hcell, fill_apply (coordinateCell_inj hcells) halias _ _
    (List.Perm.refl _) hlength] at hread
  have hsame := (Prod.ext_iff.mp hread).2
  simp only [id_eq] at hsame
  rw [coordinateCell_eq hi, hshape i] at hsame
  exact add_eq_right.mp hsame

/-- The arrays are numbered by their shape exactly under the condition. -/
theorem numbersAlike_iff (hshape : ∀ i, (inputs i).info.shape = z.info.shape)
    (hews : ∀ i, (inputs i).info.HonestEws) (hewsZ : z.info.HonestEws)
    (halias : ∀ i, (inputs i).buffer ≠ z.buffer ∨ inputs i = z) :
    NumbersAlike inputs z ↔ Condition inputs z := by
  refine ⟨?_, numbersAlike_of_condition hshape hews hewsZ halias⟩
  rintro ⟨k, hbij, hserves, hreference⟩
  rcases Nat.eq_zero_or_pos z.info.length with hzero | hlength
  · exact .inl hzero
  · have hpos := positive_of_length hlength
    by_cases hslots : SlotsPositive inputs z
    · exact .inr (.inl ⟨hslots, order_of_ews hpos hslots hshape hews hewsZ halias hserves
        (fun e he => number_decodeF hpos hreference he) hbij⟩)
    · exact .inr (.inr ⟨hslots, offsets_of_coordinates hlength hslots hshape halias hserves hbij⟩)

end Numberings

/-! ## The three functions -/

section Functions

variable {x y z : Operand} {k : List Nat → Nat}

/-- `z[c] = op(x[c], y[c], k(c))` at every coordinate, and the buffer advances by the length. -/
def ServesXYZ (x y z : Operand) (k : List Nat → Nat) : Prop :=
  ∀ (T : Type) (op : T → T → Nat → Nat → RandomBuffer → T) (state : RandomBuffer)
    (memory : Nat × Int → T) (schedule : List Nat), schedule.Perm (List.range z.info.length) →
    (∀ c, InBox z.info.shape c →
      (execTransformXYZ op state x y z schedule memory).1 (z.buffer, dot c z.info.stride) =
        op (memory (x.buffer, dot c x.info.stride)) (memory (y.buffer, dot c y.info.stride)) (k c)
          z.info.length state) ∧
      (execTransformXYZ op state x y z schedule memory).2 = state.rewindH z.info.length

/-- `z[c] = op(x[c], k(c))` at every coordinate, and the buffer advances by the length. -/
def ServesXZ (x z : Operand) (k : List Nat → Nat) : Prop :=
  ∀ (T : Type) (op : T → Nat → Nat → RandomBuffer → T) (state : RandomBuffer)
    (memory : Nat × Int → T) (schedule : List Nat), schedule.Perm (List.range z.info.length) →
    (∀ c, InBox z.info.shape c →
      (execTransformXZ op state x z schedule memory).1 (z.buffer, dot c z.info.stride) =
        op (memory (x.buffer, dot c x.info.stride)) (k c) z.info.length state) ∧
      (execTransformXZ op state x z schedule memory).2 = state.rewindH z.info.length

/-- `z[c] = op(k(c))` at every coordinate, and the buffer advances by the length. -/
def ServesZ (z : Operand) (k : List Nat → Nat) : Prop :=
  ∀ (T : Type) (op : Nat → Nat → RandomBuffer → T) (state : RandomBuffer)
    (memory : Nat × Int → T) (schedule : List Nat), schedule.Perm (List.range z.info.length) →
    (∀ c, InBox z.info.shape c →
      (execTransformZ op state z schedule memory).1 (z.buffer, dot c z.info.stride) =
        op (k c) z.info.length state) ∧
      (execTransformZ op state z schedule memory).2 = state.rewindH z.info.length

/-- A buffer that an operation need not look at. -/
def idleBuffer : RandomBuffer where
  size := 0
  buffer := fun _ => 0
  seed := 0
  currentPosition := 0
  generation := 1
  amplifier := 0

theorem servesXYZ_iff : ServesXYZ x y z k ↔ Serves ![x, y] z k := by
  constructor
  · intro h T op memory schedule hschedule c hc
    have hpair : ∀ v : Fin 2 → T, ![v 0, v 1] = v := fun v => FinVec.etaExpand_eq v
    have hserved := (h T (fun a b e _ _ => op ![a, b] e) idleBuffer memory schedule
      hschedule).1 c hc
    simp only [execTransformXYZ, hpair] at hserved
    rw [hserved]
    exact congrArg (op · (k c)) (hpair fun i => memory ((![x, y] i).buffer,
      dot c (![x, y] i).info.stride))
  · intro h T op state memory schedule hschedule
    exact ⟨fun c hc => h T (fun v e => op (v 0) (v 1) e z.info.length state) memory schedule
      hschedule c hc, rfl⟩

theorem servesXZ_iff : ServesXZ x z k ↔ Serves ![x] z k := by
  constructor
  · intro h T op memory schedule hschedule c hc
    have hsingle : ∀ v : Fin 1 → T, ![v 0] = v := fun v => FinVec.etaExpand_eq v
    have hserved := (h T (fun a e _ _ => op ![a] e) idleBuffer memory schedule hschedule).1 c hc
    simp only [execTransformXZ, hsingle] at hserved
    rw [hserved]
    exact congrArg (op · (k c)) (hsingle fun i => memory ((![x] i).buffer,
      dot c (![x] i).info.stride))
  · intro h T op state memory schedule hschedule
    exact ⟨fun c hc => h T (fun v e => op (v 0) e z.info.length state) memory schedule
      hschedule c hc, rfl⟩

theorem servesZ_iff : ServesZ z k ↔ Serves ![] z k := by
  constructor
  · intro h T op memory schedule hschedule c hc
    have hnone : ∀ v : Fin 0 → T, v = ![] := fun v => Subsingleton.elim _ _
    have hserved := (h T (fun e _ _ => op ![] e) idleBuffer memory schedule hschedule).1 c hc
    rw [hnone fun i => memory ((![] i : Operand).buffer, dot c (![] i : Operand).info.stride),
      ← hserved]
    refine congrFun (congrArg (transform · ![] z schedule memory) ?_) _
    exact funext fun v => funext fun e => by rw [hnone v]
  · intro h T op state memory schedule hschedule
    exact ⟨fun c hc => h T (fun _ e => op e z.info.length state) memory schedule hschedule c hc,
      rfl⟩

/-- One numbering of the coordinates of the shape serves a function, and also a function of an
array without an element-wise stride. -/
def OneNumbering (z : Operand) (serves : (List Nat → Nat) → Prop) : Prop :=
  ∃ k : List Nat → Nat, Set.BijOn k {c | InBox z.info.shape c} {i | i < z.info.length} ∧
    serves k ∧ ServesZ (reference z.info.shape) k

theorem oneNumbering_iff {r : Nat} {inputs : Fin r → Operand} {serves : (List Nat → Nat) → Prop}
    (h : ∀ k, serves k ↔ Serves inputs z k) :
    OneNumbering z serves ↔ NumbersAlike inputs z :=
  exists_congr fun k => and_congr_right fun _ => and_congr (h k) servesZ_iff

/-- Each of the three functions numbers by the shape exactly under the condition. -/
theorem execTransform_numbersAlike_iff (hxshape : x.info.shape = z.info.shape)
    (hyshape : y.info.shape = z.info.shape) (hx : x.info.HonestEws) (hy : y.info.HonestEws)
    (hz : z.info.HonestEws) (hxz : x.buffer ≠ z.buffer ∨ x = z)
    (hyz : y.buffer ≠ z.buffer ∨ y = z) :
    (OneNumbering z (ServesXYZ x y z) ↔ Condition ![x, y] z) ∧
      (OneNumbering z (ServesXZ x z) ↔ Condition ![x] z) ∧
      (OneNumbering z (ServesZ z) ↔ Condition ![] z) := by
  refine ⟨?_, ?_, ?_⟩
  · rw [oneNumbering_iff fun _ => servesXYZ_iff]
    exact numbersAlike_iff (Fin.forall_fin_two.mpr ⟨hxshape, hyshape⟩)
      (Fin.forall_fin_two.mpr ⟨hx, hy⟩) hz (Fin.forall_fin_two.mpr ⟨hxz, hyz⟩)
  · rw [oneNumbering_iff fun _ => servesXZ_iff]
    exact numbersAlike_iff (Fin.forall_fin_one.mpr hxshape) (Fin.forall_fin_one.mpr hx) hz
      (Fin.forall_fin_one.mpr hxz)
  · rw [oneNumbering_iff fun _ => servesZ_iff]
    exact numbersAlike_iff (fun i => i.elim0) (fun i => i.elim0) hz fun i => i.elim0

end Functions

/-- Two rows of two in C order, with an element-wise stride. -/
def rows : Operand where
  info :=
    { shape := [2, 2]
      stride := [2, 1]
      offset := 0
      elementWiseStride := 1
      order := 'c'
      stride_length := rfl }
  buffer := 0

theorem execTransform_numbersAlike_iff_rows :
    (OneNumbering rows (ServesXYZ rows rows rows) ↔ Condition ![rows, rows] rows) ∧
      (OneNumbering rows (ServesXZ rows rows) ↔ Condition ![rows] rows) ∧
      (OneNumbering rows (ServesZ rows) ↔ Condition ![] rows) :=
  execTransform_numbersAlike_iff rfl rfl (by decide) (by decide) (by decide) (.inr rfl) (.inr rfl)

/-- Rows that are walked by their element-wise stride are numbered in C order, but in F order
without a slot. -/
theorem not_oneNumbering_always :
    ¬ ∀ z : Operand, z.info.HonestEws → OneNumbering z (ServesZ z) := by
  intro h
  have hserves := (oneNumbering_iff fun _ => servesZ_iff).mp (h rows (by decide))
  have hslots : SlotsPositive ![] rows := ⟨fun i => i.elim0, by decide⟩
  rcases (numbersAlike_iff (fun i => i.elim0) (fun i => i.elim0) (by decide)
    fun i => i.elim0).mp hserves with hzero | ⟨-, hline | ⟨horder, -⟩⟩ | ⟨hnot, -⟩
  · exact absurd hzero (by decide)
  · exact absurd hline (by decide)
  · exact absurd horder (by decide)
  · exact hnot hslots

end RandomFunction

end Random
end LibND4J
