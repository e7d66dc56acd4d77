import LibND4J.Arrays.Operations

/-!
# Cancellation in the singular value decomposition

`NDArray::svd` keeps the diagonal of a bidiagonal matrix in the row `w` and what stands
above it in the vector `rv1`.  Where the splitting test meets a zero on the diagonal, a chain
of rotations moves the entry of `rv1` beside it out of the matrix.  Each rotation stores its
new diagonal entry in `w(i,0)`, which is the first cell of the row.

The entries are in a field and `eps` is zero, so that a test for a small entry is one for
zero.

Main results:

- Theorem `put_row`: the first index into a row is not looked at.
- Theorem `rotateColumns_spec`: the columns after one rotation.
- Theorem `cancelFrom_spec`: what the loop leaves.
- Theorem `keepsFactors_iff`: the factors are kept exactly if the first cell already holds
  what is stored in it and the product has no entries in the columns that are rotated.
- Theorem `not_keepsFactors_always`: a singular matrix of two rows.
-/

namespace LibND4J
namespace Arrays

open Strided Shape

/-! ## The routine -/

section Routine

variable {T : Type}

/-- The entry that `operator()(i, j)` refers to is assigned to. -/
def NDArray.put (array : NDArray T) (i j : Nat) (value : T) : NDArray T :=
  ⟨array.shapeInfo, Function.update array.buffer
    (getOffset 0 array.shapeInfo.shape array.shapeInfo.stride [i, j]) value⟩

/-- The arrays that the diagonalization works on. -/
structure SvdState (T : Type) where
  u : NDArray T
  w : NDArray T
  rv1 : Nat → T

variable [Field T] [DecidableEq T]

/-- The test for splitting, from the position `l` down: where it ends and `flag`. -/
def SvdState.splittingTest (state : SvdState T) : Nat → Nat × Bool
  | 0 => (0, false)
  | nm + 1 =>
      if state.rv1 (nm + 1) = 0 then (nm + 1, false)
      else if state.w.element [0, nm] = 0 then (nm + 1, true)
      else state.splittingTest nm

/-- The loop over the rows of two columns of `u`. -/
def NDArray.rotateColumns (u : NDArray T) (m nm i : Nat) (c s : T) : NDArray T :=
  (List.range m).foldl
    (fun u j =>
      let y := u.element [j, nm]
      let z := u.element [j, i]
      (u.put j nm (y * c + z * s)).put j i (z * c - y * s))
    u

/-- The loop of the cancellation, from the position `i` on. -/
def SvdState.cancelFrom (pythag : T → T → T) (m nm : Nat) :
    Nat → Nat → T → T → SvdState T → SvdState T
  | 0, _, _, _, state => state
  | count + 1, i, c, s, state =>
      let f := s * state.rv1 i
      let rv1 := Function.update state.rv1 i (state.rv1 i * c)
      if f = 0 then { state with rv1 := rv1 }
      else
        let g := state.w.element [0, i]
        let h := pythag f g
        let w := state.w.put i 0 h
        let h := 1 / h
        let c := g * h
        let s := -f * h
        cancelFrom pythag m nm count (i + 1) c s ⟨state.u.rotateColumns m nm i c s, w, rv1⟩

/-- The cancellation of `rv1[l]`. -/
def SvdState.cancellation (pythag : T → T → T) (m l k : Nat) (state : SvdState T) : SvdState T :=
  state.cancelFrom pythag m (l - 1) (k + 1 - l) l 0 1

end Routine

/-! ## Entries -/

section Entries

variable {T : Type} {array : NDArray T} {m n : Nat}

@[simp]
theorem shapeInfo_put (array : NDArray T) (i j : Nat) (value : T) :
    (array.put i j value).shapeInfo = array.shapeInfo :=
  rfl

/-- An entry after an assignment. -/
theorem element_put (hshape : array.shapeInfo.shape = [m, n]) (hcells : CellsApart array.shapeInfo)
    {r c r' c' : Nat} (hr : r < m) (hc : c < n) (hr' : r' < m) (hc' : c' < n) (value : T) :
    (array.put r c value).element [r', c'] =
      if r' = r ∧ c' = c then value else array.element [r', c'] := by
  have hbox : InBox array.shapeInfo.shape [r, c] := by
    rw [hshape]
    exact .cons hr (.cons hc .nil)
  have hbox' : InBox array.shapeInfo.shape [r', c'] := by
    rw [hshape]
    exact .cons hr' (.cons hc' .nil)
  have hread : (array.put r c value).element [r', c'] =
      (array.put r c value).buffer (dot [r', c'] array.shapeInfo.stride) :=
    @element_eq T (array.put r c value) _ hbox'
  have hcell : getOffset 0 array.shapeInfo.shape array.shapeInfo.stride [r, c] =
      dot [r, c] array.shapeInfo.stride := by
    rw [getOffset_eq hbox array.shapeInfo.stride_length, zero_add]
  rw [hread, element_eq hbox', NDArray.put, hcell]
  by_cases hsame : r' = r ∧ c' = c
  · rw [if_pos hsame, hsame.1, hsame.2]
    exact Function.update_self _ _ _
  · rw [if_neg hsame]
    refine Function.update_of_ne (fun heq => hsame ?_) _ _
    have hcoords := hcells _ _ hbox' hbox heq
    simpa using hcoords

/-- The first index into a row is not looked at. -/
theorem put_row (hshape : array.shapeInfo.shape = [1, n]) (i j : Nat) (value : T) :
    array.put i j value = array.put 0 j value := by
  obtain ⟨s, t, hstride⟩ : ∃ s t, array.shapeInfo.stride = [s, t] := by
    apply List.length_eq_two.mp
    rw [array.shapeInfo.stride_length, hshape]
    rfl
  have hoffset : ∀ i, getOffset 0 array.shapeInfo.shape array.shapeInfo.stride [i, j] =
      getOffset 0 [n] [t] [j] := by
    intro i
    rw [hshape, hstride]
    simp [getOffset]
  rw [NDArray.put, NDArray.put, hoffset, hoffset]

end Entries

/-! ## Rotations -/

section Rotations

variable {T : Type} [Field T] {u u' : NDArray T} {m n p nm i : Nat} {c s : T}

/-- The first rows have been rotated. -/
structure RotatedRows (u u' : NDArray T) (m n p nm i : Nat) (c s : T) : Prop where
  shapeInfo_eq : u'.shapeInfo = u.shapeInfo
  first : ∀ r < p, u'.element [r, nm] = u.element [r, nm] * c + u.element [r, i] * s
  second : ∀ r < p, u'.element [r, i] = u.element [r, i] * c - u.element [r, nm] * s
  others : ∀ r < m, ∀ j < n, (j ≠ nm ∧ j ≠ i) ∨ p ≤ r → u'.element [r, j] = u.element [r, j]

theorem RotatedRows.start (u : NDArray T) (m n nm i : Nat) (c s : T) :
    RotatedRows u u m n 0 nm i c s where
  shapeInfo_eq := rfl
  first := fun _ hr => absurd hr (Nat.not_lt_zero _)
  second := fun _ hr => absurd hr (Nat.not_lt_zero _)
  others := fun _ _ _ _ _ => rfl

theorem RotatedRows.next (h : RotatedRows u u' m n p nm i c s)
    (hshape : u.shapeInfo.shape = [m, n]) (hcells : CellsApart u.shapeInfo) (hp : p < m)
    (hnm : nm < n) (hi : i < n) (hne : nm ≠ i) :
    RotatedRows u ((u'.put p nm (u'.element [p, nm] * c + u'.element [p, i] * s)).put p i
      (u'.element [p, i] * c - u'.element [p, nm] * s)) m n (p + 1) nm i c s := by
  have hinfo := h.shapeInfo_eq
  have hshape' : u'.shapeInfo.shape = [m, n] := hinfo ▸ hshape
  have hcells' : CellsApart u'.shapeInfo := hinfo ▸ hcells
  have hrow : ∀ j < n, u'.element [p, j] = u.element [p, j] := fun j hj =>
    h.others p hp j hj (Or.inr (le_refl p))
  have hread : ∀ r < m, ∀ j < n, ((u'.put p nm (u'.element [p, nm] * c +
      u'.element [p, i] * s)).put p i (u'.element [p, i] * c - u'.element [p, nm] * s)).element
        [r, j] =
      if r = p ∧ j = i then u.element [p, i] * c - u.element [p, nm] * s
      else if r = p ∧ j = nm then u.element [p, nm] * c + u.element [p, i] * s
      else u'.element [r, j] := by
    intro r hr j hj
    rw [element_put (by rw [shapeInfo_put, hshape']) (by rwa [shapeInfo_put]) hp hi hr hj,
      element_put hshape' hcells' hp hnm hr hj, hrow nm hnm, hrow i hi]
  exact
    { shapeInfo_eq := hinfo
      first := by
        intro r hr
        rw [hread r (by omega) nm hnm]
        by_cases hlast : r = p
        · rw [if_neg (fun heq => hne heq.2), if_pos ⟨hlast, rfl⟩, hlast]
        · rw [if_neg (fun heq => hlast heq.1), if_neg (fun heq => hlast heq.1)]
          exact h.first r (by omega)
      second := by
        intro r hr
        rw [hread r (by omega) i hi]
        by_cases hlast : r = p
        · rw [if_pos ⟨hlast, rfl⟩, hlast]
        · rw [if_neg (fun heq => hlast heq.1), if_neg (fun heq => hlast heq.1)]
          exact h.second r (by omega)
      others := by
        intro r hr j hj hother
        rw [hread r hr j hj, if_neg (by omega), if_neg (by omega)]
        exact h.others r hr j hj (by omega) }

/-- The columns after one rotation. -/
theorem rotateColumns_spec (hshape : u.shapeInfo.shape = [m, n]) (hcells : CellsApart u.shapeInfo)
    (hnm : nm < n) (hi : i < n) (hne : nm ≠ i) (c s : T) :
    RotatedRows u (u.rotateColumns m nm i c s) m n m nm i c s := by
  have hrows : ∀ p ≤ m, RotatedRows u ((List.range p).foldl
      (fun u j => (u.put j nm (u.element [j, nm] * c + u.element [j, i] * s)).put j i
        (u.element [j, i] * c - u.element [j, nm] * s)) u) m n p nm i c s := by
    intro p
    induction p with
    | zero => exact fun _ => .start u m n nm i c s
    | succ p ih =>
        intro hp
        rw [List.range_succ, List.foldl_append]
        exact (ih (by omega)).next hshape hcells hp hnm hi hne
  exact hrows m (le_refl m)

end Rotations

/-! ## The chain of rotations -/

section Chain

variable {T : Type} [Field T]

section Sequences

variable (pythag : T → T → T) (state : SvdState T) (l : Nat)

/-- The sine before the rotation at `l + e`. -/
def sine : Nat → T
  | 0 => 1
  | e + 1 => -(sine e * state.rv1 (l + e)) *
      (1 / pythag (sine e * state.rv1 (l + e)) (state.w.element [0, l + e]))

/-- The entry that the rotation at `l + e` removes. -/
def fill (e : Nat) : T :=
  sine pythag state l e * state.rv1 (l + e)

/-- What the rotation at `l + e` stores. -/
def hypotenuse (e : Nat) : T :=
  pythag (fill pythag state l e) (state.w.element [0, l + e])

/-- The cosine before the rotation at `l + e`. -/
def cosine : Nat → T
  | 0 => 0
  | e + 1 => state.w.element [0, l + e] * (1 / hypotenuse pythag state l e)

/-- The entry of the column before `l` before the rotation at `l + e`. -/
def carried (r : Nat) : Nat → T
  | 0 => state.u.element [r, l - 1]
  | e + 1 => carried r e * cosine pythag state l (e + 1) +
      state.u.element [r, l + e] * sine pythag state l (e + 1)

/-- The entry of the column `l + e` after its rotation. -/
def rotated (r e : Nat) : T :=
  state.u.element [r, l + e] * cosine pythag state l (e + 1) -
    carried pythag state l r e * sine pythag state l (e + 1)

end Sequences

/-- What `e` rotations leave. -/
structure Rotated (pythag : T → T → T) (state : SvdState T) (m n l e : Nat)
    (state' : SvdState T) : Prop where
  u_eq : state'.u.shapeInfo = state.u.shapeInfo
  w_eq : state'.w.shapeInfo = state.w.shapeInfo
  diagonal : ∀ j < n, j ≠ 0 → state'.w.element [0, j] = state.w.element [0, j]
  first : state'.w.element [0, 0] =
    if e = 0 then state.w.element [0, 0] else hypotenuse pythag state l (e - 1)
  above : ∀ j, state'.rv1 (l + j) =
    if j < e then cosine pythag state l j * state.rv1 (l + j) else state.rv1 (l + j)
  before : ∀ j < l, state'.rv1 j = state.rv1 j
  column : ∀ r < m, state'.u.element [r, l - 1] = carried pythag state l r e
  columns : ∀ r < m, ∀ j < e, state'.u.element [r, l + j] = rotated pythag state l r j
  others : ∀ r < m, ∀ j < n, j ≠ l - 1 → (j < l ∨ l + e ≤ j) →
    state'.u.element [r, j] = state.u.element [r, j]

section Steps

variable {pythag : T → T → T} {state state' : SvdState T} {m n l e : Nat}

theorem sine_succ (pythag : T → T → T) (state : SvdState T) (l e : Nat) :
    sine pythag state l (e + 1) =
      -(fill pythag state l e) * (1 / hypotenuse pythag state l e) :=
  rfl

theorem Rotated.start (pythag : T → T → T) (state : SvdState T) (m n l : Nat) :
    Rotated pythag state m n l 0 state where
  u_eq := rfl
  w_eq := rfl
  diagonal := fun _ _ _ => rfl
  first := rfl
  above := fun j => (if_neg (Nat.not_lt_zero j)).symm
  before := fun _ _ => rfl
  column := fun _ _ => rfl
  columns := fun _ _ j hj => absurd hj (Nat.not_lt_zero j)
  others := fun _ _ _ _ _ _ => rfl

/-- One more rotation. -/
theorem Rotated.next (h : Rotated pythag state m n l e state')
    (hu : state.u.shapeInfo.shape = [m, n]) (hucells : CellsApart state.u.shapeInfo)
    (hw : state.w.shapeInfo.shape = [1, n]) (hwcells : CellsApart state.w.shapeInfo)
    (hl : 1 ≤ l) (hn : l + e < n) :
    Rotated pythag state m n l (e + 1)
      ⟨state'.u.rotateColumns m (l - 1) (l + e) (cosine pythag state l (e + 1))
          (sine pythag state l (e + 1)),
        state'.w.put (l + e) 0 (hypotenuse pythag state l e),
        Function.update state'.rv1 (l + e) (state'.rv1 (l + e) * cosine pythag state l e)⟩ := by
  have hrotated := @rotateColumns_spec T _ state'.u m n (l - 1) (l + e) (h.u_eq ▸ hu)
    (h.u_eq ▸ hucells) (by omega) hn (by omega) (cosine pythag state l (e + 1))
    (sine pythag state l (e + 1))
  have hstored : ∀ j < n, (state'.w.put (l + e) 0 (hypotenuse pythag state l e)).element [0, j] =
      if j = 0 then hypotenuse pythag state l e else state'.w.element [0, j] := by
    intro j hj
    rw [put_row (h.w_eq ▸ hw), element_put (h.w_eq ▸ hw) (h.w_eq ▸ hwcells) Nat.one_pos
      (by omega) Nat.one_pos hj]
    simp only [true_and]
  have hold : ∀ r < m, state'.u.element [r, l + e] = state.u.element [r, l + e] := fun r hr =>
    h.others r hr (l + e) hn (by omega) (Or.inr (le_refl _))
  exact
    { u_eq := hrotated.shapeInfo_eq.trans h.u_eq
      w_eq := h.w_eq
      diagonal := by
        intro j hj hne
        rw [hstored j hj, if_neg hne, h.diagonal j hj hne]
      first := by
        rw [hstored 0 (by omega), if_pos rfl, if_neg (Nat.succ_ne_zero e), Nat.add_sub_cancel]
      above := by
        intro j
        show Function.update state'.rv1 (l + e) _ (l + j) = _
        by_cases hlast : j = e
        · subst hlast
          rw [if_pos (Nat.lt_succ_self j), Function.update_self, h.above j,
            if_neg (Nat.lt_irrefl j), mul_comm]
        · rw [Function.update_of_ne (by omega), h.above j]
          exact if_congr (by omega) rfl rfl
      before := by
        intro j hj
        show Function.update state'.rv1 (l + e) _ j = _
        rw [Function.update_of_ne (by omega), h.before j hj]
      column := by
        intro r hr
        rw [hrotated.first r hr, h.column r hr, hold r hr]
        rfl
      columns := by
        intro r hr j hj
        by_cases hlast : j = e
        · subst hlast
          rw [hrotated.second r hr, h.column r hr, hold r hr]
          rfl
        · rw [hrotated.others r hr (l + j) (by omega) (Or.inl (by omega))]
          exact h.columns r hr j (by omega)
      others := by
        intro r hr j hj hne hother
        rw [hrotated.others r hr j hj (Or.inl (by omega))]
        exact h.others r hr j hj hne (by omega) }

variable [DecidableEq T]

/-- What the loop leaves where it is not left early. -/
theorem cancelFrom_spec (hu : state.u.shapeInfo.shape = [m, n])
    (hucells : CellsApart state.u.shapeInfo) (hw : state.w.shapeInfo.shape = [1, n])
    (hwcells : CellsApart state.w.shapeInfo) (hl : 1 ≤ l) {count : Nat}
    (h : Rotated pythag state m n l e state') (hn : l + e + count ≤ n)
    (hfill : ∀ j < count, fill pythag state l (e + j) ≠ 0) :
    Rotated pythag state m n l (e + count) (state'.cancelFrom pythag m (l - 1) count (l + e)
      (cosine pythag state l e) (sine pythag state l e)) := by
  induction count generalizing e state' with
  | zero => exact h
  | succ count ih =>
      have hf : sine pythag state l e * state'.rv1 (l + e) = fill pythag state l e := by
        rw [h.above e, if_neg (Nat.lt_irrefl e)]
        rfl
      have hg : state'.w.element [0, l + e] = state.w.element [0, l + e] :=
        h.diagonal (l + e) (by omega) (by omega)
      have hne : fill pythag state l e ≠ 0 := hfill 0 (by omega)
      unfold SvdState.cancelFrom
      simp only [hf, hg, if_neg hne]
      have hstep := ih (h.next hu hucells hw hwcells hl (by omega)) (by omega)
        (fun j hj => by
          have hnext := hfill (j + 1) (by omega)
          rwa [show e + 1 + j = e + (j + 1) by omega])
      rwa [show e + 1 + count = e + (count + 1) by omega] at hstep

end Steps

end Chain

/-! ## The product of the factors -/

section Factors

variable {T : Type} [Field T]

/-- The matrix that an array holds. -/
def NDArray.toMatrix (array : NDArray T) (m n : Nat) : Matrix (Fin m) (Fin n) T :=
  Matrix.of fun r c => array.element [r.val, c.val]

/-- The bidiagonal matrix of a diagonal and of what stands above it. -/
def bidiagonal (w : NDArray T) (rv1 : Nat → T) (n : Nat) : Matrix (Fin n) (Fin n) T :=
  Matrix.of fun r c =>
    if r = c then w.element [0, c.val] else if r.val + 1 = c.val then rv1 c.val else 0

/-- The product of `u`, the bidiagonal matrix and the transpose of `vt`. -/
def SvdState.product (state : SvdState T) (m n : Nat) (vt : Matrix (Fin n) (Fin n) T) :
    Matrix (Fin m) (Fin n) T :=
  state.u.toMatrix m n * bidiagonal state.w state.rv1 n * vt.transpose

/-- An entry of the product of `u` and the bidiagonal matrix. -/
def SvdState.entry (state : SvdState T) (r c : Nat) : T :=
  (if c = 0 then 0 else state.u.element [r, c - 1] * state.rv1 c) +
    state.u.element [r, c] * state.w.element [0, c]

theorem entry_eq (state : SvdState T) (m n : Nat) (r : Fin m) (c : Fin n) :
    (state.u.toMatrix m n * bidiagonal state.w state.rv1 n) r c = state.entry r c := by
  have hterm : ∀ j : Fin n, state.u.toMatrix m n r j * bidiagonal state.w state.rv1 n j c =
      (if j.val + 1 = c.val then state.u.element [r.val, j.val] * state.rv1 c else 0) +
        if j = c then state.u.element [r.val, c.val] * state.w.element [0, c.val] else 0 := by
    intro j
    simp only [NDArray.toMatrix, bidiagonal, Matrix.of_apply]
    by_cases hsame : j = c
    · rw [if_pos hsame, if_pos hsame, if_neg (by rw [hsame]; omega), hsame, zero_add]
    · rw [if_neg hsame, if_neg hsame, add_zero, mul_ite, mul_zero]
  rw [Matrix.mul_apply, Finset.sum_congr rfl fun j _ => hterm j, Finset.sum_add_distrib,
    Finset.sum_ite_eq' Finset.univ c, if_pos (Finset.mem_univ c), SvdState.entry]
  congr 1
  by_cases hzero : c.val = 0
  · rw [if_pos hzero]
    exact Finset.sum_eq_zero fun j _ => if_neg (by omega)
  · rw [if_neg hzero]
    rw [Finset.sum_eq_single_of_mem (⟨c.val - 1, by omega⟩ : Fin n) (Finset.mem_univ _)]
    · rw [if_pos (by show c.val - 1 + 1 = c.val; omega)]
    · intro j _ hne
      refine if_neg fun heq => hne (Fin.ext ?_)
      show j.val = c.val - 1
      omega

/-- The product is the same for every `vt` exactly if the entries of the first two factors are. -/
theorem product_eq_iff (state state' : SvdState T) (m n : Nat) :
    (∀ vt, state'.product m n vt = state.product m n vt) ↔
      ∀ r < m, ∀ c < n, state'.entry r c = state.entry r c := by
  constructor
  · intro h r hr c hc
    have hone := h 1
    rw [SvdState.product, SvdState.product, Matrix.transpose_one, Matrix.mul_one,
      Matrix.mul_one] at hone
    have hentry := congrFun (congrFun hone ⟨r, hr⟩) ⟨c, hc⟩
    rwa [entry_eq, entry_eq] at hentry
  · intro h vt
    have hfactors : state'.u.toMatrix m n * bidiagonal state'.w state'.rv1 n =
        state.u.toMatrix m n * bidiagonal state.w state.rv1 n := by
      ext r c
      rw [entry_eq, entry_eq, h r.val r.isLt c.val c.isLt]
    rw [SvdState.product, SvdState.product, hfactors]

end Factors

/-! ## The cancellation -/

section Cancellation

variable {T : Type} [Field T] {pythag : T → T → T} {state : SvdState T} {m n l k : Nat}

/-- A nonzero root of the sum of the squares. -/
def IsPythag (pythag : T → T → T) : Prop :=
  ∀ f g, f ≠ 0 → pythag f g ≠ 0 ∧ pythag f g * pythag f g = f * f + g * g

theorem IsPythag.ne (hpythag : IsPythag pythag) {f : T} (hf : f ≠ 0) (g : T) :
    pythag f g ≠ g := by
  intro heq
  have hsquare := (hpythag f g hf).2
  rw [heq, right_eq_add] at hsquare
  exact hf (mul_self_eq_zero.mp hsquare)

/-- Where nothing above the diagonal is zero, every rotation has an entry to remove. -/
theorem fill_ne_zero (hpythag : IsPythag pythag) {e : Nat}
    (h : ∀ j ≤ e, state.rv1 (l + j) ≠ 0) : fill pythag state l e ≠ 0 := by
  induction e with
  | zero => exact mul_ne_zero one_ne_zero (h 0 (le_refl 0))
  | succ e ih =>
      have hfill := ih fun j hj => h j (by omega)
      have hroot := (hpythag _ (state.w.element [0, l + e]) hfill).1
      rw [fill, sine_succ]
      exact mul_ne_zero (mul_ne_zero (neg_ne_zero.mpr hfill) (one_div_ne_zero hroot))
        (h (e + 1) (le_refl _))

section Columns

variable {e : Nat} {r : Nat}

/-- The first column of the chain, in terms of the rotated one. -/
theorem entry_first (hl : 1 ≤ l) (hpythag : IsPythag pythag)
    (hfill : fill pythag state l 0 ≠ 0) :
    state.entry r l = rotated pythag state l r 0 * hypotenuse pythag state l 0 := by
  have hroot : hypotenuse pythag state l 0 ≠ 0 := (hpythag _ _ hfill).1
  have hf : fill pythag state l 0 = state.rv1 l := one_mul _
  rw [SvdState.entry, if_neg (by omega), rotated, sine_succ, cosine, carried, hf, Nat.add_zero]
  field_simp
  ring

/-- The rotations are rotations. -/
theorem cosine_sine (hpythag : IsPythag pythag) (hfill : fill pythag state l e ≠ 0) :
    cosine pythag state l (e + 1) * cosine pythag state l (e + 1) +
      sine pythag state l (e + 1) * sine pythag state l (e + 1) = 1 := by
  obtain ⟨hroot, hsquare⟩ := hpythag _ (state.w.element [0, l + e]) hfill
  rw [sine_succ, cosine, hypotenuse]
  field_simp
  linear_combination -hsquare

/-- A later column of the chain, in terms of the rotated ones. -/
theorem entry_later (hpythag : IsPythag pythag) (hfill : fill pythag state l e ≠ 0)
    (hfill' : fill pythag state l (e + 1) ≠ 0) :
    state.entry r (l + (e + 1)) =
      rotated pythag state l r e * (cosine pythag state l (e + 1) * state.rv1 (l + (e + 1))) +
        rotated pythag state l r (e + 1) * hypotenuse pythag state l (e + 1) := by
  have hroot : hypotenuse pythag state l (e + 1) ≠ 0 := (hpythag _ _ hfill').1
  have hcircle := cosine_sine (l := l) hpythag hfill
  have hlast : rotated pythag state l r (e + 1) * hypotenuse pythag state l (e + 1) =
      state.u.element [r, l + (e + 1)] * state.w.element [0, l + (e + 1)] +
        carried pythag state l r (e + 1) * fill pythag state l (e + 1) := by
    rw [rotated, sine_succ, cosine]
    field_simp
    ring
  rw [hlast, SvdState.entry, if_neg (by omega), show l + (e + 1) - 1 = l + e by omega, rotated,
    fill, carried]
  linear_combination (-(state.u.element [r, l + e] * state.rv1 (l + (e + 1)))) * hcircle

/-- The rotated columns are zero exactly if the columns of the product are. -/
theorem rotated_eq_zero_iff (hl : 1 ≤ l) (hpythag : IsPythag pythag)
    (hfill : ∀ j ≤ e, fill pythag state l j ≠ 0) :
    (∀ j ≤ e, rotated pythag state l r j = 0) ↔ ∀ j ≤ e, state.entry r (l + j) = 0 := by
  have hfirst := @entry_first T _ pythag state l r hl hpythag (hfill 0 (Nat.zero_le e))
  constructor
  · intro h j hj
    cases j with
    | zero => rw [Nat.add_zero, hfirst, h 0 hj, zero_mul]
    | succ j =>
        rw [entry_later hpythag (hfill j (by omega)) (hfill (j + 1) hj), h j (by omega), h (j + 1) hj,
          zero_mul, zero_mul, add_zero]
  · intro h j
    have hroot : ∀ i ≤ e, hypotenuse pythag state l i ≠ 0 := fun i hi =>
      (hpythag _ _ (hfill i hi)).1
    induction j with
    | zero =>
        intro hj
        rw [← Nat.add_zero l, h 0 hj] at hfirst
        exact (mul_eq_zero.mp hfirst.symm).resolve_right (hroot 0 hj)
    | succ j ih =>
        intro hj
        have hlater := @entry_later T _ pythag state l j r hpythag (hfill j (by omega))
          (hfill (j + 1) hj)
        rw [h (j + 1) hj, ih (by omega), zero_mul, zero_add] at hlater
        exact (mul_eq_zero.mp hlater.symm).resolve_right (hroot (j + 1) hj)

variable {count : Nat} {state' : SvdState T}

/-- What is missing in a column of the chain after the rotations. -/
theorem entry_sub (hl : 1 ≤ l) (hpythag : IsPythag pythag)
    (hfill : ∀ j ≤ e, fill pythag state l j ≠ 0) (h : Rotated pythag state m n l count state')
    (he : e < count) (hn : l + e < n) (hr : r < m) :
    state.entry r (l + e) - state'.entry r (l + e) =
      rotated pythag state l r e * (hypotenuse pythag state l e - state.w.element [0, l + e]) := by
  have hw : state'.w.element [0, l + e] = state.w.element [0, l + e] :=
    h.diagonal (l + e) hn (by omega)
  have hcolumn : state'.u.element [r, l + e] = rotated pythag state l r e := h.columns r hr e he
  have habove : state'.rv1 (l + e) = cosine pythag state l e * state.rv1 (l + e) := by
    rw [h.above e, if_pos he]
  cases e with
  | zero =>
      have hfirst := @entry_first T _ pythag state l r hl hpythag (hfill 0 (le_refl 0))
      rw [Nat.add_zero] at hw hcolumn habove ⊢
      have hzero : state'.rv1 l = 0 := by rw [habove, cosine, zero_mul]
      have hlast : state'.entry r l = rotated pythag state l r 0 * state.w.element [0, l] := by
        rw [SvdState.entry, if_neg (by omega), hzero, hcolumn, hw]
        ring
      rw [hfirst, hlast]
      ring
  | succ e =>
      have hlater := @entry_later T _ pythag state l e r hpythag (hfill e (by omega))
        (hfill (e + 1) (le_refl _))
      have hbefore : state'.u.element [r, l + (e + 1) - 1] = rotated pythag state l r e :=
        h.columns r hr e (by omega)
      have hlast : state'.entry r (l + (e + 1)) =
          rotated pythag state l r e * (cosine pythag state l (e + 1) * state.rv1 (l + (e + 1))) +
            rotated pythag state l r (e + 1) * state.w.element [0, l + (e + 1)] := by
        rw [SvdState.entry, if_neg (by omega), hbefore, habove, hcolumn, hw]
      rw [hlater, hlast]
      ring

/-- The column beside the chain. -/
theorem entry_beside (h : Rotated pythag state m n l (count + 1) state') (hn : l + count + 1 < n)
    {r : Nat} (hr : r < m) (hzero : rotated pythag state l r count = 0) :
    state'.entry r (l + count + 1) = state.entry r (l + count + 1) ↔
      state.u.element [r, l + count] * state.rv1 (l + count + 1) = 0 := by
  have hcolumn : state'.u.element [r, l + count + 1 - 1] = 0 := by
    rw [Nat.add_sub_cancel, h.columns r hr count (by omega), hzero]
  have hnext : state'.u.element [r, l + count + 1] = state.u.element [r, l + count + 1] :=
    h.others r hr _ hn (by omega) (Or.inr (by omega))
  have hw : state'.w.element [0, l + count + 1] = state.w.element [0, l + count + 1] :=
    h.diagonal _ hn (by omega)
  rw [SvdState.entry, SvdState.entry, if_neg (by omega), if_neg (by omega), hcolumn, hnext, hw,
    zero_mul, zero_add, right_eq_add, Nat.add_sub_cancel]

/-- The other columns stay, where the first cell of the diagonal does. -/
theorem entry_others (h : Rotated pythag state m n l count state') (hl : 1 ≤ l)
    (hzero : state.w.element [0, l - 1] = 0)
    (hfirst : state'.w.element [0, 0] = state.w.element [0, 0]) {r c : Nat} (hr : r < m)
    (hc : c < n) (hother : c < l ∨ l + count < c) : state'.entry r c = state.entry r c := by
  have hw : state'.w.element [0, c] = state.w.element [0, c] := by
    by_cases hstart : c = 0
    · rw [hstart, hfirst]
    · exact h.diagonal c hc hstart
  have habove : state'.rv1 c = state.rv1 c := by
    by_cases hbefore : c < l
    · exact h.before c hbefore
    · have hlater := h.above (c - l)
      rwa [if_neg (by omega), show l + (c - l) = c by omega] at hlater
  have hleft : (if c = 0 then 0 else state'.u.element [r, c - 1] * state'.rv1 c) =
      if c = 0 then 0 else state.u.element [r, c - 1] * state.rv1 c := by
    by_cases hstart : c = 0
    · rw [if_pos hstart, if_pos hstart]
    · rw [if_neg hstart, if_neg hstart, habove,
        h.others r hr (c - 1) (by omega) (by omega) (by omega)]
  rw [SvdState.entry, SvdState.entry, hleft, hw]
  by_cases hnm : c = l - 1
  · rw [hnm, hzero, mul_zero, mul_zero]
  · rw [h.others r hr c hc hnm (by omega)]

end Columns

/-! ### The whole block -/

variable [DecidableEq T]

/-- Where the test finds a zero on the diagonal, nothing above the diagonal is zero from there. -/
theorem splittingTest_spec (h : state.splittingTest k = (l, true)) :
    1 ≤ l ∧ l ≤ k ∧ state.w.element [0, l - 1] = 0 ∧
      ∀ i, l ≤ i → i ≤ k → state.rv1 i ≠ 0 := by
  induction k with
  | zero => simp [SvdState.splittingTest] at h
  | succ nm ih =>
      unfold SvdState.splittingTest at h
      by_cases habove : state.rv1 (nm + 1) = 0
      · simp [habove] at h
      · by_cases hdiagonal : state.w.element [0, nm] = 0
        · simp only [habove, hdiagonal, if_false, if_true, Prod.mk.injEq, and_true] at h
          subst h
          refine ⟨by omega, le_refl _, hdiagonal, fun i hi hi' => ?_⟩
          rwa [Nat.le_antisymm hi' hi]
        · simp only [habove, hdiagonal, if_false] at h
          obtain ⟨hl, hlk, hzero, hrest⟩ := ih h
          refine ⟨hl, by omega, hzero, fun i hi hi' => ?_⟩
          by_cases hlast : i = nm + 1
          · rwa [hlast]
          · exact hrest i hi (by omega)

/-- The block keeps the product of the factors, whatever `vt` is, and the diagonal outside the
positions `l` to `k`; it does not use `vt`. -/
structure KeepsFactors (pythag : T → T → T) (m n l k : Nat) (state : SvdState T) : Prop where
  product : ∀ vt, (state.cancellation pythag m l k).product m n vt = state.product m n vt
  diagonal : ∀ i < n, ¬ (l ≤ i ∧ i ≤ k) →
    (state.cancellation pythag m l k).w.element [0, i] = state.w.element [0, i]

/-- The first cell of the diagonal holds what is stored in it last, and the product has no entries
in the columns that are rotated, nor beside them. -/
structure CancelsNothing (pythag : T → T → T) (m n l k : Nat) (state : SvdState T) : Prop where
  stored : state.w.element [0, 0] = hypotenuse pythag state l (k - l)
  columns : ∀ i, l ≤ i → i ≤ k → ∀ r < m, state.entry r i = 0
  beside : k + 1 < n → ∀ r < m, state.u.element [r, k] * state.rv1 (k + 1) = 0

/-- What the block leaves. -/
theorem cancellation_spec (hpythag : IsPythag pythag)
    (hu : state.u.shapeInfo.shape = [m, n]) (hucells : CellsApart state.u.shapeInfo)
    (hw : state.w.shapeInfo.shape = [1, n]) (hwcells : CellsApart state.w.shapeInfo)
    (hk : k < n) (hentered : state.splittingTest k = (l, true)) :
    (∀ e ≤ k - l, fill pythag state l e ≠ 0) ∧
      Rotated pythag state m n l (k - l + 1) (state.cancellation pythag m l k) := by
  obtain ⟨hl, hlk, -, hrest⟩ := splittingTest_spec hentered
  have hfill : ∀ e ≤ k - l, fill pythag state l e ≠ 0 := fun e he =>
    fill_ne_zero hpythag fun j hj => hrest (l + j) (by omega) (by omega)
  refine ⟨hfill, ?_⟩
  have hrun := @cancelFrom_spec T _ pythag state state m n l 0 _ hu hucells hw hwcells hl
    (k - l + 1) (.start pythag state m n l) (by omega) (fun j hj => by
      rw [Nat.zero_add]
      exact hfill j (by omega))
  rw [Nat.zero_add] at hrun
  rwa [SvdState.cancellation, show k + 1 - l = k - l + 1 by omega]

/-- The block keeps the factors exactly if it has nothing to cancel. -/
theorem keepsFactors_iff (hpythag : IsPythag pythag)
    (hu : state.u.shapeInfo.shape = [m, n]) (hucells : CellsApart state.u.shapeInfo)
    (hw : state.w.shapeInfo.shape = [1, n]) (hwcells : CellsApart state.w.shapeInfo)
    (hk : k < n) (hentered : state.splittingTest k = (l, true)) :
    KeepsFactors pythag m n l k state ↔ CancelsNothing pythag m n l k state := by
  obtain ⟨hl, hlk, hzero, -⟩ := splittingTest_spec hentered
  obtain ⟨hfill, hrotated⟩ := cancellation_spec hpythag hu hucells hw hwcells hk hentered
  set state' := state.cancellation pythag m l k with hstate'
  have hfirst : state'.w.element [0, 0] = hypotenuse pythag state l (k - l) := by
    rw [hrotated.first, if_neg (Nat.succ_ne_zero _), Nat.add_sub_cancel]
  have hchain : ∀ r < m, ∀ i, l ≤ i → i ≤ k →
      (state'.entry r i = state.entry r i ↔ rotated pythag state l r (i - l) = 0) := by
    intro r hr i hi hi'
    obtain ⟨e, rfl⟩ : ∃ e, i = l + e := ⟨i - l, by omega⟩
    have hsub := entry_sub hl hpythag (fun j hj => hfill j (by omega)) hrotated
      (e := e) (by omega) (by omega) hr
    have hne : hypotenuse pythag state l e - state.w.element [0, l + e] ≠ 0 :=
      sub_ne_zero.mpr (hpythag.ne (hfill e (by omega)) _)
    rw [Nat.add_sub_cancel_left, eq_comm, ← sub_eq_zero, hsub, mul_eq_zero, or_iff_left hne]
  have hbeside : k + 1 < n → ∀ r < m, rotated pythag state l r (k - l) = 0 →
      (state'.entry r (k + 1) = state.entry r (k + 1) ↔
        state.u.element [r, k] * state.rv1 (k + 1) = 0) := by
    intro hkn r hr hrzero
    have hlast := entry_beside hrotated (by omega) hr hrzero
    rwa [show l + (k - l) = k by omega] at hlast
  have hcolumns : (∀ i, l ≤ i → i ≤ k → ∀ r < m, state.entry r i = 0) ↔
      ∀ r < m, ∀ e ≤ k - l, rotated pythag state l r e = 0 := by
    constructor
    · intro h r hr
      exact (rotated_eq_zero_iff hl hpythag hfill).mpr fun e he =>
        h (l + e) (by omega) (by omega) r hr
    · intro h i hi hi' r hr
      have hzeros := (rotated_eq_zero_iff hl hpythag hfill).mp (h r hr) (i - l) (by omega)
      rwa [show l + (i - l) = i by omega] at hzeros
  constructor
  · intro h
    have hentry := (product_eq_iff state state' m n).mp h.product
    have hzeros : ∀ r < m, ∀ e ≤ k - l, rotated pythag state l r e = 0 := by
      intro r hr e he
      have hrow := (hchain r hr (l + e) (by omega) (by omega)).mp (hentry r hr _ (by omega))
      rwa [Nat.add_sub_cancel_left] at hrow
    exact
      { stored := (h.diagonal 0 (by omega) (by omega)).symm.trans hfirst
        columns := hcolumns.mpr hzeros
        beside := fun hkn r hr =>
          (hbeside hkn r hr (hzeros r hr _ (le_refl _))).mp (hentry r hr _ hkn) }
  · intro h
    have hkept : state'.w.element [0, 0] = state.w.element [0, 0] := hfirst.trans h.stored.symm
    have hzeros := hcolumns.mp h.columns
    refine ⟨(product_eq_iff state state' m n).mpr fun r hr c hc => ?_, fun i hi hout => ?_⟩
    · by_cases hchained : l ≤ c ∧ c ≤ k
      · exact (hchain r hr c hchained.1 hchained.2).mpr (hzeros r hr _ (by omega))
      · by_cases hnext : c = k + 1
        · subst hnext
          exact (hbeside hc r hr (hzeros r hr _ (le_refl _))).mpr (h.beside hc r hr)
        · exact entry_others hrotated hl hzero hkept hr hc (by omega)
    · by_cases hstart : i = 0
      · rw [hstart]
        exact hkept
      · exact hrotated.diagonal i hi hstart

end Cancellation

/-! ## A singular matrix -/

section Singular

theorem atLeastTwo_three : Nat.AtLeastTwo 3 :=
  ⟨by decide⟩

theorem atLeastTwo_four : Nat.AtLeastTwo 4 :=
  ⟨by decide⟩

attribute [local instance] atLeastTwo_three atLeastTwo_four

/-- `pythag` of real numbers. -/
noncomputable def realPythag (f g : Real) : Real :=
  Real.sqrt (f * f + g * g)

theorem isPythag_realPythag : IsPythag realPythag := by
  intro f g hf
  have hpos : 0 < f * f + g * g :=
    add_pos_of_pos_of_nonneg (mul_self_pos.mpr hf) (mul_self_nonneg g)
  exact ⟨(Real.sqrt_pos.mpr hpos).ne', Real.mul_self_sqrt hpos.le⟩

/-- What the first parts of `svd` leave for the matrix with the rows `[0, 3]` and `[0, 4]`. -/
noncomputable def singular : SvdState Real where
  u := ⟨(NDArray.ofMatrix 2 2 'c' : NDArray Real).shapeInfo,
    fun i => if i = 0 then 1 else if i = 3 then -1 else 0⟩
  w := ⟨(NDArray.ofMatrix 1 2 'c' : NDArray Real).shapeInfo, fun i => if i = 1 then 4 else 0⟩
  rv1 := fun i => if i = 1 then -3 else 0

theorem cellsApart_ofMatrix {m n : Nat} (hm : 0 < m) (hn : 0 < n) :
    CellsApart (NDArray.ofMatrix m n 'c' : NDArray Real).shapeInfo := by
  have hshape : (NDArray.ofMatrix m n 'c' : NDArray Real).shapeInfo.shape = [m, n] :=
    shape_newShapeInfo 'c' [m, n]
  have hpos : (NDArray.ofMatrix m n 'c' : NDArray Real).shapeInfo.Positive := by
    rw [ShapeInfo.Positive, hshape]
    simp [hm, hn]
  exact Consecutive.cellsApart (dense_newShapeInfo (Or.inl rfl) [m, n]) hpos

theorem singular_first : singular.w.element [0, 0] = 0 := by
  have hcell : getOffset 0 singular.w.shapeInfo.shape singular.w.shapeInfo.stride [0, 0] = 0 := rfl
  rw [NDArray.element, hcell]
  show (if (0 : Int) = 1 then (4 : Real) else 0) = 0
  rw [if_neg (by decide)]

theorem singular_entered : singular.splittingTest 1 = (1, true) := by
  have habove : singular.rv1 1 ≠ 0 := by
    show (if 1 = 1 then (-3 : Real) else 0) ≠ 0
    norm_num
  rw [SvdState.splittingTest, if_neg habove, if_pos singular_first]

/-- The singular matrix. -/
theorem keepsFactors_iff_singular :
    KeepsFactors realPythag 2 2 1 1 singular ↔ CancelsNothing realPythag 2 2 1 1 singular :=
  keepsFactors_iff isPythag_realPythag rfl (cellsApart_ofMatrix Nat.two_pos Nat.two_pos) rfl
    (cellsApart_ofMatrix Nat.one_pos Nat.two_pos) Nat.one_lt_two singular_entered

/-- The first singular value of the singular matrix is overwritten. -/
theorem not_keepsFactors_always :
    ¬ ∀ (pythag : Real → Real → Real) (m n l k : Nat) (state : SvdState Real), IsPythag pythag →
      state.u.shapeInfo.shape = [m, n] → CellsApart state.u.shapeInfo →
      state.w.shapeInfo.shape = [1, n] → CellsApart state.w.shapeInfo → k < n →
      state.splittingTest k = (l, true) → KeepsFactors pythag m n l k state := by
  intro h
  have hu := cellsApart_ofMatrix Nat.two_pos Nat.two_pos
  have hw := cellsApart_ofMatrix Nat.one_pos Nat.two_pos
  have hkeeps := h realPythag 2 2 1 1 singular isPythag_realPythag rfl hu rfl hw Nat.one_lt_two
    singular_entered
  obtain ⟨hfill, hrotated⟩ := cancellation_spec (n := 2) (m := 2) isPythag_realPythag rfl hu rfl hw
    Nat.one_lt_two singular_entered
  have hroot : hypotenuse realPythag singular 1 0 ≠ 0 :=
    (isPythag_realPythag _ _ (hfill 0 (le_refl 0))).1
  have hkept := hkeeps.diagonal 0 Nat.two_pos (by decide)
  rw [hrotated.first, singular_first] at hkept
  exact hroot hkept

end Singular

end Arrays
end LibND4J
