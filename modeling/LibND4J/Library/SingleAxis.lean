import LibND4J.Library.Strided

/-!
# One axis of a box

A coordinate of a box is a coordinate of the box without one of its axes, and an index along
that axis put in its place.

Main results:

- Theorem `inBox_insertIdx` and `exists_insertIdx`: these are the coordinates of the
  box.
- Theorem `dot_insertIdx`: the offset is that of the other indices, and the index along
  the axis times its stride.
-/

namespace Strided

variable {G : Type*} [AddCommGroup G] {ds us cs : List Nat} {d : Nat}

/-- An index below its extent makes a coordinate of the box. -/
theorem inBox_insertIdx {e : Nat} (hu : InBox (ds.eraseIdx d) us) (he : e < ds.getD d 0) :
    InBox ds (us.insertIdx d e) := by
  induction d generalizing ds us with
  | zero =>
      cases ds with
      | nil => simp at he
      | cons n ds => exact List.Forall₂.cons he hu
  | succ d ih =>
      cases ds with
      | nil => simp at he
      | cons n ds =>
          rw [List.eraseIdx_cons_succ] at hu
          cases hu with
          | cons hfirst hrest =>
              rw [List.insertIdx_succ_cons]
              exact List.Forall₂.cons hfirst (ih hrest (by simpa using he))

/-- Every coordinate of the box has an index along the axis. -/
theorem exists_insertIdx (h : InBox ds cs) (hd : d < ds.length) :
    ∃ us e, InBox (ds.eraseIdx d) us ∧ e < ds.getD d 0 ∧ cs = us.insertIdx d e := by
  induction d generalizing ds cs with
  | zero =>
      cases h with
      | nil => simp at hd
      | @cons n c ds cs hc hrest => exact ⟨cs, c, hrest, hc, rfl⟩
  | succ d ih =>
      cases h with
      | nil => simp at hd
      | @cons n c ds cs hc hrest =>
          obtain ⟨us, e, hu, he, rfl⟩ := ih hrest (by simpa using hd)
          refine ⟨c :: us, e, ?_, by simpa using he, rfl⟩
          rw [List.eraseIdx_cons_succ]
          exact List.Forall₂.cons hc hu

/-- The length of the rest makes room for the index. -/
theorem le_length_of_inBox (hu : InBox (ds.eraseIdx d) us) (hd : d < ds.length) :
    d ≤ us.length := by
  rw [← hu.length_eq, List.length_eraseIdx_of_lt hd]
  omega

theorem set_insertIdx (hd : d ≤ us.length) (e e' : Nat) :
    (us.insertIdx d e).set d e' = us.insertIdx d e' := by
  induction d generalizing us with
  | zero => rfl
  | succ d ih =>
      cases us with
      | nil => simp at hd
      | cons u us =>
          rw [List.insertIdx_succ_cons, List.insertIdx_succ_cons, List.set_cons_succ,
            ih (by simpa using hd)]

theorem getD_insertIdx (hd : d ≤ us.length) (e : Nat) : (us.insertIdx d e).getD d 0 = e := by
  have hlt : d < (us.insertIdx d e).length := by
    rw [List.length_insertIdx_of_le_length hd]
    omega
  rw [List.getD_eq_getElem?_getD, List.getElem?_eq_getElem hlt, List.getElem_insertIdx_self]
  rfl

theorem getD_lt_of_inBox (h : InBox ds cs) (hd : d < ds.length) : cs.getD d 0 < ds.getD d 0 := by
  have hd' : d < cs.length := h.length_eq ▸ hd
  rw [List.getD_eq_getElem?_getD, List.getD_eq_getElem?_getD, List.getElem?_eq_getElem hd,
    List.getElem?_eq_getElem hd', Option.getD_some, Option.getD_some]
  exact h.get hd hd'

theorem getD_set_self (hd : d < cs.length) (e : Nat) : (cs.set d e).getD d 0 = e := by
  rw [List.getD_eq_getElem?_getD, List.getElem?_set_self hd, Option.getD_some]

theorem set_getD_self (cs : List Nat) (d : Nat) : cs.set d (cs.getD d 0) = cs := by
  by_cases hd : d < cs.length
  · rw [List.getD_eq_getElem?_getD, List.getElem?_eq_getElem hd, Option.getD_some,
      List.set_getElem_self]
  · rw [List.set_eq_of_length_le (Nat.le_of_not_lt hd)]

/-- Another index along an axis of another extent. -/
theorem inBox_set (h : InBox ds cs) (d : Nat) {n e : Nat} (he : e < n) :
    InBox (ds.set d n) (cs.set d e) := by
  induction h generalizing d with
  | nil => exact List.Forall₂.nil
  | @cons m c ds cs hc hrest ih =>
      cases d with
      | zero => exact List.Forall₂.cons he hrest
      | succ d => exact List.Forall₂.cons hc (ih d)

/-- The offset of a coordinate splits into those of its parts. -/
theorem dot_insertIdx {ss : List G} (hd : d ≤ us.length) (hlength : ss.length = us.length + 1)
    (e : Nat) : dot (us.insertIdx d e) ss = dot us (ss.eraseIdx d) + e • ss.getD d 0 := by
  induction d generalizing us ss with
  | zero =>
      obtain ⟨s, ss, rfl⟩ := List.exists_cons_of_length_pos (show 0 < ss.length by omega)
      rw [List.insertIdx_zero, dot_cons, List.eraseIdx_zero, List.tail_cons, List.getD_cons_zero,
        add_comm]
  | succ d ih =>
      obtain ⟨s, ss, rfl⟩ := List.exists_cons_of_length_pos (show 0 < ss.length by omega)
      cases us with
      | nil => simp at hd
      | cons u us =>
          rw [List.insertIdx_succ_cons, dot_cons, ih (by simpa using hd) (by simpa using hlength),
            List.eraseIdx_cons_succ, dot_cons, List.getD_cons_succ, add_assoc]

/-- The extent of the axis is a factor of the number of coordinates. -/
theorem prod_eq_getD_mul (hd : d < ds.length) : ds.prod = ds.getD d 0 * (ds.eraseIdx d).prod := by
  induction d generalizing ds with
  | zero =>
      obtain ⟨n, ds, rfl⟩ := List.exists_cons_of_length_pos hd
      rfl
  | succ d ih =>
      obtain ⟨n, ds, rfl⟩ := List.exists_cons_of_length_pos (Nat.zero_lt_of_lt hd)
      rw [List.prod_cons, ih (by simpa using hd), List.eraseIdx_cons_succ, List.prod_cons,
        List.getD_cons_succ, Nat.mul_left_comm]

/-- With one coordinate in the rest of the box, a coordinate is numbered by its index along the
axis. -/
theorem encode_insertIdx_of_prod (hu : InBox (ds.eraseIdx d) us) (hd : d < ds.length)
    (hprod : (ds.eraseIdx d).prod = 1) (e : Nat) : encode ds (us.insertIdx d e) = e := by
  induction d generalizing ds us with
  | zero =>
      obtain ⟨n, ds, rfl⟩ := List.exists_cons_of_length_pos hd
      have hrest : encode ds us < 1 := by
        rw [← hprod]
        exact encode_lt hu
      have hone : ds.prod = 1 := hprod
      rw [List.insertIdx_zero, encode, hone, mul_one]
      omega
  | succ d ih =>
      obtain ⟨n, ds, rfl⟩ := List.exists_cons_of_length_pos (Nat.zero_lt_of_lt hd)
      rw [List.eraseIdx_cons_succ] at hu hprod
      obtain ⟨hn, hrest⟩ := mul_eq_one.mp (List.prod_cons.symm.trans hprod)
      cases hu with
      | @cons _ u _ us hfirst hbox =>
          have hzero : u = 0 := by omega
          rw [List.insertIdx_succ_cons, encode, ih hbox (by simpa using hd) hrest, hzero, zero_mul,
            zero_add]

/-- With one coordinate in the rest of the box, all its indices are zero. -/
theorem dot_eq_zero_of_prod (hu : InBox ds us) (hprod : ds.prod = 1) (ss : List G) :
    dot us ss = 0 := by
  induction hu generalizing ss with
  | nil => simp
  | @cons n c ds cs hc _ ih =>
      obtain ⟨hn, hrest⟩ := mul_eq_one.mp (List.prod_cons.symm.trans hprod)
      have hzero : c = 0 := by omega
      cases ss with
      | nil => simp
      | cons s ss => rw [dot_cons, ih hrest, hzero, zero_smul, zero_add]

end Strided
