import Mathlib.Tactic

/-!
# Strided enumerations of a box of coordinates

A box is a list of extents, a coordinate picks one number below each extent, and
an axis pairs an extent with a stride taken from a commutative group.  The file
fixes the row-major enumeration of a box, the offset that a list of axes gives to
the `k`-th coordinate, and the rules by which offsets compose.

Main results:

- Theorem `bijOn_decode`: row-major decoding enumerates the box exactly once.
- Theorem `offsetAt_append`: the offset over a concatenation of axes splits
  at the quotient and remainder by the inner volume.
- Theorem `offsetAt_congr_squeeze`: axes of extent one never contribute.
- Theorem `squeeze_eq_iff`: all other axes do.
-/

namespace Strided

/-! ## Row-major coordinates -/

/-- A coordinate of a box: as many entries as extents, each below its own. -/
def InBox (dims coords : List Nat) : Prop :=
  List.Forall₂ (fun d c => c < d) dims coords

/-- Row-major decoding: the last extent varies fastest. -/
def decode : List Nat → Nat → List Nat
  | [], _ => []
  | _ :: ds, k => k / ds.prod :: decode ds (k % ds.prod)

/-- Row-major encoding of a coordinate. -/
def encode : List Nat → List Nat → Nat
  | _ :: ds, c :: cs => c * ds.prod + encode ds cs
  | _, _ => 0

@[simp]
theorem decode_nil (k : Nat) : decode [] k = [] :=
  rfl

theorem decode_cons (d : Nat) (ds : List Nat) (k : Nat) :
    decode (d :: ds) k = k / ds.prod :: decode ds (k % ds.prod) :=
  rfl

@[simp]
theorem length_decode (ds : List Nat) (k : Nat) :
    (decode ds k).length = ds.length := by
  induction ds generalizing k with
  | nil => rfl
  | cons d ds ih => simp [decode_cons, ih]

variable {ds cs : List Nat}

theorem prod_pos_of_pos (hpos : ∀ d ∈ ds, 0 < d) : 0 < ds.prod :=
  List.prod_pos hpos

/-- Decoding an index below the volume lands in the box. -/
theorem inBox_decode (hpos : ∀ d ∈ ds, 0 < d) {k : Nat} (hk : k < ds.prod) :
    InBox ds (decode ds k) := by
  induction ds generalizing k with
  | nil => exact List.Forall₂.nil
  | cons d ds ih =>
      have htail : ∀ x ∈ ds, 0 < x := fun x hx => hpos x (List.mem_cons_of_mem _ hx)
      have hprod : 0 < ds.prod := prod_pos_of_pos htail
      refine List.Forall₂.cons ?_ (ih htail (Nat.mod_lt k hprod))
      rw [List.prod_cons] at hk
      exact (Nat.div_lt_iff_lt_mul hprod).mpr hk

/-- A coordinate of the box encodes below the volume. -/
theorem encode_lt (h : InBox ds cs) : encode ds cs < ds.prod := by
  induction h with
  | nil => simp [encode]
  | @cons d c ds cs hc _ ih =>
      have hstep : (c + 1) * ds.prod ≤ d * ds.prod := Nat.mul_le_mul_right _ hc
      simp only [encode, List.prod_cons]
      calc c * ds.prod + encode ds cs < c * ds.prod + ds.prod := by omega
        _ = (c + 1) * ds.prod := by ring
        _ ≤ d * ds.prod := hstep

theorem decode_encode (h : InBox ds cs) : decode ds (encode ds cs) = cs := by
  induction h with
  | nil => rfl
  | @cons d c ds cs hc htail ih =>
      have hlt : encode ds cs < ds.prod := encode_lt htail
      have hprod : 0 < ds.prod := by omega
      have hdiv : (c * ds.prod + encode ds cs) / ds.prod = c := by
        rw [Nat.add_comm, Nat.add_mul_div_right _ _ hprod, Nat.div_eq_of_lt hlt, Nat.zero_add]
      have hmod : (c * ds.prod + encode ds cs) % ds.prod = encode ds cs := by
        rw [Nat.add_comm, Nat.add_mul_mod_self_right, Nat.mod_eq_of_lt hlt]
      simp only [encode, decode_cons, hdiv, hmod, ih]

theorem encode_decode (hpos : ∀ d ∈ ds, 0 < d) {k : Nat} (hk : k < ds.prod) :
    encode ds (decode ds k) = k := by
  induction ds generalizing k with
  | nil =>
      simp only [List.prod_nil, Nat.lt_one_iff] at hk
      simp [encode, hk]
  | cons d ds ih =>
      have htail : ∀ x ∈ ds, 0 < x := fun x hx => hpos x (List.mem_cons_of_mem _ hx)
      have hprod : 0 < ds.prod := prod_pos_of_pos htail
      simp only [decode_cons, encode, ih htail (Nat.mod_lt k hprod)]
      exact Nat.div_add_mod' k ds.prod

theorem encode_inj {cs' : List Nat} (hc : InBox ds cs) (hc' : InBox ds cs')
    (h : encode ds cs = encode ds cs') : cs = cs' := by
  rw [← decode_encode hc, h, decode_encode hc']

/-- The last digit of an encoding has the weight one. -/
theorem encode_concat (h : ds.length = cs.length) (d c : Nat) :
    encode (ds ++ [d]) (cs ++ [c]) = encode ds cs * d + c := by
  induction ds generalizing cs with
  | nil =>
      rw [List.eq_nil_of_length_eq_zero h.symm]
      simp [encode]
  | cons e ds ih =>
      obtain ⟨b, cs, rfl⟩ := List.exists_cons_of_length_eq_add_one h.symm
      have hlength : ds.length = cs.length := Nat.succ.inj h
      rw [List.cons_append, List.cons_append, encode, encode, ih hlength, List.prod_append,
        List.prod_singleton]
      ring

/-- Row-major decoding is a bijection from the indices below the volume onto the box. -/
theorem bijOn_decode (hpos : ∀ d ∈ ds, 0 < d) :
    Set.BijOn (decode ds) {k | k < ds.prod} {c | InBox ds c} := by
  refine ⟨fun k hk => inBox_decode hpos hk, ?_, ?_⟩
  · intro j hj k hk heq
    rw [← encode_decode hpos hj, ← encode_decode hpos hk, heq]
  · intro c hc
    exact ⟨encode ds c, encode_lt hc, decode_encode hc⟩

/-- An index made of a quotient and a remainder determines both. -/
theorem mul_add_inj {n q r q' r' : Nat} (hr : r < n) (hr' : r' < n)
    (h : q * n + r = q' * n + r') : q = q' ∧ r = r' := by
  have hpos : 0 < n := Nat.zero_lt_of_lt hr
  have hquot := congrArg (· / n) h
  simp only [Nat.add_comm (_ * n), Nat.add_mul_div_right _ _ hpos, Nat.div_eq_of_lt hr,
    Nat.div_eq_of_lt hr', Nat.zero_add] at hquot
  subst hquot
  exact ⟨rfl, Nat.add_left_cancel h⟩

/-- The same for integers with a remainder that is not negative. -/
theorem mul_add_inj_int {n q r q' r' : Int} (hr : 0 ≤ r) (hrn : r < n) (hr' : 0 ≤ r')
    (hrn' : r' < n) (h : q * n + r = q' * n + r') : q = q' ∧ r = r' := by
  have hpos : 0 < n := hr.trans_lt hrn
  have hquot : q = q' := by
    have hdiv := congrArg (· / n) h
    simpa [Int.add_comm (_ * n), Int.add_mul_ediv_right _ _ hpos.ne', Int.ediv_eq_zero_of_lt hr hrn,
      Int.ediv_eq_zero_of_lt hr' hrn'] using hdiv
  subst hquot
  exact ⟨rfl, by omega⟩

theorem InBox.length_eq (h : InBox ds cs) : ds.length = cs.length :=
  List.Forall₂.length_eq h

/-- A box with a coordinate has positive extents. -/
theorem InBox.pos (h : InBox ds cs) : ∀ d ∈ ds, 0 < d := by
  induction h with
  | nil => simp
  | @cons d c ds cs hc _ ih =>
      rw [List.forall_mem_cons]
      exact ⟨Nat.zero_lt_of_lt hc, ih⟩

/-- Weighing the first coordinate least encodes the coordinate turned round. -/
theorem foldl_shift (h : InBox ds cs) (a m : Nat) :
    (cs.zip ds).foldl (fun acc q => (acc.1 + q.1 * acc.2, acc.2 * q.2)) (a, m) =
      (a + m * encode ds.reverse cs.reverse, m * ds.prod) := by
  induction h generalizing a m with
  | nil => simp [encode]
  | @cons d c ds cs _ htail ih =>
      have hlength : ds.reverse.length = cs.reverse.length := by
        rw [List.length_reverse, List.length_reverse, htail.length_eq]
      rw [List.zip_cons_cons, List.foldl_cons, ih, List.reverse_cons, List.reverse_cons,
        encode_concat hlength, List.prod_cons]
      refine Prod.ext ?_ ?_
      · show a + c * m + m * d * _ = a + m * (_ * d + c)
        ring
      · show m * d * ds.prod = m * (d * ds.prod)
        ring

/-- Permuting the extents and a coordinate alike. -/
theorem inBox_map_getD {p : List Nat} (h : InBox ds cs) (hp : ∀ i ∈ p, i < ds.length) :
    InBox (p.map (ds.getD · 0)) (p.map (cs.getD · 0)) := by
  rw [InBox, List.forall₂_map_left_iff, List.forall₂_map_right_iff, List.forall₂_same]
  intro i hi
  have hd := hp i hi
  have hc : i < cs.length := h.length_eq ▸ hd
  simp only [List.getD_eq_getElem?_getD, List.getElem?_eq_getElem hd, List.getElem?_eq_getElem hc,
    Option.getD_some]
  exact List.Forall₂.get h hd hc

/-! ## Column-major coordinates -/

/-- Column-major decoding: the first extent varies fastest. -/
def decodeF (ds : List Nat) (k : Nat) : List Nat :=
  (decode ds.reverse k).reverse

theorem inBox_reverse_iff : InBox ds.reverse cs.reverse ↔ InBox ds cs := by
  simp [InBox]

/-- Column-major decoding is a bijection onto the box as well. -/
theorem bijOn_decodeF (hpos : ∀ d ∈ ds, 0 < d) :
    Set.BijOn (decodeF ds) {k | k < ds.prod} {c | InBox ds c} := by
  have hposr : ∀ d ∈ ds.reverse, 0 < d := fun d hd => hpos d (List.mem_reverse.mp hd)
  have hprod : ds.reverse.prod = ds.prod := List.prod_reverse ds
  have hbij := bijOn_decode hposr
  rw [hprod] at hbij
  refine ⟨?_, ?_, ?_⟩
  · intro k hk
    have := hbij.mapsTo hk
    rw [Set.mem_ofPred_eq] at this ⊢
    rw [← inBox_reverse_iff]
    simpa [decodeF] using this
  · intro j hj k hk heq
    exact hbij.injOn hj hk (List.reverse_injective heq)
  · intro c hc
    obtain ⟨k, hk, hdec⟩ := hbij.surjOn (show c.reverse ∈ _ from inBox_reverse_iff.mpr hc)
    exact ⟨k, hk, by simp [decodeF, hdec]⟩

/-! ## Offsets -/

section Offsets

variable {G : Type*}

/-- Extents of a list of axes. -/
def dims (axes : List (Nat × G)) : List Nat :=
  axes.map Prod.fst

/-- Number of coordinates of the box that a list of axes spans. -/
def volume (axes : List (Nat × G)) : Nat :=
  (dims axes).prod

@[simp]
theorem dims_nil : dims ([] : List (Nat × G)) = [] :=
  rfl

@[simp]
theorem dims_cons (a : Nat × G) (axes : List (Nat × G)) :
    dims (a :: axes) = a.1 :: dims axes :=
  rfl

@[simp]
theorem dims_append (xs ys : List (Nat × G)) : dims (xs ++ ys) = dims xs ++ dims ys := by
  simp [dims]

@[simp]
theorem dims_reverse (xs : List (Nat × G)) : dims xs.reverse = (dims xs).reverse := by
  simp [dims]

@[simp]
theorem volume_nil : volume ([] : List (Nat × G)) = 1 :=
  rfl

@[simp]
theorem volume_cons (a : Nat × G) (axes : List (Nat × G)) :
    volume (a :: axes) = a.1 * volume axes := by
  simp [volume]

@[simp]
theorem volume_append (xs ys : List (Nat × G)) :
    volume (xs ++ ys) = volume xs * volume ys := by
  simp [volume]

@[simp]
theorem volume_reverse (xs : List (Nat × G)) : volume xs.reverse = volume xs := by
  simp [volume]

theorem volume_pos {axes : List (Nat × G)} (hpos : ∀ a ∈ axes, 0 < a.1) :
    0 < volume axes := by
  refine prod_pos_of_pos fun d hd => ?_
  obtain ⟨a, ha, rfl⟩ := List.mem_map.mp hd
  exact hpos a ha

variable [AddCommGroup G]

/-- Weighted sum of a coordinate by a list of strides. -/
def dot (coords : List Nat) (strides : List G) : G :=
  (List.zipWith (fun c s => c • s) coords strides).sum

/-- Offset of the `k`-th coordinate, in row-major order, of the box. -/
def offsetAt : List (Nat × G) → Nat → G
  | [], _ => 0
  | a :: axes, k => (k / volume axes) • a.2 + offsetAt axes (k % volume axes)

@[simp]
theorem offsetAt_nil (k : Nat) : offsetAt ([] : List (Nat × G)) k = 0 :=
  rfl

theorem offsetAt_cons (a : Nat × G) (axes : List (Nat × G)) (k : Nat) :
    offsetAt (a :: axes) k = (k / volume axes) • a.2 + offsetAt axes (k % volume axes) :=
  rfl

@[simp]
theorem dot_nil_left (ss : List G) : dot [] ss = 0 := by
  simp [dot]

@[simp]
theorem dot_nil_right (cs : List Nat) : dot cs ([] : List G) = 0 := by
  simp [dot]

@[simp]
theorem dot_cons (c : Nat) (cs : List Nat) (s : G) (ss : List G) :
    dot (c :: cs) (s :: ss) = c • s + dot cs ss := by
  simp [dot]

/-- Permuting a coordinate and the strides alike leaves the weighted sum. -/
theorem dot_map_getD {cs p : List Nat} {ss : List G} (hp : p.Perm (List.range cs.length))
    (hlength : ss.length = cs.length) :
    dot (p.map (cs.getD · 0)) (p.map (ss.getD · 0)) = dot cs ss := by
  have hzip : ∀ q : List Nat, List.zipWith (fun c s => c • s) (q.map (cs.getD · 0))
      (q.map (ss.getD · 0)) = q.map fun i => cs.getD i 0 • ss.getD i 0 := by
    intro q
    rw [List.zipWith_map, List.zipWith_self]
  have hrange : (List.range cs.length).map (fun i => cs.getD i 0 • ss.getD i 0) =
      List.zipWith (fun c s => c • s) cs ss := by
    refine List.ext_getElem (by simp [hlength]) fun i hi hi' => ?_
    have hc : i < cs.length := by simpa using hi
    have hs : i < ss.length := hlength ▸ hc
    simp [hc, hs]
  rw [dot, hzip, (hp.map _).sum_eq, hrange, dot]

/-- Reversing a coordinate and the strides leaves the weighted sum. -/
theorem dot_reverse {cs : List Nat} {ss : List G} (hlength : cs.length = ss.length) :
    dot cs.reverse ss.reverse = dot cs ss := by
  rw [dot, ← List.reverse_zipWith hlength, List.sum_reverse, dot]

variable (axes : List (Nat × G))

/-- The offset of an index is the weighted sum of its decoded coordinate. -/
theorem offsetAt_eq_dot (k : Nat) :
    offsetAt axes k = dot (decode (dims axes) k) (axes.map Prod.snd) := by
  induction axes generalizing k with
  | nil => simp
  | cons a axes ih => simp [offsetAt_cons, decode_cons, ih, volume]

@[simp]
theorem offsetAt_zero : offsetAt axes 0 = 0 := by
  induction axes with
  | nil => rfl
  | cons a axes ih => simp [offsetAt_cons, ih]

variable {k : Nat}

/-- Offsets split at the inner volume. -/
theorem offsetAt_append (xs ys : List (Nat × G)) (hk : k < volume xs * volume ys) :
    offsetAt (xs ++ ys) k = offsetAt xs (k / volume ys) + offsetAt ys (k % volume ys) := by
  induction xs generalizing k with
  | nil =>
      rw [volume_nil, one_mul] at hk
      simp [Nat.mod_eq_of_lt hk]
  | cons x xs ih =>
      have hvol : 0 < volume xs * volume ys := by
        rw [volume_cons, mul_assoc] at hk
        exact Nat.pos_of_ne_zero fun hzero => by simp [hzero] at hk
      rw [List.cons_append, offsetAt_cons, volume_append, ih (Nat.mod_lt k hvol), offsetAt_cons,
        Nat.mod_mul_left_div_self, Nat.mod_mul_left_mod, Nat.div_div_eq_div_mul,
        mul_comm (volume ys), add_assoc]

/-- An index that stays inside the inner box has the inner offset. -/
theorem offsetAt_append_of_lt (xs ys : List (Nat × G)) (hk : k < volume ys) (hxs : 0 < volume xs) :
    offsetAt (xs ++ ys) k = offsetAt ys k := by
  have hlt : k < volume xs * volume ys := lt_of_lt_of_le hk (Nat.le_mul_of_pos_left _ hxs)
  rw [offsetAt_append xs ys hlt, Nat.div_eq_of_lt hk, Nat.mod_eq_of_lt hk, offsetAt_zero, zero_add]

/-- An index that is a multiple of the inner volume has the outer offset. -/
theorem offsetAt_append_mul (xs ys : List (Nat × G)) (hk : k < volume xs) (hys : 0 < volume ys) :
    offsetAt (xs ++ ys) (k * volume ys) = offsetAt xs k := by
  have hlt : k * volume ys < volume xs * volume ys := Nat.mul_lt_mul_of_pos_right hk hys
  rw [offsetAt_append xs ys hlt, Nat.mul_div_cancel _ hys, Nat.mul_mod_left, offsetAt_zero,
    add_zero]

/-! ## Axes of extent one -/

/-- The axes that really move: those whose extent is not one. -/
def squeeze (axes : List (Nat × G)) : List (Nat × G) :=
  axes.filter fun a => a.1 ≠ 1

omit [AddCommGroup G] in
@[simp]
theorem volume_squeeze : volume (squeeze axes) = volume axes := by
  induction axes with
  | nil => rfl
  | cons a axes ih =>
      by_cases ha : a.1 = 1
      · have hdrop : squeeze (a :: axes) = squeeze axes := by simp [squeeze, ha]
        simp [hdrop, ih, ha]
      · have hkeep : squeeze (a :: axes) = a :: squeeze axes := by simp [squeeze, ha]
        simp [hkeep, ih]

/-- Dropping the axes of extent one changes no offset. -/
theorem offsetAt_squeeze (hk : k < volume axes) : offsetAt (squeeze axes) k = offsetAt axes k := by
  induction axes generalizing k with
  | nil => rfl
  | cons a axes ih =>
      have hvol : 0 < volume axes := by
        rw [volume_cons] at hk
        exact Nat.pos_of_ne_zero fun hzero => by simp [hzero] at hk
      by_cases ha : a.1 = 1
      · have hkt : k < volume axes := by simpa [ha] using hk
        have hdrop : squeeze (a :: axes) = squeeze axes := by simp [squeeze, ha]
        rw [hdrop, ih hkt, offsetAt_cons, Nat.div_eq_of_lt hkt, Nat.mod_eq_of_lt hkt, zero_smul,
          zero_add]
      · have hkeep : squeeze (a :: axes) = a :: squeeze axes := by simp [squeeze, ha]
        rw [hkeep, offsetAt_cons, offsetAt_cons, volume_squeeze, ih (Nat.mod_lt k hvol)]

/-- Two lists of axes that agree off the extents equal to one give the same offsets. -/
theorem offsetAt_congr_squeeze {xs ys : List (Nat × G)} (h : squeeze xs = squeeze ys)
    (hk : k < volume xs) : offsetAt xs k = offsetAt ys k := by
  have hvol : volume xs = volume ys := by
    rw [← volume_squeeze xs, h, volume_squeeze]
  rw [← offsetAt_squeeze xs hk, h, offsetAt_squeeze ys (hvol ▸ hk)]

/-- Axes over one box give the same offsets just if they agree where they move. -/
theorem squeeze_eq_iff {xs ys : List (Nat × G)} (hdims : dims xs = dims ys)
    (hpos : ∀ a ∈ ys, 0 < a.1) :
    squeeze xs = squeeze ys ↔ ∀ k < volume ys, offsetAt xs k = offsetAt ys k := by
  have hvol : volume xs = volume ys := by rw [volume, hdims, volume]
  refine ⟨fun h k hk => offsetAt_congr_squeeze h (hvol ▸ hk), fun h => ?_⟩
  clear hvol
  induction ys generalizing xs with
  | nil =>
      rw [List.map_eq_nil_iff.mp hdims]
  | cons b ys ih =>
      obtain ⟨a, xs, rfl⟩ : ∃ a xs', xs = a :: xs' :=
        List.exists_cons_of_ne_nil (by rintro rfl; cases hdims)
      rw [dims_cons, dims_cons, List.cons.injEq] at hdims
      have htail : ∀ c ∈ ys, 0 < c.1 := fun c hc => hpos c (List.mem_cons_of_mem b hc)
      have hb := hpos b List.mem_cons_self
      have hvolume := volume_pos htail
      have hsame : volume xs = volume ys := by rw [volume, hdims.2, volume]
      have hrest : squeeze xs = squeeze ys := by
        apply ih hdims.2 htail
        intro k hk
        have hlt : k < volume (b :: ys) := by
          rw [volume_cons]
          exact lt_of_lt_of_le hk (Nat.le_mul_of_pos_left _ hb)
        have hk' := h k hlt
        rwa [offsetAt_cons, offsetAt_cons, hsame, Nat.div_eq_of_lt hk, Nat.mod_eq_of_lt hk,
          zero_smul, zero_smul, zero_add, zero_add] at hk'
      by_cases hone : b.1 = 1
      · rw [squeeze, squeeze, List.filter_cons_of_neg (by simp [hdims.1, hone]),
          List.filter_cons_of_neg (by simp [hone])]
        exact hrest
      · have hlt : volume ys < volume (b :: ys) := by
          rw [volume_cons]
          exact lt_mul_of_one_lt_left hvolume (by omega)
        have hstep := h (volume ys) hlt
        rw [offsetAt_cons, offsetAt_cons, hsame, Nat.div_self hvolume, Nat.mod_self,
          offsetAt_zero, offsetAt_zero, one_smul, one_smul, add_zero, add_zero] at hstep
        rw [squeeze, squeeze, List.filter_cons_of_pos (by simp [hdims.1, hone]),
          List.filter_cons_of_pos (by simp [hone])]
        exact congrArg₂ List.cons (Prod.ext hdims.1 hstep) hrest

end Offsets
end Strided
