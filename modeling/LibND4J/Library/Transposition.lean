import LibND4J.Library.Odometer

/-!
# Two orders of one box

Enumerating a box with the first coordinate fastest and looking every coordinate up in the
enumeration with the last coordinate fastest permutes the indices.  The permutation
determines the box, but for its extents of one.

Main results:

- Theorem `transposeIndex_add`: the permutation keeps the two ends of the enumeration.
- Theorem `transposeIndex_filter`: extents of one do not matter.
- Theorem `filter_eq_of_transposeIndex`: boxes of one volume with one permutation have
  the same extents above one.
- Theorem `forall_transposeIndex_iff`: the orders agree exactly if at most one extent is
  above one.
-/

namespace Strided

/-- The row-major index of the `k`-th coordinate in column-major order. -/
def transposeIndex (ds : List Nat) (k : Nat) : Nat :=
  encode ds (decodeF ds k)

@[simp]
theorem transposeIndex_nil (k : Nat) : transposeIndex [] k = 0 :=
  rfl

variable {k d : Nat} {ds es : List Nat}

theorem transposeIndex_cons (d : Nat) (ds : List Nat) (hk : k < d * ds.prod) :
    transposeIndex (d :: ds) k = k % d * ds.prod + transposeIndex ds (k / d) := by
  rw [transposeIndex, decodeF_cons d ds hk]
  rfl

/-- The transpose of a matrix. -/
theorem transposeIndex_pair (d e : Nat) (hk : k < d * e) :
    transposeIndex [d, e] k = k % d * e + k / d := by
  have hrest : k / d < e := Nat.div_lt_of_lt_mul hk
  rw [transposeIndex_cons d [e] (by simpa using hk), transposeIndex_cons e [] (by simpa using hrest),
    Nat.mod_eq_of_lt hrest, transposeIndex_nil, List.prod_singleton, List.prod_nil, mul_one, add_zero]

/-- A first extent of one does not matter. -/
theorem transposeIndex_one_cons (hk : k < ds.prod) :
    transposeIndex (1 :: ds) k = transposeIndex ds k := by
  rw [transposeIndex_cons 1 ds (by rwa [one_mul]), Nat.mod_one, Nat.zero_mul, Nat.zero_add,
    Nat.div_one]

theorem prod_filter_ne_one (ds : List Nat) : (ds.filter (· ≠ 1)).prod = ds.prod := by
  induction ds with
  | nil => rfl
  | cons d ds ih =>
      by_cases hone : d = 1
      · rw [List.filter_cons_of_neg (by simpa using hone), ih, List.prod_cons, hone, one_mul]
      · rw [List.filter_cons_of_pos (by simpa using hone), List.prod_cons, List.prod_cons, ih]

/-- The permutation relates the two enumerations. -/
theorem decode_transposeIndex (hpos : ∀ d ∈ ds, 0 < d) (hk : k < ds.prod) :
    decode ds (transposeIndex ds k) = decodeF ds k :=
  decode_encode ((bijOn_decodeF hpos).mapsTo hk)

/-- Column-major decoding undoes the permutation of the reversed box. -/
theorem decodeF_transposeIndex (hpos : ∀ d ∈ ds, 0 < d) (hk : k < ds.prod) :
    decodeF ds (transposeIndex ds.reverse k) = decode ds k := by
  have hposr : ∀ d ∈ ds.reverse, 0 < d := fun d hd => hpos d (List.mem_reverse.mp hd)
  rw [decodeF, decode_transposeIndex hposr (by rwa [List.prod_reverse]), decodeF,
    List.reverse_reverse, List.reverse_reverse]

theorem transposeIndex_lt {ds : List Nat} (hpos : ∀ d ∈ ds, 0 < d) {k : Nat} (hk : k < ds.prod) :
    transposeIndex ds k < ds.prod :=
  encode_lt ((bijOn_decodeF hpos).mapsTo hk)

/-- Every index is the transpose of one. -/
theorem exists_transposeIndex_eq (hpos : ∀ d ∈ ds, 0 < d) (hk : k < ds.prod) :
    ∃ j < ds.prod, transposeIndex ds j = k := by
  obtain ⟨j, hj, heq⟩ := (bijOn_decodeF hpos).surjOn ((bijOn_decode hpos).mapsTo hk)
  refine ⟨j, hj, (bijOn_decode hpos).injOn (transposeIndex_lt hpos hj) hk ?_⟩
  rw [decode_transposeIndex hpos hj, heq]

theorem transposeIndex_zero (hprod : 0 < ds.prod) : transposeIndex ds 0 = 0 := by
  induction ds with
  | nil => rfl
  | cons d ds ih =>
      rw [List.prod_cons] at hprod
      rw [transposeIndex_cons d ds hprod, Nat.zero_mod, Nat.zero_div,
        ih (Nat.pos_of_mul_pos_left hprod), Nat.zero_mul]

/-- Indices from the two ends of a range split into digits from the two ends. -/
theorem digits_add {p k' : Nat} (h : k + k' + 1 = d * p) :
    k % d + k' % d + 1 = d ∧ k / d + k' / d + 1 = p := by
  have hd : 0 < d := by
    rcases Nat.eq_zero_or_pos d with rfl | hd
    · omega
    · exact hd
  have hr := Nat.mod_lt k hd
  have hq : k / d < p := Nat.div_lt_of_lt_mul (by omega)
  have hk := Nat.div_add_mod k d
  have hk' : k' = d - 1 - k % d + d * (p - 1 - k / d) := by
    obtain ⟨rest, hrest⟩ : ∃ rest, p = k / d + rest + 1 := ⟨p - k / d - 1, by omega⟩
    have hmul : d * p = d * (k / d) + d * rest + d := by rw [hrest]; ring
    have hsub : p - 1 - k / d = rest := by omega
    rw [hsub]
    omega
  have hlt : d - 1 - k % d < d := by omega
  rw [hk', Nat.add_mul_mod_self_left, Nat.mod_eq_of_lt hlt, Nat.add_mul_div_left _ _ hd,
    Nat.div_eq_of_lt hlt]
  omega

/-- Indices from the two ends of a box stay at the two ends. -/
theorem transposeIndex_add {k' : Nat} (h : k + k' + 1 = ds.prod) :
    transposeIndex ds k + transposeIndex ds k' + 1 = ds.prod := by
  induction ds generalizing k k' with
  | nil => rfl
  | cons d ds ih =>
      rw [List.prod_cons] at h
      obtain ⟨hmod, hdiv⟩ := digits_add h
      have hrest := ih hdiv
      rw [transposeIndex_cons d ds (by omega), transposeIndex_cons d ds (by omega), List.prod_cons]
      calc k % d * ds.prod + transposeIndex ds (k / d) +
            (k' % d * ds.prod + transposeIndex ds (k' / d)) + 1
          = (k % d + k' % d) * ds.prod + (transposeIndex ds (k / d) + transposeIndex ds (k' / d) + 1)
            := by ring
        _ = (k % d + k' % d + 1) * ds.prod := by rw [hrest, Nat.succ_mul]
        _ = d * ds.prod := by rw [hmod]

/-- Extents of one do not matter. -/
theorem transposeIndex_filter (hk : k < ds.prod) :
    transposeIndex (ds.filter (· ≠ 1)) k = transposeIndex ds k := by
  induction ds generalizing k with
  | nil => rfl
  | cons d ds ih =>
      rw [List.prod_cons] at hk
      have hrest : k / d < ds.prod := Nat.div_lt_of_lt_mul hk
      rw [transposeIndex_cons d ds hk]
      by_cases hone : d = 1
      · subst hone
        rw [List.filter_cons_of_neg (by simp), Nat.mod_one, Nat.zero_mul, Nat.zero_add,
          Nat.div_one]
        exact ih (by rwa [one_mul] at hk)
      · have hprod : (ds.filter (· ≠ 1)).prod = ds.prod := prod_filter_ne_one ds
        rw [List.filter_cons_of_pos (by simpa using hone),
          transposeIndex_cons _ _ (hprod ▸ hk), hprod, ih hrest]

/-- If no extent but the first is above one, the two orders agree. -/
theorem transposeIndex_of_prod_one (hds : ds.prod = 1) (hk : k < d) :
    transposeIndex (d :: ds) k = k := by
  rw [transposeIndex_cons d ds (by rwa [hds, mul_one]), Nat.mod_eq_of_lt hk, hds, mul_one,
    Nat.div_eq_of_lt hk, transposeIndex_zero (by omega), add_zero]

/-- If the indices of a box with several extents above one move linearly within groups of a size,
the size is that of the first extent. -/
theorem size_eq_of_linear (hd : 2 ≤ d) (hpos : ∀ e ∈ ds, 0 < e) (hds : 2 ≤ ds.prod) {size : Nat}
    (hsize : 2 ≤ size) {s t : Int} (h : ∀ k < d * ds.prod,
      ((k % size : Nat) : Int) * s + ((k / size : Nat) : Int) * t = transposeIndex (d :: ds) k) :
    size = d ∧ t = transposeIndex ds 1 := by
  have hvolume : 2 * d ≤ d * ds.prod := by
    rw [Nat.mul_comm]
    exact Nat.mul_le_mul_left d hds
  -- the first step goes along the first extent
  have hstep : s = ds.prod := by
    have hone := h 1 (by omega)
    rw [transposeIndex_cons d ds (by omega), Nat.mod_eq_of_lt hsize, Nat.div_eq_of_lt hsize,
      Nat.mod_eq_of_lt hd, Nat.div_eq_of_lt hd, transposeIndex_zero (by omega)] at hone
    simpa using hone
  have hturn : transposeIndex (d :: ds) d = transposeIndex ds 1 := by
    rw [transposeIndex_cons d ds (by omega), Nat.mod_self, Nat.div_self (by omega), Nat.zero_mul,
      Nat.zero_add]
  have hlt : (transposeIndex ds 1 : Int) < ds.prod := by
    exact_mod_cast transposeIndex_lt hpos (by omega)
  have hatTurn := h d (by omega)
  rw [hturn, hstep] at hatTurn
  have hle : size ≤ d := by
    by_contra hgt
    rw [Nat.mod_eq_of_lt (by omega), Nat.div_eq_of_lt (by omega)] at hatTurn
    have hmul : (ds.prod : Int) ≤ d * ds.prod := by
      exact_mod_cast Nat.le_mul_of_pos_left _ (by omega)
    simp only [Nat.cast_zero, zero_mul, add_zero] at hatTurn
    omega
  have heq : size = d := by
    by_contra hne
    have hatSize := h size (by omega)
    rw [transposeIndex_cons d ds (by omega), Nat.mod_self, Nat.div_self (by omega),
      Nat.mod_eq_of_lt (by omega), Nat.div_eq_of_lt (by omega), transposeIndex_zero (by omega)]
      at hatSize
    have ht : t = size * ds.prod := by simpa using hatSize
    have hwhole : (((d % size : Nat) : Int) * ds.prod + ((d / size : Nat) : Int) * t) =
        d * ds.prod := by
      have hsplit : ((d % size : Nat) : Int) + (d / size : Nat) * size = d := by
        exact_mod_cast Nat.mod_add_div' d size
      rw [ht, ← hsplit]
      ring
    rw [hwhole] at hatTurn
    have hmul : (ds.prod : Int) ≤ d * ds.prod := by
      exact_mod_cast Nat.le_mul_of_pos_left _ (by omega)
    omega
  subst heq
  refine ⟨rfl, ?_⟩
  rw [Nat.mod_self, Nat.div_self (by omega)] at hatTurn
  simpa using hatTurn

/-- With extents above one, the permutation determines the box. -/
theorem eq_of_transposeIndex (hds : ∀ d ∈ ds, 2 ≤ d) (hes : ∀ e ∈ es, 2 ≤ e)
    (hprod : ds.prod = es.prod) (h : ∀ k < ds.prod, transposeIndex ds k = transposeIndex es k) :
    ds = es := by
  induction ds generalizing es with
  | nil =>
      cases es with
      | nil => rfl
      | cons e es =>
          have he := hes e List.mem_cons_self
          rw [List.prod_nil, List.prod_cons] at hprod
          have hone := Nat.eq_one_of_mul_eq_one_right hprod.symm
          omega
  | cons d ds ih =>
      cases es with
      | nil =>
          have hd := hds d List.mem_cons_self
          rw [List.prod_nil, List.prod_cons] at hprod
          have hone := Nat.eq_one_of_mul_eq_one_right hprod
          omega
      | cons e es =>
          have hd := hds d List.mem_cons_self
          have he := hes e List.mem_cons_self
          have hds' : ∀ x ∈ ds, 2 ≤ x := fun x hx => hds x (List.mem_cons_of_mem _ hx)
          have hes' : ∀ x ∈ es, 2 ≤ x := fun x hx => hes x (List.mem_cons_of_mem _ hx)
          have hdpos : 0 < ds.prod := prod_pos_of_pos fun x hx => (hds' x hx).trans' Nat.two_pos
          have hepos : 0 < es.prod := prod_pos_of_pos fun x hx => (hes' x hx).trans' Nat.two_pos
          rw [List.prod_cons, List.prod_cons] at hprod
          rw [List.prod_cons] at h
          have htwo : 2 ≤ d * ds.prod := hd.trans (Nat.le_mul_of_pos_right d hdpos)
          -- the second coordinate is one step along the first axis
          have hstep := h 1 htwo
          rw [transposeIndex_cons d ds htwo, transposeIndex_cons e es (hprod ▸ htwo),
            Nat.mod_eq_of_lt hd, Nat.mod_eq_of_lt he, Nat.div_eq_of_lt hd, Nat.div_eq_of_lt he,
            transposeIndex_zero hdpos, transposeIndex_zero hepos, one_mul, one_mul, add_zero,
            add_zero] at hstep
          have hfirst : d = e := by
            rw [hstep] at hprod
            exact Nat.eq_of_mul_eq_mul_right hepos hprod
          subst hfirst
          congr 1
          apply ih hds' hes' hstep
          intro k hk
          have hmul : d * k < d * ds.prod := Nat.mul_lt_mul_of_pos_left hk (by omega)
          have hrest := h (d * k) hmul
          rw [transposeIndex_cons d ds hmul, transposeIndex_cons d es (hprod ▸ hmul),
            Nat.mul_mod_right, Nat.mul_div_cancel_left k (by omega), Nat.zero_mul, Nat.zero_add,
            Nat.zero_mul, Nat.zero_add] at hrest
          exact hrest

/-- Boxes of one volume with one permutation have the same extents above one. -/
theorem filter_eq_of_transposeIndex (hds : ∀ d ∈ ds, 0 < d) (hes : ∀ e ∈ es, 0 < e)
    (hprod : ds.prod = es.prod) (h : ∀ k < ds.prod, transposeIndex ds k = transposeIndex es k) :
    ds.filter (· ≠ 1) = es.filter (· ≠ 1) := by
  have htwo : ∀ {xs : List Nat}, (∀ x ∈ xs, 0 < x) → ∀ x ∈ xs.filter (· ≠ 1), 2 ≤ x := by
    intro xs hxs x hx
    obtain ⟨hmem, hne⟩ := List.mem_filter.mp hx
    have hpos := hxs x hmem
    have hne : x ≠ 1 := of_decide_eq_true hne
    omega
  apply eq_of_transposeIndex (htwo hds) (htwo hes)
  · rw [prod_filter_ne_one, prod_filter_ne_one, hprod]
  · intro k hk
    rw [prod_filter_ne_one] at hk
    rw [transposeIndex_filter hk, transposeIndex_filter (hprod ▸ hk), h k hk]

/-- With the same extents above one, the two orders pair the coordinates of two boxes
alike. -/
theorem transposeIndex_congr (h : ds.filter (· ≠ 1) = es.filter (· ≠ 1)) (hk : k < ds.prod) :
    transposeIndex ds k = transposeIndex es k := by
  have hprod : ds.prod = es.prod := by rw [← prod_filter_ne_one ds, h, prod_filter_ne_one]
  rw [← transposeIndex_filter hk, h, transposeIndex_filter (hprod ▸ hk)]

/-- The two enumerations agree exactly if at most one extent is above one. -/
theorem forall_transposeIndex_iff (hpos : ∀ d ∈ ds, 0 < d) :
    (∀ k < ds.prod, transposeIndex ds k = k) ↔ (ds.filter (· ≠ 1)).length ≤ 1 := by
  have hline : ∀ k < ds.prod, transposeIndex [ds.prod] k = k :=
    fun k hk => transposeIndex_of_prod_one List.prod_nil hk
  have hprod : ds.prod = [ds.prod].prod := List.prod_singleton.symm
  constructor
  · intro h
    have hall : ∀ k < ds.prod, transposeIndex ds k = transposeIndex [ds.prod] k := by
      intro k hk
      rw [h k hk, hline k hk]
    have hfilter := filter_eq_of_transposeIndex hpos
      (List.forall_mem_singleton.mpr (prod_pos_of_pos hpos)) hprod hall
    rw [hfilter]
    exact List.length_filter_le _ _
  · intro hfew k hk
    have hfilter : ds.filter (· ≠ 1) = [ds.prod].filter (· ≠ 1) := by
      rcases hds : ds.filter (· ≠ 1) with _ | ⟨d, rest⟩
      · have hone : ds.prod = 1 := by rw [← prod_filter_ne_one, hds, List.prod_nil]
        rw [hds, hone]
        rfl
      · rw [hds, List.length_cons] at hfew
        have hrest : rest = [] := List.eq_nil_of_length_eq_zero (by omega)
        have hd : ds.prod = d := by rw [← prod_filter_ne_one, hds, hrest, List.prod_singleton]
        have hne : d ≠ 1 := by
          have hmem : d ∈ ds.filter (· ≠ 1) := by
            rw [hds]
            exact List.mem_cons_self
          simpa using (List.mem_filter.mp hmem).2
        rw [hds, hrest, hd, List.filter_cons_of_pos (by simpa using hne), List.filter_nil]
    rw [transposeIndex_congr hfilter hk, hline k hk]

end Strided
