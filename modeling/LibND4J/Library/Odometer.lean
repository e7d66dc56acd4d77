import LibND4J.Library.Strided

/-!
# Odometer iteration

An odometer visits a box by bumping the first coordinate and carrying into the
next one when it wraps, while a pointer is moved along by the strides.  The file
defines one tick of the odometer, the loop that runs it until every coordinate
has wrapped, and proves that the loop visits the box in column-major order, each
coordinate once, with the pointer at the strided offset of the coordinate.

Main results:

- Theorem `advance_decodeF`: one tick moves from index `k` to index `k + 1`,
  and reports the end of the box exactly at the last index.
- Theorem `odometer_eq`: the loop returns, and the list of its visits is the
  column-major enumeration of the box.
- Theorems `sweep_eq`, `map_offsetAtF_perm` and `sweep_neg_perm`: the
  pointers of a box do not depend on the order of the visits, nor on the direction in
  which an axis is walked.
- Theorem `odometer_turnAxes`: the loop visits the same pointers when some axes are
  turned around first.
-/

namespace Strided

variable {G : Type*} [AddCommGroup G]

/-! ## Column-major order -/

/-- Offset of the `k`-th coordinate in column-major order. -/
def offsetAtF (axes : List (Nat × G)) (k : Nat) : G :=
  offsetAt axes.reverse k

@[simp]
theorem offsetAtF_zero (axes : List (Nat × G)) : offsetAtF axes 0 = 0 :=
  offsetAt_zero _

@[simp]
theorem decodeF_nil (k : Nat) : decodeF [] k = [] :=
  rfl

theorem decode_zero (ds : List Nat) : decode ds 0 = List.replicate ds.length 0 := by
  induction ds with
  | nil => rfl
  | cons d ds ih => simp [decode_cons, ih, List.replicate_succ]

variable {k fuel : Nat} {axes : List (Nat × G)}

theorem decode_append (xs ys : List Nat) (hk : k < xs.prod * ys.prod) :
    decode (xs ++ ys) k = decode xs (k / ys.prod) ++ decode ys (k % ys.prod) := by
  induction xs generalizing k with
  | nil =>
      rw [List.prod_nil, one_mul] at hk
      simp [Nat.mod_eq_of_lt hk]
  | cons x xs ih =>
      have hprod : 0 < xs.prod * ys.prod := by
        rw [List.prod_cons, mul_assoc] at hk
        exact Nat.pos_of_ne_zero fun hzero => by simp [hzero] at hk
      rw [List.cons_append, decode_cons, List.prod_append, ih (Nat.mod_lt k hprod), decode_cons,
        Nat.mod_mul_left_div_self, Nat.mod_mul_left_mod, Nat.div_div_eq_div_mul,
        mul_comm ys.prod, List.cons_append]

/-- The first digit of a column-major coordinate is the remainder by its extent. -/
theorem decodeF_cons (d : Nat) (ds : List Nat) (hk : k < d * ds.prod) :
    decodeF (d :: ds) k = k % d :: decodeF ds (k / d) := by
  have hk' : k < ds.reverse.prod * [d].prod := by
    rw [List.prod_reverse, List.prod_singleton, mul_comm]
    exact hk
  simp [decodeF, decode_append _ _ hk', decode_cons]

/-- Column-major offsets peel off the first axis. -/
theorem offsetAtF_cons (a : Nat × G) (axes : List (Nat × G)) (hk : k < a.1 * volume axes) :
    offsetAtF (a :: axes) k = (k % a.1) • a.2 + offsetAtF axes (k / a.1) := by
  have hk' : k < volume axes.reverse * volume [a] := by
    rw [volume_reverse, volume_cons, volume_nil, mul_one, mul_comm]
    exact hk
  rw [offsetAtF, List.reverse_cons, offsetAt_append _ _ hk', add_comm]
  simp [offsetAt_cons, offsetAtF]

/-- The column-major offset is the weighted sum of the column-major coordinate. -/
theorem offsetAtF_eq_dot (axes : List (Nat × G)) (hk : k < volume axes) :
    offsetAtF axes k = dot (decodeF (dims axes) k) (axes.map Prod.snd) := by
  induction axes generalizing k with
  | nil => simp [offsetAtF]
  | cons a axes ih =>
      rw [volume_cons] at hk
      have hdiv : k / a.1 < volume axes := Nat.div_lt_of_lt_mul hk
      rw [offsetAtF_cons a axes hk, dims_cons, decodeF_cons _ _ hk, ih hdiv]
      simp

/-! ## The odometer -/

/-- One tick: bump the first coordinate, carry on a wrap, and move the pointer.
The flag says whether some coordinate was bumped without wrapping. -/
def advance : List (Nat × G) → List Nat → G → List Nat × G × Bool
  | a :: axes, c :: cs, p =>
      if c + 1 = a.1 then
        let (cs', p', more) := advance axes cs (p - (a.1 - 1) • a.2)
        (0 :: cs', p', more)
      else
        ((c + 1) :: cs, p + a.2, true)
  | _, _, p => ([], p, false)

/-- Run the odometer from a coordinate, listing every visited coordinate with its
pointer.  The loop body runs before the tick; `none` means the fuel ran out. -/
def odometerFrom (axes : List (Nat × G)) : Nat → List Nat → G → Option (List (List Nat × G))
  | 0, _, _ => none
  | fuel + 1, c, p =>
      match advance axes c p with
      | (c', p', true) => (odometerFrom axes fuel c' p').map ((c, p) :: ·)
      | (_, _, false) => some [(c, p)]

/-- Run the odometer over a whole box, starting at the zero coordinate. -/
def odometer (fuel : Nat) (axes : List (Nat × G)) (p : G) : Option (List (List Nat × G)) :=
  odometerFrom axes fuel (List.replicate axes.length 0) p

/-- One tick leads from index `k` to index `k + 1`, and stops at the last index. -/
theorem advance_decodeF (axes : List (Nat × G)) (p : G) (hk : k < volume axes) :
    advance axes (decodeF (dims axes) k) (p + offsetAtF axes k) =
      if k + 1 < volume axes then
        (decodeF (dims axes) (k + 1), p + offsetAtF axes (k + 1), true)
      else
        (List.replicate axes.length 0, p, false) := by
  induction axes generalizing p k with
  | nil =>
      have hzero : k = 0 := by simpa using hk
      simp [advance, hzero]
  | cons a axes ih =>
      rw [volume_cons] at hk
      have hapos : 0 < a.1 := Nat.pos_of_ne_zero fun hzero => by simp [hzero] at hk
      have hdiv : k / a.1 < volume axes := Nat.div_lt_of_lt_mul hk
      have hdm := Nat.div_add_mod k a.1
      rw [dims_cons, decodeF_cons _ _ hk, offsetAtF_cons a axes hk]
      by_cases hwrap : k % a.1 + 1 = a.1
      · -- the first digit wraps: the carry is a tick of the remaining axes at `k / a.1`
        have hsucc : k + 1 = a.1 * (k / a.1 + 1) := by rw [mul_add, mul_one]; omega
        have hmod : (k + 1) % a.1 = 0 := by rw [hsucc, Nat.mul_mod_right]
        have hquot : (k + 1) / a.1 = k / a.1 + 1 := by rw [hsucc, Nat.mul_div_cancel_left _ hapos]
        have hptr : p + ((k % a.1) • a.2 + offsetAtF axes (k / a.1)) - (a.1 - 1) • a.2 =
            p + offsetAtF axes (k / a.1) := by
          rw [show k % a.1 = a.1 - 1 by omega, add_left_comm, add_sub_cancel_left]
        have hlt : k + 1 < volume (a :: axes) ↔ k / a.1 + 1 < volume axes := by
          rw [volume_cons, hsucc]
          exact Nat.mul_lt_mul_left hapos
        simp only [advance, hwrap, if_true, hptr, ih p hdiv]
        by_cases hmore : k / a.1 + 1 < volume axes
        · have hk1 : k + 1 < a.1 * volume axes := by
            have := hlt.mpr hmore
            rwa [volume_cons] at this
          simp only [hlt, hmore, if_true]
          rw [decodeF_cons _ _ hk1, offsetAtF_cons a axes hk1, hmod, hquot, zero_smul, zero_add]
        · simp only [hlt, hmore, if_false, List.length_cons, List.replicate_succ]
      · have hmodlt := Nat.mod_lt k hapos
        have hsucc : k + 1 = a.1 * (k / a.1) + (k % a.1 + 1) := by omega
        have hmod : (k + 1) % a.1 = k % a.1 + 1 := by
          rw [hsucc, Nat.mul_add_mod, Nat.mod_eq_of_lt (by omega)]
        have hquot : (k + 1) / a.1 = k / a.1 := by
          have hsmall : (k % a.1 + 1) / a.1 = 0 := Nat.div_eq_of_lt (by omega)
          conv_lhs => rw [hsucc]
          rw [Nat.mul_add_div hapos, hsmall, add_zero]
        have hk1 : k + 1 < a.1 * volume axes := by
          calc k + 1 < a.1 * (k / a.1) + a.1 := by omega
            _ = a.1 * (k / a.1 + 1) := by ring
            _ ≤ a.1 * volume axes := Nat.mul_le_mul_left _ hdiv
        rw [volume_cons, if_pos hk1, decodeF_cons _ _ hk1, offsetAtF_cons a axes hk1, hmod, hquot]
        simp only [advance, hwrap, if_false, add_smul, one_smul]
        refine Prod.ext rfl (Prod.ext ?_ rfl)
        rw [add_right_comm ((k % a.1) • a.2), add_assoc p]

/-- From index `k` on, the loop visits the remaining indices in order. -/
theorem odometerFrom_decodeF (axes : List (Nat × G)) (p : G) {n : Nat}
    (hn : k + (n + 1) = volume axes) (hfuel : n < fuel) :
    odometerFrom axes fuel (decodeF (dims axes) k) (p + offsetAtF axes k) =
      some ((List.range' k (n + 1)).map fun i =>
        (decodeF (dims axes) i, p + offsetAtF axes i)) := by
  induction n generalizing k fuel with
  | zero =>
      obtain ⟨f, rfl⟩ : ∃ f, fuel = f + 1 := ⟨fuel - 1, by omega⟩
      have hlast : ¬ k + 1 < volume axes := by omega
      simp [odometerFrom, advance_decodeF axes p (show k < volume axes by omega), hlast]
  | succ n ih =>
      obtain ⟨f, rfl⟩ : ∃ f, fuel = f + 1 := ⟨fuel - 1, by omega⟩
      have hmore : k + 1 < volume axes := by omega
      rw [odometerFrom, advance_decodeF axes p (by omega), if_pos hmore]
      simp only [ih (k := k + 1) (by omega) (show n < f by omega)]
      simp [List.range'_succ]

/-- The loop returns with enough fuel, and its visits are the box in column-major
order, each coordinate with its strided offset. -/
theorem odometer_eq (axes : List (Nat × G)) (p : G) (hpos : ∀ a ∈ axes, 0 < a.1)
    (hfuel : volume axes ≤ fuel) :
    odometer fuel axes p =
      some ((List.range (volume axes)).map fun i =>
        (decodeF (dims axes) i, p + offsetAtF axes i)) := by
  have hvol := volume_pos hpos
  have hzero : decodeF (dims axes) 0 = List.replicate axes.length 0 := by
    simp [decodeF, decode_zero, dims]
  have h := odometerFrom_decodeF axes p (n := volume axes - 1) (k := 0)
    (by omega) (show volume axes - 1 < fuel by omega)
  rw [hzero, offsetAtF_zero, add_zero, Nat.sub_add_cancel hvol, ← List.range_eq_range'] at h
  exact h

/-! ## Sweeps -/

/-- Two enumerations of one set are permutations of each other. -/
theorem map_range_perm_of_bijOn {α : Type*} {n : Nat} {s : Set α} {f g : Nat → α}
    (hf : Set.BijOn f {k | k < n} s) (hg : Set.BijOn g {k | k < n} s) :
    ((List.range n).map f).Perm ((List.range n).map g) := by
  have hmem : ∀ h : Nat → α, Set.BijOn h {k | k < n} s →
      ∀ c, c ∈ (List.range n).map h ↔ c ∈ s := by
    intro h hh c
    constructor
    · intro hc
      obtain ⟨k, hk, rfl⟩ := List.mem_map.mp hc
      exact hh.mapsTo (List.mem_range.mp hk)
    · intro hc
      obtain ⟨k, hk, rfl⟩ := hh.surjOn hc
      exact List.mem_map_of_mem (List.mem_range.mpr hk)
  have hnodup : ∀ h : Nat → α, Set.BijOn h {k | k < n} s → ((List.range n).map h).Nodup := by
    intro h hh
    apply List.Nodup.map_on _ List.nodup_range
    intro j hj k hk heq
    exact hh.injOn (List.mem_range.mp hj) (List.mem_range.mp hk) heq
  rw [List.perm_ext_iff_of_nodup (hnodup _ hf) (hnodup _ hg)]
  intro c
  rw [hmem _ hf, hmem _ hg]

/-- Both orders visit the same coordinates. -/
theorem map_decodeF_perm {ds : List Nat} (hpos : ∀ d ∈ ds, 0 < d) :
    ((List.range ds.prod).map (decodeF ds)).Perm ((List.range ds.prod).map (decode ds)) :=
  map_range_perm_of_bijOn (bijOn_decodeF hpos) (bijOn_decode hpos)

/-- Column-major and row-major offsets are the same up to order. -/
theorem map_offsetAtF_perm (hpos : ∀ a ∈ axes, 0 < a.1) (p : G) :
    ((List.range (volume axes)).map fun k => p + offsetAtF axes k).Perm
      ((List.range (volume axes)).map fun k => p + offsetAt axes k) := by
  have hdims : ∀ d ∈ dims axes, 0 < d := by
    intro d hd
    obtain ⟨a, ha, rfl⟩ := List.mem_map.mp hd
    exact hpos a ha
  have hperm := (map_decodeF_perm hdims).map fun c => p + dot c (axes.map Prod.snd)
  rw [List.map_map, List.map_map] at hperm
  have hF : (List.range (volume axes)).map (fun k => p + offsetAtF axes k) =
      (List.range (dims axes).prod).map
        ((fun c => p + dot c (axes.map Prod.snd)) ∘ decodeF (dims axes)) :=
    List.map_congr_left fun k hk => by
      rw [offsetAtF_eq_dot axes (List.mem_range.mp hk)]
      rfl
  have hC : (List.range (volume axes)).map (fun k => p + offsetAt axes k) =
      (List.range (dims axes).prod).map
        ((fun c => p + dot c (axes.map Prod.snd)) ∘ decode (dims axes)) :=
    List.map_congr_left fun k _ => by
      rw [offsetAt_eq_dot]
      rfl
  rw [hF, hC]
  exact hperm

/-- The pointers of a box, the first axis slowest. -/
def sweep : List (Nat × G) → G → List G
  | [], p => [p]
  | a :: axes, p => (List.range a.1).flatMap fun c => sweep axes (p + c • a.2)

/-- A sweep lists the row-major offsets. -/
theorem sweep_eq (axes : List (Nat × G)) (p : G) :
    sweep axes p = (List.range (volume axes)).map fun k => p + offsetAt axes k := by
  induction axes generalizing p with
  | nil => simp [sweep]
  | cons a axes ih =>
      obtain ⟨d, s⟩ := a
      rw [sweep, volume_cons]
      induction d with
      | zero => simp
      | succ d ihd =>
          rw [List.range_succ, List.flatMap_append, ihd, List.flatMap_singleton, ih,
            Nat.add_mul, Nat.one_mul, List.range_add, List.map_append, List.map_map]
          refine congrArg₂ (· ++ ·) ?_ (List.map_congr_left fun k hk => ?_)
          · exact List.map_congr_left fun k _ => by rw [offsetAt_cons, offsetAt_cons]
          · have hk := List.mem_range.mp hk
            have hdiv : (d * volume axes + k) / volume axes = d := by
              rw [Nat.mul_comm, Nat.mul_add_div (by omega), Nat.div_eq_of_lt hk, add_zero]
            have hmod : (d * volume axes + k) % volume axes = k := by
              rw [Nat.mul_comm, Nat.mul_add_mod, Nat.mod_eq_of_lt hk]
            simp only [Function.comp_apply, offsetAt_cons, hdiv, hmod, add_assoc]

/-- Walking the first axis backwards from its far end sweeps the same pointers. -/
theorem sweep_neg_perm (a : Nat × G) (axes : List (Nat × G)) (p : G) :
    (sweep ((a.1, -a.2) :: axes) (p + (a.1 - 1) • a.2)).Perm (sweep (a :: axes) p) := by
  have hback : sweep ((a.1, -a.2) :: axes) (p + (a.1 - 1) • a.2) =
      (List.range a.1).reverse.flatMap fun c => sweep axes (p + c • a.2) := by
    rw [sweep, List.range_eq_range' (n := a.1), List.reverse_range', List.flatMap_map,
      ← List.range_eq_range']
    refine List.flatMap_congr fun c hc => ?_
    simp only [Nat.zero_add]
    have hlt := List.mem_range.mp hc
    have hsplit : (a.1 - 1) • a.2 = (a.1 - 1 - c) • a.2 + c • a.2 := by
      rw [← add_smul]
      congr 1
      omega
    rw [hsplit, smul_neg, ← add_assoc, add_neg_cancel_right]
  rw [hback, sweep]
  exact (List.reverse_perm _).flatMap_right _

/-- Sweeps that agree behind the first axis agree. -/
theorem sweep_cons_perm (a : Nat × G) {xs ys : List (Nat × G)} {d : G}
    (h : ∀ p, (sweep xs (p + d)).Perm (sweep ys p)) (p : G) :
    (sweep (a :: xs) (p + d)).Perm (sweep (a :: ys) p) := by
  rw [sweep, sweep]
  apply List.Perm.flatMap_left
  intro c _
  rw [add_right_comm]
  exact h (p + c • a.2)

/-! ## Axes walked backwards -/

/-- Walk an axis backwards, from its far end. -/
def turnAxis (turned : G → Bool) (a : Nat × G) (p : G) : (Nat × G) × G :=
  if turned a.2 then ((a.1, -a.2), p + ((a.1 : Int) - 1) • a.2) else (a, p)

/-- Turn the axes one after the other; `none` when an extent is zero. -/
def turnAxes (turned : G → Bool) : List (Nat × G) → G → Option (List (Nat × G)) × G
  | [], p => (some [], p)
  | a :: axes, p =>
      let (a', p') := turnAxis turned a p
      if a.1 = 0 then
        (none, p')
      else
        let (axes', p'') := turnAxes turned axes p'
        (axes'.map (a' :: ·), p'')

/-- Turning one axis moves the start and keeps the sweep. -/
theorem turnAxis_sweep (turned : G → Bool) {a : Nat × G} (hpos : 0 < a.1) :
    ∃ a' shift, (∀ p, turnAxis turned a p = (a', p + shift)) ∧ a'.1 = a.1 ∧
      ∀ axes p, (sweep (a' :: axes) (p + shift)).Perm (sweep (a :: axes) p) := by
  by_cases hturned : turned a.2 = true
  · refine ⟨(a.1, -a.2), (a.1 - 1) • a.2, fun p => ?_, rfl, fun axes p => ?_⟩
    · have hcast : ((a.1 : Int) - 1) • a.2 = (a.1 - 1) • a.2 := by
        rw [← natCast_zsmul, Nat.cast_sub hpos, Nat.cast_one]
      rw [turnAxis, if_pos hturned, hcast]
    · exact sweep_neg_perm a axes p
  · refine ⟨a, 0, fun p => ?_, rfl, fun axes p => ?_⟩
    · rw [turnAxis, if_neg hturned, add_zero]
    · rw [add_zero]

/-- Turning the axes one after the other keeps the sweep. -/
theorem turnAxes_sweep (turned : G → Bool) (hpos : ∀ a ∈ axes, 0 < a.1) :
    ∃ axes' shift, (∀ p, turnAxes turned axes p = (some axes', p + shift)) ∧
      dims axes' = dims axes ∧ ∀ p, (sweep axes' (p + shift)).Perm (sweep axes p) := by
  induction axes with
  | nil => exact ⟨[], 0, fun p => by simp [turnAxes], rfl, fun p => by simp⟩
  | cons a axes ih =>
      have ha : 0 < a.1 := hpos a List.mem_cons_self
      obtain ⟨a', e, hfirst, hdim, hsweep⟩ := turnAxis_sweep turned ha
      obtain ⟨axes', d, hrest, hdims, hsweep'⟩ := ih fun b hb => hpos b (List.mem_cons_of_mem _ hb)
      refine ⟨a' :: axes', e + d, fun p => ?_, ?_, fun p => ?_⟩
      · simp only [turnAxes, hfirst, hrest, ha.ne', if_false, Option.map_some, add_assoc]
      · rw [dims_cons, dims_cons, hdim, hdims]
      · rw [← add_assoc]
        exact (sweep_cons_perm a' hsweep' (p + e)).trans (hsweep axes p)

omit [AddCommGroup G] in
/-- Axes of the same extents are positive alike. -/
theorem pos_of_dims_eq {axes' : List (Nat × G)} (hdims : dims axes' = dims axes)
    (hpos : ∀ a ∈ axes, 0 < a.1) : ∀ a ∈ axes', 0 < a.1 := by
  intro a ha
  have hmem : a.1 ∈ dims axes := hdims ▸ List.mem_map_of_mem ha
  obtain ⟨b, hb, heq⟩ := List.mem_map.mp hmem
  exact heq ▸ hpos b hb

/-- An odometer over turned axes visits the pointers of the box. -/
theorem odometer_turnAxes (turned : G → Bool) (hpos : ∀ a ∈ axes, 0 < a.1) (p : G)
    (hfuel : volume axes ≤ fuel) :
    ∃ axes' p' visits, turnAxes turned axes p = (some axes', p') ∧
      (odometer fuel axes' p').map (fun visits => visits.map Prod.snd) = some visits ∧
      visits.Perm ((List.range (volume axes)).map fun k => p + offsetAt axes k) := by
  obtain ⟨axes', shift, hrun, hdims, hsweep⟩ := turnAxes_sweep turned hpos
  have hpos' := pos_of_dims_eq hdims hpos
  have hvolume : volume axes' = volume axes := congrArg List.prod hdims
  refine ⟨axes', p + shift, (List.range (volume axes')).map fun k =>
    p + shift + offsetAtF axes' k, hrun p, ?_, ?_⟩
  · rw [odometer_eq axes' _ hpos' (hvolume ▸ hfuel), Option.map_some, List.map_map]
    rfl
  · have hperm := hsweep p
    rw [sweep_eq, sweep_eq] at hperm
    exact (map_offsetAtF_perm hpos' (p + shift)).trans hperm

/-! ## The coordinates of turned axes -/

end Strided
