import LibND4J.Arrays.ChannelStatistics

/-!
# Histograms

Two threads count the elements of a span each, in bins of their own, and add their bins to the
result one after the other.  The elements are taken from the first cells of the buffer, one for each
element of the array.

Main results:

- Theorem `execSpecial_eq`: what the threads leave in the result.
- Theorem `countsElements_iff`: of which arrays the elements are counted.
-/

namespace LibND4J
namespace Loops
namespace Histogram

open Strided Shape Arrays

/-! ## The operation -/

section Operation

variable {T : Type} [Field T] [LinearOrder T] [FloorRing T]

/-- The bin of an element. -/
def index (numBins : Int) (min_val binSize v : T) : Int :=
  let idx := toInt ((v - min_val) / binSize)
  if idx < 0 then 0 else if idx ≥ numBins then numBins - 1 else idx

def threadBins (length : Nat) (index : Nat → Int) (tid : Nat) : Int → Nat :=
  let span := length / 2 + 8
  let start := span * tid
  let finish := if span * (tid + 1) > length then length else span * (tid + 1)
  (List.range' start (finish - start)).foldl
    (fun bins x => Function.update bins (index x) (bins (index x) + 1)) fun _ => 0

/-- `Histogram::execSpecial`; the threads add their bins in the order of `merges`. -/
def execSpecial (length : Nat) (dx result : Int → T) (extraParams : List T) (merges : List Nat) :
    Int → T :=
  let numBins := toInt (extraParams.getD 0 0)
  let min_val := extraParams.getD 1 0
  let max_val := extraParams.getD 2 0
  let binSize := (max_val - min_val) / numBins
  merges.foldl (fun result tid x =>
    if 0 ≤ x ∧ x < numBins then
      result x + threadBins length (fun i => index numBins min_val binSize (dx i)) tid x
    else result x) result

/-- The elements of an array, whatever its buffer holds, are counted in their bins. -/
def CountsElements (T : Type) [Field T] [LinearOrder T] [FloorRing T] (info : ShapeInfo)
    (numBins : Nat) : Prop :=
  ∀ (x : Int → T) (min_val max_val : T), min_val < max_val → ∀ merges : List Nat,
    merges.Perm [0, 1] →
    let result := execSpecial info.length x (fun _ => 0) [(numBins : T), min_val, max_val] merges
    (∀ b < numBins, result b = ((NDArray.mk info x).values.countP fun v =>
      index numBins min_val ((max_val - min_val) / numBins) v = b : Nat)) ∧
    ∑ b ∈ Finset.range numBins, result b = info.length

end Operation

/-! ## The bins -/

theorem foldl_update (index : Nat → Int) (xs : List Nat) (bins : Int → Nat) (b : Int) :
    (xs.foldl (fun bins x => Function.update bins (index x) (bins (index x) + 1)) bins) b =
      bins b + xs.countP fun x => index x = b := by
  induction xs generalizing bins with
  | nil => rfl
  | cons x xs ih =>
      rw [List.foldl_cons, ih, List.countP_cons]
      by_cases hb : index x = b
      · rw [← hb, Function.update_self, if_pos (decide_eq_true rfl)]
        omega
      · rw [Function.update_of_ne (Ne.symm hb), if_neg (by simpa using hb), Nat.add_zero]

/-- The spans of the threads make up all numbers. -/
theorem threadBins_add (length : Nat) (index : Nat → Int) (b : Int) :
    threadBins length index 0 b + threadBins length index 1 b =
      (List.range length).countP fun x => index x = b := by
  have hspans : ∀ span, length ≤ span * 2 →
      List.range' 0 ((if span > length then length else span) - 0) ++
        List.range' span (length - span) = List.range length := by
    intro span hspan
    rw [List.range_eq_range', Nat.sub_zero]
    by_cases hshort : span > length
    · rw [if_pos hshort, Nat.sub_eq_zero_of_le (by omega), List.range'_zero, List.append_nil]
    · have happend := List.range'_append_1 (s := 0) (m := span) (n := length - span)
      rw [if_neg hshort]
      rwa [Nat.zero_add, Nat.add_sub_cancel' (by omega)] at happend
  have hsecond : (if (length / 2 + 8) * (1 + 1) > length then length
      else (length / 2 + 8) * (1 + 1)) = length := by
    split <;> omega
  have hall := hspans (length / 2 + 8) (by omega)
  rw [threadBins, threadBins, foldl_update, foldl_update]
  simp only [hsecond, Nat.mul_zero, Nat.zero_add, Nat.mul_one]
  rw [← hall, List.countP_append]

section Bins

variable {T : Type} [Field T] [LinearOrder T] [FloorRing T]

/-- Each merge adds the bins of its thread. -/
theorem foldl_merges (numBins : Int) (bins : Nat → Int → Nat) (merges : List Nat)
    (result : Int → T) {b : Int} (hb : 0 ≤ b ∧ b < numBins) :
    (merges.foldl (fun (result : Int → T) tid x =>
      if 0 ≤ x ∧ x < numBins then result x + bins tid x else result x) result) b =
      result b + ((merges.map fun tid => bins tid b).sum : Nat) := by
  induction merges generalizing result with
  | nil => simp
  | cons tid merges ih =>
      rw [List.foldl_cons, ih, if_pos hb, List.map_cons, List.sum_cons, Nat.cast_add, add_assoc]

variable [IsStrictOrderedRing T]

theorem toInt_natCast (n : Nat) : toInt (n : T) = n := by
  rw [toInt, if_pos n.cast_nonneg, Int.floor_natCast]

/-- What the threads leave in the result, in either order of their merges. -/
theorem execSpecial_eq (length : Nat) (dx result : Int → T) (numBins : Nat) (min_val max_val : T)
    {merges : List Nat} (hmerges : merges.Perm [0, 1]) {b : Nat} (hb : b < numBins) :
    execSpecial length dx result [(numBins : T), min_val, max_val] merges b =
      result b + ((List.range length).countP fun i : Nat =>
        index numBins min_val ((max_val - min_val) / numBins) (dx i) = b : Nat) := by
  have hcount : toInt ((numBins : T)) = numBins := toInt_natCast numBins
  have hsum := fun bins : Nat → Int → Nat => (hmerges.map fun tid => bins tid b).sum_eq
  rw [execSpecial]
  simp only [List.getD_cons_zero, List.getD_cons_succ, hcount]
  rw [foldl_merges _ _ _ _ ⟨Int.natCast_nonneg b, Int.ofNat_lt.mpr hb⟩, hsum, List.map_cons,
    List.map_singleton, List.sum_cons, List.sum_singleton, threadBins_add, Int.cast_natCast]

omit [IsStrictOrderedRing T] in
theorem index_mem {numBins : Nat} (hbins : 0 < numBins) (min_val binSize v : T) :
    0 ≤ index numBins min_val binSize v ∧ index numBins min_val binSize v < numBins := by
  rw [index]
  split
  · omega
  · split <;> omega

end Bins

/-- Every number is in one bin. -/
theorem sum_countP {numBins : Nat} (index : Nat → Int) (xs : List Nat)
    (h : ∀ x ∈ xs, 0 ≤ index x ∧ index x < numBins) :
    ∑ b ∈ Finset.range numBins, (xs.countP fun x => index x = (b : Int)) = xs.length := by
  induction xs with
  | nil => simp
  | cons x xs ih =>
      obtain ⟨hnonneg, hlt⟩ := h x List.mem_cons_self
      have hone : ∑ b ∈ Finset.range numBins, (if index x = (b : Int) then 1 else 0) = 1 := by
        rw [Finset.sum_eq_single (index x).toNat]
        · rw [if_pos (Int.toNat_of_nonneg hnonneg).symm]
        · intro b _ hne
          exact if_neg fun heq => hne (by omega)
        · intro hnot
          rw [Finset.mem_range] at hnot
          omega
      simp only [List.countP_cons, decide_eq_true_eq, Finset.sum_add_distrib]
      rw [ih fun y hy => h y (List.mem_cons_of_mem x hy), hone, List.length_cons]

/-! ## Which elements are counted -/

/-- The cells of the elements of an array. -/
def cells (info : ShapeInfo) : List Int :=
  (List.range info.length).map fun k => dot (decode info.shape k) info.stride

theorem values_eq {T : Type} (info : ShapeInfo) (x : Int → T) :
    (NDArray.mk info x).values = (cells info).map x := by
  rw [NDArray.values, cells, List.map_map, List.map_map]
  refine List.map_congr_left fun k hk => ?_
  have hpos : info.Positive := by
    intro d hd
    by_contra hzero
    have hprod : info.length = 0 := List.prod_eq_zero (Nat.eq_zero_of_not_pos hzero ▸ hd)
    have hlt : k < info.length := List.mem_range.mp hk
    omega
  exact element_eq (inBox_decode hpos (List.mem_range.mp hk))

section Counts

variable {T : Type} [Field T] [LinearOrder T] [IsStrictOrderedRing T] [FloorRing T]
variable {info : ShapeInfo} {numBins : Nat}

/-- The counts that an array should have, and those that the first cells have. -/
theorem countsElements_iff_counts (hbins : 0 < numBins) :
    CountsElements T info numBins ↔ ∀ (x : Int → T) (min_val max_val : T), min_val < max_val →
      ∀ b < numBins, ((List.range info.length).countP fun i : Nat =>
          index numBins min_val ((max_val - min_val) / numBins) (x i) = b) =
        (cells info).countP fun i =>
          index numBins min_val ((max_val - min_val) / numBins) (x i) = b := by
  have hvalues : ∀ (x : Int → T) (p : T → Bool),
      (NDArray.mk info x).values.countP p = (cells info).countP fun i => p (x i) := by
    intro x p
    rw [values_eq, List.countP_map]
    rfl
  constructor
  · intro h x min_val max_val hlt b hb
    have hcount := (h x min_val max_val hlt [0, 1] (List.Perm.refl _)).1 b hb
    rw [execSpecial_eq _ _ _ _ _ _ (List.Perm.refl _) hb, hvalues, zero_add] at hcount
    exact Nat.cast_injective hcount
  · intro h x min_val max_val hlt merges hmerges
    refine ⟨fun b hb => ?_, ?_⟩
    · rw [execSpecial_eq _ _ _ _ _ _ hmerges hb, hvalues, zero_add]
      exact congrArg Nat.cast (h x min_val max_val hlt b hb)
    · have hall := sum_countP
        (fun i => index numBins min_val ((max_val - min_val) / numBins) (x i))
        (List.range info.length) fun i _ => index_mem hbins min_val _ (x i)
      rw [List.length_range] at hall
      refine Eq.trans ?_ (congrArg (Nat.cast (R := T)) hall)
      rw [Nat.cast_sum]
      refine Finset.sum_congr rfl fun b hb => ?_
      rw [execSpecial_eq _ _ _ _ _ _ hmerges (Finset.mem_range.mp hb), zero_add]

/-- The ends of the range of values are in the first bin and in the last one. -/
theorem index_ends (hbins : 0 < numBins) :
    index numBins (0 : T) ((1 - 0) / numBins) 0 = 0 ∧
      index numBins (0 : T) ((1 - 0) / numBins) 1 = numBins - 1 := by
  have hzero : toInt (((0 : T) - 0) / ((1 - 0) / numBins)) = 0 := by
    rw [sub_self, zero_div]
    exact_mod_cast toInt_natCast (T := T) 0
  have hone : toInt (((1 : T) - 0) / ((1 - 0) / numBins)) = numBins := by
    rw [sub_zero, one_div_one_div]
    exact toInt_natCast numBins
  constructor
  · rw [index]
    simp only [hzero]
    rw [if_neg (lt_irrefl 0), if_neg (by omega)]
  · rw [index]
    simp only [hone]
    rw [if_neg (by omega), if_pos (le_refl _)]

/-- Elements that are counted in several bins are the first cells of the buffer. -/
theorem perm_of_countsElements (hbins : 1 < numBins) (h : CountsElements T info numBins) :
    (cells info).Perm ((List.range info.length).map Nat.cast) := by
  refine List.perm_iff_count.mpr fun i => ?_
  -- a number in one cell is in the last bin, the zeros in the others are not
  have hcount := (countsElements_iff_counts (by omega)).mp h (fun j => if j = i then 1 else 0) 0 1
    one_pos (numBins - 1) (by omega)
  obtain ⟨hfirst, hlast⟩ := @index_ends T _ _ _ _ numBins (by omega)
  have hbin : ∀ j : Int, index numBins (0 : T) ((1 - 0) / numBins) (if j = i then 1 else 0) =
      (numBins - 1 : Nat) ↔ j = i := by
    intro j
    by_cases hj : j = i
    · rw [if_pos hj, hlast]
      exact ⟨fun _ => hj, fun _ => by omega⟩
    · rw [if_neg hj, hfirst]
      exact ⟨fun heq => by omega, fun heq => absurd heq hj⟩
  simp only [hbin] at hcount
  rw [List.count_eq_countP, List.count_eq_countP, List.countP_map]
  exact hcount.symm

/-- The elements are counted if there is one bin for all of them, or if they are the first cells of
the buffer. -/
theorem countsElements_iff (T : Type) [Field T] [LinearOrder T] [IsStrictOrderedRing T]
    [FloorRing T] (info : ShapeInfo) (numBins : Nat) (hbins : 1 ≤ numBins) :
    CountsElements T info numBins ↔
      numBins = 1 ∨ (cells info).Perm ((List.range info.length).map Nat.cast) := by
  constructor
  · intro h
    rcases Nat.eq_or_lt_of_le hbins with hone | hmany
    · exact Or.inl hone.symm
    · exact Or.inr (perm_of_countsElements hmany h)
  · intro h
    refine (countsElements_iff_counts hbins).mpr fun x min_val max_val _ b hb => ?_
    rcases h with hone | hcells
    · have hall : ∀ v : T, index numBins min_val ((max_val - min_val) / numBins) v = b := by
        intro v
        have hmem := index_mem hbins min_val ((max_val - min_val) / numBins) v
        omega
      simp only [hall, decide_true, List.countP_true, cells, List.length_range, List.length_map]
    · rw [hcells.countP_eq, List.countP_map]
      rfl

/-- Two elements a stride apart. -/
def twoCells (stride : Int) : ShapeInfo :=
  ⟨[2], [stride], 0, stride, 'c', rfl⟩

theorem countsElements_iff_twoCells : CountsElements Rat (twoCells 1) 3 :=
  (countsElements_iff Rat (twoCells 1) 3 (by decide)).mpr (Or.inr (by decide))

end Counts

/-- Elements that do not lie in the first cells are not counted. -/
theorem not_countsElements_always :
    ¬ ∀ (info : ShapeInfo) (numBins : Nat), 1 ≤ numBins → CountsElements Rat info numBins := by
  intro h
  exact absurd (perm_of_countsElements Nat.one_lt_two (h (twoCells 2) 2 one_le_two))
    (by decide)

end Histogram

end Loops
end LibND4J
