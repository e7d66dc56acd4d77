import LibND4J.Loops.SummaryStats

/-!
# Merged statistics

`SummaryStatsReduce::update` merges the statistics of two sets of values.  Besides the
size, the mean and the second moment it keeps the third and the fourth moment and the extremes,
and the order and the grouping of the merges are left to the threads of a reduction.

Main results:

- Theorem `describes_update`: merging gives the statistics of all values.
- Theorem `describes_merges`: merging two parts, and merging single values in any shape and
  order, gives the statistics of the data set.
-/

namespace LibND4J
namespace Loops

open Moments

section Describes

variable {T : Type} [Field T]

/-- The statistics of a data set; those of the empty one say nothing about the extremes. -/
structure Describes [LinearOrder T] (s : SummaryStatsData T) (data : Multiset T) : Prop where
  n_eq : s.n = data.card
  mean_eq : s.mean = data.sum / data.card
  M2_eq : s.M2 = (data.map fun v => (v - data.sum / data.card) ^ 2).sum
  M3_eq : s.M3 = (data.map fun v => (v - data.sum / data.card) ^ 3).sum
  M4_eq : s.M4 = (data.map fun v => (v - data.sum / data.card) ^ 4).sum
  min_mem : data ≠ 0 → s.min ∈ data
  min_le : ∀ v ∈ data, s.min ≤ v
  max_mem : data ≠ 0 → s.max ∈ data
  le_max : ∀ v ∈ data, v ≤ s.max

/-- Merges of the statistics of single values. -/
inductive MergeTree (T : Type)
  | value (val : T)
  | update (x y : MergeTree T)

/-- The values that a tree of merges starts from. -/
def MergeTree.data : MergeTree T → Multiset T
  | value val => {val}
  | update x y => x.data + y.data

/-- The statistics at the root. -/
def MergeTree.stats [LinearOrder T] [FloorRing T] : MergeTree T → SummaryStatsData T
  | value val => .initWithValue val
  | update x y => Loops.update x.stats y.stats

omit [Field T] in
theorem MergeTree.data_ne_zero (t : MergeTree T) : t.data ≠ 0 := by
  induction t with
  | value val => exact Multiset.singleton_ne_zero val
  | update x y ihx _ =>
      intro h
      exact ihx (add_eq_zero.mp h).1

section Lists

variable [LinearOrder T] {s : SummaryStatsData T} {vs : List T}

/-- The moments of a data set are those of its values in any order. -/
theorem describes_coe_iff : Describes s (vs : Multiset T) ↔
    Summarizes s vs ∧ s.M3 = thirdMoment vs ∧ s.M4 = fourthMoment vs ∧
      (vs ≠ [] → s.min ∈ vs ∧ s.max ∈ vs) ∧ ∀ v ∈ vs, s.min ≤ v ∧ v ≤ s.max := by
  constructor
  · rintro ⟨hn, hmean, hM2, hM3, hM4, hmin, hminle, hmax, hlemax⟩
    refine ⟨⟨hn, hmean, hM2⟩, hM3, hM4, fun hne => ?_, fun v hv => ⟨hminle v hv, hlemax v hv⟩⟩
    have hne : (vs : Multiset T) ≠ 0 := by simpa using hne
    exact ⟨hmin hne, hmax hne⟩
  · rintro ⟨⟨hn, hmean, hM2⟩, hM3, hM4, hmem, hbound⟩
    have hne : (vs : Multiset T) ≠ 0 → vs ≠ [] := by simp
    exact ⟨hn, hmean, hM2, hM3, hM4, fun h => (hmem (hne h)).1, fun v hv => (hbound v hv).1,
      fun h => (hmem (hne h)).2, fun v hv => (hbound v hv).2⟩

end Lists

section Merges

variable [LinearOrder T]

theorem describes_initWithValue (val : T) :
    Describes (SummaryStatsData.initWithValue val) {val} := by
  rw [← Multiset.coe_singleton, describes_coe_iff]
  refine ⟨summarizes_initWithValue val, ?_, ?_, fun _ => ?_, fun v hv => ?_⟩
  · simp [SummaryStatsData.initWithValue, thirdMoment, Moments.mean]
  · simp [SummaryStatsData.initWithValue, fourthMoment, Moments.mean]
  · exact ⟨List.mem_singleton_self val, List.mem_singleton_self val⟩
  · rw [List.mem_singleton.mp hv]
    exact ⟨le_rfl, le_rfl⟩

/-- The statistics after initialization are those of no values. -/
theorem describes_initialize (s : SummaryStatsData T) : Describes s.initialize 0 := by
  rw [← Multiset.coe_nil, describes_coe_iff]
  exact ⟨summarizes_initialized s, rfl, rfl, fun h => absurd rfl h, by simp⟩

variable [IsStrictOrderedRing T] [FloorRing T]

theorem toInt_zero : toInt (0 : T) = 0 := by
  have hzero := @toInt_natCast T _ _ _ _ 0
  rwa [Nat.cast_zero] at hzero

variable {x y : SummaryStatsData T}

/-- No values on the left change nothing. -/
theorem update_of_left {n : Nat} (hx : x.n = 0) (hy : y.n = n) (hn : 0 < n) : update x y = y := by
  unfold update
  rw [hx, hy, toInt_natCast, toInt_zero, if_pos ⟨rfl, by exact_mod_cast hn⟩]

theorem update_of_right {n : Nat} (hx : x.n = n) (hy : y.n = 0) (hn : 0 < n) : update x y = x := by
  unfold update
  have hne : (n : Int) ≠ 0 := by exact_mod_cast hn.ne'
  rw [hx, hy, toInt_natCast, toInt_zero, if_neg fun h => hne h.1,
    if_pos ⟨by exact_mod_cast hn, rfl⟩]

/-- Merging the statistics of two parts that are not empty. -/
theorem describes_update_of_ne_nil {xs ys : List T} (hx : Describes x (xs : Multiset T))
    (hy : Describes y (ys : Multiset T)) (hxs : xs ≠ []) (hys : ys ≠ []) :
    Describes (update x y) ((xs ++ ys : List T) : Multiset T) := by
  rw [describes_coe_iff] at hx hy ⊢
  obtain ⟨hsx, hM3x, hM4x, hmemx, hboundx⟩ := hx
  obtain ⟨hsy, hM3y, hM4y, hmemy, hboundy⟩ := hy
  have hxn : toInt x.n ≠ 0 := by
    rw [hsx.n_eq, toInt_natCast]
    exact_mod_cast (List.length_pos_of_ne_nil hxs).ne'
  have hyn : toInt y.n ≠ 0 := by
    rw [hsy.n_eq, toInt_natCast]
    exact_mod_cast (List.length_pos_of_ne_nil hys).ne'
  have hall := summarizes_update hsx hsy (by simp [hxs])
  refine ⟨hall, ?_, ?_, fun _ => ?_, fun v hv => ?_⟩
  · rw [thirdMoment_append hxs hys, update, if_neg fun h => hxn h.1, if_neg fun h => hyn h.2]
    simp only [hM3x, hM3y, hsx.n_eq, hsy.n_eq, hsx.mean_eq, hsy.mean_eq, hsx.M2_eq, hsy.M2_eq]
    ring
  · rw [fourthMoment_append hxs hys, update, if_neg fun h => hxn h.1, if_neg fun h => hyn h.2]
    simp only [hM3x, hM3y, hM4x, hM4y, hsx.n_eq, hsy.n_eq, hsx.mean_eq, hsy.mean_eq, hsx.M2_eq,
      hsy.M2_eq]
    ring
  · rw [update, if_neg fun h => hxn h.1, if_neg fun h => hyn h.2]
    simp only [List.mem_append]
    constructor
    · rcases min_choice x.min y.min with h | h
      · exact Or.inl (h.symm ▸ (hmemx hxs).1)
      · exact Or.inr (h.symm ▸ (hmemy hys).1)
    · rcases max_choice x.max y.max with h | h
      · exact Or.inl (h.symm ▸ (hmemx hxs).2)
      · exact Or.inr (h.symm ▸ (hmemy hys).2)
  · rw [update, if_neg fun h => hxn h.1, if_neg fun h => hyn h.2]
    rcases List.mem_append.mp hv with hv | hv
    · exact ⟨(min_le_left _ _).trans (hboundx v hv).1, (hboundx v hv).2.trans (le_max_left _ _)⟩
    · exact ⟨(min_le_right _ _).trans (hboundy v hv).1, (hboundy v hv).2.trans (le_max_right _ _)⟩

/-- Merging the statistics of two parts, not both empty, gives those of the whole. -/
theorem describes_update {xs ys : Multiset T} (hx : Describes x xs) (hy : Describes y ys)
    (hne : xs + ys ≠ 0) : Describes (update x y) (xs + ys) := by
  by_cases hxs : xs = 0
  · have hys : ys ≠ 0 := by simpa [hxs] using hne
    have hxn : x.n = 0 := by simpa [hxs] using hx.n_eq
    rw [update_of_left hxn hy.n_eq (Multiset.card_pos.mpr hys), hxs, zero_add]
    exact hy
  by_cases hys : ys = 0
  · have hyn : y.n = 0 := by simpa [hys] using hy.n_eq
    rw [update_of_right hx.n_eq hyn (Multiset.card_pos.mpr hxs), hys, add_zero]
    exact hx
  obtain ⟨xs, rfl⟩ := Quot.exists_rep xs
  obtain ⟨ys, rfl⟩ := Quot.exists_rep ys
  exact describes_update_of_ne_nil hx hy (fun h => hxs (congrArg _ h)) fun h =>
    hys (congrArg _ h)

/-- Merging two parts of a data set gives its statistics, and so does merging the statistics of
its values, in any shape and order. -/
theorem describes_merges (data : Multiset T) :
    (∀ (x y : SummaryStatsData T) (xs ys : Multiset T), xs + ys = data → data ≠ 0 →
      Describes x xs → Describes y ys → Describes (update x y) data) ∧
    ∀ t : MergeTree T, t.data = data → Describes t.stats data := by
  constructor
  · rintro x y xs ys rfl hne hx hy
    exact describes_update hx hy hne
  · rintro t rfl
    induction t with
    | value val => exact describes_initWithValue val
    | update x y ihx ihy => exact describes_update ihx ihy (MergeTree.update x y).data_ne_zero

end Merges

end Describes

theorem describes_merges_pair :
    Describes (MergeTree.update (.value (1 : ℚ)) (.value 2)).stats {1, 2} :=
  (describes_merges {1, 2}).2 (.update (.value 1) (.value 2)) rfl

end Loops
end LibND4J
