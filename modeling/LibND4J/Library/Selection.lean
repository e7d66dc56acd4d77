import LibND4J.Library.Strided

/-!
# Selections of positions

A predicate on positions splits a list into the entries at the positions it holds for
and the others.  The file relates the splitting of a list of axes to volumes, offsets
and coordinates: a coordinate of the whole box is the merge of a coordinate of each
part, and its offset is the sum of the two offsets.

Main results:

- Theorem `volume_pick`: the volumes of the two parts multiply to the whole.
- Theorem `dot_merge`: the offset of a merged coordinate.
- Theorem `bijOn_merge`: merging is a bijection of the two boxes with the whole.
- Theorem `filter_range_eq`: a strictly increasing list of positions is the list
  of the positions it contains.
-/

namespace Selection

open Strided

variable {α β : Type*}

/-- The entries at the positions where `p` holds, the first entry at position `i`. -/
def pick (p : Nat → Bool) : Nat → List α → List α
  | _, [] => []
  | i, x :: xs => if p i then x :: pick p (i + 1) xs else pick p (i + 1) xs

/-- Interleave `n` entries from position `i` on: those where `p` holds come from `vs`, the
others from `us`. -/
def merge (p : Nat → Bool) : Nat → Nat → List α → List α → List α
  | 0, _, _, _ => []
  | n + 1, i, us, vs =>
      if p i then
        match vs with
        | [] => []
        | v :: vs => v :: merge p n (i + 1) us vs
      else
        match us with
        | [] => []
        | u :: us => u :: merge p n (i + 1) us vs

section Pick

variable {p : Nat → Bool} {i : Nat}

theorem pick_cons_pos (h : p i = true) (x : α) (xs : List α) :
    pick p i (x :: xs) = x :: pick p (i + 1) xs := by
  rw [pick, if_pos h]

theorem pick_cons_neg (h : p i = false) (x : α) (xs : List α) :
    pick p i (x :: xs) = pick p (i + 1) xs := by
  rw [pick, if_neg (by simp [h])]

theorem pick_not_cons_pos (h : p i = true) (x : α) (xs : List α) :
    pick (fun j => !p j) i (x :: xs) = pick (fun j => !p j) (i + 1) xs :=
  pick_cons_neg (p := fun j => !p j) (by rw [h]; rfl) x xs

theorem pick_not_cons_neg (h : p i = false) (x : α) (xs : List α) :
    pick (fun j => !p j) i (x :: xs) = x :: pick (fun j => !p j) (i + 1) xs :=
  pick_cons_pos (p := fun j => !p j) (by rw [h]; rfl) x xs

theorem merge_succ_pos (h : p i = true) (n : Nat) (us vs : List α) (v : α) :
    merge p (n + 1) i us (v :: vs) = v :: merge p n (i + 1) us vs := by
  simp [merge, h]

theorem merge_succ_neg (h : p i = false) (n : Nat) (us vs : List α) (u : α) :
    merge p (n + 1) i (u :: us) vs = u :: merge p n (i + 1) us vs := by
  simp [merge, h]

theorem pick_map (f : α → β) (xs : List α) : pick p i (xs.map f) = (pick p i xs).map f := by
  induction xs generalizing i with
  | nil => rfl
  | cons x xs ih =>
      cases h : p i with
      | true => rw [List.map_cons, pick_cons_pos h, pick_cons_pos h, ih, List.map_cons]
      | false => rw [List.map_cons, pick_cons_neg h, pick_cons_neg h, ih]

variable (xs : List α)

theorem pick_subset : pick p i xs ⊆ xs := by
  induction xs generalizing i with
  | nil => exact List.Subset.refl _
  | cons x xs ih =>
      cases h : p i with
      | true =>
          rw [pick_cons_pos h]
          exact List.cons_subset_cons x ih
      | false =>
          rw [pick_cons_neg h]
          exact List.subset_cons_of_subset x ih

/-- The picked entries and the others are all of them. -/
theorem pick_sublist : (pick p i xs).Sublist xs := by
  induction xs generalizing i with
  | nil => exact List.Sublist.refl []
  | cons x xs ih =>
      cases h : p i with
      | true =>
          rw [pick_cons_pos h]
          exact ih.cons_cons x
      | false =>
          rw [pick_cons_neg h]
          exact ih.cons x

/-- Picking as many entries as there are picks them all. -/
theorem pick_eq_self {xs : List α} (h : (pick p i xs).length = xs.length) : pick p i xs = xs :=
  (pick_sublist xs).eq_of_length h

theorem length_pick_add :
    (pick p i xs).length + (pick (fun j => !p j) i xs).length = xs.length := by
  induction xs generalizing i with
  | nil => rfl
  | cons x xs ih =>
      have hrest := @ih (i + 1)
      cases h : p i with
      | true =>
          rw [pick_cons_pos h, pick_not_cons_pos h, List.length_cons,
            List.length_cons]
          omega
      | false =>
          rw [pick_cons_neg h, pick_not_cons_neg h, List.length_cons,
            List.length_cons]
          omega

theorem pick_of_forall (h : ∀ j, i ≤ j → p j = true) (xs : List α) : pick p i xs = xs := by
  induction xs generalizing i with
  | nil => rfl
  | cons x xs ih =>
      rw [pick_cons_pos (h i (Nat.le_refl i)), ih fun j hj => h j (Nat.le_of_succ_le hj)]

/-- All entries but one. -/
theorem pick_eq_eraseIdx {d : Nat} (h : ∀ j, i ≤ j → (p j = false ↔ j = i + d)) (xs : List α) :
    pick p i xs = xs.eraseIdx d := by
  induction d generalizing i xs with
  | zero =>
      cases xs with
      | nil => rfl
      | cons x xs =>
          have hrest : ∀ j, i + 1 ≤ j → p j = true := by
            intro j hj
            rw [← Bool.not_eq_false, h j (Nat.le_of_succ_le hj)]
            omega
          rw [pick_cons_neg ((h i (Nat.le_refl i)).mpr rfl), pick_of_forall hrest,
            List.eraseIdx_zero, List.tail_cons]
  | succ d ih =>
      cases xs with
      | nil => rfl
      | cons x xs =>
          have hfirst : p i = true := by
            rw [← Bool.not_eq_false, h i (Nat.le_refl i)]
            omega
          have hrest : ∀ j, i + 1 ≤ j → (p j = false ↔ j = i + 1 + d) := by
            intro j hj
            rw [h j (Nat.le_of_succ_le hj)]
            omega
          rw [pick_cons_pos hfirst, ih hrest, List.eraseIdx_cons_succ]

/-- Filtering the positions picks the entries. -/
theorem map_filter_zipIdx : ((xs.zipIdx i).filter fun q => p q.2).map Prod.fst = pick p i xs := by
  induction xs generalizing i with
  | nil => rfl
  | cons x xs ih =>
      rw [List.zipIdx_cons]
      cases h : p i with
      | true =>
          rw [List.filter_cons_of_pos (by simpa using h), List.map_cons, ih, pick_cons_pos h]
      | false => rw [List.filter_cons_of_neg (by simp [h]), ih, pick_cons_neg h]

/-- Reading the picked positions one by one. -/
theorem map_getD_filter_range' (xs pre : List α) (d : α) (hi : pre.length = i) :
    ((List.range' i xs.length).filter p).map ((pre ++ xs).getD · d) = pick p i xs := by
  induction xs generalizing i pre with
  | nil => rfl
  | cons x xs ih =>
      have hrest := ih (pre ++ [x]) (show (pre ++ [x]).length = i + 1 by simp [hi])
      rw [List.append_assoc, List.singleton_append] at hrest
      rw [List.length_cons, List.range'_succ]
      cases h : p i with
      | true =>
          have hget : (pre ++ x :: xs).getD i d = x := by simp [← hi]
          rw [List.filter_cons_of_pos h, List.map_cons, hrest, hget, pick_cons_pos h]
      | false => rw [List.filter_cons_of_neg (by simp [h]), hrest, pick_cons_neg h]

theorem map_getD_filter_range (d : α) :
    ((List.range xs.length).filter p).map (xs.getD · d) = pick p 0 xs := by
  rw [List.range_eq_range']
  exact map_getD_filter_range' xs [] d rfl

end Pick

/-- Storing values at the positions where `p` fails merges them into the initial list. -/
theorem foldl_set_eq_merge {p : Nat → Bool} {n i : Nat} {pre us : List α} (z : α)
    (hi : pre.length = i) (hus : us.length = ((List.range' i n).filter fun j => !p j).length) :
    (((List.range' i n).filter fun j => !p j).zip us).foldl (fun r q => r.set q.1 q.2)
        (pre ++ List.replicate n z) =
      pre ++ merge p n i us (List.replicate ((List.range' i n).filter p).length z) := by
  induction n generalizing i pre us with
  | zero => simp [merge]
  | succ n ih =>
      rw [List.range'_succ] at hus ⊢
      cases h : p i with
      | true =>
          rw [List.filter_cons_of_neg (by simp [h])] at hus ⊢
          rw [List.filter_cons_of_pos h, List.length_cons, List.replicate_succ,
            List.replicate_succ, merge_succ_pos h]
          have hpre : (pre ++ [z]).length = i + 1 := by simp [hi]
          have hrest := ih hpre hus
          simp only [List.append_assoc, List.singleton_append] at hrest
          exact hrest
      | false =>
          rw [List.filter_cons_of_pos (by simp [h])] at hus ⊢
          rw [List.filter_cons_of_neg (by simp [h]), List.replicate_succ]
          cases us with
          | nil => simp at hus
          | cons u us =>
              have hset : (pre ++ z :: List.replicate n z).set i u =
                  (pre ++ [u]) ++ List.replicate n z := by simp [← hi]
              rw [List.zip_cons_cons, List.foldl_cons, hset, merge_succ_neg h,
                ih (by simp [hi]) (Nat.succ.inj hus), List.append_assoc, List.singleton_append]

/-- A strictly increasing list of positions is the list of the positions it contains. -/
theorem filter_range_eq {ps : List Nat} (hsorted : ps.Pairwise (· < ·)) {n : Nat}
    (hlt : ∀ i ∈ ps, i < n) : (List.range n).filter (fun i => decide (i ∈ ps)) = ps := by
  have hnodup : ps.Nodup := hsorted.imp fun h => Nat.ne_of_lt h
  have hperm : ((List.range n).filter fun i => decide (i ∈ ps)).Perm ps := by
    rw [List.perm_ext_iff_of_nodup (List.nodup_range.filter _) hnodup]
    intro i
    simp only [List.mem_filter, List.mem_range, decide_eq_true_eq]
    exact ⟨fun h => h.2, fun h => ⟨hlt i h, h⟩⟩
  have hrange : ((List.range n).filter fun i => decide (i ∈ ps)).Pairwise (· < ·) :=
    List.pairwise_lt_range.filter _
  exact hperm.eq_of_pairwise (fun a b _ _ hab hba => absurd hab (Nat.lt_asymm hba)) hrange hsorted

/-! ## Boxes -/

section Boxes

variable {G : Type*} {p : Nat → Bool} {i : Nat}

theorem dims_pick (axes : List (Nat × G)) : dims (pick p i axes) = pick p i (dims axes) :=
  (pick_map Prod.fst axes).symm

/-- The extents picked and the extents left multiply to the whole. -/
theorem prod_pick (ds : List Nat) :
    (pick p i ds).prod * (pick (fun j => !p j) i ds).prod = ds.prod := by
  induction ds generalizing i with
  | nil => rfl
  | cons d ds ih =>
      cases h : p i with
      | true =>
          rw [pick_cons_pos h, pick_not_cons_pos h, List.prod_cons,
            List.prod_cons, mul_assoc, ih]
      | false =>
          rw [pick_cons_neg h, pick_not_cons_neg h, List.prod_cons,
            List.prod_cons, mul_left_comm, ih]

theorem volume_pick (axes : List (Nat × G)) :
    volume (pick p i axes) * volume (pick (fun j => !p j) i axes) = volume axes := by
  rw [volume, volume, dims_pick, dims_pick, prod_pick, volume]

/-- Picked axes of extent one do not move. -/
theorem squeeze_pick_not {axes : List (Nat × G)} (h : volume (pick p i axes) = 1) :
    squeeze (pick (fun j => !p j) i axes) = squeeze axes := by
  induction axes generalizing i with
  | nil => rfl
  | cons a axes ih =>
      cases hp : p i with
      | true =>
          rw [pick_cons_pos hp, volume_cons] at h
          obtain ⟨hone, hrest⟩ := mul_eq_one.mp h
          have hdrop : squeeze (a :: axes) = squeeze axes := by simp [squeeze, hone]
          rw [pick_not_cons_pos hp, ih hrest, hdrop]
      | false =>
          rw [pick_cons_neg hp] at h
          have hrest := ih h
          simp only [squeeze] at hrest
          rw [pick_not_cons_neg hp, squeeze, squeeze, List.filter_cons, List.filter_cons, hrest]

/-- Axes of extent one that are left over do not move. -/
theorem squeeze_pick {axes : List (Nat × G)} (h : volume (pick (fun j => !p j) i axes) = 1) :
    squeeze (pick p i axes) = squeeze axes := by
  have hnot := squeeze_pick_not (p := fun j => !p j) h
  simpa only [Bool.not_not] using hnot

/-- Merging coordinates of the two parts gives a coordinate of the whole box, whose parts
are these coordinates. -/
theorem merge_spec {ds us vs : List Nat} (hu : InBox (pick (fun j => !p j) i ds) us)
    (hv : InBox (pick p i ds) vs) :
    InBox ds (merge p ds.length i us vs) ∧
      pick (fun j => !p j) i (merge p ds.length i us vs) = us ∧
      pick p i (merge p ds.length i us vs) = vs := by
  induction ds generalizing i us vs with
  | nil =>
      cases hu
      cases hv
      exact ⟨List.Forall₂.nil, rfl, rfl⟩
  | cons d ds ih =>
      cases h : p i with
      | true =>
          rw [pick_not_cons_pos h] at hu
          rw [pick_cons_pos h] at hv
          rcases hv with _ | ⟨hlt, hv⟩
          rename_i v vs
          obtain ⟨hbox, hus, hvs⟩ := ih hu hv
          rw [List.length_cons, merge_succ_pos h]
          refine ⟨List.Forall₂.cons hlt hbox, ?_, ?_⟩
          · rw [pick_not_cons_pos h, hus]
          · rw [pick_cons_pos h, hvs]
      | false =>
          rw [pick_not_cons_neg h] at hu
          rw [pick_cons_neg h] at hv
          rcases hu with _ | ⟨hlt, hu⟩
          rename_i u us
          obtain ⟨hbox, hus, hvs⟩ := ih hu hv
          rw [List.length_cons, merge_succ_neg h]
          refine ⟨List.Forall₂.cons hlt hbox, ?_, ?_⟩
          · rw [pick_not_cons_neg h, hus]
          · rw [pick_cons_neg h, hvs]

/-- A coordinate of the whole box is the merge of its parts. -/
theorem merge_pick {ds cs : List Nat} (h : InBox ds cs) :
    merge p ds.length i (pick (fun j => !p j) i cs) (pick p i cs) = cs ∧
      InBox (pick (fun j => !p j) i ds) (pick (fun j => !p j) i cs) ∧
      InBox (pick p i ds) (pick p i cs) := by
  induction h generalizing i with
  | nil => exact ⟨rfl, List.Forall₂.nil, List.Forall₂.nil⟩
  | @cons d c ds cs hlt _ ih =>
      obtain ⟨hmerge, hleft, hpicked⟩ := @ih (i + 1)
      cases h : p i with
      | true =>
          rw [pick_cons_pos h, pick_cons_pos h, pick_not_cons_pos h,
            pick_not_cons_pos h]
          rw [List.length_cons, merge_succ_pos h, hmerge]
          exact ⟨rfl, hleft, List.Forall₂.cons hlt hpicked⟩
      | false =>
          rw [pick_cons_neg h, pick_cons_neg h, pick_not_cons_neg h,
            pick_not_cons_neg h]
          rw [List.length_cons, merge_succ_neg h, hmerge]
          exact ⟨rfl, List.Forall₂.cons hlt hleft, hpicked⟩

/-- Merging is a bijection between pairs of coordinates of the parts and coordinates of
the whole box. -/
theorem bijOn_merge (p : Nat → Bool) (i : Nat) (ds : List Nat) :
    Set.BijOn (fun q : List Nat × List Nat => merge p ds.length i q.1 q.2)
      {q | InBox (pick (fun j => !p j) i ds) q.1 ∧ InBox (pick p i ds) q.2} {c | InBox ds c} := by
  refine ⟨fun q hq => (merge_spec hq.1 hq.2).1, fun q hq q' hq' heq => ?_, fun c hc => ?_⟩
  · obtain ⟨-, hu, hv⟩ := merge_spec hq.1 hq.2
    obtain ⟨-, hu', hv'⟩ := merge_spec hq'.1 hq'.2
    simp only at heq
    refine Prod.ext ?_ ?_
    · rw [← hu, heq, hu']
    · rw [← hv, heq, hv']
  · obtain ⟨hmerge, hleft, hpicked⟩ := merge_pick (p := p) (i := i) hc
    exact ⟨(_, _), ⟨hleft, hpicked⟩, hmerge⟩

variable [AddCommGroup G]

/-- The offset of a merged coordinate is the sum of the offsets of its parts. -/
theorem dot_merge {ds us vs : List Nat} (hu : InBox (pick (fun j => !p j) i ds) us)
    (hv : InBox (pick p i ds) vs) {ss : List G} (hlength : ss.length = ds.length) :
    dot (merge p ds.length i us vs) ss =
      dot us (pick (fun j => !p j) i ss) + dot vs (pick p i ss) := by
  induction ds generalizing i us vs ss with
  | nil =>
      cases hu
      cases hv
      rw [List.length_nil, merge, dot_nil_left, dot_nil_left, dot_nil_left, add_zero]
  | cons d ds ih =>
      obtain ⟨s, ss, rfl⟩ : ∃ s ss', ss = s :: ss' :=
        List.exists_cons_of_ne_nil (by rintro rfl; simp at hlength)
      have htail : ss.length = ds.length := by simpa using hlength
      cases h : p i with
      | true =>
          rw [pick_not_cons_pos h] at hu ⊢
          rw [pick_cons_pos h] at hv ⊢
          rcases hv with _ | ⟨hlt, hv⟩
          rw [List.length_cons, merge_succ_pos h]
          rw [dot_cons, dot_cons, ih hu hv htail, add_left_comm]
      | false =>
          rw [pick_not_cons_neg h] at hu ⊢
          rw [pick_cons_neg h] at hv ⊢
          rcases hu with _ | ⟨hlt, hu⟩
          rw [List.length_cons, merge_succ_neg h]
          rw [dot_cons, dot_cons, ih hu hv htail, add_assoc]

end Boxes
end Selection
