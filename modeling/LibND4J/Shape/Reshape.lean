import LibND4J.Shape.ShapeInfo

/-!
# Reshaping without a copy

`reshapeCF` looks for strides that let a new shape view an old array in C or F
order.  It drops the old axes of extent one, walks over both shapes with two pointers
that cut them into groups of equal product, requires the old axes of a group to be
contiguous, and spreads the strides of the group over its new axes.  The model reads
every array through checked indexing, so running out of an array is a result of its
own.

Main results:

- Theorem `extendGroup_spec`: the inner loop stays inside both arrays and stops
  at the first common place value.
- Theorem `reshapeLoop_spec`: the outer loop returns strides that view the old
  array, or there are none.
- Theorem `reshapeCF_correct`: the verdict is exact, the strides written are
  correct, and `canReshape` agrees.
-/

namespace LibND4J
namespace Shape

open Strided

/-- Outcome of a function that returns a verdict and indexes arrays on the way. -/
inductive Verdict (α : Type)
  | outOfBounds
  | no
  | yes (result : α)
deriving DecidableEq

/-! ## The loops -/

/-- Inner loop: multiply the smaller product by the next extent until both agree. -/
def extendGroup (newShape olddims : List Nat) (np op nj oj : Nat) : Option (Nat × Nat) :=
  if np = op then
    some (nj, oj)
  else if np < op then
    match _h : newShape[nj]? with
    | none => none
    | some d => extendGroup newShape olddims (np * d) op (nj + 1) oj
  else
    match _h : olddims[oj]? with
    | none => none
    | some d => extendGroup newShape olddims np (op * d) nj (oj + 1)
termination_by (newShape.length - nj) + (olddims.length - oj)
decreasing_by
  all_goals
    have := (List.getElem?_eq_some_iff.mp _h).1
    omega

/-- Two neighbouring old axes are contiguous in the order of the reshape. -/
def Contiguous (isFOrder : Bool) (a b : Nat × Int) : Prop :=
  if isFOrder then b.2 = a.1 * a.2 else a.2 = b.1 * b.2

instance (isFOrder : Bool) (a b : Nat × Int) : Decidable (Contiguous isFOrder a b) :=
  inferInstanceAs (Decidable (if isFOrder then _ else _))

/-- Whether the old axes from `ok` up to `oj` can be combined. -/
def combinable (isFOrder : Bool) (old : List (Nat × Int)) (oj ok : Nat) : Option Bool :=
  if ok + 1 < oj then
    match old[ok]?, old[ok + 1]? with
    | some a, some b =>
        if Contiguous isFOrder a b then combinable isFOrder old oj (ok + 1) else some false
    | _, _ => none
  else
    some true
termination_by oj - ok

/-- Strides that grow from `s` by the extents passed. -/
def runningStrides : List Nat → Int → List Int
  | [], _ => []
  | d :: ds, s => s :: runningStrides ds (s * d)

/-- Strides of the new axes of a group: from the first axis on in F order, from the last
axis back in C order. -/
def groupStrides (isFOrder : Bool) (dims : List Nat) (s : Int) : List Int :=
  if isFOrder then runningStrides dims s else (runningStrides dims.reverse s).reverse

variable {newShape olddims new ds : List Nat} {np op nj oj i j n ni oi : Nat} {α : Type}
    {isFOrder : Bool} {xs ys old : List (Nat × Int)}

theorem extendGroup_of_lt {d : Nat} (hlt : np < op) (hd : newShape[nj]? = some d) :
    extendGroup newShape olddims np op nj oj =
      extendGroup newShape olddims (np * d) op (nj + 1) oj := by
  rw [extendGroup, if_neg hlt.ne, if_pos hlt]
  split
  · simp_all
  · simp_all

theorem extendGroup_of_gt {d : Nat} (hgt : op < np) (hd : olddims[oj]? = some d) :
    extendGroup newShape olddims np op nj oj =
      extendGroup newShape olddims np (op * d) nj (oj + 1) := by
  rw [extendGroup, if_neg hgt.ne', if_neg hgt.not_gt]
  split
  · simp_all
  · simp_all

theorem extendGroup_le {nj' oj' : Nat}
    (h : extendGroup newShape olddims np op nj oj = some (nj', oj')) : nj ≤ nj' := by
  fun_induction extendGroup newShape olddims np op nj oj with
  | case1 => simp_all
  | case2 => simp at h
  | case3 _ _ _ _ _ _ _ _ ih => exact (Nat.le_succ _).trans (ih h)
  | case4 => simp at h
  | case5 _ _ _ _ _ _ _ _ ih => exact ih h

/-- Outer loop over the groups of axes; it returns the number of new axes that have got
a stride, with these strides. -/
def reshapeLoop (isFOrder : Bool) (newShape : List Nat) (old : List (Nat × Int)) (ni oi : Nat)
    (newStrides : List Int) : Verdict (Nat × List Int) :=
  if h : ni < newShape.length ∧ oi < old.length then
    match _h : extendGroup newShape (dims old) newShape[ni] old[oi].1 (ni + 1) (oi + 1) with
    | none => .outOfBounds
    | some (nj, oj) =>
        match combinable isFOrder old oj oi, old[if isFOrder then oi else oj - 1]? with
        | some true, some (_, s) =>
            let group := groupStrides isFOrder ((newShape.drop ni).take (nj - ni)) s
            reshapeLoop isFOrder newShape old nj oj (newStrides ++ group)
        | some false, some _ => .no
        | _, _ => .outOfBounds
  else
    .yes (ni, newStrides)
termination_by newShape.length - ni
decreasing_by
  have := extendGroup_le _h
  omega

/-- The shared start of both functions: drop the old axes of extent one, compare the
sizes, and run the loops. -/
def reshapeGroups (oldShape : ShapeInfo) (newShapeOf : List Nat) (isFOrder : Bool) :
    Verdict (Nat × List Int) :=
  let old := squeeze oldShape.axes
  if newShapeOf.prod ≠ volume old then
    .no
  else if newShapeOf.prod = 0 then
    .no
  else
    reshapeLoop isFOrder newShapeOf old 0 0 []

/-- `reshapeCF`; `yes` carries the shape information written to `target`. -/
def reshapeCF (oldShape : ShapeInfo) (newShapeOf : List Nat) (isFOrder : Bool) :
    Verdict ShapeInfo :=
  match reshapeGroups oldShape newShapeOf isFOrder with
  | .outOfBounds => .outOfBounds
  | .no => .no
  | .yes (ni, newStrides) =>
      let lastStride :=
        if ni ≥ 1 then newStrides.getD (ni - 1) 0 else oldShape.elementWiseStride
      let lastStride :=
        if isFOrder ∧ ni ≥ 1 then lastStride * newShapeOf.getD (ni - 1) 0 else lastStride
      .yes
        { shape := newShapeOf
          stride := newStrides.takeD newShapeOf.length lastStride
          offset := 0
          elementWiseStride := -1
          order := if isFOrder then 'f' else 'c'
          stride_length := by simp }

def canReshape (oldShape : ShapeInfo) (newShapeOf : List Nat) (isFOrder : Bool) : Verdict Unit :=
  match reshapeGroups oldShape newShapeOf isFOrder with
  | .outOfBounds => .outOfBounds
  | .no => .no
  | .yes _ => .yes ()

/-! ## Walks in the order of the reshape -/

/-- The axes from the slowest to the fastest one in C or F order. -/
def orient {α : Type} (isFOrder : Bool) (xs : List α) : List α :=
  if isFOrder then xs.reverse else xs

/-- Both lists of axes put every element, in the given order, at the same offset. -/
def SameElements (isFOrder : Bool) (xs ys : List (Nat × Int)) : Prop :=
  volume xs = volume ys ∧
    ∀ k < volume xs, elementOffset isFOrder xs k = elementOffset isFOrder ys k

@[simp]
theorem volume_orient (isFOrder : Bool) (xs : List (Nat × Int)) :
    volume (orient isFOrder xs) = volume xs := by
  cases isFOrder <;> simp [orient]

theorem mem_orient {xs : List α} {a : α} : a ∈ orient isFOrder xs ↔ a ∈ xs := by
  cases isFOrder <;> simp [orient]

/-- Enumerating in an order is walking over the oriented axes. -/
theorem elementOffset_eq (isFOrder : Bool) (xs : List (Nat × Int)) {k : Nat} (hk : k < volume xs) :
    elementOffset isFOrder xs k = offsetAt (orient isFOrder xs) k := by
  cases isFOrder with
  | false => exact (offsetAt_eq_dot xs k).symm
  | true => exact (offsetAtF_eq_dot xs hk).symm

theorem sameElements_iff :
    SameElements isFOrder xs ys ↔ SameWalk (orient isFOrder xs) (orient isFOrder ys) := by
  constructor
  · rintro ⟨hvol, hoff⟩
    refine ⟨by simpa using hvol, fun k hk => ?_⟩
    rw [volume_orient] at hk
    rw [← elementOffset_eq _ _ hk, ← elementOffset_eq _ _ (hvol ▸ hk), hoff k hk]
  · rintro ⟨hvol, hoff⟩
    rw [volume_orient, volume_orient] at hvol
    refine ⟨hvol, fun k hk => ?_⟩
    rw [elementOffset_eq _ _ hk, elementOffset_eq _ _ (hvol ▸ hk), hoff k (by simpa using hk)]

/-- Enumerations compose along concatenation in both orders. -/
theorem SameElements.append {xs₁ xs₂ ys₁ ys₂ : List (Nat × Int)}
    (h₁ : SameElements isFOrder xs₁ ys₁) (h₂ : SameElements isFOrder xs₂ ys₂) :
    SameElements isFOrder (xs₁ ++ xs₂) (ys₁ ++ ys₂) := by
  rw [sameElements_iff] at h₁ h₂ ⊢
  cases isFOrder with
  | false => exact h₁.append h₂
  | true =>
      simp only [orient, if_true, List.reverse_append] at h₁ h₂ ⊢
      exact h₂.append h₁

/-- A block between equal place values of a common enumeration is common. -/
theorem SameElements.middle {xs₁ xs₂ xs₃ ys₁ ys₂ ys₃ : List (Nat × Int)}
    (h : SameElements isFOrder (xs₁ ++ (xs₂ ++ xs₃)) (ys₁ ++ (ys₂ ++ ys₃)))
    (hpos : 0 < volume (xs₁ ++ (xs₂ ++ xs₃))) (h₁ : volume xs₁ = volume ys₁)
    (h₂ : volume xs₂ = volume ys₂) : SameElements isFOrder xs₂ ys₂ := by
  have hvol := h.1
  simp only [volume_append] at hvol hpos
  have h₃ : volume xs₃ = volume ys₃ := by
    rw [← h₁, ← h₂] at hvol
    have h₁pos := Nat.pos_of_mul_pos_right hpos
    have h₂pos := Nat.pos_of_mul_pos_right (Nat.pos_of_mul_pos_left hpos)
    exact Nat.eq_of_mul_eq_mul_left h₂pos (Nat.eq_of_mul_eq_mul_left h₁pos hvol)
  rw [sameElements_iff] at h ⊢
  cases isFOrder with
  | false =>
      refine SameWalk.middle h ?_ h₂ h₃
      simpa using hpos
  | true =>
      simp only [orient, if_true, List.reverse_append, List.append_assoc] at h ⊢
      refine SameWalk.middle h ?_ (by simpa using h₂) (by simpa using h₁)
      simpa [mul_comm, mul_assoc, mul_left_comm] using hpos

/-- Axes of extent one do not show in an enumeration. -/
theorem sameElements_squeeze (isFOrder : Bool) (xs : List (Nat × Int)) :
    SameElements isFOrder (squeeze xs) xs := by
  rw [sameElements_iff]
  have horient : orient isFOrder (squeeze xs) = squeeze (orient isFOrder xs) := by
    cases isFOrder <;> simp [orient, squeeze, List.filter_reverse]
  rw [horient]
  exact sameWalk_squeeze _

theorem SameElements.trans {zs : List (Nat × Int)} (h : SameElements isFOrder xs ys)
    (h' : SameElements isFOrder ys zs) : SameElements isFOrder xs zs := by
  rw [sameElements_iff] at h h' ⊢
  exact h.trans h'

theorem SameElements.symm (h : SameElements isFOrder xs ys) : SameElements isFOrder ys xs := by
  rw [sameElements_iff] at h ⊢
  exact h.symm

/-! ## One group -/

/-- The axes of a group, cut out of a list of axes. -/
def slice {α : Type} (xs : List α) (i j : Nat) : List α :=
  (xs.drop i).take (j - i)

theorem take_append_slice (xs : List α) (hij : i ≤ j) : xs.take i ++ slice xs i j = xs.take j := by
  obtain ⟨n, rfl⟩ := Nat.exists_eq_add_of_le hij
  rw [slice, Nat.add_sub_cancel_left, List.take_add]

theorem slice_append_drop (xs : List α) (hij : i ≤ j) : slice xs i j ++ xs.drop j = xs.drop i := by
  obtain ⟨n, rfl⟩ := Nat.exists_eq_add_of_le hij
  rw [slice, Nat.add_sub_cancel_left, ← List.drop_drop, List.take_append_drop]

theorem slice_eq_cons {xs : List α} {a : α} (ha : xs[i]? = some a) (hij : i < j) :
    slice xs i j = a :: slice xs (i + 1) j := by
  obtain ⟨hi, rfl⟩ := List.getElem?_eq_some_iff.mp ha
  obtain ⟨n, rfl⟩ : ∃ n, j = i + 1 + n := ⟨j - (i + 1), by omega⟩
  rw [slice, slice, List.drop_eq_getElem_cons hi, show i + 1 + n - i = n + 1 by omega,
    Nat.add_sub_cancel_left, List.take_succ_cons]

theorem slice_of_le (xs : List α) (hij : j ≤ i) : slice xs i j = [] := by
  rw [slice, Nat.sub_eq_zero_of_le hij, List.take_zero]

theorem length_slice {xs : List α} (hj : j ≤ xs.length) : (slice xs i j).length = j - i := by
  rw [slice, List.length_take, List.length_drop]
  omega

/-- The check of a group reads only its own axes and tells whether neighbours are
contiguous. -/
theorem combinable_eq (isFOrder : Bool) {ok : Nat} (hle : oj ≤ old.length) :
    combinable isFOrder old oj ok =
      some (decide ((slice old ok oj).IsChain (Contiguous isFOrder))) := by
  fun_induction combinable isFOrder old oj ok with
  | case1 ok hlt a b hb ha hcontig ih =>
      have hcut := slice_eq_cons ha (show ok < oj by omega)
      have hnext := slice_eq_cons hb hlt
      simp [ih, hcut, hnext, hcontig]
  | case2 ok hlt a b hb ha hcontig =>
      have hcut := slice_eq_cons ha (show ok < oj by omega)
      have hnext := slice_eq_cons hb hlt
      simp [hcut, hnext, hcontig]
  | case3 ok hlt hnone =>
      have hok : ok + 1 < old.length := by omega
      exact absurd (List.getElem?_eq_getElem hok)
        (hnone _ _ (List.getElem?_eq_getElem (show ok < old.length by omega)))
  | case4 ok hlt =>
      rcases Nat.lt_or_ge ok oj with hok | hok
      · have hget := List.getElem?_eq_getElem (show ok < old.length by omega)
        simp [slice_eq_cons hget hok, slice_of_le old (show oj ≤ ok + 1 by omega)]
      · simp [slice_of_le old hok]

/-- A chain of contiguous axes is packed when oriented. -/
theorem packed_orient_iff : Packed (orient isFOrder xs) ↔ xs.IsChain (Contiguous isFOrder) := by
  cases isFOrder with
  | false =>
      have hrel : Contiguous false = fun a b => a.2 = b.1 • b.2 := by
        funext a b
        simp [Contiguous]
      rw [hrel]
      rfl
  | true =>
      have hrel : Contiguous true = fun a b => b.2 = a.1 • a.2 := by
        funext a b
        simp [Contiguous]
      rw [hrel]
      exact List.isChain_reverse

@[simp]
theorem length_runningStrides (dims : List Nat) (s : Int) :
    (runningStrides dims s).length = dims.length := by
  induction dims generalizing s with
  | nil => rfl
  | cons d ds ih => simp [runningStrides, ih]

@[simp]
theorem length_groupStrides (isFOrder : Bool) (dims : List Nat) (s : Int) :
    (groupStrides isFOrder dims s).length = dims.length := by
  cases isFOrder <;> simp [groupStrides]

/-- Running strides are contiguous in F order. -/
theorem isChain_runningStrides (dims : List Nat) (s : Int) :
    (dims.zip (runningStrides dims s)).IsChain (Contiguous true) := by
  induction dims generalizing s with
  | nil => exact List.isChain_nil
  | cons d ds ih =>
      cases ds with
      | nil => exact List.isChain_singleton _
      | cons d' ds =>
          have htail := ih (s * d)
          simp only [runningStrides, List.zip_cons_cons] at htail ⊢
          refine List.isChain_cons_cons.mpr ⟨?_, htail⟩
          simp [Contiguous, mul_comm]

/-- The oriented new axes of a group are running strides read backwards. -/
theorem orient_zip_groupStrides (isFOrder : Bool) (dims : List Nat) (s : Int) :
    ∃ fast : List Nat, fast.Perm dims ∧
      orient isFOrder (dims.zip (groupStrides isFOrder dims s)) =
        (fast.zip (runningStrides fast s)).reverse := by
  cases isFOrder with
  | true => exact ⟨dims, List.Perm.refl _, rfl⟩
  | false =>
      refine ⟨dims.reverse, List.reverse_perm dims, ?_⟩
      have hlength : dims.reverse.length = (runningStrides dims.reverse s).length := by simp
      have hzip := List.reverse_zipWith (f := Prod.mk) hlength
      rw [List.reverse_reverse] at hzip
      exact hzip.symm

/-- New strides spread over a group of the same size view the old group. -/
theorem sameElements_group {isFOrder : Bool} {old : List (Nat × Int)} {new : List Nat}
    {a : Nat × Int} {outer : List (Nat × Int)} (hold : orient isFOrder old = outer ++ [a])
    (hchain : old.IsChain (Contiguous isFOrder)) (hnew : new ≠ []) (hprod : new.prod = volume old) :
    SameElements isFOrder (new.zip (groupStrides isFOrder new a.2)) old := by
  obtain ⟨fast, hperm, horient⟩ := orient_zip_groupStrides isFOrder new a.2
  have hvol : volume (new.zip (groupStrides isFOrder new a.2)) = volume old := by
    rw [← hprod, volume, dims, List.map_fst_zip (by simp)]
  have hlinear : Linear (orient isFOrder (new.zip (groupStrides isFOrder new a.2))) a.2 := by
    cases fast with
    | nil => exact absurd (List.Perm.nil_eq hperm).symm hnew
    | cons d ds =>
        have hpacked : Packed ((d :: ds).zip (runningStrides (d :: ds) a.2)).reverse := by
          simpa [orient] using packed_orient_iff.mpr (isChain_runningStrides (d :: ds) a.2)
        rw [horient]
        rw [runningStrides, List.zip_cons_cons, List.reverse_cons] at hpacked ⊢
        exact linear_of_packed hpacked
  rw [sameElements_iff]
  refine SameWalk.of_linear (by simpa using hvol) hlinear ?_
  have hpacked := packed_orient_iff.mpr hchain
  rw [hold] at hpacked ⊢
  exact linear_of_packed hpacked

/-- Prefix products up to two cuts that stay apart: each inner place value of one list is
below the product of the other, and no two inner ones agree. -/
structure Apart (ns os : List Nat) (b a : Nat) : Prop where
  old_lt : ∀ i, 1 ≤ i → i < a → (os.take i).prod < (ns.take b).prod
  new_lt : ∀ j, 1 ≤ j → j < b → (ns.take j).prod < (os.take a).prod
  ne : ∀ i j, 1 ≤ i → i < a → 1 ≤ j → j < b → (os.take i).prod ≠ (ns.take j).prod

theorem apart_one (ns os : List Nat) : Apart ns os 1 1 :=
  ⟨fun _ h h' => by omega, fun _ h h' => by omega, fun _ _ h h' => by omega⟩

theorem Apart.symm {ns os : List Nat} {b a : Nat} (h : Apart ns os b a) : Apart os ns a b :=
  ⟨h.new_lt, h.old_lt, fun i j hi hi' hj hj' => (h.ne j i hj hj' hi hi').symm⟩

/-- Taking one more extent on the side of the smaller product keeps the cuts apart. -/
theorem Apart.step {ns os : List Nat} {b a : Nat} (h : Apart ns os b a)
    (hlt : (ns.take b).prod < (os.take a).prod)
    (hgrow : (ns.take b).prod ≤ (ns.take (b + 1)).prod) : Apart ns os (b + 1) a where
  old_lt := fun i hi hi' => (h.old_lt i hi hi').trans_le hgrow
  new_lt := by
    intro j hj hj'
    rcases Nat.lt_succ_iff_lt_or_eq.mp hj' with hlt' | rfl
    · exact h.new_lt j hj hlt'
    · exact hlt
  ne := by
    intro i j hi hi' hj hj'
    rcases Nat.lt_succ_iff_lt_or_eq.mp hj' with hlt' | rfl
    · exact h.ne i j hi hi' hj hlt'
    · exact (h.old_lt i hi hi').ne

theorem prod_take_le (hpos : ∀ d ∈ ds, 0 < d) (n : Nat) : (ds.take n).prod ≤ ds.prod := by
  rw [← List.prod_take_mul_prod_drop ds n]
  exact Nat.le_mul_of_pos_right _
    (prod_pos_of_pos fun d hd => hpos d (List.mem_of_mem_drop hd))

/-- A prefix whose product is below that of the whole list is a proper one. -/
theorem lt_length_of_prod_take_lt (h : (ds.take n).prod < ds.prod) : n < ds.length := by
  by_contra hge
  rw [List.take_of_length_le (Nat.le_of_not_lt hge)] at h
  exact lt_irrefl _ h

theorem prod_take_le_succ (hpos : ∀ d ∈ ds, 0 < d) (hn : n < ds.length) :
    (ds.take n).prod ≤ (ds.take (n + 1)).prod := by
  rw [List.prod_take_succ ds n hn]
  exact Nat.le_mul_of_pos_right _ (hpos _ (List.getElem_mem hn))

/-- The inner loop stops inside both arrays, at cuts of equal product that stay apart. -/
theorem extendGroup_spec {old : List Nat} (hnew : ∀ d ∈ new, 0 < d) (hold : ∀ d ∈ old, 0 < d)
    (hprod : (new.drop ni).prod = (old.drop oi).prod) (b a : Nat) (hb : ni + b ≤ new.length)
    (ha : oi + a ≤ old.length) (hapart : Apart (new.drop ni) (old.drop oi) b a) :
    ∃ b' a', extendGroup new old ((new.drop ni).take b).prod ((old.drop oi).take a).prod
        (ni + b) (oi + a) = some (ni + b', oi + a') ∧
      b ≤ b' ∧ a ≤ a' ∧ ni + b' ≤ new.length ∧ oi + a' ≤ old.length ∧
      ((new.drop ni).take b').prod = ((old.drop oi).take a').prod ∧
      Apart (new.drop ni) (old.drop oi) b' a' := by
  have hns : ∀ d ∈ new.drop ni, 0 < d := fun d hd => hnew d (List.mem_of_mem_drop hd)
  have hos : ∀ d ∈ old.drop oi, 0 < d := fun d hd => hold d (List.mem_of_mem_drop hd)
  rcases Nat.lt_trichotomy ((new.drop ni).take b).prod ((old.drop oi).take a).prod with
    hlt | heq | hgt
  · have hb' : b < (new.drop ni).length := by
      apply lt_length_of_prod_take_lt
      rw [hprod]
      exact hlt.trans_le (prod_take_le hos a)
    have hlen : ni + b < new.length := by
      rw [List.length_drop] at hb'
      omega
    obtain ⟨b', a', heq, hle, hrest⟩ :=
      extendGroup_spec hnew hold hprod (b + 1) a (by omega) ha
        (hapart.step hlt (prod_take_le_succ hns hb'))
    refine ⟨b', a', ?_, by omega, hrest⟩
    rw [List.prod_take_succ _ _ hb', List.getElem_drop] at heq
    rw [extendGroup_of_lt hlt (List.getElem?_eq_getElem hlen)]
    exact heq
  · refine ⟨b, a, ?_, le_refl b, le_refl a, hb, ha, heq, hapart⟩
    rw [extendGroup, if_pos heq]
  · have ha' : a < (old.drop oi).length := by
      apply lt_length_of_prod_take_lt
      rw [← hprod]
      exact hgt.trans_le (prod_take_le hns b)
    have hlen : oi + a < old.length := by
      rw [List.length_drop] at ha'
      omega
    obtain ⟨b', a', heq, hle, hle', hrest⟩ :=
      extendGroup_spec hnew hold hprod b (a + 1) hb (by omega)
        (hapart.symm.step hgt (prod_take_le_succ hos ha')).symm
    refine ⟨b', a', ?_, hle, by omega, hrest⟩
    rw [List.prod_take_succ _ _ ha', List.getElem_drop] at heq
    rw [extendGroup_of_gt hgt (List.getElem?_eq_getElem hlen)]
    exact heq
termination_by (new.length - ni - b) + (old.length - oi - a)

/-- Groups whose inner place values never agree have no common boundary. -/
theorem noCommonBoundary_of_ne (hvol : volume xs = volume ys) (hpos : 0 < volume xs)
    (hne : ∀ i j, 1 ≤ i → i < xs.length → 1 ≤ j → j < ys.length →
      ((dims xs).take i).prod ≠ ((dims ys).take j).prod) :
    NoCommonBoundary (orient isFOrder xs) (orient isFOrder ys) := by
  have hsplit : ∀ xs₁ xs₂ ys₁ ys₂, xs = xs₁ ++ xs₂ → ys = ys₁ ++ ys₂ → xs₁ ≠ [] → xs₂ ≠ [] →
      ys₁ ≠ [] → ys₂ ≠ [] → volume xs₁ ≠ volume ys₁ := by
    rintro xs₁ xs₂ ys₁ ys₂ rfl rfl hx₁ hx₂ hy₁ hy₂
    have hlx := List.length_pos_iff.mpr hx₁
    have hlx' := List.length_pos_iff.mpr hx₂
    have hly := List.length_pos_iff.mpr hy₁
    have hly' := List.length_pos_iff.mpr hy₂
    have hcut := hne xs₁.length ys₁.length hlx (by simp; omega) hly (by simp; omega)
    rw [dims_append, dims_append, List.take_left' (by simp [dims]),
      List.take_left' (by simp [dims])] at hcut
    exact hcut
  intro xs₁ xs₂ ys₁ ys₂ hxs hys hx₁ hx₂ hy₁ hy₂ heq
  cases isFOrder with
  | false =>
      have hxs' : xs = xs₁ ++ xs₂ := hxs
      have hys' : ys = ys₁ ++ ys₂ := hys
      apply hsplit xs₁ xs₂ ys₁ ys₂ hxs' hys' hx₁ hx₂ hy₁ hy₂
      rw [hxs', hys', volume_append, volume_append, ← heq] at hvol
      rw [hxs', volume_append] at hpos
      exact Nat.eq_of_mul_eq_mul_right (Nat.pos_of_mul_pos_left hpos) hvol
  | true =>
      have hxs' : xs = xs₂.reverse ++ xs₁.reverse := by
        rw [← List.reverse_append, ← hxs]
        simp [orient]
      have hys' : ys = ys₂.reverse ++ ys₁.reverse := by
        rw [← List.reverse_append, ← hys]
        simp [orient]
      apply hsplit _ _ _ _ hxs' hys' (by simpa) (by simpa) (by simpa) (by simpa)
      simpa using heq

/-- A group without common inner place values that some strides view is contiguous. -/
theorem isChain_of_sameElements {view : List (Nat × Int)} (h : SameElements isFOrder view old)
    (hold : ∀ a ∈ old, 2 ≤ a.1) (hne : ∀ i j, 1 ≤ i → i < old.length → 1 ≤ j → j < view.length →
      ((dims old).take i).prod ≠ ((dims view).take j).prod) :
    old.IsChain (Contiguous isFOrder) := by
  have hpos : 0 < volume old := volume_pos fun a ha => by have := hold a ha; omega
  rw [← packed_orient_iff]
  exact packed_of_sameWalk (sameElements_iff.mp h.symm)
    (noCommonBoundary_of_ne h.1.symm hpos hne) fun a ha => hold a (mem_orient.mp ha)

/-! ## The outer loop -/

/-- One round of the outer loop, once its inner computations are known. -/
theorem reshapeLoop_step {newStrides : List Int} {a : Nat × Int} {combines : Bool}
    (hni : ni < new.length) (hoi : oi < old.length)
    (hgroup : extendGroup new (dims old) new[ni] old[oi].1 (ni + 1) (oi + 1) = some (nj, oj))
    (hcombine : combinable isFOrder old oj oi = some combines)
    (ha : old[if isFOrder then oi else oj - 1]? = some a) :
    reshapeLoop isFOrder new old ni oi newStrides =
      if combines then
        reshapeLoop isFOrder new old nj oj
          (newStrides ++ groupStrides isFOrder (slice new ni nj) a.2)
      else
        .no := by
  rw [reshapeLoop, dif_pos ⟨hni, hoi⟩]
  split
  · simp_all
  · rename_i nj' oj' hgroup'
    rw [hgroup] at hgroup'
    obtain ⟨rfl, rfl⟩ := Prod.mk.inj (Option.some.inj hgroup')
    rw [hcombine, ha]
    cases combines <;> rfl

/-- The innermost axis of a group, in the order of the reshape. -/
theorem orient_slice_eq (isFOrder : Bool) (hlt : oi < oj) (hle : oj ≤ old.length) :
    ∃ outer a, old[if isFOrder then oi else oj - 1]? = some a ∧
      orient isFOrder (slice old oi oj) = outer ++ [a] := by
  cases isFOrder with
  | true =>
      have hget := List.getElem?_eq_getElem (show oi < old.length by omega)
      refine ⟨(slice old (oi + 1) oj).reverse, _, hget, ?_⟩
      simp [orient, slice_eq_cons hget hlt]
  | false =>
      have hget := List.getElem?_eq_getElem (show oj - 1 < old.length by omega)
      refine ⟨slice old oi (oj - 1), _, hget, ?_⟩
      have hlast := take_append_slice old (show oj - 1 ≤ oj by omega)
      have hone := slice_eq_cons hget (show oj - 1 < oj by omega)
      rw [slice_of_le old (show oj ≤ oj - 1 + 1 by omega)] at hone
      have hfront := take_append_slice old (show oi ≤ oj - 1 by omega)
      have hwhole := take_append_slice old (show oi ≤ oj by omega)
      rw [← hfront, hone, ← hwhole, List.append_assoc] at hlast
      exact (List.append_cancel_left hlast).symm

/-- What the outer loop has established when it stops. -/
def Reshaped (isFOrder : Bool) (new : List Nat) (old : List (Nat × Int)) :
    Verdict (Nat × List Int) → Prop
  | .outOfBounds => False
  | .no => ∀ strides, strides.length = new.length → ¬ SameElements isFOrder (new.zip strides) old
  | .yes (ni, newStrides) =>
      newStrides.length = ni ∧ ni ≤ new.length ∧ (∀ d ∈ new.drop ni, d = 1) ∧
        SameElements isFOrder ((new.take ni).zip newStrides) old

theorem dims_slice (old : List (Nat × Int)) (i j : Nat) :
    dims (slice old i j) = slice (dims old) i j := by
  simp [slice, dims, List.map_take, List.map_drop]

theorem take_zip (new : List Nat) (strides : List Int) (n : Nat) :
    (new.zip strides).take n = (new.take n).zip (strides.take n) :=
  List.take_zipWith

/-- A view of the whole array restricts to the group between two common place values. -/
theorem sameElements_slice {view : List (Nat × Int)} (h : SameElements isFOrder view old)
    (hpos : 0 < volume old) (hn : ni ≤ nj) (ho : oi ≤ oj)
    (hfront : volume (view.take ni) = volume (old.take oi))
    (hgroup : volume (slice view ni nj) = volume (slice old oi oj)) :
    SameElements isFOrder (slice view ni nj) (slice old oi oj) := by
  have hview : view = view.take ni ++ (slice view ni nj ++ view.drop nj) := by
    rw [slice_append_drop view hn, List.take_append_drop]
  have hold : old = old.take oi ++ (slice old oi oj ++ old.drop oj) := by
    rw [slice_append_drop old ho, List.take_append_drop]
  have hposv : 0 < volume view := h.1 ▸ hpos
  rw [hview, hold] at h
  rw [hview] at hposv
  exact h.middle hposv hfront hgroup

/-- The outer loop stays inside its arrays, and its verdict is exact. -/
theorem reshapeLoop_spec (hnew : ∀ d ∈ new, 0 < d) (hold : ∀ a ∈ old, 2 ≤ a.1) (ni oi : Nat)
    (newStrides : List Int) (hlen : newStrides.length = ni) (hni : ni ≤ new.length)
    (hoi : oi ≤ old.length)
    (hdone : SameElements isFOrder ((new.take ni).zip newStrides) (old.take oi))
    (hprod : (new.drop ni).prod = (dims (old.drop oi)).prod) :
    Reshaped isFOrder new old (reshapeLoop isFOrder new old ni oi newStrides) := by
  have hdims : ∀ d ∈ dims old, 0 < d := by
    intro d hd
    obtain ⟨a, ha, rfl⟩ := List.mem_map.mp hd
    have := hold a ha
    omega
  have hposOld : 0 < volume old := prod_pos_of_pos hdims
  have hdrop : dims (old.drop oi) = (dims old).drop oi := by simp [dims, List.map_drop]
  by_cases hrange : ni < new.length ∧ oi < old.length
  · obtain ⟨hnlt, holt⟩ := hrange
    have hlenDims : (dims old).length = old.length := by simp [dims]
    obtain ⟨b, a, hgroup, hb, ha, hnj, hoj, hcut, hapart⟩ :=
      extendGroup_spec hnew hdims (hdrop ▸ hprod) 1 1 (by omega) (by omega) (apart_one _ _)
    have hnp : ((new.drop ni).take 1).prod = new[ni] := by
      rw [List.drop_eq_getElem_cons hnlt, List.take_succ_cons, List.take_zero,
        List.prod_singleton]
    have hop : (((dims old).drop oi).take 1).prod = old[oi].1 := by
      rw [List.drop_eq_getElem_cons (by omega : oi < (dims old).length)]
      simp [dims]
    rw [hnp, hop] at hgroup
    obtain ⟨outer, axis, haxis, horient⟩ :=
      orient_slice_eq isFOrder (show oi < oi + a by omega) (by omega : oi + a ≤ old.length)
    have hnewSlice : slice new ni (ni + b) = (new.drop ni).take b := by
      rw [slice, Nat.add_sub_cancel_left]
    have holdSlice : dims (slice old oi (oi + a)) = ((dims old).drop oi).take a := by
      rw [dims_slice, slice, Nat.add_sub_cancel_left]
    have hvol : (slice new ni (ni + b)).prod = volume (slice old oi (oi + a)) := by
      rw [volume, holdSlice, hnewSlice, hcut]
    have hsliceLen : (slice new ni (ni + b)).length = b := by
      rw [length_slice hnj, Nat.add_sub_cancel_left]
    rw [reshapeLoop_step hnlt holt hgroup (combinable_eq isFOrder (by omega)) haxis]
    by_cases hchain : (slice old oi (oi + a)).IsChain (Contiguous isFOrder)
    · rw [decide_eq_true hchain, if_pos rfl]
      have hslice : SameElements isFOrder ((slice new ni (ni + b)).zip
          (groupStrides isFOrder (slice new ni (ni + b)) axis.2)) (slice old oi (oi + a)) := by
        apply sameElements_group horient hchain _ hvol
        intro hnil
        rw [hnil] at hsliceLen
        simp at hsliceLen
        omega
      have hnext := hdone.append hslice
      rw [← List.zip_append (by rw [List.length_take, hlen]; omega),
        take_append_slice new (by omega), take_append_slice old (by omega)] at hnext
      have hrest : (new.drop (ni + b)).prod = (dims (old.drop (oi + a))).prod := by
        have hsplit := hprod
        rw [hdrop, ← List.prod_take_mul_prod_drop (new.drop ni) b,
          ← List.prod_take_mul_prod_drop ((dims old).drop oi) a, hcut, List.drop_drop,
          List.drop_drop] at hsplit
        rw [show dims (old.drop (oi + a)) = (dims old).drop (oi + a) by simp [dims, List.map_drop]]
        exact Nat.eq_of_mul_eq_mul_left
          (prod_pos_of_pos fun d hd => hdims d (List.mem_of_mem_drop (List.mem_of_mem_take hd)))
          hsplit
      exact reshapeLoop_spec hnew hold (ni + b) (oi + a) _
        (by rw [List.length_append, hlen, length_groupStrides, hsliceLen]) hnj (by omega) hnext
        hrest
    · rw [decide_eq_false hchain]
      -- any strides would view the group, whose place values stay apart
      intro strides hstrides hview
      have hfront : volume ((new.zip strides).take ni) = volume (old.take oi) := by
        rw [← hdone.1, take_zip, volume, volume, dims, dims,
          List.map_fst_zip (by simp [hstrides]), List.map_fst_zip (by simp [hlen])]
      have hdimsView : dims (slice (new.zip strides) ni (ni + b)) = slice new ni (ni + b) := by
        rw [dims_slice, dims, List.map_fst_zip (by omega)]
      have hgroupVol : volume (slice (new.zip strides) ni (ni + b)) =
          volume (slice old oi (oi + a)) := by
        rw [volume, hdimsView, hvol]
      apply hchain
      apply isChain_of_sameElements
        (sameElements_slice hview hposOld (by omega) (by omega) hfront hgroupVol)
        fun x hx => hold x (List.mem_of_mem_drop (List.mem_of_mem_take hx))
      intro i j hi hi' hj hj'
      rw [length_slice (by omega), Nat.add_sub_cancel_left] at hi'
      rw [length_slice (by simp; omega), Nat.add_sub_cancel_left] at hj'
      have hne := hapart.ne i j hi hi' hj hj'
      rw [hdimsView, hnewSlice, holdSlice, List.take_take, List.take_take,
        Nat.min_eq_left hi'.le, Nat.min_eq_left hj'.le]
      exact hne
  · have hstop : reshapeLoop isFOrder new old ni oi newStrides = .yes (ni, newStrides) := by
      rw [reshapeLoop, dif_neg hrange]
    rw [hstop]
    have hend : oi = old.length := by
      by_contra hne
      have hnend : ni = new.length := by omega
      rw [hnend, List.drop_length, List.prod_nil, hdrop] at hprod
      have holt : oi < (dims old).length := by
        have hlenDims : (dims old).length = old.length := by simp [dims]
        omega
      have hlast := (dims old).getElem_mem holt
      rw [List.drop_eq_getElem_cons holt, List.prod_cons] at hprod
      have hone := Nat.eq_one_of_mul_eq_one_right hprod.symm
      have htwo : 2 ≤ (dims old)[oi] := by
        obtain ⟨x, hx, hxeq⟩ := List.mem_map.mp hlast
        rw [← hxeq]
        exact hold x hx
      omega
    refine ⟨hlen, hni, ?_, ?_⟩
    · rw [hend, List.drop_length, dims_nil, List.prod_nil] at hprod
      exact fun d hd => Nat.eq_one_of_dvd_one (hprod ▸ List.dvd_prod hd)
    · rw [hend, List.take_length] at hdone
      exact hdone
termination_by new.length - ni

/-! ## The functions -/

/-- The common part of both functions decides whether the old array can be viewed. -/
theorem reshapeGroups_spec {oldShape : ShapeInfo} (hold : oldShape.Positive)
    {newShapeOf : List Nat} (hnew : ∀ d ∈ newShapeOf, 0 < d) (isFOrder : Bool) :
    Reshaped isFOrder newShapeOf (squeeze oldShape.axes)
      (reshapeGroups oldShape newShapeOf isFOrder) := by
  unfold reshapeGroups
  simp only
  split
  · rename_i hsize
    intro strides hstrides hview
    apply hsize
    rw [← hview.1, volume, dims, List.map_fst_zip (by omega)]
  · rename_i hsize
    rw [if_neg (prod_pos_of_pos hnew).ne']
    apply reshapeLoop_spec hnew _ 0 0 [] rfl (Nat.zero_le _) (Nat.zero_le _)
    · exact ⟨rfl, fun _ _ => rfl⟩
    · exact not_not.mp hsize
    · intro a ha
      obtain ⟨hmem, hne⟩ := List.mem_filter.mp ha
      have hpos := hold.axes a hmem
      have hne' : a.1 ≠ 1 := of_decide_eq_true hne
      omega

/-- New axes of extent one can be given any stride. -/
theorem sameElements_of_ones {strides : List Int} (hlen : strides.length = new.length)
    (hones : ∀ d ∈ new.drop n, d = 1)
    (h : SameElements isFOrder ((new.take n).zip (strides.take n)) old) :
    SameElements isFOrder (new.zip strides) old := by
  have hsplit : new.zip strides =
      (new.take n).zip (strides.take n) ++ (new.drop n).zip (strides.drop n) := by
    rw [← List.zip_append (by simp [hlen]), List.take_append_drop, List.take_append_drop]
  have hdrop : squeeze ((new.drop n).zip (strides.drop n)) = [] := by
    apply List.filter_eq_nil_iff.mpr
    intro a ha
    have hmem : a.1 ∈ new.drop n := (List.of_mem_zip (a := a.1) (b := a.2) ha).1
    simp [hones a.1 hmem]
  have hsqueeze : squeeze (new.zip strides) =
      squeeze ((new.take n).zip (strides.take n)) := by
    rw [hsplit, squeeze, List.filter_append]
    exact (congrArg _ hdrop).trans (List.append_nil _)
  have hfull := sameElements_squeeze isFOrder (new.zip strides)
  rw [hsqueeze] at hfull
  exact hfull.symm.trans ((sameElements_squeeze isFOrder _).trans h)

/-- Filling up a list leaves its entries in front. -/
theorem take_takeD {xs : List Int} (h : xs.length ≤ n) (a : Int) :
    (xs.takeD n a).take xs.length = xs := by
  induction xs generalizing n with
  | nil => rfl
  | cons x xs ih =>
      obtain ⟨m, rfl⟩ : ∃ m, n = m + 1 := ⟨n - 1, by simp at h; omega⟩
      have hm : xs.length ≤ m := by simpa using h
      simp [ih hm]

/-- Both functions decide alike: they view the old array, or no strides do. -/
theorem reshape_cases {oldShape : ShapeInfo} (hold : oldShape.Positive) {newShapeOf : List Nat}
    (hnew : ∀ d ∈ newShapeOf, 0 < d) (isFOrder : Bool) :
    (canReshape oldShape newShapeOf isFOrder = .yes () ∧
      ∃ target, reshapeCF oldShape newShapeOf isFOrder = .yes target ∧
        target.shape = newShapeOf ∧ SameElements isFOrder target.axes oldShape.axes) ∨
    (canReshape oldShape newShapeOf isFOrder = .no ∧
      reshapeCF oldShape newShapeOf isFOrder = .no ∧
        ∀ strides : List Int, strides.length = newShapeOf.length →
          ¬ SameElements isFOrder (newShapeOf.zip strides) oldShape.axes) := by
  have hspec := reshapeGroups_spec hold hnew isFOrder
  have hsqueeze := sameElements_squeeze isFOrder oldShape.axes
  unfold reshapeCF canReshape
  cases hgroups : reshapeGroups oldShape newShapeOf isFOrder with
  | outOfBounds =>
      rw [hgroups] at hspec
      exact hspec.elim
  | no =>
      rw [hgroups] at hspec
      right
      refine ⟨rfl, rfl, fun strides hlen hview => ?_⟩
      exact hspec strides hlen (hview.trans hsqueeze.symm)
  | yes result =>
      obtain ⟨ni, newStrides⟩ := result
      rw [hgroups] at hspec
      obtain ⟨hlen, hni, hones, hview⟩ := hspec
      have htarget : ∀ lastStride, SameElements isFOrder
          (newShapeOf.zip (newStrides.takeD newShapeOf.length lastStride)) oldShape.axes := by
        intro lastStride
        have htake : (newStrides.takeD newShapeOf.length lastStride).take ni = newStrides := by
          rw [← hlen]
          exact take_takeD (hlen ▸ hni) lastStride
        refine sameElements_of_ones (by simp) hones ?_
        rw [htake]
        exact hview.trans hsqueeze
      left
      exact ⟨rfl, _, rfl, rfl, htarget _⟩

/-- `reshapeCF` ends inside its arrays and says yes exactly when some strides view the old
array in the given order; the strides it writes do, and `canReshape` agrees. -/
theorem reshapeCF_correct (oldShape : ShapeInfo) (hold : oldShape.Positive)
    (newShapeOf : List Nat) (hnew : ∀ d ∈ newShapeOf, 0 < d) (isFOrder : Bool) :
    reshapeCF oldShape newShapeOf isFOrder ≠ .outOfBounds ∧
      ((∃ target, reshapeCF oldShape newShapeOf isFOrder = .yes target) ↔
        ∃ strides : List Int, strides.length = newShapeOf.length ∧
          SameElements isFOrder (newShapeOf.zip strides) oldShape.axes) ∧
      (∀ target, reshapeCF oldShape newShapeOf isFOrder = .yes target →
        target.shape = newShapeOf ∧ SameElements isFOrder target.axes oldShape.axes) ∧
      canReshape oldShape newShapeOf isFOrder ≠ .outOfBounds ∧
      (canReshape oldShape newShapeOf isFOrder = .yes () ↔
        ∃ target, reshapeCF oldShape newShapeOf isFOrder = .yes target) := by
  rcases reshape_cases hold hnew isFOrder with
    ⟨hcan, target, htarget, hshape, hview⟩ | ⟨hcan, hno, hnone⟩
  · rw [hcan, htarget]
    have hlength : target.stride.length = newShapeOf.length := by
      rw [target.stride_length, hshape]
    refine ⟨by simp, ⟨fun _ => ⟨target.stride, hlength, ?_⟩, fun _ => ⟨target, rfl⟩⟩, ?_,
      by simp, by simp⟩
    · rw [← hshape]
      exact hview
    · intro target' heq
      obtain rfl := Verdict.yes.inj heq
      exact ⟨hshape, hview⟩
  · rw [hcan, hno]
    refine ⟨by simp, ⟨?_, ?_⟩, by simp, by simp, by simp⟩
    · rintro ⟨target, heq⟩
      cases heq
    · rintro ⟨strides, hlen, hview⟩
      exact absurd hview (hnone strides hlen)

/-- A packed array of shape two by three can be viewed as six elements. -/
theorem reshapeCF_two_by_three :
    ∃ target, reshapeCF (ShapeInfo.ofAxes [(2, 3), (3, 1)] 0 1 'c') [6] false = .yes target :=
  (reshapeCF_correct (ShapeInfo.ofAxes [(2, 3), (3, 1)] 0 1 'c') (by decide) [6] (by decide)
    false).2.1.mpr ⟨[1], rfl, rfl, by decide⟩

end Shape
end LibND4J
