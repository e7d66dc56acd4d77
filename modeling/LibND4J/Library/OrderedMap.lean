import Mathlib.Data.List.Basic
import Mathlib.Order.Basic

/-!
# Ordered maps

Lookup rules for the ordered maps of the standard library when the comparison
decides equality, stated with equality of keys, and the lexicographic comparison of
pairs of integers.

Main results:

- Theorems `getElem?_insert_eq`, `getElem?_insertIfNew_eq`,
  `getElem?_modify_eq` and `getElem?_erase_eq`: lookup after one update.
- Theorem `size_eq_length`: counting a map by a list of its keys.
- Theorem `getElem?_subscript_eq`: lookup after a subscript.
- Theorem `mem_insert_values`: a value found after an insertion was inserted or
  was there before.
-/

namespace OrderedMap

open Std

section Subscript

variable {κ ν : Type*} {cmp : κ → κ → Ordering}

/-- The subscript of a map: it files the default value under an absent key. -/
def subscript (m : TreeMap κ ν cmp) (k : κ) (default : ν) : TreeMap κ ν cmp × ν :=
  (m.insertIfNew k default, m[k]?.getD default)

end Subscript

section Lookup

variable {κ ν : Type*} {cmp : κ → κ → Ordering} [TransCmp cmp] [LawfulEqCmp cmp]

/-- Lookup after an insertion. -/
theorem getElem?_insert_eq [DecidableEq κ] (m : TreeMap κ ν cmp) (k a : κ) (v : ν) :
    (m.insert k v)[a]? = if k = a then some v else m[a]? := by
  rw [TreeMap.getElem?_insert]
  by_cases h : k = a
  · rw [if_pos h, if_pos (LawfulEqCmp.compare_eq_iff_eq.mpr h)]
  · rw [if_neg h, if_neg fun hcmp => h (LawfulEqCmp.compare_eq_iff_eq.mp hcmp)]

/-- Lookup after a removal. -/
theorem getElem?_erase_eq [DecidableEq κ] (m : TreeMap κ ν cmp) (k a : κ) :
    (m.erase k)[a]? = if k = a then none else m[a]? := by
  rw [TreeMap.getElem?_erase]
  by_cases h : k = a
  · rw [if_pos h, if_pos (LawfulEqCmp.compare_eq_iff_eq.mpr h)]
  · rw [if_neg h, if_neg fun hcmp => h (LawfulEqCmp.compare_eq_iff_eq.mp hcmp)]

variable {m : TreeMap κ ν cmp}

/-- Lookup after an insertion that keeps a present entry. -/
theorem getElem?_insertIfNew_eq [DecidableEq κ] {k : κ} (hk : m[k]? = none) (a : κ) (v : ν) :
    (m.insertIfNew k v)[a]? = if k = a then some v else m[a]? := by
  have hmem : k ∉ m := by
    rw [TreeMap.mem_iff_isSome_getElem?, hk]
    simp
  rw [TreeMap.getElem?_insertIfNew]
  by_cases h : k = a
  · rw [if_pos h, if_pos ⟨LawfulEqCmp.compare_eq_iff_eq.mpr h, hmem⟩]
  · rw [if_neg h, if_neg fun hcmp => h (LawfulEqCmp.compare_eq_iff_eq.mp hcmp.1)]

/-- Lookup after a change of one entry. -/
theorem getElem?_modify_eq [DecidableEq κ] (m : TreeMap κ ν cmp) (k a : κ) (f : ν → ν) :
    (m.modify k f)[a]? = if k = a then m[k]?.map f else m[a]? := by
  rw [TreeMap.getElem?_modify]
  by_cases h : k = a
  · rw [if_pos h, if_pos (LawfulEqCmp.compare_eq_iff_eq.mpr h), h]
  · rw [if_neg h, if_neg fun hcmp => h (LawfulEqCmp.compare_eq_iff_eq.mp hcmp)]

/-- A map has as many entries as a list that names each of its keys once. -/
theorem size_eq_length {l : List κ} (hnodup : l.Nodup) (hmem : ∀ k, m[k]?.isSome ↔ k ∈ l) :
    m.size = l.length := by
  have hkeys : ∀ k, k ∈ m.keys ↔ k ∈ l := by
    intro k
    rw [TreeMap.mem_keys, TreeMap.mem_iff_isSome_getElem?]
    exact hmem k
  rw [← TreeMap.length_keys]
  exact ((List.perm_ext_iff_of_nodup TreeMap.nodup_keys hnodup).mpr hkeys).length_eq

/-- Lookup after a subscript. -/
theorem getElem?_subscript_eq [DecidableEq κ] (m : TreeMap κ ν cmp) (k a : κ) (default : ν) :
    (subscript m k default).1[a]? = if k = a then some (m[k]?.getD default) else m[a]? := by
  rw [subscript]
  cases h : m[k]? with
  | none =>
      rw [getElem?_insertIfNew_eq h]
      rfl
  | some v =>
      have hmem : k ∈ m := by
        rw [TreeMap.mem_iff_isSome_getElem?, h]
        rfl
      rw [TreeMap.getElem?_insertIfNew, if_neg fun hk => hk.2 hmem]
      by_cases hka : k = a
      · rw [if_pos hka, ← hka, h, Option.getD_some]
      · rw [if_neg hka]

/-- A value found after an insertion is the inserted one or an old one. -/
theorem mem_insert_values {k a : κ} {v w : ν} (h : (m.insert k v)[a]? = some w) :
    w = v ∨ m[a]? = some w := by
  classical
  rw [getElem?_insert_eq] at h
  split at h
  · exact Or.inl (Option.some.inj h).symm
  · exact Or.inr h

end Lookup

/-- Lexicographic comparison of pairs of integers. -/
abbrev pairCmp : Int × Int → Int × Int → Ordering :=
  compareLex (compareOn Prod.fst) (compareOn Prod.snd)

instance : LawfulEqCmp pairCmp where
  eq_of_compare := by
    intro a b h
    obtain ⟨hfst, hsnd⟩ := compareLex_eq_eq.mp h
    exact Prod.ext (LawfulEqCmp.eq_of_compare hfst) (LawfulEqCmp.eq_of_compare hsnd)

end OrderedMap
