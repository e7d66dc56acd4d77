import LibND4J.Encoding.Bitmap

/-!
# Threshold encoding

The threshold encoding lists the elements that are moved towards zero, each by its index
with a sign.  The iterations over the elements run in parallel: an iteration takes its
place in the list from a shared counter, and one that finds the list full raises a flag
that lets the others skip their elements.

Here an iteration is a small program whose atomic accesses are its steps, and a run is
any sequence of steps of the iterations.

Main results:

- Theorem `Listing.step`: every step of every iteration keeps the list in order.
- Theorem `finished_of_count`: an iteration is over after five of its steps.
- Theorem `convertToThreshold_inverse`: after every run the list is full, and
  decoding it gives back what encoding took from the vector.
-/

namespace LibND4J
namespace Encoding

/-! ## The two conversions -/

/-- Where an iteration of the encoder stands. -/
inductive Pc
  | readFlag
  | readValue
  | capture (positive : Bool)
  | store (positive : Bool) (idx : Nat)
  | raise
  | move (positive : Bool)
  | done
deriving DecidableEq

/-- The memory the iterations share, and where each of them stands. -/
structure Shared where
  x : Nat → ℚ
  z : Nat → Int
  cnt : Nat
  flag : Bool
  pc : Nat → Pc

def Shared.goto (s : Shared) (e : Nat) (pc : Pc) : Shared :=
  { s with pc := Function.update s.pc e pc }

/-- The next atomic step of iteration `e`. -/
def convertStep (threshold : ℚ) (flimit : Int) (s : Shared) (e : Nat) : Shared :=
  match s.pc e with
  | .readFlag => s.goto e (if s.flag then .done else .readValue)
  | .readValue =>
      let cUpd := s.x e
      s.goto e (if cUpd ≥ threshold then .capture true
        else if cUpd ≤ -threshold then .capture false
        else .done)
  | .capture positive => ({ s with cnt := s.cnt + 1 } : Shared).goto e (.store positive s.cnt)
  | .store positive idx =>
      if idx ≥ flimit then
        s.goto e .raise
      else
        ({ s with z := Function.update s.z idx (if positive then e + 1 else -e - 1) } : Shared).goto
          e (.move positive)
  | .raise => ({ s with flag := true } : Shared).goto e .done
  | .move positive =>
      let xe := if positive then s.x e - threshold else s.x e + threshold
      ({ s with x := Function.update s.x e xe } : Shared).goto e .done
  | .done => s

/-- `convertToThreshold`, with the iterations making their steps in the order of the
schedule; `none` if the header holds no number. -/
def convertToThreshold (x : Nat → ℚ) (N : Nat) (z : Nat → Int) (schedule : List Nat) :
    Option Shared :=
  let limit := z 0
  (floatOfBits (BitVec.ofInt 32 (z 2))).map fun threshold =>
    let z := Function.update z 1 (N : Int)
    let flimit := limit + 4
    schedule.foldl (convertStep threshold flimit) ⟨x, z, 4, false, fun _ => .readFlag⟩

/-- One iteration of the decoder. -/
def decodeEntry (threshold : ℚ) (x : Nat → Int) (z : Nat → ℚ) (e : Nat) : Nat → ℚ :=
  let el := x e
  let ael := (|el| - 1).toNat
  Function.update z ael (z ael + if el > 0 then threshold else -threshold)

/-- `convertFromThreshold`, with its iterations in the given order. -/
def convertFromThreshold (x : Nat → Int) (z : Nat → ℚ) (order : List Nat) : Option (Nat → ℚ) :=
  (floatOfBits (BitVec.ofInt 32 (x 2))).map fun threshold =>
    order.foldl (decodeEntry threshold x) z

/-! ## One iteration -/

section Iterations

variable (threshold : ℚ) (limit : Nat) (x : Nat → ℚ)

/-- The entry of an element. -/
def entry (e : Nat) : Int :=
  if threshold ≤ x e then (e : Int) + 1 else -e - 1

/-- An element moved by the threshold towards zero. -/
def moved (v : ℚ) : ℚ :=
  if threshold ≤ v then v - threshold else v + threshold

/-- What holds of iteration `e` at each of its places.  `slot` remembers the value of the
counter that the iterations have captured, `v` is the element as it is now. -/
def At (slot : Nat → Option Nat) (z : Nat → Int) (flag : Bool) (e : Nat) (v : ℚ) : Pc → Prop
  | .readFlag => slot e = none ∧ v = x e
  | .readValue => slot e = none ∧ v = x e
  | .capture positive =>
      slot e = none ∧ v = x e ∧ threshold ≤ |x e| ∧ positive = decide (threshold ≤ x e)
  | .store positive idx =>
      slot e = some idx ∧ v = x e ∧ positive = decide (threshold ≤ x e)
  | .raise => v = x e ∧ ∃ idx, slot e = some idx ∧ limit + 4 ≤ idx
  | .move positive =>
      v = x e ∧ positive = decide (threshold ≤ x e) ∧
        ∃ idx, slot e = some idx ∧ idx < limit + 4 ∧ z idx = entry threshold x e
  | .done =>
      (slot e = none → v = x e ∧ (threshold ≤ |x e| → flag = true)) ∧
        (∀ idx, slot e = some idx → idx < limit + 4 →
          z idx = entry threshold x e ∧ v = moved threshold (x e)) ∧
        ∀ idx, slot e = some idx → limit + 4 ≤ idx → v = x e

variable {threshold limit x}
    {slot : Nat → Option Nat} {e N : Nat} {z₀ : Nat → Int} {s : Shared} {positive : Bool}

/-- An iteration does not notice what leaves its slot and its entry alone. -/
theorem At.congr {slot' : Nat → Option Nat} {z z' : Nat → Int} {flag flag' : Bool} {v : ℚ} {pc : Pc}
    (h : At threshold limit x slot z flag e v pc) (hslot : slot' e = slot e)
    (hz : ∀ idx, slot e = some idx → z' idx = z idx) (hflag : flag = true → flag' = true) :
    At threshold limit x slot' z' flag' e v pc := by
  cases pc with
  | readFlag => exact ⟨hslot.trans h.1, h.2⟩
  | readValue => exact ⟨hslot.trans h.1, h.2⟩
  | capture positive => exact ⟨hslot.trans h.1, h.2⟩
  | store positive idx => exact ⟨hslot.trans h.1, h.2⟩
  | raise =>
      obtain ⟨hv, idx, hidx, hle⟩ := h
      exact ⟨hv, idx, hslot.trans hidx, hle⟩
  | move positive =>
      obtain ⟨hv, hpositive, idx, hidx, hlt, hentry⟩ := h
      exact ⟨hv, hpositive, idx, hslot.trans hidx, hlt, (hz idx hidx).trans hentry⟩
  | done =>
      obtain ⟨hnone, hlisted, hover⟩ := h
      refine ⟨fun hn => ?_, fun idx hidx hlt => ?_, fun idx hidx hle => ?_⟩
      · obtain ⟨hv, hraised⟩ := hnone (hslot.symm.trans hn)
        exact ⟨hv, fun hbig => hflag (hraised hbig)⟩
      · obtain ⟨hentry, hv⟩ := hlisted idx (hslot.symm.trans hidx) hlt
        exact ⟨(hz idx (hslot.symm.trans hidx)).trans hentry, hv⟩
      · exact hover idx (hslot.symm.trans hidx) hle

/-- The list during a run: the slots below the counter are owned by one iteration each,
and every iteration is where it should be. -/
structure Listing (threshold : ℚ) (limit N : Nat) (x : Nat → ℚ) (z₀ : Nat → Int)
    (slot : Nat → Option Nat) (s : Shared) : Prop where
  owned : ∀ idx, 4 ≤ idx → idx < s.cnt → ∃ e, slot e = some idx
  slot_lt : ∀ e idx, slot e = some idx → 4 ≤ idx ∧ idx < s.cnt
  slot_inj : ∀ e e' idx, slot e = some idx → slot e' = some idx → e = e'
  slot_large : ∀ e idx, slot e = some idx → e < N ∧ threshold ≤ |x e|
  four_le : 4 ≤ s.cnt
  full_of_flag : s.flag = true → limit + 4 < s.cnt
  frame : ∀ i, i < 4 ∨ limit + 4 ≤ i → s.z i = z₀ i
  iteration : ∀ e, At threshold limit x slot s.z s.flag e (s.x e) (s.pc e)

theorem listing_start (z₀ : Nat → Int) (N : Nat) :
    Listing threshold limit N x z₀ (fun _ => none) ⟨x, z₀, 4, false, fun _ => .readFlag⟩ where
  owned := by
    intro idx hle hlt
    exact absurd hlt (Nat.not_lt.mpr hle)
  slot_lt := by simp
  slot_inj := by simp
  slot_large := by simp
  four_le := le_refl 4
  full_of_flag := by simp
  frame := fun _ _ => rfl
  iteration := fun e => ⟨rfl, rfl⟩

variable (h : Listing threshold limit N x z₀ slot s)

include h

/-- A step that only moves iteration `e` on. -/
theorem Listing.goto {pc : Pc} (hat : At threshold limit x slot s.z s.flag e (s.x e) pc) :
    Listing threshold limit N x z₀ slot (s.goto e pc) where
  owned := h.owned
  slot_lt := h.slot_lt
  slot_inj := h.slot_inj
  slot_large := h.slot_large
  four_le := h.four_le
  full_of_flag := h.full_of_flag
  frame := h.frame
  iteration := by
    intro e'
    by_cases heq : e' = e
    · subst heq
      simpa [Shared.goto] using hat
    · simpa [Shared.goto, Function.update_of_ne heq] using h.iteration e'

/-- Capturing the counter takes the next slot. -/
theorem Listing.capture (he : e < N) (hpc : s.pc e = .capture positive) :
    Listing threshold limit N x z₀ (Function.update slot e (some s.cnt))
      (({ s with cnt := s.cnt + 1 } : Shared).goto e (.store positive s.cnt)) := by
  have hat := h.iteration e
  rw [hpc] at hat
  obtain ⟨hnone, hv, hlarge, hpositive⟩ := hat
  have hother : ∀ e' idx, Function.update slot e (some s.cnt) e' = some idx →
      e' = e ∧ idx = s.cnt ∨ e' ≠ e ∧ slot e' = some idx := by
    intro e' idx hidx
    by_cases heq : e' = e
    · subst heq
      rw [Function.update_self, Option.some.injEq] at hidx
      exact Or.inl ⟨rfl, hidx.symm⟩
    · rw [Function.update_of_ne heq] at hidx
      exact Or.inr ⟨heq, hidx⟩
  constructor
  · intro idx hle hlt
    by_cases heq : idx = s.cnt
    · exact ⟨e, by rw [heq, Function.update_self]⟩
    · have hlt' : idx < s.cnt + 1 := hlt
      obtain ⟨e', he'⟩ := h.owned idx hle (by omega)
      refine ⟨e', ?_⟩
      rw [Function.update_of_ne, he']
      rintro rfl
      rw [hnone] at he'
      cases he'
  · intro e' idx hidx
    show 4 ≤ idx ∧ idx < s.cnt + 1
    rcases hother e' idx hidx with ⟨-, rfl⟩ | ⟨-, hold⟩
    · exact ⟨h.four_le, Nat.lt_succ_self _⟩
    · obtain ⟨hle, hlt⟩ := h.slot_lt e' idx hold
      exact ⟨hle, by omega⟩
  · intro e₁ e₂ idx h₁ h₂
    rcases hother e₁ idx h₁ with ⟨rfl, rfl⟩ | ⟨-, hold₁⟩
    · rcases hother e₂ _ h₂ with ⟨rfl, -⟩ | ⟨-, hold₂⟩
      · rfl
      · exact absurd (h.slot_lt e₂ _ hold₂).2 (Nat.lt_irrefl _)
    · rcases hother e₂ idx h₂ with ⟨rfl, rfl⟩ | ⟨-, hold₂⟩
      · exact absurd (h.slot_lt e₁ _ hold₁).2 (Nat.lt_irrefl _)
      · exact h.slot_inj e₁ e₂ idx hold₁ hold₂
  · intro e' idx hidx
    rcases hother e' idx hidx with ⟨rfl, -⟩ | ⟨-, hold⟩
    · exact ⟨he, hlarge⟩
    · exact h.slot_large e' idx hold
  · exact Nat.le_succ_of_le h.four_le
  · exact fun hflag => Nat.lt_succ_of_lt (h.full_of_flag hflag)
  · exact h.frame
  · intro e'
    by_cases heq : e' = e
    · subst heq
      simp only [Shared.goto, Function.update_self]
      exact ⟨Function.update_self _ _ _, hv, hpositive⟩
    · simp only [Shared.goto, Function.update_of_ne heq]
      exact (h.iteration e').congr (Function.update_of_ne heq _ _) (fun _ _ => rfl) id

/-- Storing an entry fills the slot of the iteration. -/
theorem Listing.store {idx : Nat} (hpc : s.pc e = .store positive idx) (hlt : idx < limit + 4) :
    Listing threshold limit N x z₀ slot
      (({ s with z := Function.update s.z idx (if positive then (e : Int) + 1 else -e - 1) } :
        Shared).goto e (.move positive)) := by
  have hat := h.iteration e
  rw [hpc] at hat
  obtain ⟨hidx, hv, hpositive⟩ := hat
  have hentry : (if positive then (e : Int) + 1 else -e - 1) = entry threshold x e := by
    simp [entry, hpositive]
  refine ⟨h.owned, h.slot_lt, h.slot_inj, h.slot_large, h.four_le, h.full_of_flag, ?_, ?_⟩
  · intro i hi
    have hne : i ≠ idx := by
      have hle := (h.slot_lt e idx hidx).1
      omega
    simp only [Shared.goto, Function.update_of_ne hne]
    exact h.frame i hi
  · intro e'
    by_cases heq : e' = e
    · subst heq
      simp only [Shared.goto, Function.update_self]
      exact ⟨hv, hpositive, idx, hidx, hlt, by rw [Function.update_self, hentry]⟩
    · simp only [Shared.goto, Function.update_of_ne heq]
      refine (h.iteration e').congr rfl (fun idx' hidx' => ?_) id
      apply Function.update_of_ne
      rintro rfl
      exact heq (h.slot_inj e' e _ hidx' hidx)

/-- Moving an element ends its iteration. -/
theorem Listing.move (hpc : s.pc e = .move positive) :
    Listing threshold limit N x z₀ slot
      (({ s with
          x := Function.update s.x e
            (if positive then s.x e - threshold else s.x e + threshold) } : Shared).goto e
        .done) := by
  have hat := h.iteration e
  rw [hpc] at hat
  obtain ⟨hv, hpositive, idx, hidx, hlt, hentry⟩ := hat
  refine ⟨h.owned, h.slot_lt, h.slot_inj, h.slot_large, h.four_le, h.full_of_flag, h.frame, ?_⟩
  intro e'
  by_cases heq : e' = e
  · subst heq
    simp only [Shared.goto, Function.update_self]
    refine ⟨fun hnone => ?_, fun idx' hidx' _ => ?_, fun idx' hidx' hle => ?_⟩
    · rw [hidx] at hnone
      cases hnone
    · rw [hidx, Option.some.injEq] at hidx'
      subst hidx'
      refine ⟨hentry, ?_⟩
      rw [hv]
      simp [moved, hpositive]
    · rw [hidx, Option.some.injEq] at hidx'
      omega
  · simp only [Shared.goto, Function.update_of_ne heq]
    exact h.iteration e'

/-- Raising the flag says that a slot behind the list was captured. -/
theorem Listing.raise (hpc : s.pc e = .raise) :
    Listing threshold limit N x z₀ slot (({ s with flag := true } : Shared).goto e .done) := by
  have hat := h.iteration e
  rw [hpc] at hat
  obtain ⟨hv, idx, hidx, hle⟩ := hat
  have hfull : limit + 4 < s.cnt := Nat.lt_of_le_of_lt hle (h.slot_lt e idx hidx).2
  refine ⟨h.owned, h.slot_lt, h.slot_inj, h.slot_large, h.four_le, fun _ => hfull, h.frame, ?_⟩
  intro e'
  by_cases heq : e' = e
  · subst heq
    simp only [Shared.goto, Function.update_self]
    refine ⟨fun hnone => ?_, fun idx' hidx' hlt => ?_, fun _ _ _ => hv⟩
    · rw [hidx] at hnone
      cases hnone
    · rw [hidx, Option.some.injEq] at hidx'
      omega
  · simp only [Shared.goto, Function.update_of_ne heq]
    exact (h.iteration e').congr rfl (fun _ _ => rfl) fun _ => rfl

omit h

/-- Every step of every iteration keeps the list in order. -/
theorem Listing.step (hpos : 0 < threshold) (h : Listing threshold limit N x z₀ slot s)
    (he : e < N) :
    ∃ slot', Listing threshold limit N x z₀ slot' (convertStep threshold (limit + 4 : Int) s e) := by
  have hat := h.iteration e
  unfold convertStep
  cases hpc : s.pc e with
  | readFlag =>
      rw [hpc] at hat
      refine ⟨slot, h.goto ?_⟩
      cases hflag : s.flag with
      | true =>
          refine ⟨fun _ => ⟨hat.2, fun _ => rfl⟩, fun idx hidx => ?_, fun idx hidx => ?_⟩
          · rw [hat.1] at hidx
            cases hidx
          · rw [hat.1] at hidx
            cases hidx
      | false => exact hat
  | readValue =>
      rw [hpc] at hat
      obtain ⟨hnone, hv⟩ := hat
      refine ⟨slot, h.goto ?_⟩
      rw [hv]
      by_cases hup : threshold ≤ x e
      · rw [if_pos hup]
        exact ⟨hnone, rfl, hup.trans (le_abs_self _), by simp [hup]⟩
      · rw [if_neg hup]
        by_cases hdown : x e ≤ -threshold
        · rw [if_pos hdown]
          have hlarge : threshold ≤ |x e| := by
            rw [abs_of_neg (by linarith)]
            linarith
          exact ⟨hnone, rfl, hlarge, by simp [hup]⟩
        · rw [if_neg hdown]
          have hsmall : ¬ threshold ≤ |x e| := by
            rw [le_abs]
            rintro (h' | h')
            · exact hup h'
            · exact hdown (by linarith)
          refine ⟨fun _ => ⟨rfl, fun hlarge => absurd hlarge hsmall⟩, fun idx hidx => ?_,
            fun _ _ _ => rfl⟩
          rw [hnone] at hidx
          cases hidx
  | capture positive => exact ⟨_, h.capture he hpc⟩
  | store positive idx =>
      simp only
      by_cases hfull : (idx : Int) ≥ limit + 4
      · rw [if_pos hfull]
        rw [hpc] at hat
        exact ⟨slot, h.goto ⟨hat.2.1, idx, hat.1, by omega⟩⟩
      · rw [if_neg hfull]
        exact ⟨slot, h.store hpc (by omega)⟩
  | raise => exact ⟨slot, h.raise hpc⟩
  | move positive => exact ⟨slot, h.move hpc⟩
  | done => exact ⟨slot, h⟩

/-- Whatever the order of the steps, a run keeps the list in order. -/
theorem Listing.foldl (hpos : 0 < threshold) (h : Listing threshold limit N x z₀ slot s)
    {schedule : List Nat} (hschedule : ∀ e ∈ schedule, e < N) :
    ∃ slot', Listing threshold limit N x z₀ slot'
      (schedule.foldl (convertStep threshold (limit + 4 : Int)) s) := by
  induction schedule generalizing slot s with
  | nil => exact ⟨slot, h⟩
  | cons e schedule ih =>
      obtain ⟨slot', h'⟩ := h.step hpos (hschedule e List.mem_cons_self)
      exact ih h' fun e' he' => hschedule e' (List.mem_cons_of_mem _ he')

/-! ## Finished runs -/

/-- The large elements of the vector. -/
def largeCount (threshold : ℚ) (x : Nat → ℚ) (N : Nat) : Nat :=
  (List.range N).countP fun e => threshold ≤ |x e|

variable (h : Listing threshold limit N x z₀ slot s)

include h

/-- Once all iterations are over, the list is full: either the flag was raised, or every
large element has captured a slot. -/
theorem Listing.full (hlimit : limit ≤ largeCount threshold x N) (hdone : ∀ e < N, s.pc e = .done) :
    limit + 4 ≤ s.cnt := by
  cases hflag : s.flag with
  | true => exact (h.full_of_flag hflag).le
  | false =>
      have hslot : ∀ e, e < N → threshold ≤ |x e| → ∃ idx, slot e = some idx := by
        intro e he hlarge
        have hat := h.iteration e
        rw [hdone e he] at hat
        cases hcase : slot e with
        | none =>
            have hraised := (hat.1 hcase).2 hlarge
            rw [hflag] at hraised
            cases hraised
        | some idx => exact ⟨idx, rfl⟩
      let large := (List.range N).filter fun e => threshold ≤ |x e|
      have hmem : ∀ e ∈ large, e < N ∧ threshold ≤ |x e| := by
        intro e he
        rw [List.mem_filter, List.mem_range, decide_eq_true_eq] at he
        exact he
      have hnodup : (large.map fun e => (slot e).getD 0).Nodup := by
        apply List.Nodup.map_on _ (List.nodup_range.filter _)
        intro e he e' he' heq
        obtain ⟨idx, hidx⟩ := hslot e (hmem e he).1 (hmem e he).2
        obtain ⟨idx', hidx'⟩ := hslot e' (hmem e' he').1 (hmem e' he').2
        rw [hidx, hidx', Option.getD_some, Option.getD_some] at heq
        exact h.slot_inj e e' idx hidx (heq ▸ hidx')
      have hsubset : (large.map fun e => (slot e).getD 0) ⊆ List.range' 4 (s.cnt - 4) := by
        intro idx hidx
        obtain ⟨e, he, rfl⟩ := List.mem_map.mp hidx
        obtain ⟨idx, heq⟩ := hslot e (hmem e he).1 (hmem e he).2
        have hlt := h.slot_lt e idx heq
        rw [heq, Option.getD_some, List.mem_range'_1]
        omega
      have hle := (hnodup.subperm hsubset).length_le
      rw [List.length_map, List.length_range', ← List.countP_eq_length_filter] at hle
      have hfour := h.four_le
      rw [largeCount] at hlimit
      omega

/-- Each slot of the finished list holds the entry of an element of its own. -/
theorem Listing.owner (hlimit : limit ≤ largeCount threshold x N) (hdone : ∀ e < N, s.pc e = .done)
    {i : Nat} (hle : 4 ≤ i) (hlt : i < limit + 4) :
    ∃ e, slot e = some i ∧ e < N ∧ threshold ≤ |x e| ∧ s.z i = entry threshold x e ∧
      s.x e = moved threshold (x e) := by
  have hfull := h.full hlimit hdone
  obtain ⟨e, he⟩ := h.owned i hle (by omega)
  obtain ⟨hN, hlarge⟩ := h.slot_large e i he
  have hat := h.iteration e
  rw [hdone e hN] at hat
  obtain ⟨hentry, hmoved⟩ := hat.2.1 i he hlt
  exact ⟨e, he, hN, hlarge, hentry, hmoved⟩

/-- An element that owns no slot of the list is as it was. -/
theorem Listing.unchanged (hdone : ∀ e < N, s.pc e = .done)
    (hfree : ∀ i, 4 ≤ i → i < limit + 4 → slot e ≠ some i) (hN : e < N) : s.x e = x e := by
  have hat := h.iteration e
  rw [hdone e hN] at hat
  cases hslot : slot e with
  | none => exact (hat.1 hslot).1
  | some idx =>
      have hle := (h.slot_lt e idx hslot).1
      apply hat.2.2 idx hslot
      by_contra hlt
      exact hfree idx hle (by omega) hslot

omit h

theorem abs_entry (e : Nat) : |entry threshold x e| = e + 1 := by
  unfold entry
  split
  · exact abs_of_nonneg (by omega)
  · rw [abs_of_neg (by omega)]
    ring

/-- The decoder adds for an entry what encoding took from its element. -/
theorem amount_entry (e : Nat) :
    (if entry threshold x e > 0 then threshold else -threshold) = x e - moved threshold (x e) := by
  unfold entry moved
  by_cases hup : threshold ≤ x e
  · have hpositive : (e : Int) + 1 > 0 := by omega
    simp [hup, hpositive]
  · have hnegative : ¬ -(e : Int) - 1 > 0 := by omega
    rw [if_neg hup, if_neg hup, if_neg hnegative]
    ring

end Iterations

/-! ## Decoding -/

section Order

variable {threshold : ℚ} {x : Nat → Int}

/-- Entries of other elements leave a position alone. -/
theorem foldl_decodeEntry_of_ne {order : List Nat} {e : Nat}
    (hne : ∀ i ∈ order, (|x i| - 1).toNat ≠ e) (d : Nat → ℚ) :
    order.foldl (decodeEntry threshold x) d e = d e := by
  induction order generalizing d with
  | nil => rfl
  | cons i order ih =>
      rw [List.foldl_cons, ih fun j hj => hne j (List.mem_cons_of_mem _ hj)]
      exact Function.update_of_ne (hne i List.mem_cons_self).symm _ _

/-- The only entry of an element adds to it, wherever it stands in the order. -/
theorem foldl_decodeEntry_of_mem {order : List Nat} {i : Nat} (hi : i ∈ order)
    (hdistinct : order.Pairwise fun i j => (|x i| - 1).toNat ≠ (|x j| - 1).toNat) (d : Nat → ℚ) :
    order.foldl (decodeEntry threshold x) d (|x i| - 1).toNat =
      d (|x i| - 1).toNat + if x i > 0 then threshold else -threshold := by
  induction order generalizing d with
  | nil => cases hi
  | cons j order ih =>
      rw [List.pairwise_cons] at hdistinct
      rw [List.foldl_cons]
      rcases List.mem_cons.mp hi with rfl | hi
      · rw [foldl_decodeEntry_of_ne fun k hk => (hdistinct.1 k hk).symm]
        exact Function.update_self _ _ _
      · rw [ih hi hdistinct.2]
        congr 1
        exact Function.update_of_ne (hdistinct.1 i hi).symm _ _

end Order

/-! ## Termination -/

/-- The steps an iteration may still have to make. -/
def Pc.stepsLeft : Pc → Nat
  | .readFlag => 5
  | .readValue => 4
  | .capture _ => 3
  | .store _ _ => 2
  | .raise => 1
  | .move _ => 1
  | .done => 0

/-- A step brings its own iteration nearer to the end. -/
theorem stepsLeft_convertStep_self (threshold : ℚ) (flimit : Int) (s : Shared) (e : Nat) :
    ((convertStep threshold flimit s e).pc e).stepsLeft ≤ (s.pc e).stepsLeft - 1 := by
  unfold convertStep
  cases hpc : s.pc e with
  | readFlag => cases hflag : s.flag <;> simp [Shared.goto, Pc.stepsLeft]
  | readValue =>
      simp only [Shared.goto, Function.update_self]
      split
      · exact le_refl _
      · split
        · exact le_refl _
        · exact Nat.zero_le _
  | capture positive => simp [Shared.goto, Pc.stepsLeft]
  | store positive idx =>
      simp only
      split
      · simp [Shared.goto, Pc.stepsLeft]
      · simp [Shared.goto, Pc.stepsLeft]
  | raise => simp [Shared.goto, Pc.stepsLeft]
  | move positive => simp [Shared.goto, Pc.stepsLeft]
  | done => simp [hpc, Pc.stepsLeft]

variable {e : Nat}

/-- A step leaves the other iterations where they are. -/
theorem pc_convertStep_of_ne (threshold : ℚ) (flimit : Int) (s : Shared) {e' : Nat} (hne : e' ≠ e) :
    (convertStep threshold flimit s e).pc e' = s.pc e' := by
  unfold convertStep
  cases s.pc e with
  | store positive idx =>
      simp only
      split
      · exact Function.update_of_ne hne _ _
      · exact Function.update_of_ne hne _ _
  | done => rfl
  | readFlag => exact Function.update_of_ne hne _ _
  | readValue => exact Function.update_of_ne hne _ _
  | capture positive => exact Function.update_of_ne hne _ _
  | raise => exact Function.update_of_ne hne _ _
  | move positive => exact Function.update_of_ne hne _ _

theorem stepsLeft_foldl (threshold : ℚ) (flimit : Int) (schedule : List Nat) (s : Shared) (e : Nat) :
    ((schedule.foldl (convertStep threshold flimit) s).pc e).stepsLeft ≤
      (s.pc e).stepsLeft - schedule.count e := by
  induction schedule generalizing s with
  | nil => simp
  | cons e' schedule ih =>
      refine (ih _).trans ?_
      by_cases heq : e' = e
      · subst heq
        have hself := stepsLeft_convertStep_self threshold flimit s e'
        rw [List.count_cons_self]
        omega
      · rw [pc_convertStep_of_ne threshold flimit s (Ne.symm heq), List.count_cons_of_ne heq]

theorem Pc.eq_done_of_stepsLeft {pc : Pc} (h : pc.stepsLeft = 0) : pc = .done := by
  cases pc with
  | done => rfl
  | _ => simp [Pc.stepsLeft] at h

/-- An iteration is over after five of its steps. -/
theorem finished_of_count (threshold : ℚ) (flimit : Int) {schedule : List Nat} (s : Shared)
    (hcount : 5 ≤ schedule.count e) :
    (schedule.foldl (convertStep threshold flimit) s).pc e = .done := by
  have hle := stepsLeft_foldl threshold flimit schedule s e
  have hstart : (s.pc e).stepsLeft ≤ 5 := by cases s.pc e <;> simp [Pc.stepsLeft]
  exact Pc.eq_done_of_stepsLeft (by omega)

/-! ## The round trip -/

/-- What a finished run leaves: a full list of distinct elements, moved towards zero, and
nothing else changed, so that decoding gives back what encoding took. -/
structure ThresholdInverse (x : Nat → ℚ) (N : Nat) (z : Nat → Int) (limit : Nat) (threshold : ℚ)
    (s : Shared) : Prop where
  frame : ∀ i, i < 4 ∨ limit + 4 ≤ i → s.z i = if i = 1 then (N : Int) else z i
  indexes : ∀ i, 4 ≤ i → i < limit + 4 → 1 ≤ |s.z i| ∧ |s.z i| ≤ N
  distinct : ∀ i j, 4 ≤ i → i < limit + 4 → 4 ≤ j → j < limit + 4 → |s.z i| = |s.z j| → i = j
  moves : ∀ i e, 4 ≤ i → i < limit + 4 → |s.z i| = ((e : Nat) : Int) + 1 →
    threshold ≤ |x e| ∧ s.x e = if 0 < x e then x e - threshold else x e + threshold
  rest : ∀ e : Nat, (∀ i, 4 ≤ i → i < limit + 4 → |s.z i| ≠ (e : Int) + 1) → s.x e = x e
  decodes : ∀ order : List Nat, order.Perm (List.range' 4 limit) → ∀ d : Nat → ℚ,
    ∃ d', convertFromThreshold s.z d order = some d' ∧ ∀ e, d' e = d e + (x e - s.x e)

/-- Steps of iterations below `N` leave elements from there on alone. -/
theorem x_foldl_of_ge (threshold : ℚ) (flimit : Int) {schedule : List Nat} {N : Nat}
    (hschedule : ∀ e ∈ schedule, e < N) (s : Shared) (he : N ≤ e) :
    (schedule.foldl (convertStep threshold flimit) s).x e = s.x e := by
  induction schedule generalizing s with
  | nil => rfl
  | cons e' schedule ih =>
      rw [List.foldl_cons, ih fun k hk => hschedule k (List.mem_cons_of_mem _ hk)]
      have hne : e ≠ e' := by
        have hlt := hschedule e' List.mem_cons_self
        omega
      unfold convertStep
      cases s.pc e' with
      | move positive => exact Function.update_of_ne hne _ _
      | store positive idx =>
          simp only
          split
          · rfl
          · rfl
      | _ => rfl

/-- A finished list is the inverse of its decoding. -/
theorem Listing.thresholdInverse {threshold : ℚ} {limit N : Nat} {x : Nat → ℚ} {z : Nat → Int}
    {slot : Nat → Option Nat} {s : Shared} (hpos : 0 < threshold)
    (hbits : floatOfBits (BitVec.ofInt 32 (z 2)) = some threshold)
    (h : Listing threshold limit N x (Function.update z 1 (N : Int)) slot s)
    (hlimit : limit ≤ largeCount threshold x N) (hdone : ∀ e < N, s.pc e = .done)
    (hbeyond : ∀ e, N ≤ e → s.x e = x e) : ThresholdInverse x N z limit threshold s := by
  have howner : ∀ i, 4 ≤ i → i < limit + 4 → ∃ e, slot e = some i ∧ e < N ∧ threshold ≤ |x e| ∧
      s.z i = entry threshold x e ∧ s.x e = moved threshold (x e) :=
    fun i hle hlt => h.owner hlimit hdone hle hlt
  have hframe : ∀ i, i < 4 ∨ limit + 4 ≤ i → s.z i = if i = 1 then (N : Int) else z i := by
    intro i hi
    rw [h.frame i hi, Function.update_apply]
  have hdistinct : ∀ i j, 4 ≤ i → i < limit + 4 → 4 ≤ j → j < limit + 4 → |s.z i| = |s.z j| →
      i = j := by
    intro i j hi hi' hj hj' heq
    obtain ⟨e, he, -, -, hentry, -⟩ := howner i hi hi'
    obtain ⟨e', he', -, -, hentry', -⟩ := howner j hj hj'
    rw [hentry, hentry', abs_entry, abs_entry] at heq
    have hsame : e = e' := by omega
    subst hsame
    rw [he, Option.some.injEq] at he'
    exact he'
  have hrest : ∀ e : Nat, (∀ i, 4 ≤ i → i < limit + 4 → |s.z i| ≠ (e : Int) + 1) → s.x e = x e := by
    intro e hfree
    by_cases hN : e < N
    · apply h.unchanged hdone _ hN
      intro i hle hlt hslot
      obtain ⟨e', he', -, -, hentry, -⟩ := howner i hle hlt
      have hsame := h.slot_inj e e' i hslot he'
      subst hsame
      apply hfree i hle hlt
      rw [hentry, abs_entry]
    · exact hbeyond e (Nat.not_lt.mp hN)
  refine ⟨hframe, ?_, hdistinct, ?_, hrest, ?_⟩
  · intro i hle hlt
    obtain ⟨e, -, hN, -, hentry, -⟩ := howner i hle hlt
    rw [hentry, abs_entry]
    omega
  · intro i e hle hlt hindex
    obtain ⟨e', -, -, hlarge, hentry, hmoved⟩ := howner i hle hlt
    rw [hentry, abs_entry] at hindex
    have hsame : e' = e := by omega
    subst hsame
    refine ⟨hlarge, ?_⟩
    rw [hmoved, moved]
    by_cases hup : threshold ≤ x e'
    · rw [if_pos hup, if_pos (lt_of_lt_of_le hpos hup)]
    · have hneg : ¬ 0 < x e' := by
        intro hpositive
        rw [abs_of_pos hpositive] at hlarge
        exact hup hlarge
      rw [if_neg hup, if_neg hneg]
  · intro order hperm d
    have hheader : floatOfBits (BitVec.ofInt 32 (s.z 2)) = some threshold := by
      rw [hframe 2 (Or.inl (by decide))]
      exact hbits
    have hmem : ∀ i ∈ order, 4 ≤ i ∧ i < limit + 4 := by
      intro i hi
      have hrange := List.mem_range'_1.mp (hperm.mem_iff.mp hi)
      omega
    have htarget : ∀ i ∈ order, ∃ e, (|s.z i| - 1).toNat = e ∧ s.z i = entry threshold x e ∧
        s.x e = moved threshold (x e) := by
      intro i hi
      obtain ⟨e, -, -, -, hentry, hmoved⟩ := howner i (hmem i hi).1 (hmem i hi).2
      refine ⟨e, ?_, hentry, hmoved⟩
      rw [hentry, abs_entry]
      omega
    have hpairwise : order.Pairwise fun i j => (|s.z i| - 1).toNat ≠ (|s.z j| - 1).toNat := by
      have hnodup : order.Nodup := hperm.nodup_iff.mpr List.nodup_range'
      apply List.Pairwise.imp_of_mem _ hnodup
      intro i j hi hj hne heq
      obtain ⟨e, he, hentry, -⟩ := htarget i hi
      obtain ⟨e', he', hentry', -⟩ := htarget j hj
      have hsame : e = e' := he.symm.trans (heq.trans he')
      apply hne
      apply hdistinct i j (hmem i hi).1 (hmem i hi).2 (hmem j hj).1 (hmem j hj).2
      rw [hentry, hentry', hsame]
    refine ⟨order.foldl (decodeEntry threshold s.z) d, ?_, fun e => ?_⟩
    · rw [convertFromThreshold, hheader]
      rfl
    · by_cases hlisted : ∃ i ∈ order, (|s.z i| - 1).toNat = e
      · obtain ⟨i, hi, rfl⟩ := hlisted
        obtain ⟨e, he, hentry, hmoved⟩ := htarget i hi
        rw [foldl_decodeEntry_of_mem hi hpairwise, he, hentry, amount_entry, hmoved]
      · have hne : ∀ i ∈ order, (|s.z i| - 1).toNat ≠ e := fun i hi heq => hlisted ⟨i, hi, heq⟩
        have hsame : s.x e = x e := by
          apply hrest e
          intro i hle hlt hindex
          have hi : i ∈ order := hperm.mem_iff.mpr (List.mem_range'_1.mpr (by omega))
          apply hne i hi
          rw [hindex]
          omega
        rw [foldl_decodeEntry_of_ne hne, hsame, sub_self, add_zero]

/-- Every run of the encoder ends, and however its iterations interleave, the list is
full, its elements are distinct and moved towards zero, and decoding it in any order gives
back what encoding took from the vector. -/
theorem convertToThreshold_inverse {threshold : ℚ} (x : Nat → ℚ) (N : Nat) (z : Nat → Int)
    {limit : Nat} (hlimitSlot : z 0 = limit) (hpos : 0 < threshold)
    (hbits : floatOfBits (BitVec.ofInt 32 (z 2)) = some threshold)
    (hlimit : limit ≤ largeCount threshold x N) {schedule : List Nat}
    (hschedule : ∀ e ∈ schedule, e < N) :
    ∃ s, convertToThreshold x N z schedule = some s ∧
      (∀ e, 5 ≤ schedule.count e → s.pc e = .done) ∧
      ((∀ e < N, s.pc e = .done) → ThresholdInverse x N z limit threshold s) := by
  have hrun : convertToThreshold x N z schedule =
      some (schedule.foldl (convertStep threshold (limit + 4 : Int))
        ⟨x, Function.update z 1 (N : Int), 4, false, fun _ => .readFlag⟩) := by
    rw [convertToThreshold, hbits, hlimitSlot]
    rfl
  have hstart : Listing threshold limit N x (Function.update z 1 (N : Int)) (fun _ => none)
      ⟨x, Function.update z 1 (N : Int), 4, false, fun _ => .readFlag⟩ :=
    listing_start _ N
  obtain ⟨slot, hlisting⟩ := hstart.foldl hpos hschedule
  refine ⟨_, hrun, fun e hcount => finished_of_count threshold _ _ hcount, fun hdone => ?_⟩
  exact hlisting.thresholdInverse hpos hbits hlimit hdone fun e he =>
    x_foldl_of_ge threshold _ hschedule _ he

/-- Two large elements. -/
def ramp (e : Nat) : ℚ :=
  e - 3

/-- A list of one entry with threshold one. -/
def unitList (i : Nat) : Int :=
  if i = 2 then 0x3F800000 else 1

/-- Two iterations in lockstep compete for one slot. -/
theorem convertToThreshold_inverse_lockstep :
    ∃ s, convertToThreshold ramp 2 unitList [0, 1, 0, 1, 0, 1, 0, 1, 0, 1] = some s ∧
      (∀ e, 5 ≤ [0, 1, 0, 1, 0, 1, 0, 1, 0, 1].count e → s.pc e = .done) ∧
      ((∀ e < 2, s.pc e = .done) → ThresholdInverse ramp 2 unitList 1 1 s) := by
  have hlarge : 1 ≤ largeCount 1 ramp 2 := by
    simp only [largeCount, List.range_succ, List.range_zero, List.nil_append, List.cons_append,
      List.countP_cons, List.countP_nil, ramp]
    norm_num
  have hbits : floatOfBits (BitVec.ofInt 32 (unitList 2)) = some 1 := by
    have hword : BitVec.ofInt 32 (unitList 2) = 0x3F800000#32 := by decide
    rw [hword]
    exact floatOfBits_one
  exact convertToThreshold_inverse ramp 2 unitList rfl one_pos hbits hlarge (by decide)

end Encoding
end LibND4J
