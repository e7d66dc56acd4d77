import LibND4J.Library.Runs
import LibND4J.Random.RandomBuffer
import Mathlib.Data.Int.Order.Lemmas
import Mathlib.Tactic.Linarith

/-!
# Integers below a bound

`nextInt(to)` draws a word, cuts it down to an `int` and takes its absolute value, which one
word does not have.  A power of two scales the draw by a shift; any other bound takes the remainder,
and draws again where the draw lies in an incomplete last block.  `nextInt(from, to)` takes the
difference as its bound, which wraps around if the interval is long.

The function multiplies a word by the generation, which the call that it multiplies may change;
`generationFirst` tells which of the two the compiler evaluates first.

Main results:

- Theorem `forall_rejectLoop_iff`: what the loop returns, in terms of the words drawn.
- Theorem `range_iff`: when the integers lie in the range asked for.
- Theorem `not_range_always`: the word that has no absolute value.
- Theorem `rewindH_eq_iterate`: winding a buffer forward is as many single steps.
-/

namespace LibND4J
namespace Random
namespace RandomBuffer

/-! ## The functions -/

/-- `getNextIndex`: the buffer afterwards, whose position is the index. -/
def getNextIndex (rb : RandomBuffer) : RandomBuffer :=
  if rb.currentPosition + 1 ≥ rb.size then
    { rb with currentPosition := 0, generation := rb.generation + 1 }
  else
    { rb with currentPosition := rb.currentPosition + 1 }

def getNextElement (generationFirst : Bool) (rb : RandomBuffer) : UInt64 × RandomBuffer :=
  let next := rb.getNextIndex
  if rb.generation = 1 then
    (rb.buffer next.currentPosition, next)
  else
    let generation := if generationFirst then rb.generation else next.generation
    (rb.buffer next.currentPosition * UInt64.ofNat generation, next)

def nextUInt (generationFirst : Bool) (rb : RandomBuffer) : UInt64 × RandomBuffer :=
  rb.getNextElement generationFirst

/-- `nextInt()`. -/
def nextInt (generationFirst : Bool) (rb : RandomBuffer) : Int32 × RandomBuffer :=
  let (u, rb) := rb.nextUInt generationFirst
  let r := u.toUInt32.toInt32
  (if r < 0 then -1 * r else r, rb)

/-- The rejection loop of `nextInt(to)`. -/
def rejectLoop (generationFirst : Bool) (bound m : Int32) :
    Nat → Int32 → RandomBuffer → Option (Int32 × RandomBuffer)
  | 0, _, _ => none
  | fuel + 1, u, rb =>
      let r := u % bound
      if u - r + m < 0 then
        let (u, rb) := rb.nextInt generationFirst
        rejectLoop generationFirst bound m fuel u rb
      else
        some (r, rb)

/-- `nextInt(to)`; the fuel bounds the draws. -/
def nextIntTo (generationFirst : Bool) (fuel : Nat) (rb : RandomBuffer) (bound : Int32) :
    Option (Int32 × RandomBuffer) :=
  let (r, rb) := rb.nextInt generationFirst
  let m := bound - 1
  if bound &&& m = 0 then
    some (((bound.toInt64 * r.toInt64) >>> 31).toInt32, rb)
  else
    rejectLoop generationFirst bound m fuel r rb

/-- `nextInt(from, to)`. -/
def nextIntFromTo (generationFirst : Bool) (fuel : Nat) (rb : RandomBuffer) (first bound : Int32) :
    Option (Int32 × RandomBuffer) :=
  if first = 0 then
    rb.nextIntTo generationFirst fuel bound
  else
    (rb.nextIntTo generationFirst fuel (bound - first)).map fun out => (first + out.1, out.2)

/-! ## The draws -/

/-- The lower half of the words that are drawn one after the other. -/
def word (generationFirst : Bool) (rb : RandomBuffer) : Nat → UInt32
  | 0 => (rb.nextUInt generationFirst).1.toUInt32
  | k + 1 => word generationFirst (rb.nextUInt generationFirst).2 k

/-- What is drawn with a word: its absolute value. -/
def draw (w : UInt32) : Int32 :=
  let r := w.toInt32
  if r < 0 then -1 * r else r

theorem nextInt_eq (generationFirst : Bool) (rb : RandomBuffer) :
    rb.nextInt generationFirst =
      (draw (rb.word generationFirst 0), (rb.nextUInt generationFirst).2) :=
  rfl

/-- The word without an absolute value. -/
def smallestWord : UInt32 :=
  0x80000000

theorem toInt_smallestWord : smallestWord.toInt32.toInt = -2 ^ 31 := by
  decide

/-- A draw is not negative, but for one word. -/
theorem toInt_draw (w : UInt32) :
    (w ≠ smallestWord → 0 ≤ (draw w).toInt) ∧ (w = smallestWord → (draw w).toInt = -2 ^ 31) := by
  constructor
  · intro hw
    have hne : w.toInt32.toInt ≠ -2 ^ 31 := by
      intro heq
      rw [← toInt_smallestWord, Int32.toInt_inj] at heq
      exact hw (by simpa using congrArg Int32.toUInt32 heq)
    have hge := w.toInt32.le_toInt
    rw [draw]
    simp only [Int32.lt_iff_toInt_lt, Int32.toInt_zero]
    split
    · rename_i hneg
      rw [Int32.toInt_mul, show (-1 : Int32).toInt = -1 from rfl, Int.bmod]
      omega
    · omega
  · rintro rfl
    decide

theorem draw_eq_zero_iff (w : UInt32) : (draw w).toInt = 0 ↔ w = 0 := by
  constructor
  · intro hzero
    have hw : w.toInt32.toInt = 0 := by
      have hge := w.toInt32.le_toInt
      have hlt := w.toInt32.toInt_lt
      rw [draw] at hzero
      simp only [Int32.lt_iff_toInt_lt, Int32.toInt_zero] at hzero
      split at hzero
      · rw [Int32.toInt_mul, show (-1 : Int32).toInt = -1 from rfl, Int.bmod] at hzero
        omega
      · exact hzero
    rw [← Int32.toInt_zero, Int32.toInt_inj] at hw
    have hword := congrArg Int32.toUInt32 hw
    rwa [UInt32.toUInt32_toInt32] at hword
  · rintro rfl
    rfl

/-- A draw that is not taken. -/
def Rejects (bound u : Int32) : Prop :=
  u - u % bound + (bound - 1) < 0

variable {bound : Int32} {rb : RandomBuffer} {P : Int32 → Prop}

/-- The loop returns the remainder of the first draw that is not rejected. -/
theorem rejectLoop_eq_some_iff (generationFirst : Bool) {r : Int32} {fuel : Nat} :
    (∃ rb', rejectLoop generationFirst bound (bound - 1) fuel
        (draw (rb.word generationFirst 0)) (rb.nextUInt generationFirst).2 = some (r, rb')) ↔
      ∃ k < fuel, (∀ j < k, Rejects bound (draw (rb.word generationFirst j))) ∧
        ¬ Rejects bound (draw (rb.word generationFirst k)) ∧
        draw (rb.word generationFirst k) % bound = r := by
  induction fuel generalizing rb with
  | zero => simp [rejectLoop]
  | succ fuel ih =>
      rw [rejectLoop]
      by_cases hfirst : Rejects bound (draw (rb.word generationFirst 0))
      · simp only [if_pos (show _ < (0 : Int32) from hfirst), nextInt_eq]
        rw [ih]
        constructor
        · rintro ⟨k, hk, hbefore, htaken, hr⟩
          refine ⟨k + 1, Nat.succ_lt_succ hk, fun j hj => ?_, htaken, hr⟩
          cases j with
          | zero => exact hfirst
          | succ j => exact hbefore j (Nat.lt_of_succ_lt_succ hj)
        · rintro ⟨k, hk, hbefore, htaken, hr⟩
          cases k with
          | zero => exact absurd hfirst htaken
          | succ k =>
              exact ⟨k, Nat.lt_of_succ_lt_succ hk,
                fun j hj => hbefore (j + 1) (Nat.succ_lt_succ hj), htaken, hr⟩
      · simp only [if_neg (show ¬ _ < (0 : Int32) from hfirst), Option.some.injEq, Prod.mk.injEq]
        constructor
        · rintro ⟨rb', hr, -⟩
          exact ⟨0, Nat.succ_pos fuel, fun j hj => absurd hj (Nat.not_lt_zero j), hfirst, hr⟩
        · rintro ⟨k, -, hbefore, -, hr⟩
          cases k with
          | zero => exact ⟨_, hr, rfl⟩
          | succ k => exact absurd (hbefore 0 (Nat.succ_pos k)) hfirst

/-- What holds of everything that the loop returns. -/
theorem forall_rejectLoop_iff (generationFirst : Bool) :
    (∀ fuel r rb', rejectLoop generationFirst bound (bound - 1) fuel
        (draw (rb.word generationFirst 0)) (rb.nextUInt generationFirst).2 = some (r, rb') → P r) ↔
      ∀ k, (∀ j < k, Rejects bound (draw (rb.word generationFirst j))) →
        ¬ Rejects bound (draw (rb.word generationFirst k)) →
          P (draw (rb.word generationFirst k) % bound) := by
  constructor
  · intro h k hbefore htaken
    obtain ⟨rb', hrun⟩ := (rejectLoop_eq_some_iff generationFirst).mpr
      ⟨k, Nat.lt_succ_self k, hbefore, htaken, rfl⟩
    exact h _ _ _ hrun
  · intro h fuel r rb' hrun
    obtain ⟨k, -, hbefore, htaken, rfl⟩ := (rejectLoop_eq_some_iff generationFirst).mp ⟨rb', hrun⟩
    exact h k hbefore htaken

/-! ## Bounds -/

theorem toInt_eq_bmod (bound : Int32) :
    bound.toInt = (bound.toUInt32.toNat : Int).bmod (2 ^ 32) :=
  BitVec.toInt_eq_toNat_bmod bound.toBitVec

/-- A bound that is not zero is scaled by a shift if it is a power of two as a word. -/
theorem and_sub_one_eq_zero_iff (hne : bound ≠ 0) :
    bound &&& (bound - 1) = 0 ↔ ∃ k, bound.toUInt32.toNat = 2 ^ k := by
  have hnat : bound.toUInt32.toNat ≠ 0 := by
    intro hzero
    have hword : bound.toUInt32 = 0 := UInt32.toNat_inj.mp hzero
    exact hne (by simpa using congrArg UInt32.toInt32 hword)
  have hone : (1 : UInt32) ≤ bound.toUInt32 :=
    UInt32.le_iff_toNat_le.mpr (Nat.one_le_iff_ne_zero.mpr hnat)
  have hsub : (bound - 1).toUInt32.toNat = bound.toUInt32.toNat - 1 := by
    rw [Int32.toUInt32_sub]
    exact UInt32.toNat_sub_of_le _ _ hone
  rw [← Nat.isPowerOfTwo, ← Nat.and_sub_one_eq_zero_iff_isPowerOfTwo hnat, ← hsub,
    ← UInt32.toNat_and, ← Int32.toUInt32_and]
  constructor
  · intro hzero
    rw [hzero]
    rfl
  · intro hzero
    have hword : (bound &&& (bound - 1)).toUInt32 = 0 := UInt32.toNat_inj.mp hzero
    simpa using congrArg UInt32.toInt32 hword

theorem and_sub_one_of_pos (hpos : 0 < bound.toInt) :
    bound &&& (bound - 1) = 0 ↔ ∃ k : Nat, bound.toInt = 2 ^ k := by
  have hne : bound ≠ 0 := by
    rintro rfl
    exact absurd hpos (Int.lt_irrefl 0)
  have hnat : bound.toInt = bound.toUInt32.toNat := by
    have hbmod := toInt_eq_bmod bound
    have hlt := bound.toUInt32.toNat_lt
    rw [Int.bmod] at hbmod
    omega
  rw [and_sub_one_eq_zero_iff hne, hnat]
  exact exists_congr fun k => by norm_cast

theorem and_sub_one_of_neg (hneg : bound.toInt < 0) :
    bound &&& (bound - 1) = 0 ↔ bound.toInt = -2 ^ 31 := by
  have hne : bound ≠ 0 := by
    rintro rfl
    exact absurd hneg (Int.lt_irrefl 0)
  have hbmod := toInt_eq_bmod bound
  have hlt := bound.toUInt32.toNat_lt
  rw [Int.bmod] at hbmod
  rw [and_sub_one_eq_zero_iff hne]
  constructor
  · rintro ⟨k, hk⟩
    have hupper : k < 32 := (Nat.pow_lt_pow_iff_right (by decide)).mp (hk ▸ hlt)
    have hlower : 31 ≤ k := by
      by_contra hk31
      have hle : 2 ^ k ≤ 2 ^ 30 := Nat.pow_le_pow_right (by decide) (by omega)
      omega
    have hk31 : k = 31 := by omega
    subst hk31
    omega
  · intro hsmallest
    exact ⟨31, by omega⟩

/-- What a bound that is scaled by a shift gives. -/
theorem toInt_scaled (bound r : Int32) :
    (((bound.toInt64 * r.toInt64) >>> 31).toInt32).toInt =
      (bound.toInt * r.toInt / 2 ^ 31).bmod (2 ^ 32) := by
  have hproduct : (bound.toInt64 * r.toInt64).toInt = bound.toInt * r.toInt := by
    have hbound := abs_le.mpr ⟨bound.le_toInt, bound.toInt_lt.le⟩
    have hr := abs_le.mpr ⟨r.le_toInt, r.toInt_lt.le⟩
    have habs : |bound.toInt * r.toInt| ≤ 2 ^ 31 * 2 ^ 31 := by
      rw [abs_mul]
      exact mul_le_mul hbound hr (abs_nonneg _) (by norm_num)
    obtain ⟨hge, hle⟩ := abs_le.mp habs
    rw [Int64.toInt_mul, Int32.toInt_toInt64, Int32.toInt_toInt64]
    exact Int.bmod_eq_of_le (by omega) (by omega)
  have hshift : ∀ x : Int64, (x >>> 31).toInt = x.toInt / 2 ^ 31 := by
    intro x
    rw [← Int64.toInt_toBitVec, Int64.toBitVec_shiftRight,
      show (Int64.toBitVec 31).smod 64 = 31#64 by decide, BitVec.sshiftRight',
      BitVec.toInt_sshiftRight, Int.shiftRight_eq_div_pow]
    rfl
  rw [Int64.toInt_toInt32, hshift, hproduct]

/-- With a positive bound the remainder of what is not rejected lies below it. -/
theorem range_of_taken {u : Int32} (hpos : 0 < bound.toInt) (hu : 0 ≤ u.toInt ∨ u.toInt = -2 ^ 31)
    (htaken : ¬ Rejects bound u) : 0 ≤ (u % bound).toInt ∧ (u % bound).toInt < bound.toInt := by
  rcases hu with hu | hu
  · rw [Int32.toInt_mod]
    exact ⟨Int.tmod_nonneg _ hu, Int.tmod_lt_of_pos _ hpos⟩
  · refine absurd ?_ htaken
    have hlt := bound.toInt_lt
    have hmod : (u % bound).toInt = -(2 ^ 31 % bound.toInt) := by
      rw [Int32.toInt_mod, hu, Int.neg_tmod, Int.tmod_eq_emod_of_nonneg (by norm_num)]
    have hdiv := Int.mul_ediv_add_emod (2 ^ 31) bound.toInt
    have hquotient : 1 ≤ 2 ^ 31 / bound.toInt := by
      rw [Int.le_ediv_iff_mul_le hpos]
      omega
    have hmul : bound.toInt * 1 ≤ bound.toInt * (2 ^ 31 / bound.toInt) :=
      mul_le_mul_of_nonneg_left hquotient hpos.le
    have hnonneg := Int.emod_nonneg (2 ^ 31) hpos.ne'
    rw [Rejects, Int32.lt_iff_toInt_lt, Int32.toInt_zero, Int32.toInt_add, Int32.toInt_sub,
      Int32.toInt_sub, Int32.toInt_one, hmod, hu]
    generalize bound.toInt * (2 ^ 31 / bound.toInt) = product at *
    generalize (2 : Int) ^ 31 % bound.toInt = rest at *
    simp only [Int.bmod]
    omega

section Gap

variable {bound u : Int32} {gap : Int}

/-- With a negative bound the draws of the first two blocks are rejected. -/
theorem rejects_of_gap (hbound : bound.toInt = -gap) (hpos : 0 < gap) (hlt : gap < 2 ^ 31)
    (hu : 0 ≤ u.toInt) : Rejects bound u ↔ u.toInt < 2 * gap := by
  have hmod : (u % bound).toInt = u.toInt % gap := by
    rw [Int32.toInt_mod, hbound, Int.tmod_neg, Int.tmod_eq_emod_of_nonneg hu]
  have hdiv := Int.mul_ediv_add_emod u.toInt gap
  have hle := u.toInt_lt
  have hnonneg := Int.emod_nonneg u.toInt hpos.ne'
  have hrest := Int.emod_lt_of_pos u.toInt hpos
  have hquotient := Int.ediv_nonneg hu hpos.le
  rw [Rejects, Int32.lt_iff_toInt_lt, Int32.toInt_zero, Int32.toInt_add, Int32.toInt_sub,
    Int32.toInt_sub, Int32.toInt_one, hmod, hbound]
  have hproduct : gap * (u.toInt / gap) ≤ gap ↔ u.toInt / gap ≤ 1 := by
    rw [mul_le_iff_le_one_right hpos]
  have hblocks : u.toInt / gap ≤ 1 ↔ u.toInt < 2 * gap := by
    rw [← Int.lt_add_one_iff, Int.ediv_lt_iff_lt_mul hpos]
    norm_num
  rw [← hblocks, ← hproduct]
  have hproductNonneg := mul_nonneg hpos.le hquotient
  generalize gap * (u.toInt / gap) = product at *
  generalize u.toInt % gap = rest at *
  simp only [Int.bmod]
  omega

/-- The word without an absolute value is taken. -/
theorem taken_of_gap (hbound : bound.toInt = -gap) (hpos : 0 < gap) (hlt : gap < 2 ^ 31)
    (hu : u.toInt = -2 ^ 31) : ¬ Rejects bound u := by
  have hmod : (u % bound).toInt = -(2 ^ 31 % gap) := by
    rw [Int32.toInt_mod, hbound, Int.tmod_neg, hu, Int.neg_tmod,
      Int.tmod_eq_emod_of_nonneg (by norm_num)]
  have hdiv := Int.mul_ediv_add_emod (2 ^ 31) gap
  have hnonneg := Int.emod_nonneg (2 ^ 31) hpos.ne'
  have hrest := Int.emod_lt_of_pos (2 ^ 31) hpos
  rw [Rejects, Int32.lt_iff_toInt_lt, Int32.toInt_zero, Int32.toInt_add, Int32.toInt_sub,
    Int32.toInt_sub, Int32.toInt_one, hmod, hbound, hu]
  generalize gap * (2 ^ 31 / gap) = product at *
  generalize (2 : Int) ^ 31 % gap = rest at *
  simp only [Int.bmod]
  omega

end Gap

/-! ## The range -/

/-- Whatever `nextInt(to)` returns lies in the range asked for. -/
def InRangeTo (generationFirst : Bool) (rb : RandomBuffer) (bound : Int32) : Prop :=
  ∀ fuel r rb', rb.nextIntTo generationFirst fuel bound = some (r, rb') → 0 ≤ r ∧ r < bound

/-- Whatever `nextInt(from, to)` returns lies in the range asked for. -/
def InRangeFromTo (generationFirst : Bool) (rb : RandomBuffer) (first bound : Int32) : Prop :=
  ∀ fuel r rb', rb.nextIntFromTo generationFirst fuel first bound = some (r, rb') →
    first ≤ r ∧ r < bound

/-- The words under which an interval of the given length is kept to. -/
def KeptBy (generationFirst : Bool) (rb : RandomBuffer) (length : Int) : Prop :=
  if length < 2 ^ 31 then
    (∃ k : Nat, length = 2 ^ k) → rb.word generationFirst 0 ≠ smallestWord
  else if length = 2 ^ 31 then
    rb.word generationFirst 0 = 0
  else
    (2 ^ 32 - length) ∣ 2 ^ 31 ∨
      ∀ k, (∀ j < k, rb.word generationFirst j ≠ smallestWord ∧
        (draw (rb.word generationFirst j)).toInt < 2 * (2 ^ 32 - length)) →
          rb.word generationFirst k ≠ smallestWord

/-- Starting at zero is nothing special. -/
theorem nextIntFromTo_eq (generationFirst : Bool) (fuel : Nat) (rb : RandomBuffer)
    (first bound : Int32) :
    rb.nextIntFromTo generationFirst fuel first bound =
      (rb.nextIntTo generationFirst fuel (bound - first)).map
        fun out => (first + out.1, out.2) := by
  rw [nextIntFromTo]
  split
  · rename_i hzero
    subst hzero
    have hid : (fun out : Int32 × RandomBuffer => ((0 : Int32) + out.1, out.2)) = id := by
      funext out
      simp
    rw [hid, Option.map_id, id, show bound - 0 = bound by simp]
  · rfl

/-- What holds of everything that is returned, for a bound that is scaled. -/
theorem forall_nextIntTo_of_power (generationFirst : Bool) (hpower : bound &&& (bound - 1) = 0) :
    (∀ fuel r rb', rb.nextIntTo generationFirst fuel bound = some (r, rb') → P r) ↔
      P ((bound.toInt64 * (draw (rb.word generationFirst 0)).toInt64) >>> 31).toInt32 := by
  simp only [nextIntTo, if_pos hpower, nextInt_eq, Option.some.injEq, Prod.mk.injEq]
  constructor
  · intro h
    exact h 0 _ _ ⟨rfl, rfl⟩
  · rintro h fuel r rb' ⟨rfl, -⟩
    exact h

/-- What holds of everything that is returned, for any other bound. -/
theorem forall_nextIntTo_of_not_power (generationFirst : Bool)
    (hpower : ¬ bound &&& (bound - 1) = 0) :
    (∀ fuel r rb', rb.nextIntTo generationFirst fuel bound = some (r, rb') → P r) ↔
      ∀ k, (∀ j < k, Rejects bound (draw (rb.word generationFirst j))) →
        ¬ Rejects bound (draw (rb.word generationFirst k)) →
          P (draw (rb.word generationFirst k) % bound) := by
  simp only [nextIntTo, if_neg hpower, nextInt_eq]
  exact forall_rejectLoop_iff generationFirst

/-- What an interval is offset by, wrapped around, lies below its length. -/
theorem inInterval_iff {first : Int32} (hlt : first.toInt < bound.toInt) (r : Int32) :
    first ≤ first + r ∧ first + r < bound ↔ r.toInt % 2 ^ 32 < bound.toInt - first.toInt := by
  have hfirst := first.le_toInt
  have hbound := bound.toInt_lt
  rw [Int32.le_iff_toInt_le, Int32.lt_iff_toInt_lt, Int32.toInt_add]
  simp only [Int.bmod]
  omega

section Interval

variable {bound : Int32} {length : Int} {generationFirst : Bool} {rb : RandomBuffer}

/-- A bound that fits is kept to, but for a power of two and the word without an absolute value. -/
theorem kept_of_short (hbound : bound.toInt = length) (hpos : 0 < length) :
    (∀ fuel r rb', rb.nextIntTo generationFirst fuel bound = some (r, rb') →
        r.toInt % 2 ^ 32 < length) ↔
      ((∃ k : Nat, length = 2 ^ k) → rb.word generationFirst 0 ≠ smallestWord) := by
  have hlt := bound.toInt_lt
  have hpower := and_sub_one_of_pos (hbound.symm ▸ hpos)
  rw [hbound] at hpower hlt
  by_cases hscaled : ∃ k : Nat, length = 2 ^ k
  · rw [forall_nextIntTo_of_power generationFirst (hpower.mpr hscaled) (P := fun r =>
      r.toInt % 2 ^ 32 < length), toInt_scaled, hbound, imp_iff_right hscaled]
    obtain ⟨hother, hsmallest⟩ := toInt_draw (rb.word generationFirst 0)
    by_cases hword : rb.word generationFirst 0 = smallestWord
    · refine iff_of_false ?_ (not_not.mpr hword)
      have hquotient : length * -2 ^ 31 / 2 ^ 31 = -length := by omega
      rw [hsmallest hword, hquotient, Int.bmod]
      omega
    · refine iff_of_true ?_ hword
      have hnonneg := hother hword
      have hdraw := (draw (rb.word generationFirst 0)).toInt_lt
      have hge : 0 ≤ length * (draw (rb.word generationFirst 0)).toInt / 2 ^ 31 :=
        Int.ediv_nonneg (mul_nonneg hpos.le hnonneg) (by norm_num)
      have hless : length * (draw (rb.word generationFirst 0)).toInt / 2 ^ 31 < length :=
        Int.ediv_lt_of_lt_mul (by norm_num) (mul_lt_mul_of_pos_left hdraw hpos)
      rw [Int.bmod]
      omega
  · rw [forall_nextIntTo_of_not_power generationFirst (fun h => hscaled (hpower.mp h))
      (P := fun r => r.toInt % 2 ^ 32 < length)]
    refine iff_of_true (fun k _ htaken => ?_) fun h => absurd h hscaled
    obtain ⟨hother, hsmallest⟩ := toInt_draw (rb.word generationFirst k)
    have hdraw : 0 ≤ (draw (rb.word generationFirst k)).toInt ∨
        (draw (rb.word generationFirst k)).toInt = -2 ^ 31 := by
      by_cases hword : rb.word generationFirst k = smallestWord
      · exact Or.inr (hsmallest hword)
      · exact Or.inl (hother hword)
    obtain ⟨hge, hless⟩ := range_of_taken (hbound.symm ▸ hpos) hdraw htaken
    omega

/-- The bound of an interval of half the words is scaled backwards. -/
theorem kept_of_half (hbound : bound.toInt = -2 ^ 31) :
    (∀ fuel r rb', rb.nextIntTo generationFirst fuel bound = some (r, rb') →
        r.toInt % 2 ^ 32 < 2 ^ 31) ↔ rb.word generationFirst 0 = 0 := by
  have hpower := (and_sub_one_of_neg (by omega)).mpr hbound
  obtain ⟨hother, hsmallest⟩ := toInt_draw (rb.word generationFirst 0)
  have hdraw := (draw (rb.word generationFirst 0)).toInt_lt
  rw [forall_nextIntTo_of_power generationFirst hpower (P := fun r => r.toInt % 2 ^ 32 < 2 ^ 31),
    toInt_scaled, hbound, ← draw_eq_zero_iff]
  have hquotient : -2 ^ 31 * (draw (rb.word generationFirst 0)).toInt / 2 ^ 31 =
      -(draw (rb.word generationFirst 0)).toInt := by omega
  rw [hquotient, Int.bmod]
  by_cases hword : rb.word generationFirst 0 = smallestWord
  · rw [hsmallest hword]
    decide
  · have hnonneg := hother hword
    omega

/-- The bound of a longer interval is negative.  What is taken from the third block on lies in the
interval, the word without an absolute value may not. -/
theorem kept_of_long {gap : Int} (hbound : bound.toInt = -gap) (hpos : 0 < gap)
    (hlt : gap < 2 ^ 31) :
    (∀ fuel r rb', rb.nextIntTo generationFirst fuel bound = some (r, rb') →
        r.toInt % 2 ^ 32 < 2 ^ 32 - gap) ↔
      gap ∣ 2 ^ 31 ∨ ∀ k, (∀ j < k, rb.word generationFirst j ≠ smallestWord ∧
        (draw (rb.word generationFirst j)).toInt < 2 * gap) →
          rb.word generationFirst k ≠ smallestWord := by
  have hpower : ¬ bound &&& (bound - 1) = 0 := by
    rw [and_sub_one_of_neg (by omega)]
    omega
  have hrejects : ∀ w, Rejects bound (draw w) ↔
      w ≠ smallestWord ∧ (draw w).toInt < 2 * gap := by
    intro w
    obtain ⟨hother, hsmallest⟩ := toInt_draw w
    by_cases hword : w = smallestWord
    · exact iff_of_false (taken_of_gap hbound hpos hlt (hsmallest hword))
        fun h => h.1 hword
    · rw [rejects_of_gap hbound hpos hlt (hother hword), and_iff_right hword]
  have hkept : ∀ w, ((draw w % bound).toInt % 2 ^ 32 < 2 ^ 32 - gap) ↔
      gap ∣ 2 ^ 31 ∨ w ≠ smallestWord := by
    intro w
    obtain ⟨hother, hsmallest⟩ := toInt_draw w
    have hbelow : ∀ v : Int, 0 ≤ v % gap ∧ v % gap < gap := fun v =>
      ⟨Int.emod_nonneg v hpos.ne', Int.emod_lt_of_pos v hpos⟩
    rw [Int32.toInt_mod, hbound, Int.tmod_neg]
    by_cases hword : w = smallestWord
    · have hrest := hbelow (2 ^ 31)
      rw [hsmallest hword, Int.neg_tmod, Int.tmod_eq_emod_of_nonneg (by norm_num),
        or_iff_left (not_not.mpr hword), Int.dvd_iff_emod_eq_zero]
      omega
    · have hrest := hbelow (draw w).toInt
      rw [Int.tmod_eq_emod_of_nonneg (hother hword)]
      exact iff_of_true (by omega) (Or.inr hword)
  rw [forall_nextIntTo_of_not_power generationFirst hpower
    (P := fun r => r.toInt % 2 ^ 32 < 2 ^ 32 - gap)]
  simp only [hrejects, hkept]
  constructor
  · intro h
    by_cases hdvd : gap ∣ 2 ^ 31
    · exact Or.inl hdvd
    · refine Or.inr fun k hbefore hword => ?_
      exact (h k hbefore fun hrejected => hrejected.1 hword).elim hdvd fun hne => hne hword
  · rintro (hdvd | h) k hbefore -
    · exact Or.inl hdvd
    · exact Or.inr (h k hbefore)

end Interval

/-- What is drawn from an interval lies in it exactly if the words allow for its length. -/
theorem inRangeFromTo_iff (generationFirst : Bool) (rb : RandomBuffer) {first : Int32}
    (hlt : first < bound) :
    InRangeFromTo generationFirst rb first bound ↔
      KeptBy generationFirst rb (bound.toInt - first.toInt) := by
  have hlt := Int32.lt_iff_toInt_lt.mp hlt
  have hfirst := first.le_toInt
  have hbound := bound.toInt_lt
  have hreturned : InRangeFromTo generationFirst rb first bound ↔
      ∀ fuel r rb', rb.nextIntTo generationFirst fuel (bound - first) = some (r, rb') →
        r.toInt % 2 ^ 32 < bound.toInt - first.toInt := by
    simp only [InRangeFromTo, nextIntFromTo_eq, Option.map_eq_some_iff, Prod.mk.injEq, Prod.exists]
    constructor
    · intro h fuel r rb' hrun
      exact (inInterval_iff hlt r).mp (h fuel _ _ ⟨r, rb', hrun, rfl, rfl⟩)
    · rintro h fuel _ _ ⟨r, rb', hrun, rfl, rfl⟩
      exact (inInterval_iff hlt r).mpr (h fuel r rb' hrun)
  have hlength : (bound - first).toInt = (bound.toInt - first.toInt).bmod (2 ^ 32) :=
    Int32.toInt_sub bound first
  have hpos : 0 < bound.toInt - first.toInt := Int.sub_pos_of_lt hlt
  have hless : bound.toInt - first.toInt < 2 ^ 32 := by omega
  rw [hreturned, KeptBy]
  generalize bound.toInt - first.toInt = length at *
  rw [Int.bmod] at hlength
  split
  · exact kept_of_short (by omega) (by omega)
  · split
    · rename_i hhalf
      rw [hhalf]
      exact kept_of_half (by omega)
    · have hsum : length = 2 ^ 32 - (2 ^ 32 - length) := by omega
      have hkept := @kept_of_long (bound - first) generationFirst rb (2 ^ 32 - length) (by omega)
        (by omega) (by omega)
      rwa [← hsum] at hkept

/-- What `nextInt` returns lies in the range asked for exactly if, for a power of two, the word
without an absolute value is not drawn, and for an interval, the words allow for its length. -/
theorem range_iff (generationFirst : Bool) (rb : RandomBuffer) :
    (∀ bound : Int32, 0 < bound → (InRangeTo generationFirst rb bound ↔
      ((∃ k : Nat, bound.toInt = 2 ^ k) → rb.word generationFirst 0 ≠ smallestWord))) ∧
    ∀ first bound : Int32, first < bound → (InRangeFromTo generationFirst rb first bound ↔
      KeptBy generationFirst rb (bound.toInt - first.toInt)) := by
  refine ⟨fun bound hpos => ?_, fun first bound hlt => inRangeFromTo_iff generationFirst rb hlt⟩
  have hzero : InRangeFromTo generationFirst rb 0 bound ↔ InRangeTo generationFirst rb bound := by
    simp only [InRangeFromTo, InRangeTo, nextIntFromTo, if_true]
  rw [← hzero, inRangeFromTo_iff generationFirst rb hpos, KeptBy, Int32.toInt_zero, sub_zero,
    if_pos bound.toInt_lt]

/-- A buffer that holds one word only. -/
def constant (w : UInt64) : RandomBuffer where
  size := 1
  buffer _ := w
  seed := 0
  currentPosition := 0
  generation := 1
  amplifier := 0

theorem range_iff_constant :
    InRangeTo true (constant 5) 8 ∧ InRangeFromTo true (constant 5) (-3) 4 := by
  obtain ⟨hto, hfromTo⟩ := range_iff true (constant 5)
  refine ⟨(hto 8 (by decide)).mpr fun _ => by decide, (hfromTo (-3) 4 (by decide)).mpr ?_⟩
  rw [KeptBy, if_pos (by decide)]
  exact fun _ => by decide

/-- The integers do not always lie in the range: one word has no absolute value. -/
theorem not_range_always :
    ¬ ∀ (rb : RandomBuffer) (bound : Int32), 0 < bound → InRangeTo true rb bound := by
  intro h
  have hrun : (constant 0x80000000).nextIntTo true 0 1 =
      some (-1, { constant 0x80000000 with generation := 2 }) := by
    rfl
  exact absurd (h _ 1 (by decide) 0 _ _ hrun).1 (by decide)

/-! ## Single steps -/

theorem getNextIndex_eq (rb : RandomBuffer) (hposition : rb.currentPosition < rb.size) :
    rb.getNextIndex = rb.rewindH 1 := by
  rw [getNextIndex, rewindH_eq (by omega)]
  by_cases hend : rb.currentPosition + 1 ≥ rb.size
  · have hlast : rb.currentPosition + 1 = rb.size := by omega
    rw [if_pos hend, hlast, Nat.div_self (by omega), Nat.mod_self]
  · have hlt : rb.currentPosition + 1 < rb.size := by omega
    rw [if_neg hend, Nat.div_eq_of_lt hlt, Nat.mod_eq_of_lt hlt]
    rfl

theorem position_lt_rewindH (rb : RandomBuffer) (hsize : 0 < rb.size) (n : Nat) :
    (rb.rewindH n).currentPosition < (rb.rewindH n).size := by
  rw [rewindH_eq hsize]
  exact Nat.mod_lt _ hsize

/-- Winding forward by one more element. -/
theorem rewindH_succ (rb : RandomBuffer) (hsize : 0 < rb.size) (n : Nat) :
    rb.rewindH (n + 1) = (rb.rewindH n).getNextIndex := by
  obtain ⟨hdiv, hmod⟩ := turn_split hsize rb.currentPosition n 1
  have hstay : 0 < (rb.rewindH n).size := by
    rw [rewindH_eq hsize]
    exact hsize
  rw [getNextIndex_eq _ (position_lt_rewindH rb hsize n), rewindH_eq hstay, rewindH_eq hsize,
    rewindH_eq hsize, hdiv, hmod, Nat.add_assoc]

/-- The calls that move the position. -/
inductive Movement
  | rewindH (n : Nat)
  | getNextIndex

/-- The buffer after a call. -/
def move (rb : RandomBuffer) : Movement → RandomBuffer
  | .rewindH n => rb.rewindH n
  | .getNextIndex => rb.getNextIndex

theorem position_lt_move (rb : RandomBuffer) (movement : Movement)
    (hposition : rb.currentPosition < rb.size) :
    (rb.move movement).currentPosition < (rb.move movement).size := by
  have hsize : 0 < rb.size := by omega
  cases movement with
  | rewindH n => exact position_lt_rewindH rb hsize n
  | getNextIndex =>
      rw [move, getNextIndex_eq rb hposition]
      exact position_lt_rewindH rb hsize 1

/-- Winding forward is as many single steps, and no sequence of the two leaves the buffer. -/
theorem rewindH_eq_iterate (rb : RandomBuffer) (hposition : rb.currentPosition < rb.size) :
    (∀ n, rb.rewindH n = getNextIndex^[n] rb) ∧
      ∀ movements, ∀ reached ∈ Runs.trace move rb movements,
        reached.currentPosition < reached.size := by
  refine ⟨fun n => ?_, fun movements => Runs.forall_mem_trace position_lt_move movements hposition⟩
  have hsize : 0 < rb.size := by omega
  induction n with
  | zero =>
      rw [rewindH_eq hsize, Nat.add_zero, Nat.div_eq_of_lt hposition, Nat.mod_eq_of_lt hposition]
      rfl
  | succ n ih => rw [rewindH_succ rb hsize, ih, Function.iterate_succ_apply']

theorem rewindH_eq_iterate_constant : (constant 5).rewindH 3 = getNextIndex^[3] (constant 5) :=
  (rewindH_eq_iterate (constant 5) Nat.one_pos).1 3

end RandomBuffer

end Random
end LibND4J
