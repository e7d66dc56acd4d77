import LibND4J.Random.RandomBuffer

/-!
# The generator behind a random buffer

`Xoroshiro128` fills a random buffer.  Its state of two words is mixed from the seed and changed
by shifts, rotations and exclusive ors only, so that the zero state would stay zero.

Main results:

- Theorem `seedConv_injective` and `next_injective`: mixing and stepping lose nothing.
- Theorem `refreshBuffer_words`: the words are the outputs of states that are never zero, and two
  seeds are never in the same state after as many words.
-/

namespace LibND4J
namespace Random

open RandomBuffer

/-- The two words of `state`. -/
structure Xoroshiro128 where
  s0 : UInt64
  s1 : UInt64

namespace Xoroshiro128

/-- `next64`: the word it returns, and the state it leaves. -/
def next64 (state : Xoroshiro128) : UInt64 × Xoroshiro128 :=
  let result := state.s0 + state.s1
  let s1 := state.s1 ^^^ state.s0
  (result, ⟨rotl state.s0 55 ^^^ s1 ^^^ (s1 <<< 14), rotl s1 36⟩)

/-- The state that `refreshBuffer` starts from. -/
def seeded (seed : Int64) : Xoroshiro128 :=
  ⟨seedConv seed.toUInt64, seedConv (seed * 119 + 3).toUInt64⟩

def refreshBuffer (rb : RandomBuffer) : RandomBuffer :=
  { rb with
    buffer := ((List.range rb.size).foldl
      (fun (run : Xoroshiro128 × (Nat → UInt64)) i =>
        (run.1.next64.2, Function.update run.2 i run.1.next64.1))
      (seeded rb.seed, rb.buffer)).2 }

/-- The state after some words. -/
def stateAfter (seed : Int64) (words : Nat) : Xoroshiro128 :=
  (fun state => state.next64.2)^[words] (seeded seed)

/-! ## Mixing and stepping -/

variable {x y : UInt64}

theorem xorShift_inj {k : UInt64} (hk : 0 < (k.toBitVec % 64).toNat)
    (h : x ^^^ (x >>> k) = y ^^^ (y >>> k)) : x = y := by
  -- the upper bits are unchanged, and every bit is read off with one above it
  have hbits : ∀ n i, 64 - n ≤ i → x.toBitVec.getLsbD i = y.toBitVec.getLsbD i := by
    intro n
    induction n with
    | zero =>
        intro i hi
        rw [BitVec.getLsbD_of_ge _ i hi, BitVec.getLsbD_of_ge _ i hi]
    | succ n ih =>
        intro i hi
        have hbit := congrArg (fun z => z.toBitVec.getLsbD i) h
        simp only [UInt64.toBitVec_xor, UInt64.toBitVec_shiftRight, BitVec.ushiftRight_eq',
          BitVec.getLsbD_xor, BitVec.getLsbD_ushiftRight] at hbit
        rw [ih ((k.toBitVec % 64).toNat + i) (by omega)] at hbit
        exact Bool.xor_left_inj.mp hbit
  apply UInt64.toBitVec_inj.mp
  exact BitVec.eq_of_getLsbD_eq fun i _ => hbits 64 i (by omega)

theorem mul_inj {c d : UInt64} (hinv : c * d = 1) (h : x * c = y * c) : x = y := by
  have hback := congrArg (· * d) h
  simpa [UInt64.mul_assoc, hinv] using hback

theorem seedConv_injective : Function.Injective seedConv := by
  intro a b h
  have hz := xorShift_inj (by decide) h
  have hy := xorShift_inj (by decide) (mul_inj (d := 0x319642B2D24D8EC3) (by decide) hz)
  have hx := xorShift_inj (by decide) (mul_inj (d := 0x96DE1B173F119089) (by decide) hy)
  exact (UInt64.add_left_inj _).mp hx

theorem rotateLeft_inj {x y : BitVec 64} {r : Nat} (hr : r < 64)
    (h : x.rotateLeft r = y.rotateLeft r) : x = y := by
  have hbit : ∀ j, (x.rotateLeft r).getLsbD j = (y.rotateLeft r).getLsbD j := by simp [h]
  simp only [BitVec.getLsbD_rotateLeft_of_le hr] at hbit
  apply BitVec.eq_of_getLsbD_eq
  intro i hi
  by_cases hlow : i + r < 64
  · simpa [hlow] using hbit (i + r)
  · have hwrapped : i + r - 64 < r := by omega
    have hback : 64 - r + (i + r - 64) = i := by omega
    simpa [hwrapped, hback] using hbit (i + r - 64)

theorem next_injective : Function.Injective fun state : Xoroshiro128 => state.next64.2 := by
  rintro ⟨s0, s1⟩ ⟨t0, t1⟩ h
  obtain ⟨hfirst, hsecond⟩ := Xoroshiro128.mk.inj h
  have hmixed : s1 ^^^ s0 = t1 ^^^ t0 :=
    UInt64.toBitVec_inj.mp (rotateLeft_inj (r := 36) (by decide) (congrArg UInt64.toBitVec hsecond))
  simp only [hmixed, UInt64.xor_left_inj] at hfirst
  obtain rfl : s0 = t0 :=
    UInt64.toBitVec_inj.mp (rotateLeft_inj (r := 55) (by decide) (congrArg UInt64.toBitVec hfirst))
  rw [(UInt64.xor_left_inj _).mp hmixed]

/-! ## Filling a buffer -/

/-- No seed is mixed to the zero state: the two words come from different numbers. -/
theorem seeded_ne_zero (seed : Int64) : seeded seed ≠ ⟨0, 0⟩ := by
  intro h
  obtain ⟨hfirst, hsecond⟩ := Xoroshiro128.mk.inj h
  have hsame := congrArg (fun z => z.toBitVec.toNat)
    (seedConv_injective (hfirst.trans hsecond.symm))
  have hbits : (seed * 119 + 3).toUInt64.toBitVec = seed.toUInt64.toBitVec * 119#64 + 3#64 :=
    rfl
  simp only [hbits, BitVec.toNat_add, BitVec.toNat_mul, BitVec.toNat_ofNat] at hsame
  omega

theorem stateAfter_succ (seed : Int64) (words : Nat) :
    stateAfter seed (words + 1) = (stateAfter seed words).next64.2 :=
  Function.iterate_succ_apply' _ _ _

theorem stateAfter_ne_zero (seed : Int64) (words : Nat) : stateAfter seed words ≠ ⟨0, 0⟩ := by
  induction words with
  | zero => exact seeded_ne_zero seed
  | succ words ih =>
      rw [stateAfter_succ]
      exact fun h => ih (next_injective h)

theorem foldl_range (rb : RandomBuffer) (m : Nat) :
    (List.range m).foldl
        (fun (run : Xoroshiro128 × (Nat → UInt64)) i =>
          (run.1.next64.2, Function.update run.2 i run.1.next64.1)) (seeded rb.seed, rb.buffer) =
      (stateAfter rb.seed m,
        fun i => if i < m then (stateAfter rb.seed i).next64.1 else rb.buffer i) := by
  induction m with
  | zero => simp [stateAfter]
  | succ m ih =>
      rw [List.range_succ, List.foldl_append, ih, List.foldl_cons, List.foldl_nil]
      refine Prod.ext (stateAfter_succ rb.seed m).symm (funext fun i => ?_)
      simp only [Function.update_apply]
      split_ifs with hi <;> first | omega | simp [hi]

/-- A buffer is filled with the outputs of the states; none of them is zero, and after as many
words two seeds have different states. -/
theorem refreshBuffer_words (rb : RandomBuffer) :
    (∀ i, (refreshBuffer rb).buffer i =
        if i < rb.size then (stateAfter rb.seed i).next64.1 else rb.buffer i) ∧
      (∀ words, stateAfter rb.seed words ≠ ⟨0, 0⟩) ∧
      ∀ words, Function.Injective fun seed => stateAfter seed words := by
  refine ⟨fun i => ?_, stateAfter_ne_zero rb.seed, fun words seed seed' h => ?_⟩
  · rw [refreshBuffer, foldl_range]
  · have hseeded := (next_injective.iterate words) h
    have hmixed := seedConv_injective (Xoroshiro128.mk.inj hseeded).1
    exact Int64.toBitVec_inj.mp (congrArg UInt64.toBitVec hmixed)

end Xoroshiro128

end Random
end LibND4J
