import LibND4J.Library.Stores
import LibND4J.Loops.BlockInformation
import LibND4J.Random.RandomBuffer

/-!
# Binomial distributions

Both operations count, for every output, the trials whose draw stays below a probability.
Output `e` asks for the relative index `(e + 1) * t` in its trial `t`, from the trial one on, and
the call winds the buffer forward by one index for each trial of each output.

Main results:

- Theorem `draws_specialOp`: the draws of a call, in any number of threads.
- Theorem `consumesApart_iff`: the draws are apart exactly if there are none.
-/

namespace LibND4J
namespace Random

open Loops

/-- A draw: the trial of an output, and the relative index it asks for. -/
structure Draw where
  output : Nat
  trial : Nat
  index : Nat
  deriving DecidableEq

/-- What a call leaves: the output, the buffer, and the draws that were made. -/
structure Drawn (T : Type*) where
  z : Int → T
  state : RandomBuffer
  draws : List Draw

section Operations

variable {T : Type*} [NatCast T] [Div T] [LT T] [DecidableLT T]

/-- Loop over the trials of output `e`: the successes and the draws; trial `t` succeeds with
probability `prob t`. -/
def trialLoop (state : RandomBuffer) (prob : Nat → T) (trials : Int) (e : Nat) :
    Nat × List Draw :=
  (List.range' 1 trials.toNat).foldl (fun acc t =>
    let randVal : T := state.relativeT ((e + 1) * t)
    (if randVal < prob t then acc.1 + 1 else acc.1, acc.2 ++ [⟨e, t, (e + 1) * t⟩])) (0, [])

/-- Loop of the two operations; `prob e t` is the probability of trial `t` of output `e`. -/
def countSuccesses (settings : Settings) (state : RandomBuffer) (prob : Nat → Nat → T)
    (z : Int → T) (zLength : Nat) (zEWS : Int) (trials : Int) : Drawn T :=
  let threads := numThreads zLength settings.tadThreshold settings.maxThreads
  let span := zLength / threads + 8
  let outputs := (List.range threads).flatMap (spanOf span zLength)
  { z := Stores.storeAll (fun (e : Nat) => e * zEWS)
      (fun e _ => ((trialLoop state (prob e) trials e).1 : T)) outputs z
    -- update rng state
    state := if trials > 0 then state.rewindH (zLength * trials.toNat) else state
    draws := outputs.flatMap fun e => (trialLoop state (prob e) trials e).2 }

/-- `BinomialDistribution::specialOp`; `y` is absent where it is the output itself. -/
def BinomialDistribution.specialOp (settings : Settings) (state : RandomBuffer)
    (y : Option (Int → T)) (yEWS : Int) (z : Int → T) (zLength : Nat) (zEWS : Int)
    (trials : Int) (prob : T) : Drawn T :=
  countSuccesses settings state
    (fun _ t => match y with
      | some y => y ((t - 1 : Nat) * yEWS)
      | none => prob)
    z zLength zEWS trials

/-- `BinomialDistributionEx::specialOp`: the probabilities belong to the outputs. -/
def BinomialDistributionEx.specialOp (settings : Settings) (state : RandomBuffer)
    (y : Option (Int → T)) (yEWS : Int) (z : Int → T) (zLength : Nat) (zEWS : Int)
    (trials : Int) (prob : T) : Drawn T :=
  countSuccesses settings state
    (fun e _ => match y with
      | some y => y (e * yEWS)
      | none => prob)
    z zLength zEWS trials

/-! ## The draws -/

/-- The draws of a call: every trial of every output, at a product of their numbers. -/
def drawsOf (zLength trials : Nat) : List Draw :=
  (List.range zLength).flatMap fun e =>
    (List.range' 1 trials).map fun t => ⟨e, t, (e + 1) * t⟩

theorem trialLoop_draws (state : RandomBuffer) (prob : Nat → T) (trials : Int) (e : Nat) :
    (trialLoop state prob trials e).2 =
      (List.range' 1 trials.toNat).map fun t => ⟨e, t, (e + 1) * t⟩ := by
  have hloop : ∀ (ts : List Nat) (acc : Nat × List Draw),
      (ts.foldl (fun acc t =>
        let randVal : T := state.relativeT ((e + 1) * t)
        (if randVal < prob t then acc.1 + 1 else acc.1,
          acc.2 ++ [(⟨e, t, (e + 1) * t⟩ : Draw)])) acc).2 =
        acc.2 ++ ts.map fun t => ⟨e, t, (e + 1) * t⟩ := by
    intro ts
    induction ts with
    | nil => intro acc; exact (List.append_nil _).symm
    | cons t ts ih =>
        intro acc
        rw [List.foldl_cons, ih, List.map_cons, List.append_assoc, List.singleton_append]
  exact hloop _ _

/-- The threads make the draws of every output once, whatever the probabilities are. -/
theorem draws_specialOp (settings : Settings) (state : RandomBuffer) (prob : Nat → Nat → T)
    (z : Int → T) (zLength : Nat) (zEWS : Int) (trials : Int) :
    (countSuccesses settings state prob z zLength zEWS trials).draws =
      drawsOf zLength trials.toNat := by
  have hthreads := numThreads_pos zLength settings.tadThreshold settings.maxThreads_pos
  simp only [countSuccesses, trialLoop_draws, drawsOf,
    spanOf_flatMap (le_span_mul hthreads (show 0 < 8 by decide))]

theorem mem_drawsOf {zLength trials : Nat} {d : Draw} :
    d ∈ drawsOf zLength trials ↔
      d.output < zLength ∧ (1 ≤ d.trial ∧ d.trial ≤ trials) ∧
        d.index = (d.output + 1) * d.trial := by
  obtain ⟨e, t, i⟩ := d
  simp only [drawsOf, List.mem_flatMap, List.mem_range, List.mem_map, List.mem_range'_1,
    Draw.mk.injEq]
  constructor
  · rintro ⟨e', he, t', ht, rfl, rfl, rfl⟩
    exact ⟨he, ⟨ht.1, by omega⟩, rfl⟩
  · rintro ⟨he, ht, rfl⟩
    exact ⟨e, he, t, ⟨ht.1, by omega⟩, rfl, rfl, rfl⟩

/-- The last draw asks for the index behind the window. -/
theorem last_mem_drawsOf {zLength trials : Nat} (hlength : 0 < zLength) (htrials : 1 ≤ trials) :
    ⟨zLength - 1, trials, zLength * trials⟩ ∈ drawsOf zLength trials := by
  rw [mem_drawsOf]
  exact ⟨Nat.sub_lt hlength Nat.one_pos, ⟨htrials, le_rfl⟩, by rw [Nat.sub_add_cancel hlength]⟩

/-! ## Draws apart -/

/-- Every trial of every output asks for an index of its own, inside the window that the buffer
is wound forward by. -/
def ConsumesApart (state : RandomBuffer) (drawn : Drawn T) (zLength trials : Nat) : Prop :=
  drawn.state = state.rewindH (zLength * trials) ∧
    (∀ e < zLength, ∀ t, 1 ≤ t → t ≤ trials → ∃ d ∈ drawn.draws, d.output = e ∧ d.trial = t) ∧
    (drawn.draws.map Draw.index).Nodup ∧
    ∀ d ∈ drawn.draws, d.index < zLength * trials

theorem countSuccesses_apart_iff (settings : Settings) (state : RandomBuffer)
    (prob : Nat → Nat → T) (z : Int → T) (zLength : Nat) (zEWS : Int) {trials : Int}
    (htrials : 1 ≤ trials) :
    ConsumesApart state (countSuccesses settings state prob z zLength zEWS trials) zLength
      trials.toNat ↔ zLength = 0 := by
  rw [ConsumesApart, draws_specialOp]
  constructor
  · rintro ⟨-, -, -, hwindow⟩
    by_contra hlength
    have hlast := hwindow _ (last_mem_drawsOf (Nat.pos_of_ne_zero hlength)
      (show 1 ≤ trials.toNat by omega))
    exact Nat.lt_irrefl _ hlast
  · rintro rfl
    refine ⟨?_, ?_, List.nodup_nil, ?_⟩
    · rw [countSuccesses, if_pos (by omega)]
    · intro e he
      exact absurd he (Nat.not_lt_zero e)
    · intro d hd
      cases hd

/-- Both operations draw apart exactly if there is no output. -/
theorem consumesApart_iff (settings : Settings) (state : RandomBuffer) (y : Option (Int → T))
    (yEWS : Int) (z : Int → T) (zLength : Nat) (zEWS : Int) {trials : Int} (htrials : 1 ≤ trials)
    (prob : T) :
    (ConsumesApart state
        (BinomialDistribution.specialOp settings state y yEWS z zLength zEWS trials prob)
        zLength trials.toNat ↔ zLength = 0) ∧
      (ConsumesApart state
        (BinomialDistributionEx.specialOp settings state y yEWS z zLength zEWS trials prob)
        zLength trials.toNat ↔ zLength = 0) :=
  ⟨countSuccesses_apart_iff settings state _ z zLength zEWS htrials,
    countSuccesses_apart_iff settings state _ z zLength zEWS htrials⟩

end Operations

/-- A buffer of eight words, on one thread. -/
def eightWords : RandomBuffer where
  size := 8
  buffer := fun i => UInt64.ofNat i
  seed := 7
  currentPosition := 0
  generation := 1
  amplifier := 7

theorem consumesApart_iff_eightWords :
    (ConsumesApart eightWords (BinomialDistribution.specialOp (Settings.initial 1 (by decide))
        eightWords none 1 (fun _ => (0 : ℚ)) 2 1 3 (1 / 2)) 2 3 ↔ 2 = 0) ∧
      (ConsumesApart eightWords (BinomialDistributionEx.specialOp (Settings.initial 1 (by decide))
        eightWords none 1 (fun _ => (0 : ℚ)) 2 1 3 (1 / 2)) 2 3 ↔ 2 = 0) :=
  consumesApart_iff _ eightWords none 1 _ 2 1 (show (1 : Int) ≤ 3 by decide) (1 / 2)

/-- One trial of one output asks for the index one, behind a window of one index. -/
theorem not_consumesApart_always :
    ¬ ∀ (state : RandomBuffer) (zLength : Nat) (trials : Int), 1 ≤ trials →
      ConsumesApart state (BinomialDistribution.specialOp (Settings.initial 1 (by decide)) state
        none 1 (fun _ => (0 : ℚ)) zLength 1 trials (1 / 2)) zLength trials.toNat := by
  intro h
  obtain ⟨-, -, -, hwindow⟩ := h eightWords 1 1 (by decide)
  have hdraws := draws_specialOp (Settings.initial 1 (by decide)) eightWords
    (fun _ _ => (1 / 2 : ℚ)) (fun _ => 0) 1 1 1
  have hlast : (⟨0, 1, 1⟩ : Draw) ∈ (countSuccesses (Settings.initial 1 (by decide)) eightWords
      (fun _ _ => (1 / 2 : ℚ)) (fun _ => 0) 1 1 1).draws := by
    rw [hdraws]
    exact last_mem_drawsOf Nat.one_pos le_rfl
  exact absurd (hwindow _ hlast) (by decide)

end Random
end LibND4J
