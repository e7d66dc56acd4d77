import LibND4J.Loops.SummaryStats

/-!
# Word vectors

`SkipGram` and `CBOW` train a row of word vectors, or an inference vector, against rows of
two other tables.  Hierarchical rounds take given rows; negative rounds take the row of the starter
first and then rows that a generator draws from a table, leaving out the starter.  A round looks the
gradient up in a table by the inner product of the two rows.

A read outside of the table of gradients, the table of draws or the rows of `syn1Neg` has no result.

Main results:

- Theorem `negativeRound_spec`: a round stays inside of all tables, and draws leave the row of
  the starter alone.
- Theorem `rounds_spec`: all rounds do, and an inference changes no table.
- Theorem `aggregates_spec`: the calls return, and what they leave alone.
-/

namespace LibND4J
namespace Ops

open Loops

theorem Aggregate.atLeastTwo_two : Nat.AtLeastTwo 2 :=
  ⟨by decide⟩

theorem Aggregate.atLeastTwo_six : Nat.AtLeastTwo 6 :=
  ⟨by decide⟩

attribute [local instance] Aggregate.atLeastTwo_two Aggregate.atLeastTwo_six

/-- The tables of a model, and the inference vector. -/
structure WordVectors (T : Type) where
  syn0 : Int → T
  syn1 : Int → T
  syn1Neg : Int → T
  inferenceVector : Int → T

/-- What both operations are told: lengths and counts, the tables that are only read, the rows and
codes of the hierarchical rounds, and the numbers. -/
structure Aggregate (T : Type) where
  vectorLength : Nat
  hsRounds : Int
  ngRounds : Int
  expLength : Int
  vocabSize : Int32
  ngStarter : Int
  negTableLength : Int32
  isInference : Int
  expTable : Int → T
  negTable : Int → T
  idxSyn1 : Nat → Int
  codes : Nat → Int
  alpha : T
  next_random : T

/-- What changes in the rounds. -/
structure Rounds (T : Type) where
  syn1 : Int → T
  syn1Neg : Int → T
  neu1e : Nat → T
  next_random : UInt64

/-! ## The operations -/

section Operations

variable {T : Type}

/-- The entry of a table. -/
def lookup (table : Int → T) (length idx : Int) : Option T :=
  if 0 ≤ idx ∧ idx < length then some (table idx) else none

variable [Field T]

/-- The inner product of a vector and a row. -/
def rowDot (vectorLength : Nat) (syn0 : Nat → T) (row : Int → T) (start : Int) : T :=
  (List.range vectorLength).foldl (fun dot x => dot + syn0 x * row (start + x)) 0

/-- Both additions behind a gradient, the second one while training only. -/
def axpys (vectorLength : Nat) (isInference : Int) (syn0 : Nat → T) (start : Int) (g : T)
    (row : Int → T) (neu1e : Nat → T) : (Int → T) × (Nat → T) :=
  (if isInference = 0 then fun i =>
      if start ≤ i ∧ i < start + vectorLength then g * syn0 (i - start).toNat + row i else row i
    else row,
    fun x => if x < vectorLength then g * row (start + x) + neu1e x else neu1e x)

variable [LinearOrder T] [FloorRing T]

/-- The place of an inner product in the table of gradients. -/
def expIndex (expLength : Int) (dot : T) : Int :=
  toInt ((dot + 6) * (expLength / 6 / 2))

/-- The gradient of `HierarchicSoftmax::executeAggregate`, unless the function returns before. -/
def HierarchicSoftmax.gradient (a : Aggregate T) (code : Int) (dot : T) : Option (Option T) :=
  if dot < -6 ∨ dot ≥ 6 then some none
  else
    let idx := expIndex a.expLength dot
    if idx ≥ a.expLength ∨ idx < 0 then some none
    else (lookup a.expTable a.expLength idx).map fun f => some ((1 - code - f) * a.alpha)

/-- The gradient of `NegativeSampling::executeAggregate`, unless the function returns before. -/
def NegativeSampling.gradient (a : Aggregate T) (code : Int) (dot : T) : Option (Option T) :=
  if dot > 6 then some (some ((code - 1) * a.alpha))
  else if dot < -6 then some (some ((code - 0) * a.alpha))
  else
    let idx := expIndex a.expLength dot
    if idx ≥ a.expLength then some none
    else if idx < 0 then some none
    else (lookup a.expTable a.expLength idx).map fun e => some ((code - e) * a.alpha)

/-- `HierarchicSoftmax::executeAggregate` for a row of `syn1`. -/
def HierarchicSoftmax.executeAggregate (a : Aggregate T) (syn0 : Nat → T) (start code : Int)
    (s : Rounds T) : Option (Rounds T) :=
  (gradient a code (rowDot a.vectorLength syn0 s.syn1 start)).map fun
    | none => s
    | some g =>
        let (syn1, neu1e) := axpys a.vectorLength a.isInference syn0 start g s.syn1 s.neu1e
        { s with syn1, neu1e }

/-- `NegativeSampling::executeAggregate` for a row of `syn1Neg`, which has `vocabSize` rows. -/
def NegativeSampling.executeAggregate (a : Aggregate T) (syn0 : Nat → T) (target code : Int)
    (s : Rounds T) : Option (Rounds T) :=
  if 0 ≤ target ∧ target < a.vocabSize.toInt then
    let start := target * a.vectorLength
    (gradient a code (rowDot a.vectorLength syn0 s.syn1Neg start)).map fun
      | none => s
      | some g =>
          let (syn1Neg, neu1e) := axpys a.vectorLength a.isInference syn0 start g s.syn1Neg s.neu1e
          { s with syn1Neg, neu1e }
  else none

/-- The row that a word of the generator stands for. -/
def drawnTarget (a : Aggregate T) (next_random : UInt64) : Option Int :=
  let place := (next_random >>> 16) % UInt64.ofInt a.negTableLength.toInt
  (lookup a.negTable a.negTableLength.toInt place.toNat).map fun entry =>
    let target := toInt entry
    if target ≤ 0 ∨ target ≥ a.vocabSize.toInt then
      (next_random % UInt64.ofInt (a.vocabSize.toInt - 1) + 1).toNat
    else target

/-- A turn of the loop over the negative rounds. -/
def negativeRound (a : Aggregate T) (syn0 : Nat → T) (s : Rounds T) (r : Nat) :
    Option (Rounds T) :=
  if r = 0 then NegativeSampling.executeAggregate a syn0 a.ngStarter 1 s
  else do
    let next_random := s.next_random * 25214903917 + 11
    let target ← drawnTarget a next_random
    if target = a.ngStarter then some { s with next_random }
    else NegativeSampling.executeAggregate a syn0 target 0 { s with next_random }

/-- The hierarchical rounds and the negative ones. -/
def rounds (a : Aggregate T) (syn0 : Nat → T) (s : Rounds T) : Option (Rounds T) := do
  let s ← if a.hsRounds > 0 then
      (List.range a.hsRounds.toNat).foldlM (fun s r => HierarchicSoftmax.executeAggregate a syn0
        (a.idxSyn1 r * a.vectorLength) (a.codes r) s) s
    else some s
  if a.ngRounds > 0 then (List.range (a.ngRounds.toNat + 1)).foldlM (negativeRound a syn0) s
  else some s

/-- The rounds start with a zero error and the second number as the seed. -/
def startRounds (a : Aggregate T) (m : WordVectors T) : Rounds T :=
  ⟨m.syn1, m.syn1Neg, fun _ => 0, UInt64.ofInt (toInt a.next_random)⟩

/-- The error is added to a vector in a table. -/
def addTo (vectorLength : Nat) (neu1e : Nat → T) (table : Int → T) (start : Int) : Int → T :=
  fun i => if start ≤ i ∧ i < start + vectorLength then table i + neu1e (i - start).toNat
    else table i

/-- `SkipGram::executeAggregate`. -/
def SkipGram.executeAggregate (a : Aggregate T) (syn0Row : Int) (m : WordVectors T) :
    Option (WordVectors T) :=
  let start := syn0Row * a.vectorLength
  let syn0 : Nat → T := fun x => if a.isInference = 1 then m.inferenceVector x
    else m.syn0 (start + x)
  (rounds a syn0 (startRounds a m)).map fun s =>
    if a.isInference = 0 then
      { m with syn1 := s.syn1, syn1Neg := s.syn1Neg,
               syn0 := addTo a.vectorLength s.neu1e m.syn0 start }
    else
      { m with syn1 := s.syn1, syn1Neg := s.syn1Neg,
               inferenceVector := addTo a.vectorLength s.neu1e m.inferenceVector 0 }

/-- The words around the current one. -/
structure Window where
  idxSyn0 : Int → Int
  idxSyn0Length : Int
  numLabels : Int
  trainWords : Int

/-- The average of the words of a window. -/
def Window.average (w : Window) (a : Aggregate T) (m : WordVectors T) (i : Nat) : T :=
  let sum := (List.range w.idxSyn0Length.toNat).foldl (fun neu1 c =>
    neu1 + m.syn0 (w.idxSyn0 c * a.vectorLength + i)) 0
  let sum := if a.isInference = 0 then sum else sum + m.inferenceVector i
  if w.idxSyn0Length > 0 then sum / (w.idxSyn0Length + a.isInference : Int) else sum

/-- `CBOW::executeAggregate`. -/
def CBOW.executeAggregate (a : Aggregate T) (w : Window) (m : WordVectors T) :
    Option (WordVectors T) :=
  (rounds a (w.average a m) (startRounds a m)).map fun s =>
    let starter := if w.trainWords = 1 then 0 else w.idxSyn0Length - w.numLabels
    if a.isInference = 0 then
      { m with syn1 := s.syn1, syn1Neg := s.syn1Neg,
               syn0 := (List.range (w.idxSyn0Length - starter).toNat).foldl (fun syn0 c =>
                addTo a.vectorLength s.neu1e syn0 (w.idxSyn0 (starter + c) * a.vectorLength))
                m.syn0 }
    else
      { m with syn1 := s.syn1, syn1Neg := s.syn1Neg,
               inferenceVector := addTo a.vectorLength s.neu1e m.inferenceVector 0 }

end Operations

/-! ## The rounds -/

section Rounds

variable {T : Type} {a : Aggregate T} {s s' : Rounds T}

/-- What a round may change: rows of `syn1` while training, and of `syn1Neg` while training those
that are not kept. -/
structure Rounds.Keeps (a : Aggregate T) (kept : Int → Prop) (s s' : Rounds T) : Prop where
  inference : a.isInference ≠ 0 → s'.syn1 = s.syn1 ∧ s'.syn1Neg = s.syn1Neg
  row : ∀ i, kept i → s'.syn1Neg i = s.syn1Neg i

theorem Rounds.Keeps.refl (a : Aggregate T) (kept : Int → Prop) (s : Rounds T) : s.Keeps a kept s :=
  ⟨fun _ => ⟨rfl, rfl⟩, fun _ _ => rfl⟩

theorem Rounds.Keeps.trans {kept : Int → Prop} {s'' : Rounds T} (h : s.Keeps a kept s')
    (h' : s'.Keeps a kept s'') : s.Keeps a kept s'' where
  inference := fun hinference =>
    ⟨(h'.inference hinference).1.trans (h.inference hinference).1,
      (h'.inference hinference).2.trans (h.inference hinference).2⟩
  row := fun i hi => (h'.row i hi).trans (h.row i hi)

/-- The cells of a row. -/
def InRow (a : Aggregate T) (row i : Int) : Prop :=
  row * a.vectorLength ≤ i ∧ i < row * a.vectorLength + a.vectorLength

/-- Different rows have no cells in common. -/
theorem InRow.unique {row row' i : Int} (h : InRow a row i) (h' : InRow a row' i) : row = row' := by
  obtain ⟨hle, hlt⟩ := h
  obtain ⟨hle', hlt'⟩ := h'
  rcases lt_trichotomy row row' with hless | heq | hgreater
  · have hnext : (row + 1) * (a.vectorLength : Int) ≤ row' * a.vectorLength :=
      mul_le_mul_of_nonneg_right hless (Int.natCast_nonneg _)
    rw [add_mul, one_mul] at hnext
    omega
  · exact heq
  · have hnext : (row' + 1) * (a.vectorLength : Int) ≤ row * a.vectorLength :=
      mul_le_mul_of_nonneg_right hgreater (Int.natCast_nonneg _)
    rw [add_mul, one_mul] at hnext
    omega

variable [Field T]

/-- The additions write one row, and none for an inference. -/
theorem axpys_fst (vectorLength : Nat) (isInference : Int) (syn0 : Nat → T) (start : Int) (g : T)
    (row : Int → T) (neu1e : Nat → T) :
    (isInference ≠ 0 → (axpys vectorLength isInference syn0 start g row neu1e).1 = row) ∧
    ∀ i, ¬ (start ≤ i ∧ i < start + vectorLength) →
      (axpys vectorLength isInference syn0 start g row neu1e).1 i = row i := by
  rw [axpys]
  refine ⟨fun hinference => if_neg hinference, fun i hi => ?_⟩
  split
  · exact if_neg hi
  · rfl

variable [LinearOrder T] [FloorRing T]

/-- A gradient never reads outside of its table. -/
theorem HierarchicSoftmax.exists_gradient (a : Aggregate T) (code : Int) (dot : T) :
    ∃ g, HierarchicSoftmax.gradient a code dot = some g := by
  rw [gradient]
  split
  · exact ⟨none, rfl⟩
  · simp only
    split
    · exact ⟨none, rfl⟩
    · rw [lookup, if_pos (by omega)]
      exact ⟨_, rfl⟩

theorem NegativeSampling.exists_gradient (a : Aggregate T) (code : Int) (dot : T) :
    ∃ g, NegativeSampling.gradient a code dot = some g := by
  rw [gradient]
  split
  · exact ⟨_, rfl⟩
  · split
    · exact ⟨_, rfl⟩
    · simp only
      split
      · exact ⟨none, rfl⟩
      · split
        · exact ⟨none, rfl⟩
        · rw [lookup, if_pos (by omega)]
          exact ⟨_, rfl⟩

/-- A hierarchical round returns, and leaves `syn1Neg` alone. -/
theorem HierarchicSoftmax.executeAggregate_spec (a : Aggregate T) (syn0 : Nat → T)
    (start code : Int) (s : Rounds T) :
    ∃ s', HierarchicSoftmax.executeAggregate a syn0 start code s = some s' ∧
      s.Keeps a (fun _ => True) s' := by
  obtain ⟨g, hg⟩ := exists_gradient a code (rowDot a.vectorLength syn0 s.syn1 start)
  rw [executeAggregate, hg]
  cases g with
  | none => exact ⟨s, rfl, .refl a _ s⟩
  | some g =>
      obtain ⟨hinference, -⟩ :=
        axpys_fst a.vectorLength a.isInference syn0 start g s.syn1 s.neu1e
      exact ⟨_, rfl, fun hne => ⟨hinference hne, rfl⟩, fun _ _ => rfl⟩

/-- A sample of a row in the table returns, and leaves all other rows alone. -/
theorem NegativeSampling.executeAggregate_spec (syn0 : Nat → T) {target : Int} (code : Int)
    (s : Rounds T) (htarget : 0 ≤ target ∧ target < a.vocabSize.toInt) :
    ∃ s', NegativeSampling.executeAggregate a syn0 target code s = some s' ∧
      s.Keeps a (fun i => ¬ InRow a target i) s' := by
  obtain ⟨g, hg⟩ := exists_gradient a code
    (rowDot a.vectorLength syn0 s.syn1Neg (target * a.vectorLength))
  simp only [executeAggregate, if_pos htarget, hg]
  cases g with
  | none => exact ⟨s, rfl, .refl a _ s⟩
  | some g =>
      obtain ⟨hinference, hrow⟩ := axpys_fst a.vectorLength a.isInference syn0
        (target * a.vectorLength) g s.syn1Neg s.neu1e
      exact ⟨_, rfl, fun hne => ⟨rfl, hinference hne⟩, hrow⟩

/-- A draw reads the table inside, and stands for a row behind the first one. -/
theorem drawnTarget_spec (next_random : UInt64) (hvocab : 2 ≤ a.vocabSize.toInt)
    (htable : 1 ≤ a.negTableLength.toInt) :
    ∃ target, drawnTarget a next_random = some target ∧ 0 ≤ target ∧
      target < a.vocabSize.toInt := by
  have hword : ∀ {n : Int}, 0 < n → n < 2 ^ 31 → (UInt64.ofInt n).toNat = n.toNat := by
    intro n hpos hlt
    rw [UInt64.ofInt, Int.emod_eq_of_lt (by omega) (by omega), UInt64.toNat_ofNat']
    exact Nat.mod_eq_of_lt (by omega)
  have hvocab' := a.vocabSize.toInt_lt
  have htable' := a.negTableLength.toInt_lt
  have hplace : ((next_random >>> 16) % UInt64.ofInt a.negTableLength.toInt).toNat <
      a.negTableLength.toInt.toNat := by
    rw [UInt64.toNat_mod, hword (by omega) (by omega)]
    exact Nat.mod_lt _ (by omega)
  have hwrap : (next_random % UInt64.ofInt (a.vocabSize.toInt - 1) + 1).toNat =
      next_random.toNat % (a.vocabSize.toInt - 1).toNat + 1 := by
    have hlt : next_random.toNat % (a.vocabSize.toInt - 1).toNat <
        (a.vocabSize.toInt - 1).toNat := Nat.mod_lt _ (by omega)
    rw [UInt64.toNat_add, UInt64.toNat_mod, hword (by omega) (by omega)]
    exact Nat.mod_eq_of_lt (by show _ + 1 < 2 ^ 64; omega)
  have hlt : next_random.toNat % (a.vocabSize.toInt - 1).toNat <
      (a.vocabSize.toInt - 1).toNat := Nat.mod_lt _ (by omega)
  rw [drawnTarget, lookup, if_pos (by omega)]
  refine ⟨_, rfl, ?_⟩
  simp only [hwrap]
  split <;> omega

/-- A round returns, leaves the tables alone during an inference, and the row of the starter alone
unless it is the first one. -/
theorem negativeRound_spec (hvocab : 2 ≤ a.vocabSize.toInt) (htable : 1 ≤ a.negTableLength.toInt)
    (hstarter : 0 ≤ a.ngStarter ∧ a.ngStarter < a.vocabSize.toInt) (syn0 : Nat → T)
    (s : Rounds T) (r : Nat) :
    ∃ s', negativeRound a syn0 s r = some s' ∧
      s.Keeps a (fun i => r ≠ 0 ∧ InRow a a.ngStarter i) s' := by
  by_cases hr : r = 0
  · obtain ⟨s', hs', hkeeps⟩ := NegativeSampling.executeAggregate_spec syn0 1 s hstarter
    exact ⟨s', by rw [negativeRound, if_pos hr, hs'], hkeeps.inference, fun i hi =>
      absurd hr hi.1⟩
  obtain ⟨target, hdrawn, hlower, hupper⟩ :=
    drawnTarget_spec (a := a) (s.next_random * 25214903917 + 11) hvocab htable
  rw [negativeRound, if_neg hr]
  simp only [hdrawn, Option.bind_eq_bind, Option.bind_some]
  split
  · exact ⟨_, rfl, fun _ => ⟨rfl, rfl⟩, fun _ _ => rfl⟩
  · rename_i hne
    obtain ⟨s', hs', hkeeps⟩ := NegativeSampling.executeAggregate_spec syn0 0
      { s with next_random := s.next_random * 25214903917 + 11 } ⟨hlower, hupper⟩
    exact ⟨s', hs', hkeeps.inference, fun i hi =>
      hkeeps.row i fun htarget => hne (htarget.unique hi.2)⟩

omit [Field T] [LinearOrder T] [FloorRing T] in
/-- Steps that return and keep something keep it all along. -/
theorem foldlM_keeps {ι : Type} {kept : Int → Prop} {step : Rounds T → ι → Option (Rounds T)}
    (hstep : ∀ s i, ∃ s', step s i = some s' ∧ s.Keeps a kept s') (is : List ι) (s : Rounds T) :
    ∃ s', is.foldlM step s = some s' ∧ s.Keeps a kept s' := by
  induction is generalizing s with
  | nil => exact ⟨s, rfl, .refl a kept s⟩
  | cons i is ih =>
      obtain ⟨s', hs', hkeeps⟩ := hstep s i
      obtain ⟨s'', hs'', hkeeps'⟩ := ih s'
      exact ⟨s'', by rw [List.foldlM_cons, hs']; exact hs'', hkeeps.trans hkeeps'⟩

/-- All rounds return, and leave the tables alone during an inference. -/
theorem rounds_spec (hvocab : 2 ≤ a.vocabSize.toInt) (htable : 1 ≤ a.negTableLength.toInt)
    (hstarter : 0 ≤ a.ngStarter ∧ a.ngStarter < a.vocabSize.toInt) (syn0 : Nat → T)
    (s : Rounds T) : ∃ s', rounds a syn0 s = some s' ∧ s.Keeps a (fun _ => False) s' := by
  have hnegative : ∀ s : Rounds T, ∃ s', (if a.ngRounds > 0 then
      (List.range (a.ngRounds.toNat + 1)).foldlM (negativeRound a syn0) s else some s) = some s' ∧
      s.Keeps a (fun _ => False) s' := by
    intro s
    split
    · refine foldlM_keeps (fun s r => ?_) _ s
      obtain ⟨s', hs', hkeeps⟩ := negativeRound_spec hvocab htable hstarter syn0 s r
      exact ⟨s', hs', hkeeps.inference, fun _ => False.elim⟩
    · exact ⟨s, rfl, .refl a _ s⟩
  rw [rounds]
  split
  · have hround : ∀ (s : Rounds T) (r : Nat), ∃ s', HierarchicSoftmax.executeAggregate a syn0
        (a.idxSyn1 r * a.vectorLength) (a.codes r) s = some s' ∧ s.Keeps a (fun _ => False) s' := by
      intro s r
      obtain ⟨s', hs', hkeeps⟩ := HierarchicSoftmax.executeAggregate_spec a syn0
        (a.idxSyn1 r * a.vectorLength) (a.codes r) s
      exact ⟨s', hs', hkeeps.inference, fun _ => False.elim⟩
    obtain ⟨s', hs', hkeeps⟩ := foldlM_keeps hround (List.range a.hsRounds.toNat) s
    obtain ⟨s'', hs'', hkeeps'⟩ := hnegative s'
    rw [hs']
    exact ⟨s'', hs'', hkeeps.trans hkeeps'⟩
  · exact hnegative s

/-- What an inference leaves alone. -/
structure WordVectors.Keeps (vectorLength : Nat) (m m' : WordVectors T) : Prop where
  syn0 : m'.syn0 = m.syn0
  syn1 : m'.syn1 = m.syn1
  syn1Neg : m'.syn1Neg = m.syn1Neg
  inferenceVector : ∀ i, ¬ (0 ≤ i ∧ i < (vectorLength : Int)) →
    m'.inferenceVector i = m.inferenceVector i

/-- The calls return, so they read inside of all tables; a draw leaves the row of the starter alone
in any state; and an inference writes the inference vector only. -/
theorem aggregates_spec (hvocab : 2 ≤ a.vocabSize.toInt) (htable : 1 ≤ a.negTableLength.toInt)
    (hstarter : 0 ≤ a.ngStarter ∧ a.ngStarter < a.vocabSize.toInt) (m : WordVectors T) :
    (∀ syn0Row, ∃ m', SkipGram.executeAggregate a syn0Row m = some m' ∧
      (a.isInference = 1 → m.Keeps a.vectorLength m')) ∧
    (∀ w, ∃ m', CBOW.executeAggregate a w m = some m' ∧
      (a.isInference = 1 → m.Keeps a.vectorLength m')) ∧
    ∀ (syn0 : Nat → T) (s : Rounds T) (r : Nat), r ≠ 0 → ∃ s', negativeRound a syn0 s r = some s' ∧
      ∀ i, InRow a a.ngStarter i → s'.syn1Neg i = s.syn1Neg i := by
  have hkept : ∀ {s' : Rounds T}, (startRounds a m).Keeps a (fun _ => False) s' →
      a.isInference = 1 → s'.syn1 = m.syn1 ∧ s'.syn1Neg = m.syn1Neg := fun hkeeps hinference =>
    hkeeps.inference (by omega)
  have hframe : ∀ (neu1e : Nat → T) (i : Int), ¬ (0 ≤ i ∧ i < (a.vectorLength : Int)) →
      addTo a.vectorLength neu1e m.inferenceVector 0 i = m.inferenceVector i := fun neu1e i hi =>
    if_neg (by rwa [zero_add])
  refine ⟨fun syn0Row => ?_, fun w => ?_, fun syn0 s r hr => ?_⟩
  · rw [SkipGram.executeAggregate]
    obtain ⟨s', hs', hkeeps⟩ := rounds_spec hvocab htable hstarter _ (startRounds a m)
    rw [hs']
    refine ⟨_, rfl, fun hinference => ?_⟩
    obtain ⟨hsyn1, hsyn1Neg⟩ := hkept hkeeps hinference
    simp only
    rw [if_neg (by omega)]
    exact ⟨rfl, hsyn1, hsyn1Neg, hframe s'.neu1e⟩
  · obtain ⟨s', hs', hkeeps⟩ :=
      rounds_spec hvocab htable hstarter (w.average a m) (startRounds a m)
    rw [CBOW.executeAggregate, hs']
    refine ⟨_, rfl, fun hinference => ?_⟩
    obtain ⟨hsyn1, hsyn1Neg⟩ := hkept hkeeps hinference
    simp only
    rw [if_neg (by omega)]
    exact ⟨rfl, hsyn1, hsyn1Neg, hframe s'.neu1e⟩
  · obtain ⟨s', hs', hkeeps⟩ := negativeRound_spec hvocab htable hstarter syn0 s r
    exact ⟨s', hs', fun i hi => hkeeps.row i ⟨hr, hi⟩⟩

end Rounds

/-- Three words of two numbers, one negative round and an inference. -/
def threeWords : Aggregate Rat where
  vectorLength := 2
  hsRounds := 1
  ngRounds := 1
  expLength := 4
  vocabSize := 3
  ngStarter := 1
  negTableLength := 5
  isInference := 1
  expTable := fun i => i / 4
  negTable := fun i => i
  idxSyn1 := fun _ => 0
  codes := fun _ => 1
  alpha := 1 / 2
  next_random := 7

theorem aggregates_spec_threeWords :
    (∃ m', SkipGram.executeAggregate threeWords 2 ⟨fun i => i, fun i => i, fun i => i, fun i => i⟩ =
      some m' ∧ m'.syn1Neg = fun i : Int => (i : Rat)) := by
  obtain ⟨hskipGram, -, -⟩ := aggregates_spec (a := threeWords) (by decide) (by decide) (by decide)
    ⟨fun i => i, fun i => i, fun i => i, fun i => i⟩
  obtain ⟨m', hm', hkeeps⟩ := hskipGram 2
  exact ⟨m', hm', (hkeeps rfl).syn1Neg⟩

end Ops
end LibND4J
