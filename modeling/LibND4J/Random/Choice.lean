import LibND4J.Arrays.Cells
import LibND4J.Library.Translates
import LibND4J.Random.RandomBuffer

/-!
# Choices

The operation draws a number for every output, adds up probabilities until they reach it, and
stores the element of the source that it has come to.  The search is written twice, for arrays
with element-wise strides and for coordinates.  The second one looks the probability up at the
coordinates of the output.

Main results:

- Theorem `search_spec`: the search ends at the first sum that reaches the draw.
- Theorem `iterations_spec`: what the iterations store, in any order.
- Theorem `choosesRight_of_condition` and `condition_of_choosesRight`: the coordinates
  are right for one probability, or for two of them and one output.
-/

namespace LibND4J
namespace Random

open Arrays Loops Shape Finset

namespace Choice

/-- The cells that a path reads and writes: the probabilities are looked up for an output and the
number of the search. -/
structure Cells where
  z : Nat → Int
  x : Nat → Int
  y : Nat → Nat → Int

/-- The cells of the path with element-wise strides. -/
def ewsCells (x y z : ShapeInfo) : Cells where
  z e := e * z.elementWiseStride
  x f := f * x.elementWiseStride
  y _ f := f * y.elementWiseStride

/-- The cells of the path with coordinates: those of `y` are decoded from the output. -/
def coordinateCells (x y z : ShapeInfo) : Cells where
  z i := getOffset z.offset z.shape z.stride (ind2sub z.shape i)
  x f := getOffset x.offset x.shape x.stride (ind2sub x.shape f)
  y i _ := getOffset y.offset y.shape y.stride (ind2sub y.shape i)

/-- What a call leaves: the output, the buffer, and the cells of `y` that were read. -/
structure Outcome (T : Type*) where
  z : Int → T
  state : RandomBuffer
  reads : List Int

section Operation

variable {T : Type*} [Field T] [LinearOrder T]

/-- Loop over the probabilities, from number `f` on: where it stores, and the cells it reads. -/
def search (prob : T) (ys : Int → T) (cell : Nat → Int) (yLength : Nat) :
    Nat → Nat → T → Option Nat × List Int
  | 0, _, _ => (none, [])
  | rest + 1, f, cumProb =>
      let cumProb := cumProb + ys (cell f)
      if prob ≤ cumProb ∨ f = yLength - 1 then
        -- the counter is set past the end
        (some f, [cell f])
      else
        let later := search prob ys cell yLength rest (f + 1) cumProb
        (later.1, cell f :: later.2)

/-- The iterations of a path in the order of a schedule. -/
def iterations (cells : Cells) (state : RandomBuffer) (xs ys zs : Int → T) (yLength zLength : Nat)
    (schedule : List Nat) : Outcome T :=
  let found := fun e =>
    search (state.relativeT e) ys (cells.y e) yLength yLength 0 0
  { z := Stores.storeAll (fun store : Nat × Nat => cells.z store.1)
      (fun store _ => xs (cells.x store.2))
      (schedule.filterMap fun e => (found e).1.map fun f => (e, f)) zs
    -- update rng state
    state := state.rewindH zLength
    reads := schedule.flatMap fun e => (found e).2 }

/-- `Choice::specialOp`.  `none` stands for the race of several threads on the coordinate arrays,
which they share. -/
def specialOp (settings : Settings) (state : RandomBuffer) (x y z : ShapeInfo)
    (xs ys zs : Int → T) (schedule : List Nat) : Option (Outcome T) :=
  let threads := numThreads z.length settings.tadThreshold settings.maxThreads
  if z.elementWiseStride ≥ 1 ∧ x.elementWiseStride ≥ 1 ∧ y.elementWiseStride ≥ 1 then
    some (iterations (ewsCells x y z) state xs ys zs y.length z.length schedule)
  else if threads > 1 then
    none
  else
    some (iterations (coordinateCells x y z) state xs ys zs y.length z.length schedule)

end Operation

/-! ## The search -/

section Search

variable {T : Type*} [Field T] [LinearOrder T] {prob : T} {m : Nat}

/-- `f` is the first number whose sum of probabilities reaches the draw, or the last one. -/
structure IsChoice (prob : T) (probs : Nat → T) (m f : Nat) : Prop where
  lt : f < m
  below : ∀ g < f, ∑ i ∈ range (g + 1), probs i < prob
  reached : prob ≤ ∑ i ∈ range (f + 1), probs i ∨ f = m - 1

/-- There is one choice. -/
theorem IsChoice.unique {probs : Nat → T} {f f' : Nat} (h : IsChoice prob probs m f)
    (h' : IsChoice prob probs m f') : f = f' := by
  have hle : ∀ {f f' : Nat}, IsChoice prob probs m f → IsChoice prob probs m f' → f ≤ f' := by
    intro f f' h h'
    by_contra hlt
    rcases h'.reached with hreached | hlast
    · exact absurd hreached (not_le.mpr (h.below f' (by omega)))
    · have hm := h.lt
      omega
  exact Nat.le_antisymm (hle h h') (hle h' h)

theorem search_eq {ys : Int → T} {cell : Nat → Int} {rest f : Nat} (hrest : f + rest = m)
    (hpos : 0 < rest) {cumProb : T} (hcum : cumProb = ∑ i ∈ range f, ys (cell i))
    (hbelow : ∀ g < f, ∑ i ∈ range (g + 1), ys (cell i) < prob) :
    ∃ f', IsChoice prob (fun i => ys (cell i)) m f' ∧ f ≤ f' ∧
      search prob ys cell m rest f cumProb =
        (some f', (List.range' f (f' + 1 - f)).map cell) := by
  induction rest generalizing f cumProb with
  | zero => exact absurd hpos (Nat.lt_irrefl 0)
  | succ rest ih =>
      have hsum : cumProb + ys (cell f) = ∑ i ∈ range (f + 1), ys (cell i) := by
        rw [sum_range_succ, hcum]
      rw [search, hsum]
      by_cases hstop : prob ≤ ∑ i ∈ range (f + 1), ys (cell i) ∨ f = m - 1
      · refine ⟨f, ⟨by omega, hbelow, hstop⟩, le_rfl, ?_⟩
        simp only [if_pos hstop]
        rw [Nat.add_sub_cancel_left]
        rfl
      · obtain ⟨hlow, hlast⟩ := not_or.mp hstop
        have hbelow' : ∀ g < f + 1, ∑ i ∈ range (g + 1), ys (cell i) < prob := by
          intro g hg
          rcases Nat.lt_succ_iff_lt_or_eq.mp hg with hlt | rfl
          · exact hbelow g hlt
          · exact not_le.mp hlow
        obtain ⟨f', hchoice, hle, hsearch⟩ := @ih (f + 1) (by omega) (by omega) _ rfl hbelow'
        refine ⟨f', hchoice, by omega, ?_⟩
        simp only [if_neg hstop, hsearch]
        rw [show f' + 1 - f = (f' + 1 - (f + 1)) + 1 by omega, List.range'_succ, List.map_cons]

/-- The search stops at the choice, and reads the probabilities up to there. -/
theorem search_spec (prob : T) (ys : Int → T) (cell : Nat → Int) (hm : 0 < m) :
    ∃ f, IsChoice prob (fun i => ys (cell i)) m f ∧
      search prob ys cell m m 0 0 = (some f, (List.range (f + 1)).map cell) := by
  obtain ⟨f, hchoice, -, hsearch⟩ := @search_eq T _ _ prob m ys cell m 0 (Nat.zero_add m) hm 0
    (sum_range_zero _).symm (fun g hg => absurd hg (Nat.not_lt_zero g))
  refine ⟨f, hchoice, ?_⟩
  rw [hsearch, Nat.sub_zero, List.range_eq_range']

end Search

/-! ## The iterations -/

section Iterations

variable {T : Type*} [Field T] [LinearOrder T] {cells : Cells} {state : RandomBuffer}
  {xs ys zs : Int → T} {m n : Nat} {schedule : List Nat}

/-- What the iterations store, in any order, when the outputs have cells of their own. -/
theorem iterations_spec (hm : 0 < m) (hschedule : schedule.Perm (List.range n))
    (hz : ∀ k < n, ∀ k' < n, cells.z k = cells.z k' → k = k') {k : Nat} (hk : k < n) :
    ∃ f, IsChoice (state.relativeT k) (fun i => ys (cells.y k i)) m f ∧
      (iterations cells state xs ys zs m n schedule).z (cells.z k) = xs (cells.x f) := by
  choose chosen hchosen hsearch using
    fun e => search_spec (state.relativeT e) ys (cells.y e) hm
  refine ⟨chosen k, hchosen k, ?_⟩
  have hsteps : (schedule.filterMap fun e =>
      (search (state.relativeT e) ys (cells.y e) m m 0 0).1.map fun f => (e, f)) =
      schedule.map fun e => (e, chosen e) := by
    rw [← List.filterMap_eq_map]
    refine List.filterMap_congr fun e _ => ?_
    rw [hsearch e]
    rfl
  have hcells : ((schedule.map fun e => (e, chosen e)).map fun store : Nat × Nat =>
      cells.z store.1).Nodup := by
    rw [List.map_map]
    refine (hschedule.nodup_iff.mpr List.nodup_range).map_on fun e he e' he' heq => ?_
    exact hz e (List.mem_range.mp (hschedule.mem_iff.mp he)) e'
      (List.mem_range.mp (hschedule.mem_iff.mp he')) heq
  have hmem : (k, chosen k) ∈ schedule.map fun e => (e, chosen e) :=
    List.mem_map.mpr ⟨k, hschedule.mem_iff.mpr (List.mem_range.mpr hk), rfl⟩
  rw [iterations]
  simp only [hsteps]
  exact Stores.storeAll_of_independent hcells (fun _ _ _ _ _ _ _ => rfl) zs hmem

/-- A cell that is no output's keeps its value. -/
theorem iterations_frame (hschedule : schedule.Perm (List.range n)) {c : Int}
    (hc : ∀ k < n, cells.z k ≠ c) :
    (iterations cells state xs ys zs m n schedule).z c = zs c := by
  refine Stores.storeAll_of_not_written (fun store hstore => ?_) zs
  obtain ⟨e, he, hstore⟩ := List.mem_filterMap.mp hstore
  obtain ⟨f, -, rfl⟩ := Option.map_eq_some_iff.mp hstore
  exact hc e (List.mem_range.mp (hschedule.mem_iff.mp he))

/-- The cells of `y` that the iterations read: from the first one on, for every output. -/
theorem mem_reads (hm : 0 < m) (hschedule : schedule.Perm (List.range n)) {c : Int} :
    c ∈ (iterations cells state xs ys zs m n schedule).reads ↔
      ∃ k < n, ∃ f, IsChoice (state.relativeT k) (fun i => ys (cells.y k i)) m f ∧
        ∃ g ≤ f, cells.y k g = c := by
  simp only [iterations, List.mem_flatMap]
  constructor
  · rintro ⟨k, hk, hc⟩
    obtain ⟨f, hchoice, hsearch⟩ := search_spec (state.relativeT k) ys (cells.y k) hm
    rw [hsearch, List.mem_map] at hc
    obtain ⟨g, hg, rfl⟩ := hc
    exact ⟨k, List.mem_range.mp (hschedule.mem_iff.mp hk), f, hchoice, g,
      Nat.le_of_lt_succ (List.mem_range.mp hg), rfl⟩
  · rintro ⟨k, hk, f, hchoice, g, hg, rfl⟩
    refine ⟨k, hschedule.mem_iff.mpr (List.mem_range.mpr hk), ?_⟩
    obtain ⟨f', hchoice', hsearch⟩ := search_spec (state.relativeT k) ys (cells.y k) hm
    rw [hsearch, List.mem_map, ← hchoice.unique hchoice']
    exact ⟨g, List.mem_range.mpr (Nat.lt_succ_of_le hg), rfl⟩

/-- The last probability does not matter. -/
theorem IsChoice.congr {prob : T} {probs probs' : Nat → T} {f : Nat}
    (h : IsChoice prob probs m f) (heq : ∀ i, i + 1 < m → probs i = probs' i) :
    IsChoice prob probs' m f := by
  have hsum : ∀ g, g + 1 < m →
      ∑ i ∈ range (g + 1), probs i = ∑ i ∈ range (g + 1), probs' i := by
    intro g hg
    refine sum_congr rfl fun i hi => heq i ?_
    rw [mem_range] at hi
    omega
  have hlt := h.lt
  refine ⟨hlt, fun g hg => ?_, ?_⟩
  · rw [← hsum g (by omega)]
    exact h.below g hg
  · rcases Nat.lt_or_ge (f + 1) m with hmore | hlast
    · rw [← hsum f hmore]
      exact h.reached
    · exact .inr (by omega)

end Iterations

/-! ## Choosing right -/

section Right

variable {T : Type*} [Field T] [LinearOrder T]

/-- For every source, all non-negative probabilities and every buffer, in any order of the
iterations: position `k` of the output holds the element of the source that the `k`-th draw
chooses, and the probabilities are read inside their array. -/
def ChoosesRight (T : Type*) [Field T] [LinearOrder T] (settings : Settings)
    (x y z : ShapeInfo) : Prop :=
  ∀ (state : RandomBuffer) (xs ys zs : Int → T), (∀ c, 0 ≤ ys c) →
    ∀ schedule : List Nat, schedule.Perm (List.range z.length) →
      ∃ outcome, specialOp settings state x y z xs ys zs schedule = some outcome ∧
        (∀ k < z.length, ∃ f,
          IsChoice (state.relativeT k) (fun i => ys (ownCell y i)) y.length f ∧
            outcome.z (ownCell z k) = xs (ownCell x f)) ∧
        ∀ c ∈ outcome.reads, ∃ f < y.length, ownCell y f = c

/-- The arrays have element-wise strides; or there is no output; or one thread walks arrays at the
offset zero, with one probability, or with two of them for one output, where the second element
of the source is the second one in F order too. -/
def Condition (settings : Settings) (x y z : ShapeInfo) : Prop :=
  (z.elementWiseStride ≥ 1 ∧ x.elementWiseStride ≥ 1 ∧ y.elementWiseStride ≥ 1) ∨
    z.length = 0 ∨
    (numThreads z.length settings.tadThreshold settings.maxThreads ≤ 1 ∧
      z.offset = 0 ∧ x.offset = 0 ∧ y.offset = 0 ∧
      (y.length = 1 ∨
        y.length = 2 ∧ z.length = 1 ∧ elementOffset true x.axes 1 = ownCell x 1))

variable {settings : Settings} {x y z : ShapeInfo}

/-- Cells that are those of the arrays choose right. -/
theorem right_of_cells (hm : 0 < y.length) (hcellsZ : CellsApart z) {cells : Cells}
    (hz : ∀ k < z.length, cells.z k = ownCell z k)
    (hx : ∀ f < y.length, cells.x f = ownCell x f)
    (hy : ∀ k < z.length, ∀ i, i + 1 < y.length → cells.y k i = ownCell y i)
    (hreads : ∀ k < z.length, ∀ i < y.length, ∃ f < y.length, ownCell y f = cells.y k i)
    (state : RandomBuffer) (xs ys zs : Int → T) {schedule : List Nat}
    (hschedule : schedule.Perm (List.range z.length)) :
    (∀ k < z.length, ∃ f,
        IsChoice (state.relativeT k) (fun i => ys (ownCell y i)) y.length f ∧
          (iterations cells state xs ys zs y.length z.length schedule).z (ownCell z k) =
            xs (ownCell x f)) ∧
      ∀ c ∈ (iterations cells state xs ys zs y.length z.length schedule).reads,
        ∃ f < y.length, ownCell y f = c := by
  have hinj : ∀ k < z.length, ∀ k' < z.length, cells.z k = cells.z k' → k = k' := by
    intro k hk k' hk' heq
    rw [hz k hk, hz k' hk'] at heq
    exact elementOffset_inj (positive_of_length (Nat.zero_lt_of_lt hk)) hcellsZ _ hk hk' heq
  constructor
  · intro k hk
    obtain ⟨f, hchoice, hstored⟩ := @iterations_spec T _ _ cells state xs ys zs y.length z.length
      schedule hm hschedule hinj k hk
    rw [hz k hk, hx f hchoice.lt] at hstored
    exact ⟨f, hchoice.congr fun i hi => by rw [hy k hk i hi], hstored⟩
  · intro c hc
    obtain ⟨k, hk, f, hchoice, g, hg, rfl⟩ := (mem_reads hm hschedule).mp hc
    exact hreads k hk g (Nat.lt_of_le_of_lt hg hchoice.lt)

/-! ### The condition is enough -/

theorem numThreads_zero (threshold maxThreads : Nat) : numThreads 0 threshold maxThreads ≤ 1 := by
  have hzero : toInt32 ((0 / threshold : Nat) : Int) = 0 := by
    rw [Nat.zero_div]
    rfl
  rw [numThreads, hzero]
  omega

/-- An iteration over no output changes nothing. -/
theorem right_of_empty (hz : z.length = 0) : ChoosesRight T settings x y z := by
  intro state xs ys zs _ schedule hschedule
  rw [hz, List.range_zero, List.perm_nil] at hschedule
  subst hschedule
  have hthreads : ¬ numThreads z.length settings.tadThreshold settings.maxThreads > 1 := by
    rw [hz]
    exact Nat.not_lt.mpr (numThreads_zero _ _)
  have hnone : ∀ cells : Cells, ∀ k < z.length, ∃ f,
      IsChoice (state.relativeT k) (fun i => ys (ownCell y i)) y.length f ∧
        (iterations cells state xs ys zs y.length z.length []).z (ownCell z k) =
          xs (ownCell x f) := by
    intro cells k hk
    omega
  simp only [specialOp, if_neg hthreads]
  split
  · exact ⟨_, rfl, hnone _, fun c hc => absurd hc List.not_mem_nil⟩
  · exact ⟨_, rfl, hnone _, fun c hc => absurd hc List.not_mem_nil⟩

/-- With element-wise strides the cells are those of the arrays. -/
theorem right_of_ews (hm : 0 < y.length) (hxy : y.length ≤ x.length) (hcellsZ : CellsApart z)
    (hewsX : x.HonestEws) (hewsY : y.HonestEws) (hewsZ : z.HonestEws)
    (h : z.elementWiseStride ≥ 1 ∧ x.elementWiseStride ≥ 1 ∧ y.elementWiseStride ≥ 1) :
    ChoosesRight T settings x y z := by
  intro state xs ys zs _ schedule hschedule
  rw [specialOp]
  simp only [if_pos h]
  refine ⟨_, rfl, right_of_cells hm hcellsZ ?_ ?_ ?_ ?_ state xs ys zs hschedule⟩
  · exact fun k hk => (ownCell_of_honest hewsZ h.1 hk).symm
  · exact fun f hf => (ownCell_of_honest hewsX h.2.1 (hf.trans_le hxy)).symm
  · exact fun _ _ i hi => (ownCell_of_honest hewsY h.2.2 (Nat.lt_of_succ_lt hi)).symm
  · exact fun _ _ i hi => ⟨i, hi, ownCell_of_honest hewsY h.2.2 hi⟩

/-- The cells of the path with coordinates. -/
theorem coordinateCells_z {k : Nat} (hk : k < z.length) :
    (coordinateCells x y z).z k = z.offset + elementOffset true z.axes k :=
  getOffset_ind2sub_eq (positive_of_length (Nat.zero_lt_of_lt hk)) hk _

theorem coordinateCells_x {f : Nat} (hf : f < x.length) :
    (coordinateCells x y z).x f = x.offset + elementOffset true x.axes f :=
  getOffset_ind2sub_eq (positive_of_length (Nat.zero_lt_of_lt hf)) hf _

theorem coordinateCells_y {i : Nat} (hi : i < y.length) (f : Nat) :
    (coordinateCells x y z).y i f = y.offset + elementOffset true y.axes i :=
  getOffset_ind2sub_eq (positive_of_length (Nat.zero_lt_of_lt hi)) hi _

theorem coordinateCells_z_inj (hcellsZ : CellsApart z) :
    ∀ k < z.length, ∀ k' < z.length,
      (coordinateCells x y z).z k = (coordinateCells x y z).z k' → k = k' := by
  intro k hk k' hk' heq
  rw [coordinateCells_z hk, coordinateCells_z hk', add_right_inj] at heq
  exact elementOffset_inj (positive_of_length (Nat.zero_lt_of_lt hk)) hcellsZ true hk hk' heq

/-- An array of one element has it at every coordinate that is asked for. -/
theorem getOffset_of_length_one (baseOffset : Int) (h : y.length = 1) (coords : List Nat) :
    getOffset baseOffset y.shape y.stride coords = baseOffset := by
  have hones : ∀ d ∈ y.shape, d = 1 := fun d hd =>
    Nat.dvd_one.mp (h ▸ List.dvd_prod hd)
  generalize hstride : y.stride = stride
  generalize y.shape = shape at hones
  clear hstride
  induction shape generalizing stride coords with
  | nil => rfl
  | cons d ds ih =>
      have hd : d = 1 := hones d List.mem_cons_self
      cases stride with
      | nil => rfl
      | cons s ss =>
          cases coords with
          | nil => rfl
          | cons c cs =>
              rw [getOffset, if_neg (by simp [hd]), if_neg (by simp [hd])]
              exact ih _ _ fun e he => hones e (List.mem_cons_of_mem d he)

/-- With one probability every output gets the first element. -/
theorem right_of_one (hxy : y.length ≤ x.length) (hcellsZ : CellsApart z)
    (hthreads : numThreads z.length settings.tadThreshold settings.maxThreads ≤ 1)
    (hz : z.offset = 0) (hx : x.offset = 0) (hy : y.offset = 0) (hone : y.length = 1)
    (hews : ¬ (z.elementWiseStride ≥ 1 ∧ x.elementWiseStride ≥ 1 ∧ y.elementWiseStride ≥ 1)) :
    ChoosesRight T settings x y z := by
  intro state xs ys zs _ schedule hschedule
  have hm : 0 < y.length := by omega
  simp only [specialOp, if_neg hews, if_neg (Nat.not_lt.mpr hthreads)]
  refine ⟨_, rfl, fun k hk => ?_, fun c hc => ?_⟩
  · have hpos := positive_of_length (Nat.zero_lt_of_lt hk)
    -- the output is an element in F order
    obtain ⟨k', hk', hcell⟩ := exists_elementOffset_eq hpos true z.isFOrder hk
    obtain ⟨f, hchoice, hstored⟩ := @iterations_spec T _ _ (coordinateCells x y z) state xs ys zs
      y.length z.length schedule hm hschedule (coordinateCells_z_inj hcellsZ) k' hk'
    have hf : f = 0 := by
      have hlt := hchoice.lt
      omega
    subst hf
    have hxlength : 0 < x.length := by omega
    rw [coordinateCells_z hk', hz, zero_add, hcell, coordinateCells_x hxlength, hx, zero_add,
      elementOffset_zero hxlength, ← elementOffset_zero hxlength x.isFOrder] at hstored
    refine ⟨0, ⟨by omega, fun g hg => absurd hg (Nat.not_lt_zero g), .inr (by omega)⟩, hstored⟩
  · obtain ⟨k, hk, f, hchoice, g, hg, rfl⟩ := (mem_reads hm hschedule).mp hc
    refine ⟨0, hm, ?_⟩
    show ownCell y 0 = getOffset y.offset y.shape y.stride (ind2sub y.shape k)
    rw [getOffset_of_length_one _ hone, hy]
    exact elementOffset_zero hm _

/-- With two probabilities one output is right. -/
theorem right_of_two (hxy : y.length ≤ x.length) (hcellsZ : CellsApart z)
    (hthreads : numThreads z.length settings.tadThreshold settings.maxThreads ≤ 1)
    (hz : z.offset = 0) (hx : x.offset = 0) (hy : y.offset = 0) (htwo : y.length = 2)
    (hone : z.length = 1) (hsecond : elementOffset true x.axes 1 = ownCell x 1)
    (hews : ¬ (z.elementWiseStride ≥ 1 ∧ x.elementWiseStride ≥ 1 ∧ y.elementWiseStride ≥ 1)) :
    ChoosesRight T settings x y z := by
  intro state xs ys zs _ schedule hschedule
  have hm : 0 < y.length := by omega
  have hxlength : 0 < x.length := by omega
  have hzlength : 0 < z.length := by omega
  have hfirst : ∀ i, (coordinateCells x y z).y 0 i = ownCell y 0 := by
    intro i
    rw [coordinateCells_y hm, hy, zero_add, elementOffset_zero hm]
    exact (elementOffset_zero hm _).symm
  simp only [specialOp, if_neg hews, if_neg (Nat.not_lt.mpr hthreads)]
  refine ⟨_, rfl, right_of_cells hm hcellsZ ?_ ?_ ?_ ?_ state xs ys zs hschedule⟩
  · intro k hk
    obtain rfl : k = 0 := by omega
    rw [coordinateCells_z hk, hz, zero_add, elementOffset_zero hzlength]
    exact (elementOffset_zero hzlength _).symm
  · intro f hf
    rw [coordinateCells_x (hf.trans_le hxy), hx, zero_add]
    obtain rfl | rfl : f = 0 ∨ f = 1 := by omega
    · rw [elementOffset_zero hxlength]
      exact (elementOffset_zero hxlength _).symm
    · exact hsecond
  · intro k hk i hi
    obtain rfl : k = 0 := by omega
    obtain rfl : i = 0 := by omega
    exact hfirst 0
  · intro k hk i hi
    obtain rfl : k = 0 := by omega
    exact ⟨0, hm, (hfirst i).symm⟩

/-- The condition is enough, also for sources and probabilities that share cells. -/
theorem choosesRight_of_condition (hm : 0 < y.length) (hxy : y.length ≤ x.length)
    (hcellsZ : CellsApart z) (hewsX : x.HonestEws) (hewsY : y.HonestEws) (hewsZ : z.HonestEws)
    (h : Condition settings x y z) : ChoosesRight T settings x y z := by
  by_cases hews : z.elementWiseStride ≥ 1 ∧ x.elementWiseStride ≥ 1 ∧ y.elementWiseStride ≥ 1
  · exact right_of_ews hm hxy hcellsZ hewsX hewsY hewsZ hews
  · rcases h with hews' | hzero | ⟨hthreads, hz, hx, hy, hone | ⟨htwo, hlength, hsecond⟩⟩
    · exact absurd hews' hews
    · exact right_of_empty hzero
    · exact right_of_one hxy hcellsZ hthreads hz hx hy hone hews
    · exact right_of_two hxy hcellsZ hthreads hz hx hy htwo hlength hsecond hews

/-! ### The condition is necessary -/

/-- A probability at the first element only. -/
def atFirst (p : T) (c : Int) : T :=
  if c = 0 then p else 0

theorem atFirst_nonneg {p : T} (hp : 0 ≤ p) (c : Int) : 0 ≤ atFirst p c := by
  rw [atFirst]
  split
  · exact hp
  · exact le_rfl

section Necessary

variable [IsStrictOrderedRing T]

/-- A buffer of the largest word, which is the draw of one. -/
def allOnes (size : Nat) : RandomBuffer where
  size := size
  buffer := fun _ => 18446744073709551615
  seed := 0
  currentPosition := 0
  generation := 1
  amplifier := 0

theorem relativeT_allOnes {size k : Nat} (hk : k < size) :
    ((allOnes size).relativeT k : T) = 1 := by
  have hword : (allOnes size).getElement k = 18446744073709551615 := by
    rw [RandomBuffer.getElement, if_neg (by rw [allOnes]; dsimp only; omega)]
    rfl
  rw [RandomBuffer.relativeT, hword]
  show ((18446744073709551615 : Nat) : T) / ((18446744073709551615 : Nat) : T) = 1
  exact div_self (Nat.cast_ne_zero.mpr (by decide))

/-- What a right call of the path with coordinates gives: it runs in one thread. -/
theorem specialOp_coordinates (h : ChoosesRight T settings x y z)
    (hews : ¬ (z.elementWiseStride ≥ 1 ∧ x.elementWiseStride ≥ 1 ∧ y.elementWiseStride ≥ 1)) :
    numThreads z.length settings.tadThreshold settings.maxThreads ≤ 1 ∧
      ∀ (xs ys zs : Int → T), (∀ c, 0 ≤ ys c) →
        (∀ k < z.length, ∃ f, IsChoice 1 (fun i => ys (ownCell y i)) y.length f ∧
          (iterations (coordinateCells x y z) (allOnes z.length) xs ys zs y.length z.length
            (List.range z.length)).z (ownCell z k) = xs (ownCell x f)) ∧
        ∀ c ∈ (iterations (coordinateCells x y z) (allOnes z.length) xs ys zs y.length z.length
            (List.range z.length)).reads, ∃ f < y.length, ownCell y f = c := by
  have hthreads : ¬ numThreads z.length settings.tadThreshold settings.maxThreads > 1 := by
    intro hrace
    obtain ⟨outcome, hrun, -⟩ := h (allOnes 0) 0 0 0 (fun _ => le_rfl) _ (List.Perm.refl _)
    simp only [specialOp, if_neg hews, if_pos hrace] at hrun
    cases hrun
  refine ⟨Nat.not_lt.mp hthreads, fun xs ys zs hys => ?_⟩
  obtain ⟨outcome, hrun, hright, hreads⟩ :=
    h (allOnes z.length) xs ys zs hys _ (List.Perm.refl _)
  simp only [specialOp, if_neg hews, if_neg hthreads, Option.some.injEq] at hrun
  subst hrun
  refine ⟨fun k hk => ?_, hreads⟩
  obtain ⟨f, hchoice, hstored⟩ := hright k hk
  rw [relativeT_allOnes hk] at hchoice
  exact ⟨f, hchoice, hstored⟩

variable (h : ChoosesRight T settings x y z)
  (hews : ¬ (z.elementWiseStride ≥ 1 ∧ x.elementWiseStride ≥ 1 ∧ y.elementWiseStride ≥ 1))
  (hn : 0 < z.length) (hm : 0 < y.length) (hxy : y.length ≤ x.length)
  (hcellsX : CellsApart x) (hcellsY : CellsApart y) (hcellsZ : CellsApart z)

include h hews hn in
/-- All positions are written, so the walk through the output starts at its first cell. -/
theorem offset_z_of_right : z.offset = 0 := by
  have hpos := positive_of_length hn
  obtain ⟨hright, -⟩ := (specialOp_coordinates h hews).2 1 0 0 fun _ => le_rfl
  refine @Translates.eq_zero_of_subset_translate Int _ _ ((List.range z.length).map (ownCell z))
    (by simp; omega) z.offset fun c hc => ?_
  obtain ⟨k, hk, rfl⟩ := List.mem_map.mp hc
  rw [List.mem_range] at hk
  obtain ⟨f, -, hstored⟩ := hright k hk
  by_contra hnone
  rw [iterations_frame (List.Perm.refl _) fun j hj heq => hnone ?_] at hstored
  · exact zero_ne_one hstored
  · rw [coordinateCells_z hj] at heq
    obtain ⟨j', hj', hcell⟩ := exists_elementOffset_eq hpos z.isFOrder true hj
    rw [List.map_map]
    refine List.mem_map.mpr ⟨j', List.mem_range.mpr hj', ?_⟩
    show z.offset + ownCell z j' = ownCell z k
    rw [← heq, ← hcell]
    rfl

include h hews hn hm hcellsZ in
/-- A position of the walk holds the element that the draw of one chooses. -/
theorem chosen_cells {ys : Int → T} (hys : ∀ c, 0 ≤ ys c) {j k : Nat} (hj : j < z.length)
    (hk : k < z.length) (hcell : elementOffset true z.axes j = ownCell z k) :
    ∃ f f', IsChoice 1 (fun i => ys ((coordinateCells x y z).y j i)) y.length f ∧
      IsChoice 1 (fun i => ys (ownCell y i)) y.length f' ∧
      (coordinateCells x y z).x f = ownCell x f' := by
  have hoffset := offset_z_of_right h hews hn
  obtain ⟨hright, -⟩ := (specialOp_coordinates h hews).2 (fun c => (c : T)) ys 0 hys
  obtain ⟨f', hchoice', hstored'⟩ := hright k hk
  obtain ⟨f, hchoice, hstored⟩ := @iterations_spec T _ _ (coordinateCells x y z)
    (allOnes z.length) (fun c => (c : T)) ys 0 y.length z.length _ hm (List.Perm.refl _)
    (coordinateCells_z_inj hcellsZ) j hj
  rw [relativeT_allOnes hj] at hchoice
  rw [coordinateCells_z hj, hoffset, zero_add, hcell, hstored'] at hstored
  exact ⟨f, f', hchoice, hchoice', (Int.cast_injective hstored).symm⟩

/-- With equal probabilities every number is chosen. -/
theorem isChoice_const {m f : Nat} (hf : f < m) :
    IsChoice (1 : T) (fun _ => 1 / ((f : T) + 1)) m f := by
  have hpos : (0 : T) < (f : T) + 1 := by positivity
  have hsum : ∀ g : Nat, ∑ _i ∈ range (g + 1), 1 / ((f : T) + 1) = ((g : T) + 1) / ((f : T) + 1) := by
    intro g
    rw [sum_const, card_range, nsmul_eq_mul, Nat.cast_succ, mul_one_div]
  refine ⟨hf, fun g hg => ?_, .inl ?_⟩
  · have hlt : (g : T) < f := Nat.cast_lt.mpr hg
    rw [hsum, div_lt_one hpos]
    exact add_lt_add_left hlt 1
  · rw [hsum, div_self hpos.ne']

include h hews hn hm hcellsZ in
/-- The walk through the source meets its elements. -/
theorem cells_x_of_right {f : Nat} (hf : f < y.length) :
    (coordinateCells x y z).x f = ownCell x f := by
  have hfirst : elementOffset true z.axes 0 = ownCell z 0 :=
    (elementOffset_zero hn true).trans (elementOffset_zero hn _).symm
  have hconst : ∀ _ : Int, 0 ≤ 1 / ((f : T) + 1) := fun _ => by positivity
  obtain ⟨g, g', hchoice, hchoice', hcell⟩ :=
    chosen_cells h hews hn hm hcellsZ hconst hn hn hfirst
  rwa [hchoice.unique (isChoice_const hf), hchoice'.unique (isChoice_const hf)] at hcell

omit [LinearOrder T] [IsStrictOrderedRing T] in
include hm hcellsY in
theorem sum_atFirst (p : T) {g : Nat} (hg : g < y.length) :
    ∑ i ∈ range (g + 1), atFirst p (ownCell y i) = p := by
  have hpos := positive_of_length hm
  rw [sum_eq_single 0]
  · exact if_pos (elementOffset_zero hm _)
  · intro i hi hne
    rw [mem_range] at hi
    refine if_neg fun hzero => hne ?_
    exact elementOffset_inj hpos hcellsY y.isFOrder (by omega) hm
      (hzero.trans (elementOffset_zero hm _).symm)
  · intro hnot
    exact absurd (mem_range.mpr (Nat.succ_pos g)) hnot

omit [IsStrictOrderedRing T] in
include hm hcellsY in
/-- With all of the probability at the first element the draw of one chooses it. -/
theorem isChoice_atFirst : IsChoice (1 : T) (fun i => atFirst 1 (ownCell y i)) y.length 0 :=
  ⟨hm, fun g hg => absurd hg (Nat.not_lt_zero g), .inl (sum_atFirst hm hcellsY 1 hm).ge⟩

include h hews hn hm hxy hcellsX hcellsZ in
/-- The walk chooses what is to be chosen. -/
theorem isChoice_of_right {ys : Int → T} (hys : ∀ c, 0 ≤ ys c) {j k : Nat} (hj : j < z.length)
    (hk : k < z.length) (hcell : elementOffset true z.axes j = ownCell z k) :
    ∃ f, IsChoice 1 (fun i => ys ((coordinateCells x y z).y j i)) y.length f ∧
      IsChoice 1 (fun i => ys (ownCell y i)) y.length f := by
  obtain ⟨f, f', hchoice, hchoice', hcells⟩ :=
    chosen_cells h hews hn hm hcellsZ hys hj hk hcell
  rw [cells_x_of_right h hews hn hm hcellsZ hchoice.lt] at hcells
  have heq := elementOffset_inj (positive_of_length (hm.trans_le hxy)) hcellsX x.isFOrder
    (hchoice.lt.trans_le hxy) (hchoice'.lt.trans_le hxy) hcells
  exact ⟨f, hchoice, heq ▸ hchoice'⟩

include h hews hn hm hxy hcellsZ in
theorem offset_x_of_right : x.offset = 0 := by
  have hx : 0 < x.length := hm.trans_le hxy
  have hcell := cells_x_of_right h hews hn hm hcellsZ hm
  rw [coordinateCells_x hx, elementOffset_zero hx, add_zero] at hcell
  exact hcell.trans (elementOffset_zero hx _)

include h hews hn hm hxy hcellsX hcellsY hcellsZ

/-- The walk through the probabilities starts at the first one. -/
theorem offset_y_of_right : y.offset = 0 := by
  have hfirst : elementOffset true z.axes 0 = ownCell z 0 :=
    (elementOffset_zero hn true).trans (elementOffset_zero hn _).symm
  have hcell : ∀ i, (coordinateCells x y z).y 0 i = y.offset := by
    intro i
    rw [coordinateCells_y hm, elementOffset_zero hm, add_zero]
  obtain ⟨f, hchoice, hchoice'⟩ := isChoice_of_right h hews hn hm hxy hcellsX hcellsZ
    (atFirst_nonneg zero_le_one) hn hn hfirst
  obtain rfl := hchoice'.unique (isChoice_atFirst hm hcellsY)
  rcases hchoice.reached with hreached | hlast
  · rw [sum_range_one, hcell] at hreached
    by_contra hne
    rw [atFirst, if_neg hne] at hreached
    exact absurd hreached (not_le.mpr zero_lt_one)
  · -- a single probability is read at the offset
    obtain ⟨-, hreads⟩ := (specialOp_coordinates h hews).2 0 0 0 fun _ => le_rfl
    obtain ⟨f, hf, heq⟩ := hreads y.offset ((mem_reads hm (List.Perm.refl _)).mpr
      ⟨0, hn, 0, ⟨hm, fun g hg => absurd hg (Nat.not_lt_zero g), .inr hlast⟩, 0, le_rfl, hcell 0⟩)
    obtain rfl : f = 0 := by omega
    rw [← heq]
    exact elementOffset_zero hm _

/-- There are at most two probabilities. -/
theorem length_le_two_of_right : y.length ≤ 2 := by
  by_contra hmany
  have hfirst : elementOffset true z.axes 0 = ownCell z 0 :=
    (elementOffset_zero hn true).trans (elementOffset_zero hn _).symm
  have hoffset := offset_y_of_right h hews hn hm hxy hcellsX hcellsY hcellsZ
  have hcell : ∀ i, (coordinateCells x y z).y 0 i = 0 := by
    intro i
    rw [coordinateCells_y hm, elementOffset_zero hm, add_zero, hoffset]
  have hhalf : (0 : T) ≤ 1 / 2 := by positivity
  obtain ⟨f, hchoice, hchoice'⟩ := isChoice_of_right h hews hn hm hxy hcellsX hcellsZ
    (atFirst_nonneg hhalf) hn hn hfirst
  -- the walk adds the first probability up and stops at the second one
  have hsecond : IsChoice (1 : T)
      (fun i => atFirst (1 / 2) ((coordinateCells x y z).y 0 i)) y.length 1 := by
    simp only [hcell, atFirst, if_pos]
    refine ⟨by omega, fun g hg => ?_, .inl ?_⟩
    · obtain rfl : g = 0 := by omega
      norm_num
    · norm_num
  obtain rfl := hchoice.unique hsecond
  rcases hchoice'.reached with hreached | hlast
  · rw [sum_atFirst hm hcellsY (1 / 2) (by omega)] at hreached
    norm_num at hreached
  · omega

/-- Two probabilities serve one output. -/
theorem length_z_of_right (htwo : y.length = 2) : z.length = 1 := by
  by_contra hmany
  have hsecond : 1 < z.length := by omega
  have hposZ := positive_of_length hn
  have hposY := positive_of_length hm
  have hoffset := offset_y_of_right h hews hn hm hxy hcellsX hcellsY hcellsZ
  obtain ⟨k, hk, hcell⟩ := exists_elementOffset_eq hposZ z.isFOrder true hsecond
  obtain ⟨f, hchoice, hchoice'⟩ := isChoice_of_right h hews hn hm hxy hcellsX hcellsZ
    (atFirst_nonneg zero_le_one) hsecond hk hcell.symm
  obtain rfl := hchoice'.unique (isChoice_atFirst hm hcellsY)
  -- the second output looks the second probability up
  have hne : (coordinateCells x y z).y 1 0 ≠ 0 := by
    rw [coordinateCells_y (by omega), hoffset, zero_add]
    intro hzero
    have heq := elementOffset_inj hposY hcellsY true (by omega) hm
      (hzero.trans (elementOffset_zero hm true).symm)
    omega
  rcases hchoice.reached with hreached | hlast
  · rw [sum_range_one, atFirst, if_neg hne] at hreached
    exact absurd hreached (not_le.mpr zero_lt_one)
  · omega

/-- The condition is necessary for sources and probabilities whose elements have cells of their
own. -/
theorem condition_of_choosesRight : Condition settings x y z := by
  have hx := offset_x_of_right h hews hn hm hxy hcellsZ
  have htwo := length_le_two_of_right h hews hn hm hxy hcellsX hcellsY hcellsZ
  refine .inr (.inr ⟨(specialOp_coordinates h hews).1, offset_z_of_right h hews hn, hx,
    offset_y_of_right h hews hn hm hxy hcellsX hcellsY hcellsZ, ?_⟩)
  rcases Nat.lt_or_ge 1 y.length with hmore | hone
  · refine .inr ⟨by omega, length_z_of_right h hews hn hm hxy hcellsX hcellsY hcellsZ (by omega),
      ?_⟩
    have hcell := cells_x_of_right h hews hn hm hcellsZ hmore
    rwa [coordinateCells_x (hmore.trans_le hxy), hx, zero_add] at hcell
  · exact .inl (by omega)

end Necessary

/-- The operation chooses right exactly under the condition: it is enough for every source and
all probabilities, and necessary where their elements have cells of their own. -/
theorem choosesRight_iff [IsStrictOrderedRing T] (hm : 1 ≤ y.length)
    (hxy : y.length ≤ x.length) (hcellsZ : CellsApart z) (hewsX : x.HonestEws)
    (hewsY : y.HonestEws) (hewsZ : z.HonestEws) :
    (Condition settings x y z → ChoosesRight T settings x y z) ∧
      (CellsApart x → CellsApart y → ChoosesRight T settings x y z →
        Condition settings x y z) := by
  refine ⟨choosesRight_of_condition hm hxy hcellsZ hewsX hewsY hewsZ,
    fun hcellsX hcellsY h => ?_⟩
  rcases Nat.eq_zero_or_pos z.length with hzero | hn
  · exact .inr (.inl hzero)
  · by_cases hews : z.elementWiseStride ≥ 1 ∧ x.elementWiseStride ≥ 1 ∧ y.elementWiseStride ≥ 1
    · exact .inl hews
    · exact condition_of_choosesRight h hews hn hm hxy hcellsX hcellsY hcellsZ

end Right

/-- Two elements in two cells, with an element-wise stride. -/
def pair : ShapeInfo where
  shape := [2]
  stride := [1]
  offset := 0
  elementWiseStride := 1
  order := 'c'
  stride_length := by decide

theorem cellsApart_pair : CellsApart pair :=
  cellsApart_of_nodup (by decide) (by decide)

theorem choosesRight_iff_pair :
    (Condition (Settings.initial 1 (by decide)) pair pair pair →
        ChoosesRight ℚ (Settings.initial 1 (by decide)) pair pair pair) ∧
      (CellsApart pair → CellsApart pair →
        ChoosesRight ℚ (Settings.initial 1 (by decide)) pair pair pair →
          Condition (Settings.initial 1 (by decide)) pair pair pair) :=
  choosesRight_iff (by decide) (by decide) cellsApart_pair (by decide) (by decide) (by decide)

/-- The upper left quarter of a table of four columns: it has no element-wise stride. -/
def corner : ShapeInfo where
  shape := [2, 2]
  stride := [4, 1]
  offset := 0
  elementWiseStride := 0
  order := 'c'
  stride_length := rfl

/-- Four probabilities without an element-wise stride, on one thread. -/
theorem not_choosesRight_always :
    ¬ ∀ (settings : Settings) (x y z : ShapeInfo), 1 ≤ y.length → y.length ≤ x.length →
      CellsApart z → x.HonestEws → y.HonestEws → z.HonestEws →
        ChoosesRight ℚ settings x y z := by
  intro h
  have hcells : CellsApart corner := cellsApart_of_nodup (by decide) (by decide)
  have hright := h (Settings.initial 1 (by decide)) corner corner corner (by decide) (by decide)
    hcells (by decide) (by decide) (by decide)
  have hfew := length_le_two_of_right hright (by decide) (by decide) (by decide) (by decide)
    hcells hcells hcells
  exact absurd hfew (by decide)

end Choice

end Random
end LibND4J
