import LibND4J.Loops.IndexReduce

/-!
# When the index of an element is right

The merges of `IndexReduce::execScalar` keep an extremum that is not exceeded, so an extremum
that two threads have is left by whichever comes first.  A match is kept by its index, but a thread
without a match merges its starting value like one.

Main results:

- Theorem `extremum_outcome_iff`: the outcomes of the search for an extremum.
- Theorem `extremum_iff`: when they are right.
- Theorem `lastIndex_iff` and theorem `firstIndex_iff`: when the outcomes of the search
  for a match are.
- Theorem `returnsWanted_iff`: all six operations together.
-/

namespace LibND4J
namespace Loops

open Shape

variable {K : Type} [Field K] [LinearOrder K]

/-! ## Lowest and highest indices -/

variable {p : Nat → Prop} {n i j k : Nat}

theorem Lowest.unique (hi : Lowest p n i) (hj : Lowest p n j) : i = j := by
  rcases Nat.lt_trichotomy i j with h | h | h
  · exact absurd hi.2.1 (hj.2.2 i h)
  · exact h
  · exact absurd hj.2.1 (hi.2.2 j h)

theorem Highest.unique (hi : Highest p n i) (hj : Highest p n j) : i = j := by
  rcases Nat.lt_trichotomy i j with h | h | h
  · exact absurd hj.2.1 (hi.2.2 j hj.1 h)
  · exact h
  · exact absurd hi.2.1 (hj.2.2 i hi.1 h)

theorem exists_lowest (hk : k < n) (hp : p k) : ∃ i, Lowest p n i := by
  classical
  have hex : ∃ i, p i := ⟨k, hp⟩
  exact ⟨Nat.find hex, (Nat.find_min' hex hp).trans_lt hk, Nat.find_spec hex,
    fun j hj => Nat.find_min hex hj⟩

theorem exists_highest (hk : k < n) (hp : p k) : ∃ i, Highest p n i := by
  classical
  obtain ⟨i, hi, hmax⟩ := ((Finset.range n).filter p).exists_max_image id
    ⟨k, Finset.mem_filter.mpr ⟨Finset.mem_range.mpr hk, hp⟩⟩
  obtain ⟨hin, hpi⟩ := Finset.mem_filter.mp hi
  refine ⟨i, Finset.mem_range.mp hin, hpi, fun j hj hij hpj => ?_⟩
  exact absurd (hmax j (Finset.mem_filter.mpr ⟨Finset.mem_range.mpr hj, hpj⟩)) hij.not_ge

theorem IndexReduceKind.Endmost.unique {kind : IndexReduceKind} (hi : kind.Endmost p n i)
    (hj : kind.Endmost p n j) : i = j := by
  unfold Endmost at hi hj
  split at hi
  · exact hi.unique (by rwa [if_pos (by assumption)] at hj)
  · exact hi.unique (by rwa [if_neg (by assumption)] at hj)

/-- There is an endmost index among some. -/
theorem IndexReduceKind.exists_endmost (kind : IndexReduceKind) (hk : k < n) (hp : p k) :
    ∃ i, kind.Endmost p n i := by
  unfold Endmost
  split
  · exact exists_highest hk hp
  · exact exists_lowest hk hp

/-- The only index that a scan returns when there is one to be found. -/
theorem IndexReduceKind.wanted_iff {kind : IndexReduceKind} {extraParams : MatchParams K}
    {v : Nat → K} (hk : k < n) (hsought : kind.Sought extraParams v n k) (index : Int) :
    kind.Wanted extraParams v n index ↔
      ∃ i, kind.Endmost (kind.Sought extraParams v n) n i ∧ index = i := by
  constructor
  · rintro (h | ⟨hnone, -⟩)
    · exact h
    · exact absurd hsought (hnone k hk)
  · exact Or.inl

/-! ## Extrema -/

/-- The grade that an extremum has to exceed. -/
def IndexReduceKind.bound (kind : IndexReduceKind) : K :=
  match kind with
  | indexAbsoluteMax => minFloat
  | _ => -maxFloat

/-- The kind looks for an extremum. -/
def IndexReduceKind.IsExtremum (kind : IndexReduceKind) : Prop :=
  kind ≠ firstIndex ∧ kind ≠ lastIndex

instance (kind : IndexReduceKind) : Decidable kind.IsExtremum :=
  inferInstanceAs (Decidable (_ ∧ _))

/-- What matters of a result: its grade and its index. -/
def IndexReduceKind.mark (kind : IndexReduceKind) (s : IndexValue K) : K × Int :=
  (kind.grade s.value, s.index)

section Extrema

variable {kind : IndexReduceKind} {extraParams : MatchParams K} {n k : Nat}

theorem IndexReduceKind.IsExtremum.sought_iff (h : kind.IsExtremum) {v : Nat → K} {i : Nat} :
    kind.Sought extraParams v n i ↔ ∀ j < n, kind.grade (v j) ≤ kind.grade (v i) := by
  cases kind with
  | firstIndex => exact absurd rfl h.1
  | lastIndex => exact absurd rfl h.2
  | _ => exact Iff.rfl

theorem IndexReduceKind.IsExtremum.endmost_iff (h : kind.IsExtremum) {p : Nat → Prop} {i : Nat} :
    kind.Endmost p n i ↔ Lowest p n i := by
  rw [Endmost, if_neg h.2]

variable [IsStrictOrderedRing K]

theorem maxFloat_pos : (0 : K) < maxFloat :=
  pow_pos (by norm_num) 37

theorem minFloat_pos : (0 : K) < minFloat :=
  one_div_pos.mpr maxFloat_pos

theorem IndexReduceKind.IsExtremum.mark_start (h : kind.IsExtremum) (x : Int → K) :
    kind.mark (kind.opType.startingIndexValue x) = (kind.bound, 0) := by
  cases kind with
  | indexMax => rfl
  | indexMin => rfl
  | indexAbsoluteMax => exact Prod.ext (abs_of_pos minFloat_pos) rfl
  | indexAbsoluteMin => exact Prod.ext (congrArg Neg.neg (abs_of_pos maxFloat_pos)) rfl
  | firstIndex => exact absurd rfl h.1
  | lastIndex => exact absurd rfl h.2

omit [IsStrictOrderedRing K] in
/-- An update keeps the result that is not exceeded, if grades are compared. -/
theorem mark_updateExtremum {key : K → K} {exceeds : K → K → Prop} [DecidableRel exceeds]
    (hkey : ∀ a, kind.grade (key a) = kind.grade a)
    (hexceeds : ∀ a b, exceeds (key a) (key b) ↔ kind.grade b < kind.grade a) (s t : IndexValue K) :
    kind.mark (updateExtremum key exceeds s t) = TeamMerges.pick (kind.mark s) (kind.mark t) := by
  rw [updateExtremum, TeamMerges.pick]
  by_cases hlt : (kind.mark s).1 < (kind.mark t).1
  · rw [if_pos ((hexceeds _ _).mpr hlt), if_pos hlt]
    exact Prod.ext (hkey t.value) rfl
  · rw [if_neg fun h => hlt ((hexceeds _ _).mp h), if_neg hlt]
    exact Prod.ext (hkey s.value) rfl

theorem IndexReduceKind.IsExtremum.mark_update (h : kind.IsExtremum) (s t : IndexValue K) :
    kind.mark (kind.opType.update s t extraParams) =
      TeamMerges.pick (kind.mark s) (kind.mark t) := by
  cases kind with
  | indexMax => exact mark_updateExtremum (fun a => rfl) (fun a b => Iff.rfl) s t
  | indexMin => exact mark_updateExtremum (fun a => rfl) (fun a b => neg_lt_neg_iff.symm) s t
  | indexAbsoluteMax => exact mark_updateExtremum abs_abs (fun a b => Iff.rfl) s t
  | indexAbsoluteMin =>
      exact mark_updateExtremum (fun a => congrArg Neg.neg (abs_abs a))
        (fun a b => neg_lt_neg_iff.symm) s t
  | firstIndex => exact absurd rfl h.1
  | lastIndex => exact absurd rfl h.2

/-! ### The outcomes -/

variable {settings : Settings} {x : Int → K} {info : ShapeInfo}

/-- An extremum that a run can leave: none before it, of those its thread does. -/
structure Leads (settings : Settings) (kind : IndexReduceKind) (x : Int → K) (info : ShapeInfo)
    (k : Nat) : Prop where
  lt : k < info.length
  sought : ∀ j < info.length, kind.grade (loopElement x info j) ≤ kind.grade (loopElement x info k)
  first : ∀ j < k, (Split settings info → threadOf settings info j = threadOf settings info k) →
    kind.grade (loopElement x info j) < kind.grade (loopElement x info k)

/-- The loops for an extremum, by their marks. -/
theorem IndexReduceKind.IsExtremum.mark_foldl (h : kind.IsExtremum) (extraParams : MatchParams K)
    (x : Int → K) (info : ShapeInfo) (l : List Nat) (s : IndexValue K) :
    kind.mark (l.foldl (kind.opType.absorb extraParams (loopElement x info)) s) =
      FirstBest.scan (fun i => kind.grade (loopElement x info i)) (fun i => (i : Int))
        (kind.mark s) l := by
  induction l generalizing s with
  | nil => rfl
  | cons i l ih =>
      rw [List.foldl_cons, ih, IndexReduceOp.absorb, h.mark_update]
      rfl

omit [IsStrictOrderedRing K] in
/-- The first of the greatest grades of a thread leads, if no other grade exceeds it. -/
theorem leads_of_isFirstMax (hsplit : Split settings info) {t : Nat}
    (hk : FirstBest.IsFirstMax (· < ·)
      (teamChunks (chunkLayout settings info) info.length t).flatten
      (fun i => kind.grade (loopElement x info i)) k)
    (hle : ∀ v, ∀ p ∈ (teamChunks (chunkLayout settings info) info.length v).flatten,
      kind.grade (loopElement x info p) ≤ kind.grade (loopElement x info k)) :
    Leads settings kind x info k := by
  obtain ⟨hlt, hthread⟩ := mem_flatten_teamChunks.mp hk.mem
  refine ⟨hlt, fun j hj => ?_, fun j hj hsame => ?_⟩
  · exact hle (threadOf settings info j) j (mem_flatten_teamChunks.mpr ⟨hj, rfl⟩)
  · have hmem := mem_flatten_teamChunks.mpr ⟨hj.trans hlt, (hsame hsplit).trans hthread⟩
    exact hk.lt j hmem hj

omit [IsStrictOrderedRing K] in
/-- A leading element is the first of the greatest grades of its thread. -/
theorem Leads.isFirstMax (h : Leads settings kind x info k) :
    FirstBest.IsFirstMax (· < ·)
      (teamChunks (chunkLayout settings info) info.length (threadOf settings info k)).flatten
      (fun i => kind.grade (loopElement x info i)) k where
  mem := mem_flatten_teamChunks.mpr ⟨h.lt, rfl⟩
  le := fun j hj => h.sought j (mem_flatten_teamChunks.mp hj).1
  lt := fun j hj hjk => h.first j hjk fun _ => (mem_flatten_teamChunks.mp hj).2

/-- The runs of a team that looks for an extremum, by their marks. -/
theorem IndexReduceKind.IsExtremum.run_eq (h : kind.IsExtremum) (extraParams : MatchParams K)
    (x : Int → K) (info : ShapeInfo) (blocks : Nat → List (List Nat)) (schedule : List Nat) :
    TeamMerges.run blocks
        (fun s i => TeamMerges.pick s (kind.grade (loopElement x info i), (i : Int)))
        TeamMerges.pick (kind.bound, 0) schedule =
      (TeamMerges.run blocks (kind.opType.absorb extraParams (loopElement x info))
        (fun startingIndex own => kind.opType.update startingIndex own extraParams)
        (kind.opType.startingIndexValue x) schedule).map (TeamMerges.State.map kind.mark) := by
  rw [← h.mark_start x]
  exact TeamMerges.run_map (fun s i => h.mark_update s _) (fun s t => h.mark_update s t) _ _

/-- An outcome of the search for an extremum. -/
theorem extremum_cases (h : kind.IsExtremum) (hpos : info.Positive) {index : Int}
    (houtcome : Outcome settings kind x info extraParams index) :
    (∀ i < info.length, kind.grade (loopElement x info i) ≤ kind.bound) ∧ index = 0 ∨
      ∃ k, Leads settings kind x info k ∧ kind.bound < kind.grade (loopElement x info k) ∧
        index = k := by
  by_cases hsplit : Split settings info
  · obtain ⟨schedule, s, hs, hcomplete, rfl⟩ := (outcome_iff_of_split hsplit index).mp houtcome
    have hmarks := h.run_eq extraParams x info
      (teamChunks (chunkLayout settings info) info.length) schedule
    rw [hs, Option.map_some] at hmarks
    rcases TeamMerges.scan_run_cases (fun a b (hab : a < b) => lt_asymm hab)
      (pairwise_teamChunks settings info) hmarks hcomplete with
      ⟨hle, hshared⟩ | ⟨t, k, hk, hle, hlt, hshared⟩
    · refine Or.inl ⟨fun i hi => ?_, congrArg Prod.snd hshared⟩
      exact hle (threadOf settings info i) i (mem_flatten_teamChunks.mpr ⟨hi, rfl⟩)
    · exact Or.inr ⟨k, leads_of_isFirstMax hsplit hk hle, hlt, congrArg Prod.snd hshared⟩
  · have hindex := (outcome_iff_of_not_split hpos hsplit index).mp houtcome
    have hmark := h.mark_foldl extraParams x info
      (List.range info.length) (kind.opType.startingIndexValue x)
    rw [h.mark_start] at hmark
    rw [← hindex]
    rcases FirstBest.scan_cases (fun a b (hab : a < b) => lt_asymm hab)
      (fun i => kind.grade (loopElement x info i)) (fun i => (i : Int)) (kind.bound, 0)
      (List.pairwise_lt_range (n := info.length)) with ⟨hle, hscan⟩ | ⟨k, hk, hlt, hscan⟩
    · refine Or.inl ⟨fun i hi => hle i (List.mem_range.mpr hi), ?_⟩
      exact congrArg Prod.snd (hmark.trans hscan)
    · have hklt := List.mem_range.mp hk.mem
      refine Or.inr ⟨k, ⟨hklt, ?_, ?_⟩, hlt, congrArg Prod.snd (hmark.trans hscan)⟩
      · exact fun j hj => hk.le j (List.mem_range.mpr hj)
      · exact fun j hj _ => hk.lt j (List.mem_range.mpr (hj.trans hklt)) hj

/-- Every leading element above the start is left by some run. -/
theorem outcome_of_leads (h : kind.IsExtremum) (hpos : info.Positive)
    (hk : Leads settings kind x info k) (hlt : kind.bound < kind.grade (loopElement x info k)) :
    Outcome settings kind x info extraParams k := by
  by_cases hsplit : Split settings info
  · obtain ⟨schedule, s, hs, hcomplete, hshared⟩ := TeamMerges.exists_scan_run
      (fun i : Nat => (i : Int)) (kind.bound, 0) (fun a b (hab : a < b) => lt_asymm hab)
      (fun t a _ b _ hne => Nat.lt_or_gt_of_ne hne)
      (pairwise_teamChunks settings info) (fun t ht => teamChunks_of_le settings info ht)
      hk.isFirstMax hlt
      fun t j hj => hk.sought j (mem_flatten_teamChunks.mp hj).1
    rw [h.run_eq extraParams, Option.map_eq_some_iff] at hs
    obtain ⟨u, hu, rfl⟩ := hs
    exact (outcome_iff_of_split hsplit k).mpr
      ⟨schedule, u, hu, hcomplete, congrArg Prod.snd hshared⟩
  · obtain ⟨index, hindex⟩ := exists_outcome settings kind x extraParams hpos
    rcases extremum_cases h hpos hindex with ⟨hle, -⟩ | ⟨j, hj, -, rfl⟩
    · exact absurd hlt (hle k hk.lt).not_gt
    · -- without a team there is one that leads
      have hjk : j = k := by
        rcases Nat.lt_trichotomy j k with hjk | hjk | hjk
        · exact absurd (hk.first j hjk fun hs => absurd hs hsplit) (hj.sought k hk.lt).not_gt
        · exact hjk
        · exact absurd (hj.first k hjk fun hs => absurd hs hsplit) (hk.sought j hj.lt).not_gt
      rwa [← hjk]

/-- The outcomes of the search for an extremum. -/
theorem extremum_outcome_iff (h : kind.IsExtremum) (hpos : info.Positive) (index : Int) :
    Outcome settings kind x info extraParams index ↔
      (∀ i < info.length, kind.grade (loopElement x info i) ≤ kind.bound) ∧ index = 0 ∨
        ∃ k, Leads settings kind x info k ∧ kind.bound < kind.grade (loopElement x info k) ∧
          index = k := by
  constructor
  · exact extremum_cases h hpos
  · rintro (⟨hle, rfl⟩ | ⟨k, hk, hlt, rfl⟩)
    · obtain ⟨index, hindex⟩ := exists_outcome settings kind x extraParams hpos
      rcases extremum_cases h hpos hindex with ⟨-, rfl⟩ | ⟨k, hk, hlt, -⟩
      · exact hindex
      · exact absurd hlt (hle k hk.lt).not_gt
    · exact outcome_of_leads h hpos hk hlt

/-! ### When they are right -/

/-- The loops find the extremum that is wanted: one exceeds the start, the first that they see is
the first in C order, and all are done by one thread; or none exceeds the start, and the first
element is one. -/
def FindsExtremum (settings : Settings) (kind : IndexReduceKind) (x : Int → K) (info : ShapeInfo)
    (extraParams : MatchParams K) : Prop :=
  (∃ i < info.length, kind.bound < kind.grade (elementAt x info i)) ∧
      (∃ k, Lowest (kind.Sought extraParams (loopElement x info) info.length) info.length k ∧
        Lowest (kind.Sought extraParams (elementAt x info) info.length) info.length k ∧
        (Split settings info → ∀ j < info.length,
          kind.Sought extraParams (loopElement x info) info.length j →
            threadOf settings info j = threadOf settings info k)) ∨
    (∀ i < info.length, kind.grade (elementAt x info i) ≤ kind.bound) ∧
      kind.Sought extraParams (elementAt x info) info.length 0

omit [IsStrictOrderedRing K] in
/-- There is an extremum. -/
theorem IndexReduceKind.IsExtremum.exists_sought (h : kind.IsExtremum) (extraParams : MatchParams K)
    (v : Nat → K) (hn : 0 < n) : ∃ k < n, kind.Sought extraParams v n k := by
  obtain ⟨k, hk, hmax⟩ := Finset.exists_max_image (Finset.range n) (fun i => kind.grade (v i))
    ⟨0, Finset.mem_range.mpr hn⟩
  exact ⟨k, Finset.mem_range.mp hk, h.sought_iff.mpr fun j hj => hmax j (Finset.mem_range.mpr hj)⟩

omit [IsStrictOrderedRing K] in
/-- The first extremum leads. -/
theorem IndexReduceKind.IsExtremum.leads_of_lowest (h : kind.IsExtremum)
    (hk : Lowest (kind.Sought extraParams (loopElement x info) info.length) info.length k) :
    Leads settings kind x info k := by
  have hmax := h.sought_iff.mp hk.2.1
  refine ⟨hk.1, hmax, fun j hj _ => ?_⟩
  by_contra hle
  have hsought : kind.Sought extraParams (loopElement x info) info.length j :=
    h.sought_iff.mpr fun i hi => (hmax i hi).trans (not_lt.mp hle)
  exact hk.2.2 j hj hsought

omit [IsStrictOrderedRing K] in
/-- The first extremum of a thread leads. -/
theorem IndexReduceKind.IsExtremum.exists_leads (h : kind.IsExtremum)
    (hsplit : Split settings info) {j : Nat} (hj : j < info.length)
    (hsought : kind.Sought extraParams (loopElement x info) info.length j) :
    ∃ k, Leads settings kind x info k ∧ threadOf settings info k = threadOf settings info j := by
  let p (i : Nat) := kind.Sought extraParams (loopElement x info) info.length i ∧
    threadOf settings info i = threadOf settings info j
  obtain ⟨k, hk, ⟨hmax, hthread⟩, hfirst⟩ : ∃ k, Lowest p info.length k :=
    exists_lowest hj ⟨hsought, rfl⟩
  have hmax := h.sought_iff.mp hmax
  refine ⟨k, ⟨hk, hmax, fun i hi hsame => ?_⟩, hthread⟩
  by_contra hle
  have hagain : kind.Sought extraParams (loopElement x info) info.length i :=
    h.sought_iff.mpr fun m hm => (hmax m hm).trans (not_lt.mp hle)
  exact hfirst i hi ⟨hagain, (hsame hsplit).trans hthread⟩

theorem findsExtremum_of_returnsWanted (h : kind.IsExtremum) (hpos : info.Positive)
    (hews : info.HonestEws) (hreturns : ReturnsWanted settings kind x info extraParams) :
    FindsExtremum settings kind x info extraParams := by
  obtain ⟨m, hm, hsoughtm⟩ := h.exists_sought extraParams (elementAt x info) hpos.length_pos
  -- an outcome is the first extremum in C order
  have hright : ∀ k : Nat, Outcome settings kind x info extraParams k →
      Lowest (kind.Sought extraParams (elementAt x info) info.length) info.length k := by
    intro k hk
    obtain ⟨i, hi, hki⟩ :=
      (IndexReduceKind.wanted_iff hm hsoughtm _).mp (hreturns.wanted k hk)
    rw [Int.ofNat_inj.mp hki]
    exact h.endmost_iff.mp hi
  by_cases hexceeds : ∃ i < info.length, kind.bound < kind.grade (elementAt x info i)
  · refine Or.inl ⟨hexceeds, ?_⟩
    have hmore : ∀ k, Leads settings kind x info k →
        kind.bound < kind.grade (loopElement x info k) := by
      intro k hk
      by_contra hle
      have hall := (forall_loopElement_iff (p := fun a => kind.grade a ≤ kind.bound) x hpos
        hews).mp fun i hi => (hk.sought i hi).trans (not_lt.mp hle)
      obtain ⟨i, hi, hlt⟩ := hexceeds
      exact absurd hlt (hall i hi).not_gt
    have hleads : ∀ k, Leads settings kind x info k →
        Lowest (kind.Sought extraParams (elementAt x info) info.length) info.length k :=
      fun k hk => hright k (outcome_of_leads h hpos hk (hmore k hk))
    obtain ⟨j, hj, hsought⟩ := h.exists_sought extraParams (loopElement x info) hpos.length_pos
    obtain ⟨k, hk⟩ := exists_lowest hj hsought
    have hkv := hleads k (h.leads_of_lowest hk)
    refine ⟨k, hk, hkv, fun hsplit i hi hsoughti => ?_⟩
    obtain ⟨l, hl, hthread⟩ := h.exists_leads hsplit hi hsoughti
    rw [← hthread, (hleads l hl).unique hkv]
  · have hle : ∀ i < info.length, kind.grade (elementAt x info i) ≤ kind.bound :=
      fun i hi => not_lt.mp fun hlt => hexceeds ⟨i, hi, hlt⟩
    have hseen := (forall_loopElement_iff (p := fun a => kind.grade a ≤ kind.bound) x hpos
      hews).mpr hle
    exact Or.inr ⟨hle, (hright 0 ((extremum_outcome_iff h hpos 0).mpr (Or.inl ⟨hseen, rfl⟩))).2.1⟩

/-- The index of an extremum is right exactly if the loops find the one that is wanted. -/
theorem extremum_iff (h : kind.IsExtremum) (hpos : info.Positive) (hews : info.HonestEws) :
    ReturnsWanted settings kind x info extraParams ↔
      FindsExtremum settings kind x info extraParams := by
  refine ⟨findsExtremum_of_returnsWanted h hpos hews, fun hfinds => ?_⟩
  have hseen := forall_loopElement_iff (p := fun a => kind.grade a ≤ kind.bound) x hpos hews
  refine ⟨exists_outcome settings kind x extraParams hpos, fun index hindex => Or.inl ?_⟩
  rcases extremum_cases h hpos hindex with ⟨hle, rfl⟩ | ⟨l, hl, hlt, rfl⟩
  · rcases hfinds with ⟨⟨i, hi, hlt⟩, -⟩ | ⟨-, hsought⟩
    · exact absurd hlt (hseen.mp hle i hi).not_gt
    · exact ⟨0, h.endmost_iff.mpr ⟨hpos.length_pos, hsought, by simp⟩, rfl⟩
  · rcases hfinds with ⟨-, k, hk, hkv, hthread⟩ | ⟨hle, -⟩
    · refine ⟨k, h.endmost_iff.mpr hkv, congrArg Nat.cast ?_⟩
      have hsought : kind.Sought extraParams (loopElement x info) info.length l :=
        h.sought_iff.mpr hl.sought
      have hkl : k ≤ l := by
        by_contra hlk
        exact hk.2.2 l (not_le.mp hlk) hsought
      by_contra hne
      have hlt := hl.first k (by omega) fun hsplit => (hthread hsplit l hl.lt hsought).symm
      exact absurd hlt (h.sought_iff.mp hk.2.1 l hl.lt).not_gt
    · exact absurd hlt (hseen.mpr hle l hl.lt).not_gt

end Extrema

/-! ## Matches -/

/-- The start of a search for a match. -/
def noMatch : IndexValue K :=
  ⟨-maxFloat, -1⟩

/-- The search for a match that does not yield to another one. -/
def matchOp (yields : Int → Int → Prop) [DecidableRel yields] : IndexReduceOp K where
  startingIndexValue _ := noMatch
  update := updateMatch yields

section Matches

variable {yields : Int → Int → Prop} [DecidableRel yields] {extraParams : MatchParams K}
    {old opOutput s : IndexValue K} {k : Nat}

theorem updateMatch_of_not_matches (h : ¬ Matches extraParams opOutput.value) :
    updateMatch yields old opOutput extraParams = old :=
  if_pos (not_not.mp h)

theorem updateMatch_of_neg (h : Matches extraParams opOutput.value) (hneg : old.index < 0) :
    updateMatch yields old opOutput extraParams = opOutput := by
  rw [updateMatch, if_neg h, if_pos hneg]

theorem updateMatch_of_not_neg (h : Matches extraParams opOutput.value) (hneg : ¬ old.index < 0) :
    updateMatch yields old opOutput extraParams =
      if yields old.index opOutput.index then opOutput else old := by
  rw [updateMatch, if_neg h, if_neg hneg]

/-- An update keeps what it has or takes what it gets. -/
theorem updateMatch_eq_or (yields : Int → Int → Prop) [DecidableRel yields]
    (extraParams : MatchParams K) (old opOutput : IndexValue K) :
    updateMatch yields old opOutput extraParams = old ∨
      updateMatch yields old opOutput extraParams = opOutput := by
  rw [updateMatch]
  split
  · exact Or.inl rfl
  · split
    · exact Or.inr rfl
    · split
      · exact Or.inr rfl
      · exact Or.inl rfl

variable {r : Nat → K}

/-- The element of a match as a result. -/
def found (r : Nat → K) (i : Nat) : IndexValue K :=
  ⟨r i, i⟩

/-- A match that does not yield to another one. -/
structure Unyielding (yields : Int → Int → Prop) (extraParams : MatchParams K) (r : Nat → K)
    (l : List Nat) (i : Nat) : Prop where
  mem : i ∈ l
  isMatch : Matches extraParams (r i)
  keeps : ∀ j ∈ l, Matches extraParams (r j) → ¬ yields i j

/-- A loop over elements finds a match that does not yield, if there is one. -/
theorem foldl_updateMatch_cases (yields : Int → Int → Prop) [DecidableRel yields]
    [IsStrictOrder Int yields] (extraParams : MatchParams K) (r : Nat → K) (l : List Nat) :
    ((∀ i ∈ l, ¬ Matches extraParams (r i)) ∧
        l.foldl (fun s i => updateMatch yields s (found r i) extraParams) noMatch = noMatch) ∨
      ∃ i, Unyielding yields extraParams r l i ∧
        l.foldl (fun s i => updateMatch yields s (found r i) extraParams) noMatch = found r i := by
  induction l using List.reverseRecOn with
  | nil => exact Or.inl ⟨by simp, rfl⟩
  | append_singleton l j ih =>
      rw [List.foldl_append, List.foldl_cons, List.foldl_nil]
      by_cases hj : Matches extraParams (r j)
      · rcases ih with ⟨hnone, hfold⟩ | ⟨i, hi, hfold⟩
        · refine Or.inr ⟨j, ⟨by simp, hj, fun m hm hmatch => ?_⟩, ?_⟩
          · rcases List.mem_append.mp hm with hm | hm
            · exact absurd hmatch (hnone m hm)
            · rw [List.mem_singleton.mp hm]
              exact irrefl_of yields _
          · rw [hfold]
            exact updateMatch_of_neg hj (by decide : (-1 : Int) < 0)
        · rw [hfold, updateMatch_of_not_neg hj (Int.not_lt.mpr (Int.natCast_nonneg i))]
          by_cases hyields : yields (found r i).index (found r j).index
          · refine Or.inr ⟨j, ⟨by simp, hj, fun m hm hmatch hjm => ?_⟩, if_pos hyields⟩
            rcases List.mem_append.mp hm with hm | hm
            · exact hi.keeps m hm hmatch (trans_of yields hyields hjm)
            · rw [List.mem_singleton.mp hm] at hjm
              exact irrefl_of yields _ hjm
          · refine Or.inr ⟨i, ⟨List.mem_append_left _ hi.mem, hi.isMatch, fun m hm hmatch => ?_⟩,
              if_neg hyields⟩
            rcases List.mem_append.mp hm with hm | hm
            · exact hi.keeps m hm hmatch
            · rwa [List.mem_singleton.mp hm]
      · rw [updateMatch_of_not_matches hj]
        have hskip : ∀ m ∈ l ++ [j], Matches extraParams (r m) → m ∈ l := by
          intro m hm hmatch
          rcases List.mem_append.mp hm with hm | hm
          · exact hm
          · rw [List.mem_singleton.mp hm] at hmatch
            exact absurd hmatch hj
        rcases ih with ⟨hnone, hfold⟩ | ⟨i, hi, hfold⟩
        · exact Or.inl ⟨fun m hm hmatch => hnone m (hskip m hm hmatch) hmatch, hfold⟩
        · exact Or.inr ⟨i, ⟨List.mem_append_left _ hi.mem, hi.isMatch,
            fun m hm hmatch => hi.keeps m (hskip m hm hmatch) hmatch⟩, hfold⟩

/-! ### The merges -/

/-- A result is none, or a match of one of some elements. -/
def Genuine (extraParams : MatchParams K) (r : Nat → K) (among : Nat → Prop) (s : IndexValue K) :
    Prop :=
  s.index < 0 ∨ ∃ i, among i ∧ Matches extraParams (r i) ∧ s = found r i

/-- A match to which all others yield. -/
structure Wins (yields : Int → Int → Prop) (extraParams : MatchParams K) (r : Nat → K) (n k : Nat) :
    Prop where
  lt : k < n
  isMatch : Matches extraParams (r k)
  beats : ∀ j < n, Matches extraParams (r j) → j ≠ k → yields j k
  keeps : ∀ j < n, Matches extraParams (r j) → ¬ yields k j

theorem Genuine.update {among : Nat → Prop} {t : IndexValue K} (hs : Genuine extraParams r among s)
    (ht : Genuine extraParams r among t) :
    Genuine extraParams r among (updateMatch yields s t extraParams) := by
  rcases updateMatch_eq_or yields extraParams s t with h | h
  · rwa [h]
  · rwa [h]

/-- The winner replaces every other result. -/
theorem Wins.update_found {n : Nat} (hk : Wins yields extraParams r n k)
    (hs : Genuine extraParams r (· < n) s) :
    updateMatch yields s (found r k) extraParams = found r k := by
  rcases hs with hneg | ⟨i, hi, hmatch, rfl⟩
  · exact updateMatch_of_neg hk.isMatch hneg
  · by_cases hik : i = k
    · subst hik
      rcases updateMatch_eq_or yields extraParams (found r i) (found r i) with h | h <;> exact h
    · rw [updateMatch_of_not_neg hk.isMatch (Int.not_lt.mpr (Int.natCast_nonneg i))]
      exact if_pos (hk.beats i hi hmatch hik)

/-- The winner stays when another match is merged. -/
theorem Wins.update_of_match {n i : Nat} (hk : Wins yields extraParams r n k) (hi : i < n)
    (hmatch : Matches extraParams (r i)) :
    updateMatch yields (found r k) (found r i) extraParams = found r k := by
  rw [updateMatch_of_not_neg hmatch (Int.not_lt.mpr (Int.natCast_nonneg k))]
  exact if_neg (hk.keeps i hi hmatch)

/-- A match stays when the start is merged, unless the start is taken for a match. -/
theorem update_noMatch
    (hstart : ¬ Matches extraParams (noMatch : IndexValue K).value ∨ ¬ yields k (-1)) :
    updateMatch yields (found r k) noMatch extraParams = found r k := by
  by_cases hmatch : Matches extraParams (noMatch : IndexValue K).value
  · rw [updateMatch_of_not_neg hmatch (Int.not_lt.mpr (Int.natCast_nonneg k))]
    exact if_neg (hstart.resolve_left (not_not.mpr hmatch))
  · exact updateMatch_of_not_matches hmatch

/-- The start replaces everything, if it is taken for a match and all indices yield to it. -/
theorem Genuine.update_noMatch {among : Nat → Prop} (hs : Genuine extraParams r among s)
    (hstart : Matches extraParams (noMatch : IndexValue K).value)
    (hyields : ∀ i : Nat, yields i (-1)) : updateMatch yields s noMatch extraParams = noMatch := by
  rcases hs with hneg | ⟨i, -, -, rfl⟩
  · exact updateMatch_of_neg hstart hneg
  · rw [updateMatch_of_not_neg hstart (Int.not_lt.mpr (Int.natCast_nonneg i))]
    exact if_pos (hyields i)

/-! ### The runs -/

section Blocks

variable [IsStrictOrder Int yields] {blocks : Nat → List (List Nat)} {n : Nat} {owner : Nat → Nat}
    {w : Nat}

/-- The private result of a worker is a match of one of its elements, or none. -/
theorem genuine_own (yields : Int → Int → Prop) [DecidableRel yields] [IsStrictOrder Int yields]
    (extraParams : MatchParams K) (r : Nat → K) (m : Nat)
    (hblocks : ∀ i, i ∈ (blocks w).flatten ↔ i < n ∧ owner i = w) :
    Genuine extraParams r (fun i => i < n ∧ owner i = w)
      ((TeamMerges.elements blocks w m).foldl
        (fun s i => updateMatch yields s (found r i) extraParams) noMatch) := by
  rcases foldl_updateMatch_cases yields extraParams r (TeamMerges.elements blocks w m) with
    ⟨-, hfold⟩ | ⟨i, hi, hfold⟩
  · rw [hfold]
    exact Or.inl (by decide : (-1 : Int) < 0)
  · have hmem := (TeamMerges.elements_prefix blocks w m).subset hi.mem
    exact Or.inr ⟨i, (hblocks i).mp hmem, hi.isMatch, hfold⟩

/-- The private result of the worker that has done the winner. -/
theorem Wins.own_eq {k m : Nat} (hk : Wins yields extraParams r n k)
    (hblocks : ∀ i, i ∈ (blocks w).flatten ↔ i < n ∧ owner i = w)
    (hmem : k ∈ TeamMerges.elements blocks w m) :
    (TeamMerges.elements blocks w m).foldl
      (fun s i => updateMatch yields s (found r i) extraParams) noMatch = found r k := by
  rcases foldl_updateMatch_cases yields extraParams r (TeamMerges.elements blocks w m) with
    ⟨hnone, -⟩ | ⟨i, hi, hfold⟩
  · exact absurd hk.isMatch (hnone k hmem)
  · have hin := (hblocks i).mp ((TeamMerges.elements_prefix blocks w m).subset hi.mem)
    have hik : i = k := by
      by_contra hne
      exact hi.keeps k hmem hk.isMatch (hk.beats i hin.1 hi.isMatch hne)
    rw [hfold, hik]

/-- The winner is what is left once it was merged. -/
structure Kept (blocks : Nat → List (List Nat)) (owner : Nat → Nat) (extraParams : MatchParams K)
    (r : Nat → K) (n k : Nat) (next : Nat → Nat) (shared : IndexValue K) : Prop where
  genuine : Genuine extraParams r (· < n) shared
  won : k ∈ TeamMerges.elements blocks (owner k) (next (owner k)) → shared = found r k

/-- A worker does no harm to the winner: it is the one that does it, its first block has a match,
or its start is not taken for one. -/
def Harmless (blocks : Nat → List (List Nat)) (owner : Nat → Nat) (yields : Int → Int → Prop)
    (extraParams : MatchParams K) (r : Nat → K) (k w : Nat) : Prop :=
  w = owner k ∨ (∃ i ∈ TeamMerges.elements blocks w 1, Matches extraParams (r i)) ∨
    ¬ Matches extraParams (noMatch : IndexValue K).value ∨ ¬ yields k (-1)

theorem Kept.step (hblocks : ∀ w i, i ∈ (blocks w).flatten ↔ i < n ∧ owner i = w) {k : Nat}
    (hk : Wins yields extraParams r n k) {next : Nat → Nat} {shared : IndexValue K}
    (hw : Harmless blocks owner yields extraParams r k w)
    (h : Kept blocks owner extraParams r n k next shared) :
    Kept blocks owner extraParams r n k (Function.update next w (next w + 1))
      (updateMatch yields shared ((TeamMerges.elements blocks w (next w + 1)).foldl
        (fun s i => updateMatch yields s (found r i) extraParams) noMatch) extraParams) := by
  have hown := genuine_own yields extraParams r (next w + 1) (hblocks w)
  refine ⟨h.genuine.update (hown.imp_right fun ⟨i, hi, hmatch⟩ => ⟨i, hi.1, hmatch⟩),
    fun hmem => ?_⟩
  by_cases hwk : w = owner k
  · subst hwk
    rw [Function.update_self] at hmem
    rw [hk.own_eq (hblocks _) hmem]
    exact hk.update_found h.genuine
  · rw [Function.update_of_ne (Ne.symm hwk)] at hmem
    rw [h.won hmem]
    rcases foldl_updateMatch_cases yields extraParams r
      (TeamMerges.elements blocks w (next w + 1)) with ⟨hnone, hfold⟩ | ⟨i, hi, hfold⟩
    · -- the worker has no match, neither in its first block
      rw [hfold]
      refine update_noMatch ((hw.resolve_left hwk).resolve_left ?_)
      rintro ⟨i, hi, hmatch⟩
      exact hnone i (TeamMerges.elements_mono w (Nat.le_add_left 1 _) hi) hmatch
    · rw [hfold]
      have hin := (hblocks w i).mp ((TeamMerges.elements_prefix blocks w _).subset hi.mem)
      exact hk.update_of_match hin.1 hi.isMatch

end Blocks

/-! ### The outcomes -/

section MatchOutcomes

variable {settings : Settings} {kind : IndexReduceKind} {x : Int → K} {info : ShapeInfo}

theorem match_outcome_iff_of_not_split (hop : (kind.opType : IndexReduceOp K) = matchOp yields)
    (hpos : info.Positive) (hsplit : ¬ Split settings info) (index : Int) :
    Outcome settings kind x info extraParams index ↔
      ((List.range info.length).foldl
        (fun s i => updateMatch yields s (found (loopElement x info) i) extraParams)
        noMatch).index = index := by
  rw [outcome_iff_of_not_split hpos hsplit, hop]
  rfl

theorem match_outcome_iff_of_split (hop : (kind.opType : IndexReduceOp K) = matchOp yields)
    (hsplit : Split settings info) (index : Int) :
    Outcome settings kind x info extraParams index ↔
      ∃ schedule s, TeamMerges.run (teamChunks (chunkLayout settings info) info.length)
          (fun s i => updateMatch yields s (found (loopElement x info) i) extraParams)
          (fun startingIndex own => updateMatch yields startingIndex own extraParams)
          noMatch schedule = some s ∧
        TeamMerges.Complete (teamChunks (chunkLayout settings info) info.length) s ∧
          s.shared.index = index := by
  rw [outcome_iff_of_split hsplit, hop]
  rfl

variable [IsStrictOrder Int yields]

/-- Without a match there is none. -/
theorem outcome_eq_of_none (hop : (kind.opType : IndexReduceOp K) = matchOp yields)
    (hpos : info.Positive)
    (hnone : ∀ i < info.length, ¬ Matches extraParams (loopElement x info i)) {index : Int}
    (houtcome : Outcome settings kind x info extraParams index) : index = -1 := by
  have hfold : ∀ l : List Nat, (∀ i ∈ l, i < info.length) →
      l.foldl (fun s i => updateMatch yields s (found (loopElement x info) i) extraParams) noMatch =
        noMatch := by
    intro l hl
    rcases foldl_updateMatch_cases yields extraParams (loopElement x info) l with
      ⟨-, hfold⟩ | ⟨i, hi, -⟩
    · exact hfold
    · exact absurd hi.isMatch (hnone i (hl i hi.mem))
  by_cases hsplit : Split settings info
  · obtain ⟨schedule, s, hs, -, rfl⟩ := (match_outcome_iff_of_split hop hsplit index).mp houtcome
    have hshared : s.shared = noMatch := by
      refine TeamMerges.run_induction (fun _ shared => shared = noMatch) rfl ?_ hs
      rintro next shared w rfl -
      rw [hfold _ fun i hi => (mem_flatten_teamChunks.mp
        ((TeamMerges.elements_prefix _ w _).subset hi)).1]
      exact (updateMatch_eq_or yields extraParams noMatch noMatch).elim id id
    rw [hshared]
    rfl
  · rw [match_outcome_iff_of_not_split hop hpos hsplit,
      hfold _ fun i hi => List.mem_range.mp hi] at houtcome
    exact houtcome.symm

/-- The winner is the only outcome if no thread does it harm. -/
theorem Wins.outcome_eq (hop : (kind.opType : IndexReduceOp K) = matchOp yields)
    (hpos : info.Positive) {k : Nat}
    (hk : Wins yields extraParams (loopElement x info) info.length k)
    (hharmless : Split settings info →
      ∀ t, 0 < (teamChunks (chunkLayout settings info) info.length t).length →
        Harmless (teamChunks (chunkLayout settings info) info.length) (threadOf settings info)
          yields extraParams (loopElement x info) k t)
    {index : Int} (houtcome : Outcome settings kind x info extraParams index) : index = k := by
  by_cases hsplit : Split settings info
  · obtain ⟨schedule, s, hs, hcomplete, rfl⟩ :=
      (match_outcome_iff_of_split hop hsplit index).mp houtcome
    have hkept : Kept (teamChunks (chunkLayout settings info) info.length) (threadOf settings info)
        extraParams (loopElement x info) info.length k s.next s.shared := by
      refine TeamMerges.run_induction _ ?_ ?_ hs
      · exact ⟨Or.inl (by decide : (-1 : Int) < 0), by simp [TeamMerges.elements]⟩
      · intro next shared t h hlt
        exact h.step (fun t i => mem_flatten_teamChunks) hk
          (hharmless hsplit t (Nat.zero_lt_of_lt hlt))
    rw [hkept.won]
    · rfl
    · rw [TeamMerges.elements_of_le (hcomplete _)]
      exact mem_flatten_teamChunks.mpr ⟨hk.lt, rfl⟩
  · rw [match_outcome_iff_of_not_split hop hpos hsplit] at houtcome
    rw [← houtcome]
    rcases foldl_updateMatch_cases yields extraParams (loopElement x info)
      (List.range info.length) with ⟨hnone, -⟩ | ⟨i, hi, hfold⟩
    · exact absurd hk.isMatch (hnone k (List.mem_range.mpr hk.lt))
    · have hik : i = k := by
        by_contra hne
        exact hi.keeps k (List.mem_range.mpr hk.lt) hk.isMatch
          (hk.beats i (List.mem_range.mp hi.mem) hi.isMatch hne)
      rw [hfold, hik]
      rfl

/-- Any result that merges leave is a match or none. -/
theorem genuine_run {schedule : List Nat} {s : TeamMerges.State (IndexValue K)}
    (hs : schedule.foldlM (TeamMerges.step (teamChunks (chunkLayout settings info) info.length)
      (fun s i => updateMatch yields s (found (loopElement x info) i) extraParams)
      (fun startingIndex own => updateMatch yields startingIndex own extraParams))
      (.initial noMatch) = some s) :
    TeamMerges.Faithful (teamChunks (chunkLayout settings info) info.length)
        (fun s i => updateMatch yields s (found (loopElement x info) i) extraParams) noMatch s ∧
      Genuine extraParams (loopElement x info) (· < info.length) s.shared := by
  refine TeamMerges.foldlM_induction
    (fun _ shared => Genuine extraParams (loopElement x info) (· < info.length) shared) ?_
    (TeamMerges.faithful_initial noMatch) (Or.inl (by decide : (-1 : Int) < 0)) hs
  intro next shared t _ h _
  have hown : Genuine extraParams (loopElement x info)
      (fun i => i < info.length ∧ threadOf settings info i = t) _ :=
    genuine_own yields extraParams _ (next t + 1) fun i => mem_flatten_teamChunks
  exact h.update (hown.imp_right fun ⟨i, hi, hmatch⟩ => ⟨i, hi.1, hmatch⟩)

/-- The winner is an outcome. -/
theorem Wins.outcome (hop : (kind.opType : IndexReduceOp K) = matchOp yields)
    (hpos : info.Positive) {k : Nat}
    (hk : Wins yields extraParams (loopElement x info) info.length k) :
    Outcome settings kind x info extraParams k := by
  by_cases hsplit : Split settings info
  · -- the thread of the winner comes last
    obtain ⟨others, last, u, s, hlast, hothers, hrun, hnext, hcomplete⟩ :=
      TeamMerges.exists_run_last
        (fun s i => updateMatch yields s (found (loopElement x info) i) extraParams)
        (fun startingIndex own => updateMatch yields startingIndex own extraParams)
        (fun t ht => teamChunks_of_le settings info ht) (.initial noMatch)
        (threadOf settings info k)
    obtain ⟨hfaithful, hgenuine⟩ := genuine_run hothers
    obtain ⟨-, hkept⟩ := TeamMerges.foldlM_induction
      (Kept (teamChunks (chunkLayout settings info) info.length) (threadOf settings info)
        extraParams (loopElement x info) info.length k)
      (fun next shared t ht h _ => h.step (fun t i => mem_flatten_teamChunks) hk
        (Or.inl (hlast t ht))) hfaithful
      ⟨hgenuine, by simp [hnext, TeamMerges.State.initial, TeamMerges.elements]⟩ hrun
    refine (match_outcome_iff_of_split hop hsplit k).mpr ⟨others ++ last, s, ?_, hcomplete, ?_⟩
    · rw [TeamMerges.run, List.foldlM_append, hothers]
      exact hrun
    · rw [hkept.won]
      · rfl
      · rw [TeamMerges.elements_of_le (hcomplete _)]
        exact mem_flatten_teamChunks.mpr ⟨hk.lt, rfl⟩
  · obtain ⟨index, hindex⟩ := exists_outcome settings kind x extraParams hpos
    rwa [← hk.outcome_eq hop hpos (fun hs => absurd hs hsplit) hindex]

/-- A thread without a match in its first chunk leaves another result than the winner if it comes
last, its start is taken for a match, and all indices yield to it. -/
theorem exists_harmful_outcome (hop : (kind.opType : IndexReduceOp K) = matchOp yields)
    (hsplit : Split settings info) (hyields : ∀ i : Nat, yields i (-1))
    (hstart : Matches extraParams (noMatch : IndexValue K).value) {t : Nat}
    (hchunks : 0 < (teamChunks (chunkLayout settings info) info.length t).length)
    (hnone : ∀ i ∈ TeamMerges.elements (teamChunks (chunkLayout settings info) info.length) t 1,
      ¬ Matches extraParams (loopElement x info i)) :
    ∃ index, Outcome settings kind x info extraParams index ∧
      (index < 0 ∨ ∃ i : Nat, threadOf settings info i = t ∧ index = i) := by
  obtain ⟨others, last, u, s, hlast, hothers, hrun, hnext, hcomplete⟩ :=
    TeamMerges.exists_run_last
      (fun s i => updateMatch yields s (found (loopElement x info) i) extraParams)
      (fun startingIndex own => updateMatch yields startingIndex own extraParams)
      (fun t ht => teamChunks_of_le settings info ht) (.initial noMatch) t
  obtain ⟨hfaithful, hgenuine⟩ := genuine_run hothers
  let mine (i : Nat) := i < info.length ∧ threadOf settings info i = t
  obtain ⟨-, -, hmine⟩ := TeamMerges.foldlM_induction
    (fun next shared => Genuine extraParams (loopElement x info) (· < info.length) shared ∧
      (0 < next t → Genuine extraParams (loopElement x info) mine shared))
    (by
      rintro next shared w hw ⟨hall, hmine⟩ -
      have hwt := hlast w hw
      subst hwt
      have hown : Genuine extraParams (loopElement x info) mine _ :=
        genuine_own yields extraParams _ (next w + 1) fun i => mem_flatten_teamChunks
      refine ⟨hall.update (hown.imp_right fun ⟨i, hi, hmatch⟩ => ⟨i, hi.1, hmatch⟩), fun _ => ?_⟩
      rcases Nat.eq_zero_or_pos (next w) with hzero | hpos
      · -- the merge of its first chunk removes what was found
        rw [hzero]
        rcases foldl_updateMatch_cases yields extraParams (loopElement x info)
          (TeamMerges.elements (teamChunks (chunkLayout settings info) info.length) w 1) with
          ⟨-, hfold⟩ | ⟨i, hi, -⟩
        · rw [hfold, hall.update_noMatch hstart hyields]
          exact Or.inl (by decide : (-1 : Int) < 0)
        · exact absurd hi.isMatch (hnone i hi.mem)
      · exact (hmine hpos).update hown)
    hfaithful ⟨hgenuine, by simp [hnext, TeamMerges.State.initial]⟩ hrun
  refine ⟨s.shared.index, (match_outcome_iff_of_split hop hsplit _).mpr
    ⟨others ++ last, s, ?_, hcomplete, rfl⟩, ?_⟩
  · rw [TeamMerges.run, List.foldlM_append, hothers]
    exact hrun
  · rcases hmine (hchunks.trans_le (hcomplete t)) with hneg | ⟨i, hi, -, hshared⟩
    · exact Or.inl hneg
    · exact Or.inr ⟨i, hi.2, congrArg IndexValue.index hshared⟩

/-! ### When they are right -/

/-- The loops find the match that is wanted: there is none; or the endmost one that they see is the
endmost one in C order, and where the start is taken for a match, every other thread has one in its
first chunk if the first one is looked for. -/
def FindsMatch (settings : Settings) (kind : IndexReduceKind) (x : Int → K) (info : ShapeInfo)
    (extraParams : MatchParams K) : Prop :=
  (∀ i < info.length, ¬ Matches extraParams (elementAt x info i)) ∨
    ∃ k, kind.Endmost (kind.Sought extraParams (loopElement x info) info.length) info.length k ∧
      kind.Endmost (kind.Sought extraParams (elementAt x info) info.length) info.length k ∧
      (kind = .firstIndex → Split settings info → Matches extraParams (-maxFloat : K) →
        ∀ t < (chunkLayout settings info).threads, t < (chunkLayout settings info).chunks →
          t ≠ threadOf settings info k →
            ∃ i < info.length, i / (chunkLayout settings info).items = t ∧
              Matches extraParams (loopElement x info i))

/-- The index of a match is right exactly if the endmost one that the loops see is the endmost one
in C order, and their only outcome. -/
theorem match_iff_forall (hop : (kind.opType : IndexReduceOp K) = matchOp yields)
    (hsought : ∀ (v : Nat → K) (n i : Nat),
      kind.Sought extraParams v n i ↔ Matches extraParams (v i))
    (hwins : ∀ k, kind.Endmost (kind.Sought extraParams (loopElement x info) info.length)
      info.length k → Wins yields extraParams (loopElement x info) info.length k)
    (hpos : info.Positive) (hews : info.HonestEws) :
    ReturnsWanted settings kind x info extraParams ↔
      (∀ i < info.length, ¬ Matches extraParams (elementAt x info i)) ∨
        ∃ k, kind.Endmost (kind.Sought extraParams (loopElement x info) info.length) info.length k ∧
          kind.Endmost (kind.Sought extraParams (elementAt x info) info.length) info.length k ∧
          ∀ index, Outcome settings kind x info extraParams index → index = k := by
  have hseen := forall_loopElement_iff (p := fun a => ¬ Matches extraParams a) x hpos hews
  constructor
  · intro hreturns
    by_cases hnone : ∀ i < info.length, ¬ Matches extraParams (elementAt x info i)
    · exact Or.inl hnone
    · refine Or.inr ?_
      obtain ⟨j, hj, hmatch⟩ : ∃ j < info.length, Matches extraParams (loopElement x info j) := by
        by_contra hno
        exact hnone (hseen.mp fun i hi hmatch => hno ⟨i, hi, hmatch⟩)
      obtain ⟨m, hm, hmatchm⟩ : ∃ m < info.length, Matches extraParams (elementAt x info m) := by
        by_contra hno
        exact hnone fun i hi hmatch => hno ⟨i, hi, hmatch⟩
      obtain ⟨k, hk⟩ :=
        kind.exists_endmost hj ((hsought (loopElement x info) info.length j).mpr hmatch)
      have hright : ∀ index, Outcome settings kind x info extraParams index →
          ∃ i, kind.Endmost (kind.Sought extraParams (elementAt x info) info.length) info.length i ∧
            index = i := fun index hindex =>
        (IndexReduceKind.wanted_iff hm ((hsought _ _ m).mpr hmatchm) index).mp
          (hreturns.wanted index hindex)
      obtain ⟨i, hi, hki⟩ := hright k ((hwins k hk).outcome hop hpos)
      obtain rfl := Int.ofNat_inj.mp hki
      refine ⟨k, hk, hi, fun index hindex => ?_⟩
      obtain ⟨l, hl, rfl⟩ := hright index hindex
      rw [hl.unique hi]
  · rintro (hnone | ⟨k, -, hk, hall⟩)
    · refine ⟨exists_outcome settings kind x extraParams hpos, fun index hindex => Or.inr ⟨?_, ?_⟩⟩
      · exact fun i hi hsoughti => hnone i hi ((hsought _ _ i).mp hsoughti)
      · exact outcome_eq_of_none hop hpos (hseen.mpr hnone) hindex
    · exact ⟨exists_outcome settings kind x extraParams hpos, fun index hindex =>
        Or.inl ⟨k, hk, hall index hindex⟩⟩

end MatchOutcomes

end Matches

section Kinds

variable {settings : Settings} {x : Int → K} {info : ShapeInfo} {extraParams : MatchParams K}

/-- All matches yield to the last one. -/
theorem Highest.wins {r : Nat → K} {n k : Nat}
    (hk : Highest (fun i => Matches extraParams (r i)) n k) :
    Wins (· < ·) extraParams r n k where
  lt := hk.1
  isMatch := hk.2.1
  beats := by
    intro j hj hmatch hjk
    rcases Nat.lt_or_gt_of_ne hjk with h | h
    · exact Int.ofNat_lt.mpr h
    · exact absurd hmatch (hk.2.2 j hj h)
  keeps := fun j hj hmatch hkj => hk.2.2 j hj (Int.ofNat_lt.mp hkj) hmatch

/-- All matches yield to the first one. -/
theorem Lowest.wins {r : Nat → K} {n k : Nat}
    (hk : Lowest (fun i => Matches extraParams (r i)) n k) :
    Wins (· > ·) extraParams r n k where
  lt := hk.1
  isMatch := hk.2.1
  beats := by
    intro j _ hmatch hjk
    rcases Nat.lt_or_gt_of_ne hjk with h | h
    · exact absurd hmatch (hk.2.2 j h)
    · exact Int.ofNat_lt.mpr h
  keeps := fun j _ hmatch hkj => hk.2.2 j (Int.ofNat_lt.mp hkj) hmatch

theorem firstIndex_opType :
    (IndexReduceKind.firstIndex.opType : IndexReduceOp K) = matchOp (· > ·) :=
  rfl

theorem lastIndex_opType :
    (IndexReduceKind.lastIndex.opType : IndexReduceOp K) = matchOp (· < ·) :=
  rfl

/-- The last match is right exactly if the loops find the one that is wanted. -/
theorem lastIndex_iff (hpos : info.Positive) (hews : info.HonestEws) :
    ReturnsWanted settings .lastIndex x info extraParams ↔
      FindsMatch settings .lastIndex x info extraParams := by
  rw [match_iff_forall lastIndex_opType (fun v n i => Iff.rfl)
    (fun k hk => Highest.wins hk) hpos hews, FindsMatch]
  refine or_congr_right (exists_congr fun k => and_congr_right fun hk =>
    and_congr_right fun _ => ?_)
  refine iff_of_true (fun index hindex => ?_) (fun h => by cases h)
  refine (Highest.wins hk).outcome_eq lastIndex_opType hpos
    (fun _ t _ => Or.inr (Or.inr (Or.inr ?_))) hindex
  exact Int.not_lt.mpr (by omega)

/-- The first match is right exactly if the loops find the one that is wanted. -/
theorem firstIndex_iff (hpos : info.Positive) (hews : info.HonestEws) :
    ReturnsWanted settings .firstIndex x info extraParams ↔
      FindsMatch settings .firstIndex x info extraParams := by
  rw [match_iff_forall firstIndex_opType (fun v n i => Iff.rfl)
    (fun k hk => Lowest.wins hk) hpos hews, FindsMatch]
  refine or_congr_right (exists_congr fun k => and_congr_right fun hk =>
    and_congr_right fun _ => ?_)
  constructor
  · intro hall _ hsplit hstart t ht hchunk htk
    by_contra hnone
    obtain ⟨index, hindex, hwrong⟩ := exists_harmful_outcome (x := x) firstIndex_opType
      hsplit (fun i => by omega) hstart ((teamChunks_pos ht).mpr hchunk)
      fun i hi hmatch => by
        obtain ⟨hin, hdiv⟩ := (mem_firstChunk ht).mp hi
        exact hnone ⟨i, hin, hdiv, hmatch⟩
    obtain rfl := hall index hindex
    rcases hwrong with hneg | ⟨i, hi, hki⟩
    · omega
    · rw [← hi, Int.ofNat_inj.mp hki] at htk
      exact htk rfl
  · intro hsafe index hindex
    refine (Lowest.wins hk).outcome_eq firstIndex_opType hpos (fun hsplit t hchunks => ?_) hindex
    by_cases htk : t = threadOf settings info k
    · exact Or.inl htk
    · by_cases hstart : Matches extraParams (noMatch : IndexValue K).value
      · have ht : t < (chunkLayout settings info).threads := by
          by_contra ht
          rw [teamChunks_of_le settings info (Nat.le_of_not_lt ht)] at hchunks
          cases hchunks
        obtain ⟨i, hi, hdiv, hmatch⟩ :=
          hsafe rfl hsplit hstart t ht ((teamChunks_pos ht).mp hchunks) htk
        exact Or.inr (Or.inl ⟨i, (mem_firstChunk ht).mpr ⟨hi, hdiv⟩, hmatch⟩)
      · exact Or.inr (Or.inr (Or.inl hstart))

end Kinds

/-! ## All operations -/

/-- The loops find what is wanted. -/
def FindsIndex (settings : Settings) (kind : IndexReduceKind) (x : Int → K)
    (info : ShapeInfo) (extraParams : MatchParams K) : Prop :=
  if kind.IsExtremum then FindsExtremum settings kind x info extraParams
  else FindsMatch settings kind x info extraParams

/-- The index is that of a scan in C order in every run exactly if the loops find what is wanted. -/
theorem returnsWanted_iff [IsStrictOrderedRing K] (settings : Settings) (kind : IndexReduceKind)
    (x : Int → K) (info : ShapeInfo) (extraParams : MatchParams K) (hpos : info.Positive)
    (hews : info.HonestEws) :
    ReturnsWanted settings kind x info extraParams ↔
      FindsIndex settings kind x info extraParams := by
  unfold FindsIndex
  by_cases h : kind.IsExtremum
  · rw [if_pos h]
    exact extremum_iff h hpos hews
  · rw [if_neg h]
    cases kind with
    | firstIndex => exact firstIndex_iff hpos hews
    | lastIndex => exact lastIndex_iff hpos hews
    | _ => exact absurd (by decide) h

/-- Two rows of two in F order. -/
def fortranSquare : ShapeInfo where
  shape := [2, 2]
  stride := [1, 2]
  offset := 0
  elementWiseStride := 1
  order := 'f'
  stride_length := rfl

/-- The greatest value lies in the second column of the first row. -/
def peak (i : Int) : Rat :=
  if i = 2 then 3 else 1

/-- Nothing is matched. -/
def noParams : MatchParams Rat where
  compare := 0
  eps := 0
  mode := 9

theorem returnsWanted_iff_fortranSquare :
    ReturnsWanted (.initial 4 (by decide)) .indexMax peak fortranSquare noParams ↔
      FindsIndex (.initial 4 (by decide)) .indexMax peak fortranSquare noParams :=
  returnsWanted_iff _ _ _ _ _ (by decide) (by decide)

theorem not_returnsWanted_always :
    ¬ ∀ (settings : Settings) (kind : IndexReduceKind) (x : Int → Rat) (info : ShapeInfo)
      (extraParams : MatchParams Rat), info.Positive → info.HonestEws →
        ReturnsWanted settings kind x info extraParams := by
  intro h
  have hreturns := h (.initial 4 (by decide)) .indexMax peak fortranSquare noParams (by decide)
    (by decide)
  have hseen : ∀ i < 4, loopElement peak fortranSquare 2 ≤ loopElement peak fortranSquare i →
      i = 2 := by decide
  have hwanted : ¬ elementAt peak fortranSquare 1 ≤ elementAt peak fortranSquare 2 ∧
      ¬ elementAt peak fortranSquare 1 ≤ elementAt peak fortranSquare 0 := by decide
  rcases findsExtremum_of_returnsWanted (by decide) (by decide) (by decide) hreturns with
    ⟨-, k, hk, hkv, -⟩ | ⟨-, hsought⟩
  · obtain rfl := hseen k hk.1 (hk.2.1 2 (by decide))
    exact hwanted.1 (hkv.2.1 1 (by decide))
  · exact hwanted.2 (hsought 1 (by decide))

end Loops
end LibND4J
