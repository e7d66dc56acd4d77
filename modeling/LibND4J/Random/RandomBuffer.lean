import Mathlib.Tactic.Ring

/-!
# Random buffers

A random buffer is a table of words that is read round and round.  The generation counts the
turns, and every word is rescaled by the generation that it is read in.  A reader may ask for
an element ahead of the current position, or wind the buffer forward first.

Main results:

- Theorem `getElement_eq` and `rewindH_eq`: positions and generations as remainders
  and quotients by the size.
- Theorem `drawnAlike_iff`: winding forward and asking ahead give the same elements exactly
  when the winding completes no turn, or starts in the first generation and ends in the turn of
  the element.
- Theorem `not_drawnAlike_always`: the second turn of a buffer of one word.
-/

namespace LibND4J
namespace Random

/-- A random buffer on the host. -/
structure RandomBuffer where
  size : Nat
  buffer : Nat → UInt64
  seed : Int64
  currentPosition : Nat
  generation : Nat
  amplifier : Int64

namespace RandomBuffer

/-- `safeShift`; the quotient of `MAX_UINT` tells whether the product overflows. -/
def safeShift (x y : UInt64) : UInt64 :=
  if y ≠ 0 ∧ x > 18446744073709551615 / y then x / y + 11 else x * y + 11

def rotl (x : UInt64) (k : UInt64) : UInt64 :=
  (x <<< k) ||| (x >>> (64 - k))

def next64 (shiftedSeed : UInt64) : UInt64 :=
  let s0 := shiftedSeed
  let s1 := (shiftedSeed % 2147483647 + 11) ^^^ s0
  let r0 := rotl s0 55 ^^^ s1 ^^^ (s1 <<< 14)
  let r1 := rotl s1 36
  r0 + r1

def seedConv (seed : UInt64) : UInt64 :=
  let z := seed + 0x9E3779B97F4A7C15
  let z := (z ^^^ (z >>> 30)) * 0xBF58476D1CE4E5B9
  let z := (z ^^^ (z >>> 27)) * 0x94D049BB133111EB
  z ^^^ (z >>> 31)

/-- The second half of `getElement`: rescale a word that is read in generation `tempGen`. -/
def rescale (rb : RandomBuffer) (tempGen : Nat) (ret : UInt64) : UInt64 :=
  let ret := if tempGen ≠ rb.generation then safeShift ret (UInt64.ofNat tempGen) else ret
  let ret := if rb.generation > 1 then safeShift ret (UInt64.ofNat rb.generation) else ret
  let ret := if rb.amplifier ≠ rb.seed then safeShift ret rb.amplifier.toUInt64 else ret
  if rb.amplifier ≠ rb.seed ∨ rb.generation > 1 ∨ tempGen ≠ rb.generation then
    next64 (seedConv ret)
  else
    ret

def getElement (rb : RandomBuffer) (position : Nat) : UInt64 :=
  let actualPosition := rb.currentPosition + position
  if actualPosition ≥ rb.size then
    rb.rescale (rb.generation + actualPosition / rb.size) (rb.buffer (actualPosition % rb.size))
  else
    rb.rescale rb.generation (rb.buffer actualPosition)

def rewindH (rb : RandomBuffer) (numberOfElements : Nat) : RandomBuffer :=
  let newPos := rb.currentPosition + numberOfElements
  if newPos > rb.size then
    { rb with generation := rb.generation + newPos / rb.size, currentPosition := newPos % rb.size }
  else if newPos = rb.size then
    { rb with generation := rb.generation + 1, currentPosition := 0 }
  else
    { rb with currentPosition := newPos }

/-- `relativeT`, for the types of at least four bytes: an element as a fraction of `MAX_UINT`. -/
def relativeT {T : Type*} [NatCast T] [Div T] (rb : RandomBuffer) (index : Nat) : T :=
  ((rb.getElement index).toNat : T) / ((18446744073709551615 : Nat) : T)

/-! ## Turns -/

theorem getElement_eq (rb : RandomBuffer) (position : Nat) :
    rb.getElement position = rb.rescale
      (rb.generation + (rb.currentPosition + position) / rb.size)
      (rb.buffer ((rb.currentPosition + position) % rb.size)) := by
  rw [getElement]
  split
  · rfl
  · rename_i hsize
    rw [Nat.div_eq_of_lt (by omega), Nat.mod_eq_of_lt (by omega), Nat.add_zero]

variable {rb : RandomBuffer} {size t g g' p generation m j : Nat} {x y : UInt64}

theorem rewindH_eq (hsize : 0 < rb.size) (n : Nat) :
    rb.rewindH n = { rb with
      generation := rb.generation + (rb.currentPosition + n) / rb.size
      currentPosition := (rb.currentPosition + n) % rb.size } := by
  rw [rewindH]
  split
  · rfl
  · split
    · rename_i heq
      rw [heq, Nat.div_self hsize, Nat.mod_self]
    · rw [Nat.div_eq_of_lt (by omega), Nat.mod_eq_of_lt (by omega), Nat.add_zero]

/-- Winding forward keeps the generation that an element is read in, and its place. -/
theorem turn_split (hsize : 0 < size) (p m j : Nat) :
    (p + (m + j)) / size = (p + m) / size + ((p + m) % size + j) / size ∧
      (p + (m + j)) % size = ((p + m) % size + j) % size := by
  have hsplit : p + (m + j) = (p + m) % size + j + size * ((p + m) / size) := by
    have hn := Nat.mod_add_div (p + m) size
    calc p + (m + j) = (p + m) + j := (Nat.add_assoc p m j).symm
      _ = ((p + m) % size + size * ((p + m) / size)) + j := by rw [hn]
      _ = (p + m) % size + j + size * ((p + m) / size) := Nat.add_right_comm _ _ _
  constructor
  · rw [hsplit, Nat.add_mul_div_left _ _ hsize, Nat.add_comm]
  · rw [hsplit, Nat.add_mul_mod_self_left]

/-- The turn that an element is read in, and its place in the table. -/
def place (rb : RandomBuffer) (index : Nat) : Nat × Nat :=
  (rb.generation + (rb.currentPosition + index) / rb.size, (rb.currentPosition + index) % rb.size)

/-- Asking ahead and winding forward first give the same element, whatever the buffer holds
and whatever it is seeded with. -/
def DrawnAlike (size currentPosition generation m j : Nat) : Prop :=
  ∀ (buffer : Nat → UInt64) (seed amplifier : Int64),
    let rb : RandomBuffer := { size, buffer, seed, currentPosition, generation, amplifier }
    rb.getElement (m + j) = (rb.rewindH m).getElement j

/-! ## Saturating shifts -/

theorem gt_div_iff (hy : 0 < y.toNat) :
    x > 18446744073709551615 / y ↔ 2 ^ 64 ≤ x.toNat * y.toNat := by
  have hmax : (18446744073709551615 : UInt64).toNat = 2 ^ 64 - 1 := rfl
  rw [gt_iff_lt, UInt64.lt_iff_toNat_lt, UInt64.toNat_div, hmax, Nat.div_lt_iff_lt_mul hy]
  omega

/-- A word whose product overflows is divided. -/
theorem toNat_safeShift_of_overflow (h : 2 ^ 64 ≤ x.toNat * y.toNat) :
    (safeShift x y).toNat = x.toNat / y.toNat + 11 := by
  have hx : x.toNat < 2 ^ 64 := x.toNat_lt
  have hy : 1 < y.toNat := by
    by_contra hle
    have hle : y.toNat ≤ 1 := Nat.not_lt.mp hle
    have hmul : x.toNat * y.toNat ≤ x.toNat * 1 := Nat.mul_le_mul_left _ hle
    omega
  have hne : y ≠ 0 := by
    rintro rfl
    exact absurd hy (by decide)
  have hsmall : x.toNat / y.toNat ≤ x.toNat / 2 := Nat.div_le_div_left hy (by decide)
  rw [safeShift, if_pos ⟨hne, (gt_div_iff (by omega)).mpr h⟩, UInt64.toNat_add, UInt64.toNat_div]
  exact Nat.mod_eq_of_lt (by show x.toNat / y.toNat + 11 < 2 ^ 64; omega)

/-- A word whose product fits is multiplied. -/
theorem toNat_safeShift_of_fits (h : x.toNat * y.toNat + 11 < 2 ^ 64) :
    (safeShift x y).toNat = x.toNat * y.toNat + 11 := by
  rw [safeShift, if_neg, UInt64.toNat_add, UInt64.toNat_mul]
  · show (x.toNat * y.toNat % 2 ^ 64 + 11) % 2 ^ 64 = _
    rw [Nat.mod_eq_of_lt (show x.toNat * y.toNat < 2 ^ 64 by omega), Nat.mod_eq_of_lt h]
  · rintro ⟨hne, hgt⟩
    have hy : 0 < y.toNat := by
      apply Nat.pos_of_ne_zero
      intro hzero
      exact hne (UInt64.toNat_inj.mp hzero)
    have hover := (gt_div_iff hy).mp hgt
    omega

/-- The words 11 and 12 are mixed to different words. -/
theorem mix_ne : next64 (seedConv 11) ≠ next64 (seedConv 12) := by
  decide

/-- Two different words with a large product are told apart by some amplifier. -/
theorem exists_amplifier_of_lt {u v : UInt64} (hlt : u.toNat < v.toNat)
    (hlarge : 2 ^ 64 ≤ u.toNat * v.toNat) :
    ∃ a, next64 (seedConv (safeShift u a)) ≠ next64 (seedConv (safeShift v a)) := by
  have hsquare : 2 ^ 64 ≤ v.toNat * v.toNat :=
    hlarge.trans (Nat.mul_le_mul_right _ hlt.le)
  have hu : safeShift u v = 11 := by
    apply UInt64.toNat_inj.mp
    rw [toNat_safeShift_of_overflow hlarge, Nat.div_eq_of_lt hlt]
    rfl
  have hv : safeShift v v = 12 := by
    apply UInt64.toNat_inj.mp
    rw [toNat_safeShift_of_overflow hsquare, Nat.div_self (by omega)]
    rfl
  exact ⟨v, by rw [hu, hv]; exact mix_ne⟩

theorem exists_amplifier {u v : UInt64} (hne : u.toNat ≠ v.toNat)
    (hlarge : 2 ^ 64 ≤ u.toNat * v.toNat) :
    ∃ a, next64 (seedConv (safeShift u a)) ≠ next64 (seedConv (safeShift v a)) := by
  rcases Nat.lt_or_gt_of_ne hne with hlt | hgt
  · exact exists_amplifier_of_lt hlt hlarge
  · obtain ⟨a, ha⟩ := exists_amplifier_of_lt hgt (by rwa [Nat.mul_comm])
    exact ⟨a, ha.symm⟩

/-! ## Words that show a turn -/

/-- The generation as a word. -/
theorem toNat_ofNat {n : Nat} (hn : n < 2 ^ 59) : (UInt64.ofNat n).toNat = n := by
  rw [UInt64.toNat_ofNat']
  exact Nat.mod_eq_of_lt (by omega)

/-- Every generation brings some word into the upper half. -/
theorem exists_large (hpos : 0 < t) (ht : t < 2 ^ 59) :
    ∃ x, 2 ^ 63 ≤ (safeShift x (UInt64.ofNat t)).toNat := by
  have hle : 2 ^ 63 / t * t ≤ 2 ^ 63 := Nat.div_mul_le_self _ _
  have hlt : 2 ^ 63 < 2 ^ 63 / t * t + t := Nat.lt_div_mul_add hpos
  have hq : 2 ^ 63 / t ≤ 2 ^ 63 := Nat.div_le_self _ _
  have hx : (UInt64.ofNat (2 ^ 63 / t + 1)).toNat = 2 ^ 63 / t + 1 := by
    rw [UInt64.toNat_ofNat']
    exact Nat.mod_eq_of_lt (by omega)
  have hproduct : (UInt64.ofNat (2 ^ 63 / t + 1)).toNat * (UInt64.ofNat t).toNat =
      2 ^ 63 / t * t + t := by
    rw [hx, toNat_ofNat ht, Nat.succ_mul]
  refine ⟨UInt64.ofNat (2 ^ 63 / t + 1), ?_⟩
  rw [toNat_safeShift_of_fits (by rw [hproduct]; omega), hproduct]
  omega

/-- A word of the upper half is divided by every later generation. -/
theorem toNat_safeShift_of_large {w : UInt64} (hw : 2 ^ 63 ≤ w.toNat) (hg : 1 < g)
    (hbound : g < 2 ^ 59) : (safeShift w (UInt64.ofNat g)).toNat = w.toNat / g + 11 := by
  have hover : 2 ^ 64 ≤ w.toNat * g := by
    calc 2 ^ 64 = 2 ^ 63 * 2 := by decide
      _ ≤ w.toNat * g := Nat.mul_le_mul hw hg
  have hcast := toNat_ofNat hbound
  rw [toNat_safeShift_of_overflow (by rwa [hcast]), hcast]

/-- One more shift is noticed. -/
theorem exists_word_shifted (hpos : 0 < t) (ht : t < 2 ^ 59) (hg : 1 < g) (hbound : g < 2 ^ 59) :
    ∃ x a,
      next64 (seedConv (safeShift (safeShift x (UInt64.ofNat t)) a)) ≠
      next64 (seedConv
        (safeShift (safeShift (safeShift x (UInt64.ofNat t)) (UInt64.ofNat g)) a)) := by
  obtain ⟨x, hw⟩ := exists_large hpos ht
  have hshifted := toNat_safeShift_of_large hw hg hbound
  have hhalf : (safeShift x (UInt64.ofNat t)).toNat / g ≤
      (safeShift x (UInt64.ofNat t)).toNat / 2 := Nat.div_le_div_left hg (by decide)
  refine ⟨x, exists_amplifier (by omega) ?_⟩
  rw [hshifted]
  calc 2 ^ 64 ≤ 2 ^ 63 * 11 := by decide
    _ ≤ _ := Nat.mul_le_mul hw (Nat.le_add_left 11 _)

/-- The quotients by two generations differ as long as the word is large. -/
theorem div_lt_div {w : Nat} (hpos : 0 < g) (hlt : g < g') (hw : g * g' ≤ w) : w / g' < w / g := by
  have hg : g ≤ w / g' := (Nat.le_div_iff_mul_le (by omega)).mpr hw
  rw [Nat.lt_iff_add_one_le, Nat.le_div_iff_mul_le hpos]
  calc (w / g' + 1) * g = w / g' * g + g := Nat.succ_mul _ _
    _ ≤ w / g' * g + w / g' := Nat.add_le_add_left hg _
    _ = w / g' * (g + 1) := (Nat.mul_succ _ _).symm
    _ ≤ w / g' * g' := Nat.mul_le_mul_left _ hlt
    _ ≤ w := Nat.div_mul_le_self _ _

/-- The product of the quotients of a large word is large. -/
theorem large_of_div {w : Nat} (hg : 0 < g) (hg' : 0 < g') (hw : 2 ^ 63 ≤ w)
    (hproduct : g * g' < 2 ^ 58) : 2 ^ 64 ≤ (w / g + 11) * (w / g' + 11) := by
  have hquot : ∀ {d : Nat}, 0 < d → w ≤ (w / d + 11) * d := by
    intro d hd
    calc w ≤ (w / d + 1) * d := by
          rw [Nat.succ_mul]
          exact (Nat.lt_div_mul_add hd).le
      _ ≤ (w / d + 11) * d := Nat.mul_le_mul_right _ (by omega)
  by_contra hsmall
  have hsmall := Nat.not_le.mp hsmall
  have hsquare : w * w < 2 ^ 64 * 2 ^ 58 := by
    calc w * w ≤ (w / g + 11) * g * ((w / g' + 11) * g') := Nat.mul_le_mul (hquot hg) (hquot hg')
      _ = (w / g + 11) * (w / g' + 11) * (g * g') := by ring
      _ < 2 ^ 64 * 2 ^ 58 := Nat.mul_lt_mul'' hsmall hproduct
  have hlarge : 2 ^ 63 * 2 ^ 63 ≤ w * w := Nat.mul_le_mul hw hw
  omega

/-- Two generations are told apart by some word. -/
theorem exists_word_between (hpos : 0 < t) (ht : t < 2 ^ 59) (hg : 1 < g) (hlt : g < g')
    (hbound : g' < 2 ^ 59) : ∃ x a,
      next64 (seedConv
        (safeShift (safeShift (safeShift x (UInt64.ofNat t)) (UInt64.ofNat g)) a)) ≠
      next64 (seedConv
        (safeShift (safeShift (safeShift x (UInt64.ofNat t)) (UInt64.ofNat g')) a)) := by
  by_cases hproduct : g * g' < 2 ^ 58
  · -- a word of the upper half is divided by both
    obtain ⟨x, hw⟩ := exists_large hpos ht
    refine ⟨x, exists_amplifier ?_ ?_⟩
    · rw [toNat_safeShift_of_large hw hg (by omega), toNat_safeShift_of_large hw (by omega) hbound]
      have hdiv := div_lt_div (by omega) hlt (hproduct.le.trans (le_trans (by decide) hw))
      omega
    · rw [toNat_safeShift_of_large hw hg (by omega), toNat_safeShift_of_large hw (by omega) hbound]
      exact large_of_div (by omega) (by omega) hw hproduct
  · -- the word 11 is multiplied by both
    have hzero : (safeShift 0 (UInt64.ofNat t)).toNat = 11 := by
      rw [toNat_safeShift_of_fits (by rw [UInt64.toNat_zero, Nat.zero_mul]; decide),
        UInt64.toNat_zero, Nat.zero_mul]
    have hfits : ∀ {d : Nat}, d < 2 ^ 59 →
        (safeShift (safeShift 0 (UInt64.ofNat t)) (UInt64.ofNat d)).toNat = 11 * d + 11 := by
      intro d hd
      rw [toNat_safeShift_of_fits (by rw [hzero, toNat_ofNat hd]; omega), hzero, toNat_ofNat hd]
    refine ⟨0, exists_amplifier ?_ ?_⟩
    · rw [hfits (by omega), hfits hbound]
      omega
    · rw [hfits (by omega), hfits hbound]
      have hle := Nat.not_lt.mp hproduct
      calc 2 ^ 64 ≤ 121 * 2 ^ 58 := by decide
        _ ≤ 121 * (g * g') := Nat.mul_le_mul_left _ hle
        _ = (11 * g) * (11 * g') := by ring
        _ ≤ (11 * g + 11) * (11 * g' + 11) :=
          Nat.mul_le_mul (Nat.le_add_right _ _) (Nat.le_add_right _ _)

/-! ## Winding forward and asking ahead -/

/-- The winding completes no turn; or it starts in the first generation, and the element is
read in the turn that the winding ends in. -/
def NoTurnBetween (size currentPosition generation m j : Nat) : Prop :=
  currentPosition + m < size ∨
    generation = 1 ∧ (currentPosition + m) % size + j < size

/-- The word and the generation of an element that is asked for ahead. -/
theorem getElement_ahead (hsize : 0 < rb.size) (m j : Nat) :
    rb.getElement (m + j) = rb.rescale
    (rb.generation + (rb.currentPosition + m) / rb.size +
      ((rb.currentPosition + m) % rb.size + j) / rb.size)
    (rb.buffer (((rb.currentPosition + m) % rb.size + j) % rb.size)) := by
  obtain ⟨hdiv, hmod⟩ := turn_split hsize rb.currentPosition m j
  rw [getElement_eq, hdiv, hmod, Nat.add_assoc]

/-- The word and the generation of an element after winding forward are the same. -/
theorem getElement_rewindH (hsize : 0 < rb.size) (m j : Nat) :
    (rb.rewindH m).getElement j =
    { rb with generation := rb.generation + (rb.currentPosition + m) / rb.size }.rescale
      (rb.generation + (rb.currentPosition + m) / rb.size +
        ((rb.currentPosition + m) % rb.size + j) / rb.size)
      (rb.buffer (((rb.currentPosition + m) % rb.size + j) % rb.size)) := by
  rw [rewindH_eq hsize, getElement_eq]
  rfl

/-- In the first generation a word is shifted by the generation it is read in only. -/
theorem rescale_of_first (hfirst : rb.generation = 1) {tempGen : Nat} (hlater : 1 < tempGen)
    (x : UInt64) : rb.rescale tempGen x = { rb with generation := tempGen }.rescale tempGen x := by
  have hne : tempGen ≠ 1 := by omega
  simp only [rescale, hfirst]
  simp [hne, hlater]

theorem drawnAlike_of_noTurnBetween (hsize : 0 < size) (h : NoTurnBetween size p generation m j) :
    DrawnAlike size p generation m j := by
  intro buffer seed amplifier rb
  rw [getElement_ahead hsize, getElement_rewindH hsize]
  rcases Nat.lt_or_ge (p + m) size with hstay | hturn
  · rw [show (rb.currentPosition + m) / rb.size = 0 from Nat.div_eq_of_lt hstay, Nat.add_zero]
  · obtain ⟨hfirst, hsame⟩ := h.resolve_left (Nat.not_lt.mpr hturn)
    have hlater : 1 < rb.generation + (rb.currentPosition + m) / rb.size := by
      have hturns : 0 < (p + m) / size := Nat.div_pos hturn hsize
      exact hfirst ▸ Nat.lt_add_of_pos_right hturns
    rw [show ((rb.currentPosition + m) % rb.size + j) / rb.size = 0 from Nat.div_eq_of_lt hsame]
    exact rescale_of_first hfirst hlater _

/-- A word that is rescaled in a later generation, by an amplifier that is not the seed. -/
theorem rescale_of_amplified (hamplified : rb.amplifier ≠ rb.seed) (tempGen : Nat) (x : UInt64) :
    rb.rescale tempGen x =
      let ret := if tempGen ≠ rb.generation then safeShift x (UInt64.ofNat tempGen) else x
      let ret := if rb.generation > 1 then safeShift ret (UInt64.ofNat rb.generation) else ret
      next64 (seedConv (safeShift ret rb.amplifier.toUInt64)) := by
  simp only [rescale, if_pos hamplified, if_pos (Or.inl hamplified)]

/-- What the two draws of a word `x` come to over at least one turn, amplified by `a`. -/
theorem DrawnAlike.shifted (h : DrawnAlike size p generation m j) (hsize : 0 < size)
    (hgen : 1 ≤ generation) (hturn : 0 < (p + m) / size) (x a : UInt64) :
    let later := generation + (p + m) / size
    let tempGen := later + ((p + m) % size + j) / size
    let first := safeShift x (UInt64.ofNat tempGen)
    next64 (seedConv (safeShift
      (if generation > 1 then safeShift first (UInt64.ofNat generation) else first) a)) =
    next64 (seedConv (safeShift
      (safeShift (if tempGen ≠ later then first else x) (UInt64.ofNat later)) a)) := by
  intro later tempGen first
  obtain ⟨seed, hseed⟩ : ∃ seed : Int64, a.toInt64 ≠ seed := by
    by_cases hzero : a.toInt64 = 0
    · exact ⟨1, by rw [hzero]; decide⟩
    · exact ⟨0, hzero⟩
  have hdrawn := h (fun _ => x) seed a.toInt64
  simp only at hdrawn
  rw [getElement_ahead hsize, getElement_rewindH hsize, rescale_of_amplified hseed,
    rescale_of_amplified hseed] at hdrawn
  have hlater : generation < later := Nat.lt_add_of_pos_right hturn
  have hne : tempGen ≠ generation := (hlater.trans_le (Nat.le_add_right _ _)).ne'
  have hgt : later > 1 := hgen.trans_lt hlater
  simp only [UInt64.toUInt64_toInt64] at hdrawn
  rw [if_pos hne, if_pos hgt] at hdrawn
  exact hdrawn

/-- Asking ahead over a turn and winding forward are told apart. -/
theorem noTurnBetween_of_drawnAlike (hsize : 0 < size) (hgen : 1 ≤ generation)
    (hbound : generation + (p + (m + j)) / size < 2 ^ 59) (h : DrawnAlike size p generation m j) :
    NoTurnBetween size p generation m j := by
  obtain ⟨hdiv, -⟩ := turn_split hsize p m j
  rw [hdiv, ← Nat.add_assoc] at hbound
  by_contra hnot
  obtain ⟨hturn, hother⟩ := not_or.mp hnot
  have hturns : 0 < (p + m) / size := Nat.div_pos (Nat.not_lt.mp hturn) hsize
  have hshifted := h.shifted hsize hgen hturns
  simp only at hshifted
  by_cases hlater : (p + m) % size + j < size
  · -- the element is read in the turn that the winding ends in
    have hfirst : 1 < generation := by
      by_contra hle
      exact hother ⟨by omega, hlater⟩
    rw [Nat.div_eq_of_lt hlater, Nat.add_zero] at hbound
    obtain ⟨x, a, hne⟩ := exists_word_shifted (t := generation + (p + m) / size)
      (g := generation) (by omega) hbound hfirst (by omega)
    have heq := hshifted x a
    rw [Nat.div_eq_of_lt hlater, Nat.add_zero, if_pos hfirst, if_neg (by simp)] at heq
    exact hne heq.symm
  · have hpos : 0 < ((p + m) % size + j) / size := Nat.div_pos (Nat.not_lt.mp hlater) hsize
    by_cases hfirst : 1 < generation
    · have hbefore : generation < generation + (p + m) / size := by omega
      obtain ⟨x, a, hne⟩ := exists_word_between
        (t := generation + (p + m) / size + ((p + m) % size + j) / size)
        (by omega) hbound hfirst hbefore (by omega)
      have heq := hshifted x a
      rw [if_pos hfirst, if_pos (by omega)] at heq
      exact hne heq
    · obtain ⟨x, a, hne⟩ := exists_word_shifted
        (t := generation + (p + m) / size + ((p + m) % size + j) / size)
        (g := generation + (p + m) / size) (by omega) hbound (by omega) (by omega)
      have heq := hshifted x a
      rw [if_neg hfirst, if_pos (by omega)] at heq
      exact hne heq

/-- Winding forward and asking ahead draw the same elements from every buffer exactly when no
turn comes between; the generation of the element is kept far from the largest word where that
is shown to be necessary. -/
theorem drawnAlike_iff {size p generation m j : Nat} (hsize : 0 < size)
    (hgen : 1 ≤ generation) :
    (NoTurnBetween size p generation m j → DrawnAlike size p generation m j) ∧
      (generation + (p + (m + j)) / size < 2 ^ 59 → DrawnAlike size p generation m j →
        NoTurnBetween size p generation m j) :=
  ⟨drawnAlike_of_noTurnBetween hsize, noTurnBetween_of_drawnAlike hsize hgen⟩

theorem drawnAlike_iff_fresh :
    (NoTurnBetween 4 0 1 3 2 → DrawnAlike 4 0 1 3 2) ∧
      (1 + (0 + (3 + 2)) / 4 < 2 ^ 59 → DrawnAlike 4 0 1 3 2 → NoTurnBetween 4 0 1 3 2) :=
  drawnAlike_iff (by decide) (by decide)

/-- A buffer of one word in its second generation. -/
theorem not_drawnAlike_always :
    ¬ ∀ size p generation m j : Nat, 0 < size → 1 ≤ generation →
      DrawnAlike size p generation m j := by
  intro h
  have heq := h 1 0 2 1 0 (by decide) (by decide) (fun _ => 5) 7 7
  exact absurd heq (by decide)

end RandomBuffer

end Random
end LibND4J
