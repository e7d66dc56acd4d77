import LibND4J.Library.Strided

/-!
# Repeated boxes

A box is repeated along its axes.  Copying whole blocks of the innermost axis one after the other,
from the start of the old box again when its end is reached, repeats the axis that varies slowest;
the other ones come out right only where there is nothing before them.

Main results:

- Theorem `blocksWrap_iff`: when wrapping round repeats a box.
- Theorem `tiles_iff`: the same with the innermost axis, which is repeated block by block.
- Theorem `encode_rows`: repeating the rows of a matrix repeats an axis.
-/

namespace Strided

/-- The extents of a box, from axes with an extent and a count. -/
def oldDims (axes : List (Nat × Nat)) : List Nat :=
  axes.map fun a => a.1

/-- The extents of the repeated box. -/
def newDims (axes : List (Nat × Nat)) : List Nat :=
  axes.map fun a => a.1 * a.2

/-- Each component modulo the extent of its axis. -/
def wrapped (axes : List (Nat × Nat)) (coords : List Nat) : List Nat :=
  List.zipWith (fun a c => c % a.1) axes coords

/-- Wrapping round at the end of the box repeats it. -/
def BlocksWrap (axes : List (Nat × Nat)) : Prop :=
  ∀ c, InBox (newDims axes) c →
    encode (newDims axes) c % (oldDims axes).prod = encode (oldDims axes) (wrapped axes c)

/-- A repeated axis has only extents of one before it. -/
def FirstRepeated (axes : List (Nat × Nat)) : Prop :=
  axes.Pairwise fun a b => a.1 = 1 ∨ b.2 = 1

instance (axes : List (Nat × Nat)) : Decidable (FirstRepeated axes) :=
  inferInstanceAs (Decidable (axes.Pairwise _))

section Boxes

variable {axes : List (Nat × Nat)}

theorem oldDims_cons (a : Nat × Nat) (axes : List (Nat × Nat)) :
    oldDims (a :: axes) = a.1 :: oldDims axes :=
  rfl

theorem newDims_cons (a : Nat × Nat) (axes : List (Nat × Nat)) :
    newDims (a :: axes) = a.1 * a.2 :: newDims axes :=
  rfl

theorem prod_newDims (axes : List (Nat × Nat)) :
    (newDims axes).prod = (oldDims axes).prod * (axes.map Prod.snd).prod := by
  induction axes with
  | nil => rfl
  | cons a axes ih =>
      rw [newDims_cons, oldDims_cons, List.map_cons, List.prod_cons, List.prod_cons,
        List.prod_cons, ih]
      ring

/-- Without repetition nothing changes. -/
theorem newDims_of_ones (hones : ∀ a ∈ axes, a.2 = 1) : newDims axes = oldDims axes :=
  List.map_congr_left fun a ha => by rw [hones a ha, Nat.mul_one]

theorem wrapped_eq (axes : List (Nat × Nat)) (c : List Nat) :
    wrapped axes c = List.zipWith (fun d x => x % d) (oldDims axes) c := by
  rw [wrapped, oldDims, List.zipWith_map_left]

/-- Remainders by the extents of a box are a coordinate of it. -/
theorem inBox_mod {ds cs : List Nat} (hpos : ∀ d ∈ ds, 0 < d) (hlength : cs.length = ds.length) :
    InBox ds (List.zipWith (fun d x => x % d) ds cs) := by
  induction ds generalizing cs with
  | nil => exact .nil
  | cons d ds ih =>
      obtain ⟨x, cs, rfl⟩ := List.exists_cons_of_length_eq_add_one hlength
      exact .cons (Nat.mod_lt _ (hpos d List.mem_cons_self))
        (ih (fun e he => hpos e (List.mem_cons_of_mem _ he)) (Nat.succ.inj hlength))

variable {c : List Nat}

theorem inBox_wrapped (hpos : ∀ a ∈ axes, 0 < a.1) (hc : c.length = axes.length) :
    InBox (oldDims axes) (wrapped axes c) := by
  rw [wrapped_eq]
  refine inBox_mod (fun d hd => ?_) (by rw [hc, oldDims, List.length_map])
  obtain ⟨a, ha, rfl⟩ := List.mem_map.mp hd
  exact hpos a ha

theorem wrapped_of_inBox (hc : InBox (oldDims axes) c) : wrapped axes c = c := by
  induction axes generalizing c with
  | nil =>
      cases hc
      rfl
  | cons a axes ih =>
      cases hc with
      | cons hb hrest =>
          rw [wrapped, List.zipWith_cons_cons, Nat.mod_eq_of_lt hb]
          exact congrArg _ (ih hrest)

theorem length_of_inBox_newDims (hc : InBox (newDims axes) c) : c.length = axes.length := by
  rw [← hc.length_eq, newDims, List.length_map]

/-- The remainder of an index with two digits. -/
theorem mul_add_mod_mul {q m r n : Nat} (hr : r < m) :
    (q * m + r) % (n * m) = q % n * m + r := by
  have hdiv : (q * m + r) / m = q := by
    rw [Nat.add_comm, Nat.add_mul_div_right _ _ (by omega), Nat.div_eq_of_lt hr, Nat.zero_add]
  rw [Nat.mul_comm n m, Nat.mod_mul, hdiv, Nat.mul_add_mod_of_lt hr]
  ring

/-- With a repeated axis there are more blocks than before. -/
theorem prod_lt_of_repeated (hpos : ∀ a ∈ axes, 0 < a.1 ∧ 0 < a.2)
    (hrepeated : ∃ a ∈ axes, a.2 ≠ 1) : (oldDims axes).prod < (newDims axes).prod := by
  have hcounts : ∀ n ∈ axes.map Prod.snd, 0 < n := by
    intro n hn
    obtain ⟨a, ha, rfl⟩ := List.mem_map.mp hn
    exact (hpos a ha).2
  have hold : 0 < (oldDims axes).prod := prod_pos_of_pos fun d hd => by
    obtain ⟨a, ha, rfl⟩ := List.mem_map.mp hd
    exact (hpos a ha).1
  have hcount : 1 < (axes.map Prod.snd).prod := by
    obtain ⟨a, ha, hne⟩ := hrepeated
    have hle : a.2 ≤ (axes.map Prod.snd).prod :=
      Nat.le_of_dvd (prod_pos_of_pos hcounts) (List.dvd_prod (List.mem_map_of_mem ha))
    have := (hpos a ha).2
    omega
  rw [prod_newDims]
  calc (oldDims axes).prod = (oldDims axes).prod * 1 := (Nat.mul_one _).symm
    _ < (oldDims axes).prod * (axes.map Prod.snd).prod := Nat.mul_lt_mul_of_pos_left hcount hold

end Boxes

/-! ## Boxes one after the other -/

section Append

variable {ds es cs fs : List Nat}

theorem encode_append (hlength : ds.length = cs.length) :
    encode (ds ++ es) (cs ++ fs) = encode ds cs * es.prod + encode es fs := by
  induction ds generalizing cs with
  | nil =>
      rw [List.eq_nil_of_length_eq_zero hlength.symm]
      simp [encode]
  | cons d ds ih =>
      obtain ⟨c, cs, rfl⟩ := List.exists_cons_of_length_eq_add_one hlength.symm
      rw [List.cons_append, List.cons_append, encode, ih (Nat.succ.inj hlength), encode,
        List.prod_append]
      ring

/-- A coordinate of two boxes one after the other is made of one of each. -/
theorem exists_append_of_inBox {c : List Nat} (hc : InBox (ds ++ es) c) :
    ∃ cs fs, c = cs ++ fs ∧ InBox ds cs ∧ InBox es fs := by
  induction ds generalizing c with
  | nil => exact ⟨[], c, rfl, .nil, hc⟩
  | cons d ds ih =>
      cases hc with
      | cons hb hrest =>
          obtain ⟨cs, fs, rfl, hcs, hfs⟩ := ih hrest
          exact ⟨_, fs, rfl, .cons hb hcs, hfs⟩

theorem InBox.append (hc : InBox ds cs) (hf : InBox es fs) : InBox (ds ++ es) (cs ++ fs) :=
  List.rel_append hc hf

end Append

/-! ## Axes of extent one -/

section Ones

variable {ds cs : List Nat}

/-- Axes of extent one before a box change no index. -/
theorem encode_ones_append (n : Nat) (ds cs : List Nat) :
    encode (List.replicate n 1 ++ ds) (List.replicate n 0 ++ cs) = encode ds cs := by
  induction n with
  | zero => rfl
  | succ n ih =>
      rw [List.replicate_succ, List.replicate_succ, List.cons_append, List.cons_append, encode, ih,
        Nat.zero_mul, Nat.zero_add]

/-- Nor do axes of extent one behind it. -/
theorem encode_append_ones (hlength : ds.length = cs.length) (n : Nat) :
    encode (ds ++ List.replicate n 1) (cs ++ List.replicate n 0) = encode ds cs := by
  induction n with
  | zero => rw [List.replicate_zero, List.replicate_zero, List.append_nil, List.append_nil]
  | succ n ih =>
      have hlengths : (ds ++ List.replicate n 1).length = (cs ++ List.replicate n 0).length := by
        rw [List.length_append, List.length_append, hlength, List.length_replicate,
          List.length_replicate]
      rw [List.replicate_succ', List.replicate_succ', ← List.append_assoc, ← List.append_assoc,
        encode_concat hlengths, ih, Nat.mul_one, Nat.add_zero]

theorem zipWith_mod_ones (l : List Nat) :
    List.zipWith (fun d x => x % d) (List.replicate l.length 1) l = List.replicate l.length 0 := by
  induction l with
  | nil => rfl
  | cons x l ih =>
      rw [List.length_cons, List.replicate_succ, List.zipWith_cons_cons, ih, Nat.mod_one,
        List.replicate_succ]

end Ones

/-! ## Wrapping round -/

section Wrapping

variable {axes : List (Nat × Nat)} {a : Nat × Nat}

/-- In front of everything an axis of extent one can be repeated. -/
theorem blocksWrap_cons_of_one (hone : a.1 = 1) (hcount : 0 < a.2) :
    BlocksWrap (a :: axes) ↔ BlocksWrap axes := by
  have hdvd : (oldDims axes).prod ∣ (newDims axes).prod := by
    rw [prod_newDims]
    exact Nat.dvd_mul_right _ _
  have hstep : ∀ b c, encode (newDims (a :: axes)) (b :: c) % (oldDims (a :: axes)).prod =
      encode (newDims axes) c % (oldDims axes).prod := by
    intro b c
    obtain ⟨m, hm⟩ := hdvd
    rw [newDims_cons, oldDims_cons, encode, List.prod_cons, hone, Nat.one_mul, hm,
      Nat.mul_left_comm, Nat.mul_add_mod]
  have hwrapped : ∀ b c, encode (oldDims (a :: axes)) (wrapped (a :: axes) (b :: c)) =
      encode (oldDims axes) (wrapped axes c) := by
    intro b c
    rw [oldDims_cons, wrapped, List.zipWith_cons_cons, encode, hone, Nat.mod_one, Nat.zero_mul,
      Nat.zero_add, wrapped]
  constructor
  · intro h c hc
    have hfirst : 0 < a.1 * a.2 := by rw [hone, Nat.one_mul]; exact hcount
    rw [← hstep 0 c, ← hwrapped 0 c]
    exact h (0 :: c) (.cons hfirst hc)
  · intro h c hc
    cases hc with
    | cons hb hc => rw [hstep, hwrapped, h _ hc]

/-- Behind a longer axis nothing can be repeated. -/
theorem blocksWrap_cons_of_ne (hpos : ∀ b ∈ a :: axes, 0 < b.1 ∧ 0 < b.2) (hne : a.1 ≠ 1) :
    BlocksWrap (a :: axes) ↔ ∀ b ∈ axes, b.2 = 1 := by
  have ha := hpos a List.mem_cons_self
  have hposTail : ∀ b ∈ axes, 0 < b.1 ∧ 0 < b.2 := fun b hb => hpos b (List.mem_cons_of_mem _ hb)
  constructor
  · intro h
    by_contra hrepeated
    push Not at hrepeated
    -- the first block of the second round is taken for the next one of the first
    have hmore := prod_lt_of_repeated hposTail hrepeated
    have hdims : ∀ d ∈ newDims axes, 0 < d := by
      intro d hd
      obtain ⟨b, hb, rfl⟩ := List.mem_map.mp hd
      exact Nat.mul_pos (hposTail b hb).1 (hposTail b hb).2
    have hbox := inBox_decode hdims hmore
    have hvalue := h (0 :: decode (newDims axes) (oldDims axes).prod)
      (.cons (Nat.mul_pos ha.1 ha.2) hbox)
    have hlt := encode_lt (inBox_wrapped (fun b hb => (hposTail b hb).1)
      (length_of_inBox_newDims hbox))
    have hold : 0 < (oldDims axes).prod := Nat.zero_lt_of_lt hlt
    have hlarge : (oldDims axes).prod < a.1 * (oldDims axes).prod := by
      have : 2 * (oldDims axes).prod ≤ a.1 * (oldDims axes).prod :=
        Nat.mul_le_mul_right _ (by omega)
      omega
    rw [newDims_cons, oldDims_cons, encode, encode_decode hdims hmore, Nat.zero_mul, Nat.zero_add,
      List.prod_cons, Nat.mod_eq_of_lt hlarge, wrapped, List.zipWith_cons_cons, encode,
      Nat.zero_mod, Nat.zero_mul, Nat.zero_add] at hvalue
    exact absurd hvalue (Nat.ne_of_gt hlt)
  · intro hones c hc
    obtain ⟨b, c, rfl⟩ := List.exists_cons_of_length_eq_add_one (length_of_inBox_newDims hc)
    have hbox : InBox (oldDims axes) c := by
      rw [← newDims_of_ones hones]
      exact (List.forall₂_cons.mp hc).2
    rw [newDims_cons, oldDims_cons, newDims_of_ones hones, encode, List.prod_cons,
      mul_add_mod_mul (encode_lt hbox), wrapped, List.zipWith_cons_cons, encode]
    exact congrArg (_ + encode _ ·) (wrapped_of_inBox hbox).symm

/-- Wrapping round repeats a box exactly if its repeated axes have only ones before them. -/
theorem blocksWrap_iff (hpos : ∀ a ∈ axes, 0 < a.1 ∧ 0 < a.2) :
    BlocksWrap axes ↔ FirstRepeated axes := by
  induction axes with
  | nil =>
      refine ⟨fun _ => List.Pairwise.nil, fun _ c hc => ?_⟩
      cases hc
      rfl
  | cons a axes ih =>
      have ih := ih fun b hb => hpos b (List.mem_cons_of_mem _ hb)
      rw [FirstRepeated, List.pairwise_cons]
      by_cases hone : a.1 = 1
      · rw [blocksWrap_cons_of_one hone (hpos a List.mem_cons_self).2, ih]
        exact ⟨fun h => ⟨fun _ _ => Or.inl hone, h⟩, fun h => h.2⟩
      · rw [blocksWrap_cons_of_ne hpos hone]
        constructor
        · intro h
          exact ⟨fun b hb => Or.inr (h b hb),
            List.pairwise_of_forall_mem_list fun _ _ b hb => Or.inr (h b hb)⟩
        · intro h b hb
          exact (h.1 b hb).resolve_left hone

end Wrapping

/-! ## Blocks of the innermost axis -/

section Innermost

variable {outer : List (Nat × Nat)} {inner : Nat × Nat}

/-- The element that is copied to an index of the repeated box: a block of the innermost axis is
copied as often as the axis counts, then the next one. -/
def tileSource (outer : List (Nat × Nat)) (inner : Nat × Nat) (k : Nat) : Nat :=
  k / (inner.1 * inner.2) % (oldDims outer).prod * inner.1 + k % inner.1

theorem inBox_concat_iff {ds cs : List Nat} {d c : Nat} :
    InBox (ds ++ [d]) (cs ++ [c]) ↔ InBox ds cs ∧ c < d := by
  rw [← inBox_reverse_iff, List.reverse_append, List.reverse_append, List.reverse_singleton,
    List.reverse_singleton, InBox, List.singleton_append, List.singleton_append,
    List.forall₂_cons, ← InBox, inBox_reverse_iff, and_comm]

/-- The blocks repeat the box exactly if the outer axes that are repeated have only ones before
them. -/
theorem tiles_iff (hpos : ∀ a ∈ outer, 0 < a.1 ∧ 0 < a.2) (hinner : 0 < inner.1 ∧ 0 < inner.2) :
    (∀ c, InBox (newDims (outer ++ [inner])) c →
      tileSource outer inner (encode (newDims (outer ++ [inner])) c) =
        encode (oldDims (outer ++ [inner])) (wrapped (outer ++ [inner]) c)) ↔
      FirstRepeated outer := by
  have hnew : newDims (outer ++ [inner]) = newDims outer ++ [inner.1 * inner.2] := by
    rw [newDims, List.map_append, newDims, List.map_singleton]
  have hold : oldDims (outer ++ [inner]) = oldDims outer ++ [inner.1] := by
    rw [oldDims, List.map_append, oldDims, List.map_singleton]
  have hblock : 0 < inner.1 * inner.2 := Nat.mul_pos hinner.1 hinner.2
  -- the digits of the innermost axis agree in any case
  have hdigits : ∀ c b, InBox (newDims outer) c → b < inner.1 * inner.2 →
      (tileSource outer inner (encode (newDims (outer ++ [inner])) (c ++ [b])) =
          encode (oldDims (outer ++ [inner])) (wrapped (outer ++ [inner]) (c ++ [b])) ↔
        encode (newDims outer) c % (oldDims outer).prod =
          encode (oldDims outer) (wrapped outer c)) := by
    intro c b hc hb
    have hlength := length_of_inBox_newDims hc
    have hdiv : (encode (newDims outer) c * (inner.1 * inner.2) + b) / (inner.1 * inner.2) =
        encode (newDims outer) c := by
      rw [Nat.add_comm, Nat.add_mul_div_right _ _ hblock, Nat.div_eq_of_lt hb, Nat.zero_add]
    have hmod : (encode (newDims outer) c * (inner.1 * inner.2) + b) % inner.1 = b % inner.1 := by
      rw [Nat.mul_left_comm, Nat.mul_add_mod]
    have hwrapped : wrapped (outer ++ [inner]) (c ++ [b]) = wrapped outer c ++ [b % inner.1] :=
      List.zipWith_append hlength.symm
    have hlengthOld : (oldDims outer).length = (wrapped outer c).length := by
      rw [oldDims, List.length_map, wrapped, List.length_zipWith, hlength, Nat.min_self]
    rw [tileSource, hnew, hold, encode_concat hc.length_eq, hdiv, hmod, hwrapped,
      encode_concat hlengthOld, Nat.add_right_cancel_iff, Nat.mul_right_cancel_iff hinner.1]
  rw [← blocksWrap_iff hpos]
  constructor
  · intro h c hc
    refine (hdigits c 0 hc hblock).mp (h _ ?_)
    rw [hnew]
    exact inBox_concat_iff.mpr ⟨hc, hblock⟩
  · intro h c hc
    obtain rfl | ⟨c, b, rfl⟩ := List.eq_nil_or_concat' c
    · rw [hnew] at hc
      exact absurd hc.length_eq (by simp)
    · rw [hnew] at hc
      obtain ⟨hc, hb⟩ := inBox_concat_iff.mp hc
      exact (hdigits c b hc hb).mpr (h c hc)

end Innermost

/-! ## One axis after the other -/

section OneAxis

variable {done rest : List (Nat × Nat)} {a : Nat × Nat} {cd cr : List Nat} {x : Nat}

/-- The axes in front of an axis that comes next are done, those behind it are as they were. -/
theorem dims_concat (done rest : List (Nat × Nat)) (a : Nat × Nat) :
    newDims (done ++ [a]) ++ oldDims rest = newDims done ++ a.1 * a.2 :: oldDims rest := by
  rw [newDims, List.map_append, List.map_singleton, List.append_assoc, List.singleton_append,
    ← newDims]

/-- Repeating the rows of a matrix repeats an axis: the index of a repeated element as row and
column, and the row that it comes from. -/
theorem encode_rows (hcd : InBox (newDims done) cd) (hx : x < a.1 * a.2)
    (hcr : InBox (oldDims rest) cr) :
    ∃ q < (newDims done).prod * a.2, ∃ e < (oldDims (a :: rest)).prod,
      encode (newDims (done ++ [a]) ++ oldDims rest) (cd ++ x :: cr) =
          q * (oldDims (a :: rest)).prod + e ∧
        encode (newDims done ++ oldDims (a :: rest)) (cd ++ x % a.1 :: cr) =
          q / a.2 * (oldDims (a :: rest)).prod + e := by
  have hextent : 0 < a.1 := Nat.pos_of_mul_pos_right (Nat.zero_lt_of_lt hx)
  have hround : x / a.1 < a.2 := Nat.div_lt_of_lt_mul hx
  have hcount : 0 < a.2 := Nat.zero_lt_of_lt hround
  have hrow := encode_lt hcd
  have hcolumn := encode_lt hcr
  have hrest := Nat.mod_lt x hextent
  refine ⟨encode (newDims done) cd * a.2 + x / a.1, ?_,
    x % a.1 * (oldDims rest).prod + encode (oldDims rest) cr, ?_, ?_, ?_⟩
  · calc encode (newDims done) cd * a.2 + x / a.1
        < encode (newDims done) cd * a.2 + a.2 := Nat.add_lt_add_left hround _
      _ = (encode (newDims done) cd + 1) * a.2 := by ring
      _ ≤ (newDims done).prod * a.2 := Nat.mul_le_mul_right _ hrow
  · calc x % a.1 * (oldDims rest).prod + encode (oldDims rest) cr
        < x % a.1 * (oldDims rest).prod + (oldDims rest).prod := Nat.add_lt_add_left hcolumn _
      _ = (x % a.1 + 1) * (oldDims rest).prod := by ring
      _ ≤ a.1 * (oldDims rest).prod := Nat.mul_le_mul_right _ hrest
      _ = (oldDims (a :: rest)).prod := List.prod_cons.symm
  · rw [dims_concat, encode_append hcd.length_eq, encode, List.prod_cons, oldDims_cons,
      List.prod_cons]
    calc encode (newDims done) cd * (a.1 * a.2 * (oldDims rest).prod) +
          (x * (oldDims rest).prod + encode (oldDims rest) cr)
        = encode (newDims done) cd * (a.1 * a.2 * (oldDims rest).prod) +
          ((a.1 * (x / a.1) + x % a.1) * (oldDims rest).prod + encode (oldDims rest) cr) := by
            rw [Nat.div_add_mod]
      _ = _ := by ring
  · have hquotient : (encode (newDims done) cd * a.2 + x / a.1) / a.2 =
        encode (newDims done) cd := by
      rw [Nat.add_comm, Nat.add_mul_div_right _ _ hcount, Nat.div_eq_of_lt hround, Nat.zero_add]
    rw [hquotient, encode_append hcd.length_eq, oldDims_cons, encode]

/-- Reducing one component before all of them changes nothing. -/
theorem wrapped_mod (hcd : done.length = cd.length) :
    wrapped (done ++ a :: rest) (cd ++ x % a.1 :: cr) =
      wrapped (done ++ a :: rest) (cd ++ x :: cr) := by
  rw [wrapped, wrapped, List.zipWith_append hcd, List.zipWith_append hcd, List.zipWith_cons_cons,
    List.zipWith_cons_cons, Nat.mod_mod]

end OneAxis
end Strided
