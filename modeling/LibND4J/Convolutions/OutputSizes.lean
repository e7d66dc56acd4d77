import Mathlib.Tactic.Ring

/-!
# Output sizes and padding

`calcOutHWpool2D` and `_calcPadding2D`, which the operations on images share.  The
quotient of the first in the mode that keeps the size is rounded up; all other divisions are those
of C, which round towards zero.

Main results:

- Theorem `effectiveKernel_eq`: the branches of `_calcPadding2D` agree.
-/

namespace LibND4J
namespace Convolutions

/-- The integer argument at a position. -/
def intArgument (argI : List Int) (i : Nat) : Int :=
  argI.getD i 0

/-- `oH` of `calcOutHWpool2D`. -/
def outputSize (iH kH sH pH dH isSameMode : Int) : Int :=
  if isSameMode > 0 then -(-iH / sH) else (iH - kH - (kH - 1) * (dH - 1) + 2 * pH).tdiv sH + 1

def calcOutHWpool2D (kH kW sH sW pH pW dH dW iH iW isSameMode : Int) : Int × Int :=
  (outputSize iH kH sH pH dH isSameMode, outputSize iW kW sW pW dW isSameMode)

/-- `eKH` of `_calcPadding2D`; `other` is the dilation of the other axis. -/
def effectiveKernel (kH dH other : Int) : Int :=
  if dH = 1 ∧ other = 1 then kH else kH + (kH - 1) * (dH - 1)

/-- `pH` of `_calcPadding2D`. -/
def samePadding (oH inH eKH sH : Int) : Int :=
  ((oH - 1) * sH + eKH - inH).tdiv 2

/-- `_calcPadding2D`. -/
def calcPadding2D (oH oW inH inW kH kW sH sW dH dW : Int) : Int × Int :=
  (samePadding oH inH (effectiveKernel kH dH dW) sH,
    samePadding oW inW (effectiveKernel kW dW dH) sW)

/-- The branches of `_calcPadding2D` agree. -/
theorem effectiveKernel_eq (kH dH other : Int) :
    effectiveKernel kH dH other = (kH - 1) * dH + 1 := by
  rw [effectiveKernel]
  split
  · rename_i hone
    rw [hone.1]
    ring
  · ring

end Convolutions
end LibND4J
