import Mathlib.Data.List.Basic

/-!
# The conditions of a declarable operation

`REQUIRE_TRUE` leaves an operation with a validation status, after `conditionHelper`
printed its message.  The conditions at the head of an operation are checked one after the other.

Main results:

- Theorem `requireAll_eq_ok_iff`: an operation goes on exactly if all conditions hold.
-/

namespace LibND4J
namespace Ops

/-- A condition of an operation, with the text that is printed if it fails. -/
structure Condition where
  holds : Bool
  message : String
deriving DecidableEq, Repr

/-- `REQUIRE_TRUE`. -/
def requireTrue (c : Condition) : Except String Unit :=
  if c.holds then .ok () else .error c.message

/-- Conditions one after the other. -/
def requireAll : List Condition → Except String Unit
  | [] => .ok ()
  | c :: cs => requireTrue c >>= fun _ => requireAll cs

@[simp]
theorem requireAll_nil : requireAll [] = .ok () :=
  rfl

theorem requireAll_cons_of_holds {c : Condition} (h : c.holds = true) (cs : List Condition) :
    requireAll (c :: cs) = requireAll cs := by
  rw [requireAll, requireTrue, if_pos h]
  rfl

theorem requireAll_cons_of_fails {c : Condition} (h : c.holds = false) (cs : List Condition) :
    requireAll (c :: cs) = .error c.message := by
  rw [requireAll, requireTrue, h]
  rfl

/-- An operation goes on exactly if all conditions hold. -/
theorem requireAll_eq_ok_iff {cs : List Condition} :
    requireAll cs = .ok () ↔ ∀ c ∈ cs, c.holds = true := by
  induction cs with
  | nil => simp
  | cons c cs ih =>
      rw [List.forall_mem_cons]
      cases h : c.holds with
      | true => rw [requireAll_cons_of_holds h, ih, eq_self_iff_true, true_and]
      | false => simp [requireAll_cons_of_fails h]

end Ops
end LibND4J
