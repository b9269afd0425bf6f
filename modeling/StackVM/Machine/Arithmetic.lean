/-
  StackVM.Machine.Arithmetic — the operators on two words.

  Integers wrap at 64 bits. Signed division cuts the quotient toward zero and the remainder has the sign
  of the dividend; the one quotient that does not fit wraps. An operator gives nothing exactly when it
  divides by zero, and for floating-point numbers both zeros count.
-/

import StackVM.Binary64
import StackVM.Opcode

namespace StackVM

def IntOp.apply (op : IntOp) (a b : UInt64) : Option UInt64 :=
  match op with
  | .add => some (a + b)
  | .sub => some (a - b)
  | .mul => some (a * b)
  | .divU => if b = 0 then none else some (a / b)
  | .remU => if b = 0 then none else some (a % b)
  | .divS => if b = 0 then none else some (a.toInt64 / b.toInt64).toUInt64
  | .remS => if b = 0 then none else some (a.toInt64 % b.toInt64).toUInt64

def FloatOp.apply (op : FloatOp) (a b : UInt64) : Option UInt64 :=
  match op with
  | .add => some (Binary64.add a b)
  | .sub => some (Binary64.sub a b)
  | .mul => some (Binary64.mul a b)
  | .div => if Binary64.isZero b then none else some (Binary64.div a b)
  | .rem => if Binary64.isZero b then none else some (Binary64.rem a b)

end StackVM
