/-!
# Powers and sums of natural numbers

Sizes, windows and weights are powers of two and sums of them. They are those of `Nat` itself in
every module, whatever other powers and zeros are known where they are written.
-/

set_option autoImplicit false
set_option relaxedAutoImplicit false

attribute [instance (10000), default_instance (10000)] instPowNat

attribute [instance (10000)] Zero.ofOfNat0
