/-! # Powers

The power of a natural number is the one that the compiler computes, also where a
theory of monoids brings another one.
-/

attribute [instance (20000), default_instance (20000)] instPowNat
