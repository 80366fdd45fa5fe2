/-! # Powers

Powers of naturals and of integers are the core library's in every module, also in one that imports
an algebra whose monoids have powers of their own.
-/

attribute [instance (high)] instPowNat
attribute [default_instance 20000] instPowNat
