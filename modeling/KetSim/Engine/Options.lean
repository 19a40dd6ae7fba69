/-! # Engine options

Where amplitudes are evolved and how precisely they are kept.
-/
namespace KetSim.Engine

/-- The sequential kernels, or the data-parallel dense ones. -/
inductive Device where
  | cpu | gpu
  deriving DecidableEq, Repr

def Device.text : Device → String
  | cpu => "cpu"
  | gpu => "gpu"

/-- Whether amplitudes are rounded to the narrower format after every gate. -/
inductive Precision where
  | double | single
  deriving DecidableEq, Repr

structure Options where
  device : Device := .cpu
  precision : Precision := .double
  deriving DecidableEq, Repr

end KetSim.Engine
