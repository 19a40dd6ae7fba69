import KetSim.Demo.Program

/-! # Entry point

The demo program with its arguments, one variable of the environment, and a
seed for runs without one.
-/

def main (args : List String) : IO UInt32 := do
  let device ← IO.getEnv "QUBRIDGE_DEVICE"
  let high ← IO.rand 0 (2 ^ 32 - 1)
  let low ← IO.rand 0 (2 ^ 32 - 1)
  let start ← IO.monoMsNow
  let occasion : KetSim.Occasion :=
    ⟨0, (high * 2 ^ 32 + low).toUInt64, start, ⟨"demo"⟩, ⟨1970, 1, 1, 0, 0, 0, 0⟩⟩
  let output := KetSim.Demo.run args device occasion
  IO.print output.stdout
  IO.eprint output.stderr
  return output.code
