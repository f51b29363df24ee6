import Chip8.Input.Key
import Chip8.Machine.Basic

/-!
# Held keys

A keyboard that reports presses but no releases: a key counts as held for a fixed number of frames
after its last press. Each key counts its own remaining frames, and a tick ages all of them.
-/

set_option autoImplicit false

namespace Chip8

structure HeldKeys where
  hold : Nat
  remaining : Vector Nat 16
  deriving DecidableEq

namespace HeldKeys

/-- A press lasts for one frame at least. -/
def ofHold (hold : Nat) : HeldKeys := ⟨max hold 1, Vector.replicate 16 0⟩

def press (h : HeldKeys) (k : Fin 16) : HeldKeys :=
  { h with remaining := h.remaining.set k h.hold }

def tick (h : HeldKeys) : HeldKeys := { h with remaining := h.remaining.map (· - 1) }

def cells (h : HeldKeys) : Vector UInt8 16 := h.remaining.map fun r => if 0 < r then 1 else 0

end HeldKeys

def Machine.setKeys (m : Machine) (h : HeldKeys) : Machine := { m with keys := h.cells }

end Chip8
