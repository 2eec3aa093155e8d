import KernelObjects.Config

/-
# Handle values

The value of a handle packs a generation and a slot index into 32 bits: the index takes the low 18
bits, the generation the 14 bits above.  A slot's generation moves on whenever the slot is freed;
after the largest generation it starts again at one, so it is never zero and no value is zero.

Inside a process a handle shows another value: the index bits are mixed with a mask made from the
process's id, so a value that leaks out of one process means nothing in another.
-/

namespace KernelObjects

/-! ## 1. Generations and indexes -/

namespace HandleValue

/-- The number of generations, zero included. -/
def generationCount : Nat := 1 <<< (32 - indexBits)

/-- The value of a generation of a slot. -/
def encode (generation index : Nat) : Nat := generation * indexCount + index

/-- The slot that a value points to. -/
def index (value : Nat) : Nat := value % indexCount

/-- The generation that a value was made in. -/
def generation (value : Nat) : Nat := value / indexCount

/-- The generation after this one; zero is left out. -/
def nextGeneration (generation : Nat) : Nat :=
  let next := (generation + 1) % generationCount
  if next = 0 then 1 else next

theorem index_encode {g i : Nat} (h : i < indexCount) : index (encode g i) = i := by
  unfold index encode
  rw [Nat.mul_comm, Nat.mul_add_mod, Nat.mod_eq_of_lt h]

theorem generation_encode {g i : Nat} (h : i < indexCount) : generation (encode g i) = g := by
  unfold generation encode
  have hp : 0 < indexCount := by decide
  rw [Nat.mul_comm, Nat.mul_add_div hp, Nat.div_eq_of_lt h, Nat.add_zero]

theorem encode_generation_index (v : Nat) : encode (generation v) (index v) = v := by
  unfold encode generation index
  rw [Nat.mul_comm]
  exact Nat.div_add_mod v indexCount

theorem nextGeneration_pos (g : Nat) : 0 < nextGeneration g := by
  unfold nextGeneration
  dsimp only
  split <;> omega

theorem nextGeneration_lt (g : Nat) : nextGeneration g < generationCount := by
  unfold nextGeneration
  dsimp only
  split
  · decide
  · exact Nat.mod_lt _ (by decide)

/-! ## 2. Values inside a process -/

/-- A mixing of 64 bits in which every input bit reaches every output bit. -/
def mix (seed : UInt64) : UInt64 :=
  let z := seed + 0x9e3779b97f4a7c15
  let z := (z ^^^ (z >>> 30)) * 0xbf58476d1ce4e5b9
  let z := (z ^^^ (z >>> 27)) * 0x94d049bb133111eb
  z ^^^ (z >>> 31)

/-- The mask of a process, made of index bits only. -/
def mask (process : Nat) : Nat := (mix (UInt64.ofNat process)).toNat % indexCount

/-- Turns a value into the one that a process sees, and back. -/
def masked (process value : Nat) : Nat := value ^^^ mask process

theorem mask_lt (process : Nat) : mask process < indexCount := Nat.mod_lt _ (by decide)

theorem masked_masked (process value : Nat) : masked process (masked process value) = value := by
  unfold masked
  rw [Nat.xor_assoc, Nat.xor_self, Nat.xor_zero]

end HandleValue

end KernelObjects
