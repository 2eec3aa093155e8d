/-
# Machine words

Offsets, sizes and counters are natural numbers that have to fit a 64-bit word.  Sums come in the
three forms that the kernel uses: refused when they do not fit, cut off at the largest word, or
taken modulo the word size.
-/

namespace KernelObjects.Word

/-- The largest word. -/
def max : Nat := UInt64.size - 1

/-- The sum, if it fits a word. -/
def add? (a b : Nat) : Option Nat := if a + b ≤ max then some (a + b) else none

/-- The sum, or the largest word if the sum does not fit. -/
def addSat (a b : Nat) : Nat := min (a + b) max

/-- The sum modulo the word size. -/
def addWrap (a b : Nat) : Nat := (a + b) % (max + 1)

theorem add?_eq_some_iff {a b c : Nat} : add? a b = some c ↔ c = a + b ∧ a + b ≤ max := by
  unfold add?; split <;> simp_all [eq_comm]

theorem addSat_le (a b : Nat) : addSat a b ≤ max := Nat.min_le_right _ _

theorem addSat_of_le {a b : Nat} (h : a + b ≤ max) : addSat a b = a + b := Nat.min_eq_left h

end KernelObjects.Word
