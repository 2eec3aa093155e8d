import KernelObjects.Refusal
import KernelObjects.Memory.Page

/-
# Spans

A span is a half-open range of offsets.  A length that runs past the largest word is cut off there,
so both ends of a span fit a word.
-/

namespace KernelObjects

/-- The offsets from `start` up to, not including, `stop`. -/
structure Span where
  start : Nat
  stop : Nat
  deriving DecidableEq, Repr

namespace Span

/-- The span of a length at an offset, cut off at the largest word. -/
def ofLength (offset length : Nat) : Span := ⟨offset, Word.addSat offset length⟩

def length (s : Span) : Nat := s.stop - s.start

/-- Whether no offset lies in the span. -/
def isEmpty (s : Span) : Bool := s.stop ≤ s.start

instance : Membership Nat Span := ⟨fun s x => s.start ≤ x ∧ x < s.stop⟩

instance (x : Nat) (s : Span) : Decidable (x ∈ s) := inferInstanceAs (Decidable (_ ∧ _))

/-- The common part of two spans. -/
def inter (a b : Span) : Span := ⟨max a.start b.start, min a.stop b.stop⟩

/-- The span seen from a window that starts at an offset. -/
def shiftDown (s : Span) (offset : Nat) : Span := ⟨s.start - offset, s.stop - offset⟩

/-- The least span of whole pages around a span, cut off at the largest word. -/
def pageHull (s : Span) : Span := ⟨Page.floor s.start, Page.ceilSat s.stop⟩

theorem mem_iff {x : Nat} {s : Span} : x ∈ s ↔ s.start ≤ x ∧ x < s.stop := Iff.rfl

theorem mem_inter {x : Nat} {a b : Span} : x ∈ a.inter b ↔ x ∈ a ∧ x ∈ b := by
  simp only [mem_iff, inter]; omega

theorem isEmpty_iff {s : Span} : s.isEmpty = true ↔ ∀ x, x ∉ s := by
  simp only [isEmpty, decide_eq_true_eq, mem_iff]
  refine ⟨fun h x => by omega, fun h => ?_⟩
  have := h s.start
  omega

end Span

/-- The pages that a range of an object touches: the first of them and their number.  The range has
to lie inside the object. -/
def Page.covering (objectSize offset length : Nat) : Outcome (Nat × Nat) :=
  match Word.add? offset length with
  | none => .error .outOfRange
  | some stop =>
    if objectSize < stop then .error .outOfRange
    else match Page.ceil? stop with
      | none => .error .outOfRange
      | some last =>
        let first := Page.floor offset / Page.size
        .ok (first, last / Page.size - first)

end KernelObjects
