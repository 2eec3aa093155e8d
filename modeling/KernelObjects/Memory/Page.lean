import KernelObjects.Word
import Std.Data.ExtTreeSet.Lemmas

/-
# Pages

Memory comes in pages of 4096 bytes.  Sizes are rounded up to whole pages and ranges are widened to
the pages that they touch.
-/

namespace KernelObjects.Page

/-- The number of bytes of a page. -/
def size : Nat := 4096

/-- The last page boundary at or before an offset. -/
def floor (offset : Nat) : Nat := offset / size * size

/-- The first page boundary at or after an offset, if it fits a word. -/
def ceil? (offset : Nat) : Option Nat := (Word.add? offset (size - 1)).map floor

/-- The first page boundary at or after an offset, or the largest word if that does not fit. -/
def ceilSat (offset : Nat) : Nat := (ceil? offset).getD Word.max

theorem floor_le (offset : Nat) : floor offset ≤ offset := Nat.div_mul_le_self _ _

theorem le_of_ceil? {offset c : Nat} (h : ceil? offset = some c) : offset ≤ c := by
  unfold ceil? at h
  obtain ⟨v, hv, rfl⟩ := Option.map_eq_some_iff.1 h
  rw [Word.add?_eq_some_iff] at hv
  unfold floor size at *
  omega

theorem ceil?_le {offset c : Nat} (h : ceil? offset = some c) : c ≤ Word.max := by
  unfold ceil? at h
  obtain ⟨v, hv, rfl⟩ := Option.map_eq_some_iff.1 h
  rw [Word.add?_eq_some_iff] at hv
  exact Nat.le_trans (floor_le v) (hv.1 ▸ hv.2)

theorem size_dvd_of_ceil? {offset c : Nat} (h : ceil? offset = some c) : size ∣ c := by
  unfold ceil? at h
  obtain ⟨v, _, rfl⟩ := Option.map_eq_some_iff.1 h
  exact Nat.dvd_mul_left _ _

end KernelObjects.Page

namespace KernelObjects

/-- A set of page numbers. -/
abbrev PageSet := Std.ExtTreeSet Nat

namespace PageSet

/-- The set with `count` pages from `first` on put in. -/
def insertFrom (s : PageSet) (first count : Nat) : PageSet :=
  (List.range' first count).foldl (fun t p => t.insert p) s

/-- The set with `count` pages from `first` on taken out. -/
def eraseFrom (s : PageSet) (first count : Nat) : PageSet :=
  s.filter fun p => ¬ (first ≤ p ∧ p < first + count)

/-- The pages below a bound. -/
def below (s : PageSet) (bound : Nat) : PageSet := s.filter (· < bound)

theorem mem_insertFrom {s : PageSet} {first count p : Nat} :
    p ∈ s.insertFrom first count ↔ p ∈ s ∨ first ≤ p ∧ p < first + count := by
  unfold insertFrom
  induction count generalizing s first with
  | zero =>
    simp only [List.range'_zero, List.foldl_nil, Nat.add_zero]
    exact ⟨Or.inl, fun h => h.resolve_right (by omega)⟩
  | succ n ih =>
    rw [List.range'_succ, List.foldl_cons, ih]
    simp only [Std.ExtTreeSet.mem_insert, Std.LawfulEqCmp.compare_eq_iff_eq]
    by_cases h : p ∈ s
    · simp [h]
    · simp only [h, or_false, false_or]
      omega

theorem mem_eraseFrom {s : PageSet} {first count p : Nat} :
    p ∈ s.eraseFrom first count ↔ p ∈ s ∧ ¬ (first ≤ p ∧ p < first + count) := by
  unfold eraseFrom
  rw [Std.ExtTreeSet.mem_filter]
  simp only [Std.ExtTreeSet.get_eq, decide_eq_true_eq, exists_prop]

theorem mem_below {s : PageSet} {bound p : Nat} : p ∈ s.below bound ↔ p ∈ s ∧ p < bound := by
  unfold below
  rw [Std.ExtTreeSet.mem_filter]
  simp

end PageSet

end KernelObjects
