import KernelObjects.Memory.Span

/-
# Mappings

A mapping shows a window of a VM object in an address space.  Page tables are somebody else's
business: a mapping only writes down which parts of its window were unmapped.
-/

namespace KernelObjects

/-- An address space, as far as mappings need it. -/
structure AddressSpace where
  id : Nat
  isUser : Bool
  deriving DecidableEq, Repr

/-- A window of a VM object in an address space. -/
structure Mapping where
  space : AddressSpace
  /-- The number of the object, as given by the owner of the mapping. -/
  object : Nat
  offset : Nat
  size : Nat
  /-- The parts of the object unmapped so far, oldest first. -/
  unmapped : List Span := []
  deriving DecidableEq, Repr

namespace Mapping

/-- The part of the object that the mapping shows. -/
def window (m : Mapping) : Span := Span.ofLength m.offset m.size

/-- Whether a span of the object meets the window. -/
def meets (m : Mapping) (s : Span) : Bool := !(s.inter m.window).isEmpty

/-- Unmaps a span of the object as far as the mapping shows it. -/
def unmap (m : Mapping) (s : Span) : Mapping :=
  if m.meets s then { m with unmapped := m.unmapped ++ [s.inter m.window] } else m

theorem unmap_of_not_meets {m : Mapping} {s : Span} (h : m.meets s = false) : m.unmap s = m := by
  simp [unmap, h]

theorem mem_inter_window_of_mem {m : Mapping} {s : Span} {x : Nat} (hs : x ∈ s)
    (hw : x ∈ m.window) : m.meets s = true := by
  unfold meets
  cases h : (s.inter m.window).isEmpty
  · rfl
  · exact absurd (Span.mem_inter.2 ⟨hs, hw⟩) (Span.isEmpty_iff.1 h x)

end Mapping

end KernelObjects
