import KernelObjects.Store

/-
# References and their counts

Objects, handles, VM objects, mappings and listeners live as long as somebody refers to them.  The
counts of all of them stand in one table apart from the records, so taking or giving back a
reference touches no record.  A thing that nobody refers to has no entry.
-/

namespace KernelObjects

/-- The identity of an object, never used twice. -/
abbrev Koid := Nat

/-- The identity of a handle, never used twice (unlike its value). -/
abbrev HandleId := Nat

/-- The identity of a VM object. -/
abbrev VmoId := Nat

/-- The identity of a mapping. -/
abbrev MappingId := Nat

/-- The identity of a listener to the clones of a VM object. -/
abbrev ListenerId := Nat

/-- A reference that keeps something alive. -/
inductive Ref where
  | object (koid : Koid)
  | handle (id : HandleId)
  | vmo (id : VmoId)
  | mapping (id : MappingId)
  | listener (id : ListenerId)
  deriving DecidableEq, Repr

namespace Ref

/-- References as numbers, one residue for each kind. -/
def code : Ref → Nat
  | object k => 5 * k
  | handle h => 5 * h + 1
  | vmo v => 5 * v + 2
  | mapping m => 5 * m + 3
  | listener o => 5 * o + 4

theorem code_inj {a b : Ref} (h : a.code = b.code) : a = b := by
  cases a <;> cases b <;> simp only [code] at h <;> first | omega | skip
  all_goals exact congrArg _ (show (_ : Nat) = _ by omega)

instance : Ord Ref := ⟨compareOn code⟩

instance : Std.TransOrd Ref := inferInstanceAs (Std.TransCmp (compareOn code))

instance : Std.LawfulEqOrd Ref where
  eq_of_compare {a b} h :=
    code_inj (Std.LawfulEqCmp.eq_of_compare (show compare a.code b.code = .eq from h))
  compare_self {a} :=
    show compare a.code a.code = .eq from Std.ReflCmp.compare_self

end Ref

/-- How many references there are to each thing; what has none has no entry. -/
abbrev RefCounts := Std.ExtTreeMap Ref Nat

namespace RefCounts

/-- The number of references to a thing. -/
def count (rc : RefCounts) (r : Ref) : Nat := rc[r]?.getD 0

/-- One more reference. -/
def retain (rc : RefCounts) (r : Ref) : RefCounts := rc.insert r (rc.count r + 1)

/-- One reference less; the entry goes with the last one. -/
def release (rc : RefCounts) (r : Ref) : RefCounts :=
  if rc.count r ≤ 1 then rc.erase r else rc.insert r (rc.count r - 1)

theorem count_retain (rc : RefCounts) (r q : Ref) :
    (rc.retain r).count q = if r = q then rc.count q + 1 else rc.count q := by
  unfold retain count
  rw [Std.ExtTreeMap.getElem?_insert]
  by_cases h : r = q
  · subst h; simp
  · simp [h]

theorem count_release (rc : RefCounts) (r q : Ref) :
    (rc.release r).count q = if r = q then rc.count q - 1 else rc.count q := by
  unfold release count
  by_cases h : r = q
  · subst h
    split
    · rename_i h1
      simp only [Std.ExtTreeMap.getElem?_erase_self, Option.getD_none, if_true]
      omega
    · simp
  · split
    · simp [Std.ExtTreeMap.getElem?_erase, h]
    · simp [Std.ExtTreeMap.getElem?_insert, h]

/-- Giving back the last reference removes an entry. -/
theorem size_release_lt {rc : RefCounts} {r : Ref} (h : rc.count r = 1) :
    (rc.release r).size < rc.size := by
  have hm : r ∈ rc := by
    rw [Std.ExtTreeMap.mem_iff_isSome_getElem?]
    cases hc : rc[r]? with
    | none => simp [count, hc] at h
    | some v => rfl
  have h0 : 0 < rc.size := by
    rcases Nat.eq_zero_or_pos rc.size with h0 | h0
    · rw [← Std.ExtTreeMap.eq_empty_iff_size_eq_zero] at h0
      subst h0; simp at hm
    · exact h0
  unfold release
  rw [if_pos (by omega), Std.ExtTreeMap.size_erase, if_pos (Std.ExtTreeMap.mem_iff_contains.1 hm)]
  omega

/-- Giving back a reference that is not the last one keeps every entry. -/
theorem size_release_of_lt {rc : RefCounts} {r : Ref} (h : 1 < rc.count r) :
    (rc.release r).size = rc.size := by
  have hm : r ∈ rc := by
    rw [Std.ExtTreeMap.mem_iff_isSome_getElem?]
    cases hc : rc[r]? with
    | none => simp [count, hc] at h
    | some v => rfl
  unfold release
  rw [if_neg (by omega), Std.ExtTreeMap.size_insert, if_pos (Std.ExtTreeMap.mem_iff_contains.1 hm)]

end RefCounts

end KernelObjects
