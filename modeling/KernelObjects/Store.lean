import Std.Data.ExtTreeMap.Lemmas

/-
# Stores: records under numbers

A store maps numbers to records.  Two stores that answer every look-up alike are equal, so a law of
an operation is its look-up law, and what an operation leaves alone it leaves equal.
-/

namespace KernelObjects

/-- Records under numbers, listed in ascending order of the numbers. -/
abbrev Store (α : Type) := Std.ExtTreeMap Nat α

namespace Store

variable {α : Type}

@[ext] theorem ext {s t : Store α} (h : ∀ k : Nat, s[k]? = t[k]?) : s = t :=
  Std.ExtTreeMap.ext_getElem? h

@[simp] theorem getElem?_empty (a : Nat) : (∅ : Store α)[a]? = none :=
  Std.ExtTreeMap.getElem?_empty

theorem getElem?_insert (s : Store α) (k a : Nat) (v : α) :
    (s.insert k v)[a]? = if k = a then some v else s[a]? := by
  simp [Std.ExtTreeMap.getElem?_insert]

theorem getElem?_erase (s : Store α) (k a : Nat) :
    (s.erase k)[a]? = if k = a then none else s[a]? := by
  simp [Std.ExtTreeMap.getElem?_erase]

theorem getElem?_modify (s : Store α) (k a : Nat) (f : α → α) :
    (s.modify k f)[a]? = if k = a then s[a]?.map f else s[a]? := by
  rw [Std.ExtTreeMap.getElem?_modify]
  by_cases h : k = a
  · subst h; simp
  · simp [h]

theorem mem_keys_iff {s : Store α} {k : Nat} : k ∈ s.keys ↔ s[k]?.isSome := by
  rw [Std.ExtTreeMap.mem_keys, Std.ExtTreeMap.mem_iff_isSome_getElem?]

theorem keys_ascending (s : Store α) : s.keys.Pairwise (· < ·) :=
  Std.ExtTreeMap.ordered_keys.imp Nat.compare_eq_lt.1

theorem contains_iff {s : Store α} {k : Nat} : s.contains k = true ↔ ∃ v, s[k]? = some v := by
  rw [← Std.ExtTreeMap.mem_iff_contains, Std.ExtTreeMap.mem_iff_isSome_getElem?,
    Option.isSome_iff_exists]

theorem contains_eq_isSome (s : Store α) (k : Nat) : s.contains k = s[k]?.isSome := by
  rw [Bool.eq_iff_iff, contains_iff, Option.isSome_iff_exists]

theorem contains_eq_false_iff {s : Store α} {k : Nat} : s.contains k = false ↔ s[k]? = none := by
  rw [contains_eq_isSome, Option.isSome_eq_false_iff, Option.isNone_iff_eq_none]

/-- Changing a record that is not there changes nothing. -/
theorem modify_of_none {s : Store α} {k : Nat} (h : s[k]? = none) (f : α → α) :
    s.modify k f = s := by
  ext1 a
  rw [getElem?_modify]
  split
  · subst_vars; simp [h]
  · rfl

theorem modify_id {s : Store α} {k : Nat} {f : α → α} (h : ∀ v, s[k]? = some v → f v = v) :
    s.modify k f = s := by
  ext1 a
  rw [getElem?_modify]
  split
  · subst_vars
    cases hv : s[a]? with
    | none => rfl
    | some v => simp [h v hv]
  · rfl

/-- Changing a record that was just entered enters the changed one. -/
theorem modify_insert_self (s : Store α) (k : Nat) (v : α) (f : α → α) :
    (s.insert k v).modify k f = s.insert k (f v) := by
  ext1 a
  rw [getElem?_modify, getElem?_insert, getElem?_insert]
  split <;> rfl

/-- Erasing a record that is not there changes nothing. -/
theorem erase_of_none {s : Store α} {k : Nat} (h : s[k]? = none) : s.erase k = s := by
  ext1 a
  rw [getElem?_erase]
  split
  · subst_vars; exact h.symm
  · rfl

/-- An entry that was just made can be taken out again. -/
theorem erase_insert_of_none {s : Store α} {k : Nat} (h : s[k]? = none) (v : α) :
    (s.insert k v).erase k = s := by
  ext1 a
  rw [getElem?_erase, getElem?_insert]
  split
  · rename_i hk
    rw [← hk, h]
  · rfl

/-- Erasing a record that is there makes the store smaller. -/
theorem size_erase_lt {s : Store α} {k : Nat} {v : α} (h : s[k]? = some v) :
    (s.erase k).size < s.size := by
  have hc : k ∈ s := by
    rw [Std.ExtTreeMap.mem_iff_isSome_getElem?, h]; rfl
  have h0 : 0 < s.size := by
    rcases Nat.eq_zero_or_pos s.size with h0 | h0
    · rw [← Std.ExtTreeMap.eq_empty_iff_size_eq_zero] at h0
      subst h0; simp at h
    · exact h0
  rw [Std.ExtTreeMap.size_erase, if_pos (Std.ExtTreeMap.mem_iff_contains.1 hc)]
  omega

end Store

end KernelObjects
