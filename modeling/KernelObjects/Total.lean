/-
# Totals

A quantity added up over a list.  Measures that a walk or a queue of work lowers are totals.
-/

namespace KernelObjects

variable {α : Type}

/-- The sum of a quantity over a list. -/
def total (f : α → Nat) : List α → Nat
  | [] => 0
  | a :: as => f a + total f as

@[simp] theorem total_nil (f : α → Nat) : total f [] = 0 := rfl

@[simp] theorem total_cons (f : α → Nat) (a : α) (as : List α) :
    total f (a :: as) = f a + total f as := rfl

@[simp] theorem total_append (f : α → Nat) (as bs : List α) :
    total f (as ++ bs) = total f as + total f bs := by
  induction as with
  | nil => simp
  | cons a as ih => simp [ih, Nat.add_assoc]

@[simp] theorem total_reverse (f : α → Nat) (as : List α) : total f as.reverse = total f as := by
  induction as with
  | nil => rfl
  | cons a as ih => simp [ih, Nat.add_comm]

@[simp] theorem total_map {β : Type} (f : β → Nat) (g : α → β) (as : List α) :
    total f (as.map g) = total (fun a => f (g a)) as := by
  induction as with
  | nil => rfl
  | cons a as ih => simp [ih]

theorem total_congr {f g : α → Nat} {as : List α} (h : ∀ a ∈ as, f a = g a) :
    total f as = total g as := by
  induction as with
  | nil => rfl
  | cons a as ih =>
    rw [total_cons, total_cons, h a List.mem_cons_self, ih fun b hb => h b (.tail a hb)]

theorem total_eq_zero_iff {f : α → Nat} {as : List α} : total f as = 0 ↔ ∀ a ∈ as, f a = 0 := by
  induction as with
  | nil => simp
  | cons a as ih => rw [total_cons, Nat.add_eq_zero_iff, ih, List.forall_mem_cons]

theorem le_total_of_mem {f : α → Nat} {a : α} {as : List α} (h : a ∈ as) : f a ≤ total f as := by
  induction h with
  | head as => exact Nat.le_add_right _ _
  | tail b _ ih => exact Nat.le_trans ih (Nat.le_add_left _ _)

theorem total_perm {f : α → Nat} {as bs : List α} (h : as.Perm bs) : total f as = total f bs := by
  induction h with
  | nil => rfl
  | cons a _ ih => rw [total_cons, total_cons, ih]
  | swap a b as => simp only [total_cons]; omega
  | trans _ _ ih ih' => exact ih.trans ih'

theorem total_attach (f : α → Nat) (as : List α) :
    total (fun a : { x // x ∈ as } => f a.1) as.attach = total f as := by
  rw [← total_map f Subtype.val, List.attach_map_subtype_val]

end KernelObjects
