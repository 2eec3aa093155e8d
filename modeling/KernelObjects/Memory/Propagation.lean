import KernelObjects.Memory.Member
import KernelObjects.Total

/-
# Propagation of a change to clones

When a span of a VM object loses its pages, its clones lose the part of the span that lies in their
windows, seen from the start of the window, and so on down the family.  The objects to look at
stand on a stack: the top one is visited and its clones take its place, the last recorded clone on
top.

**Why this ends.**  A step into a clone whose window starts past the parent's start lowers the end
of the span.  Windows that start at zero keep the end, and a row of such steps longer than the
family has members would visit one member twice with one span, which no family made by cloning
allows.  So each entry of the stack carries the number of steps that may still keep its end
(`slack`), and the pair of end and slack drops in the lexicographic order at every step.

**Where slack runs out.**  A client that holds the lock of a family may also enter members in lists
of clones by hand, and so make a way that leads from a member back to itself.  There the loop that
is described here goes round for ever, with the lock held, and the call that runs it never returns.
The entries of the stack run out of slack instead, and `affected` lists what it has come by; its
answer then stands for nothing that happens.  When the loop ends, and that `affected` is right
whenever it does, is the subject of `Proofs/Worklist`.
-/

namespace KernelObjects

/-- A member of a family and the span of it that is affected. -/
structure Reach where
  vmo : VmoId
  span : Span
  /-- How many more steps may keep the end of the span. -/
  slack : Nat
  deriving DecidableEq, Repr

namespace Family

/-- What a span of a member means for one of its recorded clones.  A clone is passed over for want
of slack only on the way round in lists of clones that were written by hand, where the loop has no
end. -/
def reachClone (f : Family) (r : Reach) (clone : VmoId) : Option Reach :=
  match f[clone]? with
  | none => none
  | some c =>
    let part := r.span.inter c.window
    if part.isEmpty then none
    else
      let moved := part.shiftDown c.parentOffset
      if moved.stop < r.span.stop then some ⟨clone, moved, f.size⟩
      else match r.slack with
        | 0 => none
        | n + 1 => some ⟨clone, moved, n⟩

/-- What a span of a member means for its clones, in the order in which these are recorded. -/
def reachClones (f : Family) (r : Reach) : List Reach :=
  match f[r.vmo]? with
  | none => []
  | some m => m.clones.filterMap (f.reachClone r)

theorem reachClone_lt {f : Family} {r s : Reach} {c : VmoId} (h : f.reachClone r c = some s) :
    s.span.stop < r.span.stop ∨ s.span.stop = r.span.stop ∧ s.slack < r.slack := by
  unfold reachClone at h
  split at h
  · cases h
  · rename_i m _
    dsimp only at h
    split at h
    · cases h
    · split at h
      · cases h; left; assumption
      · have hle : ((r.span.inter m.window).shiftDown m.parentOffset).stop ≤ r.span.stop := by
          simp only [Span.shiftDown, Span.inter]; omega
        split at h
        · cases h
        · rename_i hn n hs
          cases h
          right
          simp only at hle hn ⊢
          omega

theorem reachClones_lt {f : Family} {r s : Reach} (h : s ∈ f.reachClones r) :
    s.span.stop < r.span.stop ∨ s.span.stop = r.span.stop ∧ s.slack < r.slack := by
  unfold reachClones at h
  split at h
  · simp at h
  · obtain ⟨c, _, hc⟩ := List.mem_filterMap.1 h
    exact reachClone_lt hc

/-- The number of visits that an entry of the stack stands for. -/
def visits (f : Family) (r : Reach) : Nat :=
  1 + total (fun s => f.visits s.1) (f.reachClones r).attach
termination_by (r.span.stop, r.slack)
decreasing_by
  have := reachClones_lt s.2
  rcases this with h | ⟨h, h'⟩
  · exact Prod.Lex.left _ _ h
  · rw [Prod.lex_def]; exact Or.inr ⟨h, h'⟩

/-- Visits the entries of the stack and everything below them, top first. -/
def sweep (f : Family) : List Reach → List Reach
  | [] => []
  | r :: rest => r :: f.sweep ((f.reachClones r).reverse ++ rest)
termination_by stack => total f.visits stack
decreasing_by
  have h : total f.visits (f.reachClones r) < f.visits r := by
    rw [visits, total_attach]
    omega
  rw [total_append, total_reverse, total_cons]
  omega

/-- The members that a change of a span reaches, each with the span of it that is affected, in the
order in which they are visited. -/
def affected (f : Family) (vmo : VmoId) (span : Span) : List Reach :=
  f.sweep [⟨vmo, span, f.size⟩]

end Family

end KernelObjects
