import KernelObjects.Total

/-
# Names of objects

An object's name holds at most 31 bytes of UTF-8.  A longer text is cut back to a character
boundary: the cut starts at byte 31 and moves left until it stands between two characters.  Byte 0
is always such a place, so the cut is found.
-/

namespace KernelObjects

namespace Name

/-- The number of bytes that a name may hold. -/
def maxBytes : Nat := 31

/-- Whether a byte position stands before, between or after whole characters. -/
def isBoundary : List Char → Nat → Bool
  | _, 0 => true
  | [], _ + 1 => false
  | c :: cs, n + 1 => c.utf8Size ≤ n + 1 && isBoundary cs (n + 1 - c.utf8Size)

/-- The last character boundary at or before a byte position. -/
def cut (cs : List Char) : Nat → Nat
  | 0 => 0
  | n + 1 => if isBoundary cs (n + 1) then n + 1 else cut cs n

/-- The number of bytes that the characters take. -/
def bytes (cs : List Char) : Nat := total Char.utf8Size cs

/-- The characters that lie wholly before a byte position. -/
def before : List Char → Nat → List Char
  | [], _ => []
  | c :: cs, n => if c.utf8Size ≤ n then c :: before cs (n - c.utf8Size) else []

/-- What a name keeps of a text. -/
def kept (cs : List Char) : List Char := before cs (cut cs (min (bytes cs) maxBytes))

theorem bytes_before_le (cs : List Char) (n : Nat) : bytes (before cs n) ≤ n := by
  induction cs generalizing n with
  | nil => simp [before, bytes]
  | cons c cs ih =>
    unfold before
    split
    · have := ih (n - c.utf8Size)
      simp only [bytes, total_cons] at this ⊢
      omega
    · simp [bytes]

theorem cut_le (cs : List Char) (n : Nat) : cut cs n ≤ n := by
  induction n with
  | zero => simp [cut]
  | succ n ih => unfold cut; split <;> omega

theorem bytes_kept_le (cs : List Char) : bytes (kept cs) ≤ maxBytes :=
  Nat.le_trans (bytes_before_le _ _)
    (Nat.le_trans (cut_le _ _) (Nat.min_le_right _ _))

end Name

/-- The name of an object. -/
structure Name where
  chars : List Char
  bytes_le : Name.bytes chars ≤ Name.maxBytes

namespace Name

instance : DecidableEq Name := fun a b =>
  decidable_of_iff (a.chars = b.chars) ⟨fun h => by cases a; cases b; cases h; rfl, congrArg _⟩

/-- The name made of a text, cut to fit. -/
def ofString (s : String) : Name := ⟨kept s.toList, bytes_kept_le s.toList⟩

/-- The text of a name. -/
def text (n : Name) : String := String.ofList n.chars

/-- The name of an object that was given none. -/
def blank : Name := ofString ""

instance : Inhabited Name := ⟨blank⟩

end Name

end KernelObjects
