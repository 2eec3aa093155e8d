import KernelObjects.Refusal

/-
# Rights: what a handle allows

A handle carries a set of rights, held as 32 bits.  Bits without a name are kept as they are, so
the sets are all of the 32-bit words and inclusion is inclusion of bits.  Rights only ever shrink:
a duplicate asks either for the same rights or for a subset (`attenuate`).
-/

namespace KernelObjects

/-- A set of rights, one bit each. -/
structure Rights where
  bits : BitVec 32
  deriving DecidableEq, Repr

namespace Rights

/-! ## 1. Sets of bits -/

/-- The set that holds one bit. -/
def bit (i : Nat) : Rights := ⟨BitVec.ofNat 32 (1 <<< i)⟩

/-- Union of sets of rights. -/
def union (a b : Rights) : Rights := ⟨a.bits ||| b.bits⟩

instance : Union Rights := ⟨union⟩

instance : HasSubset Rights := ⟨fun a b => a.bits &&& b.bits = a.bits⟩

instance (a b : Rights) : Decidable (a ⊆ b) := inferInstanceAs (Decidable (_ = _))

theorem subset_iff {a b : Rights} :
    a ⊆ b ↔ ∀ i, i < 32 → a.bits.getLsbD i = true → b.bits.getLsbD i = true := by
  refine ⟨fun h i _ ha => ?_, fun h => ?_⟩
  · have : (a.bits &&& b.bits).getLsbD i = true := by
      rw [show a.bits &&& b.bits = a.bits from h, ha]
    simp_all
  · refine show a.bits &&& b.bits = a.bits from BitVec.eq_of_getLsbD_eq fun i hi => ?_
    have := h i hi
    cases ha : a.bits.getLsbD i <;> simp_all

theorem subset_refl (a : Rights) : a ⊆ a := subset_iff.2 fun _ _ h => h

theorem subset_trans {a b c : Rights} (hab : a ⊆ b) (hbc : b ⊆ c) : a ⊆ c :=
  subset_iff.2 fun i hi h => subset_iff.1 hbc i hi (subset_iff.1 hab i hi h)

/-! ## 2. The named rights -/

def duplicate : Rights := bit 0
def transfer : Rights := bit 1
def read : Rights := bit 2
def write : Rights := bit 3
def execute : Rights := bit 4
def map : Rights := bit 5
def getProperty : Rights := bit 6
def setProperty : Rights := bit 7
def enumerate : Rights := bit 8
def destroy : Rights := bit 9
def setPolicy : Rights := bit 10
def getPolicy : Rights := bit 11
def signal : Rights := bit 12
def signalPeer : Rights := bit 13
def wait : Rights := bit 14
def inspect : Rights := bit 15
def manageJob : Rights := bit 16
def manageProcess : Rights := bit 17
def manageThread : Rights := bit 18
def applyProfile : Rights := bit 19

/-- In a request for a duplicate: keep the rights of the source. -/
def sameRights : Rights := bit 31

/-- The rights that have a name, in the order in which they are listed. -/
def named : List (String × Rights) :=
  [("DUPLICATE", duplicate), ("TRANSFER", transfer), ("READ", read), ("WRITE", write),
    ("EXECUTE", execute), ("MAP", map), ("GET_PROPERTY", getProperty),
    ("SET_PROPERTY", setProperty), ("ENUMERATE", enumerate), ("DESTROY", destroy),
    ("SET_POLICY", setPolicy), ("GET_POLICY", getPolicy), ("SIGNAL", signal),
    ("SIGNAL_PEER", signalPeer), ("WAIT", wait), ("INSPECT", inspect),
    ("MANAGE_JOB", manageJob), ("MANAGE_PROCESS", manageProcess),
    ("MANAGE_THREAD", manageThread), ("APPLY_PROFILE", applyProfile),
    ("SAME_RIGHTS", sameRights)]

/-- Every right that has a name. -/
def all : Rights := named.foldl (fun acc r => acc ∪ r.2) ⟨0⟩

/-- Moving, copying, waiting on and looking at an object. -/
def basic : Rights := transfer ∪ duplicate ∪ wait ∪ inspect

def readWrite : Rights := read ∪ write

def property : Rights := getProperty ∪ setProperty

def policy : Rights := getPolicy ∪ setPolicy

/-! ## 3. Rights of fresh handles -/

/-- The rights of a fresh job handle. -/
def defaultJob : Rights :=
  basic ∪ readWrite ∪ property ∪ policy ∪ enumerate ∪ destroy ∪ signal ∪ manageJob ∪
    manageProcess ∪ manageThread

/-- The rights of a fresh process handle. -/
def defaultProcess : Rights :=
  basic ∪ readWrite ∪ property ∪ enumerate ∪ destroy ∪ signal ∪ manageProcess ∪ manageThread

/-- The rights of a fresh handle to a VM object's view. -/
def defaultView : Rights := basic ∪ readWrite ∪ property ∪ map ∪ signal

/-! ## 4. Checking and shrinking -/

/-- Refuses a holder of `held` that lacks one of the `required` rights. -/
def require (held required : Rights) : Outcome Unit :=
  if required ⊆ held then .ok () else .error .accessDenied

/-- The rights of a duplicate: those of the source if `sameRights` is asked for, else the ones
asked for, which must be among the source's. -/
def attenuate (held requested : Rights) : Outcome Rights :=
  if sameRights ⊆ requested then .ok held
  else if requested ⊆ held then .ok requested
  else .error .invalidArgs

/-! ## 5. Text -/

/-- The bits that have no name. -/
def unnamed (r : Rights) : BitVec 32 := r.bits &&& ~~~ all.bits

/-- A number in lower-case hexadecimal digits after `0x`. -/
def hex (n : Nat) : String := "0x" ++ String.ofList (Nat.toDigits 16 n)

/-- The names of the rights in the set, then the bits without a name as one number; the empty set
is written as the number zero. -/
def text (r : Rights) : String :=
  let names := (named.filter fun n => decide (n.2 ⊆ r)).map Prod.fst
  let rest := if r.unnamed = 0 then [] else [hex r.unnamed.toNat]
  match names ++ rest with
  | [] => hex 0
  | parts => " | ".intercalate parts

end Rights

end KernelObjects
