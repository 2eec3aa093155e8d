import KernelObjects.Script.Objects
import KernelObjects.Proofs.Operations

/-
# What a name keeps of a text

A name holds at most 31 bytes, so a longer text is cut.  The cut looks at bytes: it starts at byte
31, or at the end of a shorter text, and moves left byte by byte until it stands where a character
starts.  What it keeps is said in characters: it is the longest prefix of the text that fits.  The
bridge between the two is that the boundaries of a text are exactly the sizes of its prefixes.

From that everything else follows.  The whole text is a prefix of itself, so a text that fits is
kept whole.  If a character is cut away, then it did not fit, and a character has at most four
bytes, so at least 28 bytes stay.  And what a name holds fits, so it is kept whole when it is put
into another name.

The question that the cut asks of a byte is whether its two highest bits mark it as one in the
midst of a character.  That this finds just the places between two characters is a fact about the
encoding, which is taken from the library of strings; the rest is about lists of characters and
their sizes.
-/

namespace KernelObjects

namespace Name

/-! ## 1. Boundaries

A boundary is a place where a character starts, or the end.  In a byte string that is text, the
places between have a byte that can only continue a character. -/

/-- The bytes that a list of characters takes are those of its string. -/
theorem bytes_eq_utf8ByteSize (cs : List Char) : bytes cs = (String.ofList cs).utf8ByteSize := by
  induction cs with
  | nil => rfl
  | cons c cs ih =>
    rw [← List.singleton_append, String.ofList_append, String.utf8ByteSize_append, ← ih,
      ← String.singleton_eq_ofList, String.utf8ByteSize_singleton]
    rfl

theorem bytes_append (cs ds : List Char) : bytes (cs ++ ds) = bytes cs + bytes ds :=
  total_append _ cs ds

/-- The boundaries of a text are the sizes of its prefixes. -/
theorem isBoundary_iff {cs : List Char} {n : Nat} :
    isBoundary cs n = true ↔ ∃ p, p <+: cs ∧ bytes p = n := by
  induction cs generalizing n with
  | nil => cases n <;> simp [isBoundary, bytes]
  | cons c cs ih =>
    cases n with
    | zero => simpa [isBoundary] using ⟨[], List.nil_prefix, rfl⟩
    | succ n =>
      have hc := c.utf8Size_pos
      simp only [isBoundary, Bool.and_eq_true, decide_eq_true_eq, ih]
      constructor
      · rintro ⟨hle, p, hp, hn⟩
        refine ⟨c :: p, List.prefix_cons_inj c |>.mpr hp, ?_⟩
        simp only [bytes, total_cons] at hn ⊢
        omega
      · rintro ⟨p, hp, hn⟩
        cases p with
        | nil => simp [bytes] at hn
        | cons d p =>
          obtain ⟨rfl, htail⟩ := List.cons_prefix_cons.mp hp
          simp only [bytes, total_cons] at hn
          exact ⟨by omega, p, htail, by simp only [bytes]; omega⟩

/-- Whether a character starts at a byte position of a text, or the text ends there: the question
that the cut asks of the bytes. -/
def Stands (s : String) (n : Nat) : Prop :=
  n = s.utf8ByteSize ∨
    ∃ h : (⟨n⟩ : String.Pos.Raw) < s.rawEndPos, (s.getUTF8Byte ⟨n⟩ h).IsUTF8FirstByte

/-- The test that looks at the bytes finds the places between two characters: a byte in the midst of
a character is marked as one by its two highest bits. -/
theorem isBoundary_iff_stands {s : String} {n : Nat} :
    isBoundary s.toList n = true ↔ Stands s n := by
  have hsizes : (∃ p, p <+: s.toList ∧ bytes p = n) ↔
      ∃ i, n = (String.ofList (s.toList.take i)).utf8ByteSize := by
    simp only [← bytes_eq_utf8ByteSize]
    constructor
    · rintro ⟨p, hp, hn⟩
      exact ⟨p.length, by rw [← List.prefix_iff_eq_take.mp hp, hn]⟩
    · rintro ⟨i, hn⟩
      exact ⟨s.toList.take i, List.take_prefix i _, hn.symm⟩
  have hraw : (⟨n⟩ : String.Pos.Raw) = s.rawEndPos ↔ n = s.utf8ByteSize := by
    rw [String.Pos.Raw.ext_iff, String.byteIdx_rawEndPos]
  rw [isBoundary_iff, hsizes, Stands, ← hraw]
  exact (String.Pos.Raw.isValid_iff_exists_take_toList (p := ⟨n⟩)).symm.trans
    String.Pos.Raw.isValid_iff_isUTF8FirstByte

/-! ## 2. The way of the cut

The loop goes left over such bytes and stops at the first boundary. -/

/-- The way of the cut through a text, from a byte position to where it comes to rest.  It rests
where it stands well and otherwise moves left by one byte; from byte 0 there is no way left. -/
inductive Retreat (s : String) : Nat → Nat → Prop
  | rest {n : Nat} (h : Stands s n) : Retreat s n n
  | back {n e : Nat} (h : ¬ Stands s (n + 1)) (he : Retreat s n e) : Retreat s (n + 1) e

theorem stands_zero (s : String) : Stands s 0 := by
  rw [← isBoundary_iff_stands, isBoundary]

/-- From every byte position the cut comes to rest, at one place only. -/
theorem retreat_iff {s : String} {n e : Nat} : Retreat s n e ↔ e = cut s.toList n := by
  induction n with
  | zero =>
    constructor
    · rintro ⟨⟩; rfl
    · rintro rfl; exact .rest (stands_zero s)
  | succ n ih =>
    rw [cut]
    constructor
    · intro h
      cases h with
      | rest h => rw [if_pos (isBoundary_iff_stands.mpr h)]
      | back h he => rw [if_neg (mt isBoundary_iff_stands.mp h), ih.mp he]
    · intro h
      split at h
      · subst h
        exact .rest (isBoundary_iff_stands.mp ‹_›)
      · exact .back (mt isBoundary_iff_stands.mpr ‹_›) (ih.mpr h)

/-- The step back ends at a boundary: at the latest at zero, which is one. -/
theorem isBoundary_cut (cs : List Char) (n : Nat) : isBoundary cs (cut cs n) = true := by
  induction n with
  | zero => rw [cut, isBoundary]
  | succ n ih =>
    rw [cut]
    split
    · assumption
    · exact ih

/-- The cut passes no boundary. -/
theorem le_cut {cs : List Char} {m n : Nat} (h : isBoundary cs m = true) (hmn : m ≤ n) :
    m ≤ cut cs n := by
  induction n with
  | zero => omega
  | succ n ih =>
    rw [cut]
    split
    · exact hmn
    · next hn =>
      have : m ≠ n + 1 := fun heq => hn (heq ▸ h)
      exact ih (by omega)

/-! ## 3. What stands before the cut

The boundary that it stops at, said in characters: the longest prefix that fits. -/

/-- What lies before a place is a prefix. -/
theorem before_isPrefix (cs : List Char) (n : Nat) : before cs n <+: cs := by
  induction cs generalizing n with
  | nil => exact List.nil_prefix
  | cons c cs ih =>
    rw [before]
    split
    · exact List.prefix_cons_inj c |>.mpr (ih _)
    · exact List.nil_prefix

/-- It is the longest one that ends there or earlier. -/
theorem prefix_before {p cs : List Char} {n : Nat} (h : p <+: cs) (hn : bytes p ≤ n) :
    p <+: before cs n := by
  induction p generalizing cs n with
  | nil => exact List.nil_prefix
  | cons c p ih =>
    obtain ⟨t, rfl⟩ := h
    simp only [bytes, total_cons] at hn
    rw [List.cons_append, before, if_pos (by omega)]
    exact List.prefix_cons_inj c |>.mpr
      (ih (List.prefix_append p t) (by simp only [bytes]; omega))

theorem bytes_le_bytes {p cs : List Char} (h : p <+: cs) : bytes p ≤ bytes cs := by
  obtain ⟨t, rfl⟩ := h
  rw [bytes_append]
  exact Nat.le_add_right _ _

/-- Before a boundary there are as many bytes as its position says. -/
theorem bytes_before {cs : List Char} {n : Nat} (h : isBoundary cs n = true) :
    bytes (before cs n) = n := by
  obtain ⟨p, hp, rfl⟩ := isBoundary_iff.mp h
  exact Nat.le_antisymm (bytes_before_le _ _)
    (bytes_le_bytes (prefix_before hp (Nat.le_refl _)))

theorem kept_isPrefix (cs : List Char) : kept cs <+: cs := before_isPrefix _ _

/-- Every prefix that fits is kept. -/
theorem prefix_kept {p cs : List Char} (h : p <+: cs) (hp : bytes p ≤ maxBytes) :
    p <+: kept cs :=
  prefix_before h (le_cut (isBoundary_iff.mpr ⟨p, h, rfl⟩)
    (Nat.le_min.mpr ⟨bytes_le_bytes h, hp⟩))

/-- All is kept if and only if all fits. -/
theorem kept_eq_iff {cs : List Char} : kept cs = cs ↔ bytes cs ≤ maxBytes := by
  constructor
  · intro h
    rw [← h]
    exact bytes_kept_le cs
  · intro h
    have hall := prefix_kept (List.prefix_refl cs) h
    exact (kept_isPrefix cs).eq_of_length
      (Nat.le_antisymm (kept_isPrefix cs).length_le hall.length_le)

/-- If something is cut away, less than one character's room is left. -/
theorem le_bytes_kept {cs : List Char} (h : maxBytes < bytes cs) :
    maxBytes - 3 ≤ bytes (kept cs) := by
  obtain ⟨t, ht⟩ := kept_isPrefix cs
  cases t with
  | nil =>
    rw [List.append_nil] at ht
    have := kept_eq_iff.mp ht
    omega
  | cons c t =>
    have hnext : kept cs ++ [c] <+: cs := ⟨t, by simpa using ht⟩
    -- with the next character it would not fit, or it would have been kept as well
    have hbig : maxBytes < bytes (kept cs ++ [c]) := by
      refine Nat.lt_of_not_le fun hfit => ?_
      have := (prefix_kept hnext hfit).length_le
      rw [List.length_append, List.length_singleton] at this
      omega
    have hc := c.utf8Size_le_four
    rw [bytes_append] at hbig
    simp only [bytes, total_cons, total_nil] at hbig ⊢
    omega

/-! ## 4. Texts of names

A name has room for so many bytes, and what was cut once is not cut again. -/

@[simp] theorem toList_text (n : Name) : n.text.toList = n.chars := String.toList_ofList

theorem utf8ByteSize_text (n : Name) : n.text.utf8ByteSize = bytes n.chars :=
  (bytes_eq_utf8ByteSize n.chars).symm

theorem bytes_toList (s : String) : bytes s.toList = s.utf8ByteSize := by
  rw [bytes_eq_utf8ByteSize, String.ofList_toList]

/-- A name that is made of the text of a name is that name. -/
@[simp] theorem ofString_text (n : Name) : ofString n.text = n := by
  obtain ⟨cs, hcs⟩ := n
  have : kept cs = cs := kept_eq_iff.mpr hcs
  simp [ofString, text, this]

/-- A name says the whole text if and only if the text fits. -/
theorem text_ofString_eq_iff {s : String} :
    (ofString s).text = s ↔ s.utf8ByteSize ≤ maxBytes := by
  rw [← bytes_toList, ← kept_eq_iff, ← String.toList_inj, toList_text]
  rfl

/-- A name holds the bytes of the text up to where the cut comes to rest. -/
theorem toByteArray_text_ofString (s : String) :
    (ofString s).text.toByteArray =
      s.toByteArray.extract 0 (cut s.toList (min s.utf8ByteSize maxBytes)) := by
  obtain ⟨t, ht⟩ := kept_isPrefix s.toList
  have hs : s = (ofString s).text ++ String.ofList t := by
    rw [← String.toList_inj, String.toList_append, toList_text, String.toList_ofList]
    exact ht.symm
  have hsize : (ofString s).text.toByteArray.size =
      cut s.toList (min s.utf8ByteSize maxBytes) := by
    rw [String.size_toByteArray, utf8ByteSize_text, ← bytes_toList]
    exact bytes_before (isBoundary_cut _ _)
  calc (ofString s).text.toByteArray
      = ((ofString s).text.toByteArray ++ (String.ofList t).toByteArray).extract 0
          (cut s.toList (min s.utf8ByteSize maxBytes)) :=
        (ByteArray.extract_append_eq_left hsize.symm).symm
    _ = s.toByteArray.extract 0 (cut s.toList (min s.utf8ByteSize maxBytes)) := by
        rw [← String.toByteArray_append, ← hs]

/-- What a name keeps of a text. -/
structure Cuts (s : String) : Prop where
  /-- The cut comes to rest, at one place only; the bytes before it are whole characters, and the
  name holds them. -/
  rests : ∃ e, (∀ e', Retreat s (min s.utf8ByteSize maxBytes) e' ↔ e' = e) ∧
    (s.toByteArray.extract 0 e).IsValidUTF8 ∧
      (ofString s).text.toByteArray = s.toByteArray.extract 0 e
  isPrefix : (ofString s).text.toList <+: s.toList
  fits : (ofString s).text.utf8ByteSize ≤ maxBytes
  /-- No longer prefix of whole characters fits. -/
  longest : ∀ t : String, t.toList <+: s.toList → t.utf8ByteSize ≤ maxBytes →
    t.toList <+: (ofString s).text.toList
  whole_iff : (ofString s).text = s ↔ s.utf8ByteSize ≤ maxBytes
  /-- A name made of a longer text has 28 to 31 bytes. -/
  nearly : maxBytes < s.utf8ByteSize →
    28 ≤ (ofString s).text.utf8ByteSize ∧ (ofString s).text.utf8ByteSize ≤ 31
  /-- A name that is made of what is kept keeps all of it. -/
  again : ofString (ofString s).text = ofString s

/-- **How a name is cut**: the parts of `Cuts` are put together from what is kept and what the next
character would take. -/
theorem cuts (s : String) : Cuts s where
  rests := by
    refine ⟨cut s.toList (min s.utf8ByteSize maxBytes), fun _ => retreat_iff, ?_,
      toByteArray_text_ofString s⟩
    rw [← toByteArray_text_ofString]
    exact (ofString s).text.isValidUTF8
  isPrefix := by
    rw [toList_text]
    exact kept_isPrefix _
  fits := by
    rw [utf8ByteSize_text]
    exact (ofString s).bytes_le
  longest t ht hfit := by
    rw [toList_text]
    exact prefix_kept ht (by rwa [bytes_toList])
  whole_iff := text_ofString_eq_iff
  nearly h := by
    rw [← bytes_toList] at h
    rw [utf8ByteSize_text]
    exact ⟨le_bytes_kept h, (ofString s).bytes_le⟩
  again := ofString_text _

end Name

/-! ## 5. Names that are set and copied

Setting and copying go through the same cut, so a copy is equal to what it was copied from. -/

namespace System

/-- The name of a VM object. -/
def vmoName (s : System) (v : VmoId) : Option Name := s.vmos[v]?.map Vmo.name

theorem vmos_tellWatcher (s : System) (v : VmoId) (b : Bool) :
    (s.tellWatcher v b).vmos = s.vmos := by
  obtain ⟨objects, trace, he, -⟩ := s.tellWatcher_eq v b
  rw [he]

/-- The name of a clone is that of its original, cut again, or blank. -/
theorem vmos_cloneVmo {s t : System} {v c : VmoId} {ask : CloneRequest}
    (h : s.cloneVmo v ask = (.ok c, t)) :
    ∃ o vmo, s.vmos[v]? = some o ∧ t.vmos = s.vmos.insert c vmo ∧
      vmo.name = if ask.copyName then Name.ofString o.name.text else Name.blank := by
  have hcreation := s.cloneVmo_creation v ask
  rw [h] at hcreation
  cases hcreation with
  | first ho => exact ⟨_, _, ho, vmos_tellWatcher _ _ _, rfl⟩
  | further ho => exact ⟨_, _, ho, rfl, rfl⟩

/-- A clone that copies the name has the name of the object, which keeps it. -/
theorem vmoName_cloneVmo {s t : System} {v c : VmoId} {ask : CloneRequest}
    (h : s.cloneVmo v ask = (.ok c, t)) (hn : ask.copyName = true) :
    ∃ n, s.vmoName v = some n ∧ t.vmoName c = some n ∧ t.vmoName v = some n := by
  obtain ⟨o, vmo, ho, hv, hname⟩ := vmos_cloneVmo h
  rw [if_pos hn, Name.ofString_text] at hname
  refine ⟨o.name, by rw [vmoName, ho]; rfl, ?_, ?_⟩
  · rw [vmoName, hv, Store.getElem?_insert, if_pos rfl, ← hname]
    rfl
  · rw [vmoName, hv, Store.getElem?_insert]
    split
    · rw [← hname]; rfl
    · rw [ho]; rfl

end System

namespace Script.ObjectCommand

open Session

variable {s : Session} {ref : String} {x : Named} {n : Name}

/-- What a named thing is called. -/
def Named.called (s : Session) (ref : String) : Named → Option Name
  | .own => s.names[ref]?.bind fun
    | .name n => some n
    | _ => none
  | .job k => s.system.jobs[k]?.map Job.name
  | .process k => s.system.processes[k]?.map Process.name
  | .vmo v => s.system.vmoName v

/-- The named thing that a reference stands for. -/
def pointed (s : Session) (ref : String) : Option Named :=
  s.names[ref]?.bind fun
    | .name _ => some .own
    | .vmo v => some (.vmo v)
    | b => (referred (fun _ => true) b).bind (namedObject s.system)

/-- An object of the system is never taken for a name that the script keeps by itself. -/
theorem namedObject_ne_own {t : System} {k : Koid} : namedObject t k ≠ some .own := by
  unfold namedObject
  split
  · simp
  · split
    · simp
    · cases t.views[k]? <;> simp

theorem find_eq_ok_iff {α : Type} {suits : Binding → Option α} {a : α} :
    s.find ref suits = .ok a ↔ s.names[ref]?.bind suits = some a := by
  unfold find
  cases s.names[ref]?.bind suits <;> simp

/-- What a look-up that pairs the record's name with the thing finds. -/
theorem map_pair_eq_some_iff {α : Type} {o : Option α} {f : α → Name} {y : Named} :
    (o.map fun a => (y, f a)) = some (x, n) ↔ y = x ∧ o.map f = some n := by
  cases o <;> simp

/-- A script finds a name where a reference points to something that is there and has one.  The
cases are the kinds of things that references point to. -/
theorem named_eq_ok_iff :
    named s ref = .ok (x, n) ↔ pointed s ref = some x ∧ x.called s ref = some n := by
  -- A kernel handle and a plain reference lead to an object in the same way, so what is found
  -- there is settled once for both.
  have hobject : ∀ k, ((namedObject s.system k).bind fun
        | .own => none
        | .job k => s.system.jobs[k]?.map fun j => (Named.job k, j.name)
        | .process k => s.system.processes[k]?.map fun p => (Named.process k, p.name)
        | .vmo v => s.system.vmos[v]?.map fun o => (Named.vmo v, o.name)) = some (x, n) ↔
      namedObject s.system k = some x ∧ x.called s ref = some n := by
    intro k
    cases hk : namedObject s.system k with
    | none => simp
    | some y =>
      cases y with
      | own => exact absurd hk namedObject_ne_own
      | _ =>
        dsimp only [Option.bind_some]
        rw [map_pair_eq_some_iff, Option.some_inj]
        exact and_congr_right fun hx => hx ▸ .rfl
  refine find_eq_ok_iff.trans ?_
  unfold pointed
  cases hb : s.names[ref]? with
  | none => simp
  | some b =>
    cases b with
    | object k => exact hobject k
    | kernel t held =>
      cases held with
      | none => simp [referred]
      | some k => exact hobject k
    | vmo v =>
      dsimp only [Option.bind_some]
      rw [map_pair_eq_some_iff, Option.some_inj]
      exact and_congr_right fun hx => hx ▸ .rfl
    | name m =>
      dsimp only [Option.bind_some]
      rw [Option.some_inj, Option.some_inj, Prod.mk.injEq]
      refine and_congr_right fun hx => ?_
      subst hx
      simp [Named.called, hb]
    | _ => simp [referred]

/-- Which objects have names depends on which objects are there. -/
theorem namedObject_congr {t t' : System} (hj : ∀ k : Nat, t'.jobs.contains k = t.jobs.contains k)
    (hp : ∀ k : Nat, t'.processes.contains k = t.processes.contains k) (hv : t'.views = t.views) :
    namedObject t' = namedObject t := by
  funext k
  unfold namedObject
  rw [hj, hp, hv]

/-- What a reference stands for does not depend on how anything is called. -/
theorem pointed_setNamed (h : pointed s ref = some x) (m : Name) :
    pointed (setNamed s ref x m) ref = some x := by
  have hsame : ∀ t : System, namedObject t = namedObject s.system →
      pointed { s with system := t } ref = some x := by
    intro t ht
    rw [← h]
    unfold pointed
    rw [ht]
  cases x with
  | own => simp [pointed, setNamed, rebind]
  | job k =>
    exact hsame _ (namedObject_congr (Store.contains_modify _ _ _) (fun _ => rfl) rfl)
  | process k =>
    exact hsame _ (namedObject_congr (fun _ => rfl) (Store.contains_modify _ _ _) rfl)
  | vmo v => exact hsame _ (namedObject_congr (fun _ => rfl) (fun _ => rfl) rfl)

/-- A name that is set is the name that is then found. -/
theorem named_setNamed (h : named s ref = .ok (x, n)) (m : Name) :
    named (setNamed s ref x m) ref = .ok (x, m) := by
  obtain ⟨hp, hc⟩ := named_eq_ok_iff.mp h
  refine named_eq_ok_iff.mpr ⟨pointed_setNamed hp m, ?_⟩
  cases x with
  | own => simp [Named.called, setNamed, rebind]
  | job k =>
    obtain ⟨j, hj, -⟩ := Option.map_eq_some_iff.mp hc
    simp [Named.called, setNamed, act, System.modifyJob, hj]
  | process k =>
    obtain ⟨p, hp, -⟩ := Option.map_eq_some_iff.mp hc
    simp [Named.called, setNamed, act, System.modifyProcess, hp]
  | vmo v =>
    obtain ⟨o, ho, -⟩ := Option.map_eq_some_iff.mp hc
    simp [Named.called, setNamed, act, System.modifyVmo, System.vmoName, ho]

/-- To set a name to what it is changes nothing. -/
theorem setNamed_self (h : named s ref = .ok (x, n)) : setNamed s ref x n = s := by
  obtain ⟨hp, hc⟩ := named_eq_ok_iff.mp h
  -- A name of the script itself is rewritten in its bindings, the others in the record of what
  -- they name; each time what is written is what stands there.
  cases x with
  | own =>
    have hb : s.names[ref]? = some (.name n) := by
      unfold Named.called at hc
      cases hb : s.names[ref]? with
      | none => simp [hb] at hc
      | some b => cases b <;> simp_all
    simp only [setNamed, rebind]
    rw [show s.names.insert ref (.name n) = s.names from Std.ExtTreeMap.ext_getElem? fun a => by
      rw [Std.ExtTreeMap.getElem?_insert]
      split
      · next heq => rw [← hb, Std.LawfulEqCmp.eq_of_compare heq]
      · rfl]
  | job k =>
    simp only [setNamed, act, System.modifyJob]
    rw [Store.modify_id fun j hj => ?_]
    rw [Named.called, hj, Option.map_some, Option.some_inj] at hc
    rw [← hc]
  | process k =>
    simp only [setNamed, act, System.modifyProcess]
    rw [Store.modify_id fun p hp => ?_]
    rw [Named.called, hp, Option.map_some, Option.some_inj] at hc
    rw [← hc]
  | vmo v =>
    simp only [setNamed, act, System.modifyVmo]
    rw [Store.modify_id fun o ho => ?_]
    rw [Named.called, System.vmoName, ho, Option.map_some, Option.some_inj] at hc
    rw [← hc]

end Script.ObjectCommand

/-- Names keep what the cut leaves of the texts that they are set to, and nothing less when what
they hold is put into a name again: into the same one or into that of a clone. -/
structure NamesKeep (text : String) : Prop where
  cuts : Name.Cuts text
  /-- A name that was set gives back what the cut left. -/
  set_get : ∀ (s : Script.Session) (ref : String) (x : Script.ObjectCommand.Named) (n : Name),
    Script.ObjectCommand.named s ref = .ok (x, n) →
      ((Script.ObjectCommand.getName ref).run ((Script.ObjectCommand.setName ref text).run s).1).2 =
        .text (Name.ofString text).text
  /-- To set a name to what it holds changes nothing. -/
  set_self : ∀ (s : Script.Session) (ref : String) (x : Script.ObjectCommand.Named) (n : Name),
    Script.ObjectCommand.named s ref = .ok (x, n) →
      (Script.ObjectCommand.setName ref n.text).run s = (s, .done)
  /-- A clone that copies the name has the name of the object, which keeps it. -/
  cloned : ∀ (s t : System) (v c : VmoId) (ask : CloneRequest), ask.copyName = true →
    s.cloneVmo v ask = (.ok c, t) →
      ∃ n, s.vmoName v = some n ∧ t.vmoName c = some n ∧ t.vmoName v = some n

/-- A character of two bytes at the cut goes as a whole. -/
example : (Name.ofString "aaaaaaaaaaaaaaaaaaaaaaaaaaaaaaé").text =
    "aaaaaaaaaaaaaaaaaaaaaaaaaaaaaa" := by
  decide

/-- **Names keep what fits of a text.**  The object is asked for its name right after it was given
one, and again when it was given the name that it told. -/
theorem names_keep (text : String) : NamesKeep text where
  cuts := Name.cuts text
  set_get s ref x n h := by
    have hset := Script.ObjectCommand.named_setNamed h (Name.ofString text)
    simp only [Script.ObjectCommand.run, h, Script.Session.given, hset]
  set_self s ref x n h := by
    simp only [Script.ObjectCommand.run, h, Script.Session.given, Name.ofString_text,
      Script.ObjectCommand.setNamed_self h]
  cloned s t v c ask hn h := System.vmoName_cloneVmo h hn

end KernelObjects
