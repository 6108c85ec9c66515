import Mathlib.Data.List.Perm.Basic
import ShifterOperand.Json.Operand
import ShifterOperand.Proofs.Json.Written

/-!
# What operands as JSON denote

What a value denotes is said without reference to the readers: by the texts that its strings stand for,
and for an object by its members in whatever order they are. Main statement: the readers of kinds,
shifts and flagged words take exactly the texts that denote one.
-/
namespace ShifterOperand

namespace Json

/-- The characters that pieces stand for. A code unit that is no surrogate is a character, and a high
surrogate with a low one behind it is another. -/
inductive Denotes : List Piece → List Char → Prop
  | nil : Denotes [] []
  | char {c : Char} {ps : List Piece} {cs : List Char} (h : Denotes ps cs) :
      Denotes (.char c :: ps) (c :: cs)
  | unit {u : UInt16} {c : Char} {ps : List Piece} {cs : List Char} (hu : c.toNat = u.toNat)
      (h : Denotes ps cs) : Denotes (.escaped u :: ps) (c :: cs)
  | pair {high low : UInt16} {c : Char} {ps : List Piece} {cs : List Char}
      (hh : 0xD800 ≤ high.toNat ∧ high.toNat ≤ 0xDBFF)
      (hl : 0xDC00 ≤ low.toNat ∧ low.toNat ≤ 0xDFFF)
      (hc : c.toNat = 0x10000 + (high.toNat - 0xD800) * 0x400 + (low.toNat - 0xDC00))
      (h : Denotes ps cs) : Denotes (.escaped high :: .escaped low :: ps) (c :: cs)

/-- The pieces stand for this name. -/
def Names (ps : List Piece) (name : String) : Prop := Denotes ps name.toList

/-- One of the members has this name and this value, and no other one has the name. -/
def Sole (name : String) (value : Json) (members : List (List Piece × Json)) : Prop :=
  ∃ key others, members.Perm ((key, value) :: others) ∧ Names key name ∧
    ∀ m ∈ others, ¬ Names m.1 name

/-- The values of two fields, in an array that lists them or in an object that names them. -/
inductive Fields (first second : String) (a b : Json) : Json → Prop
  | listed : Fields first second a b (.array [a, b])
  | named {members : List (List Piece × Json)} (hkeys : ∀ m ∈ members, ∃ cs, Denotes m.1 cs)
      (ha : Sole first a members) (hb : Sole second b members) :
      Fields first second a b (.object members)

/-- A number literal without sign, fraction and exponent that stands for the word. -/
inductive DenotesWord (n : UInt32) : Json → Prop
  | literal {cs : List Char} (hw : Whole cs) (hn : Nat.ofDigitChars 10 cs 0 = n.toNat) :
      DenotesWord n (.number cs)

inductive DenotesFlag (b : Bool) : Json → Prop
  | name : DenotesFlag b (.bool b)

end Json

/-- The mnemonic of the kind, or an object whose only key it is and whose value is null. -/
inductive Kind.Denoted (k : Kind) : Json → Prop
  | name {ps : List Json.Piece} (h : Json.Names ps k.mnemonic) : k.Denoted (.string ps)
  | key {ps : List Json.Piece} (h : Json.Names ps k.mnemonic) : k.Denoted (.object [(ps, .null)])

inductive Shift.Denoted (s : Shift) (j : Json) : Prop
  | mk {a b : Json} (hf : Json.Fields "kind" "amount" a b j) (hk : s.kind.Denoted a)
      (ha : Json.DenotesWord s.amount b) : s.Denoted j

inductive Flagged.Denoted (w : Flagged) (j : Json) : Prop
  | mk {a b : Json} (hf : Json.Fields "value" "carry" a b j) (hv : Json.DenotesWord w.value a)
      (hc : Json.DenotesFlag w.carry b) : w.Denoted j

namespace Json

theorem toNat_ofNat_of_valid {n : ℕ} (h : n.isValidChar) : (Char.ofNat n).toNat = n := by
  rw [Char.ofNat, dif_pos h]
  rfl

theorem isHighSurrogate_iff {u : UInt16} :
    isHighSurrogate u = true ↔ 0xD800 ≤ u.toNat ∧ u.toNat ≤ 0xDBFF := by
  simp [isHighSurrogate, UInt16.le_iff_toNat_le]

theorem isLowSurrogate_iff {u : UInt16} :
    isLowSurrogate u = true ↔ 0xDC00 ≤ u.toNat ∧ u.toNat ≤ 0xDFFF := by
  simp [isLowSurrogate, UInt16.le_iff_toNat_le]

theorem toNat_not_surrogate (c : Char) : c.toNat < 0xD800 ∨ 0xDFFF < c.toNat := by
  rcases c.valid with h | ⟨h, -⟩
  · exact .inl h
  · exact .inr h

theorem combine_eq_iff {high low : UInt16} {c : Char}
    (hh : 0xD800 ≤ high.toNat ∧ high.toNat ≤ 0xDBFF) (hl : 0xDC00 ≤ low.toNat ∧ low.toNat ≤ 0xDFFF) :
    combine high low = c ↔
      c.toNat = 0x10000 + (high.toNat - 0xD800) * 0x400 + (low.toNat - 0xDC00) := by
  have hvalid : (0x10000 + (high.toNat - 0xD800) * 0x400 + (low.toNat - 0xDC00)).isValidChar := by
    unfold Nat.isValidChar
    omega
  rw [← Char.toNat_inj, combine, toNat_ofNat_of_valid hvalid, eq_comm]

theorem ofNat_eq_iff {u : UInt16} {c : Char} (hh : isHighSurrogate u = false)
    (hl : isLowSurrogate u = false) : Char.ofNat u.toNat = c ↔ c.toNat = u.toNat := by
  have hvalid : u.toNat.isValidChar := by
    have hlt := u.toNat_lt
    rw [← Bool.not_eq_true, isHighSurrogate_iff] at hh
    rw [← Bool.not_eq_true, isLowSurrogate_iff] at hl
    unfold Nat.isValidChar
    omega
  rw [← Char.toNat_inj, toNat_ofNat_of_valid hvalid, eq_comm]

theorem text?_unit {u : UInt16} {ps : List Piece} (hh : isHighSurrogate u = false)
    (hl : isLowSurrogate u = false) :
    text? (.escaped u :: ps) = (text? ps).map (Char.ofNat u.toNat :: ·) := by
  rw [text?.eq_def]
  simp [hh, hl]

theorem text?_low {u : UInt16} {ps : List Piece} (hh : isHighSurrogate u = false)
    (hl : isLowSurrogate u = true) : text? (.escaped u :: ps) = none := by
  rw [text?.eq_def]
  simp [hh, hl]

theorem denotes_of_text? {ps : List Piece} {cs : List Char} (h : text? ps = some cs) :
    Denotes ps cs := by
  induction ps using text?.induct generalizing cs with
  | case1 =>
    cases h
    exact .nil
  | case2 c ps ih =>
    obtain ⟨ds, hds, rfl⟩ := Option.map_eq_some_iff.mp h
    exact .char (ih hds)
  | case3 high hh low ps hl ih =>
    rw [text?, if_pos hh] at h
    simp only [hl, if_true, Option.map_eq_some_iff] at h
    obtain ⟨ds, hds, rfl⟩ := h
    have hh := isHighSurrogate_iff.mp hh
    have hl := isLowSurrogate_iff.mp hl
    exact .pair hh hl ((combine_eq_iff hh hl).mp rfl) (ih hds)
  | case4 high hh low ps hl =>
    rw [text?, if_pos hh] at h
    simp [hl] at h
  | case5 high ps hh hne =>
    rw [text?, if_pos hh] at h
    · cases h
    · exact hne
  | case6 u ps hh hl =>
    rw [text?_low (by simpa using hh) hl] at h
    cases h
  | case7 u ps hh hl ih =>
    rw [Bool.not_eq_true] at hh hl
    rw [text?_unit hh hl] at h
    obtain ⟨ds, hds, rfl⟩ := Option.map_eq_some_iff.mp h
    exact .unit ((ofNat_eq_iff hh hl).mp rfl) (ih hds)

theorem text?_of_denotes {ps : List Piece} {cs : List Char} (h : Denotes ps cs) :
    text? ps = some cs := by
  induction h with
  | nil => rfl
  | char _ ih => simp [text?, ih]
  | @unit u c ps cs hu _ ih =>
    have hns := toNat_not_surrogate c
    have hh : isHighSurrogate u = false := by
      rw [← Bool.not_eq_true, isHighSurrogate_iff]
      omega
    have hl : isLowSurrogate u = false := by
      rw [← Bool.not_eq_true, isLowSurrogate_iff]
      omega
    rw [text?_unit hh hl, ih, (ofNat_eq_iff hh hl).mpr hu]
    rfl
  | @pair high low c ps cs hh hl hc _ ih =>
    simp [text?, isHighSurrogate_iff.mpr hh, isLowSurrogate_iff.mpr hl, ih,
      (combine_eq_iff hh hl).mpr hc]

theorem text?_eq_some_iff {ps : List Piece} {cs : List Char} :
    text? ps = some cs ↔ Denotes ps cs :=
  ⟨denotes_of_text?, text?_of_denotes⟩

/-! Objects. -/

theorem namedMembers?_cons (m : List Piece × Json) (members : List (List Piece × Json)) :
    namedMembers? (m :: members) =
      (text? m.1).bind fun cs => (namedMembers? members).map ((String.ofList cs, m.2) :: ·) := by
  cases hm : text? m.1 with
  | none => simp [namedMembers?, hm]
  | some cs =>
    simp only [namedMembers?, List.mapM_cons, hm, Option.bind_some,
      Option.map_eq_bind]
    rfl

theorem exists_namedMembers?_iff {members : List (List Piece × Json)} :
    (∃ named, namedMembers? members = some named) ↔ ∀ m ∈ members, ∃ cs, Denotes m.1 cs := by
  simp only [← text?_eq_some_iff]
  induction members with
  | nil => simp [namedMembers?]
  | cons m members ih =>
    rw [List.forall_mem_cons, ← ih]
    simp [namedMembers?_cons, Option.bind_eq_some_iff]

def isNamed (name : String) (m : List Piece × Json) : Bool := text? m.1 = some name.toList

/-- The values of the members with a name, told by the pieces of the keys. -/
def valuesOf (name : String) (members : List (List Piece × Json)) : List Json :=
  (members.filter (isNamed name)).map (·.2)

theorem isNamed_iff {name : String} {m : List Piece × Json} :
    isNamed name m = true ↔ Names m.1 name := by
  rw [isNamed, decide_eq_true_eq, text?_eq_some_iff, Names]

theorem ofList_eq_iff {cs : List Char} {s : String} : String.ofList cs = s ↔ cs = s.toList := by
  constructor
  · intro h
    subst h
    rw [String.toList_ofList]
  · intro h
    subst h
    rw [String.ofList_toList]

theorem filter_namedMembers? {members : List (List Piece × Json)} {named : List (String × Json)}
    (name : String) (h : namedMembers? members = some named) :
    (named.filter (·.1 = name)).map (·.2) = valuesOf name members := by
  induction members generalizing named with
  | nil =>
    cases h
    rfl
  | cons m members ih =>
    rw [namedMembers?_cons] at h
    obtain ⟨cs, hcs, h⟩ := Option.bind_eq_some_iff.mp h
    obtain ⟨more, hmore, rfl⟩ := Option.map_eq_some_iff.mp h
    by_cases hc : cs = name.toList
    · simpa [valuesOf, isNamed, hcs, hc] using ih hmore
    · simpa [valuesOf, isNamed, hcs, ofList_eq_iff, hc] using ih hmore

theorem member?_eq_some_iff {name : String} {named : List (String × Json)} {value : Json} :
    member? name named = some value ↔ (named.filter (·.1 = name)).map (·.2) = [value] := by
  unfold member?
  split
  · next key v h => simp [h]
  · next hne =>
    constructor
    · intro h
      cases h
    · intro h
      obtain ⟨⟨key, v⟩, hf, -⟩ := List.map_eq_singleton_iff.mp h
      exact absurd hf (hne key v)

theorem sole_iff {name : String} {value : Json} {members : List (List Piece × Json)} :
    Sole name value members ↔ valuesOf name members = [value] := by
  constructor
  · intro h
    obtain ⟨key, others, hperm, hkey, hothers⟩ := h
    have hrest : others.filter (isNamed name) = [] :=
      List.filter_eq_nil_iff.mpr fun m hm => isNamed_iff.not.mpr (hothers m hm)
    have hfilter := hperm.filter (isNamed name)
    rw [List.filter_cons_of_pos (isNamed_iff.mpr hkey), hrest, List.perm_singleton] at hfilter
    rw [valuesOf, hfilter]
    rfl
  · intro h
    obtain ⟨⟨key, v⟩, hfilter, rfl⟩ := List.map_eq_singleton_iff.mp h
    have hmem : (key, v) ∈ members.filter (isNamed name) := by simp [hfilter]
    have hperm := List.filter_append_perm (isNamed name) members
    rw [hfilter] at hperm
    refine ⟨key, _, hperm.symm, isNamed_iff.mp (List.mem_filter.mp hmem).2, ?_⟩
    intro m hm
    rw [← isNamed_iff]
    simpa using (List.mem_filter.mp hm).2

theorem fields?_eq_some_iff {first second : String} {j a b : Json} :
    j.fields? first second = some (a, b) ↔ Fields first second a b j := by
  constructor
  · intro h
    unfold fields? at h
    split at h
    · cases h
      exact .listed
    · next members =>
      simp only [Option.bind_eq_bind, Option.bind_eq_some_iff, Option.pure_def, Option.some.injEq,
        Prod.mk.injEq] at h
      obtain ⟨named, hnamed, a, ha, b, hb, rfl, rfl⟩ := h
      refine .named (exists_namedMembers?_iff.mp ⟨named, hnamed⟩) ?_ ?_
      · rw [sole_iff, ← filter_namedMembers? first hnamed, ← member?_eq_some_iff, ha]
      · rw [sole_iff, ← filter_namedMembers? second hnamed, ← member?_eq_some_iff, hb]
    · cases h
  · intro h
    rcases h with _ | ⟨hkeys, ha, hb⟩
    · rfl
    · obtain ⟨named, hnamed⟩ := exists_namedMembers?_iff.mpr hkeys
      rw [sole_iff, ← filter_namedMembers? _ hnamed, ← member?_eq_some_iff] at ha hb
      simp [fields?, hnamed, ha, hb]

theorem word?_eq_some_iff {j : Json} {n : UInt32} : j.word? = some n ↔ DenotesWord n j := by
  constructor
  · intro h
    unfold word? at h
    split at h
    · next cs =>
      simp only [Option.map_eq_some_iff, Option.filter_eq_some_iff, decide_eq_true_eq] at h
      obtain ⟨m, ⟨hm, hlt⟩, rfl⟩ := h
      obtain ⟨hw, hv⟩ := natural?_eq_some_iff.mp hm
      exact .literal hw (by rw [hv, UInt32.toNat_ofNat_of_lt' hlt])
    · cases h
  · intro h
    obtain ⟨hw, hn⟩ := h
    have hlt := n.toNat_lt_size
    simp [word?, natural?_eq_some_iff.mpr ⟨hw, hn⟩, Option.filter, hlt]

theorem flag?_eq_some_iff {j : Json} {b : Bool} : j.flag? = some b ↔ DenotesFlag b j := by
  constructor
  · intro h
    unfold flag? at h
    split at h
    · cases h
      exact .name
    · cases h
  · intro h
    cases h
    rfl

end Json

theorem Kind.ofPieces?_eq_some_iff {ps : List Json.Piece} {k : Kind} :
    Kind.ofPieces? ps = some k ↔ Json.Names ps k.mnemonic := by
  rw [Json.Names, ← Json.text?_eq_some_iff]
  simp only [Kind.ofPieces?, Option.bind_eq_bind, Option.bind_eq_some_iff,
    Kind.ofMnemonic?_eq_some_iff, Json.ofList_eq_iff, exists_eq_right]

theorem Kind.ofJson?_eq_some_iff {j : Json} {k : Kind} :
    Kind.ofJson? j = some k ↔ k.Denoted j := by
  constructor
  · intro h
    unfold Kind.ofJson? at h
    split at h
    · exact .name (Kind.ofPieces?_eq_some_iff.mp h)
    · exact .key (Kind.ofPieces?_eq_some_iff.mp h)
    · cases h
  · intro h
    rcases h with h | h
    · exact Kind.ofPieces?_eq_some_iff.mpr h
    · exact Kind.ofPieces?_eq_some_iff.mpr h

theorem Shift.ofJson?_eq_some_iff {j : Json} {s : Shift} :
    Shift.ofJson? j = some s ↔ s.Denoted j := by
  simp only [Shift.ofJson?, Option.bind_eq_bind, Option.bind_eq_some_iff, Option.pure_def,
    Option.some.injEq, Prod.exists, Json.fields?_eq_some_iff, Kind.ofJson?_eq_some_iff,
    Json.word?_eq_some_iff]
  constructor
  · intro h
    obtain ⟨a, b, hf, kind, hk, amount, ha, rfl⟩ := h
    exact .mk hf hk ha
  · intro h
    obtain ⟨hf, hk, ha⟩ := h
    exact ⟨_, _, hf, _, hk, _, ha, rfl⟩

theorem Flagged.ofJson?_eq_some_iff {j : Json} {w : Flagged} :
    Flagged.ofJson? j = some w ↔ w.Denoted j := by
  simp only [Flagged.ofJson?, Option.bind_eq_bind, Option.bind_eq_some_iff, Option.pure_def,
    Option.some.injEq, Prod.exists, Json.fields?_eq_some_iff, Json.flag?_eq_some_iff,
    Json.word?_eq_some_iff]
  constructor
  · intro h
    obtain ⟨a, b, hf, value, hv, carry, hc, rfl⟩ := h
    exact .mk hf hv hc
  · intro h
    obtain ⟨hf, hv, hc⟩ := h
    exact ⟨_, _, hf, _, hv, _, hc, rfl⟩

/-- Each reader takes the texts that are a written form of some value that denotes an operand, gives
that operand, and refuses all other texts. -/
theorem ofJsonText?_iff_denoted (text : String) :
    (∀ k : Kind, Kind.ofJsonText? text = some k ↔
      ∃ j, Json.Element j text.toList ∧ k.Denoted j) ∧
    (∀ s : Shift, Shift.ofJsonText? text = some s ↔
      ∃ j, Json.Element j text.toList ∧ s.Denoted j) ∧
    ∀ w : Flagged, Flagged.ofJsonText? text = some w ↔
      ∃ j, Json.Element j text.toList ∧ w.Denoted j := by
  refine ⟨fun k => ?_, fun s => ?_, fun w => ?_⟩
  · simp only [Kind.ofJsonText?, Option.bind_eq_bind, Option.bind_eq_some_iff,
      Json.ofText?_eq_some_iff, Kind.ofJson?_eq_some_iff]
  · simp only [Shift.ofJsonText?, Option.bind_eq_bind, Option.bind_eq_some_iff,
      Json.ofText?_eq_some_iff, Shift.ofJson?_eq_some_iff]
  · simp only [Flagged.ofJsonText?, Option.bind_eq_bind, Option.bind_eq_some_iff,
      Json.ofText?_eq_some_iff, Flagged.ofJson?_eq_some_iff]

end ShifterOperand
