import ShifterOperand.Proofs.Json.Denotation
import ShifterOperand.Proofs.Json.Layout

/-!
# Operands written and read back

Kinds, shifts and flagged words are written as JSON, compact or indented, and their readers take much
more than is written. Main statement: a reader gives back what was written, and all texts that it takes
for one operand have the same text by the writer.
-/
namespace ShifterOperand

namespace Json

/-! What operands are written with can be written. -/

theorem writable_ofString {s : String} (h : Printable s) : (ofString s).Writable := by
  intro t ht
  rw [List.mem_singleton.mp ht]
  exact written_quote h

theorem writable_ofWord (n : UInt32) : (ofWord n).Writable := by
  intro t ht
  rw [List.mem_singleton.mp ht]
  exact written_toDigits n.toNat

theorem writable_null : Json.null.Writable := by
  intro t ht
  rw [List.mem_singleton.mp ht]
  exact rfl

theorem writable_bool (b : Bool) : (Json.bool b).Writable := by
  intro t ht
  rw [List.mem_singleton.mp ht]
  exact rfl

theorem written_tokensOfMembers {members : List (String × Json)}
    (h : ∀ m ∈ members, Printable m.1 ∧ m.2.Writable) :
    ∀ t ∈ tokensOfMembers (members.map fun m => (quote m.1, m.2)), t.Written t.spelling := by
  induction members with
  | nil =>
    intro t ht
    rw [List.mem_singleton.mp ht]
    exact rfl
  | cons m members ih =>
    obtain ⟨⟨hkey, hvalue⟩, hrest⟩ := List.forall_mem_cons.mp h
    simp only [List.map_cons, tokensOfMembers, List.forall_mem_cons, List.forall_mem_append]
    exact ⟨rfl, written_quote hkey, rfl, hvalue, ih hrest⟩

theorem writable_ofMembers {members : List (String × Json)}
    (h : ∀ m ∈ members, Printable m.1 ∧ m.2.Writable) : (ofMembers members).Writable := by
  unfold Writable ofMembers
  cases members with
  | nil =>
    simp only [List.map_nil, tokens, List.forall_mem_cons]
    exact ⟨rfl, rfl, by simp⟩
  | cons m members =>
    obtain ⟨⟨hkey, hvalue⟩, hrest⟩ := List.forall_mem_cons.mp h
    simp only [List.map_cons, tokens, List.forall_mem_cons, List.forall_mem_append]
    exact ⟨rfl, written_quote hkey, rfl, hvalue, written_tokensOfMembers hrest⟩

/-! What was put into a value is found in it. -/

theorem word?_ofWord (n : UInt32) : (ofWord n).word? = some n :=
  word?_eq_some_iff.mpr
    (.literal (whole_toDigits n.toNat) (Nat.ofDigitChars_toDigits (by decide) (by decide)))

theorem namedMembers?_quote (members : List (String × Json)) :
    namedMembers? (members.map fun m => (quote m.1, m.2)) = some members := by
  induction members with
  | nil => rfl
  | cons m members ih => simp [namedMembers?_cons, ih]

theorem fields?_ofMembers (first second : String) (members : List (String × Json)) :
    (ofMembers members).fields? first second =
      (member? first members).bind fun a => (member? second members).map fun b => (a, b) := by
  simp only [ofMembers, fields?, namedMembers?_quote, Option.bind_eq_bind, Option.bind_some,
    Option.map_eq_bind]
  rfl

end Json

open Json

theorem Kind.printable_mnemonic (k : Kind) : Printable k.mnemonic := by
  cases k <;> decide

theorem Kind.ofJson?_toJson (k : Kind) : Kind.ofJson? k.toJson = some k :=
  Kind.ofPieces?_eq_some_iff.mpr (text?_eq_some_iff.mp (text?_quote k.mnemonic))

theorem Kind.writable_toJson (k : Kind) : k.toJson.Writable := writable_ofString k.printable_mnemonic

theorem Shift.ofJson?_toJson (s : Shift) : Shift.ofJson? s.toJson = some s := by
  simp [Shift.ofJson?, Shift.toJson, fields?_ofMembers, member?, Kind.ofJson?_toJson, word?_ofWord]

theorem Shift.writable_toJson (s : Shift) : s.toJson.Writable := by
  apply writable_ofMembers
  simp only [List.forall_mem_cons]
  exact ⟨⟨by decide, s.kind.writable_toJson⟩, ⟨by decide, writable_ofWord s.amount⟩, by simp⟩

theorem Flagged.ofJson?_toJson (w : Flagged) : Flagged.ofJson? w.toJson = some w := by
  simp [Flagged.ofJson?, Flagged.toJson, fields?_ofMembers, member?, word?_ofWord, flag?]

theorem Flagged.writable_toJson (w : Flagged) : w.toJson.Writable := by
  apply writable_ofMembers
  simp only [List.forall_mem_cons]
  exact ⟨⟨by decide, writable_ofWord w.value⟩, ⟨by decide, writable_bool w.carry⟩, by simp⟩

/-- A reader takes back what a writer writes. Whatever else it takes has a text by the writer too, the
canonical one: it is taken for the same, it is its own canonical text, and two texts share it when they
denote the same. -/
structure RoundTrip {α : Type} (write : α → String) (read : String → Option α) : Prop where
  read_write : ∀ a, read (write a) = some a
  injective : Function.Injective write
  canonical : ∀ text a, read text = some a →
    ∃ canon, (read text).map write = some canon ∧ read canon = some a ∧
      (read canon).map write = some canon
  canonical_eq_iff : ∀ text text' a b, read text = some a → read text' = some b →
    ((read text).map write = (read text').map write ↔ a = b)

theorem roundTrip_of_read_write {α : Type} {write : α → String} {read : String → Option α}
    (h : ∀ a, read (write a) = some a) : RoundTrip write read := by
  have hinj : Function.Injective write := by
    intro a b hab
    have hread := congrArg read hab
    rw [h, h] at hread
    exact Option.some.inj hread
  refine ⟨h, hinj, fun text a ha => ⟨write a, ?_, h a, ?_⟩, fun text text' a b ha hb => ?_⟩
  · rw [ha, Option.map_some]
  · rw [h, Option.map_some]
  · rw [ha, hb, Option.map_some, Option.map_some, Option.some_inj, hinj.eq_iff]

/-- The writer, if its texts are read as the values that were written. -/
structure RoundTrips (write : Json → String) : Prop where
  kind : RoundTrip (fun k : Kind => write k.toJson) Kind.ofJsonText?
  shift : RoundTrip (fun s : Shift => write s.toJson) Shift.ofJsonText?
  flagged : RoundTrip (fun w : Flagged => write w.toJson) Flagged.ofJsonText?

theorem roundTrips_of_ofText? {write : Json → String}
    (h : ∀ j : Json, j.Writable → ofText? (write j) = some j) : RoundTrips write := by
  refine ⟨roundTrip_of_read_write fun k => ?_, roundTrip_of_read_write fun s => ?_,
    roundTrip_of_read_write fun w => ?_⟩
  · rw [Kind.ofJsonText?, h _ k.writable_toJson]
    exact Kind.ofJson?_toJson k
  · rw [Shift.ofJsonText?, h _ s.writable_toJson]
    exact Shift.ofJson?_toJson s
  · rw [Flagged.ofJsonText?, h _ w.writable_toJson]
    exact Flagged.ofJson?_toJson w

/-- Every kind, every shift, also one by an amount that its kind does not take, and every flagged word
is read back from its compact text and from its indented one, and both are canonical. -/
theorem operands_round_trip : RoundTrips compact ∧ RoundTrips indented :=
  ⟨roundTrips_of_ofText? fun _ h => ofText?_compact h,
    roundTrips_of_ofText? fun _ h => ofText?_indented h⟩

example : (Shift.toJson ⟨.lsl, 99⟩).compact = "\x7b\"kind\":\"lsl\",\"amount\":99\x7d" := by decide +kernel

end ShifterOperand
