import ShifterOperand.Proofs.Command.Failure
import ShifterOperand.Proofs.Command.Report
import ShifterOperand.Proofs.Shift.Text
import ShifterOperand.Proofs.Text.Exchange

/-!
# Reports that look alike

Neither written form of a report names what kind of report it is. Main statement: of the reports that
commands come to, two have the same text only if they are the same report, and the same holds of their
JSON. For the texts this depends on the commands: the text of a rotation with extend leaves out the
amount, and a kind alone has the same text, but no command reports such a rotation by another amount
than one, and none reports its kind alone.
-/
namespace ShifterOperand

theorem Text.Numeral.length_hexWord (w : UInt32) : (hexWord w).toList.length = 10 := by
  have hle : (Nat.toDigits Radix.hexadecimal.base w.toNat).length ≤ 8 :=
    (Nat.length_toDigits_le_iff (by decide) (by decide)).mpr w.toNat_lt
  rw [toList_hexWord]
  simp only [List.length_cons, List.length_append, List.length_replicate]
  omega

/-- The form of a full word always takes up the same room. -/
theorem Text.Numeral.hexWord_append_inj {m n : UInt32} {s t : String}
    (h : hexWord m ++ s = hexWord n ++ t) : m = n ∧ s = t := by
  have hlist := congrArg String.toList h
  rw [String.toList_append, String.toList_append] at hlist
  have hlength : (hexWord m).toList.length = (hexWord n).toList.length := by
    rw [length_hexWord, length_hexWord]
  obtain ⟨hword, hrest⟩ := List.append_inj hlist hlength
  have hread := congrArg read (String.toList_injective hword)
  rw [read_hexWord, read_hexWord] at hread
  exact ⟨Except.ok.inj hread, String.toList_injective hrest⟩

theorem Json.ofWord_inj {m n : UInt32} (h : Json.ofWord m = Json.ofWord n) : m = n := by
  have hword := congrArg Json.word? h
  rw [Json.word?_ofWord, Json.word?_ofWord] at hword
  exact Option.some.inj hword

theorem Kind.toJson_inj {k k' : Kind} (h : k.toJson = k'.toJson) : k = k' := by
  have hkind := congrArg Kind.ofJson? h
  rw [Kind.ofJson?_toJson, Kind.ofJson?_toJson] at hkind
  exact Option.some.inj hkind

open Json (ofWord ofString ofMembers)

namespace Command

namespace Report

/-- The report can be told from its text: a rotation with extend is by one place, and it is not the kind
of a shift by a register. -/
def Definite : Report → Prop
  | shift s => s.kind = .rrx → s.amount = 1
  | kind k => k ≠ .rrx
  | _ => True

end Report

theorem ne_rrx_of_ofRegister {code : UInt32} {k : Kind} (h : Shift.ofRegister code = .ok k) :
    k ≠ .rrx := by
  rcases Shift.ofRegister_eq_ok_iff.mp h with ⟨-, rfl⟩ | ⟨-, rfl⟩ | ⟨-, rfl⟩ | ⟨-, rfl⟩ <;> exact nofun

theorem definite_of_run {command : Command} {r : Report} (h : command.run = .ok r) :
    r.Definite := by
  cases command with
  | shift | thumbImm | thumbImm12 | thumbImmScaled =>
    obtain ⟨_, -, rfl⟩ := passesOn_eq_ok_iff.mp h
    trivial
  | immShift ty imm5 =>
    rw [run] at h
    split_ifs at h with hw
    obtain ⟨s, hs, rfl⟩ := passesOn_eq_ok_iff.mp h
    exact Shift.amount_of_ofImmediate hs
  | regShift ty =>
    obtain ⟨k, hk, rfl⟩ := passesOn_eq_ok_iff.mp h
    exact ne_rrx_of_ofRegister hk
  | armImm imm12 carry =>
    rw [run] at h
    split_ifs at h with hw
    obtain ⟨_, -, rfl⟩ := passesOn_eq_ok_iff.mp h
    trivial
  | badReg reg =>
    rw [run] at h
    split_ifs at h with hr
    cases h
    trivial

namespace Report

/-- The beginning of the text. -/
def opening : Report → String
  | flagged _ => "val"
  | word _ => "val"
  | shift s => s.kind.mnemonic
  | kind k => k.mnemonic
  | restricted _ => "bad"

theorem take_text (r : Report) : r.text.toList.take 3 = r.opening.toList := by
  cases r with
  | flagged | word | restricted =>
    simp only [text, opening, String.toList_append]
    rfl
  | shift s => exact s.take_text
  | kind k => exact List.take_of_length_le k.length_mnemonic.le

theorem opening_eq_of_text_eq {p q : Report} (h : p.text = q.text) : p.opening = q.opening := by
  apply String.toList_injective
  rw [← take_text, ← take_text, h]

theorem value_text_inj {m n : UInt32} {s t : String}
    (h : "value: " ++ Text.Numeral.hexWord m ++ s = "value: " ++ Text.Numeral.hexWord n ++ t) :
    m = n ∧ s = t := by
  rw [String.append_assoc, String.append_assoc, String.append_right_inj] at h
  exact Text.Numeral.hexWord_append_inj h

theorem text_flagged (w : Flagged) :
    (flagged w).text = "value: " ++ Text.Numeral.hexWord w.value ++
      ("\ncarry: " ++ if w.carry then "1" else "0") := by
  rw [text, String.append_assoc]

theorem text_word (value : UInt32) :
    (word value).text = "value: " ++ Text.Numeral.hexWord value ++ "" := by
  rw [text, String.append_empty]

theorem text_flagged_inj {w w' : Flagged} (h : (flagged w).text = (flagged w').text) : w = w' := by
  rw [text_flagged, text_flagged] at h
  obtain ⟨hvalue, hcarry⟩ := value_text_inj h
  have hdigit : ∀ b b' : Bool, (if b then "1" else "0") = (if b' then "1" else "0") → b = b' := by
    decide
  exact Flagged.ext hvalue (hdigit _ _ ((String.append_right_inj _).mp hcarry))

theorem text_flagged_ne_word (w : Flagged) (value : UInt32) :
    (flagged w).text ≠ (word value).text := by
  intro h
  rw [text_flagged, text_word] at h
  have hrest := congrArg String.toList (value_text_inj h).2
  rw [String.toList_append] at hrest
  cases hrest

theorem text_word_inj {value value' : UInt32} (h : (word value).text = (word value').text) :
    value = value' := by
  rw [text_word, text_word] at h
  exact (value_text_inj h).1

/-- A text without an amount leaves no choice of it, as both shifts are definite. -/
theorem text_shift_inj {s t : Shift} (hs : (shift s).Definite) (ht : (shift t).Definite)
    (h : (shift s).text = (shift t).text) : s = t := by
  rcases Shift.text_eq_iff.mp h with heq | ⟨hks, hkt⟩
  · exact heq
  · exact Shift.ext (hks.trans hkt.symm) ((hs hks).trans (ht hkt).symm)

theorem text_shift_ne_kind {s : Shift} {k : Kind} (hk : (kind k).Definite) :
    (shift s).text ≠ (kind k).text := by
  intro h
  have hkind : s.kind = k := Kind.mnemonic_inj (opening_eq_of_text_eq h)
  have hrrx : s.kind ≠ .rrx := fun hr => hk (hkind ▸ hr)
  simp only [text, Shift.text_of_ne_rrx hrrx, hkind, String.append_assoc,
    String.append_eq_left_iff] at h
  have hrest := congrArg String.toList h
  rw [String.toList_append] at hrest
  cases hrest

theorem text_restricted_inj {b b' : Bool} (h : (restricted b).text = (restricted b').text) :
    b = b' := by
  have hname : ∀ b b' : Bool, boolText b = boolText b' → b = b' := by decide
  exact hname b b' ((String.append_right_inj _).mp h)

/-- Mnemonics do not begin like the other texts. -/
theorem mnemonic_ne_opening (k : Kind) : k.mnemonic ≠ "val" ∧ k.mnemonic ≠ "bad" := by
  cases k <;> decide

/-- The first letters leave only pairs of values, pairs of mnemonics and pairs of registers to compare. -/
theorem text_inj {p q : Report} (hp : p.Definite) (hq : q.Definite) (h : p.text = q.text) :
    p = q := by
  have hopening := opening_eq_of_text_eq h
  cases p with
  | flagged w =>
    cases q with
    | flagged w' => rw [text_flagged_inj h]
    | word value => exact absurd h (text_flagged_ne_word w value)
    | shift t => exact absurd hopening.symm (mnemonic_ne_opening t.kind).1
    | kind k => exact absurd hopening.symm (mnemonic_ne_opening k).1
    | restricted => exact absurd hopening (show "val" ≠ "bad" by decide)
  | word value =>
    cases q with
    | flagged w => exact absurd h.symm (text_flagged_ne_word w value)
    | word value' => rw [text_word_inj h]
    | shift t => exact absurd hopening.symm (mnemonic_ne_opening t.kind).1
    | kind k => exact absurd hopening.symm (mnemonic_ne_opening k).1
    | restricted => exact absurd hopening (show "val" ≠ "bad" by decide)
  | shift s =>
    cases q with
    | flagged | word => exact absurd hopening (mnemonic_ne_opening s.kind).1
    | shift t => rw [text_shift_inj hp hq h]
    | kind k => exact absurd h (text_shift_ne_kind hq)
    | restricted => exact absurd hopening (mnemonic_ne_opening s.kind).2
  | kind k =>
    cases q with
    | flagged | word => exact absurd hopening (mnemonic_ne_opening k).1
    | shift t => exact absurd h.symm (text_shift_ne_kind hp)
    | kind k' => rw [Kind.mnemonic_inj h]
    | restricted => exact absurd hopening (mnemonic_ne_opening k).2
  | restricted b =>
    cases q with
    | flagged | word => exact absurd hopening (show "bad" ≠ "val" by decide)
    | shift t => exact absurd hopening.symm (mnemonic_ne_opening t.kind).2
    | kind k => exact absurd hopening.symm (mnemonic_ne_opening k).2
    | restricted b' => rw [text_restricted_inj h]

/-- The fields that the report has as JSON. -/
def members : Report → List (String × Json)
  | flagged w => [("value", ofWord w.value), ("carry", .bool w.carry)]
  | word value => [("value", ofWord value)]
  | shift s => [("kind", s.kind.toJson), ("amount", ofWord s.amount), ("text", ofString s.text)]
  | kind k => [("kind", k.toJson), ("amount", .null), ("text", ofString k.mnemonic)]
  | restricted bad => [("bad", .bool bad)]

theorem toJson_eq_ofMembers (r : Report) : r.toJson = ofMembers r.members := by
  cases r <;> rfl

theorem members_eq_of_toJson_eq {p q : Report} (h : p.toJson = q.toJson) :
    p.members = q.members := by
  rw [toJson_eq_ofMembers, toJson_eq_ofMembers] at h
  have hnamed := congrArg Json.namedMembers? (Json.object.inj h)
  rw [Json.namedMembers?_quote, Json.namedMembers?_quote] at hnamed
  exact Option.some.inj hnamed

/-- The names of the fields tell the kinds of report apart, but for a shift without its amount, which
has no word there. -/
theorem members_inj {p q : Report} (h : p.members = q.members) : p = q := by
  cases p with
  | flagged w =>
    cases q with
    | flagged w' =>
      simp only [members, List.cons.injEq, Prod.mk.injEq, Json.bool.injEq, true_and, and_true] at h
      rw [Flagged.ext (Json.ofWord_inj h.1) h.2]
    | word | shift | kind | restricted => simp [members] at h
  | word value =>
    cases q with
    | word value' =>
      simp only [members, List.cons.injEq, Prod.mk.injEq, true_and, and_true] at h
      rw [Json.ofWord_inj h]
    | flagged | shift | kind | restricted => simp [members] at h
  | shift s =>
    cases q with
    | shift t =>
      simp only [members, List.cons.injEq, Prod.mk.injEq, true_and, and_true] at h
      rw [Shift.ext (Kind.toJson_inj h.1) (Json.ofWord_inj h.2.1)]
    | kind => simp [members, ofWord] at h
    | flagged | word | restricted => simp [members] at h
  | kind k =>
    cases q with
    | kind k' =>
      simp only [members, List.cons.injEq, Prod.mk.injEq, true_and, and_true] at h
      rw [Kind.toJson_inj h.1]
    | shift => simp [members, ofWord] at h
    | flagged | word | restricted => simp [members] at h
  | restricted b =>
    cases q with
    | restricted b' =>
      simp only [members, List.cons.injEq, Prod.mk.injEq, Json.bool.injEq, true_and, and_true] at h
      rw [h]
    | flagged | word | shift | kind => simp [members] at h

theorem toJson_inj {p q : Report} (h : p.toJson = q.toJson) : p = q :=
  members_inj (members_eq_of_toJson_eq h)

theorem indented_inj {p q : Report} (h : p.toJson.indented = q.toJson.indented) : p = q := by
  have hread := congrArg Json.ofText? h
  rw [Json.ofText?_indented p.writable_toJson, Json.ofText?_indented q.writable_toJson] at hread
  exact toJson_inj (Option.some.inj hread)

end Report

/-- Two reports that commands come to have the same text exactly when they have the same JSON, and
that is when they are the same report. So a shift by an amount and a kind alone never have the same
text, and a word with its carry never looks like a word without one. -/
theorem reports_alike_iff {c d : Command} {p q : Report} (hp : c.run = .ok p) (hq : d.run = .ok q) :
    (p.render .text = q.render .text ↔ p.render .json = q.render .json) ∧
    (p.render .json = q.render .json ↔ p = q) ∧
    (∀ s k, p = .shift s → q = .kind k → p.render .text ≠ q.render .text) ∧
    ∀ w value, p = .flagged w → q = .word value → ∀ f, p.render f ≠ q.render f := by
  have htext : p.render .text = q.render .text ↔ p = q :=
    ⟨Report.text_inj (definite_of_run hp) (definite_of_run hq), congrArg _⟩
  have hjson : p.render .json = q.render .json ↔ p = q := ⟨Report.indented_inj, congrArg _⟩
  refine ⟨htext.trans hjson.symm, hjson, ?_, ?_⟩
  · rintro s k rfl rfl h
    cases htext.mp h
  · rintro w value rfl rfl f h
    cases f with
    | text => cases htext.mp h
    | json => cases hjson.mp h

theorem reports_alike_iff_rotation :
    (immShift 3 0).run = .ok (.shift ⟨.rrx, 1⟩) ∧ (regShift 3).run = .ok (.kind .ror) ∧
      Report.render .text (.shift ⟨.rrx, 1⟩) ≠ Report.render .text (.kind .ror) ∧
    (thumbImm 0x80 true).run = .ok (.flagged ⟨0x80, true⟩) ∧
      (thumbImm12 0x80).run = .ok (.word 0x80) ∧
      ∀ f, Report.render f (.flagged ⟨0x80, true⟩) ≠ Report.render f (.word 0x80) :=
  ⟨rfl, rfl, (reports_alike_iff (c := immShift 3 0) (d := regShift 3) rfl rfl).2.2.1 _ _ rfl rfl,
    rfl, rfl,
    (reports_alike_iff (c := thumbImm 0x80 true) (d := thumbImm12 0x80) rfl rfl).2.2.2 _ _ rfl rfl⟩

end Command

end ShifterOperand
