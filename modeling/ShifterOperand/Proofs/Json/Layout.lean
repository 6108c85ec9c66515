import Mathlib.Data.List.Chain
import ShifterOperand.Json.Layout
import ShifterOperand.Proofs.Json.Written

/-!
# What the writers write

The compact form and the indented form both write the tokens of a value one after the other and differ
in the blanks between them. Main statement: both are written forms of the value, and reading them gives
it back, if each of its tokens is a written form of itself. A number has to be a literal for that, and
a string may hold no control character as it is.
-/
namespace ShifterOperand.Json

/-- The tokens, each as it is spelled, with any blanks around them. -/
inductive Loose : List Token → List Char → Prop
  | nil {b : List Char} (hb : Blanks b) : Loose [] b
  | cons {t : Token} {ts : List Token} {b cs : List Char} (hb : Blanks b) (h : Loose ts cs) :
      Loose (t :: ts) (b ++ (t.spelling ++ cs))

theorem blanks_nil : Blanks [] := by
  intro c hc
  cases hc

theorem blanks_lineBreak (depth : ℕ) : Blanks (lineBreak depth) := by
  intro c hc
  rcases List.mem_cons.mp hc with rfl | hc
  · rfl
  · rw [List.eq_of_mem_replicate hc]
    rfl

theorem Loose.token (t : Token) {ts : List Token} {cs : List Char} (h : Loose ts cs) :
    Loose (t :: ts) (t.spelling ++ cs) :=
  .cons blanks_nil h

theorem Loose.blanks {b : List Char} {ts : List Token} {cs : List Char} (hb : Blanks b)
    (h : Loose ts cs) : Loose ts (b ++ cs) := by
  have happend {b' : List Char} (hb' : Blanks b') : Blanks (b ++ b') :=
    List.forall_mem_append.mpr ⟨hb, hb'⟩
  cases h with
  | nil hb' => exact .nil (happend hb')
  | cons hb' h =>
    rw [← List.append_assoc]
    exact .cons (happend hb') h

theorem Loose.append_blanks {b : List Char} {ts : List Token} {cs : List Char} (h : Loose ts cs)
    (hb : Blanks b) : Loose ts (cs ++ b) := by
  induction h with
  | nil hb' => exact .nil (List.forall_mem_append.mpr ⟨hb', hb⟩)
  | cons hb' _ ih =>
    rw [List.append_assoc, List.append_assoc]
    exact .cons hb' ih

theorem Loose.ne_nil {t : Token} {ts : List Token} {cs : List Char} (h : Loose (t :: ts) cs)
    (ht : t.spelling ≠ []) : cs ≠ [] := by
  cases h
  simp [ht]

theorem loose_flatMap_spelling (ts : List Token) : Loose ts (ts.flatMap Token.spelling) := by
  induction ts with
  | nil => exact .nil blanks_nil
  | cons t ts ih => exact .token t ih

theorem loose_layout (depth : ℕ) (ts : List Token) : Loose ts (layout depth ts) := by
  induction depth, ts using layout.induct with
  | case1 depth => exact .nil blanks_nil
  | case2 depth rest ih => exact .token .openArray (.token .closeArray ih)
  | case3 depth rest ih => exact .token .openObject (.token .closeObject ih)
  | case4 depth rest hne ih =>
    rw [layout]
    · exact .token .openArray (.blanks (blanks_lineBreak _) ih)
    · exact hne
  | case5 depth rest hne ih =>
    rw [layout]
    · exact .token .openObject (.blanks (blanks_lineBreak _) ih)
    · exact hne
  | case6 depth rest ih => exact .cons (blanks_lineBreak _) ih
  | case7 depth rest ih => exact .cons (blanks_lineBreak _) ih
  | case8 depth rest ih => exact .token .comma (.blanks (blanks_lineBreak _) ih)
  | case9 depth rest ih =>
    have hblank : Blanks [' '] := by
      intro c hc
      rw [List.mem_singleton.mp hc]
      rfl
    exact .token .colon (.blanks hblank ih)
  | case10 depth t rest _ _ _ _ _ _ _ _ ih =>
    rw [layout]
    · exact .token t ih
    all_goals assumption

/-- The punctuation marks, which no other token runs into. -/
def Token.isMark : Token → Bool
  | openArray | closeArray | openObject | closeObject | comma | colon => true
  | null | bool _ | number _ | string _ => false

/-- Of two tokens in a row, one is a mark. -/
def Parted (ts : List Token) : Prop := ts.IsChain fun t u => t.isMark = true ∨ u.isMark = true

def MarkFirst (ts : List Token) : Prop := ∀ t ∈ ts.head?, t.isMark = true

theorem parted_cons_mark {t : Token} {ts : List Token} (ht : t.isMark = true) (h : Parted ts) :
    Parted (t :: ts) :=
  List.isChain_cons.mpr ⟨fun _ _ => .inl ht, h⟩

theorem parted_cons {ts : List Token} (t : Token) (hf : MarkFirst ts) (h : Parted ts) :
    Parted (t :: ts) :=
  List.isChain_cons.mpr ⟨fun u hu => .inr (hf u hu), h⟩

theorem markFirst_cons {t : Token} {ts : List Token} (ht : t.isMark = true) :
    MarkFirst (t :: ts) := by
  intro u hu
  cases hu
  exact ht

mutual

theorem parted_tokens_append : (j : Json) → {ts : List Token} → MarkFirst ts → Parted ts →
    Parted (j.tokens ++ ts)
  | .null, _, hf, h => parted_cons .null hf h
  | .bool b, _, hf, h => parted_cons (.bool b) hf h
  | .number literal, _, hf, h => parted_cons (.number literal) hf h
  | .string ps, _, hf, h => parted_cons (.string ps) hf h
  | .array [], _, _, h => parted_cons_mark rfl (parted_cons_mark rfl h)
  | .array (item :: rest), ts, _, h => by
    obtain ⟨hf, htail⟩ := parted_tokensOfItems_append rest h
    rw [tokens, List.cons_append, List.append_assoc]
    exact parted_cons_mark rfl (parted_tokens_append item hf htail)
  | .object [], _, _, h => parted_cons_mark rfl (parted_cons_mark rfl h)
  | .object ((key, j) :: rest), ts, _, h => by
    obtain ⟨hf, htail⟩ := parted_tokensOfMembers_append rest h
    have hvalue := parted_cons_mark (t := .colon) rfl (parted_tokens_append j hf htail)
    rw [tokens, List.cons_append, List.cons_append, List.cons_append, List.append_assoc]
    exact parted_cons_mark rfl (parted_cons (.string key) (markFirst_cons rfl) hvalue)

theorem parted_tokensOfItems_append : (items : List Json) → {ts : List Token} → Parted ts →
    MarkFirst (tokensOfItems items ++ ts) ∧ Parted (tokensOfItems items ++ ts)
  | [], _, h => ⟨markFirst_cons rfl, parted_cons_mark rfl h⟩
  | item :: rest, ts, h => by
    obtain ⟨hf, htail⟩ := parted_tokensOfItems_append rest h
    rw [tokensOfItems, List.cons_append, List.append_assoc]
    exact ⟨markFirst_cons rfl, parted_cons_mark rfl (parted_tokens_append item hf htail)⟩

theorem parted_tokensOfMembers_append : (members : List (List Piece × Json)) → {ts : List Token} →
    Parted ts → MarkFirst (tokensOfMembers members ++ ts) ∧ Parted (tokensOfMembers members ++ ts)
  | [], _, h => ⟨markFirst_cons rfl, parted_cons_mark rfl h⟩
  | (key, j) :: rest, ts, h => by
    obtain ⟨hf, htail⟩ := parted_tokensOfMembers_append rest h
    have hvalue := parted_cons_mark (t := .colon) rfl (parted_tokens_append j hf htail)
    rw [tokensOfMembers, List.cons_append, List.cons_append, List.cons_append, List.append_assoc]
    exact ⟨markFirst_cons rfl,
      parted_cons_mark rfl (parted_cons (.string key) (markFirst_cons rfl) hvalue)⟩

end

theorem parted_tokens (j : Json) : Parted j.tokens := by
  have h := @parted_tokens_append j [] (fun _ ht => nomatch ht) List.isChain_nil
  rwa [List.append_nil] at h

/-- The value can be written: the spelling of each of its tokens is a written form of the token. -/
def Writable (j : Json) : Prop := ∀ t ∈ j.tokens, t.Written t.spelling

theorem stops_loose {ts : List Token} {cs : List Char} (hf : MarkFirst ts) (h : Loose ts cs) :
    Stops isBare cs := by
  cases h with
  | nil hb =>
    rw [← List.append_nil cs]
    exact stops_blanks hb (stops_nil _)
  | @cons t ts b cs hb h =>
    have ht : t.isMark = true := hf t rfl
    refine stops_blanks hb ?_
    cases t with
    | openArray | closeArray | openObject | closeObject | comma | colon => exact stops_cons rfl
    | null | bool | number | string => cases ht

/-- A bare word ends where the text of a mark begins. -/
theorem spelled_token {t : Token} {ts : List Token} {cs : List Char} (hw : t.Written t.spelling)
    (hp : Parted (t :: ts)) (hl : Loose ts cs) (h : Spelled ts cs) :
    Spelled (t :: ts) (t.spelling ++ cs) := by
  have hstops (ht : t.isMark = false) : Stops isBare cs := by
    refine stops_loose (fun u hu => ?_) hl
    rcases (List.isChain_cons.mp hp).1 u hu with hm | hm
    · rw [ht] at hm
      cases hm
    · exact hm
  cases t with
  | null => exact .word (List.all_eq_true.mp rfl) rfl (hstops rfl) h
  | bool b => cases b <;> exact .word (List.all_eq_true.mp rfl) rfl (hstops rfl) h
  | number literal => exact spelled_number hw.1 (hstops rfl) h
  | string ps =>
    obtain ⟨body, hbody, hspelling⟩ := hw
    rw [hspelling, List.cons_append, List.append_assoc]
    exact .string hbody h
  | openArray | closeArray | openObject | closeObject | comma | colon => exact .mark rfl h

theorem spelled_of_loose {ts : List Token} {cs : List Char} (hl : Loose ts cs) (hp : Parted ts)
    (hw : ∀ t ∈ ts, t.Written t.spelling) : Spelled ts cs := by
  induction hl with
  | @nil b hb =>
    rw [← List.append_nil b]
    exact spelled_blanks hb .nil
  | @cons t ts b cs hb h ih =>
    obtain ⟨ht, hts⟩ := List.forall_mem_cons.mp hw
    exact spelled_blanks hb (spelled_token ht hp h (ih (List.isChain_cons.mp hp).2 hts))

variable {j : Json}

theorem ofText?_of_loose {s : String} (hl : Loose j.tokens s.toList) (hw : j.Writable) :
    ofText? s = some j :=
  ofText?_eq_some_iff.mpr (spelled_tokens_iff.mp (spelled_of_loose hl (parted_tokens j) hw))

theorem ofText?_compact (hw : j.Writable) : ofText? j.compact = some j := by
  refine ofText?_of_loose ?_ hw
  rw [compact, String.toList_ofList]
  exact loose_flatMap_spelling j.tokens

theorem ofText?_indented (hw : j.Writable) : ofText? j.indented = some j := by
  refine ofText?_of_loose ?_ hw
  rw [indented, String.toList_ofList]
  exact loose_layout 0 j.tokens

/-- The blanks may follow that end a line. -/
theorem ofText?_indented_append (hw : j.Writable) {b : String} (hb : Blanks b.toList) :
    ofText? (j.indented ++ b) = some j := by
  refine ofText?_of_loose ?_ hw
  rw [String.toList_append, indented, String.toList_ofList]
  exact (loose_layout 0 j.tokens).append_blanks hb

/-! Tokens that are written forms of themselves. -/

/-- A text without control characters, which a string holds as it is. -/
def Printable (s : String) : Prop := ∀ c ∈ s.toList, ' ' ≤ c

instance (s : String) : Decidable (Printable s) :=
  List.decidableBAll (fun c => ' ' ≤ c) s.toList

theorem body_char {c : Char} (hc : ' ' ≤ c) {ps : List Piece} {cs : List Char} (h : Body ps cs) :
    Body (.char c :: ps) ((Piece.char c).spelling ++ cs) := by
  have hshort {e d : Char} (hmem : (e, d) ∈ shortEscapes) :
      Body (.char d :: ps) (['\\', e] ++ cs) := .short hmem h
  simp only [Piece.spelling]
  split_ifs with hquote hslash hb hf hn hr ht hlow
  · subst hquote
    exact hshort (by simp [shortEscapes])
  · subst hslash
    exact hshort (by simp [shortEscapes])
  · subst hb
    exact hshort (by simp [shortEscapes])
  · subst hf
    exact hshort (by simp [shortEscapes])
  · subst hn
    exact hshort (by simp [shortEscapes])
  · subst hr
    exact hshort (by simp [shortEscapes])
  · subst ht
    exact hshort (by simp [shortEscapes])
  · exact absurd hlow (Char.not_lt.mpr hc)
  · exact .plain hquote hslash hc h

theorem body_map_char {cs : List Char} (h : ∀ c ∈ cs, ' ' ≤ c) :
    Body (cs.map .char) ((cs.map .char).flatMap Piece.spelling) := by
  induction cs with
  | nil => exact .nil
  | cons c cs ih =>
    obtain ⟨hc, hcs⟩ := List.forall_mem_cons.mp h
    exact body_char hc (ih hcs)

theorem written_quote {s : String} (h : Printable s) :
    Token.Written (.string (quote s)) (Token.string (quote s)).spelling :=
  ⟨_, body_map_char h, rfl⟩

theorem exists_toDigits_eq_cons {n : ℕ} (h : n ≠ 0) :
    ∃ c cs, Nat.toDigits 10 n = c :: cs ∧ c ≠ '0' := by
  induction n using Nat.strong_induction_on with
  | _ n ih =>
    by_cases hlt : n < 10
    · have hall : ∀ d < 10, d ≠ 0 → d.digitChar ≠ '0' := by decide
      exact ⟨_, [], Nat.toDigits_of_lt_base hlt, hall n hlt h⟩
    · obtain ⟨c, cs, hdigits, hc⟩ := ih (n / 10) (by omega) (by omega)
      rw [Nat.toDigits_of_base_le (by omega) (Nat.not_lt.mp hlt), hdigits]
      exact ⟨c, _, rfl, hc⟩

/-- The decimal digits of a number begin with zero for zero alone. -/
theorem whole_toDigits (n : ℕ) : Whole (Nat.toDigits 10 n) := by
  by_cases h : n = 0
  · subst h
    exact .zero
  have hdigit : ∀ c ∈ Nat.toDigits 10 n, isDigit c = true := by
    intro c hc
    have hc := Nat.isDigit_of_mem_toDigits (by omega) (by omega) hc
    simpa [Char.isDigit, isDigit, Char.le_def] using hc
  obtain ⟨c, cs, hdigits, hne⟩ := exists_toDigits_eq_cons h
  rw [hdigits] at hdigit ⊢
  obtain ⟨hc, hcs⟩ := List.forall_mem_cons.mp hdigit
  exact .nonzero hc hne hcs

theorem written_toDigits (n : ℕ) :
    Token.Written (.number (Nat.toDigits 10 n)) (Token.number (Nat.toDigits 10 n)).spelling :=
  ⟨number_of_whole (whole_toDigits n), rfl⟩

end ShifterOperand.Json
