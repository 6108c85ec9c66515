import ShifterOperand.Proofs.Json.Tree

/-!
# Written forms and their tokens

A text is a written form of a value exactly when it spells the tokens of the value. Main statement: a
text is read as a value exactly when it is a written form of it (`ofText?_eq_some_iff`).
-/
namespace ShifterOperand.Json

theorem spelled_blanks {b : List Char} {ts : List Token} {cs : List Char} (hb : Blanks b)
    (h : Spelled ts cs) : Spelled ts (b ++ cs) := by
  induction b with
  | nil => exact h
  | cons c b ih => exact .blank (hb c (by simp)) (ih fun d hd => hb d (by simp [hd]))

theorem stops_blanks {b rest : List Char} (hb : Blanks b) (hr : Stops isBare rest) :
    Stops isBare (b ++ rest) := by
  cases b with
  | nil => exact hr
  | cons c b => exact stops_cons (not_bare_of_isBlank (hb c (by simp)))

theorem blanks_of_spelled_nil {cs : List Char} (h : Spelled [] cs) : Blanks cs := by
  generalize he : ([] : List Token) = ts at h
  induction h with
  | nil =>
    intro c hc
    cases hc
  | blank hc _ ih =>
    intro d hd
    rcases List.mem_cons.mp hd with rfl | hd
    · exact hc
    · exact ih he d hd
  | mark | string | word => cases he

theorem isBare_of_isDigit {c : Char} (h : isDigit c = true) : isBare c = true := by
  simp only [isDigit, Bool.and_eq_true, decide_eq_true_eq, Char.le_def] at h
  simp only [isBare, Char.isAlphanum, Char.isDigit, ge_iff_le, Bool.or_eq_true, Bool.and_eq_true,
    decide_eq_true_eq]
  exact .inl (.inl (.inl (.inr h)))

theorem number_bare {cs : List Char} (h : Number cs) : ∀ c ∈ cs, isBare c = true := by
  obtain ⟨hs, hw, hf, he⟩ := h
  have hdigits {ds : List Char} (h : ∀ d ∈ ds, isDigit d = true) : ∀ d ∈ ds, isBare d = true :=
    fun d hd => isBare_of_isDigit (h d hd)
  simp only [List.forall_mem_append]
  refine ⟨?_, hdigits (whole_digits hw), ?_, ?_⟩
  · rcases hs with rfl | rfl <;> simp [isBare]
  · cases hf with
    | absent => simp
    | present hd => exact List.forall_mem_cons.mpr ⟨rfl, hdigits hd.2⟩
  · cases he with
    | absent => simp
    | present he hs hd =>
      refine List.forall_mem_cons.mpr ⟨?_, List.forall_mem_append.mpr ⟨?_, hdigits hd.2⟩⟩
      · rcases he with rfl | rfl <;> rfl
      · rcases hs with rfl | rfl | rfl <;> simp [isBare]

theorem bareWord?_number {cs : List Char} (h : Number cs) : bareWord? cs = some (.number cs) := by
  have hnum := isNumber_iff.mpr h
  have hne {w : List Char} (hw : isNumber w = false) : cs ≠ w := by
    intro h
    subst h
    rw [hnum] at hw
    cases hw
  rw [bareWord?, if_neg (hne rfl), if_neg (hne rfl), if_neg (hne rfl), if_pos hnum]

theorem spelled_number {cs rest : List Char} {ts : List Token} (h : Number cs)
    (hr : Stops isBare rest) (hts : Spelled ts rest) :
    Spelled (.number cs :: ts) (cs ++ rest) :=
  .word (number_bare h) (bareWord?_number h) hr hts

/-! From written forms to tokens. -/

mutual

theorem spelled_of_value {j : Json} {cs rest : List Char} {ts : List Token} :
    Value j cs → Stops isBare rest → Spelled ts rest → Spelled (j.tokens ++ ts) (cs ++ rest)
  | .null, hr, hts => .word (List.all_eq_true.mp rfl) rfl hr hts
  | .true, hr, hts => .word (List.all_eq_true.mp rfl) rfl hr hts
  | .false, hr, hts => .word (List.all_eq_true.mp rfl) rfl hr hts
  | .number h, hr, hts => spelled_number h hr hts
  | .string h, _, hts => by
    have hh := Spelled.string h hts
    simpa [tokens] using hh
  | .emptyArray hb, _, hts => by
    have hclose := spelled_blanks hb (Spelled.mark (c := ']') rfl hts)
    have hh := Spelled.mark (c := '[') rfl hclose
    simpa [tokens] using hh
  | .array h, _, hts => by
    obtain ⟨item, items, rfl, hh⟩ := spelled_of_elements h hts
    have hopen := Spelled.mark (c := '[') rfl hh
    simpa [tokens] using hopen
  | .emptyObject hb, _, hts => by
    have hclose := spelled_blanks hb (Spelled.mark (c := '\x7d') rfl hts)
    have hh := Spelled.mark (c := '\x7b') rfl hclose
    simpa [tokens] using hh
  | .object h, _, hts => by
    obtain ⟨key, j, members, rfl, hh⟩ := spelled_of_members h hts
    have hopen := Spelled.mark (c := '\x7b') rfl hh
    simpa [tokens] using hopen

theorem spelled_of_element {j : Json} {cs rest : List Char} {ts : List Token} :
    Element j cs → Stops isBare rest → Spelled ts rest → Spelled (j.tokens ++ ts) (cs ++ rest)
  | .mk hb h hb', hr, hts => by
    have hh := spelled_of_value h (stops_blanks hb' hr) (spelled_blanks hb' hts)
    simpa using spelled_blanks hb hh

theorem spelled_of_elements {items : List Json} {cs rest : List Char} {ts : List Token} :
    Elements items cs → Spelled ts rest →
      ∃ item more, items = item :: more ∧
        Spelled (item.tokens ++ (tokensOfItems more ++ ts)) (cs ++ ']' :: rest)
  | @Elements.one j _ h, hts => by
    have hclose := Spelled.mark (c := ']') rfl hts
    exact ⟨j, [], rfl, spelled_of_element h (stops_cons rfl) hclose⟩
  | @Elements.more j _ _ _ h hs, hts => by
    obtain ⟨item, more, rfl, hh⟩ := spelled_of_elements hs hts
    have hcomma := Spelled.mark (c := ',') rfl hh
    have hfirst := spelled_of_element h (stops_cons rfl) hcomma
    exact ⟨j, item :: more, rfl, by simpa [tokensOfItems] using hfirst⟩

theorem spelled_of_member {key : List Piece} {j : Json} {cs rest : List Char} {ts : List Token} :
    Member key j cs → Stops isBare rest → Spelled ts rest →
      Spelled (.string key :: .colon :: (j.tokens ++ ts)) (cs ++ rest)
  | .mk hb hk hb' h, hr, hts => by
    have hvalue := spelled_of_element h hr hts
    have hcolon := spelled_blanks hb' (Spelled.mark (c := ':') rfl hvalue)
    simpa using spelled_blanks hb (Spelled.string hk hcolon)

theorem spelled_of_members {members : List (List Piece × Json)} {cs rest : List Char}
    {ts : List Token} :
    Members members cs → Spelled ts rest →
      ∃ key j more, members = (key, j) :: more ∧
        Spelled (.string key :: .colon :: (j.tokens ++ (tokensOfMembers more ++ ts)))
          (cs ++ '\x7d' :: rest)
  | @Members.one key j _ h, hts => by
    have hclose := Spelled.mark (c := '\x7d') rfl hts
    exact ⟨key, j, [], rfl, spelled_of_member h (stops_cons rfl) hclose⟩
  | @Members.more key j _ _ _ h hs, hts => by
    obtain ⟨key', j', more, rfl, hh⟩ := spelled_of_members hs hts
    have hcomma := Spelled.mark (c := ',') rfl hh
    have hfirst := spelled_of_member h (stops_cons rfl) hcomma
    exact ⟨key, j, (key', j') :: more, rfl, by simpa [tokensOfMembers] using hfirst⟩

end

/-! From tokens to written forms. -/

/-- The written forms of a token, of which a string may have several. -/
def Token.Written : Token → List Char → Prop
  | .string ps, w => ∃ body, Body ps body ∧ w = '"' :: (body ++ ['"'])
  | .number literal, w => Number literal ∧ w = literal
  | t, w => w = t.spelling

theorem written_of_mark? {c : Char} {t : Token} (h : mark? c = some t) : t.Written [c] := by
  rcases mark?_cases h with rfl | rfl | rfl | rfl | rfl | rfl <;> cases h <;> rfl

theorem written_of_bareWord? {w : List Char} {t : Token} (h : bareWord? w = some t) :
    t.Written w := by
  unfold bareWord? at h
  split_ifs at h with hnull htrue hfalse hnumber
  · cases h
    exact hnull
  · cases h
    exact htrue
  · cases h
    exact hfalse
  · cases h
    exact ⟨isNumber_iff.mp hnumber, rfl⟩

theorem spelled_cons_inv {t : Token} {ts : List Token} {all : List Char}
    (h : Spelled (t :: ts) all) :
    ∃ b w rest, all = b ++ (w ++ rest) ∧ Blanks b ∧ t.Written w ∧ Spelled ts rest := by
  have hnil : Blanks [] := by simp [Blanks]
  generalize he : t :: ts = us at h
  induction h with
  | nil => cases he
  | @blank c us cs hc h ih =>
    obtain ⟨b, w, rest, rfl, hb, hw, hrest⟩ := ih he
    exact ⟨c :: b, w, rest, rfl, List.forall_mem_cons.mpr ⟨hc, hb⟩, hw, hrest⟩
  | @mark c t us cs hc h =>
    cases he
    exact ⟨[], [c], cs, rfl, hnil, written_of_mark? hc, h⟩
  | @string ps us body cs hb h =>
    cases he
    exact ⟨[], '"' :: (body ++ ['"']), cs, by simp, hnil, ⟨body, hb, rfl⟩, h⟩
  | @word w t us cs hw ht hs h =>
    cases he
    exact ⟨[], w, cs, rfl, hnil, written_of_bareWord? ht, h⟩

/-- The key of a member and its colon. -/
theorem spelled_key_inv {key : List Piece} {ts : List Token} {all : List Char}
    (h : Spelled (.string key :: .colon :: ts) all) :
    ∃ b ks b' rest, all = b ++ '"' :: (ks ++ '"' :: (b' ++ ':' :: rest)) ∧ Blanks b ∧ Body key ks ∧
      Blanks b' ∧ Spelled ts rest := by
  obtain ⟨b, w, afterKey, rfl, hb, ⟨ks, hks, rfl⟩, hcolon⟩ := spelled_cons_inv h
  obtain ⟨b', w, rest, rfl, hb', rfl, hrest⟩ := spelled_cons_inv hcolon
  exact ⟨b, ks, b', rest, by simp [Token.spelling], hb, hks, hb', hrest⟩

mutual

theorem value_of_spelled : (j : Json) → {ts : List Token} → {all : List Char} →
    Spelled (j.tokens ++ ts) all →
      ∃ b cs rest, all = b ++ (cs ++ rest) ∧ Blanks b ∧ Value j cs ∧ Spelled ts rest
  | .null, ts, all, h => by
    obtain ⟨b, w, rest, rfl, hb, rfl, hrest⟩ := spelled_cons_inv h
    exact ⟨b, _, rest, rfl, hb, .null, hrest⟩
  | .bool true, ts, all, h => by
    obtain ⟨b, w, rest, rfl, hb, rfl, hrest⟩ := spelled_cons_inv h
    exact ⟨b, _, rest, rfl, hb, .true, hrest⟩
  | .bool false, ts, all, h => by
    obtain ⟨b, w, rest, rfl, hb, rfl, hrest⟩ := spelled_cons_inv h
    exact ⟨b, _, rest, rfl, hb, .false, hrest⟩
  | .number literal, ts, all, h => by
    obtain ⟨b, w, rest, rfl, hb, ⟨hnum, rfl⟩, hrest⟩ := spelled_cons_inv h
    exact ⟨b, _, rest, rfl, hb, .number hnum, hrest⟩
  | .string ps, ts, all, h => by
    obtain ⟨b, w, rest, rfl, hb, ⟨body, hbody, rfl⟩, hrest⟩ := spelled_cons_inv h
    exact ⟨b, _, rest, rfl, hb, .string hbody, hrest⟩
  | .array [], ts, all, h => by
    obtain ⟨b, w, inner, rfl, hb, rfl, hinner⟩ := spelled_cons_inv h
    obtain ⟨b', w', rest, rfl, hb', rfl, hrest⟩ := spelled_cons_inv hinner
    exact ⟨b, _, rest, by simp [Token.spelling], hb, .emptyArray hb', hrest⟩
  | .array (item :: more), ts, all, h => by
    rw [tokens, List.cons_append, List.append_assoc] at h
    obtain ⟨b, w, inner, rfl, hb, rfl, hinner⟩ := spelled_cons_inv h
    obtain ⟨b', cs, tail, rfl, hb', hitem, htail⟩ := value_of_spelled item hinner
    obtain ⟨b'', ds, rest, rfl, hb'', hrest, helems⟩ := items_of_spelled more htail
    have helements := helems item (b' ++ (cs ++ b'')) (.mk hb' hitem hb'')
    exact ⟨b, _, rest, by simp [Token.spelling], hb, .array helements, hrest⟩
  | .object [], ts, all, h => by
    obtain ⟨b, w, inner, rfl, hb, rfl, hinner⟩ := spelled_cons_inv h
    obtain ⟨b', w', rest, rfl, hb', rfl, hrest⟩ := spelled_cons_inv hinner
    exact ⟨b, _, rest, by simp [Token.spelling], hb, .emptyObject hb', hrest⟩
  | .object ((key, j) :: more), ts, all, h => by
    rw [tokens, List.cons_append, List.cons_append, List.cons_append, List.append_assoc] at h
    obtain ⟨b, w, inner, rfl, hb, rfl, hinner⟩ := spelled_cons_inv h
    obtain ⟨k, ks, k', afterColon, rfl, hk, hks, hk', hcolon⟩ := spelled_key_inv hinner
    obtain ⟨b', cs, tail, rfl, hb', hvalue, htail⟩ := value_of_spelled j hcolon
    obtain ⟨b'', ds, rest, rfl, hb'', hrest, hmems⟩ := members_of_spelled more htail
    have hmembers := hmems key j _ (.mk hk hks hk' (.mk hb' hvalue hb''))
    exact ⟨b, _, rest, by simp [Token.spelling], hb, .object hmembers, hrest⟩

/-- The blanks before the rest of an array belong to the item before them. -/
theorem items_of_spelled : (items : List Json) → {ts : List Token} → {all : List Char} →
    Spelled (tokensOfItems items ++ ts) all →
      ∃ b ds rest, all = b ++ (ds ++ ']' :: rest) ∧ Blanks b ∧ Spelled ts rest ∧
        ∀ j cs, Element j cs → Elements (j :: items) (cs ++ ds)
  | [], ts, all, h => by
    obtain ⟨b, w, rest, rfl, hb, rfl, hrest⟩ := spelled_cons_inv h
    exact ⟨b, [], rest, rfl, hb, hrest, fun j cs hj => by simpa using .one hj⟩
  | item :: more, ts, all, h => by
    rw [tokensOfItems, List.cons_append, List.append_assoc] at h
    obtain ⟨b, w, inner, rfl, hb, rfl, hinner⟩ := spelled_cons_inv h
    obtain ⟨b', cs, tail, rfl, hb', hitem, htail⟩ := value_of_spelled item hinner
    obtain ⟨b'', ds, rest, rfl, hb'', hrest, helems⟩ := items_of_spelled more htail
    have helements := helems item (b' ++ (cs ++ b'')) (.mk hb' hitem hb'')
    exact ⟨b, _, rest, by simp [Token.spelling], hb, hrest, fun j cs hj => .more hj helements⟩

theorem members_of_spelled : (members : List (List Piece × Json)) → {ts : List Token} →
    {all : List Char} → Spelled (tokensOfMembers members ++ ts) all →
      ∃ b ds rest, all = b ++ (ds ++ '\x7d' :: rest) ∧ Blanks b ∧ Spelled ts rest ∧
        ∀ key j cs, Member key j cs → Members ((key, j) :: members) (cs ++ ds)
  | [], ts, all, h => by
    obtain ⟨b, w, rest, rfl, hb, rfl, hrest⟩ := spelled_cons_inv h
    exact ⟨b, [], rest, rfl, hb, hrest, fun key j cs hj => by simpa using .one hj⟩
  | (key, j) :: more, ts, all, h => by
    rw [tokensOfMembers, List.cons_append, List.cons_append, List.cons_append,
      List.append_assoc] at h
    obtain ⟨b, w, inner, rfl, hb, rfl, hinner⟩ := spelled_cons_inv h
    obtain ⟨k, ks, k', afterColon, rfl, hk, hks, hk', hcolon⟩ := spelled_key_inv hinner
    obtain ⟨b', cs, tail, rfl, hb', hvalue, htail⟩ := value_of_spelled j hcolon
    obtain ⟨b'', ds, rest, rfl, hb'', hrest, hmems⟩ := members_of_spelled more htail
    have hmembers := hmems key j _ (.mk hk hks hk' (.mk hb' hvalue hb''))
    exact ⟨b, _, rest, by simp [Token.spelling], hb, hrest,
      fun _ _ _ hfirst => .more hfirst hmembers⟩

end

theorem spelled_tokens_iff {j : Json} {cs : List Char} : Spelled j.tokens cs ↔ Element j cs := by
  constructor
  · intro h
    rw [← List.append_nil j.tokens] at h
    obtain ⟨b, cs, rest, rfl, hb, hvalue, hrest⟩ := value_of_spelled j h
    exact .mk hb hvalue (blanks_of_spelled_nil hrest)
  · intro h
    simpa using spelled_of_element h (stops_nil isBare) .nil

/-- A text is read as the value it is a written form of, and is refused when it is one of none. -/
theorem ofText?_eq_some_iff {s : String} {j : Json} : ofText? s = some j ↔ Element j s.toList := by
  rw [ofText?, Option.bind_eq_bind, Option.bind_eq_some_iff, ← spelled_tokens_iff]
  constructor
  · intro h
    obtain ⟨ts, hts, hj⟩ := h
    rw [← ofTokens?_eq_some_iff.mp hj]
    exact tokens?_eq_some_iff.mp hts
  · intro h
    exact ⟨j.tokens, tokens?_eq_some_iff.mpr h, ofTokens?_eq_some_iff.mpr rfl⟩

end ShifterOperand.Json
