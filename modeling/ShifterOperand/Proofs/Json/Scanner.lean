import ShifterOperand.Proofs.Json.Grammar

/-!
# What the scanner accepts

`Spelled ts cs` says that a text is a sequence of tokens with blanks between them, and `Scan.Leads`
what may still come at each place of the scanner for its tokens to be those. One character takes a
place to another one without a change to what it leads to, so that the scanner gives exactly the tokens
that the text spells (`tokens?_eq_some_iff`).
-/
namespace ShifterOperand.Json

/-- The tokens of a text, told apart by blanks or by themselves. -/
inductive Spelled : List Token → List Char → Prop
  | nil : Spelled [] []
  | blank {c : Char} {ts : List Token} {cs : List Char} (hc : isBlank c = true)
      (h : Spelled ts cs) : Spelled ts (c :: cs)
  | mark {c : Char} {t : Token} {ts : List Token} {cs : List Char} (hc : mark? c = some t)
      (h : Spelled ts cs) : Spelled (t :: ts) (c :: cs)
  | string {ps : List Piece} {ts : List Token} {body cs : List Char} (hb : Body ps body)
      (h : Spelled ts cs) : Spelled (.string ps :: ts) ('"' :: (body ++ '"' :: cs))
  | word {w : List Char} {t : Token} {ts : List Token} {cs : List Char}
      (hw : ∀ c ∈ w, isBare c = true) (ht : bareWord? w = some t) (hs : Stops isBare cs)
      (h : Spelled ts cs) : Spelled (t :: ts) (w ++ cs)

/-- What may come within a string of which these pieces have been read, the latest first. -/
def Inside (pieces : List Piece) (ts : List Token) (cs : List Char) : Prop :=
  ∃ ps body rest us, cs = body ++ '"' :: rest ∧ Body ps body ∧
    ts = .string (pieces.reverse ++ ps) :: us ∧ Spelled us rest

/-- What may come at a place, for these tokens to be added to those that are done. -/
def Place.Leads : Place → List Token → List Char → Prop
  | .between, ts, cs => Spelled ts cs
  | .bare word, ts, cs =>
    ∃ more rest t us, cs = more ++ rest ∧ (∀ c ∈ more, isBare c = true) ∧ Stops isBare rest ∧
      bareWord? (word.reverse ++ more) = some t ∧ ts = t :: us ∧ Spelled us rest
  | .quoted pieces, ts, cs => Inside pieces ts cs
  | .escape pieces, ts, cs => Inside pieces ts ('\\' :: cs)
  | .unit pieces more value, ts, cs =>
    ∃ ds v rest, cs = ds ++ rest ∧ ds.length = more + 1 ∧ Hex value ds v ∧
      Inside (.escaped (UInt16.ofNat v) :: pieces) ts rest

/-- All tokens of a text of which this much has been read, if the rest is as given. -/
def Scan.Leads (s : Scan) (ts : List Token) (cs : List Char) : Prop :=
  ∃ us, ts = s.done.reverse ++ us ∧ s.place.Leads us cs

theorem isBlank_cases {c : Char} (h : isBlank c = true) :
    c = ' ' ∨ c = '\t' ∨ c = '\n' ∨ c = '\r' := by
  simpa [isBlank, or_assoc] using h

theorem not_bare_of_isBlank {c : Char} (h : isBlank c = true) : isBare c = false := by
  rcases isBlank_cases h with rfl | rfl | rfl | rfl <;> rfl

theorem mark?_cases {c : Char} {t : Token} (h : mark? c = some t) :
    c = '[' ∨ c = ']' ∨ c = '\x7b' ∨ c = '\x7d' ∨ c = ',' ∨ c = ':' := by
  unfold mark? at h
  split_ifs at h <;> tauto

theorem not_bare_of_mark? {c : Char} {t : Token} (h : mark? c = some t) : isBare c = false := by
  rcases mark?_cases h with rfl | rfl | rfl | rfl | rfl | rfl <;> rfl

theorem not_blank_of_mark? {c : Char} {t : Token} (h : mark? c = some t) : isBlank c = false := by
  rcases mark?_cases h with rfl | rfl | rfl | rfl | rfl | rfl <;> rfl

theorem ne_nil_of_bareWord? {w : List Char} {t : Token} (h : bareWord? w = some t) : w ≠ [] := by
  intro hw
  subst hw
  cases h

theorem spelled_nil_iff {ts : List Token} : Spelled ts [] ↔ ts = [] := by
  constructor
  · generalize he : ([] : List Char) = cs
    intro h
    cases h with
    | nil => rfl
    | blank | mark | string => cases he
    | word _ ht =>
      exact absurd (List.append_eq_nil_iff.mp he.symm).1 (ne_nil_of_bareWord? ht)
  · intro h
    subst h
    exact .nil

theorem spelled_cons_iff {ts : List Token} {c : Char} {cs : List Char} :
    Spelled ts (c :: cs) ↔
      (isBlank c = true ∧ Spelled ts cs) ∨
      (∃ t us, mark? c = some t ∧ ts = t :: us ∧ Spelled us cs) ∨
      (c = '"' ∧ Inside [] ts cs) ∨ (isBare c = true ∧ (Place.bare [c]).Leads ts cs) := by
  constructor
  · generalize he : c :: cs = all
    intro h
    cases h with
    | nil => cases he
    | blank hc h =>
      cases he
      exact .inl ⟨hc, h⟩
    | mark hc h =>
      cases he
      exact .inr (.inl ⟨_, _, hc, rfl, h⟩)
    | string hb h =>
      cases he
      exact .inr (.inr (.inl ⟨rfl, _, _, _, _, rfl, hb, rfl, h⟩))
    | @word w t us rest hw ht hs h =>
      cases w with
      | nil => exact absurd rfl (ne_nil_of_bareWord? ht)
      | cons d more =>
        cases he
        exact .inr (.inr (.inr ⟨hw c (by simp), more, rest, t, us, rfl,
          fun d hd => hw d (by simp [hd]), hs, ht, rfl, h⟩))
  · intro h
    rcases h with ⟨hc, h⟩ | ⟨t, us, hc, rfl, h⟩ | ⟨rfl, ps, body, rest, us, rfl, hb, rfl, h⟩ |
      ⟨hc, more, rest, t, us, rfl, hm, hs, ht, rfl, h⟩
    · exact .blank hc h
    · exact .mark hc h
    · exact .string hb h
    · refine @Spelled.word (c :: more) t us rest ?_ ht hs h
      intro d hd
      rcases List.mem_cons.mp hd with rfl | hd
      · exact hc
      · exact hm d hd

theorem mem_shortEscapes_iff {e c : Char} : (e, c) ∈ shortEscapes ↔ shortEscape? e = some c := by
  simp only [shortEscapes, List.mem_cons, Prod.mk.injEq, List.not_mem_nil, or_false]
  unfold shortEscape?
  split_ifs <;> simp_all [eq_comm]

/-- What comes within a string: its end, a character as it is, or an escape. -/
theorem inside_iff {pieces : List Piece} {ts : List Token} {cs : List Char} :
    Inside pieces ts cs ↔
      (∃ rest us, cs = '"' :: rest ∧ ts = .string pieces.reverse :: us ∧ Spelled us rest) ∨
      (∃ c rest, cs = c :: rest ∧ c ≠ '"' ∧ c ≠ '\\' ∧ ' ' ≤ c ∧
        Inside (.char c :: pieces) ts rest) ∨
      (∃ e c rest, cs = '\\' :: e :: rest ∧ shortEscape? e = some c ∧
        Inside (.char c :: pieces) ts rest) ∨
      ∃ ds v rest, cs = '\\' :: 'u' :: (ds ++ rest) ∧ ds.length = 4 ∧ Hex 0 ds v ∧
        Inside (.escaped (UInt16.ofNat v) :: pieces) ts rest := by
  constructor
  · intro h
    obtain ⟨ps, body, rest, us, rfl, hb, rfl, h⟩ := h
    cases hb with
    | nil => exact .inl ⟨rest, us, rfl, by rw [List.append_nil], h⟩
    | plain hq hs hc hb =>
      exact .inr (.inl ⟨_, _, rfl, hq, hs, hc, _, _, rest, us, rfl, hb, by simp, h⟩)
    | short he hb =>
      exact .inr (.inr (.inl ⟨_, _, _, rfl, mem_shortEscapes_iff.mp he, _, _, rest, us, rfl, hb,
        by simp, h⟩))
    | unit hl hv hb =>
      exact .inr (.inr (.inr ⟨_, _, _, by rw [List.cons_append, List.cons_append, List.append_assoc],
        hl, hv, _, _, rest, us, rfl, hb, by simp, h⟩))
  · intro h
    rcases h with ⟨rest, us, rfl, rfl, h⟩ | ⟨c, rest, rfl, hq, hs, hc, ps, body, rest, us, rfl, hb, rfl, h⟩ |
      ⟨e, c, rest, rfl, he, ps, body, rest, us, rfl, hb, rfl, h⟩ |
      ⟨ds, v, rest, rfl, hl, hv, ps, body, rest, us, rfl, hb, rfl, h⟩
    · exact ⟨[], [], rest, us, rfl, .nil, by rw [List.append_nil], h⟩
    · exact ⟨_, _, rest, us, rfl, .plain hq hs hc hb, by simp, h⟩
    · exact ⟨_, _, rest, us, rfl, .short (mem_shortEscapes_iff.mpr he) hb, by simp, h⟩
    · exact ⟨_, _, rest, us, by simp, .unit hl hv hb, by simp, h⟩

theorem mark?_eq_none {c : Char} (h : isBlank c = true ∨ isBare c = true) : mark? c = none := by
  by_contra hne
  obtain ⟨t, ht⟩ := Option.ne_none_iff_exists'.mp hne
  rcases h with h | h
  · rw [not_blank_of_mark? ht] at h
    cases h
  · rw [not_bare_of_mark? ht] at h
    cases h

theorem leads_fresh (done ts : List Token) (c : Char) (cs : List Char) :
    Scan.Leads ⟨done, .between⟩ ts (c :: cs) ↔ ∃ s, Scan.fresh done c = some s ∧ s.Leads ts cs := by
  simp only [Scan.Leads, Place.Leads, spelled_cons_iff]
  unfold Scan.fresh
  split_ifs with hblank hquote hbare
  · have hquote : c ≠ '"' := by
      intro h
      subst h
      cases hblank
    simp [hblank, mark?_eq_none (.inl hblank), hquote, not_bare_of_isBlank hblank]
  · subst hquote
    have hmark : mark? '"' = none := rfl
    have hbare : isBare '"' = false := rfl
    simp [hblank, hmark, hbare]
  · simp [hblank, mark?_eq_none (.inr hbare), hquote, hbare]
  · cases hmark : mark? c with
    | none => simp [hblank, hquote, hbare]
    | some t =>
      simp only [hblank, hquote, hbare, Option.some.injEq, false_and, false_or, or_false,
        Bool.false_eq_true]
      constructor
      · intro h
        obtain ⟨_, rfl, t', us, rfl, rfl, h⟩ := h
        exact ⟨_, rfl, us, by simp, h⟩
      · intro h
        obtain ⟨s, hs, us, rfl, h⟩ := h
        cases hs
        exact ⟨t :: us, by simp, t, us, rfl, rfl, h⟩

/-- One more character of a bare word. -/
theorem bare_leads_of_isBare {word : List Char} {ts : List Token} {c : Char} {cs : List Char}
    (hc : isBare c = true) :
    (Place.bare word).Leads ts (c :: cs) ↔ (Place.bare (c :: word)).Leads ts cs := by
  constructor
  · intro h
    obtain ⟨more, rest, t, us, he, hm, hs, ht, rfl, h⟩ := h
    cases more with
    | nil =>
      cases he
      rw [hs c rfl] at hc
      cases hc
    | cons d more =>
      cases he
      exact ⟨more, rest, t, us, rfl, fun d hd => hm d (by simp [hd]), hs, by simpa using ht, rfl, h⟩
  · intro h
    obtain ⟨more, rest, t, us, rfl, hm, hs, ht, rfl, h⟩ := h
    refine ⟨c :: more, rest, t, us, rfl, ?_, hs, by simpa using ht, rfl, h⟩
    intro d hd
    rcases List.mem_cons.mp hd with rfl | hd
    · exact hc
    · exact hm d hd

/-- The end of a bare word, before another character or at the end of the text. -/
theorem bare_leads_of_stops {word : List Char} {ts : List Token} {cs : List Char}
    (hs : Stops isBare cs) :
    (Place.bare word).Leads ts cs ↔
      ∃ t us, bareWord? word.reverse = some t ∧ ts = t :: us ∧ Spelled us cs := by
  constructor
  · intro h
    obtain ⟨more, rest, t, us, rfl, hm, -, ht, rfl, h⟩ := h
    cases more with
    | nil => exact ⟨t, us, by simpa using ht, rfl, h⟩
    | cons d more =>
      have hd := hs d rfl
      rw [hm d (by simp)] at hd
      cases hd
  · intro h
    obtain ⟨t, us, ht, rfl, h⟩ := h
    exact ⟨[], cs, t, us, rfl, by simp, hs, by simpa using ht, rfl, h⟩

theorem leads_bare (done ts : List Token) (word : List Char) (c : Char) (cs : List Char) :
    Scan.Leads ⟨done, .bare word⟩ ts (c :: cs) ↔
      ∃ s, Scan.next ⟨done, .bare word⟩ c = some s ∧ s.Leads ts cs := by
  by_cases hc : isBare c = true
  · simp [Scan.Leads, Scan.next, hc, bare_leads_of_isBare hc]
  · have hs : Stops isBare (c :: cs) := stops_cons (by simpa using hc)
    simp only [Scan.next, if_neg hc, Option.bind_eq_bind, Option.bind_eq_some_iff]
    constructor
    · intro h
      obtain ⟨us, rfl, h⟩ := h
      obtain ⟨t, us, ht, rfl, hus⟩ := (bare_leads_of_stops hs).mp h
      have hleads : Scan.Leads ⟨t :: done, .between⟩ (done.reverse ++ t :: us) (c :: cs) :=
        ⟨us, by simp, hus⟩
      obtain ⟨s, hfresh, hrest⟩ := (leads_fresh _ _ c cs).mp hleads
      exact ⟨s, ⟨t, ht, hfresh⟩, hrest⟩
    · intro h
      obtain ⟨s, ⟨t, ht, hfresh⟩, hrest⟩ := h
      obtain ⟨us, rfl, hus⟩ := (leads_fresh (t :: done) ts c cs).mpr ⟨s, hfresh, hrest⟩
      exact ⟨t :: us, by simp, (bare_leads_of_stops hs).mpr ⟨t, us, ht, rfl, hus⟩⟩

theorem inside_quote_iff {pieces : List Piece} {ts : List Token} {cs : List Char} :
    Inside pieces ts ('"' :: cs) ↔ ∃ us, ts = .string pieces.reverse :: us ∧ Spelled us cs := by
  rw [inside_iff]
  simp

theorem inside_char_iff {pieces : List Piece} {ts : List Token} {c : Char} {cs : List Char}
    (hq : c ≠ '"') (hs : c ≠ '\\') :
    Inside pieces ts (c :: cs) ↔ ' ' ≤ c ∧ Inside (.char c :: pieces) ts cs := by
  rw [inside_iff]
  simp [and_assoc, hq, hs]

theorem inside_escape_iff {pieces : List Piece} {ts : List Token} {e : Char} {cs : List Char}
    (hu : e ≠ 'u') :
    Inside pieces ts ('\\' :: e :: cs) ↔
      ∃ c, shortEscape? e = some c ∧ Inside (.char c :: pieces) ts cs := by
  rw [inside_iff]
  simp [and_assoc, hu]

theorem inside_unit_iff {pieces : List Piece} {ts : List Token} {cs : List Char} :
    Inside pieces ts ('\\' :: 'u' :: cs) ↔ (Place.unit pieces 3 0).Leads ts cs := by
  have hu : shortEscape? 'u' = none := rfl
  rw [inside_iff]
  simp [and_assoc, hu, Place.Leads]

theorem not_inside_backslash (pieces : List Piece) (ts : List Token) :
    ¬ Inside pieces ts ['\\'] := by
  rw [inside_iff]
  simp

theorem leads_quoted (done ts : List Token) (pieces : List Piece) (c : Char) (cs : List Char) :
    Scan.Leads ⟨done, .quoted pieces⟩ ts (c :: cs) ↔
      ∃ s, Scan.next ⟨done, .quoted pieces⟩ c = some s ∧ s.Leads ts cs := by
  simp only [Scan.Leads, Scan.next]
  split_ifs with hq hs hc
  · subst hq
    simp only [Place.Leads, inside_quote_iff, Option.some.injEq, exists_eq_left']
    constructor
    · intro h
      obtain ⟨_, rfl, us, rfl, h⟩ := h
      exact ⟨us, by simp, h⟩
    · intro h
      obtain ⟨us, rfl, h⟩ := h
      exact ⟨_, by simp, us, rfl, h⟩
  · subst hs
    simp [Place.Leads]
  · have hle : ¬ ' ' ≤ c := Char.not_le.mpr hc
    simp [Place.Leads, inside_char_iff hq hs, hle]
  · have hle : ' ' ≤ c := Char.not_lt.mp hc
    simp [Place.Leads, inside_char_iff hq hs, hle]

theorem leads_escape (done ts : List Token) (pieces : List Piece) (c : Char) (cs : List Char) :
    Scan.Leads ⟨done, .escape pieces⟩ ts (c :: cs) ↔
      ∃ s, Scan.next ⟨done, .escape pieces⟩ c = some s ∧ s.Leads ts cs := by
  simp only [Scan.Leads, Scan.next]
  split_ifs with hu
  · subst hu
    simp only [Option.some.injEq, exists_eq_left']
    exact exists_congr fun us => and_congr_right fun _ => inside_unit_iff
  · cases he : shortEscape? c with
    | none => simp [Place.Leads, inside_escape_iff hu, he]
    | some d => simp [Place.Leads, inside_escape_iff hu, he]

theorem hex_cons_iff {v u : ℕ} {c : Char} {cs : List Char} :
    Hex v (c :: cs) u ↔ ∃ d, Text.Numeral.digitValue c = some d ∧ Hex (v * 16 + d) cs u := by
  constructor
  · intro h
    cases h
    exact ⟨_, ‹_›, ‹_›⟩
  · intro h
    obtain ⟨d, hd, h⟩ := h
    exact .cons hd h

theorem hex_nil_iff {v u : ℕ} : Hex v [] u ↔ u = v := by
  constructor
  · intro h
    cases h
    rfl
  · intro h
    subst h
    exact .nil u

/-- One more digit of an escaped code unit. -/
theorem unit_leads_iff {pieces : List Piece} {more value : ℕ} {ts : List Token} {c : Char}
    {cs : List Char} :
    (Place.unit pieces more value).Leads ts (c :: cs) ↔
      ∃ d, Text.Numeral.digitValue c = some d ∧
        match more with
        | 0 => Inside (.escaped (UInt16.ofNat (value * 16 + d)) :: pieces) ts cs
        | more + 1 => (Place.unit pieces more (value * 16 + d)).Leads ts cs := by
  constructor
  · intro h
    obtain ⟨ds, v, rest, he, hl, hv, h⟩ := h
    cases ds with
    | nil => cases hl
    | cons e ds =>
      cases he
      obtain ⟨d, hd, hv⟩ := hex_cons_iff.mp hv
      refine ⟨d, hd, ?_⟩
      cases more with
      | zero =>
        obtain rfl : ds = [] := by simpa using hl
        cases hex_nil_iff.mp hv
        exact h
      | succ more => exact ⟨ds, v, rest, rfl, by simpa using hl, hv, h⟩
  · intro h
    obtain ⟨d, hd, h⟩ := h
    cases more with
    | zero => exact ⟨[c], _, cs, rfl, rfl, .cons hd (.nil _), h⟩
    | succ more =>
      obtain ⟨ds, v, rest, rfl, hl, hv, h⟩ := h
      exact ⟨c :: ds, v, rest, rfl, by simpa using hl, .cons hd hv, h⟩

theorem leads_unit (done ts : List Token) (pieces : List Piece) (more value : ℕ) (c : Char)
    (cs : List Char) :
    Scan.Leads ⟨done, .unit pieces more value⟩ ts (c :: cs) ↔
      ∃ s, Scan.next ⟨done, .unit pieces more value⟩ c = some s ∧ s.Leads ts cs := by
  simp only [Scan.Leads, Scan.next, unit_leads_iff]
  cases hd : Text.Numeral.digitValue c with
  | none => simp
  | some d =>
    cases more with
    | zero => simp [Place.Leads]
    | succ more => simp

theorem leads_cons (s : Scan) (ts : List Token) (c : Char) (cs : List Char) :
    s.Leads ts (c :: cs) ↔ ∃ s', s.next c = some s' ∧ s'.Leads ts cs := by
  obtain ⟨done, place⟩ := s
  cases place with
  | between => exact leads_fresh done ts c cs
  | bare word => exact leads_bare done ts word c cs
  | quoted pieces => exact leads_quoted done ts pieces c cs
  | escape pieces => exact leads_escape done ts pieces c cs
  | unit pieces more value => exact leads_unit done ts pieces more value c cs

theorem leads_nil (s : Scan) (ts : List Token) : s.Leads ts [] ↔ s.finish = some ts := by
  obtain ⟨done, place⟩ := s
  cases place with
  | between => simp [Scan.Leads, Place.Leads, Scan.finish, spelled_nil_iff, eq_comm]
  | bare word =>
    simp only [Scan.Leads, Scan.finish, bare_leads_of_stops (stops_nil isBare), spelled_nil_iff]
    cases ht : bareWord? word.reverse with
    | none => simp
    | some t => simp [eq_comm]
  | quoted pieces => simp [Scan.Leads, Place.Leads, Scan.finish, Inside]
  | escape pieces => simp [Scan.Leads, Place.Leads, Scan.finish, not_inside_backslash]
  | unit pieces more value => simp [Scan.Leads, Place.Leads, Scan.finish, Inside]

/-- From any point of the scan, the tokens are those that the rest of the text leads to. -/
theorem foldlM_next_finish (s : Scan) (ts : List Token) (cs : List Char) :
    (cs.foldlM Scan.next s).bind Scan.finish = some ts ↔ s.Leads ts cs := by
  induction cs generalizing s with
  | nil => exact (leads_nil s ts).symm
  | cons c cs ih =>
    rw [leads_cons, List.foldlM_cons]
    cases hn : s.next c with
    | none => simp
    | some s' => simp [ih]

/-- The scanner gives the tokens that the text spells, and gives none when it spells none. -/
theorem tokens?_eq_some_iff {cs : List Char} {ts : List Token} :
    tokens? cs = some ts ↔ Spelled ts cs := by
  rw [tokens?, Option.bind_eq_bind, foldlM_next_finish]
  simp [Scan.Leads, Scan.start, Place.Leads]

end ShifterOperand.Json
