import ShifterOperand.Text.Display

/-!
# What is seen of a text

A display leaves out what it would obey. Main statements: a text without control characters is shown
whole (`displayed_eq_self`), and whatever a text holds, nothing else is shown of it than such characters
and the four that move the place of writing (`seen_displayed`).
-/
namespace ShifterOperand.Text

/-- Every character of the text has the property. -/
def MadeOf (p : Char → Prop) (s : String) : Prop := ∀ c ∈ s.toList, p c

/-- The text has no control characters. -/
def Graphic (s : String) : Prop := MadeOf (isGraphic · = true) s

/-- A display shows every character of the text. -/
def Seen (s : String) : Prop := MadeOf (fun c => isSpacing c = true ∨ isGraphic c = true) s

instance (s : String) : Decidable (Graphic s) := List.decidableBAll (isGraphic · = true) s.toList

variable {p q : Char → Prop} {s t : String}

theorem MadeOf.mono (h : MadeOf p s) (hpq : ∀ c, p c → q c) : MadeOf q s := fun c hc => hpq c (h c hc)

theorem MadeOf.append (hs : MadeOf p s) (ht : MadeOf p t) : MadeOf p (s ++ t) := by
  unfold MadeOf
  rw [String.toList_append]
  exact List.forall_mem_append.mpr ⟨hs, ht⟩

theorem madeOf_ofList {cs : List Char} : MadeOf p (String.ofList cs) ↔ ∀ c ∈ cs, p c := by
  rw [MadeOf, String.toList_ofList]

theorem foldl_next_of_isGraphic (cs shown : List Char) (h : ∀ c ∈ cs, isGraphic c = true) :
    cs.foldl Display.next ⟨.text, shown⟩ = ⟨.text, cs.reverse ++ shown⟩ := by
  induction cs generalizing shown with
  | nil => rfl
  | cons c cs ih =>
    have hc : Mode.text.shows c = true := by simp [Mode.shows, h c]
    rw [List.foldl_cons, Display.next, if_pos hc, ih _ fun d hd => h d (by simp [hd])]
    simp

/-- A text without control characters is shown whole. -/
theorem displayed_eq_self (h : Graphic s) : displayed s = s := by
  simp [displayed, foldl_next_of_isGraphic _ _ h]

theorem isSpacing_or_isGraphic_of_shows {m : Mode} {c : Char} (h : m.shows c = true) :
    isSpacing c = true ∨ isGraphic c = true := by
  cases m <;> simp_all [Mode.shows]

theorem mem_shown_foldl_next {cs : List Char} {d : Display} {c : Char}
    (h : c ∈ (cs.foldl Display.next d).shown) :
    c ∈ d.shown ∨ isSpacing c = true ∨ isGraphic c = true := by
  induction cs generalizing d with
  | nil => exact .inl h
  | cons a cs ih =>
    obtain h | h := ih h
    · unfold Display.next at h
      split at h
      · rename_i ha
        obtain rfl | h := List.mem_cons.mp h
        · exact .inr (isSpacing_or_isGraphic_of_shows ha)
        · exact .inl h
      · exact .inl h
    · exact .inr h

/-- Nothing is shown that a display would obey. -/
theorem seen_displayed (s : String) : Seen (displayed s) := by
  refine madeOf_ofList.mpr fun c hc => ?_
  rcases mem_shown_foldl_next (List.mem_reverse.mp hc) with h | h
  · cases h
  · exact h

end ShifterOperand.Text
