import ShifterOperand.Proofs.Command.Ending
import ShifterOperand.Proofs.Text.Display

/-!
# The line on a misuse

A misuse may quote an argument, or the part of one that it is about. The reader takes that part from the
arguments as they are, wherever it stops: what a level has put aside is made of their characters, and so
is what a misuse quotes. Main statement: the line that is written about a misuse is a single one, a
display shows every character of it, and it is the whole message when no argument has a control
character.
-/
namespace ShifterOperand.Command

open Text (Graphic MadeOf Seen isGraphic madeOf_ofList)

variable {p : Char → Prop} {s : String}

/-! The message and its first line. -/

/-- The text that a misuse quotes, if it quotes one. -/
def Misuse.argument? : Misuse → Option String
  | unknownCommand text | unexpected text | unneededValue _ text | badOperand _ text _
  | badAmount text _ | badChoice _ text => some text
  | nothingGiven | noCommand | missingArguments | missingValue _ | repeatedSetting _
  | repeatedSwitch _ => none

theorem Operand.graphic_label (o : Operand) : Graphic o.label := by
  cases o <;> decide

theorem Setting.graphic_label (st : Setting) : Graphic st.label := by
  cases st <;> decide

theorem Switch.graphic_label (sw : Switch) : Graphic sw.label := by
  cases sw <;> decide

theorem graphic_fault (fault : Text.Numeral.Fault) : Graphic fault.message := by
  cases fault <;> decide

theorem madeOf_quoted (hp : ∀ c, isGraphic c = true → p c) (h : MadeOf p s) :
    MadeOf p (quoted s) := by
  have hmark : MadeOf p "'" := (by decide : Graphic "'").mono hp
  exact (hmark.append h).append hmark

theorem madeOf_between {before after : String} (hp : ∀ c, isGraphic c = true → p c)
    (hbefore : Graphic before) (h : MadeOf p s) (hafter : Graphic after) :
    MadeOf p (before ++ s ++ after) :=
  ((hbefore.mono hp).append h).append (hafter.mono hp)

/-- Around what it quotes a message has no control characters. -/
theorem Misuse.madeOf_message (m : Misuse) (hp : ∀ c, isGraphic c = true → p c)
    (h : ∀ text ∈ m.argument?, MadeOf p (Text.displayed text)) : MadeOf p m.message := by
  have hechoed {t : String} (ht : t ∈ m.argument?) : MadeOf p (echoed t) := madeOf_quoted hp (h t ht)
  have hlabel {t : String} (ht : Graphic t) : MadeOf p (quoted t) := madeOf_quoted hp (ht.mono hp)
  have hrepeated {t : String} (ht : Graphic t) :
      MadeOf p ("error: the argument " ++ quoted t ++ " cannot be used multiple times") :=
    madeOf_between hp (by decide +kernel) (hlabel ht) (by decide +kernel)
  have hinvalid {t u : String} (ht : t ∈ m.argument?) (hu : Graphic u) :
      MadeOf p ("error: invalid value " ++ echoed t ++ " for " ++ quoted u) :=
    (madeOf_between hp (by decide +kernel) (hechoed ht) (by decide +kernel)).append (hlabel hu)
  have hcause {t : String} (ht : MadeOf p t) (fault : Text.Numeral.Fault) :
      MadeOf p (t ++ ": " ++ fault.message) :=
    (ht.append ((by decide : Graphic ": ").mono hp)).append ((graphic_fault fault).mono hp)
  unfold message
  cases m with
  | nothingGiven => exact (by decide +kernel : Graphic summary).mono hp
  | noCommand =>
    exact madeOf_between hp (by decide +kernel) (hlabel (by decide)) (by decide +kernel)
  | unknownCommand word =>
    exact ((by decide +kernel : Graphic "error: unrecognized subcommand ").mono hp).append (hechoed rfl)
  | missingArguments =>
    exact (by decide +kernel :
      Graphic "error: the following required arguments were not provided:").mono hp
  | unexpected argument =>
    exact madeOf_between hp (by decide +kernel) (hechoed rfl) (by decide +kernel)
  | unneededValue switch text =>
    have hvalue := madeOf_between hp (by decide +kernel : Graphic "error: unexpected value ")
      (hechoed (t := text) rfl) (by decide : Graphic " for ")
    exact (hvalue.append (hlabel switch.graphic_label)).append
      ((by decide +kernel : Graphic " found; no more were expected").mono hp)
  | missingValue setting =>
    exact madeOf_between hp (by decide +kernel) (hlabel setting.graphic_label) (by decide +kernel)
  | repeatedSetting setting => exact hrepeated setting.graphic_label
  | repeatedSwitch switch => exact hrepeated switch.graphic_label
  | badOperand operand text fault => exact hcause (hinvalid rfl operand.graphic_label) fault
  | badAmount text fault => exact hcause (hinvalid rfl (Setting.graphic_label .amount)) fault
  | badChoice setting text => exact hinvalid rfl setting.graphic_label

theorem Misuse.seen_message (m : Misuse) : Seen m.message :=
  m.madeOf_message (fun _ => .inr) fun text _ => Text.seen_displayed text

theorem Misuse.graphic_message {m : Misuse} (h : ∀ text ∈ m.argument?, Graphic text) :
    Graphic m.message := by
  refine m.madeOf_message (fun _ => id) fun text ht => ?_
  rw [Text.displayed_eq_self (h text ht)]
  exact h text ht

theorem mem_of_mem_firstLine {c : Char} (h : c ∈ (firstLine s).toList) :
    c ∈ s.toList ∧ c ≠ '\n' := by
  have hline : c ∈ s.toList.takeWhile (· ≠ '\n') := by
    rw [firstLine, String.toList_ofList] at h
    split_ifs at h
    · exact List.dropLast_subset _ h
    · exact h
  have hne := List.mem_takeWhile_imp hline
  exact ⟨List.takeWhile_subset _ hline, of_decide_eq_true hne⟩

theorem firstLine_eq_self (h : '\n' ∉ s.toList) : firstLine s = s := by
  have hline : s.toList.takeWhile (· ≠ '\n') = s.toList := by
    refine List.takeWhile_eq_self_iff.mpr fun c hc => decide_eq_true ?_
    rintro rfl
    exact h hc
  rw [firstLine, hline, if_neg fun hbreak => h hbreak.1, String.ofList_toList]

/-- A message without control characters is the line itself, and it quotes what is given to it. -/
theorem Misuse.line_eq_message {m : Misuse} (h : ∀ text ∈ m.argument?, Graphic text) :
    m.line = m.message ∧ ∀ text ∈ m.argument?, echoed text = quoted text := by
  refine ⟨firstLine_eq_self fun hbreak => ?_, fun text ht => ?_⟩
  · exact absurd (graphic_message h '\n' hbreak) (by decide)
  · rw [echoed, Text.displayed_eq_self (h text ht)]

/-! What a misuse quotes is made of the characters of the arguments. -/

/-- A misuse quotes nothing but such characters. -/
def Misuse.Quotes (p : Char → Prop) (m : Misuse) : Prop :=
  match m.argument? with
  | some text => MadeOf p text
  | none => True

/-- The reading does not end in quoting any other characters. -/
def Ending.Quotes (p : Char → Prop) : Ending → Prop
  | misuse m => m.Quotes p
  | help | version => True

/-- What is put aside is made of such characters. -/
def Level.Holds (p : Char → Prop) (l : Level) : Prop :=
  match l.pending with
  | .operand _ text | .setting _ (some text) => MadeOf p text
  | .setting _ none | .nothing => True

/-- The computation yields a value with the property, or it quotes nothing but such characters. -/
def Reads {α : Type} (p : Char → Prop) (property : α → Prop) : Except Ending α → Prop
  | .ok a => property a
  | .error e => e.Quotes p

theorem Misuse.quotes_iff {m : Misuse} : m.Quotes p ↔ ∀ text ∈ m.argument?, MadeOf p text := by
  unfold Misuse.Quotes
  cases m.argument? <;> simp

theorem Reads.bind {α β : Type} {P : α → Prop} {Q : β → Prop} {x : Except Ending α}
    {k : α → Except Ending β} (hx : Reads p P x) (hk : ∀ a, P a → Reads p Q (k a)) :
    Reads p Q (x >>= k) := by
  cases x with
  | error e => exact hx
  | ok a => exact hk a hx

namespace Values

variable {text : String} (v : Values)

theorem addOperand_reads (o : Operand) (h : MadeOf p text) :
    Reads p (fun _ => True) (v.addOperand o text) := by
  unfold addOperand
  cases Text.Numeral.read text with
  | ok n => trivial
  | error fault => exact h

theorem noChoice_quotes (s : Setting) (h : MadeOf p text) : (noChoice s text).Quotes p := by
  unfold noChoice
  split_ifs
  · trivial
  · exact h

theorem assign_reads (s : Setting) (h : MadeOf p text) :
    Reads p (fun _ => True) (v.assign s text) := by
  cases s with
  | kind =>
    simp only [assign]
    split_ifs
    · trivial
    · cases Kind.ofMnemonic? text with
      | some k => trivial
      | none => exact noChoice_quotes .kind h
  | amount =>
    simp only [assign]
    split_ifs
    · trivial
    · cases Text.Numeral.read text with
      | ok n => trivial
      | error fault => exact h
  | format =>
    simp only [assign]
    split_ifs
    · trivial
    · cases Format.ofName? text with
      | some f => trivial
      | none => exact noChoice_quotes .format h

end Values

namespace Level

variable {l : Level} {text arg : String}

theorem settle_reads (h : l.Holds p) : Reads p (Level.Holds p) l.settle := by
  obtain ⟨topic, values, pending, due, only⟩ := l
  match pending with
  | .nothing => trivial
  | .operand o text => exact (values.addOperand_reads o h).bind fun _ _ => trivial
  | .setting s none => trivial
  | .setting s (some text) => exact (values.assign_reads s h).bind fun _ _ => trivial

theorem turn_reads (h : l.Holds p) (s : Switch) : Reads p (Level.Holds p) (l.turn s) := by
  refine (settle_reads h).bind fun a ha => ?_
  cases s with
  | carry =>
    dsimp only
    split_ifs
    · trivial
    · exact ha
  | help | version => trivial

theorem long_reads (h : l.Holds p) {name : String} {value : Option String}
    (hn : MadeOf p ("--" ++ name)) (hv : ∀ text ∈ value, MadeOf p text) :
    Reads p (Level.Holds p) (l.long name value) := by
  unfold long
  cases l.settings.find? (·.name = name) with
  | some s =>
    cases value with
    | some text =>
      refine (settle_reads h).bind fun a ha => ?_
      exact (a.values.assign_reads s (hv text rfl)).bind fun _ _ => ha
    | none => exact (settle_reads h).bind fun _ _ => trivial
  | none =>
    cases l.switches.find? (·.name = name) with
    | some s =>
      cases value with
      | some text => exact hv text rfl
      | none => exact turn_reads h s
    | none => exact hn

theorem short_reads (h : l.Holds p) {letter : Char} (hl : MadeOf p (String.ofList ['-', letter])) :
    Reads p (Level.Holds p) (l.short letter) := by
  unfold short
  split_ifs
  · exact turn_reads h .help
  · exact turn_reads h .version
  · exact hl

theorem operand_reads (h : l.Holds p) (ht : MadeOf p text) :
    Reads p (Level.Holds p) (l.operand text) := by
  unfold operand
  cases l.due with
  | nil =>
    have hsurplus : (l.surplus text).Quotes p := by
      unfold surplus
      split_ifs <;> exact ht
    exact hsurplus
  | cons o rest => exact (settle_reads h).bind fun _ _ => ht

theorem word_reads (h : l.Holds p) (ht : MadeOf p text) :
    Reads p (Level.Holds p) (l.word text) := by
  unfold word
  split
  · exact ht
  · exact operand_reads h ht

theorem madeOf_splitValue {cs : List Char} (h : ∀ c ∈ cs, p c) :
    MadeOf p (splitValue cs).1 ∧ ∀ text ∈ (splitValue cs).2, MadeOf p text := by
  unfold splitValue
  split
  · exact ⟨madeOf_ofList.mpr h, nofun⟩
  · next mark value hdrop =>
    have hvalue : ∀ c ∈ value, p c := by
      intro c hc
      have hmem : c ∈ cs.dropWhile (· ≠ '=') := hdrop ▸ List.mem_cons_of_mem mark hc
      exact h c ((List.dropWhile_sublist _).subset hmem)
    refine ⟨madeOf_ofList.mpr fun c hc => h c (List.takeWhile_subset _ hc), fun text ht => ?_⟩
    rw [← Option.mem_some_iff.mp ht]
    exact madeOf_ofList.mpr hvalue

/-- A step keeps what is put aside made of the characters of the arguments. -/
theorem next_reads (hp : p '-') (h : l.Holds p) (ha : MadeOf p arg) :
    Reads p (Level.Holds p) (l.next arg) := by
  cases ho : l.operandsOnly with
  | true =>
    rw [next_operandsOnly ho]
    exact operand_reads h ha
  | false =>
    unfold MadeOf at ha
    rcases arg_cases arg with rfl | ⟨c, cs, harg⟩ | ⟨c, cs, harg, hc⟩ | hplain
    · rw [next_mark ho]
      exact h
    · rw [next_long ho harg]
      rw [harg] at ha
      have hmark : MadeOf p "--" := madeOf_ofList.mpr (by simp [hp])
      obtain ⟨hname, hvalue⟩ := madeOf_splitValue (List.forall_mem_cons.mp
        (List.forall_mem_cons.mp ha).2).2
      exact long_reads h (hmark.append hname) hvalue
    · rw [next_short ho harg hc]
      rw [harg] at ha
      exact short_reads h (madeOf_ofList.mpr (by simp [hp, ha c]))
    · rw [next_plain ho hplain]
      exact word_reads h ha

theorem foldlM_reads (hp : p '-') {args : List String} (h : l.Holds p)
    (ha : ∀ arg ∈ args, MadeOf p arg) : Reads p (Level.Holds p) (args.foldlM next l) := by
  induction args generalizing l with
  | nil => exact h
  | cons arg args ih =>
    obtain ⟨harg, hargs⟩ := List.forall_mem_cons.mp ha
    rw [List.foldlM_cons]
    exact (next_reads hp h harg).bind fun l' hl => ih hl hargs

theorem readAll_reads (hp : p '-') {args : List String} (h : l.Holds p)
    (ha : ∀ arg ∈ args, MadeOf p arg) : Reads p (Level.Holds p) (l.readAll args) :=
  (foldlM_reads hp h ha).bind fun _ => settle_reads

end Level

theorem helpEnding_quotes {args : List String} (ha : ∀ arg ∈ args, MadeOf p arg) :
    (helpEnding args).Quotes p := by
  match args with
  | [] => trivial
  | [word] =>
    rw [helpEnding]
    split_ifs
    · trivial
    · exact ha word (by simp)
  | word :: next :: rest =>
    rw [helpEnding]
    split_ifs
    · exact ha next (by simp)
    · exact ha word (by simp)

theorem readCommand_reads (hp : p '-') {l : Level} {args : List String} (t : Topic) (h : l.Holds p)
    (ha : ∀ arg ∈ args, MadeOf p arg) : Reads p (fun _ => True) (readCommand l t args) := by
  refine (Level.readAll_reads (l := .inner t) hp trivial ha).bind fun own _ => ?_
  cases t.command? own.values with
  | none => trivial
  | some command => exact (Level.settle_reads h).bind fun _ _ => trivial

theorem readFrom_reads (hp : p '-') {l : Level} {args : List String} (h : l.Holds p)
    (ha : ∀ arg ∈ args, MadeOf p arg) : Reads p (fun _ => True) (readFrom l args) := by
  induction args generalizing l with
  | nil =>
    refine (Level.settle_reads h).bind fun a _ => ?_
    split_ifs
    · trivial
    · trivial
  | cons arg rest ih =>
    obtain ⟨harg, hrest⟩ := List.forall_mem_cons.mp ha
    rcases readFrom_cons_eq l arg with hnext | ⟨t, htopic⟩ | hhelp
    · rw [hnext]
      exact (Level.next_reads hp h harg).bind fun l' hl => ih hl hrest
    · rw [htopic]
      exact readCommand_reads hp t h hrest
    · rw [hhelp]
      exact helpEnding_quotes hrest

/-- What a misuse quotes has no characters but those of the arguments, and hyphens. -/
theorem madeOf_argument {args : List String} {m : Misuse} (h : read args = .error (.misuse m)) :
    ∀ text ∈ m.argument?, MadeOf (fun c => c = '-' ∨ ∃ arg ∈ args, c ∈ arg.toList) text := by
  have hreads : Reads (fun c => c = '-' ∨ ∃ arg ∈ args, c ∈ arg.toList) (fun _ => True)
      (readFrom .outer args) :=
    readFrom_reads (.inl rfl) trivial fun arg harg c hc => .inr ⟨arg, harg, hc⟩
  rw [← read, h] at hreads
  exact Misuse.quotes_iff.mp hreads

/-- What a call writes about a misuse is one line, and a display shows every character of it. When no
argument has a control character, it is the message as a whole, which quotes the argument as it was
given. -/
theorem call_of_misuse {args : List String} {m : Misuse} (h : read args = .error (.misuse m)) :
    call args = ⟨2, "", m.line⟩ ∧ '\n' ∉ m.line.toList ∧ Seen m.line ∧
      ((∀ arg ∈ args, Graphic arg) →
        m.line = m.message ∧ ∀ text ∈ m.argument?, echoed text = quoted text) := by
  refine ⟨call_of_ending h, fun hbreak => (mem_of_mem_firstLine hbreak).2 rfl,
    fun c hc => m.seen_message c (mem_of_mem_firstLine hc).1, fun hargs => ?_⟩
  refine Misuse.line_eq_message fun text ht => (madeOf_argument h text ht).mono fun c hc => ?_
  rcases hc with rfl | ⟨arg, harg, hc⟩
  · rfl
  · exact hargs arg harg c hc

example : (Misuse.unexpected "\x1b[31mred\x1b[0m").line = "error: unexpected argument 'red' found" := by
  decide +kernel

end ShifterOperand.Command
