import ShifterOperand.Command.Outcome
import ShifterOperand.Proofs.Command.Acceptance

/-!
# What the format has a part in

The reader asks whether a format has been set, and never which. `asText` puts the text format in the
place of any other, and each step of the reading comes to the same for a level and for its `asText`,
when the levels that it leads to are looked at in this way again. Main statement: one format in the
place of another, wherever it is set, changes what a call writes to its output and nothing else
(`call_withFormat`).
-/
namespace ShifterOperand.Command

/-- Computations that look alike, followed by computations that look alike, look alike as a whole. -/
theorem map_bind_eq {ε α β γ δ : Type} {mask : α → γ} {view : β → δ} {x y : Except ε α}
    {k k' : α → Except ε β} (hx : x.map mask = y.map mask)
    (hk : ∀ a b, mask a = mask b → (k a).map view = (k' b).map view) :
    (x >>= k).map view = (y >>= k').map view := by
  cases x with
  | error e =>
    cases y with
    | error e' =>
      rw [Except.error.inj hx]
      rfl
    | ok b => cases hx
  | ok a =>
    cases y with
    | error e' => cases hx
    | ok b => exact hk a b (Except.ok.inj hx)

/-- The case in which both are followed by the same, which does not see what the mask hides. -/
theorem map_bind_congr {ε α β δ : Type} {mask : α → α} {view : β → δ} {x y : Except ε α}
    {k : α → Except ε β} (hx : x.map mask = y.map mask)
    (hk : ∀ a, (k (mask a)).map view = (k a).map view) :
    (x >>= k).map view = (y >>= k).map view := by
  refine map_bind_eq hx fun a b hab => ?_
  rw [← hk a, hab, hk b]

/-- The same computation, followed by such as look alike wherever it leads. -/
theorem map_bind_right {ε α β δ : Type} {view : β → δ} {x : Except ε α} {k k' : α → Except ε β}
    (hk : ∀ a, x = .ok a → (k a).map view = (k' a).map view) :
    (x >>= k).map view = (x >>= k').map view := by
  cases x with
  | error e => rfl
  | ok a => exact hk a rfl

/-- The value of a setting, with the name of the text format in the place of any other. -/
def Setting.asText (s : Setting) (text : String) : String :=
  if s = .format ∧ (Format.ofName? text).isSome then Format.text.name else text

theorem Setting.asText_name (f : Format) : Setting.format.asText f.name = Format.text.name :=
  if_pos ⟨rfl, by rw [Format.ofName?_eq_some_iff.mpr rfl, Option.isSome_some]⟩

theorem Setting.asText_asText (s : Setting) (text : String) :
    s.asText (s.asText text) = s.asText text := by
  by_cases h : s = .format ∧ (Format.ofName? text).isSome
  · have htext : s.asText text = Format.text.name := if_pos h
    rw [htext, h.1, asText_name]
  · have htext : s.asText text = text := if_neg h
    rw [htext, htext]

namespace Values

/-- The values with the text format in the place of any other. -/
def asText (v : Values) : Values := { v with format := v.format.map fun _ => .text }

variable (v : Values)

theorem asText_asText : v.asText.asText = v.asText := by
  simp [asText, Function.comp_def]

theorem addOperand_asText (o : Operand) (text : String) :
    (v.asText.addOperand o text).map asText = (v.addOperand o text).map asText := by
  unfold addOperand
  cases Text.Numeral.read text with
  | ok n => simp [asText, Function.comp_def, Except.map]
  | error fault => rfl

theorem assign_asText_asText (s : Setting) (text : String) :
    (v.asText.assign s (s.asText text)).map asText = (v.assign s text).map asText := by
  cases s with
  | kind =>
    simp only [assign, Setting.asText, reduceCtorEq, false_and, if_false,
      show v.asText.kind = v.kind from rfl]
    split_ifs
    · rfl
    · cases Kind.ofMnemonic? text <;> simp [asText, Function.comp_def, Except.map, fail]
  | amount =>
    simp only [assign, Setting.asText, reduceCtorEq, false_and, if_false,
      show v.asText.amount = v.amount from rfl]
    split_ifs
    · rfl
    · cases Text.Numeral.read text <;> simp [asText, Function.comp_def, Except.map, fail]
  | format =>
    have hset : v.asText.format.isSome = v.format.isSome := Option.isSome_map
    simp only [assign, hset]
    split_ifs
    · rfl
    · cases hf : Format.ofName? text with
      | some f => rw [Setting.asText, if_pos ⟨rfl, by rw [hf, Option.isSome_some]⟩]; rfl
      | none => rw [Setting.asText, if_neg (by simp [hf]), hf]

theorem assign_asText (s : Setting) (text : String) :
    (v.asText.assign s text).map asText = (v.assign s text).map asText := by
  rw [← assign_asText_asText v.asText, asText_asText, assign_asText_asText]

theorem assign_format_name (f g : Format) :
    (v.assign .format f.name).map asText = (v.assign .format g.name).map asText := by
  rw [← assign_asText_asText, ← assign_asText_asText v .format g.name, Setting.asText_name,
    Setting.asText_name]

end Values

/-- What is put aside, with the name of the text format in the place of any other. -/
def Pending.asText : Pending → Pending
  | .setting s (some text) => .setting s (some (s.asText text))
  | p => p

theorem Pending.asText_asText (p : Pending) : p.asText.asText = p.asText := by
  match p with
  | .setting s (some text) => simp only [asText, Setting.asText_asText]
  | .setting _ none | .operand _ _ | .nothing => rfl

namespace Level

/-- The level with the text format in the place of any other, set or put aside. -/
def asText (l : Level) : Level :=
  { l with values := l.values.asText, pending := l.pending.asText }

theorem awaitsValue_asText (l : Level) : l.asText.awaitsValue = l.awaitsValue := by
  obtain ⟨topic, values, pending, due, only⟩ := l
  match pending with
  | .setting _ (some _) | .setting _ none | .operand _ _ | .nothing => rfl

theorem settle_asText (l : Level) : l.asText.settle.map asText = l.settle.map asText := by
  obtain ⟨topic, values, pending, due, only⟩ := l
  have hdone (v u : Values) (h : v.asText = u.asText) :
      asText { topic, values := v, due, operandsOnly := only } =
        asText { topic, values := u, due, operandsOnly := only } := by
    simp only [asText, h]
  match pending with
  | .nothing => simp [settle, asText, Pending.asText, Values.asText_asText, Except.map]
  | .operand o text =>
    exact map_bind_eq (values.addOperand_asText o text) fun v u h => congrArg Except.ok (hdone v u h)
  | .setting s none => rfl
  | .setting s (some text) =>
    exact map_bind_eq (values.assign_asText_asText s text) fun v u h =>
      congrArg Except.ok (hdone v u h)

/-- What is set for the level itself comes after what was put aside. -/
theorem turn_asText (l : Level) (s : Switch) : (l.asText.turn s).map asText = (l.turn s).map asText := by
  refine map_bind_congr (settle_asText l) fun a => ?_
  cases s with
  | carry =>
    dsimp only
    change Except.map asText (if a.values.carry then _ else _) = _
    split_ifs
    · rfl
    · simp [asText, Values.asText, Pending.asText_asText, Function.comp_def, Except.map, pure,
        Except.pure]
  | help | version => rfl

theorem long_asText (l : Level) (name : String) (value : Option String) :
    (l.asText.long name value).map asText = (l.long name value).map asText := by
  have hsettings : l.asText.settings = l.settings := rfl
  have hswitches : l.asText.switches = l.switches := rfl
  unfold long
  rw [hsettings, hswitches]
  cases l.settings.find? (·.name = name) with
  | some s =>
    refine match value with
      | some text => map_bind_congr (settle_asText l) fun a => ?_
      | none => map_bind_congr (settle_asText l) fun a => ?_
    · refine map_bind_eq (a.values.assign_asText s text) fun v u h => ?_
      simp only [pure, Except.pure, Except.map, asText, Pending.asText_asText, h]
    · simp only [pure, Except.pure, Except.map, asText, Values.asText_asText]
  | none =>
    cases l.switches.find? (·.name = name) with
    | some s =>
      cases value with
      | some text => rfl
      | none => exact turn_asText l s
    | none => rfl

theorem short_asText (l : Level) (letter : Char) :
    (l.asText.short letter).map asText = (l.short letter).map asText := by
  have hswitches : l.asText.switches = l.switches := rfl
  unfold short
  rw [hswitches]
  split_ifs
  · exact turn_asText l .help
  · exact turn_asText l .version
  · rfl

theorem operand_asText (l : Level) (text : String) :
    (l.asText.operand text).map asText = (l.operand text).map asText := by
  have hdue : l.asText.due = l.due := rfl
  unfold operand
  rw [hdue]
  cases l.due with
  | nil => rfl
  | cons o rest =>
    refine map_bind_congr (settle_asText l) fun a => ?_
    simp only [pure, Except.pure, Except.map, asText, Values.asText_asText]

theorem word_asText (l : Level) (text : String) :
    (l.asText.word text).map asText = (l.word text).map asText := by
  cases hw : l.awaitsValue with
  | false =>
    rw [word_eq_operand hw, word_eq_operand ((awaitsValue_asText l).trans hw), operand_asText]
  | true =>
    obtain ⟨topic, values, pending, due, only⟩ := l
    match pending with
    | .setting s none => simp [word, asText, Pending.asText, Values.asText_asText, Except.map]
    | .setting _ (some _) | .operand _ _ | .nothing => cases hw

theorem next_asText (l : Level) (arg : String) :
    (l.asText.next arg).map asText = (l.next arg).map asText := by
  have honly : l.asText.operandsOnly = l.operandsOnly := rfl
  unfold next
  rw [honly]
  split_ifs
  · exact operand_asText l arg
  · split
    · simp [asText, Values.asText_asText, Pending.asText_asText, Except.map]
    · exact long_asText l _ _
    · exact short_asText l _
    · exact word_asText l arg

theorem foldlM_asText (args : List String) (l : Level) :
    (args.foldlM next l.asText).map asText = (args.foldlM next l).map asText := by
  induction args generalizing l with
  | nil => simp [asText, Values.asText_asText, Pending.asText_asText, Except.map, pure, Except.pure]
  | cons arg args ih =>
    rw [List.foldlM_cons, List.foldlM_cons]
    exact map_bind_congr (next_asText l arg) ih

end Level

theorem readCommand_asText (l : Level) (t : Topic) (args : List String) :
    (readCommand l.asText t args).map Prod.snd = (readCommand l t args).map Prod.snd := by
  unfold readCommand
  cases (Level.inner t).readAll args with
  | error e => rfl
  | ok own =>
    dsimp only [bind, Except.bind]
    cases t.command? own.values with
    | none => rfl
    | some command => exact map_bind_congr l.settle_asText fun a => rfl

/-- What becomes of an argument before the command. -/
theorem readFrom_cons_eq (l : Level) (arg : String) :
    (∀ rest, readFrom l (arg :: rest) = l.next arg >>= fun l' => readFrom l' rest) ∨
      (∃ t, ∀ rest, readFrom l (arg :: rest) = readCommand l t rest) ∨
        ∀ rest, readFrom l (arg :: rest) = .error (helpEnding rest) := by
  by_cases hpassed : (l.operandsOnly || l.awaitsValue) = true
  · exact .inl fun rest => by rw [readFrom, if_pos hpassed]
  cases ht : Topic.ofName? arg with
  | some t => exact .inr (.inl ⟨t, fun rest => by rw [readFrom, if_neg hpassed, ht]⟩)
  | none =>
    by_cases harg : arg = "help"
    · exact .inr (.inr fun rest => by simp only [readFrom, if_neg hpassed, ht, if_pos harg])
    · exact .inl fun rest => by simp only [readFrom, if_neg hpassed, ht, if_neg harg]

theorem readFrom_asText (args : List String) (l : Level) :
    (readFrom l.asText args).map Prod.snd = (readFrom l args).map Prod.snd := by
  induction args generalizing l with
  | nil =>
    refine map_bind_congr l.settle_asText fun a => ?_
    have hnone : a.asText.values.format = none ↔ a.values.format = none := Option.map_eq_none_iff
    simp only [hnone]
  | cons arg rest ih =>
    have honly : l.asText.operandsOnly = l.operandsOnly := rfl
    have hnext : (l.asText.next arg >>= (readFrom · rest)).map Prod.snd =
        (l.next arg >>= (readFrom · rest)).map Prod.snd :=
      map_bind_congr (l.next_asText arg) ih
    unfold readFrom
    rw [honly, Level.awaitsValue_asText]
    by_cases hpassed : (l.operandsOnly || l.awaitsValue) = true
    · rw [if_pos hpassed, if_pos hpassed]
      exact hnext
    · rw [if_neg hpassed, if_neg hpassed]
      cases Topic.ofName? arg with
      | some t => exact readCommand_asText l t rest
      | none =>
        dsimp only
        split_ifs
        · rfl
        · exact hnext

/-! Reading past a format. -/

/-- The arguments with the setting of the format among them. -/
def withFormat (before : List String) (attached : Bool) (f : Format) (after : List String) :
    List String :=
  before ++ ((Phrase.setting .format f.name attached).words ++ after)

theorem withFormat_nil (attached : Bool) (f : Format) (after : List String) :
    withFormat [] attached f after = (Phrase.setting .format f.name attached).words ++ after := rfl

theorem withFormat_cons (arg : String) (before : List String) (attached : Bool) (f : Format)
    (after : List String) :
    withFormat (arg :: before) attached f after = arg :: withFormat before attached f after := rfl

namespace Level

variable {l l' : Level} {arg : String}

theorem format_mem_settings (l : Level) : .format ∈ l.settings := by
  unfold settings
  cases l.topic with
  | none => decide
  | some t => cases t <;> decide

/-- Only the mark ends the reading of names. -/
theorem operandsOnly_of_next (ho : l.operandsOnly = false) (harg : arg ≠ "--")
    (h : l.next arg = .ok l') : l'.operandsOnly = false := by
  cases hw : l.awaitsValue with
  | false =>
    cases moves_of_next ho hw h with
    | mark => exact absurd rfl harg
    | attached | name | carry | operand => exact ho
  | true =>
    obtain ⟨topic, values, pending, due, only⟩ := l
    match pending with
    | .setting s none =>
      obtain ⟨rfl, -⟩ | ⟨-, rfl⟩ := (next_awaits_eq_ok_iff rfl ho).mp h
      · exact absurd rfl harg
      · exact ho
    | .setting _ (some _) | .operand _ _ | .nothing => cases hw

theorem plain_format_name (f : Format) : Plain f.name := by
  intro c cs
  cases f <;> simp [Format.name]

/-- The name of a format is put aside with the setting it follows. -/
theorem next_format_name {l : Level} (ho : l.operandsOnly = false) (f : Format) :
    next { l with pending := .setting .format none } f.name =
      .ok { l with pending := .setting .format (some f.name) } := by
  have hp : ({ l with pending := .setting .format none } : Level).pending = .setting .format none :=
    rfl
  exact (next_awaits_eq_ok_iff hp ho).mpr (.inr ⟨plain_format_name f, rfl⟩)

theorem operandsOnly_of_settle (h : l.settle = .ok l') : l'.operandsOnly = l.operandsOnly := by
  cases hw : l.awaitsValue with
  | false =>
    obtain ⟨v, -, rfl⟩ := (settle_eq_ok_iff hw).mp h
    rfl
  | true => exact absurd h (settle_ne_ok hw)

/-- Two formats bring a level to levels that look alike. -/
theorem foldlM_format (ho : l.operandsOnly = false) (attached : Bool) (f g : Format) :
    ((Phrase.setting .format f.name attached).words.foldlM next l).map asText =
      ((Phrase.setting .format g.name attached).words.foldlM next l).map asText := by
  have hs := format_mem_settings l
  cases attached with
  | true =>
    simp only [Phrase.words, List.foldlM_cons, List.foldlM_nil, bind_pure, next_attached ho hs]
    refine map_bind_right fun a _ => map_bind_eq (a.values.assign_format_name f g) fun v u h => ?_
    simp only [pure, Except.pure, Except.map, asText, h]
  | false =>
    simp only [Phrase.words, List.foldlM_cons, List.foldlM_nil, bind_pure, next_name ho hs,
      bind_assoc, pure_bind]
    refine map_bind_right fun a ha => ?_
    have hao : a.operandsOnly = false := (operandsOnly_of_settle ha).trans ho
    rw [next_format_name hao, next_format_name hao]
    simp only [Except.map, asText, Pending.asText, Setting.asText_name]

theorem foldlM_withFormat {before : List String} (ho : l.operandsOnly = false)
    (hb : "--" ∉ before) (attached : Bool) (f g : Format) (after : List String) :
    ((withFormat before attached f after).foldlM next l).map asText =
      ((withFormat before attached g after).foldlM next l).map asText := by
  induction before generalizing l with
  | nil =>
    rw [withFormat_nil, withFormat_nil, List.foldlM_append, List.foldlM_append]
    exact map_bind_congr (foldlM_format ho attached f g) (foldlM_asText after)
  | cons arg before ih =>
    obtain ⟨harg, hb⟩ := not_or.mp (List.mem_cons.not.mp hb)
    rw [withFormat_cons, withFormat_cons, List.foldlM_cons, List.foldlM_cons]
    refine map_bind_right fun l' hl => ?_
    exact ih (operandsOnly_of_next ho (Ne.symm harg) hl) hb

end Level

variable {l : Level} {before after : List String}

theorem readCommand_congr {t : Topic} {args args' : List String}
    (h : (args.foldlM Level.next (.inner t)).map Level.asText =
      (args'.foldlM Level.next (.inner t)).map Level.asText) :
    (readCommand l t args).map Prod.snd = (readCommand l t args').map Prod.snd := by
  have hall : ((Level.inner t).readAll args).map Level.asText =
      ((Level.inner t).readAll args').map Level.asText :=
    map_bind_congr h Level.settle_asText
  refine map_bind_congr hall fun own => ?_
  have hcommand : t.command? own.asText.values = t.command? own.values := rfl
  rw [hcommand]
  cases t.command? own.values with
  | none => rfl
  | some command => exact map_bind_right fun _ _ => rfl

/-- After the word that asks for help, only the next two words count. -/
theorem helpEnding_append (h : helpEnding before ≠ .help) (args : List String) :
    helpEnding (before ++ args) = helpEnding before := by
  match before with
  | [] => exact absurd rfl h
  | [word] =>
    rw [helpEnding] at h
    split_ifs at h with hw
    · exact absurd rfl h
    · simp only [List.singleton_append, helpEnding, if_neg hw]
  | word :: next :: rest => rfl

/-- An argument that begins with a hyphen goes to the level, before the command as well. -/
theorem readFrom_option {arg : String} {args : List String} (h : ∃ cs, arg.toList = '-' :: cs)
    (ho : l.operandsOnly = false) :
    readFrom l (arg :: args) = l.next arg >>= fun l' => readFrom l' args := by
  cases hw : l.awaitsValue with
  | false => exact readFrom_hyphens h ho hw
  | true => exact readFrom_next (.inr hw)

theorem readFrom_format (ho : l.operandsOnly = false) (attached : Bool) (f : Format) :
    readFrom l ((Phrase.setting .format f.name attached).words ++ after) =
      (Phrase.setting .format f.name attached).words.foldlM Level.next l >>=
        fun l' => readFrom l' after := by
  cases attached with
  | true =>
    rw [Phrase.words, List.singleton_append, readFrom_option (by simp) ho, List.foldlM_cons]
    simp only [List.foldlM_nil, bind_pure]
  | false =>
    rw [Phrase.words, List.cons_append, List.singleton_append, readFrom_option (by simp) ho]
    simp only [List.foldlM_cons, List.foldlM_nil, bind_pure, bind_assoc,
      Level.next_name ho l.format_mem_settings, pure_bind]
    cases l.settle with
    | error e => rfl
    | ok a => exact readFrom_next (.inr rfl)

/-- Two formats lead to the same command, or to the same reason why there is none. A request for help
that stands before them has been refused for the words behind it, as otherwise it would be granted. -/
theorem readFrom_withFormat (ho : l.operandsOnly = false) (hb : "--" ∉ before)
    (hh : readFrom l before ≠ .error .help) (attached : Bool) (f g : Format) (after : List String) :
    (readFrom l (withFormat before attached f after)).map Prod.snd =
      (readFrom l (withFormat before attached g after)).map Prod.snd := by
  induction before generalizing l with
  | nil =>
    rw [withFormat_nil, withFormat_nil, readFrom_format ho, readFrom_format ho]
    exact map_bind_congr (Level.foldlM_format ho attached f g) (readFrom_asText after)
  | cons arg before ih =>
    obtain ⟨harg, hb⟩ := not_or.mp (List.mem_cons.not.mp hb)
    rw [withFormat_cons, withFormat_cons]
    rcases readFrom_cons_eq l arg with hnext | ⟨t, htopic⟩ | hhelp
    · rw [hnext, hnext]
      refine map_bind_right fun l' hl => ?_
      refine ih (Level.operandsOnly_of_next ho (Ne.symm harg) hl) hb fun he => hh ?_
      rw [hnext, hl]
      exact he
    · rw [htopic, htopic]
      exact readCommand_congr (Level.foldlM_withFormat rfl hb attached f g after)
    · rw [hhelp] at hh
      have hending : helpEnding before ≠ .help := fun he => hh (congrArg Except.error he)
      rw [hhelp, hhelp, withFormat, withFormat, helpEnding_append hending, helpEnding_append hending]

/-- The outcome of what was read, when its report is a text. -/
def textOutcome : Except Ending Command → Outcome
  | .ok command => outcome .text command
  | .error e => e.outcome

/-- What a call does apart from its output depends on the command alone. -/
theorem call_textOutcome (args : List String) :
    (call args).exit = (textOutcome ((read args).map Prod.snd)).exit ∧
      (call args).stderr = (textOutcome ((read args).map Prod.snd)).stderr := by
  unfold call
  cases read args with
  | error e => exact ⟨rfl, rfl⟩
  | ok r =>
    change (outcome r.1 r.2).exit = (outcome .text r.2).exit ∧
      (outcome r.1 r.2).stderr = (outcome .text r.2).stderr
    unfold outcome
    cases r.2.run with
    | ok report => exact ⟨rfl, rfl⟩
    | error failure => exact ⟨rfl, rfl⟩

/-- One format in the place of another changes neither the command nor the reason why there is none, and
so neither the exit status nor the errors. The format is a setting of its own: it stands before the
mark, and not behind a request for help. -/
theorem call_withFormat (before after : List String) (attached : Bool) (f g : Format)
    (hb : "--" ∉ before) (hh : read before ≠ .error .help) :
    (read (withFormat before attached f after)).map Prod.snd =
        (read (withFormat before attached g after)).map Prod.snd ∧
      (call (withFormat before attached f after)).exit =
        (call (withFormat before attached g after)).exit ∧
      (call (withFormat before attached f after)).stderr =
        (call (withFormat before attached g after)).stderr := by
  have hread : (read (withFormat before attached f after)).map Prod.snd =
      (read (withFormat before attached g after)).map Prod.snd :=
    readFrom_withFormat rfl hb hh attached f g after
  obtain ⟨hexit, herr⟩ := call_textOutcome (withFormat before attached f after)
  obtain ⟨hexit', herr'⟩ := call_textOutcome (withFormat before attached g after)
  rw [hexit, herr, hexit', herr', hread]
  exact ⟨rfl, rfl, rfl⟩

end ShifterOperand.Command
