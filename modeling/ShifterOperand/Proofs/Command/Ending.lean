import ShifterOperand.Proofs.Command.Completion
import ShifterOperand.Proofs.Command.Format
import ShifterOperand.Proofs.Json.Layout

/-!
# The ways in which a call ends

A call writes either a report or the reason why there is none, and its status tells which. Main
statement: there are three ways, the second is that of the commands which fail, and which format was
asked for shows in the report alone.
-/
namespace ShifterOperand.Command

/-- The ways in which a call may end. -/
inductive Outcome.Orderly : Outcome → Prop
  | report {text : String} (h : text ≠ "") : Orderly ⟨0, text ++ "\n", ""⟩
  | failure (text : String) : Orderly ⟨1, "", "Error: " ++ text⟩
  | misuse {text : String} (h : text ≠ "") : Orderly ⟨2, "", text⟩

/-! No report is empty, and neither is the line on a misuse. -/

theorem Report.text_ne_empty (r : Report) : r.text ≠ "" := by
  cases r with
  | flagged w => simp [text]
  | word value => simp [text]
  | shift s =>
    obtain ⟨kind, amount⟩ := s
    cases kind <;> simp [text, Shift.text, Kind.mnemonic]
  | kind k => cases k <;> simp [text, Kind.mnemonic]
  | restricted bad => simp [text]

theorem indented_object_ne_empty (members : List (List Json.Piece × Json)) :
    (Json.object members).indented ≠ "" := by
  obtain ⟨ts, hts⟩ : ∃ ts, (Json.object members).tokens = .openObject :: ts := by
    cases members with
    | nil => exact ⟨_, rfl⟩
    | cons m rest => exact ⟨_, rfl⟩
  have hloose := Json.loose_layout 0 (Json.object members).tokens
  rw [hts] at hloose
  rw [Json.indented, hts, ne_eq, String.ofList_eq_empty_iff]
  exact hloose.ne_nil (by decide)

theorem Report.render_ne_empty (format : Format) (r : Report) : r.render format ≠ "" := by
  cases format with
  | text => exact r.text_ne_empty
  | json => cases r <;> exact indented_object_ne_empty _

/-- A carriage return is cut off behind the first two characters, but not more than that. -/
theorem firstLine_ne_empty {s : String} {c d : Char} (hs : s.toList.take 2 = [c, d])
    (hc : c ≠ '\n') (hd : d ≠ '\n') : firstLine s ≠ "" := by
  have hlist : s.toList = c :: d :: s.toList.drop 2 := by
    rw [← List.take_append_drop 2 s.toList, hs]
    rfl
  have hline : s.toList.takeWhile (· ≠ '\n') = c :: d :: (s.toList.drop 2).takeWhile (· ≠ '\n') := by
    rw [hlist]
    simp [hc, hd]
  rw [firstLine, hline]
  split_ifs <;> simp

theorem Misuse.take_message (m : Misuse) :
    m.message.toList.take 2 = ['D', 'e'] ∨ m.message.toList.take 2 = ['e', 'r'] := by
  unfold message
  cases m with
  | nothingGiven => exact .inl rfl
  | noCommand | unknownCommand | missingArguments | unexpected | unneededValue | missingValue
  | repeatedSetting | repeatedSwitch | badOperand | badAmount | badChoice =>
    right
    simp only [String.toList_append]
    rfl

theorem Misuse.line_ne_empty (m : Misuse) : m.line ≠ "" := by
  rcases m.take_message with h | h
  · exact firstLine_ne_empty h (by decide) (by decide)
  · exact firstLine_ne_empty h (by decide) (by decide)

theorem Ending.orderly (e : Ending) : e.outcome.Orderly := by
  cases e with
  | misuse m => exact .misuse m.line_ne_empty
  | help => exact .report (by decide)
  | version => exact .report (by decide)

variable {args : List String} {format : Format} {command : Command} {failure : Failure}

theorem outcome_cases (format : Format) (command : Command) :
    (∃ failure, command.Fails failure) ∨
      ∃ report, command.run = .ok report ∧
        outcome format command = ⟨0, Report.render format report ++ "\n", ""⟩ := by
  unfold outcome
  cases h : command.run with
  | ok report => exact .inr ⟨report, rfl, rfl⟩
  | error failure => exact .inl ⟨failure, fails_of_run h⟩

theorem outcome_orderly (format : Format) (command : Command) : (outcome format command).Orderly := by
  rcases outcome_cases format command with ⟨failure, h⟩ | ⟨report, -, h⟩
  · rw [outcome_of_error (run_of_fails h), String.append_assoc]
    exact .failure _
  · rw [h]
    exact .report (report.render_ne_empty format)

theorem call_of_read (h : read args = .ok (format, command)) : call args = outcome format command := by
  rw [call, h]

theorem call_of_ending {e : Ending} (h : read args = .error e) : call args = e.outcome := by
  rw [call, h]

theorem call_orderly (args : List String) : (call args).Orderly := by
  cases h : read args with
  | ok r => exact call_of_read h ▸ outcome_orderly r.1 r.2
  | error e => exact call_of_ending h ▸ e.orderly

theorem call_exit_eq_one_iff :
    (call args).exit = 1 ↔
      ∃ format command failure, read args = .ok (format, command) ∧ command.Fails failure := by
  constructor
  · intro h
    cases hr : read args with
    | ok r =>
      obtain ⟨format, command⟩ := r
      rw [call_of_read hr] at h
      rcases outcome_cases format command with ⟨failure, hf⟩ | ⟨report, -, ho⟩
      · exact ⟨format, command, failure, rfl, hf⟩
      · rw [ho] at h
        cases h
    | error e =>
      rw [call_of_ending hr] at h
      cases e <;> cases h
  · intro h
    obtain ⟨format, command, failure, hr, hf⟩ := h
    rw [call_of_read hr, outcome_of_error (run_of_fails hf)]

/-- A call ends in one of three ways. The second is that of the commands which fail, and they say why;
the commands for words of the Thumb set are not among them. Where the name of a setting is read as one,
which is neither behind the mark nor behind a request for help, a format in the place of another
changes the report and nothing else: the command that is read is the same, or the reason why there is
none is the same as a whole, and not only the line of it that is written. -/
theorem calls_end_orderly :
    (∀ args, (call args).Orderly) ∧
    (∀ args, (call args).exit = 1 ↔
      ∃ format command failure, read args = .ok (format, command) ∧ command.Fails failure) ∧
    (∀ args format command failure, read args = .ok (format, command) → command.Fails failure →
      call args = ⟨1, "", "Error: " ++ failure.message ++ "\n"⟩) ∧
    (∀ args format command, read args = .ok (format, command) →
      command.topic ∈ [.thumbImm, .thumbImm12, .thumbImmScaled] → (call args).exit = 0) ∧
    ∀ before after attached f g, "--" ∉ before → read before ≠ .error .help →
      (read (withFormat before attached f after)).map Prod.snd =
          (read (withFormat before attached g after)).map Prod.snd ∧
        (call (withFormat before attached f after)).exit =
          (call (withFormat before attached g after)).exit ∧
        (call (withFormat before attached f after)).stderr =
          (call (withFormat before attached g after)).stderr := by
  refine ⟨call_orderly, fun args => call_exit_eq_one_iff, fun args format command failure hr hf => ?_,
    fun args format command hr ht => ?_, call_withFormat⟩
  · rw [call_of_read hr, outcome_of_error (run_of_fails hf)]
  · rw [call_of_read hr]
    rcases outcome_cases format command with ⟨failure, hf⟩ | ⟨report, -, ho⟩
    · cases hf <;> simp [topic] at ht
    · rw [ho]

/-- The width of the amount field is looked at before the type, and the format does not matter. -/
theorem calls_end_orderly_wide_field :
    call ["--format=text", "imm-shift", "4", "40"] =
        ⟨1, "", "Error: imm5 40 does not fit in 5 bits\n"⟩ ∧
      (call ["--format=json", "imm-shift", "4", "40"]).exit = 1 ∧
      (call ["thumb-imm", "0xFFFFFFFF"]).exit = 0 := by
  obtain ⟨-, -, hfails, hthumb, hformat⟩ := calls_end_orderly
  have htext := hfails ["--format=text", "imm-shift", "4", "40"] .text (immShift 4 40) _ rfl
    (.imm5Width (by decide))
  have hjson := (hformat [] ["imm-shift", "4", "40"] true .json .text nofun nofun).2.1
  refine ⟨htext.trans rfl, hjson.trans ?_, hthumb _ .text (thumbImm 0xFFFFFFFF false) rfl (by decide)⟩
  exact congrArg Outcome.exit htext

end ShifterOperand.Command
