import Mathlib.Data.List.TakeWhile
import ShifterOperand.Proofs.Command.Gathering

/-!
# One argument

What the next argument can do to a level, for each kind of argument that is not refused. A value that
is put aside counts as a phrase that is still to be taken (`Level.held`), so that it does not matter
when it is examined.
-/
namespace ShifterOperand.Command

theorem bind_eq_ok_iff {ε α β : Type} {x : Except ε α} {f : α → Except ε β} {b : β} :
    (x >>= f) = .ok b ↔ ∃ a, x = .ok a ∧ f a = .ok b := by
  constructor
  · intro h
    cases x with
    | ok a => exact ⟨a, rfl, h⟩
    | error e => cases h
  · intro h
    obtain ⟨a, rfl, h⟩ := h
    exact h

theorem takesAll_append_iff {v w : Values} {ps qs : List Phrase} :
    TakesAll v (ps ++ qs) w ↔ ∃ u, TakesAll v ps u ∧ TakesAll u qs w := by
  induction ps generalizing v with
  | nil => simp [takesAll_nil_iff]
  | cons p ps ih =>
    simp only [List.cons_append, takesAll_cons_iff, ih]
    constructor
    · intro h
      obtain ⟨u, hp, u', hps, hqs⟩ := h
      exact ⟨u', ⟨u, hp, hps⟩, hqs⟩
    · intro h
      obtain ⟨u', ⟨u, hp, hps⟩, hqs⟩ := h
      exact ⟨u, hp, u', hps, hqs⟩

theorem takesAll_singleton_iff {v w : Values} {p : Phrase} : TakesAll v [p] w ↔ Takes v p w := by
  simp [takesAll_cons_iff, takesAll_nil_iff]

namespace Level

/-- The phrase that is put aside. -/
def held (l : Level) : List Phrase :=
  match l.pending with
  | .operand _ text => [.operand text]
  | .setting s (some text) => [.setting s text false]
  | _ => []

/-- A text that is neither a name nor a mark. A hyphen alone is one. -/
def Plain (text : String) : Prop := ∀ c cs, text.toList ≠ '-' :: c :: cs

theorem addOperand_eq_ok_iff {v u : Values} {o : Operand} {text : String} :
    v.addOperand o text = .ok u ↔ Takes v (.operand text) u := by
  unfold Values.addOperand
  constructor
  · intro h
    split at h
    · next n hn =>
      cases h
      exact .operand hn
    · cases h
  · intro h
    obtain ⟨hn⟩ := h
    rw [hn]

theorem assign_eq_ok_iff {v u : Values} {s : Setting} {text : String} {attached : Bool} :
    v.assign s text = .ok u ↔ Takes v (.setting s text attached) u := by
  constructor
  · exact .setting
  · intro h
    cases h with
    | setting h => exact h

/-- What is put aside is taken when it is examined. -/
theorem settle_eq_ok_iff {l l' : Level} (hw : l.awaitsValue = false) :
    l.settle = .ok l' ↔
      ∃ v, TakesAll l.values l.held v ∧ l' = { l with values := v, pending := .nothing } := by
  obtain ⟨topic, values, pending, due, only⟩ := l
  match pending with
  | .nothing => simp [settle, held, takesAll_nil_iff, eq_comm]
  | .operand o text =>
    simp only [settle, held, takesAll_singleton_iff, bind_eq_ok_iff, addOperand_eq_ok_iff, pure,
      Except.pure, Except.ok.injEq, @eq_comm _ l']
  | .setting s (some text) =>
    simp only [settle, held, takesAll_singleton_iff, bind_eq_ok_iff,
      @assign_eq_ok_iff _ _ _ _ false, pure, Except.pure, Except.ok.injEq, @eq_comm _ l']
  | .setting s none => cases hw

theorem settle_ne_ok {l l' : Level} (hw : l.awaitsValue = true) : l.settle ≠ .ok l' := by
  obtain ⟨topic, values, pending, due, only⟩ := l
  match pending with
  | .setting s none =>
    intro h
    cases h
  | .nothing => cases hw
  | .operand o text => cases hw
  | .setting s (some text) => cases hw

theorem operand_eq_ok_iff {l l' : Level} {text : String} (hw : l.awaitsValue = false) :
    l.operand text = .ok l' ↔
      ∃ v o due, TakesAll l.values l.held v ∧ l.due = o :: due ∧
        l' = { l with values := v, pending := .operand o text, due := due } := by
  unfold operand
  cases hd : l.due with
  | nil => simp [fail]
  | cons o due =>
    simp only [bind_eq_ok_iff, settle_eq_ok_iff hw, pure, Except.pure, Except.ok.injEq]
    constructor
    · intro h
      obtain ⟨_, ⟨v, hv, rfl⟩, rfl⟩ := h
      exact ⟨v, o, due, hv, rfl, rfl⟩
    · intro h
      obtain ⟨v, _, _, hv, ⟨⟩, rfl⟩ := h
      exact ⟨_, ⟨v, hv, rfl⟩, rfl⟩

/-! Names and the values attached to them. -/

theorem forall_ne_of_notMem {name : List Char} (h : '=' ∉ name) :
    ∀ c ∈ name, decide (c ≠ '=') = true := by
  intro c hc
  rw [decide_eq_true_eq]
  exact ne_of_mem_of_not_mem hc h

theorem splitValue_append {name value : List Char} (h : '=' ∉ name) :
    splitValue (name ++ '=' :: value) = (String.ofList name, some (String.ofList value)) := by
  have hall := forall_ne_of_notMem h
  unfold splitValue
  rw [List.dropWhile_append_of_pos hall, List.takeWhile_append_of_pos hall]
  simp

theorem splitValue_of_notMem {name : List Char} (h : '=' ∉ name) :
    splitValue name = (String.ofList name, none) := by
  have hdrop : name.dropWhile (· ≠ '=') = [] :=
    List.dropWhile_eq_nil_iff.mpr (forall_ne_of_notMem h)
  unfold splitValue
  rw [hdrop]

theorem setting_name_inj {s t : Setting} (h : s.name = t.name) : s = t := by
  cases s <;> cases t <;> first | rfl | (revert h; decide)

theorem find_setting {l : Level} {s : Setting} (h : s ∈ l.settings) :
    l.settings.find? (·.name = s.name) = some s := by
  cases hf : l.settings.find? (·.name = s.name) with
  | none => simpa using List.find?_eq_none.mp hf s h
  | some t =>
    have ht := List.find?_some hf
    rw [decide_eq_true_eq] at ht
    rw [setting_name_inj ht]

theorem notMem_setting_name (s : Setting) : '=' ∉ s.name.toList := by
  cases s <;> decide

theorem arg_cases (arg : String) :
    arg = "--" ∨ (∃ c cs, arg.toList = '-' :: '-' :: c :: cs) ∨
      (∃ c cs, arg.toList = '-' :: c :: cs ∧ c ≠ '-') ∨ Plain arg := by
  by_cases hp : Plain arg
  · exact .inr (.inr (.inr hp))
  · simp only [Plain, not_forall, not_not] at hp
    obtain ⟨c, cs, h⟩ := hp
    by_cases hc : c = '-'
    · subst hc
      cases cs with
      | nil => exact .inl (String.toList_injective h)
      | cons d ds => exact .inr (.inl ⟨d, ds, h⟩)
    · exact .inr (.inr (.inl ⟨c, cs, h, hc⟩))

variable {l l' : Level} {arg : String}

theorem next_mark (ho : l.operandsOnly = false) :
    l.next "--" = .ok { l with operandsOnly := true } := by
  simp [next, ho]

theorem next_long (ho : l.operandsOnly = false) {c : Char} {cs : List Char}
    (h : arg.toList = '-' :: '-' :: c :: cs) :
    l.next arg = l.long (splitValue (c :: cs)).1 (splitValue (c :: cs)).2 := by
  simp [next, ho, h]

theorem next_short (ho : l.operandsOnly = false) {c : Char} {cs : List Char}
    (h : arg.toList = '-' :: c :: cs) (hc : c ≠ '-') : l.next arg = l.short c := by
  simp [next, ho, h, hc]

theorem next_plain (ho : l.operandsOnly = false) (h : Plain arg) : l.next arg = l.word arg := by
  unfold next
  rw [ho, if_neg (by simp)]
  split
  · next he => exact absurd he (h _ _)
  · next he => exact absurd he (h _ _)
  · next he => exact absurd he (h _ _)
  · rfl

theorem next_operandsOnly (ho : l.operandsOnly = true) : l.next arg = l.operand arg := by
  rw [next, if_pos ho]

theorem turn_eq_ok_iff {s : Switch} (hw : l.awaitsValue = false) :
    l.turn s = .ok l' ↔
      s = .carry ∧ ∃ v, TakesAll l.values (l.held ++ [.carry]) v ∧
        l' = { l with values := v, pending := .nothing } := by
  simp only [turn, bind_eq_ok_iff, settle_eq_ok_iff hw, takesAll_append_iff,
    takesAll_singleton_iff]
  constructor
  · intro h
    obtain ⟨_, ⟨v, hv, rfl⟩, h⟩ := h
    cases s with
    | carry =>
      cases hc : v.carry with
      | true => simp [hc, fail] at h
      | false =>
        simp only [hc] at h
        cases h
        exact ⟨rfl, _, ⟨v, hv, .carry hc⟩, rfl⟩
    | help | version => cases h
  · intro h
    obtain ⟨rfl, _, ⟨v, hv, hcarry⟩, rfl⟩ := h
    cases hcarry with
    | carry hc =>
      refine ⟨_, ⟨v, hv, rfl⟩, ?_⟩
      simp only [hc]
      rfl

/-- What an argument can do to a level that awaits no value. -/
inductive Moves (l : Level) : String → Level → Prop
  | mark : Moves l "--" { l with operandsOnly := true }
  | attached {s : Setting} {text : String} {v : Values} (hs : s ∈ l.settings)
      (hv : TakesAll l.values (l.held ++ [.setting s text true]) v) :
      Moves l ("--" ++ s.name ++ "=" ++ text) { l with values := v, pending := .nothing }
  | name {s : Setting} {v : Values} (hs : s ∈ l.settings) (hv : TakesAll l.values l.held v) :
      Moves l ("--" ++ s.name) { l with values := v, pending := .setting s none }
  | carry {v : Values} (hs : .carry ∈ l.switches)
      (hv : TakesAll l.values (l.held ++ [.carry]) v) :
      Moves l "--carry" { l with values := v, pending := .nothing }
  | operand {text : String} {v : Values} {o : Operand} {due : List Operand} (ht : Plain text)
      (hv : TakesAll l.values l.held v) (hd : l.due = o :: due) :
      Moves l text { l with values := v, pending := .operand o text, due := due }

theorem word_eq_operand (hw : l.awaitsValue = false) : l.word arg = l.operand arg := by
  obtain ⟨topic, values, pending, due, only⟩ := l
  match pending with
  | .nothing => rfl
  | .operand o text => rfl
  | .setting s (some text) => rfl
  | .setting s none => cases hw

theorem eq_of_toList {cs : List Char} (h : arg.toList = '-' :: '-' :: cs) :
    arg = "--" ++ String.ofList cs := by
  apply String.toList_injective
  simp [h]

theorem moves_of_long {name : String} {value : Option String} (hw : l.awaitsValue = false)
    (h : l.long name value = .ok l') :
    Moves l ("--" ++ name ++ (value.map ("=" ++ ·)).getD "") l' := by
  unfold long at h
  split at h
  · next s text hs =>
    have hname : s.name = name := by simpa using List.find?_some hs
    obtain ⟨_, hl, h⟩ := bind_eq_ok_iff.mp h
    obtain ⟨v, hv, rfl⟩ := (settle_eq_ok_iff hw).mp hl
    obtain ⟨u, hu, h⟩ := bind_eq_ok_iff.mp h
    cases h
    have htakes : TakesAll l.values (l.held ++ [.setting s text true]) u :=
      takesAll_append_iff.mpr ⟨v, hv, takesAll_singleton_iff.mpr (.setting hu)⟩
    rw [← hname]
    simpa [String.append_assoc] using Moves.attached (List.mem_of_find?_eq_some hs) htakes
  · next s hs =>
    have hname : s.name = name := by simpa using List.find?_some hs
    obtain ⟨_, hl, h⟩ := bind_eq_ok_iff.mp h
    obtain ⟨v, hv, rfl⟩ := (settle_eq_ok_iff hw).mp hl
    cases h
    rw [← hname]
    simpa using Moves.name (List.mem_of_find?_eq_some hs) hv
  · cases h
  · next s _ hs =>
    have hname : s.name = name := by simpa using List.find?_some hs
    obtain ⟨rfl, v, hv, rfl⟩ := (turn_eq_ok_iff hw).mp h
    rw [← hname]
    exact .carry (List.mem_of_find?_eq_some hs) hv
  · cases h

theorem moves_of_next (ho : l.operandsOnly = false) (hw : l.awaitsValue = false)
    (h : l.next arg = .ok l') : Moves l arg l' := by
  rcases arg_cases arg with rfl | ⟨c, cs, harg⟩ | ⟨c, cs, harg, hc⟩ | hplain
  · rw [next_mark ho] at h
    cases h
    exact .mark
  · rw [next_long ho harg] at h
    have hmoves := moves_of_long hw h
    rw [eq_of_toList harg]
    by_cases hmem : '=' ∈ c :: cs
    · obtain ⟨name, value, hcs, hn⟩ := List.eq_append_cons_of_mem hmem
      rw [hcs, splitValue_append hn] at hmoves
      rw [hcs]
      simpa [String.ofList_append, String.append_assoc] using hmoves
    · rw [splitValue_of_notMem hmem] at hmoves
      simpa using hmoves
  · rw [next_short ho harg hc] at h
    unfold short at h
    split_ifs at h
    · cases ((turn_eq_ok_iff hw).mp h).1
    · cases ((turn_eq_ok_iff hw).mp h).1
    · cases h
  · rw [next_plain ho hplain, word_eq_operand hw] at h
    obtain ⟨v, o, due, hv, hd, rfl⟩ := (operand_eq_ok_iff hw).mp h
    exact .operand hplain hv hd

theorem setting_name_ne_nil (s : Setting) : ∃ c cs, s.name.toList = c :: cs := by
  cases s <;> exact ⟨_, _, rfl⟩

/-- A setting whose value is attached to its name is assigned at once. -/
theorem next_attached (ho : l.operandsOnly = false) {s : Setting} (hs : s ∈ l.settings)
    (text : String) :
    l.next ("--" ++ s.name ++ "=" ++ text) =
      (do
        let l ← l.settle
        return { l with values := ← l.values.assign s text }) := by
  obtain ⟨c, cs, hname⟩ := setting_name_ne_nil s
  have hlist : ("--" ++ s.name ++ "=" ++ text).toList =
      '-' :: '-' :: c :: (cs ++ '=' :: text.toList) := by
    simp [hname]
  have hsplit := @splitValue_append _ text.toList (notMem_setting_name s)
  rw [next_long ho hlist, ← List.cons_append, ← hname, hsplit]
  simp only [String.ofList_toList, long, find_setting hs]

/-- A setting without an attached value is put aside until its value comes. -/
theorem next_name (ho : l.operandsOnly = false) {s : Setting} (hs : s ∈ l.settings) :
    l.next ("--" ++ s.name) = (do return { ← l.settle with pending := .setting s none }) := by
  obtain ⟨c, cs, hname⟩ := setting_name_ne_nil s
  have hlist : ("--" ++ s.name).toList = '-' :: '-' :: c :: cs := by simp [hname]
  rw [next_long ho hlist, ← hname, splitValue_of_notMem (notMem_setting_name s)]
  simp only [String.ofList_toList, long, find_setting hs]

theorem turn_ne_ok {s : Switch} (hw : l.awaitsValue = true) : l.turn s ≠ .ok l' := by
  intro h
  obtain ⟨_, hl, -⟩ := bind_eq_ok_iff.mp h
  exact settle_ne_ok hw hl

theorem long_ne_ok {name : String} {value : Option String} (hw : l.awaitsValue = true) :
    l.long name value ≠ .ok l' := by
  intro h
  unfold long at h
  split at h
  · obtain ⟨_, hl, -⟩ := bind_eq_ok_iff.mp h
    exact settle_ne_ok hw hl
  · obtain ⟨_, hl, -⟩ := bind_eq_ok_iff.mp h
    exact settle_ne_ok hw hl
  · cases h
  · exact turn_ne_ok hw h
  · cases h

/-- After the name of a setting, the next argument is its value, unless it is the mark. -/
theorem next_awaits_eq_ok_iff {s : Setting} (hp : l.pending = .setting s none)
    (ho : l.operandsOnly = false) :
    l.next arg = .ok l' ↔
      (arg = "--" ∧ l' = { l with operandsOnly := true }) ∨
      (Plain arg ∧ l' = { l with pending := .setting s (some arg) }) := by
  have hw : l.awaitsValue = true := by rw [awaitsValue, hp]
  have hword : l.word arg = .ok { l with pending := .setting s (some arg) } := by rw [word, hp]
  constructor
  · intro h
    rcases arg_cases arg with rfl | ⟨c, cs, harg⟩ | ⟨c, cs, harg, hc⟩ | hplain
    · rw [next_mark ho] at h
      cases h
      exact .inl ⟨rfl, rfl⟩
    · rw [next_long ho harg] at h
      exact absurd h (long_ne_ok hw)
    · rw [next_short ho harg hc] at h
      unfold short at h
      split_ifs at h
      · exact absurd h (turn_ne_ok hw)
      · exact absurd h (turn_ne_ok hw)
      · cases h
    · rw [next_plain ho hplain, hword] at h
      cases h
      exact .inr ⟨hplain, rfl⟩
  · intro h
    rcases h with ⟨rfl, rfl⟩ | ⟨hplain, rfl⟩
    · exact next_mark ho
    · rw [next_plain ho hplain, hword]

end Level

end ShifterOperand.Command
