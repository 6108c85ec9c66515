import ShifterOperand.Machine
import ShifterOperand.Proofs.Immediate.Expansion
import ShifterOperand.Proofs.Shift.Exact

/-!
# How far a carry reaches

Two runs of the same steps that start from one word with different carries. A step either hands the
carry through and does not look at it, or puts a carry of its own in its place, or is a rotation with
extend and turns the carry into the top bit of the word. Main statement: the runs agree, each with its
own carry, up to the first step that sets the carry, and from there on they are one run unless that
step is a rotation with extend.
-/
namespace ShifterOperand.Machine

namespace Step

/-- The shift that a step comes down to when its operands can be decoded. -/
inductive Applies : Step → Shift → Prop
  | shift (s : Shift) : Applies (.shift s) s
  | immediate {code imm5 : UInt32} {s : Shift} (h : Shift.ofImmediate code imm5 = .ok s) :
      Applies (.immediate code imm5) s
  | register {code amount : UInt32} {k : Kind} (h : Shift.ofRegister code = .ok k) :
      Applies (.register code amount) ⟨k, amount⟩

/-- The steps with a carry of their own, on a word of this value: a shift by something, an expansion
that rotates, and the test of a bit. -/
inductive HasCarry (value : UInt32) : Step → Prop
  | shift {st : Step} {s : Shift} (h : st.Applies s) (hz : s.amount ≠ 0) : HasCarry value st
  | expandA32 (h : value.toNat / 2 ^ 8 % 2 ^ 4 ≠ 0) : HasCarry value .expandA32
  | expandT32Word {imm12 : UInt32} (hg : Immediate.gatherT32 value = .ok imm12)
      (h : imm12.toNat / 2 ^ 10 % 2 ^ 2 ≠ 0) : HasCarry value .expandT32Word
  | expandT32 (h : value.toNat / 2 ^ 10 % 2 ^ 2 ≠ 0) : HasCarry value .expandT32
  | test (pos : UInt32) : HasCarry value (.test pos)

/-- The step succeeds on the word and sets the carry. -/
def SetsCarry (w : Flagged) (st : Step) : Prop := (∃ u, st.next w = .ok u) ∧ st.HasCarry w.value

/-- The step is a rotation with extend. -/
def Extends (st : Step) : Prop := ∃ s, st.Applies s ∧ s.kind = .rrx

variable {st : Step} {s : Shift} {v : UInt32}

theorem Applies.unique {t : Shift} (h : st.Applies s) (h' : st.Applies t) : s = t := by
  cases h with
  | shift =>
    cases h'
    rfl
  | immediate h =>
    cases h' with
    | immediate h' => exact Except.ok.inj (h.symm.trans h')
  | register h =>
    cases h' with
    | register h' => rw [Except.ok.inj (h.symm.trans h')]

theorem Applies.next_eq (h : st.Applies s) :
    (∀ w, st.next w = s.apply w) ∨ ∀ w, st.next w = (s.apply w).demand := by
  cases h with
  | shift => exact .inl fun w => rfl
  | immediate h =>
    refine .inr fun w => ?_
    simp only [next, Contract.decodeImmediate, h, Answer.demand_ok, bind, Except.bind]
    rfl
  | register h =>
    refine .inr fun w => ?_
    simp only [next, Contract.decodeRegister, h, Answer.demand_ok, bind, Except.bind]
    rfl

/-- The step answers the same for both carries and keeps the one that it finds: it succeeds without
setting the carry, or it fails. -/
def Keeps (v : UInt32) (st : Step) : Prop :=
  ∃ a : Answer UInt32, ∀ c, st.next ⟨v, c⟩ = a.map (Flagged.mk · c) ∧ ¬ st.SetsCarry ⟨v, c⟩

/-- The step sets the carry without looking at the one that it finds. -/
def Replaces (v : UInt32) (st : Step) : Prop :=
  ¬ st.Extends ∧ ∃ u, ∀ c, st.next ⟨v, c⟩ = .ok u ∧ st.SetsCarry ⟨v, c⟩

/-- The step sets the carry and takes the one that it finds into the word. -/
def Turns (v : UInt32) (st : Step) : Prop :=
  st.Extends ∧ ∀ c, st.next ⟨v, c⟩ = Barrel.rrx v c ∧ st.SetsCarry ⟨v, c⟩

theorem keeps_of_not_hasCarry {a : Answer UInt32} (h : ∀ c, st.next ⟨v, c⟩ = a.map (Flagged.mk · c))
    (hn : ¬ st.HasCarry v) : st.Keeps v :=
  ⟨a, fun c => ⟨h c, fun hset => hn hset.2⟩⟩

theorem keeps_of_fails (stop : Stop) (h : ∀ c, st.next ⟨v, c⟩ = .error stop) : st.Keeps v := by
  refine ⟨.error stop, fun c => ⟨h c, ?_⟩⟩
  rintro ⟨⟨u, hu⟩, -⟩
  rw [h c] at hu
  cases hu

theorem replaces_of_hasCarry {u : Flagged} (hx : ¬ st.Extends) (h : ∀ c, st.next ⟨v, c⟩ = .ok u)
    (hc : st.HasCarry v) : st.Replaces v :=
  ⟨hx, u, fun c => ⟨h c, ⟨u, h c⟩, hc⟩⟩

theorem Applies.not_hasCarry (h : st.Applies s) (hz : s.amount = 0) : ¬ st.HasCarry v := by
  intro hc
  cases hc with
  | shift h' hz' =>
    rw [h.unique h'] at hz
    exact hz' hz
  | expandA32 | expandT32Word | expandT32 | test => cases h

theorem Applies.next_eq_ok (h : st.Applies s) {w u : Flagged} (hs : s.apply w = .ok u) :
    st.next w = .ok u := by
  rcases h.next_eq with h | h
  · rw [h, hs]
  · rw [h, hs, Answer.demand_ok]

theorem Applies.exists_next_eq_error (h : st.Applies s) {f : Fault}
    (hs : ∀ c, s.apply ⟨v, c⟩ = .error (.refused f)) : ∃ stop, ∀ c, st.next ⟨v, c⟩ = .error stop := by
  rcases h.next_eq with h | h
  · exact ⟨.refused f, fun c => by rw [h, hs]⟩
  · exact ⟨.breach f, fun c => by rw [h, hs, Answer.demand_refused]⟩

theorem dispatch_eq_of_ne_rrx (hk : s.kind ≠ .rrx) (c c' : Bool) :
    s.dispatch ⟨v, c⟩ = s.dispatch ⟨v, c'⟩ := by
  obtain ⟨k, amount⟩ := s
  cases k with
  | lsl | lsr | asr | ror => rfl
  | rrx => exact absurd rfl hk

/-- A step that comes down to a shift keeps the carry when it shifts by nothing or is refused. -/
theorem Applies.cases_on_carry (h : st.Applies s) (v : UInt32) :
    st.Keeps v ∨ st.Replaces v ∨ st.Turns v := by
  obtain ⟨k, amount⟩ := s
  by_cases hz : amount = 0
  · subst hz
    exact .inl (keeps_of_not_hasCarry (a := .ok v) (fun c => h.next_eq_ok rfl) (h.not_hasCarry rfl))
  by_cases ht : k.Takes amount
  · have hc : st.HasCarry v := .shift h hz
    by_cases hk : k = .rrx
    · subst hk
      have happly (c : Bool) : (Shift.mk .rrx amount).apply ⟨v, c⟩ = Barrel.rrx v c :=
        Shift.apply_eq_dispatch ⟨v, c⟩ ht
      refine .inr (.inr ⟨⟨_, h, rfl⟩, fun c => ?_⟩)
      have hrrx : Barrel.rrx v c = _ := Barrel.rrx_eq_ok c
      have hnext := h.next_eq_ok ((happly c).trans hrrx)
      exact ⟨hnext.trans hrrx.symm, ⟨_, hnext⟩, hc⟩
    · obtain ⟨u, hu, -⟩ := Shift.exists_apply_eq_ok ⟨v, false⟩ ht
      refine .inr (.inl (replaces_of_hasCarry (u := u) ?_ (fun c => h.next_eq_ok ?_) hc))
      · rintro ⟨t, h', ht⟩
        rw [← h.unique h'] at ht
        exact hk ht
      · rw [Shift.apply_eq_dispatch _ ht, dispatch_eq_of_ne_rrx hk c false,
          ← Shift.apply_eq_dispatch _ ht, hu]
  · obtain ⟨stop, hstop⟩ := h.exists_next_eq_error (v := v)
      fun c => Shift.apply_eq_refused ⟨v, c⟩ hz ht
    exact .inl (keeps_of_fails stop hstop)

theorem immediate_cases (code imm5 : UInt32) (v : UInt32) :
    (∃ s, Applies (.immediate code imm5) s) ∨ Keeps v (.immediate code imm5) := by
  rcases Shift.examined_ofImmediate code imm5 with ⟨s, hs⟩ | ⟨f, hf⟩
  · exact .inl ⟨s, .immediate hs⟩
  · refine .inr (keeps_of_fails (.breach f) fun c => ?_)
    simp only [next, Contract.decodeImmediate, hf, Answer.demand_refused, bind, Except.bind]

theorem register_cases (code amount : UInt32) (v : UInt32) :
    (∃ s, Applies (.register code amount) s) ∨ Keeps v (.register code amount) := by
  rcases Shift.examined_ofRegister code with ⟨k, hk⟩ | ⟨f, hf⟩
  · exact .inl ⟨_, .register hk⟩
  · refine .inr (keeps_of_fails (.breach f) fun c => ?_)
    simp only [next, Contract.decodeRegister, hf, Answer.demand_refused, bind, Except.bind]

theorem hasCarry_expandA32_iff : HasCarry v .expandA32 ↔ Word.slice v 8 4 ≠ 0 := by
  have hslice := Word.slice_eq_zero_iff v 8 4 (by decide)
  constructor
  · intro hc
    cases hc with
    | shift h => cases h
    | expandA32 h => exact hslice.not.mpr h
  · intro h
    exact .expandA32 (hslice.not.mp h)

theorem hasCarry_expandT32_iff : HasCarry v .expandT32 ↔ Word.slice v 10 2 ≠ 0 := by
  have hslice := Word.slice_eq_zero_iff v 10 2 (by decide)
  constructor
  · intro hc
    cases hc with
    | shift h => cases h
    | expandT32 h => exact hslice.not.mpr h
  · intro h
    exact .expandT32 (hslice.not.mp h)

/-- An instruction word is expanded as the immediate that is gathered from it. -/
theorem hasCarry_expandT32Word_iff {imm12 : UInt32} (hg : Immediate.gatherT32 v = .ok imm12) :
    HasCarry v .expandT32Word ↔ Word.slice imm12 10 2 ≠ 0 := by
  have hslice := Word.slice_eq_zero_iff imm12 10 2 (by decide)
  constructor
  · intro hc
    cases hc with
    | shift h => cases h
    | expandT32Word hg' h =>
      cases hg.symm.trans hg'
      exact hslice.not.mpr h
  · intro h
    exact .expandT32Word hg (hslice.not.mp h)

theorem cases_of_expansion {p : Prop} (hx : ¬ st.Extends) (hc : st.HasCarry v ↔ ¬ p)
    (hkeep : p → ∃ constant, ∀ c, st.next ⟨v, c⟩ = .ok ⟨constant, c⟩)
    (hset : ¬ p → ∃ u, ∀ c, st.next ⟨v, c⟩ = .ok u) : st.Keeps v ∨ st.Replaces v := by
  by_cases hp : p
  · obtain ⟨constant, h⟩ := hkeep hp
    exact .inl (keeps_of_not_hasCarry (a := .ok constant) h (hc.not.mpr (not_not.mpr hp)))
  · obtain ⟨u, h⟩ := hset hp
    exact .inr (replaces_of_hasCarry hx h (hc.mpr hp))

theorem expandA32_cases (v : UInt32) : Keeps v .expandA32 ∨ Replaces v .expandA32 :=
  cases_of_expansion (fun ⟨_, h, _⟩ => nomatch h) hasCarry_expandA32_iff
    Immediate.exists_expandA32_of_eq_zero Immediate.exists_expandA32_of_ne_zero

theorem expandT32_cases (v : UInt32) : Keeps v .expandT32 ∨ Replaces v .expandT32 :=
  cases_of_expansion (fun ⟨_, h, _⟩ => nomatch h) hasCarry_expandT32_iff
    Immediate.exists_expandT32_of_eq_zero Immediate.exists_expandT32_of_ne_zero

theorem expandT32Word_cases (v : UInt32) : Keeps v .expandT32Word ∨ Replaces v .expandT32Word := by
  obtain ⟨imm12, hg⟩ : ∃ imm12, Immediate.gatherT32 v = .ok imm12 := ⟨_, Immediate.gatherT32_eq_ok v⟩
  have hnext (c : Bool) : next ⟨v, c⟩ .expandT32Word = Immediate.expandT32 imm12 c := by
    simp only [next, Immediate.expandT32Word, hg, bind, Except.bind]
  refine cases_of_expansion (fun ⟨_, h, _⟩ => nomatch h) (hasCarry_expandT32Word_iff hg)
    (fun hz => ?_) fun hz => ?_
  · obtain ⟨constant, h⟩ := Immediate.exists_expandT32_of_eq_zero hz
    exact ⟨constant, fun c => (hnext c).trans (h c)⟩
  · obtain ⟨u, h⟩ := Immediate.exists_expandT32_of_ne_zero hz
    exact ⟨u, fun c => (hnext c).trans (h c)⟩

theorem test_cases (v pos : UInt32) : Keeps v (.test pos) ∨ Replaces v (.test pos) := by
  by_cases hpos : pos < 32
  · refine .inr (replaces_of_hasCarry (u := ⟨v, v.toNat.testBit pos.toNat⟩) (fun ⟨s, h, _⟩ => nomatch h)
      (fun c => ?_) (.test pos))
    simp only [next, Word.testBit_eq_ok hpos, bind, Except.bind, pure, Except.pure]
  · refine .inl (keeps_of_fails (.breach (.bitRange pos pos)) fun c => ?_)
    have hrange : 32 ≤ pos ∨ pos < pos := .inl (UInt32.not_lt.mp hpos)
    simp only [next, Word.testBit, Word.bit, Word.field_eq_error hrange, bind, Except.bind]

/-- A step that computes a word from the word alone keeps the carry. -/
theorem keeps_of_word (f : UInt32 → Answer UInt32) (hn : ¬ st.HasCarry v)
    (h : ∀ c, st.next ⟨v, c⟩ = do return ⟨← f v, c⟩) : st.Keeps v := by
  refine keeps_of_not_hasCarry (a := f v) (fun c => (h c).trans ?_) hn
  cases f v <;> rfl

/-- The ways in which a step and the carry can meet. -/
theorem carry_cases (v : UInt32) (st : Step) : st.Keeps v ∨ st.Replaces v ∨ st.Turns v := by
  cases st with
  | shift s => exact (Applies.shift s).cases_on_carry v
  | immediate code imm5 =>
    rcases immediate_cases code imm5 v with ⟨s, h⟩ | h
    · exact h.cases_on_carry v
    · exact .inl h
  | register code amount =>
    rcases register_cases code amount v with ⟨s, h⟩ | h
    · exact h.cases_on_carry v
    · exact .inl h
  | expandA32 => exact (expandA32_cases v).imp_right .inl
  | expandT32Word => exact (expandT32Word_cases v).imp_right .inl
  | expandT32 => exact (expandT32_cases v).imp_right .inl
  | gatherT32 =>
    exact .inl (keeps_of_word Immediate.gatherT32 (fun | .shift h _ => nomatch h) fun _ => rfl)
  | scaledOffset =>
    exact .inl (keeps_of_word Immediate.scaledOffset (fun | .shift h _ => nomatch h) fun _ => rfl)
  | signExtend width =>
    exact .inl (keeps_of_word (Word.signExtend · width) (fun | .shift h _ => nomatch h) fun _ => rfl)
  | field msb lsb =>
    exact .inl (keeps_of_word (Word.field · msb lsb) (fun | .shift h _ => nomatch h) fun _ => rfl)
  | test pos => exact (test_cases v pos).imp_right .inl

end Step

/-- No step of the run sets the carry. -/
inductive Quiet : Flagged → List Step → Prop
  | nil (w : Flagged) : Quiet w []
  | cons {w : Flagged} {st : Step} {rest : List Step} (h : ¬ st.SetsCarry w)
      (hr : Quiet (settle w (st.next w)) rest) : Quiet w (st :: rest)

theorem exists_settle_eq (v : UInt32) (a : Answer UInt32) :
    ∃ u, ∀ c, settle ⟨v, c⟩ (a.map (Flagged.mk · c)) = ⟨u, c⟩ := by
  cases a with
  | ok u => exact ⟨u, fun _ => rfl⟩
  | error stop => exact ⟨v, fun _ => rfl⟩

/-- A run begins with steps that keep the carry, and what ends this beginning sets the carry. -/
theorem exists_quiet_start (v : UInt32) (steps : List Step) :
    ∃ (quiet rest : List Step) (answers : List (Answer UInt32)) (u : UInt32),
      steps = quiet ++ rest ∧
      (∀ c, Quiet ⟨v, c⟩ quiet ∧ run ⟨v, c⟩ quiet = answers.map (Except.map (Flagged.mk · c)) ∧
        final ⟨v, c⟩ quiet = ⟨u, c⟩) ∧
      (rest = [] ∨ ∃ st after, rest = st :: after ∧ (st.Replaces u ∨ st.Turns u)) := by
  induction steps generalizing v with
  | nil => exact ⟨[], [], [], v, rfl, fun c => ⟨.nil _, rfl, rfl⟩, .inl rfl⟩
  | cons st steps ih =>
    rcases st.carry_cases v with ⟨a, ha⟩ | h
    · obtain ⟨v', hsettle⟩ := exists_settle_eq v a
      have hnext (c : Bool) : settle ⟨v, c⟩ (st.next ⟨v, c⟩) = ⟨v', c⟩ := by
        rw [(ha c).1, hsettle]
      obtain ⟨quiet, rest, answers, u, rfl, hquiet, hrest⟩ := ih v'
      refine ⟨st :: quiet, rest, a :: answers, u, rfl, fun c => ?_, hrest⟩
      obtain ⟨hq, hrun, hfinal⟩ := hquiet c
      refine ⟨.cons (ha c).2 ?_, ?_, ?_⟩
      · rwa [hnext]
      · rw [run, hnext, hrun, (ha c).1, List.map_cons]
      · rw [final_cons, hnext, hfinal]
    · exact ⟨[], st :: steps, [], v, rfl, fun c => ⟨.nil _, rfl, rfl⟩, .inr ⟨st, steps, rfl, h⟩⟩

/-- The carry that a rotation with extend takes in is the top bit of the word, and the one that it
leaves comes from the word. -/
theorem rrx_carries (v : UInt32) :
    ∃ x y, Barrel.rrx v false = .ok x ∧ Barrel.rrx v true = .ok y ∧ x.carry = y.carry ∧
      ∀ i, x.value.toNat.testBit i ≠ y.value.toNat.testBit i ↔ i = 31 := by
  obtain ⟨x, hx, hx'⟩ := Barrel.rrx_eq_exact v false
  obtain ⟨y, hy, hy'⟩ := Barrel.rrx_eq_exact v true
  obtain ⟨hxv, hxc⟩ := Prod.mk.inj hx'
  obtain ⟨hyv, hyc⟩ := Prod.mk.inj hy'
  have hhalf : v.toNat / 2 < 2 ^ 31 := by
    have hv := v.toNat_lt
    omega
  refine ⟨x, y, hx, hy, hxc.trans hyc.symm, fun i => ?_⟩
  rw [hxv, hyv, Nat.mul_comm, Nat.testBit_two_pow_mul_add _ hhalf, Nat.mul_comm true.toNat,
    Nat.testBit_two_pow_mul_add _ hhalf]
  by_cases hi : i < 31
  · simp [hi, hi.ne]
  · obtain ⟨k, rfl⟩ := Nat.exists_eq_add_of_le (Nat.not_lt.mp hi)
    cases k <;> simp [Nat.testBit_succ]

/-- Two runs of the same steps, from one word with either carry. They answer alike, each with the
carry that it started with, up to the first step that sets the carry. That step makes them one run,
unless it is a rotation with extend, which leaves one carry and two words that differ in the top bit. -/
theorem runs_agree_until_carry_set (v : UInt32) (steps : List Step) :
    ∃ (quiet rest : List Step) (answers : List (Answer UInt32)) (u : UInt32),
      steps = quiet ++ rest ∧
      (∀ c, Quiet ⟨v, c⟩ quiet ∧ run ⟨v, c⟩ quiet = answers.map (Except.map (Flagged.mk · c)) ∧
        final ⟨v, c⟩ quiet = ⟨u, c⟩ ∧ run ⟨v, c⟩ steps = run ⟨v, c⟩ quiet ++ run ⟨u, c⟩ rest) ∧
      (rest = [] ∨ ∃ st after, rest = st :: after ∧ (∀ c, st.SetsCarry ⟨u, c⟩) ∧
        (¬ st.Extends ∧ run ⟨u, false⟩ rest = run ⟨u, true⟩ rest ∨
          st.Extends ∧ ∃ x y, st.next ⟨u, false⟩ = .ok x ∧ st.next ⟨u, true⟩ = .ok y ∧
            x.carry = y.carry ∧
            ∀ i, x.value.toNat.testBit i ≠ y.value.toNat.testBit i ↔ i = 31)) := by
  obtain ⟨quiet, rest, answers, u, rfl, hquiet, hrest⟩ := exists_quiet_start v steps
  refine ⟨quiet, rest, answers, u, rfl, fun c => ?_, hrest.imp_right ?_⟩
  · obtain ⟨hq, hrun, hfinal⟩ := hquiet c
    exact ⟨hq, hrun, hfinal, by rw [run_append, hfinal]⟩
  · rintro ⟨st, after, rfl, ⟨hx, w, hw⟩ | ⟨hx, hw⟩⟩
    · refine ⟨st, after, rfl, fun c => (hw c).2, .inl ⟨hx, ?_⟩⟩
      rw [run, run, (hw false).1, (hw true).1]
      rfl
    · obtain ⟨x, y, hfalse, htrue, hcarry, hbits⟩ := rrx_carries u
      exact ⟨st, after, rfl, fun c => (hw c).2,
        .inr ⟨hx, x, y, (hw false).1.trans hfalse, (hw true).1.trans htrue, hcarry, hbits⟩⟩

end ShifterOperand.Machine
