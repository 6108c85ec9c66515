import ShifterOperand.Proofs.Json.Scanner

/-!
# What the reader of tokens accepts

A reading holds values that are still open, and `Reading.seen` gives back the tokens behind it. Each
step adds its own token to them. Main statement: a value is read from its own tokens and from no others
(`ofTokens?_eq_some_iff`).
-/
namespace ShifterOperand.Json

/-- The tokens of the items before another one, the latest of them first in the list. -/
def itemsBefore : List Json → List Token
  | [] => []
  | j :: done => itemsBefore done ++ (j.tokens ++ [.comma])

/-- The tokens of the members before another one, the latest of them first in the list. -/
def membersBefore : List (List Piece × Json) → List Token
  | [] => []
  | (k, j) :: done => membersBefore done ++ (.string k :: .colon :: (j.tokens ++ [.comma]))

def Frame.tokens : Frame → List Token
  | items done => .openArray :: itemsBefore done
  | members done k => .openObject :: (membersBefore done ++ [.string k, .colon])

def stackTokens : List Frame → List Token
  | [] => []
  | f :: stack => stackTokens stack ++ f.tokens

/-- The tokens that have been read. -/
def Reading.seen : Reading → List Token
  | value stack => stackTokens stack
  | firstItem stack => stackTokens stack ++ [.openArray]
  | firstKey stack => stackTokens stack ++ [.openObject]
  | key done stack => stackTokens stack ++ (.openObject :: membersBefore done)
  | colon done k stack => stackTokens stack ++ (.openObject :: (membersBefore done ++ [.string k]))
  | complete j stack => stackTokens stack ++ j.tokens

theorem tokens_array_reverse (done : List Json) (j : Json) (rest : List Json) :
    (array (done.reverse ++ j :: rest)).tokens =
      .openArray :: (itemsBefore done ++ (j.tokens ++ tokensOfItems rest)) := by
  induction done generalizing j rest with
  | nil => rfl
  | cons i done ih =>
    have hh := ih i (j :: rest)
    simpa [itemsBefore, tokensOfItems] using hh

theorem tokens_object_reverse (done : List (List Piece × Json)) (k : List Piece) (j : Json)
    (rest : List (List Piece × Json)) :
    (object (done.reverse ++ (k, j) :: rest)).tokens =
      .openObject :: (membersBefore done ++
        (.string k :: .colon :: (j.tokens ++ tokensOfMembers rest))) := by
  induction done generalizing k j rest with
  | nil => rfl
  | cons m done ih =>
    have hh := ih m.1 m.2 ((k, j) :: rest)
    simpa [membersBefore, tokensOfMembers] using hh

namespace Reading

theorem seen_enter {stack : List Frame} {t : Token} {r : Reading} (h : enter stack t = some r) :
    r.seen = stackTokens stack ++ [t] := by
  cases t with
  | null | bool | number | string | openArray | openObject =>
    cases h
    simp [seen, tokens]
  | closeArray | closeObject | comma | colon => cases h

theorem seen_leave {j : Json} {stack : List Frame} {t : Token} {r : Reading}
    (h : leave j stack t = some r) : r.seen = stackTokens stack ++ (j.tokens ++ [t]) := by
  unfold leave at h
  split at h
  · cases h
    simp [seen, stackTokens, Frame.tokens, itemsBefore]
  · next done stack =>
    cases h
    have hh := tokens_array_reverse done j []
    simp [seen, stackTokens, Frame.tokens, hh, tokensOfItems]
  · cases h
    simp [seen, stackTokens, Frame.tokens, membersBefore]
  · next done k stack =>
    cases h
    have hh := tokens_object_reverse done k j []
    simp [seen, stackTokens, Frame.tokens, hh, tokensOfMembers]
  · cases h

/-- A step adds its token to those that have been read. -/
theorem seen_next {r r' : Reading} {t : Token} (h : r.next t = some r') :
    r'.seen = r.seen ++ [t] := by
  unfold next at h
  split at h
  · exact seen_enter h
  · cases h
    simp [seen, tokens]
  · rw [seen_enter h]
    simp [seen, stackTokens, Frame.tokens, itemsBefore]
  · cases h
    simp [seen, tokens]
  · cases h
    simp [seen, membersBefore]
  · cases h
    simp [seen]
  · cases h
    simp [seen, stackTokens, Frame.tokens]
  · rw [seen_leave h]
    simp [seen]
  · cases h

theorem seen_foldlM {r r' : Reading} {ts : List Token} (h : ts.foldlM next r = some r') :
    r'.seen = r.seen ++ ts := by
  induction ts generalizing r with
  | nil =>
    cases h
    rw [List.append_nil]
  | cons t ts ih =>
    rw [List.foldlM_cons] at h
    obtain ⟨s, hs, hrest⟩ := Option.bind_eq_some_iff.mp h
    rw [ih hrest, seen_next hs, List.append_assoc, List.singleton_append]

end Reading

/-- A value is read from its own tokens and from no others. -/
theorem ofTokens?_eq_some_iff {ts : List Token} {j : Json} :
    ofTokens? ts = some j ↔ ts = j.tokens := by
  constructor
  · intro h
    obtain ⟨r, hr, hj⟩ := Option.bind_eq_some_iff.mp h
    have hseen := Reading.seen_foldlM hr
    unfold Reading.value? at hj
    split at hj
    · cases hj
      exact hseen.symm
    · cases hj
  · intro h
    subst h
    exact ofTokens?_tokens j

end ShifterOperand.Json
