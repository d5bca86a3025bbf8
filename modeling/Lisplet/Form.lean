import Lisplet.Token.Lexer
import Lisplet.Value.Order

/-! Reading forms from tokens. A form is a value: a literal, a bracketed sequence of
forms, or a form behind a mark, which stands for a call of the mark's name. The reader
looks one token ahead: it takes a token only together with a sound token or the end of
the text behind it. A lexical fault therefore spoils the token in front of it as well,
and ends the reading. After any other fault reading goes on behind the last token taken. -/

namespace Lisplet

open Text (Position)

/-- Why tokens are no form. -/
inductive ReadFault where
  | lexical (e : LexFault)
  | unexpected (b : Bracket)
  | missing (b : Bracket)
  | oddMap
  | endOfText
deriving DecidableEq, Inhabited

def ReadFault.message : ReadFault → String
  | lexical e => e.message
  | unexpected b => "Unexpected '" ++ b.closer.toString ++ "'"
  | missing b => "Expected '" ++ b.closer.toString ++ "', got EOF"
  | oddMap => "Map literal must contain an even number of forms"
  | endOfText => "Unexpected end of input"

/-- A fault and the place where reading met it. -/
structure ReadError where
  fault : ReadFault
  pos : Position
deriving DecidableEq, Inhabited

def ReadError.message (e : ReadError) : String :=
  "Parse error at " ++ e.pos.text ++ ": " ++ e.fault.message

namespace Form

/-- The form that a mark in front of `v` makes of it. -/
def marked (s : Sigil) (v : Value) : Value := .list [.symbol s.name, v]

/-- The form with metadata attached. -/
def tagged (data v : Value) : Value := .list [.symbol "with-meta", v, data]

/-- Takes forms two by two, as the entries of a map. -/
def pairs? : List Value → Option (List (Value × Value))
  | [] => some []
  | [_] => none
  | k :: v :: rest => (pairs? rest).map ((k, v) :: ·)

theorem pairs?_eq_none_iff (xs : List Value) : pairs? xs = none ↔ xs.length % 2 = 1 := by
  fun_induction pairs? xs with
  | case1 => simp
  | case2 => simp
  | case3 k v rest ih =>
    rw [Option.map_eq_none_iff, ih, List.length_cons, List.length_cons]
    omega

/-- The value of a bracketed sequence of forms. -/
def bracketed (b : Bracket) (items : List Value) : Except ReadFault Value :=
  match b with
  | .round => .ok (.list items)
  | .square => .ok (.vector items)
  | .curly =>
    match pairs? items with
    | some ps => .ok (.mapOf ps)
    | none => .error .oddMap

/-- Only a map can be wrong by its forms, and only by their number. -/
theorem bracketed_eq_error_iff {b : Bracket} {items : List Value} {e : ReadFault} :
    bracketed b items = .error e ↔ b = .curly ∧ e = .oddMap ∧ items.length % 2 = 1 := by
  cases b with
  | round | square => simp [bracketed]
  | curly =>
    rw [← pairs?_eq_none_iff, bracketed]
    cases pairs? items <;> simp [eq_comm]

/-- A form that has begun and waits for a form inside it, or for its closing bracket. -/
inductive Open where
  /-- Inside a bracket, the forms read so far being `done`, the last one first. -/
  | bracket (b : Bracket) (done : List Value)
  | mark (s : Sigil)
  /-- Waits for metadata. -/
  | tag
  /-- Waits for the form that has the metadata `data`. -/
  | tagging (data : Value)

/-- Hands a finished form to the innermost open one: either the outermost form is
thereby finished too, or open forms remain. -/
def deliver : List Open → Value → Value ⊕ List Open
  | [], v => .inl v
  | .bracket b done :: outer, v => .inr (.bracket b (v :: done) :: outer)
  | .mark s :: outer, v => deliver outer (marked s v)
  | .tag :: outer, v => .inr (.tagging v :: outer)
  | .tagging data :: outer, v => deliver outer (tagged data v)

/-- What a token does to the open forms. -/
def accept (opened : List Open) : Token → Except ReadFault (Value ⊕ List Open)
  | .opening b => .ok (.inr (.bracket b [] :: opened))
  | .closing b =>
    match opened with
    | .bracket b' done :: outer =>
      if b = b' then (bracketed b done.reverse).map (deliver outer) else .error (.unexpected b)
    | _ => .error (.unexpected b)
  | .sigil s => .ok (.inr (.mark s :: opened))
  | .tag => .ok (.inr (.tag :: opened))
  | .nil => .ok (deliver opened .nil)
  | .bool b => .ok (deliver opened (.bool b))
  | .int n => .ok (deliver opened (.int n))
  | .str s => .ok (deliver opened (.str s))
  | .symbol name => .ok (deliver opened (.symbol name))
  | .keyword name => .ok (deliver opened (.keyword (Keyword.nameOf name)))

/-- The fault of a text that ends while forms are open; `last` is the place behind the
last token. -/
def atEnd (opened : List Open) (last finish : Position) : ReadError :=
  match opened with
  | .bracket b _ :: _ => ⟨.missing b, last⟩
  | _ => ⟨.endOfText, finish⟩

/-- Reads on until the outermost open form is finished; `last` is the place behind the
last token taken. Gives what was found and the tokens behind it. -/
def finish (fault : Option LexFault) (stop : Position) :
    List Open → Position → List (Token × Position) → Except ReadError Value × Tokens
  | opened, last, [] => (.error (atEnd opened last stop), ⟨[], fault, stop⟩)
  | opened, _, (t, p) :: more =>
    match more, fault with
    | [], some e => (.error ⟨.lexical e, stop⟩, ⟨[], none, stop⟩)
    | _, _ =>
      match accept opened t with
      | .error e => (.error ⟨e, p⟩, ⟨more, fault, stop⟩)
      | .ok (.inl v) => (.ok v, ⟨more, fault, stop⟩)
      | .ok (.inr opened) => finish fault stop opened p more

/-- The next form or fault, and the tokens behind it; none where no tokens are left. -/
def next (ts : Tokens) : Option (Except ReadError Value × Tokens) :=
  match ts.items with
  | [] => none
  | items => some (finish ts.fault ts.finish [] .start items)

theorem length_finish_le (fault : Option LexFault) (stop : Position) (opened : List Open)
    (last : Position) (items : List (Token × Position)) :
    (finish fault stop opened last items).2.items.length ≤ items.length - 1 := by
  induction items generalizing opened last with
  | nil => simp [finish]
  | cons item more ih =>
    obtain ⟨t, p⟩ := item
    simp only [finish]
    split
    · simp
    · split
      · simp
      · simp
      · exact Nat.le_trans (ih ..) (by simp)

/-- Each form or fault takes at least one token. -/
theorem length_next_lt {ts ts' : Tokens} {found : Except ReadError Value}
    (h : next ts = some (found, ts')) : ts'.items.length < ts.items.length := by
  unfold next at h
  split at h
  · contradiction
  · next items hne =>
    have hl := length_finish_le ts.fault ts.finish [] .start ts.items
    have hpos : 0 < ts.items.length := List.length_pos_iff.mpr hne
    simp only [Option.some.injEq] at h
    rw [h] at hl
    simp only at hl
    omega

/-- All forms and faults to the end. -/
def all (ts : Tokens) : List (Except ReadError Value) :=
  match h : next ts with
  | none => []
  | some (found, ts') =>
    have : ts'.items.length < ts.items.length := length_next_lt h
    found :: all ts'
termination_by ts.items.length

theorem all_eq (ts : Tokens) :
    all ts =
      match next ts with
      | none => []
      | some (found, ts') => found :: all ts' := by
  rw [all]
  split
  · next h => simp only [h]
  · next found ts' h => simp only [h]

/-- The tokens of a text, ready to be read; fails if the text starts with a lexical fault. -/
def start (s : String) : Except ReadError Tokens :=
  match Tokens.ofString s with
  | ⟨[], some e, stop⟩ => .error ⟨.lexical e, stop⟩
  | ts => .ok ts

/-- The forms of a text in order, and the faults between them. -/
def sequence (s : String) : List (Except ReadError Value) :=
  match start s with
  | .error e => [.error e]
  | .ok ts => all ts

/-- The forms found, or the first fault. -/
def collect : List (Except ReadError Value) → Except ReadError (List Value)
  | [] => .ok []
  | .error e :: _ => .error e
  | .ok v :: more => (collect more).map (v :: ·)

/-- All forms of a text. -/
def readAll (s : String) : Except ReadError (List Value) := collect (sequence s)

/-- Reads on from the token `t` until the outermost open form is finished, and looks at no
more of the text than it takes; `s` is what follows the token. -/
def readFrom (opened : List Open) (t : Token) (s : Source) : Except ReadError Value :=
  match h : s.next with
  | (some (.error e), behind) => .error ⟨.lexical e, behind.pos⟩
  | (none, behind) =>
    match accept opened t with
    | .error e => .error ⟨e, s.pos⟩
    | .ok (.inl v) => .ok v
    | .ok (.inr opened) => .error (atEnd opened s.pos behind.pos)
  | (some (.ok u), behind) =>
    match accept opened t with
    | .error e => .error ⟨e, s.pos⟩
    | .ok (.inl v) => .ok v
    | .ok (.inr opened) =>
      have : behind.rest.length < s.rest.length := Source.length_next_lt h
      readFrom opened u behind
termination_by s.rest.length

/-- The first form of a text, if it has one. What stands behind it is not looked at. -/
def readFirst (text : String) : Except ReadError (Option Value) :=
  match (Source.ofString text).next with
  | (none, _) => .ok none
  | (some (.error e), behind) => .error ⟨.lexical e, behind.pos⟩
  | (some (.ok t), behind) => some <$> readFrom [] t behind

/-- Reading as far as the form goes finds what reading all tokens finds first. -/
theorem readFrom_eq (opened : List Open) (t : Token) (s : Source) (last : Position) :
    readFrom opened t s =
      (finish (Tokens.ofSource s).fault (Tokens.ofSource s).finish opened last
        ((t, s.pos) :: (Tokens.ofSource s).items)).1 := by
  fun_induction readFrom opened t s generalizing last with
  | case1 opened t s e behind h => rw [Tokens.ofSource_eq, h]; rfl
  | case2 opened t s behind h e ha => rw [Tokens.ofSource_eq, h]; simp only [finish, ha]
  | case3 opened t s behind h v ha => rw [Tokens.ofSource_eq, h]; simp only [finish, ha]
  | case4 opened t s behind h opened' ha => rw [Tokens.ofSource_eq, h]; simp only [finish, ha]
  | case5 opened t s u behind h e ha => rw [Tokens.ofSource_eq, h]; simp only [finish, ha]
  | case6 opened t s u behind h v ha => rw [Tokens.ofSource_eq, h]; simp only [finish, ha]
  | case7 opened t s u behind h opened' ha hl ih =>
    rw [ih s.pos, Tokens.ofSource_eq s, h]
    simp only [finish, ha]

/-- The first form is the first of all. -/
theorem readFirst_eq (text : String) :
    readFirst text =
      match sequence text with
      | [] => .ok none
      | .error e :: _ => .error e
      | .ok v :: _ => .ok (some v) := by
  unfold readFirst sequence start
  rw [Tokens.ofString, Tokens.ofSource_eq]
  cases (Source.ofString text).next with
  | mk found behind =>
    cases found with
    | none =>
      simp only
      rw [all_eq]
      rfl
    | some found =>
      cases found with
      | error e => simp only
      | ok t =>
        simp only
        rw [readFrom_eq [] t behind .start, all_eq]
        simp only [next]
        cases (finish _ _ [] .start _).1 <;> rfl

end Form

end Lisplet
