import Lisplet.Proofs.Grammar
import Lisplet.Proofs.NewRoot

/-! Loading a file. The text of the file is put between `(do ` and `nil)`, the first form of the
whole is read, and what is read is evaluated in the root frame. Nothing makes sure that the text
stays inside the form that is put around it. A text that can be read does. Of one that cannot, the
form may end before the text does, and it may use up the `nil`; then it is evaluated all the
same. -/

namespace Lisplet

open Text (Position)

/-! ## The text that is read -/

/-- The text of a file inside a form that evaluates one form after the other. -/
def Prelude.wrapped (s : String) : String := "(do " ++ s ++ "\nnil)"

namespace Tokens

variable {items : List (Token × Position)} {ts : Tokens} {s : String} {origin : Position}

theorem toList_behind : (ts.behind items).toList = items.map Prod.fst ++ ts.toList := by
  rw [toList, behind, List.map_append]
  rfl

/-- Where a text begins only matters for the places of its tokens. -/
theorem ofSource_anywhere (s : String) (p : Position) :
    (ofSource ⟨s.toList, p⟩).toList = (ofString s).toList ∧
      (ofSource ⟨s.toList, p⟩).fault = (ofString s).fault := by
  rw [ofSource_moved, ofString, Source.ofString]
  exact ⟨by simp [toList, moved], rfl⟩

/-- In front of the text of the file the form begins. -/
theorem ofSource_opened (cs : List Char) (p : Position) :
    ∃ items q, items.map Prod.fst = [.opening .round, .symbol "do"] ∧
      ofSource ⟨'(' :: 'd' :: 'o' :: ' ' :: cs, p⟩ = (ofSource ⟨cs, q⟩).behind items := by
  have hopen : Source.next ⟨'(' :: 'd' :: 'o' :: ' ' :: cs, p⟩ =
      (some (.ok (.opening .round)), ⟨'d' :: 'o' :: ' ' :: cs, p.after "(".toList⟩) := rfl
  have hword : Source.next ⟨'d' :: 'o' :: ' ' :: cs, p.after "(".toList⟩ =
      (some (.ok (.symbol "do")), ⟨' ' :: cs, p.after "(do".toList⟩) := rfl
  have hblank : ofSource ⟨' ' :: cs, p.after "(do".toList⟩ =
      ofSource ⟨cs, p.after "(do ".toList⟩ := by
    rw [ofSource_eq, ofSource_eq ⟨cs, _⟩]
    rfl
  refine ⟨[(.opening .round, p.after "(".toList), (.symbol "do", p.after "(do".toList)],
    p.after "(do ".toList, rfl, ?_⟩
  rw [ofSource_eq, hopen]
  simp only [ofSource_eq ⟨'d' :: _, _⟩, hword, hblank]
  rfl

/-- Behind a text without fault the form ends. -/
theorem ofSource_closed (p : Position) :
    (ofSource ⟨"nil)".toList, p⟩).toList = [.nil, .closing .round] ∧
      (ofSource ⟨"nil)".toList, p⟩).fault = none := by
  have hnil : Source.next ⟨"nil)".toList, p⟩ =
      (some (.ok .nil), ⟨")".toList, p.after "nil".toList⟩) := rfl
  have hclose : Source.next ⟨")".toList, p.after "nil".toList⟩ =
      (some (.ok (.closing .round)), ⟨[], p.after "nil)".toList⟩) := rfl
  rw [ofSource_eq, hnil]
  simp only [ofSource_eq ⟨")".toList, _⟩, hclose, ofSource_nil]
  exact ⟨rfl, trivial⟩

theorem toList_wrapped (s : String) :
    (Prelude.wrapped s).toList =
      '(' :: 'd' :: 'o' :: ' ' :: (s.toList ++ '\n' :: "nil)".toList) := by
  simp [Prelude.wrapped]

theorem ofString_wrapped (h : (ofString s).fault = none) :
    (ofString (Prelude.wrapped s)).toList =
        .opening .round :: .symbol "do" :: ((ofString s).toList ++ [.nil, .closing .round]) ∧
      (ofString (Prelude.wrapped s)).fault = none := by
  obtain ⟨items, p, hitems, hopen⟩ := ofSource_opened (s.toList ++ '\n' :: "nil)".toList) .start
  obtain ⟨hown, hfault⟩ := ofSource_anywhere s p
  have hd : IsSeparator '\n' := .inl (by decide)
  have hall := ofSource_append hd (Source.not_endsInComment_newline s.toList) (hfault.trans h)
    "nil)".toList
  obtain ⟨hclose, hnone⟩ := ofSource_closed (p.after (s.toList ++ ['\n']))
  rw [ofString, Source.ofString, toList_wrapped, hopen, hall, toList_behind, toList_behind,
    hitems, hclose, ← hown]
  exact ⟨rfl, hnone⟩

theorem ofString_wrapped_of_fault {e : LexFault} (h : (ofString s).fault = some e) :
    (ofString (Prelude.wrapped s)).toList = .opening .round :: .symbol "do" :: (ofString s).toList ∧
      (ofString (Prelude.wrapped s)).fault ≠ none := by
  obtain ⟨items, p, hitems, hopen⟩ := ofSource_opened (s.toList ++ '\n' :: "nil)".toList) .start
  obtain ⟨hown, hfault⟩ := ofSource_anywhere s p
  have hd : IsSeparator '\n' := .inl (by decide)
  obtain ⟨e', stop, hall⟩ := ofSource_append_fault hd (hfault.trans h)
    (by decide : '"' ∉ "nil)".toList)
  rw [ofString, Source.ofString, toList_wrapped, hopen, hall, toList_behind, hitems, ← hown]
  exact ⟨rfl, Option.some_ne_none _⟩

theorem ofString_wrapped_ne_nil (s : String) : (ofString (Prelude.wrapped s)).toList ≠ [] := by
  cases hf : (ofString s).fault with
  | none => simp [(ofString_wrapped hf).1]
  | some e => simp [(ofString_wrapped_of_fault hf).1]

end Tokens

/-- The forms that are read where the text of a file was put. The parenthesis that ends the form
around them may be one of the text, which is then read no further; otherwise the text is read to
its end, and `nil` behind it. -/
inductive Prelude.Splices (s : String) (forms : List Value) : Prop where
  | closed (hts : (Tokens.ofString s).toList = ts ++ .closing .round :: us)
    (hs : ParsesAll ts forms) (hus : (Tokens.ofString s).fault = none ∨ us ≠ []) :
    Splices s forms
  | whole (hf : (Tokens.ofString s).fault = none)
    (hs : ParsesAll ((Tokens.ofString s).toList ++ [.nil]) forms) : Splices s forms

namespace Form

/-- The form around a text ends with the first parenthesis that closes nothing in the text. -/
theorem parses_wrapped_iff {ts us : List Token} {v : Value} :
    (∃ used, .opening .round :: .symbol "do" :: ts = used ++ us ∧ Parses used v) ↔
      ∃ front gs, ts = front ++ .closing .round :: us ∧ ParsesAll front gs ∧
        v = Template.call SpecialForm.sequence.name gs := by
  constructor
  · rintro ⟨used, hused, hv⟩
    obtain ⟨t, inner, rfl⟩ := List.exists_cons_of_ne_nil hv.ne_nil
    obtain ⟨rfl, hinner⟩ := List.cons.inj hused
    obtain ⟨body, vs, rfl, hs, hb⟩ := parses_opening_iff.mp hv
    cases hb
    cases body with
    | nil => cases hinner
    | cons t front =>
      obtain ⟨rfl, rfl⟩ := List.cons.inj hinner
      obtain ⟨gs, rfl, hgs⟩ := (parsesAll_literal_iff rfl).mp hs
      exact ⟨front, gs, List.append_assoc .., hgs, rfl⟩
  · rintro ⟨front, gs, rfl, hs, rfl⟩
    have hbody : ParsesAll (.symbol "do" :: front) (.symbol "do" :: gs) :=
      (parsesAll_literal_iff rfl).mpr ⟨gs, rfl, hs⟩
    refine ⟨.opening .round :: (.symbol "do" :: front ++ [.closing .round]), ?_, .bracket hbody rfl⟩
    simp

/-- The parenthesis is one of the text, or it stands behind the `nil` that follows the text. -/
theorem append_end_eq_iff {ts front us : List Token} :
    ts ++ [.nil, .closing .round] = front ++ .closing .round :: us ↔
      (∃ more, ts = front ++ .closing .round :: more ∧ us = more ++ [.nil, .closing .round]) ∨
      front = ts ++ [.nil] ∧ us = [] := by
  constructor
  · intro h
    rcases List.append_eq_append_iff.mp h with ⟨more, rfl, hmore⟩ | ⟨more, rfl, hmore⟩
    · cases more with
      | nil => cases hmore
      | cons t more =>
        obtain ⟨rfl, hlast⟩ := List.cons.inj hmore
        cases more with
        | nil => exact .inr ⟨rfl, (List.cons.inj hlast).2.symm⟩
        | cons u more => simp at hlast
    · cases more with
      | nil => cases hmore
      | cons t more =>
        obtain ⟨rfl, rfl⟩ := List.cons.inj hmore
        exact .inl ⟨more, rfl, rfl⟩
  · rintro (⟨more, rfl, rfl⟩ | ⟨rfl, rfl⟩)
    · rw [List.append_assoc, List.cons_append]
    · rw [List.append_assoc]
      rfl

theorem readFirst_wrapped_iff {s : String} {v : Value} :
    readFirst (Prelude.wrapped s) = .ok (some v) ↔
      ∃ gs, v = Template.call SpecialForm.sequence.name gs ∧ Prelude.Splices s gs := by
  rw [readFirst_eq_ok_iff]
  cases hf : (Tokens.ofString s).fault with
  | some e =>
    obtain ⟨htokens, hfault⟩ := Tokens.ofString_wrapped_of_fault hf
    rw [htokens]
    constructor
    · rintro ⟨used, us, hused, hv, hus⟩
      obtain ⟨ts, gs, hts, hs, rfl⟩ := parses_wrapped_iff.mp ⟨used, hused, hv⟩
      exact ⟨gs, rfl, .closed hts hs (.inr (hus.resolve_left hfault))⟩
    · rintro ⟨gs, rfl, h⟩
      cases h with
      | closed hts hs hus =>
        obtain ⟨used, hused, hv⟩ := parses_wrapped_iff.mpr ⟨_, gs, hts, hs, rfl⟩
        exact ⟨used, _, hused, hv, .inr (hus.resolve_left (by simp [hf]))⟩
      | whole hnone => cases hf.symm.trans hnone
  | none =>
    obtain ⟨htokens, hnone⟩ := Tokens.ofString_wrapped hf
    rw [htokens]
    constructor
    · rintro ⟨used, us, hused, hv, -⟩
      obtain ⟨ts, gs, hts, hs, rfl⟩ := parses_wrapped_iff.mp ⟨used, hused, hv⟩
      rcases append_end_eq_iff.mp hts with ⟨more, hown, -⟩ | ⟨rfl, -⟩
      · exact ⟨gs, rfl, .closed hown hs (.inl hf)⟩
      · exact ⟨gs, rfl, .whole hf hs⟩
    · rintro ⟨gs, rfl, h⟩
      obtain ⟨front, us, hinner, hs⟩ : ∃ front us, (Tokens.ofString s).toList ++
          [.nil, .closing .round] = front ++ .closing .round :: us ∧ ParsesAll front gs := by
        cases h with
        | closed hts hs => exact ⟨_, _, append_end_eq_iff.mpr (.inl ⟨_, hts, rfl⟩), hs⟩
        | whole _ hs => exact ⟨_, [], append_end_eq_iff.mpr (.inr ⟨rfl, rfl⟩), hs⟩
      obtain ⟨used, hused, hv⟩ := parses_wrapped_iff.mpr ⟨front, gs, hinner, hs, rfl⟩
      exact ⟨used, us, hused, hv, .inl hnone⟩

end Form

/-! ## What is evaluated -/

namespace Prelude

/-- The form that loads a file. -/
def loadFile (path : String) : Value := Template.call loadFileName [.str path]

end Prelude

namespace World

/-- From the root frame the functions that loading a file takes go by their names. -/
structure CanLoad (w : World) (root : FrameId) : Prop where
  text : ∀ op : TextOp, w.lookup root op.name = .ok (.native (.builtin (.text op)))
  eval : w.lookup root (Native.evalIn root).name = .ok (.native (.evalIn root))
  loadFile : ∃ id, w.lookup root Prelude.loadFileName =
    .ok (.closure id ⟨["f"], none⟩ Prelude.loadFileBody root)

theorem canLoad_withRoot (w : World) : w.withRoot.CanLoad w.frames.next where
  text op := w.lookup_withRoot (by cases op <;> rfl)
  eval := w.lookup_withRoot rfl
  loadFile := ⟨w.closures + 1, w.lookup_withRoot rfl⟩

/-- The world while a file is loaded, which has a frame for the path. -/
def loading (w : World) (root : FrameId) (path : String) : World :=
  w.withFrame ⟨some root, Bindings.insertAll [("f", .str path)] ∅⟩

variable {w : World} {root : FrameId} {path name : String} {v : Value}

theorem lookup_loading (hn : "f" ≠ name) (h : w.lookup root name = .ok v) :
    (w.loading root path).lookup w.frames.next name = .ok v :=
  lookup_withFrame_outer (by simp [Bindings.insertAll, hn]) h

theorem lookup_loading_path (h : w.lookup root name = .ok v) :
    (w.loading root path).lookup w.frames.next "f" = .ok (.str path) :=
  lookup_withFrame_own (Frames.lt_next_of_get? (lookup_eq_ok_iff.mp h))
    (by simp [Bindings.insertAll])

end World

section

variable {w w' : World} {root : FrameId} {path s : String} {r : Except Error Value}
  {gs : List Value}

theorem World.CanLoad.derives_body_iff (hw : w.CanLoad root) :
    Derives (Prelude.loadFile path) root w r w' ↔
      Derives Prelude.loadFileBody w.frames.next (w.loading root path) r w' := by
  obtain ⟨id, hf⟩ := hw.loadFile
  exact Template.derives_closure_iff rfl hf (.cons (derives_constant rfl) .nil) rfl

theorem alone_slurp (hs : w.disk.read? path = some (.ok s)) (depth limit : Nat) :
    (Native.builtin (.text .slurp)).alone [.str path] ⟨w, depth, limit⟩ =
      .of (.ok (.str s)) ⟨w, depth, limit⟩ := by
  have hsee : Run.see (fun w => w.disk.read? path) ⟨w, depth, limit⟩ =
      .of (.ok (some (.ok s))) ⟨w, depth, limit⟩ := by
    rw [← hs]
    rfl
  have hread : Run.readFile TextOp.slurp.name path ⟨w, depth, limit⟩ =
      .of (.ok s) ⟨w, depth, limit⟩ := by
    rw [Run.readFile, Run.bind_of_ok hsee]
    rfl
  have hrun : (Native.builtin (.text .slurp)).alone [.str path] =
      Run.readFile TextOp.slurp.name path >>= fun s => pure (Value.str s) := rfl
  rw [hrun, Run.bind_of_ok hread]
  rfl

theorem alone_str (s : String) (m : Machine) :
    (Native.builtin (.text .str)).alone [.str "(do ", .str s, .str "\nnil)"] m =
      .of (.ok (.str (Prelude.wrapped s))) m := by
  have ht : Value.textAll .raw m.world.atoms "" [.str "(do ", .str s, .str "\nnil)"] =
      Prelude.wrapped s := by
    change "(do " ++ "" ++ s ++ "" ++ "\nnil)" = _
    rw [String.append_empty, String.append_empty, Prelude.wrapped]
  rw [← ht]
  rfl

/-- The value of the first form of a text: the form itself, or nil if there is none. -/
def Form.firstValue (text : String) : Except Error Value :=
  match readFirst text with
  | .ok found => .ok (found.getD .nil)
  | .error e => .error (.read e)

theorem alone_readString (text : String) (m : Machine) :
    (Native.builtin (.text .readString)).alone [.str text] m = .of (Form.firstValue text) m := by
  have hrun : (Native.builtin (.text .readString)).alone [.str text] =
      TextOp.readString.run [.str text] := rfl
  rw [hrun, TextOp.run, Form.firstValue]
  cases Form.readFirst text <;> rfl

/-- What is read while a file is loaded. -/
theorem World.CanLoad.derives_read (hw : w.CanLoad root)
    (hs : w.disk.read? path = some (.ok s)) :
    Derives (Template.call "read-string" [Template.call "str"
        [.str "(do ", Template.call "slurp" [.symbol "f"], .str "\nnil)"]])
      w.frames.next (w.loading root path)
      (Form.firstValue (Prelude.wrapped s)) (w.loading root path) := by
  have hpath : Derives (.symbol "f") w.frames.next (w.loading root path) (.ok (.str path))
      (w.loading root path) := World.lookup_loading_path hw.eval ▸ derives_symbol
  have hslurp : Derives (Template.call "slurp" [.symbol "f"]) w.frames.next
      (w.loading root path) (.ok (.str s)) (w.loading root path) :=
    Template.derives_builtin (b := .text .slurp)
      (World.lookup_loading (by decide) (hw.text .slurp)) (.cons hpath .nil) (alone_slurp hs)
  have hstr : Derives (Template.call "str"
        [.str "(do ", Template.call "slurp" [.symbol "f"], .str "\nnil)"]) w.frames.next
      (w.loading root path) (.ok (.str (Prelude.wrapped s))) (w.loading root path) :=
    Template.derives_builtin (b := .text .str)
      (World.lookup_loading (by decide) (hw.text .str))
      (.cons (derives_constant rfl) (.cons hslurp (.cons (derives_constant rfl) .nil)))
      fun depth limit => alone_str s _
  exact Template.derives_builtin (b := .text .readString)
    (World.lookup_loading (by decide) (hw.text .readString)) (.cons hstr .nil)
    fun depth limit => alone_readString _ _

/-- A file that takes its place in the form around it is evaluated as the form that comes of it. -/
theorem World.CanLoad.derives_of_splices (hw : w.CanLoad root)
    (hs : w.disk.read? path = some (.ok s)) (h : Prelude.Splices s gs) :
    Derives (Prelude.loadFile path) root w r w' ↔
      Derives (Template.call SpecialForm.sequence.name gs) root (w.loading root path) r w' := by
  have hread := hw.derives_read hs
  rw [Form.firstValue, Form.readFirst_wrapped_iff.mpr ⟨gs, rfl, h⟩] at hread
  rw [hw.derives_body_iff]
  exact Template.derives_eval_iff (World.lookup_loading (by simp [Native.name]) hw.eval) hread

/-- Of another file nothing is evaluated. -/
theorem World.CanLoad.derives_of_not_splices (hw : w.CanLoad root)
    (hs : w.disk.read? path = some (.ok s)) (h : ∀ gs, ¬ Prelude.Splices s gs) :
    ∃ e, ∀ r w', Derives (Prelude.loadFile path) root w r w' ↔
      r = .error (.read e) ∧ w' = w.loading root path := by
  have hread := hw.derives_read hs
  cases hr : Form.readFirst (Prelude.wrapped s) with
  | ok found =>
    cases found with
    | none =>
      exact absurd (Form.readFirst_eq_none hr) (Tokens.ofString_wrapped_ne_nil s)
    | some v =>
      obtain ⟨gs, -, hgs⟩ := Form.readFirst_wrapped_iff.mp hr
      exact absurd hgs (h gs)
  | error e =>
    rw [Form.firstValue, hr] at hread
    refine ⟨e, fun r w' => ?_⟩
    rw [hw.derives_body_iff]
    have hbody : Derives Prelude.loadFileBody w.frames.next (w.loading root path)
        (.error (.read e)) (w.loading root path) :=
      (Template.derives_call_iff rfl (World.lookup_loading (by simp [Native.name]) hw.eval)).mpr
        (.inl ⟨_, .error hread, rfl⟩)
    constructor
    · intro hd
      exact hd.unique hbody
    · rintro ⟨rfl, rfl⟩
      exact hbody

/-- The forms of a text that can be read are evaluated, and `nil` after them. -/
theorem Prelude.splices_of_readAll {fs : List Value} (h : Form.readAll s = .ok fs) :
    Prelude.Splices s (fs ++ [.nil]) := by
  obtain ⟨hf, hs⟩ := Form.readAll_eq_ok_iff.mp h
  exact .whole hf (hs.append (Parses.literal rfl).single)

theorem derives_sequence_nil_iff {fs : List Value} {frame : FrameId} :
    Derives (Template.call SpecialForm.sequence.name (fs ++ [.nil])) frame w r w' ↔
      ∃ rs, DerivesAll fs frame w rs w' ∧ r = rs.map fun _ => .nil := by
  rw [Template.derives_sequence_iff (by simp)]
  constructor
  · rintro ⟨rs, hs, rfl⟩
    rcases hs.of_append with ⟨e, hfs, rfl⟩ | ⟨vs, w₁, us, hfs, hnil, rfl⟩
    · exact ⟨_, hfs, rfl⟩
    · obtain ⟨hus, rfl⟩ := hnil.unique (.cons (derives_constant rfl) .nil)
      cases hus
      exact ⟨_, hfs, by simp [Except.map]⟩
  · rintro ⟨rs, hfs, rfl⟩
    cases rs with
    | error e => exact ⟨_, hfs.append_error, rfl⟩
    | ok vs =>
      have hnil : DerivesAll [.nil] frame w' (.ok [.nil]) w' := .cons (derives_constant rfl) .nil
      exact ⟨_, hfs.append hnil, by simp [Except.map]⟩

end

/-- **Loading a file evaluates its forms.** In a root frame that has not lost the functions for
it, and under a limit that is not hit, loading a file that can be read evaluates the forms of
the file in order in the root frame, up to the first error, which is then the result, and gives nil
if there is none. A file that cannot be read is not evaluated, and loading it fails with the fault
of reading, unless it closes the form that its text is put into, or ends in marks that take the
`nil` behind it: then what the file makes of that form is evaluated. -/
theorem load_file_evaluates {m : Machine} {root : FrameId} {path s : String}
    (hw : m.world.CanLoad root) (hs : m.world.disk.read? path = some (.ok s))
    (hl : LimitUnhit (Prelude.loadFile path) root m) :
    (∀ fs, Form.readAll s = .ok fs → ∀ r w', Settles (Prelude.loadFile path) root m r w' ↔
      ∃ rs, DerivesAll fs root (m.world.loading root path) rs w' ∧ r = rs.map fun _ => .nil) ∧
    (∀ e, Form.readAll s = .error e → (∀ gs, ¬ Prelude.Splices s gs) →
      ∃ e', ∀ r w', Settles (Prelude.loadFile path) root m r w' ↔
        r = .error (.read e') ∧ w' = m.world.loading root path) ∧
    (∀ e gs, Form.readAll s = .error e → Prelude.Splices s gs →
      ∀ r w', Settles (Prelude.loadFile path) root m r w' ↔
        Derives (Template.call SpecialForm.sequence.name gs) root (m.world.loading root path)
          r w') := by
  have hsettles (r : Except Error Value) (w' : World) :
      Settles (Prelude.loadFile path) root m r w' ↔
        Derives (Prelude.loadFile path) root m.world r w' := ⟨hl.derives, hl.settles⟩
  simp only [hsettles]
  refine ⟨?_, ?_, ?_⟩
  · intro fs h r w'
    rw [hw.derives_of_splices hs (Prelude.splices_of_readAll h), derives_sequence_nil_iff]
  · intro e _ h
    exact hw.derives_of_not_splices hs h
  · intro e gs _ h r w'
    exact hw.derives_of_splices hs h

/-- A disk with one file. -/
def Disk.single (path s : String) : Disk :=
  ⟨fun p => some (if p = path then .ok s else .error .notFound)⟩

/-- A file with two definitions, of which the second needs the first, gives nil, and both are made
in the root frame. -/
theorem load_file_evaluates_definitions :
    let s := "(def! x 1) (def! y x)"
    let forms := [Template.call "def!" [.symbol "x", .int 1],
      Template.call "def!" [.symbol "y", .symbol "x"]]
    let w := (World.empty (Disk.single "f" s)).withRoot
    let w₁ := (w.loading 0 "f").bindName 0 "x" (.int 1)
    let w₂ := w₁.bindName 0 "y" (.int 1)
    w.CanLoad 0 ∧ w.disk.read? "f" = some (.ok s) ∧ Form.readAll s = .ok forms ∧
      ∃ L₀, ∀ L, L₀ ≤ L → LimitUnhit (Prelude.loadFile "f") 0 ⟨w, 0, L⟩ ∧
        Settles (Prelude.loadFile "f") 0 ⟨w, 0, L⟩ (.ok .nil) w₂ := by
  intro s forms w w₁ w₂
  have hw : w.CanLoad 0 := World.canLoad_withRoot _
  have hs : w.disk.read? "f" = some (.ok s) := rfl
  have hparses {name : String} {t : Token} {v : Value} (ht : t.literal? = some v) :
      Parses [.opening .round, .symbol "def!", .symbol name, t, .closing .round]
        (Template.call "def!" [.symbol name, v]) :=
    .bracket (.cons (.literal rfl) (.cons (.literal rfl) (.cons (.literal ht) .nil))) rfl
  have htokens : (Tokens.ofString s).fault = none ∧ (Tokens.ofString s).toList =
      [.opening .round, .symbol "def!", .symbol "x", .int 1, .closing .round] ++
        ([.opening .round, .symbol "def!", .symbol "y", .symbol "x", .closing .round] ++ []) := by
    decide +kernel
  have hread : Form.readAll s = .ok forms := by
    rw [Form.readAll_eq_ok_iff, htokens.2]
    exact ⟨htokens.1, .cons (hparses rfl) (.cons (hparses rfl) .nil)⟩
  have hroot : 0 < (w.loading 0 "f").frames.next := Nat.succ_pos _
  have hown : w₁.frames.own? 0 "x" = some (.int 1) := Frames.own?_bind_eq hroot "x" "x" (.int 1)
  have hx : Derives (.symbol "x") 0 w₁ (.ok (.int 1)) w₁ :=
    World.lookup_of_own? hown ▸ derives_symbol
  have hall : DerivesAll forms 0 (w.loading 0 "f") (.ok [.int 1, .int 1]) w₂ :=
    .cons (Template.derives_define (derives_constant rfl))
      (.cons (Template.derives_define hx) .nil)
  have hload : Derives (Prelude.loadFile "f") 0 w (.ok .nil) w₂ := by
    rw [hw.derives_of_splices hs (Prelude.splices_of_readAll hread), derives_sequence_nil_iff]
    exact ⟨_, hall, rfl⟩
  obtain ⟨L₀, hL₀⟩ := hload.eventually_limitUnhit 0
  refine ⟨hw, hs, hread, L₀, fun L hL => ⟨hL₀ L hL, ?_⟩⟩
  exact ((load_file_evaluates hw hs (hL₀ L hL)).1 _ hread _ _).mpr ⟨_, hall, rfl⟩

/-- The text `7) 8` cannot be read, but a file with it is loaded with the value 7. -/
theorem load_file_stops_at_parenthesis :
    let w := (World.empty (Disk.single "f" "7) 8")).withRoot
    w.CanLoad 0 ∧ w.disk.read? "f" = some (.ok "7) 8") ∧
      Form.readAll "7) 8" = .error ⟨.unexpected .round, ⟨1, 3⟩⟩ ∧
      ∃ L₀, ∀ L, L₀ ≤ L → LimitUnhit (Prelude.loadFile "f") 0 ⟨w, 0, L⟩ ∧
        Settles (Prelude.loadFile "f") 0 ⟨w, 0, L⟩ (.ok (.int 7)) (w.loading 0 "f") := by
  intro w
  have hw : w.CanLoad 0 := World.canLoad_withRoot _
  have hs : w.disk.read? "f" = some (.ok "7) 8") := rfl
  have htokens : Tokens.ofString "7) 8" =
      ⟨[(.int 7, ⟨1, 2⟩), (.closing .round, ⟨1, 3⟩), (.int 8, ⟨1, 5⟩)], none, ⟨1, 5⟩⟩ := by
    have h₁ : (Source.ofString "7) 8").next =
        (some (.ok (.int 7)), ⟨") 8".toList, ⟨1, 2⟩⟩) := rfl
    have h₂ : Source.next ⟨") 8".toList, ⟨1, 2⟩⟩ =
        (some (.ok (.closing .round)), ⟨" 8".toList, ⟨1, 3⟩⟩) := rfl
    have h₃ : Source.next ⟨" 8".toList, ⟨1, 3⟩⟩ = (some (.ok (.int 8)), ⟨[], ⟨1, 5⟩⟩) := rfl
    rw [Tokens.ofString, Tokens.ofSource_eq, h₁]
    simp only [Tokens.ofSource_eq ⟨") 8".toList, _⟩, Tokens.ofSource_eq ⟨" 8".toList, _⟩, h₂, h₃,
      Tokens.ofSource_nil]
  have hclosed : Prelude.Splices "7) 8" [.int 7] := by
    have hts : (Tokens.ofString "7) 8").toList = [.int 7] ++ .closing .round :: [.int 8] := by
      rw [htokens]
      rfl
    exact .closed hts (Parses.literal rfl).single (.inl (by rw [htokens]))
  have hload : Derives (Prelude.loadFile "f") 0 w (.ok (.int 7)) (w.loading 0 "f") := by
    rw [hw.derives_of_splices hs hclosed, Template.derives_sequence_iff (by simp)]
    exact ⟨_, .cons (derives_constant rfl) .nil, rfl⟩
  obtain ⟨L₀, hL₀⟩ := hload.eventually_limitUnhit 0
  refine ⟨hw, hs, ?_, L₀, fun L hL => ⟨hL₀ L hL, (hL₀ L hL).settles hload⟩⟩
  have hclear : Form.Clear (Tokens.ofString "7) 8").fault (Tokens.ofString "7) 8").items := by
    rw [htokens]
    exact .inl rfl
  rw [Form.readAll, Form.sequence_of_clear hclear, htokens, Form.all_eq]
  change (Form.collect (Form.all _)).map (Value.int 7 :: ·) = _
  rw [Form.all_eq]
  rfl

end Lisplet
