import Lisplet.Eval.Closure

/-! Parameters as they are written. A form is read as parameters if and only if it is a list or
vector of symbols in which the marker stands in front of the last name or nowhere; and what is
read is written as it was. -/

namespace Lisplet.Params

variable {names : List String} {vs : List Value} {form v : Value} {x : String} {p : Params}

theorem nameOf_eq_ok_iff : nameOf v = .ok x ↔ v = .symbol x := by
  cases v <;> simp [nameOf]

theorem mapM_nameOf_eq_ok_iff : vs.mapM nameOf = .ok names ↔ vs = names.map .symbol := by
  induction vs generalizing names with
  | nil =>
    cases names with
    | nil => exact ⟨fun _ => rfl, fun _ => rfl⟩
    | cons x names => exact ⟨nofun, nofun⟩
  | cons v vs ih =>
    rw [List.mapM_cons]
    constructor
    · intro h
      cases hv : nameOf v with
      | error flaw =>
        rw [hv] at h
        contradiction
      | ok x =>
        cases hvs : vs.mapM nameOf with
        | error flaw =>
          rw [hv, hvs] at h
          contradiction
        | ok xs =>
          rw [hv, hvs] at h
          cases h
          rw [List.map_cons, nameOf_eq_ok_iff.mp hv, ih.mp hvs]
    · intro h
      cases names with
      | nil => contradiction
      | cons x names =>
        obtain ⟨rfl, hvs⟩ := List.cons.inj h
        rw [ih.mpr hvs]
        rfl

theorem ofForm_eq_mapM (form : Value) :
    ofForm form =
      match form.items? with
      | none => .error (.paramsNotSequence form.typeName)
      | some items => items.toList.mapM nameOf >>= ofNames := by
  unfold ofForm
  cases form.items? with
  | none => rfl
  | some items => simp only [← Rope.toList_mapM, bind_map_left]

/-- The marker is no name of a parameter. -/
structure Unmarked (p : Params) : Prop where
  fixed : marker ∉ p.fixed
  rest : p.rest ≠ some marker

section

variable {fixed xs : List String} {rest : Option String}

theorem names_cons : (⟨x :: fixed, rest⟩ : Params).names = x :: (⟨fixed, rest⟩ : Params).names := by
  cases rest <;> rfl

theorem unmarked_cons_iff :
    Unmarked ⟨x :: fixed, rest⟩ ↔ marker ≠ x ∧ Unmarked ⟨fixed, rest⟩ := by
  constructor
  · intro h
    obtain ⟨hx, hfixed⟩ := List.ne_and_not_mem_of_not_mem_cons h.fixed
    exact ⟨hx, hfixed, h.rest⟩
  · rintro ⟨hx, h⟩
    exact ⟨fun hm => (List.mem_cons.mp hm).elim hx h.fixed, h.rest⟩

/-- Where the marker is written first there is but the rest parameter. -/
theorem names_eq_marker_cons_iff :
    p.names = marker :: xs ∧ p.Unmarked ↔ ∃ r, xs = [r] ∧ r ≠ marker ∧ p = ⟨[], some r⟩ := by
  obtain ⟨fixed, rest⟩ := p
  constructor
  · rintro ⟨hn, hp⟩
    cases fixed with
    | cons y fixed =>
      rw [names_cons] at hn
      exact absurd (List.cons.inj hn).1.symm (unmarked_cons_iff.mp hp).1
    | nil =>
      cases rest with
      | none => contradiction
      | some r =>
        cases hn
        exact ⟨r, rfl, fun hr => hp.rest (congrArg some hr), rfl⟩
  · rintro ⟨r, rfl, hr, hp⟩
    cases hp
    exact ⟨rfl, nofun, fun h => hr (Option.some.inj h)⟩

/-- Where another name is written first it is the first of the fixed ones. -/
theorem names_eq_cons_iff (hx : x ≠ marker) :
    p.names = x :: xs ∧ p.Unmarked ↔
      ∃ q : Params, (q.names = xs ∧ q.Unmarked) ∧ p = ⟨x :: q.fixed, q.rest⟩ := by
  obtain ⟨fixed, rest⟩ := p
  constructor
  · rintro ⟨hn, hp⟩
    cases fixed with
    | cons y fixed =>
      rw [names_cons] at hn
      obtain ⟨rfl, hfixed⟩ := List.cons.inj hn
      exact ⟨⟨fixed, rest⟩, ⟨hfixed, (unmarked_cons_iff.mp hp).2⟩, rfl⟩
    | nil =>
      cases rest with
      | none => contradiction
      | some r => exact absurd (List.cons.inj hn).1.symm hx
  · rintro ⟨q, ⟨hn, hq⟩, hp⟩
    cases hp
    exact ⟨by rw [names_cons, hn], unmarked_cons_iff.mpr ⟨hx.symm, hq⟩⟩

end

/-- Names are read as parameters that are written so, none of them called like the marker. -/
theorem ofNames_eq_ok_iff : ofNames names = .ok p ↔ p.names = names ∧ p.Unmarked := by
  induction names generalizing p with
  | nil =>
    obtain ⟨fixed, rest⟩ := p
    constructor
    · intro h
      cases h
      exact ⟨rfl, nofun, nofun⟩
    · rintro ⟨hn, -⟩
      cases rest with
      | none =>
        cases hn
        rfl
      | some r => simp [Params.names] at hn
  | cons x xs ih =>
    by_cases hx : x = marker
    · subst hx
      rw [names_eq_marker_cons_iff]
      rcases xs with _ | ⟨r, _ | ⟨y, xs⟩⟩
      · simp [ofNames]
      · by_cases hr : r = marker
        · simp [ofNames, hr]
        · simp [ofNames, hr, eq_comm]
      · simp [ofNames]
    · rw [names_eq_cons_iff hx]
      simp only [ofNames, if_neg hx, ← ih]
      cases ofNames xs with
      | error flaw => exact ⟨nofun, fun ⟨_, h, _⟩ => nomatch h⟩
      | ok q =>
        constructor
        · intro h
          cases h
          exact ⟨q, rfl, rfl⟩
        · rintro ⟨q, h, rfl⟩
          cases h
          rfl

/-- **A form is read as parameters if it is how they are written.** -/
theorem ofForm_eq_ok_iff :
    ofForm form = .ok p ↔
      ∃ shape xs, form = .seq shape xs ∧ xs.toList = p.names.map .symbol ∧ p.Unmarked := by
  rw [ofForm_eq_mapM]
  cases form with
  | seq shape xs =>
    simp only [Value.items?]
    constructor
    · intro h
      cases hn : xs.toList.mapM nameOf with
      | error flaw =>
        rw [hn] at h
        contradiction
      | ok names =>
        rw [hn] at h
        obtain ⟨rfl, hp⟩ := ofNames_eq_ok_iff.mp h
        exact ⟨shape, xs, rfl, mapM_nameOf_eq_ok_iff.mp hn, hp⟩
    · rintro ⟨shape', xs', he, hx, hp⟩
      cases he
      rw [mapM_nameOf_eq_ok_iff.mpr hx]
      exact ofNames_eq_ok_iff.mpr ⟨rfl, hp⟩
  | _ => exact ⟨nofun, fun ⟨_, _, h, _⟩ => nomatch h⟩

end Lisplet.Params
