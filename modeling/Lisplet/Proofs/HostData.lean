import Lisplet.Host.Data
import Lisplet.Proofs.Coherence

/-! Data of the host as values and back. The two ways are written type by type and apart from each
other. What fits a type, what is wrong with what does not, and which data a value keeps are told
here without either of them: data are kept unless a size is too large for an integer, or an option
looks as if it were missing. -/

namespace Lisplet

namespace HostType

/-! ## What the two ways are to do -/

/-- Whether the value of the data still tells what they are. -/
def Kept : (t : HostType) → t.Carrier → Prop
  | size, (n : UInt64) => n.toNat ≤ Int64.maxValue.toInt
  | list t, (xs : List t.Carrier) => ∀ x ∈ xs, Kept t x
  | option t, (x : Option t.Carrier) => ∀ y ∈ x, toValue t y ≠ .nil ∧ Kept t y
  | unit, _ | bool, _ | int32, _ | int64, _ | string, _ | value, _ => True

/-- Equal data, values in them being compared as the language does it. -/
def Same : (t : HostType) → t.Carrier → t.Carrier → Prop
  | value, (v : Value), w => (v == w) = true
  | list t, (xs : List t.Carrier), ys => List.Forall₂ (Same t) xs ys
  | option t, (x : Option t.Carrier), y => Option.Rel (Same t) x y
  | unit, x, y | bool, x, y | int32, x, y | int64, x, y | size, x, y | string, x, y => x = y

/-- The values that are data of a type. -/
def Fits : HostType → Value → Prop
  | unit, v => v = .nil
  | bool, v => ∃ b, v = .bool b
  | int32, v => ∃ n, v = .int n ∧ Int32.minValue.toInt ≤ n.toInt ∧ n.toInt ≤ Int32.maxValue.toInt
  | int64, v => ∃ n, v = .int n
  | size, v => ∃ n, v = .int n ∧ 0 ≤ n.toInt
  | string, v => ∃ s, v = .str s
  | value, _ => True
  | list t, v => ∃ shape xs, v = .seq shape xs ∧ ∀ x ∈ xs.toList, Fits t x
  | option t, v => v = .nil ∨ Fits t v

/-- What a type asks of a value before it looks inside, as the complaint puts it; none if it asks
for nothing. -/
def asked? : HostType → Option (String × (Value → Bool))
  | unit => some ("nil", fun | .nil => true | _ => false)
  | bool => some ("bool", fun | .bool _ => true | _ => false)
  | int32 | int64 => some ("int", fun | .int _ => true | _ => false)
  | size => some ("non-negative int", fun | .int _ => true | _ => false)
  | string => some ("string", fun | .str _ => true | _ => false)
  | list _ => some ("list or vector", fun | .seq .. => true | _ => false)
  | value | option _ => none

/-- What is wrong with a value that is no data of a type. -/
inductive Misfit : HostType → Value → Error → Prop where
  | kind (ha : asked? t = some (expected, isKind)) (hv : isKind v = false) :
    Misfit t v (.type none expected v.typeName)
  | range (h : ¬ (Int32.minValue.toInt ≤ n.toInt ∧ n.toInt ≤ Int32.maxValue.toInt)) :
    Misfit int32 (.int n) (.overflow "i32")
  | negative (h : n.toInt < 0) :
    Misfit size (.int n) (.type none "non-negative int" "negative int")
  /-- All elements in front of the one with which something is wrong are as they should be. -/
  | element (hx : xs.toList = before ++ y :: behind) (hb : ∀ x ∈ before, Fits t x)
    (h : Misfit t y e) : Misfit (list t) (.seq shape xs) e
  | content (hv : v ≠ .nil) (h : Misfit t v e) : Misfit (option t) v e

section

variable {α β ε : Type} {f : α → Except ε β} {t : HostType} {v : Value} {e : Error}
  {n : Int64} {expected : String} {isKind : Value → Bool}

/-! ## Lists of data -/

theorem mapM_eq_ok_iff {xs : List α} {ys : List β} :
    xs.mapM f = .ok ys ↔ List.Forall₂ (fun x y => f x = .ok y) xs ys := by
  induction xs generalizing ys with
  | nil => cases ys <;> simp [pure, Except.pure]
  | cons x xs ih =>
    rw [List.mapM_cons, List.forall₂_cons_left_iff]
    cases hx : f x with
    | error e => simp [bind, Except.bind]
    | ok y =>
      cases hxs : xs.mapM f with
      | error e => simp [bind, Except.bind, ← ih, hxs]
      | ok zs => simp [bind, Except.bind, pure, Except.pure, ← ih, hxs, eq_comm]

/-- What goes wrong is what goes wrong first. -/
theorem mapM_eq_error_iff {xs : List α} {e : ε} :
    xs.mapM f = .error e ↔ ∃ before y behind, xs = before ++ y :: behind ∧
      (∀ x ∈ before, ∃ z, f x = .ok z) ∧ f y = .error e := by
  constructor
  · intro h
    induction xs with
    | nil => cases h
    | cons x xs ih =>
      rw [List.mapM_cons] at h
      cases hx : f x with
      | error e' =>
        rw [hx] at h
        cases h
        exact ⟨[], x, xs, rfl, nofun, hx⟩
      | ok z =>
        rw [hx] at h
        cases hxs : xs.mapM f with
        | ok zs =>
          simp [hxs, bind, Except.bind, pure, Except.pure] at h
        | error e' =>
          rw [hxs] at h
          cases h
          obtain ⟨before, y, behind, rfl, hb, hy⟩ := ih hxs
          exact ⟨x :: before, y, behind, rfl, List.forall_mem_cons.mpr ⟨⟨z, hx⟩, hb⟩, hy⟩
  · rintro ⟨before, y, behind, rfl, hb, hy⟩
    induction before with
    | nil =>
      rw [List.nil_append, List.mapM_cons, hy]
      rfl
    | cons x before ih =>
      obtain ⟨⟨z, hz⟩, hb⟩ := List.forall_mem_cons.mp hb
      rw [List.cons_append, List.mapM_cons, hz]
      change (List.mapM f (before ++ y :: behind)) >>= _ = _
      rw [ih hb]
      rfl

theorem exists_mapM_iff {xs : List α} :
    (∃ ys, xs.mapM f = .ok ys) ↔ ∀ x ∈ xs, ∃ y, f x = .ok y := by
  simp only [mapM_eq_ok_iff, exists_forall₂_iff]

/-- A list is handed over element by element. -/
theorem ofValue_list_seq (t : HostType) (shape : Shape) (xs : Rope Value) :
    ofValue (list t) (.seq shape xs) = xs.toList.mapM t.ofValue :=
  Rope.toList_mapM t.ofValue xs

theorem ofValue_list_toValue (xs : (list t).Carrier) :
    ofValue (list t) (toValue (list t) xs) = (List.map t.toValue xs).mapM t.ofValue := by
  rw [show toValue (list t) xs = .seq .vector (.ofList (List.map t.toValue xs)) from rfl,
    ofValue_list_seq, Rope.toList_ofList]

/-! ## Options and numbers -/

theorem ofValue_option (hv : v ≠ .nil) : ofValue (option t) v = some <$> t.ofValue v := by
  cases v with
  | nil => contradiction
  | _ => rfl

theorem ofValue_option_eq_ok_iff (hv : v ≠ .nil) {x : Option t.Carrier} :
    ofValue (option t) v = .ok x ↔ ∃ y, x = some y ∧ t.ofValue v = .ok y := by
  rw [ofValue_option hv]
  cases t.ofValue v <;> simp [Carrier, eq_comm]

theorem ofValue_option_eq_error_iff (hv : v ≠ .nil) :
    ofValue (option t) v = .error e ↔ t.ofValue v = .error e := by
  rw [ofValue_option hv]
  cases t.ofValue v <;> simp [Carrier]

theorem narrow_eq_ok_iff {m : Int32} : narrow n = .ok m ↔ m.toInt64 = n := by
  constructor
  · intro h
    rw [narrow] at h
    split at h
    · next hn =>
      rw [← Except.ok.inj h, ← Int64.toInt_inj, Int32.toInt_toInt64,
        Int32.toInt_ofInt_of_le hn.1 (Int.lt_add_one_of_le hn.2)]
    · contradiction
  · rintro rfl
    rw [narrow, Int32.toInt_toInt64, if_pos ⟨m.minValue_le_toInt, m.toInt_le⟩, Int32.ofInt_toInt]

theorem exists_narrow_iff : (∃ m, narrow n = .ok m) ↔
    Int32.minValue.toInt ≤ n.toInt ∧ n.toInt ≤ Int32.maxValue.toInt := by
  rw [narrow]
  split
  · next hn => exact ⟨fun _ => hn, fun _ => ⟨_, rfl⟩⟩
  · next hn => exact ⟨fun ⟨_, h⟩ => by contradiction, fun h => absurd h hn⟩

theorem narrow_eq_error_iff : narrow n = .error e ↔
    ¬ (Int32.minValue.toInt ≤ n.toInt ∧ n.toInt ≤ Int32.maxValue.toInt) ∧ e = .overflow "i32" := by
  rw [narrow]
  split
  · next hn => exact ⟨fun h => by contradiction, fun h => absurd hn h.1⟩
  · next hn => exact ⟨fun h => ⟨hn, (Except.error.inj h).symm⟩, fun h => congrArg _ h.2.symm⟩

theorem sized_eq_ok_iff {m : UInt64} : sized n = .ok m ↔ n.toInt = m.toNat := by
  have hmax : n.toInt ≤ 2 ^ 63 - 1 := n.toInt_le
  rw [sized]
  constructor
  · intro h
    split at h
    · contradiction
    · next hn =>
      have hlt : n.toInt.toNat < UInt64.size := by
        rw [UInt64.size]
        omega
      rw [← Except.ok.inj h, UInt64.toNat_ofNat_of_lt' hlt, Int.toNat_of_nonneg (Int.not_lt.mp hn)]
  · intro h
    rw [h, if_neg (Int.not_lt.mpr (Int.natCast_nonneg _)), Int.toNat_natCast, UInt64.ofNat_toNat]

theorem exists_sized_iff : (∃ m, sized n = .ok m) ↔ 0 ≤ n.toInt := by
  rw [sized]
  split <;> simp <;> omega

theorem sized_eq_error_iff : sized n = .error e ↔
    n.toInt < 0 ∧ e = .type none "non-negative int" "negative int" := by
  rw [sized]
  split <;> simp [*, eq_comm]

theorem clamp_of_sized {m : UInt64} (h : sized n = .ok m) : clamp m = n := by
  rw [clamp, ← sized_eq_ok_iff.mp h, Word.ofInt?_toInt]
  rfl

/-- A size is kept by the integer that it becomes unless it is too large for one. -/
theorem sized_clamp_iff {m : UInt64} :
    sized (clamp m) = .ok m ↔ m.toNat ≤ Int64.maxValue.toInt := by
  rw [sized_eq_ok_iff]
  constructor
  · intro h
    exact h ▸ Int64.toInt_le _
  · intro h
    have hfits : Word.Fits m.toNat := ⟨Int.le_trans (by decide) (Int.natCast_nonneg _), h⟩
    rw [clamp, Word.ofInt?, if_pos hfits]
    exact Word.toInt_ofInt hfits

/-! ## What fits and what does not -/

/-- A value of another kind than a type asks for is refused as such. -/
theorem ofValue_of_kind (ha : asked? t = some (expected, isKind)) (hv : isKind v = false) :
    ofValue t v = .error (.type none expected v.typeName) := by
  cases t with
  | value | option => cases ha
  | _ =>
    cases ha
    cases v <;> first | rfl | cases hv

/-- A value is handed over exactly if it fits. -/
theorem exists_ofValue_iff : (∃ x, ofValue t v = .ok x) ↔ Fits t v := by
  induction t generalizing v with
  | value => exact ⟨fun _ => trivial, fun _ => ⟨v, rfl⟩⟩
  | list t ih =>
    constructor
    · rintro ⟨ys, h⟩
      cases v with
      | seq shape xs =>
        rw [ofValue_list_seq] at h
        exact ⟨shape, xs, rfl, fun x hx => ih.mp (exists_mapM_iff.mp ⟨ys, h⟩ x hx)⟩
      | _ => cases h
    · rintro ⟨shape, xs, rfl, h⟩
      rw [ofValue_list_seq]
      exact exists_mapM_iff.mpr fun x hx => ih.mpr (h x hx)
  | option t ih =>
    by_cases hv : v = .nil
    · subst hv
      exact ⟨fun _ => .inl rfl, fun _ => ⟨none, rfl⟩⟩
    · have hfits : Fits (option t) v ↔ Fits t v := or_iff_right hv
      rw [hfits, ← ih]
      constructor
      · rintro ⟨x, h⟩
        obtain ⟨y, -, h⟩ := (ofValue_option_eq_ok_iff hv).mp h
        exact ⟨y, h⟩
      · rintro ⟨y, h⟩
        exact ⟨some y, (ofValue_option_eq_ok_iff hv).mpr ⟨y, rfl, h⟩⟩
  | int32 =>
    constructor
    · rintro ⟨x, h⟩
      cases v with
      | int n => exact ⟨n, rfl, exists_narrow_iff.mp ⟨x, h⟩⟩
      | _ => cases h
    · rintro ⟨n, rfl, hn⟩
      exact exists_narrow_iff.mpr hn
  | size =>
    constructor
    · rintro ⟨x, h⟩
      cases v with
      | int n => exact ⟨n, rfl, exists_sized_iff.mp ⟨x, h⟩⟩
      | _ => cases h
    · rintro ⟨n, rfl, hn⟩
      exact exists_sized_iff.mpr hn
  | unit =>
    constructor
    · rintro ⟨x, h⟩
      cases v <;> first | rfl | cases h
    · rintro rfl
      exact ⟨(), rfl⟩
  | _ =>
    constructor
    · rintro ⟨x, h⟩
      cases v <;> first | exact ⟨_, rfl⟩ | cases h
    · rintro ⟨x, rfl⟩
      exact ⟨x, rfl⟩

theorem misfit_or_kind (h : ofValue t v = .error e) (ha : asked? t = some (expected, isKind)) :
    Misfit t v e ∨ isKind v = true := by
  cases hv : isKind v with
  | true => exact .inr rfl
  | false =>
    rw [ofValue_of_kind ha hv] at h
    cases h
    exact .inl (.kind ha hv)

/-- The complaint is about what is wrong, and about the first of it. -/
theorem ofValue_eq_error_iff : ofValue t v = .error e ↔ Misfit t v e := by
  constructor
  · intro h
    induction t generalizing v e with
    | value => cases h
    | list t ih =>
      obtain hm | hv := misfit_or_kind h rfl
      · exact hm
      · cases v with
        | seq shape xs =>
          rw [ofValue_list_seq] at h
          obtain ⟨before, y, behind, hx, hb, hy⟩ := mapM_eq_error_iff.mp h
          exact .element hx (fun x hx => exists_ofValue_iff.mp (hb x hx)) (ih hy)
        | _ => cases hv
    | option t ih =>
      have hv : v ≠ .nil := by
        rintro rfl
        cases h
      exact .content hv (ih ((ofValue_option_eq_error_iff hv).mp h))
    | int32 =>
      obtain hm | hv := misfit_or_kind h rfl
      · exact hm
      · cases v with
        | int n =>
          obtain ⟨hn, rfl⟩ := narrow_eq_error_iff.mp h
          exact .range hn
        | _ => cases hv
    | size =>
      obtain hm | hv := misfit_or_kind h rfl
      · exact hm
      · cases v with
        | int n =>
          obtain ⟨hn, rfl⟩ := sized_eq_error_iff.mp h
          exact .negative hn
        | _ => cases hv
    | _ =>
      obtain hm | hv := misfit_or_kind h rfl
      · exact hm
      · cases v <;> cases hv
        cases h
  · intro h
    induction h with
    | kind ha hv => exact ofValue_of_kind ha hv
    | range h => exact narrow_eq_error_iff.mpr ⟨h, rfl⟩
    | negative h => exact sized_eq_error_iff.mpr ⟨h, rfl⟩
    | element hx hb h ih =>
      rw [ofValue_list_seq]
      exact mapM_eq_error_iff.mpr
        ⟨_, _, _, hx, fun x hx => exists_ofValue_iff.mpr (hb x hx), ih⟩
    | content hv h ih => exact (ofValue_option_eq_error_iff hv).mpr ih

/-- Only types and ranges can be wrong, and no complaint says where. -/
theorem Misfit.error (h : Misfit t v e) :
    (∃ expected got, e = .type none expected got) ∨ ∃ target, e = .overflow target := by
  induction h with
  | kind | negative => exact .inl ⟨_, _, rfl⟩
  | range => exact .inr ⟨_, rfl⟩
  | element _ _ _ ih | content _ _ ih => exact ih

/-! ## What comes back -/

/-- What comes out of a value is that value again, but for the shapes of its sequences. -/
theorem beq_of_ofValue {x : t.Carrier} (h : ofValue t v = .ok x) : (toValue t x == v) = true := by
  induction t generalizing v with
  | value =>
    cases h
    exact Value.beq_self v
  | list t ih =>
    cases v with
    | seq shape xs =>
      rw [ofValue_list_seq] at h
      change Value.beq (.seq .vector (.ofList (List.map t.toValue x))) (.seq shape xs) = true
      rw [Value.beq_seq, Rope.toList_ofList]
      have hall := mapM_eq_ok_iff.mp h
      clear h
      generalize xs.toList = ys at hall
      induction hall with
      | nil => rfl
      | cons hx _ ihxs => rw [List.map_cons, List.cons_beq_cons, ih hx, ihxs]; rfl
    | _ => cases h
  | option t ih =>
    by_cases hv : v = .nil
    · subst hv
      cases h
      rfl
    · obtain ⟨y, rfl, hy⟩ := (ofValue_option_eq_ok_iff hv).mp h
      exact ih hy
  | int32 =>
    cases v with
    | int n =>
      cases narrow_eq_ok_iff.mp h
      exact Value.beq_self _
    | _ => cases h
  | size =>
    cases v with
    | int n =>
      cases clamp_of_sized h
      exact Value.beq_self _
    | _ => cases h
  | _ =>
    cases v <;> cases h
    exact Value.beq_self _

/-- Data that are kept come back. -/
theorem ofValue_toValue {x : t.Carrier} (h : Kept t x) : ofValue t (toValue t x) = .ok x := by
  induction t with
  | list t ih =>
    rw [ofValue_list_toValue]
    exact mapM_eq_ok_iff.mpr (List.forall₂_map_left_iff.mpr
      (List.forall₂_same.mpr fun y hy => ih (h y hy)))
  | option t ih =>
    cases x with
    | none => rfl
    | some y =>
      obtain ⟨hne, hy⟩ := h y rfl
      exact (ofValue_option_eq_ok_iff hne).mpr ⟨y, rfl, ih hy⟩
  | int32 => exact narrow_eq_ok_iff.mpr rfl
  | size => exact sized_clamp_iff.mpr h
  | _ => rfl

theorem same_self (x : t.Carrier) : Same t x x := by
  induction t with
  | value => exact Value.beq_self x
  | list t ih => exact List.forall₂_same.mpr fun y _ => ih y
  | option t ih =>
    cases x with
    | none => exact .none
    | some y => exact .some (ih y)
  | _ => rfl

/-- Only data that are kept come back, even if only as the same. -/
theorem kept_of_same {x y : t.Carrier} (h : ofValue t (toValue t x) = .ok y) (hs : Same t y x) :
    Kept t x := by
  induction t with
  | list t ih =>
    rw [ofValue_list_toValue] at h
    have hall := List.forall₂_map_left_iff.mp (mapM_eq_ok_iff.mp h)
    clear h
    induction hall with
    | nil => nofun
    | cons hx _ ihxs =>
      obtain _ | ⟨hsame, hs⟩ := hs
      exact List.forall_mem_cons.mpr ⟨ih hx hsame, ihxs hs⟩
  | option t ih =>
    rintro z rfl
    have hne : toValue t z ≠ .nil := by
      intro hnil
      rw [show toValue (option t) (some z) = toValue t z from rfl, hnil] at h
      cases h
      cases hs
    obtain ⟨w, rfl, hz⟩ := (ofValue_option_eq_ok_iff hne).mp h
    obtain ⟨hsame⟩ | _ := hs
    exact ⟨hne, ih hz hsame⟩
  | size =>
    cases hs
    exact sized_clamp_iff.mp h
  | _ => trivial

/-- **The two ways are inverse where they can be.** Data come back if and only if they hold no size
that is too large for an integer, and no option whose content looks as if there were none; then
they come back as they are, and otherwise not even as the same. What comes out of a value becomes
an equal value again. A value that fits a type is handed over; for any other the complaint is about
what is wrong with it, about the first of several elements, and says nothing of where that is. -/
theorem conversions_inverse (t : HostType) :
    (∀ x, (ofValue t (toValue t x) = .ok x ↔ Kept t x) ∧
      ((∃ y, ofValue t (toValue t x) = .ok y ∧ Same t y x) ↔ Kept t x)) ∧
    (∀ v x, ofValue t v = .ok x → (toValue t x == v) = true) ∧
    (∀ v, ((∃ x, ofValue t v = .ok x) ↔ Fits t v) ∧
      ∀ e, (ofValue t v = .error e ↔ Misfit t v e) ∧
        (Misfit t v e →
          (∃ expected got, e = .type none expected got) ∨ ∃ target, e = .overflow target)) :=
  ⟨fun x => ⟨⟨fun h => kept_of_same h (same_self x), ofValue_toValue⟩,
      fun ⟨_, h, hs⟩ => kept_of_same h hs, fun h => ⟨x, ofValue_toValue h, same_self x⟩⟩,
    fun _ _ => beq_of_ofValue,
    fun _ => ⟨exists_ofValue_iff, fun _ => ⟨ofValue_eq_error_iff, Misfit.error⟩⟩⟩

end

end HostType

end Lisplet
