import Lisplet.Proofs.Acceptance
import Lisplet.Proofs.Application
import Mathlib.Data.List.Sort

/-! The entries of maps, when a map is made of pairs and when it is evaluated. A map is made half
by half; that this comes to the same as putting one pair after another into a map that is in order
rests on the order alone, which takes a list and a vector of equal elements for the same key. The
evaluation of a map keeps its keys, so what it makes of its values is in order already. -/

namespace Lisplet

namespace Value

/-- Puts an entry where its key belongs, and in the place of an entry with an equal key. -/
def put (e : Value × Value) : List (Value × Value) → List (Value × Value)
  | [] => [e]
  | f :: fs =>
    match order e.1 f.1 with
    | .lt => e :: f :: fs
    | .eq => e :: fs
    | .gt => f :: put e fs

/-- A pair behind which there is no other with an equal key. -/
def IsLast (e : Value × Value) (ps : List (Value × Value)) : Prop :=
  ∃ before behind, ps = before ++ e :: behind ∧ ∀ f ∈ behind, (e.1 == f.1) = false

end Value

/-- The values of entries are evaluated in turn, each of them once and in the world that the one in
front of it has left, up to the first error. Keys are not evaluated. -/
inductive SettlesInTurn (frame : FrameId) (d L : Nat) : List (Value × Value) → World →
    Except Error (List (Value × Value)) → World → Prop where
  | nil : SettlesInTurn frame d L [] w (.ok []) w
  | cons (h : Settles form frame ⟨w, d, L⟩ (.ok v) w₁)
    (hs : SettlesInTurn frame d L es w₁ rs w₂) :
    SettlesInTurn frame d L ((key, form) :: es) w (rs.map ((key, v) :: ·)) w₂
  | error (h : Settles form frame ⟨w, d, L⟩ (.error e) w') :
    SettlesInTurn frame d L ((key, form) :: es) w (.error e) w'

section

variable {e : Value × Value} {es fs ps qs : List (Value × Value)} {k v : Value}

namespace Value

/-! ## Entries in order -/

/-- Entries in order are told by which entries they are. -/
theorem ascending_ext (he : Ascending es) (hf : Ascending fs) (h : ∀ e, e ∈ es ↔ e ∈ fs) :
    es = fs := by
  have hself (v : Value) : order v v = .eq := Std.ReflCmp.compare_self
  have hirrefl : Std.Irrefl fun e f : Value × Value => order e.1 f.1 = .lt :=
    ⟨fun e h => by rw [hself] at h; contradiction⟩
  have hantisymm : Std.Antisymm fun e f : Value × Value => order e.1 f.1 = .lt :=
    ⟨fun e f h h' => by rw [Std.OrientedCmp.gt_of_lt h] at h'; contradiction⟩
  exact List.Pairwise.eq_of_mem_iff he hf h

theorem find_congr (h : order k v = .eq) (es : List (Value × Value)) : find k es = find v es := by
  rw [find, find]
  exact congrArg (es.find? ·) (funext fun e => by rw [Std.TransCmp.congr_left h])

/-- In entries that are in order there is one with a key at most. -/
theorem find_eq_some_iff (ha : Ascending es) :
    find k es = some e ↔ e ∈ es ∧ order k e.1 = .eq := by
  constructor
  · intro h
    exact ⟨List.mem_of_find?_eq_some h, by simpa using List.find?_some h⟩
  · rintro ⟨he, hk⟩
    obtain ⟨before, behind, rfl⟩ := List.append_of_mem he
    have hb := (List.pairwise_append.mp ha).2.2
    rw [find_congr hk]
    refine List.find?_eq_some_iff_append.mpr ⟨by simp [Std.ReflCmp.compare_self], before, behind,
      rfl, fun f hf => ?_⟩
    rw [Std.OrientedCmp.gt_of_lt (hb f hf e List.mem_cons_self)]
    rfl

theorem mem_iff_find (ha : Ascending es) : e ∈ es ↔ find e.1 es = some e := by
  rw [find_eq_some_iff ha]
  exact (and_iff_left Std.ReflCmp.compare_self).symm

theorem union_nil (es : List (Value × Value)) : union es [] = es := by
  cases es <;> rw [union]

/-! ## Making a map -/

theorem put_eq_union (e : Value × Value) (es : List (Value × Value)) :
    put e es = union es [e] := by
  induction es with
  | nil => rw [union, put]
  | cons f es ih =>
    rw [put, union]
    cases h : order e.1 f.1 with
    | lt =>
      rw [Std.OrientedCmp.gt_of_lt h]
      exact congrArg (e :: ·) (union_nil (f :: es)).symm
    | eq => rw [Std.OrientedCmp.eq_symm h, union_nil]
    | gt => rw [Std.OrientedCmp.lt_of_gt h, ih]

theorem find_foldl_put (ps : List (Value × Value)) (ha : Ascending es) :
    Ascending (ps.foldl (fun es e => put e es) es) ∧
      ∀ k, find k (ps.foldl (fun es e => put e es) es) = (find k ps.reverse).or (find k es) := by
  induction ps generalizing es with
  | nil => exact ⟨ha, fun k => rfl⟩
  | cons p ps ih =>
    have hp : Ascending [p] := List.pairwise_singleton ..
    have hput : Ascending (put p es) := put_eq_union p es ▸ ascending_union ha hp
    obtain ⟨hs, hfind⟩ := ih hput
    refine ⟨hs, fun k => (hfind k).trans ?_⟩
    rw [put_eq_union, find_union ha hp, ← Option.or_assoc, List.reverse_cons]
    simp only [find, List.find?_append]

/-- Making a map half by half and putting one pair after another into it come to the same. -/
theorem entriesOf_eq_foldl (ps : List (Value × Value)) :
    entriesOf ps = ps.foldl (fun es e => put e es) [] := by
  have hnil : Ascending [] := .nil
  obtain ⟨ha, hfind⟩ := find_foldl_put ps hnil
  refine ascending_ext (ascending_entriesOf ps) ha fun e => ?_
  rw [mem_iff_find (ascending_entriesOf ps), mem_iff_find ha, hfind,
    ← lookup_eq_find (ascending_entriesOf ps), lookup_entriesOf]
  exact Option.or_none ▸ Iff.rfl

/-- As a key, a vector takes the place of a list with equal elements. -/
example : entriesOf [(.list [.int 1], .nil), (.vector [.int 1], .bool true)] =
    [(.vector [.int 1], .bool true)] := by
  simp only [entriesOf_eq_foldl, List.foldl, put, list, vector, order_seq, Rope.toList_ofList]
  rfl

/-- The entries of a map are the last pairs with their keys. -/
theorem mem_entriesOf_iff : e ∈ entriesOf ps ↔ IsLast e ps := by
  have hkey : ∀ f : Value × Value,
      (!(order e.1 f.1 == .eq)) = true ↔ (e.1 == f.1) = false := by
    intro f
    rw [Bool.not_eq_true', Bool.eq_false_iff, Bool.eq_false_iff, Ne, Ne, ← order_eq_iff_beq,
      beq_iff_eq]
  rw [mem_iff_find (ascending_entriesOf ps), ← lookup_eq_find (ascending_entriesOf ps),
    lookup_entriesOf, find, List.find?_eq_some_iff_append]
  constructor
  · rintro ⟨-, behind, before, hps, hb⟩
    refine ⟨before.reverse, behind.reverse, ?_, fun f hf => ?_⟩
    · rw [← ps.reverse_reverse, hps]
      simp
    · exact (hkey f).mp (hb f (List.mem_reverse.mp hf))
  · rintro ⟨before, behind, rfl, hb⟩
    refine ⟨by simp [Std.ReflCmp.compare_self], behind.reverse, before.reverse, by simp,
      fun f hf => ?_⟩
    exact (hkey f).mpr (hb f (List.mem_reverse.mp hf))

/-- For each pair there is one entry with an equal key, and no more. -/
theorem existsUnique_mem_entriesOf (h : e ∈ ps) :
    ∃! f, f ∈ entriesOf ps ∧ (e.1 == f.1) = true := by
  have hfind : ∀ f, (f ∈ entriesOf ps ∧ (e.1 == f.1) = true) ↔
      find e.1 ps.reverse = some f := by
    intro f
    rw [← order_eq_iff_beq, ← find_eq_some_iff (ascending_entriesOf ps), ← lookup_entriesOf,
      lookup_eq_find (ascending_entriesOf ps)]
  cases hf : find e.1 ps.reverse with
  | none =>
    have hne := List.find?_eq_none.mp hf e (List.mem_reverse.mpr h)
    simp [Std.ReflCmp.compare_self] at hne
  | some f =>
    exact ⟨f, (hfind f).mpr hf, fun g hg => Option.some.inj (((hfind g).mp hg).symm.trans hf)⟩

theorem isLast_of_pairwise (hne : ps.Pairwise fun e f => (e.1 == f.1) = false) :
    IsLast e ps ↔ e ∈ ps := by
  constructor
  · rintro ⟨before, behind, rfl, -⟩
    simp
  · intro h
    obtain ⟨before, behind, rfl⟩ := List.append_of_mem h
    have hbehind := (List.pairwise_append.mp hne).2.1
    exact ⟨before, behind, rfl, fun f hf => List.rel_of_pairwise_cons hbehind hf⟩

/-- Without equal keys a map has all pairs as its entries, whatever their order is. -/
theorem mapOf_of_perm (h : ps.Perm qs) (hne : ps.Pairwise fun e f => (e.1 == f.1) = false) :
    mapOf ps = mapOf qs := by
  have hswap : ∀ {e f : Value × Value}, (e.1 == f.1) = false → (f.1 == e.1) = false := by
    intro e f hef
    rw [Bool.eq_false_iff, Ne, ← order_eq_iff_beq] at hef ⊢
    exact fun hfe => hef (Std.OrientedCmp.eq_symm hfe)
  have hentries : entriesOf ps = entriesOf qs := by
    refine ascending_ext (ascending_entriesOf ps) (ascending_entriesOf qs) fun e => ?_
    rw [mem_entriesOf_iff, mem_entriesOf_iff, isLast_of_pairwise hne,
      isLast_of_pairwise ((h.pairwise_iff hswap).mp hne)]
    exact h.mem_iff
  rw [mapOf, hentries, mapOf]

end Value

/-! ## Evaluating a map -/

variable {frame : FrameId} {d L : Nat} {w w' : World} {t : List Event} {m : Machine}
  {r : Except Error Value} {rs : Except Error (List Value)}
  {news : Except Error (List (Value × Value))}

theorem SettlesInTurn.keys (h : SettlesInTurn frame d L es w (.ok fs) w') :
    fs.map Prod.fst = es.map Prod.fst := by
  generalize hr : Except.ok fs = rs at h
  induction h generalizing fs with
  | nil =>
    cases hr
    rfl
  | @cons form w v w₁ es rs w₂ key h hs ih =>
    cases rs with
    | error e => cases hr
    | ok gs =>
      cases hr
      rw [List.map_cons, List.map_cons, ih rfl]
  | error h => cases hr

/-- Evaluating the values of entries as forms in a row is evaluating them in turn. -/
theorem settlesInTurn_of_evaluatesAll
    (h : EvaluatesAll (.at d L) (es.map Prod.snd) frame w t rs w') :
    SettlesInTurn frame d L es w (rs.map fun vs => (es.map Prod.fst).zip vs) w' := by
  induction es generalizing w t rs with
  | nil =>
    cases h
    exact .nil
  | cons e es ih =>
    cases h with
    | @cons _ _ _ _ _ v _ _ _ rs _ h hs =>
      have hturn : SettlesInTurn frame d L (e :: es) w
          ((rs.map fun vs => (es.map Prod.fst).zip vs).map ((e.1, v) :: ·)) w' :=
        .cons h.settled (ih hs)
      cases rs <;> exact hturn
    | error h => exact .error h.settled

theorem SettlesInTurn.evaluatesAll (h : SettlesInTurn frame d L es w news w') :
    ∃ rs t, EvaluatesAll (.at d L) (es.map Prod.snd) frame w t rs w' ∧
      news = rs.map fun vs => (es.map Prod.fst).zip vs := by
  induction h with
  | nil => exact ⟨_, _, .nil, rfl⟩
  | cons h hs ih =>
    obtain ⟨t₁, he⟩ := h.derivation
    obtain ⟨rs, t₂, hall, rfl⟩ := ih
    refine ⟨_, _, .cons he hall, ?_⟩
    cases rs <;> rfl
  | error h =>
    obtain ⟨t, he⟩ := h.derivation
    exact ⟨_, _, .error he, rfl⟩

theorem SettlesInTurn.ascending (h : SettlesInTurn frame d L es w (.ok fs) w')
    (ha : Value.Ascending es) : Value.Ascending fs := by
  have hkeys : (es.map Prod.fst).Pairwise fun k l => Value.order k l = .lt :=
    List.pairwise_map.mpr ha
  rw [← h.keys] at hkeys
  exact List.pairwise_map.mp hkeys

/-- What the values of a map become is a map with the same keys. -/
theorem evaluates_map_iff {es : Rope (Value × Value)} (ha : Value.Ascending es.toList) :
    (∃ t, Evaluates (.at d L) (.map es) frame w t r w') ↔
      ∃ news, SettlesInTurn frame d L es.toList w news w' ∧
        r = news.map fun fs => .map (.ofList fs) := by
  have hmade : ∀ rs : Except Error (List Value),
      SettlesInTurn frame d L es.toList w (rs.map fun vs => (es.toList.map Prod.fst).zip vs) w' →
        (rs.map fun vs => Value.mapOf ((es.toList.map Prod.fst).zip vs)) =
          (rs.map fun vs => (es.toList.map Prod.fst).zip vs).map
            fun fs => Value.map (.ofList fs) := by
    intro rs hs
    cases rs with
    | error e => rfl
    | ok vs => exact congrArg Except.ok (Value.mapOf_of_ascending (hs.ascending ha))
  constructor
  · rintro ⟨t, h⟩
    cases h with
    | constant hc => cases hc
    | special hc hp => cases hc
    | map hs =>
      have hturn := settlesInTurn_of_evaluatesAll hs
      exact ⟨_, hturn, hmade _ hturn⟩
  · rintro ⟨news, hs, rfl⟩
    obtain ⟨rs, t, hall, rfl⟩ := hs.evaluatesAll
    exact ⟨t, hmade rs hs ▸ .map hall⟩

theorem settles_iff_of_no_room {form : Value} (h : L ≤ d) :
    Settles form frame ⟨w, d, L⟩ r w' ↔ r = .error (.tooDeep L) ∧ w' = w := by
  have hroom : L - d = 0 := by omega
  rw [settles_iff_enters, Guard.at, hroom]
  constructor
  · rintro ⟨t, h⟩
    cases h
    exact ⟨rfl, rfl⟩
  · rintro ⟨rfl, rfl⟩
    exact ⟨_, .refused⟩

/-- **A map holds the last pairs, in order, and keeps its keys when it is evaluated.** The entries
of a map that is made of pairs are in ascending order of their keys, with no two equal; they are
the pairs behind which there is no other with an equal key, key and value as they stand there. They
are what putting the pairs into a map one after another comes to. Pairs of which no two have equal
keys make one and the same map in whatever order they stand. Where there is room for the evaluation
of a map, its values are evaluated in turn, each of them once, in ascending order of their keys, up
to the first error; otherwise nothing is. If there is no error the map that comes out has the keys
of the form. -/
theorem maps_hold_last_pairs :
    (∀ ps, Value.Ascending (Value.entriesOf ps) ∧
      (∀ e, e ∈ Value.entriesOf ps ↔ Value.IsLast e ps) ∧
      (∀ e ∈ ps, ∃! f, f ∈ Value.entriesOf ps ∧ (e.1 == f.1) = true) ∧
      Value.entriesOf ps = ps.foldl (fun es e => Value.put e es) []) ∧
    (∀ ps qs : List (Value × Value), ps.Perm qs →
      ps.Pairwise (fun e f => (e.1 == f.1) = false) → Value.mapOf ps = Value.mapOf qs) ∧
    (∀ (es : Rope (Value × Value)) frame w d L r w', Value.Ascending es.toList →
      (L ≤ d →
        (Settles (.map es) frame ⟨w, d, L⟩ r w' ↔ r = .error (.tooDeep L) ∧ w' = w)) ∧
      (d < L →
        (Settles (.map es) frame ⟨w, d, L⟩ r w' ↔
          ∃ news, SettlesInTurn frame (d + 1) L es.toList w news w' ∧
            r = news.map fun fs => .map (.ofList fs)))) ∧
    (∀ (es fs : List (Value × Value)) frame d L w w',
      SettlesInTurn frame d L es w (.ok fs) w' → fs.map Prod.fst = es.map Prod.fst) := by
  refine ⟨fun ps => ⟨Value.ascending_entriesOf ps, fun e => Value.mem_entriesOf_iff,
      fun e => Value.existsUnique_mem_entriesOf, Value.entriesOf_eq_foldl ps⟩,
    fun ps qs => Value.mapOf_of_perm,
    fun es frame w d L r w' ha => ⟨settles_iff_of_no_room, fun h => ?_⟩,
    fun es fs frame d L w w' => SettlesInTurn.keys⟩
  rw [settles_iff_enters, enters_iff_evaluates h]
  exact evaluates_map_iff ha

end

end Lisplet
