import Lisplet.Proofs.BigStep.Completeness
import Lisplet.Proofs.BigStep.Guards

/-! Evaluations and derivations compared. Under the limit of a machine they are the same. A
derivation under no guard is the evaluation that has room for all its levels; where there is
less room the evaluation ends at the first level beyond it, and a run that has ended without
a complaint about its depth ends in the same way when it gets more room. -/

namespace Lisplet

/-- The evaluation ends in the result, and leaves the machine as it was but for the world. -/
def Settles (form : Value) (frame : FrameId) (m : Machine) (r : Except Error Value)
    (w' : World) : Prop :=
  ∃ fuel, eval fuel form frame m = .of r { m with world := w' }

/-- The greatest level that is attempted. -/
def nesting (t : List Event) : Nat := t.foldr (fun e n => max e.level n) 0

theorem nesting_le_iff {t : List Event} {k : Nat} : nesting t ≤ k ↔ ∀ e ∈ t, e.level ≤ k := by
  induction t with
  | nil => simp [nesting]
  | cons e t ih =>
    rw [nesting, List.foldr_cons, Nat.max_le, List.forall_mem_cons, ← ih]
    rfl

/-- A part in tail position takes no level of its own, whatever came before it. -/
@[simp] theorem nesting_append (s t : List Event) :
    nesting (s ++ t) = max (nesting s) (nesting t) := by
  induction s with
  | nil => simp [nesting]
  | cons e s ih =>
    change max e.level (nesting (s ++ t)) = max (max e.level (nesting s)) (nesting t)
    rw [ih, Nat.max_assoc]

/-- An evaluation one level further down takes one level more. -/
@[simp] theorem nesting_deeper (w : World) (t : List Event) :
    nesting (.attempt 1 w :: t.map .deeper) = nesting t + 1 := by
  induction t with
  | nil => rfl
  | cons e t ih =>
    change max 1 (max e.deeper.level (nesting (t.map .deeper))) = max e.level (nesting t) + 1
    change max 1 (nesting (t.map .deeper)) = nesting t + 1 at ih
    cases e with
    | attempt level world =>
      change max 1 (max (level + 1) _) = max level _ + 1
      omega
    | asked root =>
      change max 1 (max 0 _) = max 0 _ + 1
      omega

theorem level_le_nesting {t : List Event} {e : Event} (he : e ∈ t) : e.level ≤ nesting t :=
  nesting_le_iff.mp (Nat.le_refl _) e he

section

variable {form : Value} {frame : FrameId} {w w' w₁ w₂ : World} {m : Machine}
  {t : List Event} {r r₁ r₂ : Except Error Value} {d L L' : Nat}

/-! ## Under the limit of the machine -/

theorem Settles.derivation (h : Settles form frame ⟨w, d, L⟩ r w') :
    ∃ t, Enters (.at d L) form frame w t r w' := by
  obtain ⟨fuel, hf⟩ := h
  obtain ⟨t, w₁, hm, he⟩ := follows_eval fuel d L form frame hf
  cases hm
  exact ⟨t, he⟩

theorem Enters.eventually (h : Enters (.at d L) form frame w t r w') :
    ∃ k, ∀ fuel, k ≤ fuel → eval fuel form frame ⟨w, d, L⟩ = .of r ⟨w', d, L⟩ := by
  obtain ⟨k, hk⟩ := h.settles rfl
  exact ⟨k, fun fuel hf => hk fuel fuel fuel hf hf hf⟩

theorem Enters.settled (h : Enters (.at d L) form frame w t r w') :
    Settles form frame ⟨w, d, L⟩ r w' := by
  obtain ⟨k, hk⟩ := h.eventually
  exact ⟨k, hk k (Nat.le_refl k)⟩

/-- An evaluation that has ended ends in the same way with all fuel beyond some amount. -/
theorem Settles.eventually (h : Settles form frame m r w') :
    ∃ k, ∀ fuel, k ≤ fuel → eval fuel form frame m = .of r { m with world := w' } := by
  obtain ⟨t, he⟩ := h.derivation
  exact he.eventually

/-- An evaluation does not end in two ways. -/
theorem Settles.unique (h₁ : Settles form frame m r₁ w₁) (h₂ : Settles form frame m r₂ w₂) :
    r₁ = r₂ ∧ w₁ = w₂ := by
  obtain ⟨k₁, hk₁⟩ := h₁.eventually
  obtain ⟨k₂, hk₂⟩ := h₂.eventually
  have h := (hk₁ (max k₁ k₂) (Nat.le_max_left ..)).symm.trans (hk₂ _ (Nat.le_max_right ..))
  obtain ⟨hr, hm⟩ := Outcome.of_inj h
  exact ⟨hr, congrArg Machine.world hm⟩

/-! ## Under no limit and under others -/

/-- An evaluation that ends gives what the form means, or complains that it is too deep. -/
theorem Settles.derives (h : Settles form frame ⟨w, d, L⟩ r w') :
    Derives form frame w r w' ∨ r = .error (.tooDeep L) := by
  obtain ⟨t, he⟩ := h.derivation
  cases he.shifts .free with
  | same hs ht hj => exact .inl ⟨t, hj⟩
  | cut hs hg => contradiction
  | tooDeep hg hr =>
    obtain ⟨-, rfl⟩ := Guard.upTo.inj hg
    exact .inr hr

/-- Of two limits at most one is complained of. -/
theorem Settles.derives_of_both (h : Settles form frame ⟨w, d, L⟩ r w') (hL : L ≠ L')
    (h' : Settles form frame ⟨w, d, L'⟩ r w') : Derives form frame w r w' := by
  rcases h.derives with hd | hr
  · exact hd
  · rcases h'.derives with hd | hr'
    · exact hd
    · rw [hr] at hr'
      exact (hL (Error.tooDeep.inj (Except.error.inj hr'))).elim

/-- With room for all levels the evaluation gives what the form means. -/
theorem Enters.settled_of_nesting (h : Enters .free form frame w t r w')
    (ht : d + nesting t ≤ L) : Settles form frame ⟨w, d, L⟩ r w' := by
  cases h.shifts (.at d L) with
  | same hs ht hj => exact hj.settled
  | @cut room limit b u w₁ hs hg he hb hj =>
    obtain ⟨rfl, rfl⟩ := Guard.upTo.inj hg
    have hl : (Event.attempt (L - d + 1) w₁).level ≤ nesting t := level_le_nesting (by simp [he])
    change L - d + 1 ≤ nesting t at hl
    omega
  | tooDeep hg hr => contradiction

theorem Derives.eventually_settled (h : Derives form frame w r w') (d : Nat) :
    ∃ L₀, ∀ L, L₀ ≤ L → Settles form frame ⟨w, d, L⟩ r w' := by
  obtain ⟨t, ht⟩ := h
  exact ⟨d + nesting t, fun L hL => ht.settled_of_nesting hL⟩

/-- What a form means is what its evaluation gives under all high limits. -/
theorem derives_iff_eventually_settled (d : Nat) :
    Derives form frame w r w' ↔ ∃ L₀, ∀ L, L₀ ≤ L → Settles form frame ⟨w, d, L⟩ r w' := by
  constructor
  · intro h
    exact h.eventually_settled d
  · rintro ⟨L₀, h⟩
    exact (h L₀ (Nat.le_refl _)).derives_of_both (Nat.ne_of_lt (Nat.lt_succ_self _))
      (h (L₀ + 1) (Nat.le_succ _))

/-- Without room for all levels the evaluation ends at the first for which there is none. -/
theorem Enters.cut_of_nesting (h : Enters .free form frame w t r w')
    (hd : d ≤ L) (ht : L < d + nesting t) :
    ∃ b w₁ u, t = b ++ .attempt (L + 1 - d) w₁ :: u ∧ (∀ e ∈ b, d + e.level ≤ L) ∧
      Settles form frame ⟨w, d, L⟩ (.error (.tooDeep L)) w₁ := by
  cases h.shifts (.at d L) with
  | same hs hl hj =>
    have hn : nesting t ≤ L - d := nesting_le_iff.mpr hl
    omega
  | @cut room limit b u w₁ hs hg he hb hj =>
    obtain ⟨rfl, rfl⟩ := Guard.upTo.inj hg
    refine ⟨b, w₁, u, ?_, ?_, hj.settled⟩
    · rw [he, Nat.sub_add_comm hd]
    · intro e hm
      have hl : e.level ≤ L - d := hb e hm
      omega
  | tooDeep hg hr => contradiction

/-- More room changes nothing where there was enough. -/
theorem Settles.raise (h : Settles form frame ⟨w, d, L⟩ r w') (hr : r ≠ .error (.tooDeep L))
    (hL : L ≤ L') : Settles form frame ⟨w, d, L'⟩ r w' := by
  obtain ⟨t, he⟩ := h.derivation
  cases he.shifts (.at d L') with
  | same hs ht hj => exact hj.settled
  | @cut room limit b u w₁ hs hg ht hb hj =>
    obtain ⟨rfl, rfl⟩ := Guard.upTo.inj hg
    have hl : L' - d + 1 ≤ L - d := hs (.attempt (L' - d + 1) w₁) (by simp [ht])
    omega
  | tooDeep hg hr' =>
    obtain ⟨-, rfl⟩ := Guard.upTo.inj hg
    contradiction

theorem Settles.raise_iff (h : Settles form frame ⟨w, d, L⟩ r₁ w₁)
    (hr : r₁ ≠ .error (.tooDeep L)) (hL : L ≤ L') :
    Settles form frame ⟨w, d, L'⟩ r w' ↔ Settles form frame ⟨w, d, L⟩ r w' := by
  constructor
  · intro h'
    obtain ⟨rfl, rfl⟩ := (h.raise hr hL).unique h'
    exact h
  · intro h'
    obtain ⟨rfl, rfl⟩ := h.unique h'
    exact h.raise hr hL

end

end Lisplet
