import Lisplet.Proofs.BigStep

/-! What one guard makes of a derivation under another. If neither of them is exceeded the
same can be derived. If the old one was exceeded the result is its complaint, since no rule
takes an error back. If the new one is exceeded the derivation is cut short at the first
attempt beyond it, and ends there with the complaint of the new one. One induction over the
rules serves for putting a limit, for taking it away and for raising it. -/

namespace Lisplet

namespace Guard

/-- The events stay within the room that the guard gives. -/
def Admits : Guard → List Event → Prop
  | free, _ => True
  | upTo room _, t => ∀ e ∈ t, e.level ≤ room

variable {g : Guard} {s t : List Event}

theorem admits_nil : g.Admits [] := by
  cases g with
  | free => trivial
  | upTo room limit => nofun

theorem admits_append : g.Admits (s ++ t) ↔ g.Admits s ∧ g.Admits t := by
  cases g with
  | free => simp [Admits]
  | upTo room limit => simp [Admits, or_imp, forall_and]

theorem admits_asked {root : FrameId} : g.Admits (.asked root :: t) ↔ g.Admits t := by
  cases g with
  | free => rfl
  | upTo room limit => simp [Admits, Event.level]

theorem level_deeper (e : Event) : e.deeper.level ≤ e.level + 1 := by
  cases e <;> simp [Event.deeper, Event.level]

/-- The guard that is left one level further down. -/
inductive Inside : Guard → Guard → Prop where
  | free : Inside free free
  | upTo : Inside (upTo (room + 1) limit) (upTo room limit)

theorem Inside.admits {g₁ : Guard} (h : Inside g g₁) (ht : g₁.Admits t) (w : World) :
    g.Admits (.attempt 1 w :: t.map .deeper) := by
  cases h with
  | free => trivial
  | @upTo room limit =>
    intro e he
    rcases List.mem_cons.mp he with rfl | hm
    · exact Nat.le_add_left 1 room
    · obtain ⟨d, hd, rfl⟩ := List.mem_map.mp hm
      exact Nat.le_trans (level_deeper d) (Nat.succ_le_succ (ht d hd))

end Guard

/-- What is said of a run that begins in a given world. -/
abbrev Ending (α : Type) : Type := List Event → Except Error α → World → Prop

/-- What becomes, under the guard `g'`, of an ending under the guard `g`; `J` says what can
be derived under `g'`. -/
inductive Shifts (g g' : Guard) (J : Ending α) (t : List Event) (r : Except Error α)
    (w' : World) : Prop where
  | same (hs : g.Admits t) (ht : g'.Admits t) (hj : J t r w')
  | cut {room limit : Nat} {b u : List Event} {w₁ : World} (hs : g.Admits t)
    (hg : g' = .upTo room limit) (ht : t = b ++ .attempt (room + 1) w₁ :: u)
    (hb : g'.Admits b) (hj : J (b ++ [.attempt (room + 1) w₁]) (.error (.tooDeep limit)) w₁)
  | tooDeep {room limit : Nat} (hg : g = .upTo room limit) (hr : r = .error (.tooDeep limit))

namespace Shifts

variable {g g' : Guard}

theorem nil {J : Ending α} {r : Except Error α} {w' : World} (hj : J [] r w') :
    Shifts g g' J [] r w' := .same Guard.admits_nil Guard.admits_nil hj

/-- A rule with one premise, of which it takes over the errors. -/
theorem last {J : Ending α} {K : Ending β} {t : List Event} {r : Except Error α}
    {w' w'' : World} {r' : Except Error β} (h : Shifts g g' J t r w')
    (hr : ∀ e, r = .error e → r' = .error e) (hok : ∀ {t}, J t r w' → K t r' w'')
    (herr : ∀ {t e w}, J t (.error e) w → K t (.error e) w) : Shifts g g' K t r' w'' := by
  cases h with
  | same hs ht hj => exact .same hs ht (hok hj)
  | cut hs hg ht hb hj => exact .cut hs hg ht hb (herr hj)
  | tooDeep hg hr' => exact .tooDeep hg (hr _ hr')

theorem mono {J K : Ending α} {t : List Event} {r : Except Error α} {w' : World}
    (h : Shifts g g' J t r w') (hJ : ∀ {t r w}, J t r w → K t r w) : Shifts g g' K t r w' :=
  h.last (fun _ hr => hr) hJ hJ

/-- A rule that hands on an error. -/
theorem error {J : Ending α} {K : Ending β} {t : List Event} {e : Error} {w' : World}
    (h : Shifts g g' J t (.error e) w')
    (herr : ∀ {t e w}, J t (.error e) w → K t (.error e) w) :
    Shifts g g' K t (.error e) w' :=
  h.last (fun _ hr => by cases hr; rfl) herr herr

theorem map {J : Ending α} {K : Ending β} {f : α → β} {t : List Event} {r : Except Error α}
    {w' : World} (h : Shifts g g' J t r w') (hJ : ∀ {t r w}, J t r w → K t (r.map f) w) :
    Shifts g g' K t (r.map f) w' :=
  h.last (fun e hr => by rw [hr]; rfl) hJ hJ

/-- A rule with two premises, the second of which begins where the first has given a value. -/
theorem andThen {J : Ending α} {K M : Ending β} {t₁ t₂ : List Event} {a : α}
    {r : Except Error β} {w₁ w₂ : World} (hj : Shifts g g' J t₁ (.ok a) w₁)
    (hk : Shifts g g' K t₂ r w₂)
    (hok : ∀ {t₁ t₂ r w₂}, J t₁ (.ok a) w₁ → K t₂ r w₂ → M (t₁ ++ t₂) r w₂)
    (herr : ∀ {t e w}, J t (.error e) w → M t (.error e) w) :
    Shifts g g' M (t₁ ++ t₂) r w₂ := by
  cases hk with
  | tooDeep hg hr => exact .tooDeep hg hr
  | same hs₂ ht₂ hk =>
    cases hj with
    | tooDeep hg hr => contradiction
    | same hs₁ ht₁ hj =>
      exact .same (Guard.admits_append.mpr ⟨hs₁, hs₂⟩) (Guard.admits_append.mpr ⟨ht₁, ht₂⟩)
        (hok hj hk)
    | cut hs₁ hg ht₁ hb hj =>
      exact .cut (Guard.admits_append.mpr ⟨hs₁, hs₂⟩) hg (by rw [ht₁, List.append_assoc]; rfl)
        hb (herr hj)
  | cut hs₂ hg₂ ht₂ hb₂ hk =>
    cases hj with
    | tooDeep hg hr => contradiction
    | same hs₁ ht₁ hj =>
      refine .cut (Guard.admits_append.mpr ⟨hs₁, hs₂⟩) hg₂ (by rw [ht₂, ← List.append_assoc])
        (Guard.admits_append.mpr ⟨ht₁, hb₂⟩) ?_
      rw [List.append_assoc]
      exact hok hj hk
    | cut hs₁ hg ht₁ hb hj =>
      exact .cut (Guard.admits_append.mpr ⟨hs₁, hs₂⟩) hg (by rw [ht₁, List.append_assoc]; rfl)
        hb (herr hj)

theorem asked {J K : Ending α} {t : List Event} {r : Except Error α} {w' : World}
    {root : FrameId} (h : Shifts g g' J t r w')
    (hJ : ∀ {t r w}, J t r w → K (.asked root :: t) r w) :
    Shifts g g' K (.asked root :: t) r w' := by
  cases h with
  | same hs ht hj => exact .same (Guard.admits_asked.mpr hs) (Guard.admits_asked.mpr ht) (hJ hj)
  | cut hs hg ht hb hj =>
    exact .cut (Guard.admits_asked.mpr hs) hg (by rw [ht]; rfl) (Guard.admits_asked.mpr hb)
      (hJ hj)
  | tooDeep hg hr => exact .tooDeep hg hr

/-- A premise one level further down. -/
theorem deeper {g₁ g₁' : Guard} {J K : Ending α} {t : List Event} {r : Except Error α}
    {w w' : World} (hg : g.Inside g₁) (hg' : g'.Inside g₁') (h : Shifts g₁ g₁' J t r w')
    (hJ : ∀ {t r w'}, J t r w' → K (.attempt 1 w :: t.map .deeper) r w') :
    Shifts g g' K (.attempt 1 w :: t.map .deeper) r w' := by
  cases h with
  | same hs ht hj => exact .same (hg.admits hs w) (hg'.admits ht w) (hJ hj)
  | @cut room limit b u w₁ hs he ht hb hj =>
    subst he
    cases hg' with
    | upTo =>
      have hk := hJ hj
      rw [List.map_append] at hk
      have hu : t.map Event.deeper =
          b.map Event.deeper ++ Event.attempt (room + 1 + 1) w₁ :: u.map Event.deeper := by
        rw [ht, List.map_append]
        rfl
      exact .cut (b := .attempt 1 w :: b.map .deeper) (hg.admits hs w) rfl (by rw [hu]; rfl)
        (Guard.Inside.upTo.admits hb w) hk
  | tooDeep he hr =>
    subst he
    cases hg with
    | upTo => exact .tooDeep rfl hr

/-- A premise one level further down, for which there is no room any more. -/
theorem full {g₁ : Guard} {J : Ending α} {K : Ending β} {t : List Event} {r : Except Error α}
    {r' : Except Error β} {w w' : World} {limit : Nat} (hg : g.Inside g₁)
    (h : Shifts g₁ .free J t r w') (hr : ∀ e, r = .error e → r' = .error e)
    (hK : K [.attempt 1 w] (.error (.tooDeep limit)) w) :
    Shifts g (.upTo 0 limit) K (.attempt 1 w :: t.map .deeper) r' w' := by
  cases h with
  | same hs ht hj => exact .cut (b := []) (hg.admits hs w) rfl rfl Guard.admits_nil hK
  | cut hs he => contradiction
  | tooDeep he hr' =>
    subst he
    cases hg with
    | upTo => exact .tooDeep rfl (hr _ hr')

end Shifts

mutual

theorem Evaluates.shifts {g : Guard} {w w' : World} {t : List Event} {form : Value}
    {frame : FrameId} {r : Except Error Value} (h : Evaluates g form frame w t r w')
    (g' : Guard) : Shifts g g' (Evaluates g' form frame w) t r w' := by
  match h with
  | .symbol => exact .nil .symbol
  | .constant hc => exact .nil (.constant hc)
  | .vector hs => exact (EvaluatesAll.shifts hs g').map .vector
  | .map hs => exact (EvaluatesAll.shifts hs g').map .map
  | .special hc hp => exact (Performs.shifts hp g').mono (.special hc)
  | .call hn hs hf =>
    exact (EvaluatesAll.shifts hs g').andThen (Calls.shifts hf g') (.call hn) (.callError hn)
  | .callError hn hs => exact (EvaluatesAll.shifts hs g').error (.callError hn)

theorem Enters.shifts {g : Guard} {w w' : World} {t : List Event} {form : Value}
    {frame : FrameId} {r : Except Error Value} (h : Enters g form frame w t r w')
    (g' : Guard) : Shifts g g' (Enters g' form frame w) t r w' := by
  match h, g' with
  | .free h, .free => exact (Evaluates.shifts h .free).deeper .free .free .free
  | .free h, .upTo 0 limit => exact (Evaluates.shifts h .free).full .free (fun _ h => h) .refused
  | .free h, .upTo (room + 1) limit =>
    exact (Evaluates.shifts h (.upTo room limit)).deeper .free .upTo .admitted
  | .admitted h, .free => exact (Evaluates.shifts h .free).deeper .upTo .free .free
  | .admitted h, .upTo 0 limit =>
    exact (Evaluates.shifts h .free).full .upTo (fun _ h => h) .refused
  | .admitted h, .upTo (room + 1) limit =>
    exact (Evaluates.shifts h (.upTo room limit)).deeper .upTo .upTo .admitted
  | .refused, g' => exact .tooDeep rfl rfl

theorem EvaluatesAll.shifts {g : Guard} {w w' : World} {t : List Event} {forms : List Value}
    {frame : FrameId} {rs : Except Error (List Value)}
    (h : EvaluatesAll g forms frame w t rs w') (g' : Guard) :
    Shifts g g' (EvaluatesAll g' forms frame w) t rs w' := by
  match h with
  | .nil => exact .nil .nil
  | @EvaluatesAll.cons _ form _ _ _ v w₁ forms _ _ _ h hs =>
    refine (Enters.shifts h g').andThen (K := fun t rs w => ∃ rs', rs = rs'.map (v :: ·) ∧
      EvaluatesAll g' forms frame w₁ t rs' w)
      ((EvaluatesAll.shifts hs g').map fun hj => ⟨_, rfl, hj⟩) ?_ .error
    rintro t₁ t₂ _ w₂ hj ⟨rs', rfl, hjs⟩
    exact .cons hj hjs
  | .error h => exact (Enters.shifts h g').error .error

theorem Performs.shifts {g : Guard} {w w' : World} {t : List Event} {c : Clause}
    {frame : FrameId} {r : Except Error Value} (h : Performs g c frame w t r w') (g' : Guard) :
    Shifts g g' (Performs g' c frame w) t r w' := by
  match h with
  | .define h => exact (Enters.shifts h g').last nofun .define .defineError
  | .defineError h => exact (Enters.shifts h g').error .defineError
  | .bind hb h => exact (Binds.shifts hb g').andThen (Evaluates.shifts h g') .bind .bindError
  | .bindError hb => exact (Binds.shifts hb g').error .bindError
  | .sequence hs h =>
    exact (EvaluatesAll.shifts hs g').andThen (Evaluates.shifts h g') .sequence .sequenceError
  | .sequenceError hs => exact (EvaluatesAll.shifts hs g').error .sequenceError
  | .branch hc h =>
    exact (Enters.shifts hc g').andThen (Evaluates.shifts h g') .branch .branchError
  | .branchError hc => exact (Enters.shifts hc g').error .branchError
  | .lambda => exact .nil .lambda
  | .quote => exact .nil .quote
  | .quasiquote h => exact (Evaluates.shifts h g').mono .quasiquote
  | .expand => exact .nil .expand
  | .malformed => exact .nil .malformed

theorem Binds.shifts {g : Guard} {w w' : World} {t : List Event}
    {bindings : List (Value × Value)} {frame : FrameId} {r : Except Error Unit}
    (h : Binds g bindings frame w t r w') (g' : Guard) :
    Shifts g g' (Binds g' bindings frame w) t r w' := by
  match h with
  | .nil => exact .nil .nil
  | .cons h hs => exact (Enters.shifts h g').andThen (Binds.shifts hs g') .cons .error
  | .error h => exact (Enters.shifts h g').error .error
  | .notSymbol hn => exact .nil (.notSymbol hn)

theorem Calls.shifts {g : Guard} {w w' : World} {t : List Event} {f : Value}
    {args : List Value} {r : Except Error Value} (h : Calls g f args w t r w') (g' : Guard) :
    Shifts g g' (Calls g' f args w) t r w' := by
  match h with
  | .closure he h => exact (Evaluates.shifts h g').mono (.closure he)
  | .arity he => exact .nil (.arity he)
  | .native h => exact (Invokes.shifts h g').mono .native
  | .notCallable hf => exact .nil (.notCallable hf)

theorem Applies.shifts {g : Guard} {w w' : World} {t : List Event} {f : Value}
    {args : List Value} {r : Except Error Value} (h : Applies g f args w t r w') (g' : Guard) :
    Shifts g g' (Applies g' f args w) t r w' := by
  match h with
  | .closure he h => exact (Enters.shifts h g').mono (.closure he)
  | .arity he => exact .nil (.arity he)
  | .native h => exact (Invokes.shifts h g').mono .native
  | .notCallable hf => exact .nil (.notCallable hf)

theorem Invokes.shifts {g : Guard} {w w' : World} {t : List Event} {f : Native}
    {args : List Value} {r : Except Error Value} (h : Invokes g f args w t r w') (g' : Guard) :
    Shifts g g' (Invokes g' f args w) t r w' := by
  match h with
  | .alone h => exact .nil (.alone h)
  | .evalIn h => exact (Enters.shifts h g').asked .evalIn
  | .swap h => exact (Applies.shifts h g').last nofun .swap .swapError
  | .swapError h => exact (Applies.shifts h g').error .swapError
  | .host hh h => exact (Plays.shifts h g').mono (.host hh)

theorem Plays.shifts {g : Guard} {w w' : World} {t : List Event} {reply : Reply}
    {r : Except Error Value} (h : Plays g reply w t r w') (g' : Guard) :
    Shifts g g' (Plays g' reply w) t r w' := by
  match h with
  | .give => exact .nil .give
  | .fail => exact .nil .fail
  | .call h hr => exact (Applies.shifts h g').andThen (Plays.shifts hr g') .call .callError
  | .callError h => exact (Applies.shifts h g').error .callError

end

end Lisplet
