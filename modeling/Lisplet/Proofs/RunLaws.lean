import Lisplet.Proofs.BigStep

/-! Laws of runs. Runs in sequence obey the monad laws, a run of a sequence that has ended
comes apart into runs of its parts, and the functions of the language do not look at how
deeply evaluations are nested. -/

namespace Lisplet

namespace Run

theorem bind_apply (r : Run α) (f : α → Run β) (m : Machine) :
    (r >>= f) m =
      match r m with
      | .value a m => f a m
      | .error e m => .error e m
      | .halted h => .halted h := rfl

instance : LawfulMonad Run :=
  LawfulMonad.mk' Run
    (by
      intro α r
      funext m
      change (r >>= fun a => pure a) m = r m
      rw [bind_apply]
      cases r m <;> rfl)
    (by intros; rfl)
    (by
      intro α β γ r f g
      funext m
      simp only [bind_apply]
      cases r m <;> rfl)

/-- A sequence that has ended went on after the value of its first part, or ended there. -/
theorem of_bind {r : Run α} {f : α → Run β} {m m' : Machine} {res : Except Error β}
    (h : (r >>= f) m = .of res m') :
    (∃ a m₁, r m = .of (.ok a) m₁ ∧ f a m₁ = .of res m') ∨
      ∃ e, r m = .of (.error e) m' ∧ res = .error e := by
  rw [bind_apply] at h
  cases hr : r m with
  | value a m₁ =>
    rw [hr] at h
    exact .inl ⟨a, m₁, rfl, h⟩
  | error e m₁ =>
    rw [hr] at h
    cases res with
    | ok b => contradiction
    | error e' =>
      cases h
      exact .inr ⟨e, rfl, rfl⟩
  | halted s =>
    rw [hr] at h
    cases res <;> contradiction

theorem bind_of_ok {r : Run α} {f : α → Run β} {m m₁ : Machine} {a : α}
    (h : r m = .of (.ok a) m₁) : (r >>= f) m = f a m₁ := by
  rw [bind_apply, h]
  rfl

theorem bind_of_error {r : Run α} {f : α → Run β} {m m₁ : Machine} {e : Error}
    (h : r m = .of (.error e) m₁) : (r >>= f) m = .of (.error e) m₁ := by
  rw [bind_apply, h]
  rfl

theorem map_of {r : Run α} {f : α → β} {m m₁ : Machine} {res : Except Error α}
    (h : r m = .of res m₁) : (f <$> r) m = .of (res.map f) m₁ := by
  rw [← bind_pure_comp, bind_apply, h]
  cases res <;> rfl

theorem attempt_of {r : Run α} {m m₁ : Machine} {res : Except Error α} (h : r m = .of res m₁) :
    r.attempt m = .of (.ok res) m₁ := by
  rw [attempt, h]
  cases res <;> rfl

theorem withLimit_of {r : Run α} {m m₁ : Machine} {limit : Nat} {res : Except Error α}
    (h : r { m with limit := limit } = .of res m₁) :
    r.withLimit limit m = .of res { m₁ with limit := m.limit } := by
  rw [withLimit, h]
  cases res <;> rfl

theorem lookup_apply (frame : FrameId) (name : String) (w : World) (n l : Nat) :
    Run.lookup frame name ⟨w, n, l⟩ = .of (w.lookup frame name) ⟨w, n, l⟩ := by
  rw [Run.lookup, World.lookup]
  cases w.frames.get? frame name <;> rfl

theorem child_bind (frame : FrameId) (run : FrameId → Run α) (w : World) (n l : Nat) :
    (Run.child frame >>= run) ⟨w, n, l⟩ = run w.frames.next ⟨w.withChild frame, n, l⟩ := rfl

end Run

namespace World

variable {w w₁ : World} {p : Params} {args : List Value} {frame : FrameId}

/-- A call is entered with a new frame that has the bindings of the parameters. -/
theorem entered_eq_ok_iff :
    w.entered p args frame = .ok w₁ ↔ ∃ news, p.assign args = .ok news ∧
      w₁ = w.withFrame ⟨some frame, Bindings.insertAll news ∅⟩ := by
  rw [entered]
  cases p.assign args <;> simp [eq_comm]

theorem entered_eq_error_iff {e : Error} :
    w.entered p args frame = .error e ↔ p.assign args = .error e := by
  rw [entered]
  cases p.assign args <;> simp

end World

namespace Run

theorem enter_of_ok {p : Params} {args : List Value} {frame : FrameId} {w w₁ : World} {n l : Nat}
    (h : w.entered p args frame = .ok w₁) :
    Run.enter p args frame ⟨w, n, l⟩ = .of (.ok w.frames.next) ⟨w₁, n, l⟩ := by
  obtain ⟨news, ha, rfl⟩ := World.entered_eq_ok_iff.mp h
  rw [Run.enter, ha]
  rfl

theorem enter_of_error {p : Params} {args : List Value} {frame : FrameId} {w : World} {e : Error}
    {n l : Nat} (h : w.entered p args frame = .error e) :
    Run.enter p args frame ⟨w, n, l⟩ = .of (.error e) ⟨w, n, l⟩ := by
  rw [Run.enter, World.entered_eq_error_iff.mp h]
  rfl

end Run

theorem Outcome.of_inj {r s : Except Error α} {m m' : Machine}
    (h : Outcome.of r m = Outcome.of s m') : r = s ∧ m = m' := by
  cases r <;> cases s <;> cases h <;> exact ⟨rfl, rfl⟩

/-- Only `swap!` applies a function. -/
theorem AtomOp.run_eq_of_ne_swap {op : AtomOp} (hop : op ≠ .swap)
    (apply apply' : Value → List Value → Run Value) (args : List Value) :
    op.run apply args = op.run apply' args := by
  cases op with
  | swap => contradiction
  | new | deref | reset => rcases args with _ | ⟨v, _ | ⟨x, _ | ⟨y, rest⟩⟩⟩ <;> rfl

/-! ## Runs that evaluate nothing -/

namespace Run

/-- The run ends in the same way at every depth, under every limit and whatever the frames are;
it changes none of these. -/
def Blind (run : Run α) : Prop :=
  ∀ ⦃w n l r m'⦄, run ⟨w, n, l⟩ = .of r m' →
    ∃ w', m' = ⟨w', n, l⟩ ∧ w'.frames = w.frames ∧
      ∀ n' l' fs, run ⟨{ w with frames := fs }, n', l'⟩ = .of r ⟨{ w' with frames := fs }, n', l'⟩

namespace Blind

/-- The same run at another depth or under another limit. -/
theorem ends {run : Run α} {w : World} {n l : Nat} {r : Except Error α} {m' : Machine}
    (hrun : Blind run) (h : run ⟨w, n, l⟩ = .of r m') :
    ∃ w', m' = ⟨w', n, l⟩ ∧ w'.frames = w.frames ∧
      ∀ n' l', run ⟨w, n', l'⟩ = .of r ⟨w', n', l'⟩ := by
  obtain ⟨w', hm, hf, hw⟩ := hrun h
  refine ⟨w', hm, hf, fun n' l' => ?_⟩
  have hsame : { w' with frames := w.frames } = w' := by rw [← hf]
  rw [← hsame]
  exact hw n' l' w.frames

theorem see {f : World → α} (hf : ∀ w fs, f { w with frames := fs } = f w) :
    Blind (Run.see f) := by
  intro w n l r m' h
  cases r with
  | error e => contradiction
  | ok a =>
    cases h
    exact ⟨w, rfl, rfl, fun n' l' fs => congrArg (Outcome.value · _) (hf w fs)⟩

theorem pure (a : α) : Blind (Pure.pure a) := see (f := fun _ => a) fun _ _ => rfl

theorem change {f : World → World}
    (hf : ∀ w fs, f { w with frames := fs } = { f w with frames := fs }) :
    Blind (Run.change f) := by
  intro w n l r m' h
  cases r with
  | error e => contradiction
  | ok a =>
    cases h
    refine ⟨f w, rfl, ?_, fun n' l' fs => ?_⟩
    · have hsame := congrArg World.frames (hf w w.frames)
      exact hsame
    · exact congrArg (fun w' => Outcome.value () ⟨w', n', l'⟩) (hf w fs)

theorem fail (e : Error) : Blind (Run.fail e : Run α) := by
  intro w n l r m' h
  cases r with
  | ok a => contradiction
  | error e =>
    cases h
    exact ⟨w, rfl, rfl, fun _ _ _ => rfl⟩

theorem halt (s : Halt) : Blind (Run.halt s : Run α) := by
  intro w n l r m' h
  cases r <;> contradiction

theorem ofExcept (x : Except Error α) : Blind (Run.ofExcept x) := by
  cases x with
  | ok a => exact pure a
  | error e => exact fail e

theorem bind {run : Run α} {f : α → Run β} (hr : Blind run) (hf : ∀ a, Blind (f a)) :
    Blind (run >>= f) := by
  intro w n l r m' h
  rcases of_bind h with ⟨a, m₁, h₁, h₂⟩ | ⟨e, h₁, rfl⟩
  · obtain ⟨w₁, rfl, he₁, hw₁⟩ := hr h₁
    obtain ⟨w₂, rfl, he₂, hw₂⟩ := hf a h₂
    exact ⟨w₂, rfl, he₂.trans he₁, fun n' l' fs => by
      rw [bind_of_ok (hw₁ n' l' fs), hw₂ n' l' fs]⟩
  · obtain ⟨w₁, rfl, he₁, hw₁⟩ := hr h₁
    exact ⟨w₁, rfl, he₁, fun n' l' fs => bind_of_error (hw₁ n' l' fs)⟩

theorem readFile (context path : String) : Blind (Run.readFile context path) := by
  refine bind (see fun _ _ => rfl) fun found => ?_
  split
  · exact pure _
  · exact fail _
  · exact halt _

theorem print (s : String) : Blind (Run.print s) := change fun _ _ => rfl

theorem textOp (op : TextOp) (args : List Value) : Blind (op.run args) := by
  unfold TextOp.run
  split
  any_goals exact pure _
  · exact bind (see fun _ _ => rfl) fun _ => pure _
  · exact bind (see fun _ _ => rfl) fun _ => pure _
  · exact bind (see fun _ _ => rfl) fun _ => bind (print _) fun _ => pure _
  · exact bind (see fun _ _ => rfl) fun _ => bind (print _) fun _ => pure _
  · split
    · exact pure _
    · exact fail _
  · exact bind (readFile ..) fun _ => pure _
  · exact fail _

theorem newAtom (v : Value) : Blind (Run.newAtom v) :=
  bind (see fun _ _ => rfl) fun _ => bind (change fun _ _ => rfl) fun _ => pure _

theorem writeAtom (i : AtomId) (v : Value) : Blind (Run.writeAtom i v) :=
  bind (change fun _ _ => rfl) fun _ => pure _

theorem atomOp {apply : Value → List Value → Run Value} (ha : ∀ f args, Blind (apply f args))
    (op : AtomOp) (args : List Value) : Blind (op.run apply args) := by
  unfold AtomOp.run
  split
  any_goals exact fail _
  · exact newAtom _
  · exact bind (ofExcept _) fun _ => see fun _ _ => rfl
  · exact bind (ofExcept _) fun _ => writeAtom _ _
  · exact bind (ofExcept _) fun _ => bind (see fun _ _ => rfl) fun _ =>
      bind (ha _ _) fun _ => writeAtom _ _

theorem hostReply (index : Nat) (args : List Value) : Blind (Run.hostReply index args) := by
  intro w n l r m' h
  simp only [Run.hostReply] at h ⊢
  cases hh : w.hosts[index]? with
  | some f =>
    rw [hh] at h
    obtain ⟨rfl, rfl⟩ := Outcome.of_inj (r := .ok (f.run args)) h
    exact ⟨w, rfl, rfl, fun _ _ _ => rfl⟩
  | none =>
    rw [hh] at h
    obtain ⟨rfl, rfl⟩ := Outcome.of_inj (r := .error _) h
    exact ⟨w, rfl, rfl, fun _ _ _ => rfl⟩

theorem play {apply : Value → List Value → Run Value} (ha : ∀ f args, Blind (apply f args))
    (reply : Reply) : Blind (reply.play apply) := by
  induction reply with
  | give v => exact pure v
  | fail e => exact fail e
  | call f args resume ih => exact bind (ha f args) ih

/-- Where nothing can be evaluated or applied all functions are blind. -/
theorem alone (f : Native) (args : List Value) : Blind (f.alone args) := by
  have happly (f : Value) (args : List Value) :
      Blind ((fun _ _ => Run.halt .outOfFuel : Value → List Value → Run Value) f args) := halt _
  unfold Native.alone Native.run
  split
  · next b =>
    cases b with
    | atom op => exact atomOp happly op args
    | text op => exact textOp op args
    | arithmetic op => exact ofExcept (op.run args)
    | equal => exact ofExcept (allEqual args)
    | relation r => exact ofExcept (r.run args)
    | sequence op => exact ofExcept (op.run args)
    | kind t => exact ofExcept (t.run args)
  · exact halt _
  · exact fail _
  · exact bind (hostReply _ _) (play happly)

end Blind

end Run

end Lisplet
