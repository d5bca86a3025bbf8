import Lisplet.Proofs.Application
import Lisplet.Proofs.BigStep.Atoms

/-! Swapping. `swap!` reads an atom, applies a function to what it held and to further arguments,
and puts the value in. The function may do anything in between, with this atom too, but what the
atom holds at the end is the value; and if there is none, because something failed, then nothing
has been put in. So calls of `swap!` add up: an atom holds what the calls that succeeded make of
what it held at first, one after the other, if nothing else has written it. -/

namespace Lisplet

/-- The function `swap!`. -/
def swapFunction : Value := .native (.builtin (.atom .swap))

/-- The value is put into an atom if there is one. -/
def World.settled (w : World) (i : AtomId) : Except Error Value → World
  | .ok v => w.setCell i v
  | .error _ => w

/-- A function that `swap!` is given, with the arguments after the first one, and what the machine
is when it is called. -/
structure SwapCall where
  f : Value
  args : List Value
  machine : Machine

/-- What the function makes of a value, given so much fuel. -/
def SwapCall.next (fuel : Nat) (c : SwapCall) (v : Value) : Value :=
  match apply fuel c.f (v :: c.args) c.machine with
  | .value v' _ => v'
  | _ => v

/-- Calls of `swap!` on an atom, and evaluations in between, one after the other, each at a depth
and under a limit of its own. The calls that succeed are listed. The functions of those that fail
have not written the atom, and neither have the evaluations. -/
inductive Swaps (i : AtomId) : World → List SwapCall → World → Prop where
  | nil : Swaps i w [] w
  | succeeded (h : Yields swapFunction (.atom i :: f :: args) ⟨w, d, l⟩ (.ok v) w₁)
    (hs : Swaps i w₁ calls w') : Swaps i w (⟨f, args, ⟨w, d, l⟩⟩ :: calls) w'
  | failed (h : Yields swapFunction (.atom i :: f :: args) ⟨w, d, l⟩ (.error e) w₁)
    (hn : ¬ Overwrites i (.at d l) (.apply f (w.cell i :: args)) w) (hs : Swaps i w₁ calls w') :
    Swaps i w calls w'
  | between (h : Settles form frame ⟨w, d, l⟩ r w₁)
    (hn : ¬ Overwrites i (.at d l) (.enter form frame) w) (hs : Swaps i w₁ calls w') :
    Swaps i w calls w'

section

variable {f : Value} {args : List Value} {w w' : World} {t : List Event} {g : Guard}
  {r : Except Error Value} {i : AtomId} {m : Machine} {v : Value}

/-! ## One call -/

theorem AtomOp.run_swap (apply : Value → List Value → Run Value) (i : AtomId) (f : Value)
    (args : List Value) (m : Machine) :
    AtomOp.swap.run apply (.atom i :: f :: args) m =
      match apply f (m.world.cell i :: args) m with
      | .value v m' => .value v { m' with world := m'.world.setCell i v }
      | .error e m' => .error e m'
      | .halted h => .halted h := by
  change (apply f (m.world.cell i :: args) >>= Run.writeAtom i) m = _
  rw [Run.bind_apply]
  cases apply f (m.world.cell i :: args) m <;> rfl

theorem invokes_swap_iff :
    Invokes g (.builtin (.atom .swap)) (.atom i :: f :: args) w t r w' ↔
      ∃ w₁, Applies g f (w.cell i :: args) w t r w₁ ∧ w' = w₁.settled i r := by
  constructor
  · intro h
    cases h with
    | alone h =>
      have hhalted := h 0 0
      cases r <;> contradiction
    | swap h => exact ⟨_, h, rfl⟩
    | swapError h => exact ⟨_, h, rfl⟩
  · rintro ⟨w₁, h, rfl⟩
    cases r with
    | ok v => exact .swap h
    | error e => exact .swapError h

theorem yields_swap_iff :
    Yields swapFunction (.atom i :: f :: args) m r w' ↔
      ∃ w₁, Yields f (m.world.cell i :: args) m r w₁ ∧ w' = w₁.settled i r := by
  obtain ⟨w, d, l⟩ := m
  simp only [yields_iff_applies]
  constructor
  · rintro ⟨t, h⟩
    cases h with
    | native h =>
      obtain ⟨w₁, h, hw⟩ := invokes_swap_iff.mp h
      exact ⟨w₁, ⟨t, h⟩, hw⟩
    | notCallable hf => contradiction
  · rintro ⟨w₁, ⟨t, h⟩, hw⟩
    exact ⟨t, .native (invokes_swap_iff.mpr ⟨w₁, h, hw⟩)⟩

theorem Yields.atomsKept (h : Yields f args m r w') :
    m.world.AtomsKept (Overwrites · (.at m.depth m.limit) (.apply f args) m.world) w' := by
  obtain ⟨t, h⟩ := yields_iff_applies.mp h
  exact h.keepsAtoms

theorem Settles.atomsKept {form : Value} {frame : FrameId} (h : Settles form frame m r w') :
    m.world.AtomsKept (Overwrites · (.at m.depth m.limit) (.enter form frame) m.world) w' := by
  obtain ⟨t, h⟩ := settles_iff_enters.mp h
  exact h.keepsAtoms

theorem Yields.eventually (h : Yields f args m r w') :
    ∃ k, ∀ fuel, k ≤ fuel → apply fuel f args m = .of r { m with world := w' } := by
  obtain ⟨t, h⟩ := yields_iff_applies.mp h
  obtain ⟨k, hk⟩ := h.settles rfl
  exact ⟨k, fun fuel hf => hk fuel fuel fuel hf hf hf⟩

theorem World.cell_setCell (hi : i < w.atoms.size) (v : Value) : (w.setCell i v).cell i = v := by
  rw [cell, setCell, Array.getElem?_modify, if_pos rfl, Array.getElem?_eq_getElem hi]
  rfl

/-- Whatever the function has done to the atom, it holds the value at the end. -/
theorem Yields.cell_swap (h : Yields swapFunction (.atom i :: f :: args) m (.ok v) w')
    (hi : i < m.world.atoms.size) : w'.cell i = v := by
  obtain ⟨w₁, hf, rfl⟩ := yields_swap_iff.mp h
  exact World.cell_setCell (hf.atomsKept.size_le hi) v

/-- What the atom holds after a call that fails is what the function has left in it. -/
theorem Yields.cell_swap_error {e : Error}
    (h : Yields swapFunction (.atom i :: f :: args) m (.error e) w') (hi : i < m.world.atoms.size)
    (hn : ¬ Overwrites i (.at m.depth m.limit) (.apply f (m.world.cell i :: args)) m.world) :
    w'.cell i = m.world.cell i := by
  obtain ⟨w₁, hf, rfl⟩ := yields_swap_iff.mp h
  exact hf.atomsKept.cell_eq hi hn

/-! ## Many calls -/

theorem SwapCall.next_eq {k fuel : Nat} {c : SwapCall} {w₁ : World}
    (hk : ∀ fuel, k ≤ fuel →
      apply fuel c.f (v :: c.args) c.machine = .of r { c.machine with world := w₁ })
    (hf : k ≤ fuel) : c.next fuel v = r.toOption.getD v := by
  rw [next, hk fuel hf]
  cases r <;> rfl

theorem Swaps.eventually_foldl {calls : List SwapCall} (h : Swaps i w calls w')
    (hi : i < w.atoms.size) :
    ∃ k, ∀ fuel, k ≤ fuel → w'.cell i = calls.foldl (fun v c => c.next fuel v) (w.cell i) := by
  induction h with
  | nil => exact ⟨0, fun _ _ => rfl⟩
  | succeeded h hs ih =>
    obtain ⟨w₁, hf, -⟩ := yields_swap_iff.mp h
    obtain ⟨k, hk⟩ := hf.eventually
    obtain ⟨k', hk'⟩ := ih (h.atomsKept.size_le hi)
    refine ⟨max k k', fun fuel hfuel => ?_⟩
    rw [hk' fuel (Nat.le_trans (Nat.le_max_right ..) hfuel), List.foldl_cons, h.cell_swap hi,
      SwapCall.next_eq hk (Nat.le_trans (Nat.le_max_left ..) hfuel)]
    rfl
  | failed h hn hs ih =>
    have hkept := h.cell_swap_error hi hn
    rw [← hkept]
    exact ih (h.atomsKept.size_le hi)
  | between h hn hs ih =>
    have hkept := h.atomsKept.cell_eq hi hn
    rw [← hkept]
    exact ih (h.atomsKept.size_le hi)

end

/-- **`swap!` neither loses nor halves an update.** However functions are applied, `swap!` has its
function applied once, to what the atom holds at that moment and to the further arguments. A value
that comes of it is the value of `swap!`, and is put into the atom in the world that the function
has left; an error is the error of `swap!`, and the world is the one that the function has left.
For an atom that is there this means: after a call that succeeds it holds the value, whatever the
function has done to it; an evaluation that does not write it does not change it; and after calls
of which some fail, with such evaluations in between, it holds what the calls that succeed make,
from left to right, of what it held at first. -/
theorem swap_adds_up (i : AtomId) :
    (∀ apply f args m, AtomOp.swap.run apply (.atom i :: f :: args) m =
      match apply f (m.world.cell i :: args) m with
      | .value v m' => .value v { m' with world := m'.world.setCell i v }
      | .error e m' => .error e m'
      | .halted h => .halted h) ∧
    (∀ f args m r w', Yields swapFunction (.atom i :: f :: args) m r w' ↔
      ∃ w₁, Yields f (m.world.cell i :: args) m r w₁ ∧ w' = w₁.settled i r) ∧
    ∀ w : World, i < w.atoms.size →
      (∀ f args d l v w', Yields swapFunction (.atom i :: f :: args) ⟨w, d, l⟩ (.ok v) w' →
        w'.cell i = v) ∧
      (∀ form frame d l r w', Settles form frame ⟨w, d, l⟩ r w' →
        ¬ Overwrites i (.at d l) (.enter form frame) w → w'.cell i = w.cell i) ∧
      ∀ calls w', Swaps i w calls w' → ∃ k, ∀ fuel, k ≤ fuel →
        w'.cell i = calls.foldl (fun v c => c.next fuel v) (w.cell i) := by
  refine ⟨fun apply f args m => AtomOp.run_swap apply i f args m, fun f args m r w' =>
    yields_swap_iff, fun w hi => ⟨fun f args d l v w' h => h.cell_swap hi,
      fun form frame d l r w' h hn => h.atomsKept.cell_eq hi hn, fun calls w' h => ?_⟩⟩
  exact h.eventually_foldl hi

/-- Two calls that succeed, one with a function that is none, and an evaluation in between. -/
theorem swap_adds_up_failures :
    let plus := Value.native (.builtin (.arithmetic .add))
    let start : World := { (default : World) with atoms := #[.int 1] }
    let middle := start.setCell 0 (.int 6)
    ∃ w', Swaps 0 start [⟨plus, [.int 5], ⟨start, 0, 9⟩⟩, ⟨plus, [.int 2], ⟨middle, 3, 9⟩⟩] w' ∧
      w'.cell 0 = .int 8 := by
  intro plus start middle
  have hfails : Yields swapFunction [.atom 0, .int 7] ⟨middle, 2, 9⟩
      (.error (.notCallable (.int 7))) middle := ⟨2, rfl⟩
  have hnone : ¬ Overwrites 0 (.at 2 9) (.apply (.int 7) [middle.cell 0]) middle := by
    intro h
    cases h with
    | within hb h => nomatch hb
  have hstands : Settles (.str "a") 0 ⟨middle, 1, 9⟩ (.ok (.str "a")) middle := ⟨2, rfl⟩
  have hquiet : ¬ Overwrites 0 (.at 1 9) (.enter (.str "a") 0) middle := by
    intro h
    cases h with
    | within hb h =>
      cases hb
      cases h with
      | within hb h =>
        cases hb with
        | special hc => nomatch hc
  have h : Swaps 0 start [⟨plus, [.int 5], ⟨start, 0, 9⟩⟩, ⟨plus, [.int 2], ⟨middle, 3, 9⟩⟩]
      (middle.setCell 0 (.int 8)) := by
    refine .succeeded (v := .int 6) ⟨2, rfl⟩ (.failed hfails hnone (.between hstands hquiet ?_))
    exact .succeeded (v := .int 8) ⟨2, rfl⟩ .nil
  obtain ⟨k, hk⟩ := ((swap_adds_up 0).2.2 start (by decide)).2.2 _ _ h
  exact ⟨_, h, (hk (k + 2) (by omega)).trans rfl⟩

end Lisplet
