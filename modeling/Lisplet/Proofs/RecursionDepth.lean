import Lisplet.Proofs.ExactArithmetic
import Lisplet.Proofs.Levels
import Lisplet.Proofs.NewRoot
import Mathlib.Tactic.Ring

/-! How deep recursion goes. A function that adds up numbers calls itself in an argument, so each
number takes one level more. A function that counts down calls itself in tail position, so it takes
the levels of its condition however often it does. -/

namespace Lisplet

open Template (call)

namespace Recursion

/-! ## The two functions -/

def isZero : Value := call Builtin.equal.name [.symbol "n", .int 0]

def predecessor : Value := call Arithmetic.sub.name [.symbol "n", .int 1]

/-- The body of `sum`: `(if (= n 0) 0 (+ n (sum (- n 1))))`. -/
def sumBody : Value :=
  call SpecialForm.branch.name
    [isZero, .int 0, call Arithmetic.add.name [.symbol "n", call "sum" [predecessor]]]

/-- The body of `count-down`: `(if (= n 0) :done (count-down (- n 1)))`. -/
def countDownBody : Value :=
  call SpecialForm.branch.name [isZero, .keyword "done", call "count-down" [predecessor]]

def definitions : List Value :=
  [Prelude.defineUnary "sum" "n" sumBody, Prelude.defineUnary "count-down" "n" countDownBody]

/-- The sum of the numbers up to `n`. -/
def sumTo (n : Nat) : Int := n * (n + 1) / 2

theorem sumTo_succ (n : Nat) : sumTo (n + 1) = n + 1 + sumTo n := by
  have h : ((n + 1 : Nat) : Int) * ((n + 1 : Nat) + 1) = n * (n + 1) + 2 * (n + 1) := by
    push_cast
    ring
  rw [sumTo, sumTo, h, Int.add_mul_ediv_left _ _ (by decide), Int.add_comm]

theorem sumTo_nonneg (n : Nat) : 0 ≤ sumTo n := by
  rw [sumTo]
  have h : 0 ≤ (n : Int) * (n + 1) := Int.mul_nonneg (by omega) (by omega)
  omega

/-! ## Arithmetic -/

section

variable {m n k : Int64}

theorem run_add (h : k.toInt = m.toInt + n.toInt) :
    Arithmetic.add.run [.int m, .int n] = .ok (.int k) := by
  have hm : Arithmetic.add.step 0 m = .ok m :=
    Arithmetic.step_eq_ok_iff.mpr ⟨nofun, (Int.zero_add _).symm⟩
  have hn : Arithmetic.add.step m n = .ok k := Arithmetic.step_eq_ok_iff.mpr ⟨nofun, h⟩
  simp only [Arithmetic.run, Arithmetic.fold, Argument.int]
  change Value.int <$> (Arithmetic.add.step 0 m >>= fun acc =>
    Arithmetic.add.step acc n >>= Except.ok) = _
  rw [hm]
  change Value.int <$> (Arithmetic.add.step m n >>= Except.ok) = _
  rw [hn]
  rfl

theorem run_sub (h : k.toInt = m.toInt - n.toInt) :
    Arithmetic.sub.run [.int m, .int n] = .ok (.int k) := by
  have hn : Arithmetic.sub.step m n = .ok k := Arithmetic.step_eq_ok_iff.mpr ⟨nofun, h⟩
  change Value.int <$> (Arithmetic.sub.step m n >>= Except.ok) = _
  rw [hn]
  rfl

end

/-! ## What they are evaluated in -/

/-- The world with a frame for a number. -/
def numbered (w : World) (root : FrameId) (n : Int64) : World :=
  w.withFrame ⟨some root, Bindings.insertAll [("n", .int n)] ∅⟩

/-- From the frame the two functions and those that they call go by their names. -/
structure Known (w : World) (root : FrameId) : Prop where
  equal : w.lookup root Builtin.equal.name = .ok (.native (.builtin .equal))
  arithmetic : ∀ op : Arithmetic, w.lookup root op.name = .ok (.native (.builtin (.arithmetic op)))
  sum : ∃ i, w.lookup root "sum" = .ok (.closure i ⟨["n"], none⟩ sumBody root)
  countDown : ∃ i, w.lookup root "count-down" = .ok (.closure i ⟨["n"], none⟩ countDownBody root)

section

variable {w : World} {root : FrameId} {n : Int64} {name : String} {v : Value}

theorem Known.inner (h : Known w root) (n : Int64) : Known (numbered w root n) root where
  equal := World.lookup_withFrame _ h.equal
  arithmetic op := World.lookup_withFrame _ (h.arithmetic op)
  sum := h.sum.imp fun _ => World.lookup_withFrame _
  countDown := h.countDown.imp fun _ => World.lookup_withFrame _

theorem lookup_numbered (hn : "n" ≠ name) (h : w.lookup root name = .ok v) :
    (numbered w root n).lookup w.frames.next name = .ok v :=
  World.lookup_withFrame_outer (by simp [Bindings.insertAll, hn]) h

theorem Known.lookup_number (h : Known w root) (n : Int64) :
    (numbered w root n).lookup w.frames.next "n" = .ok (.int n) :=
  World.lookup_withFrame_own (Frames.lt_next_of_get? (World.lookup_eq_ok_iff.mp h.equal))
    (by simp [Bindings.insertAll])

theorem entered_numbered :
    w.entered ⟨["n"], none⟩ [.int n] root = .ok (numbered w root n) := rfl

/-! ## Levels -/

theorem alone_equal (m n : Int64) (depth limit : Nat) :
    (Native.builtin .equal).alone [.int m, .int n] ⟨w, depth, limit⟩ =
      .of (.ok (.bool (m == n))) ⟨w, depth, limit⟩ := by
  change Outcome.value (Value.bool (m == n && true)) _ = _
  rw [Bool.and_true]
  rfl

theorem alone_arithmetic {op : Arithmetic} {m n k : Int64}
    (h : op.run [.int m, .int n] = .ok (.int k)) (depth limit : Nat) :
    (Native.builtin (.arithmetic op)).alone [.int m, .int n] ⟨w, depth, limit⟩ =
      .of (.ok (.int k)) ⟨w, depth, limit⟩ := by
  change Run.ofExcept (op.run [.int m, .int n]) _ = _
  rw [h]
  rfl

theorem Known.descends_isZero (h : Known w root) (n : Int64) :
    Descends 2 isZero w.frames.next (numbered w root n) (.ok (.bool (n == 0)))
      (numbered w root n) := by
  have hargs := AllDescend.pair (.symbol (h.lookup_number n)) (.constant (.int 0) rfl)
  have hf := lookup_numbered (n := n) (by decide) h.equal
  exact .builtin hf hargs fun depth limit => alone_equal n 0 depth limit

theorem Known.descends_predecessor (h : Known w root) {k : Nat} (hn : n.toInt = k + 1) :
    ∃ m : Int64, m.toInt = k ∧
      Descends 2 predecessor w.frames.next (numbered w root n) (.ok (.int m))
        (numbered w root n) := by
  have hk : Word.Fits k := by
    have hfits := Word.fits_toInt n
    have hmin : Int64.minValue.toInt ≤ 0 := by decide
    unfold Word.Fits at hfits ⊢
    omega
  refine ⟨Int64.ofInt k, Word.toInt_ofInt hk, ?_⟩
  have hrun : Arithmetic.sub.run [.int n, .int 1] = .ok (.int (Int64.ofInt k)) := by
    refine run_sub ?_
    rw [Word.toInt_ofInt hk, hn]
    change (k : Int) = k + 1 - 1
    omega
  have hargs := AllDescend.pair (.symbol (h.lookup_number n)) (.constant (.int 1) rfl)
  have hf := lookup_numbered (n := n) (by decide) (h.arithmetic .sub)
  exact .builtin (b := .arithmetic .sub) hf hargs (alone_arithmetic hrun)

theorem beq_zero_of_toInt {k : Nat} (hn : n.toInt = k) : (n == 0) = (k == 0) := by
  rw [Bool.eq_iff_iff, beq_iff_eq, beq_iff_eq, ← Int64.toInt_inj, hn]
  change (k : Int) = 0 ↔ _
  omega

/-- A number takes one level more than the number before it. -/
theorem Known.descends_sumBody (h : Known w root) {k : Nat} (hn : n.toInt = k)
    (hk : Word.Fits (sumTo k)) :
    ∃ w', Descends (k + 3) sumBody w.frames.next (numbered w root n)
      (.ok (.int (Int64.ofInt (sumTo k)))) w' := by
  have hclause := Template.clause?_special .branch
    [isZero, .int 0, call Arithmetic.add.name [.symbol "n", call "sum" [predecessor]]]
  have hzero := h.descends_isZero n
  rw [beq_zero_of_toInt hn] at hzero
  induction k generalizing w n with
  | zero => exact ⟨_, .branch hclause hzero (.constant _ rfl)⟩
  | succ k ih =>
    obtain ⟨m, hm, hpred⟩ := h.descends_predecessor hn
    obtain ⟨i, hsum⟩ := h.sum
    have hfits : Word.Fits (sumTo k) := by
      have hmin : Int64.minValue.toInt ≤ 0 := by decide
      have hnonneg := sumTo_nonneg k
      rw [sumTo_succ] at hk
      unfold Word.Fits at hk ⊢
      omega
    have hinner := h.inner n
    obtain ⟨w', hbody⟩ := ih hinner hm hfits (beq_zero_of_toInt hm ▸ hinner.descends_isZero m)
    have hcall := Descends.closure rfl (lookup_numbered (n := n) (by decide) hsum)
      (.cons hpred .nil) entered_numbered hbody
    have hrun : Arithmetic.add.run [.int n, .int (Int64.ofInt (sumTo k))] =
        .ok (.int (Int64.ofInt (sumTo (k + 1)))) := by
      refine run_add ?_
      rw [Word.toInt_ofInt hk, Word.toInt_ofInt hfits, hn, sumTo_succ]
      rfl
    have hadd := Descends.builtin (b := .arithmetic .add)
      (lookup_numbered (n := n) (by decide) (h.arithmetic .add))
      (.pair (.symbol (h.lookup_number n)) hcall) (alone_arithmetic hrun)
    exact ⟨w', (Descends.branch hclause hzero hadd).of_eq (by omega)⟩

/-- However far it is counted down, it takes no more levels than the last call. -/
theorem Known.descends_countDownBody (h : Known w root) {k : Nat} (hn : n.toInt = k) :
    ∃ w', Descends 3 countDownBody w.frames.next (numbered w root n) (.ok (.keyword "done"))
      w' := by
  have hclause := Template.clause?_special .branch
    [isZero, .keyword "done", call "count-down" [predecessor]]
  have hzero := h.descends_isZero n
  rw [beq_zero_of_toInt hn] at hzero
  induction k generalizing w n with
  | zero => exact ⟨_, .branch hclause hzero (.constant _ rfl)⟩
  | succ k ih =>
    obtain ⟨m, hm, hpred⟩ := h.descends_predecessor hn
    obtain ⟨i, hcount⟩ := h.countDown
    have hinner := h.inner n
    obtain ⟨w', hbody⟩ := ih hinner hm (beq_zero_of_toInt hm ▸ hinner.descends_isZero m)
    have hcall := Descends.closure rfl (lookup_numbered (n := n) (by decide) hcount)
      (.cons hpred .nil) entered_numbered hbody
    exact ⟨w', (Descends.branch hclause hzero hcall).of_eq (by omega)⟩

theorem Known.descends_sum (h : Known w root) {k : Nat} (hn : n.toInt = k)
    (hk : Word.Fits (sumTo k)) :
    ∃ w', Descends (k + 3) (call "sum" [.int n]) root w (.ok (.int (Int64.ofInt (sumTo k))))
      w' := by
  obtain ⟨i, hsum⟩ := h.sum
  obtain ⟨w', hbody⟩ := h.descends_sumBody hn hk
  have hcall := Descends.closure rfl hsum (.cons (.constant (.int n) rfl) .nil)
    entered_numbered hbody
  exact ⟨w', hcall.of_eq (by omega)⟩

theorem Known.descends_countDown (h : Known w root) {k : Nat} (hn : n.toInt = k) :
    ∃ w', Descends 3 (call "count-down" [.int n]) root w (.ok (.keyword "done")) w' := by
  obtain ⟨i, hcount⟩ := h.countDown
  obtain ⟨w', hbody⟩ := h.descends_countDownBody hn
  have hcall := Descends.closure rfl hcount (.cons (.constant (.int n) rfl) .nil)
    entered_numbered hbody
  exact ⟨w', hcall.of_eq (by omega)⟩

end

/-! ## The root in which they are defined -/

/-- The world with a new root frame in which the two functions have been defined. -/
def defined (w : World) : World :=
  (w.withRoot.defineUnary w.frames.next "sum" "n" sumBody).defineUnary w.frames.next
    "count-down" "n" countDownBody

theorem known_defined (w : World) : Known (defined w) w.frames.next := by
  have hroot : w.frames.next < w.withRoot.frames.next := by
    change w.frames.all.size < (w.frames.all.push _).size
    rw [Array.size_push]
    exact Nat.lt_succ_self _
  have hown (name : String) : (defined w).frames.own? w.frames.next name =
      if "count-down" = name then
        some (.closure (w.closures + 3) ⟨["n"], none⟩ countDownBody w.frames.next)
      else if "sum" = name then
        some (.closure (w.closures + 2) ⟨["n"], none⟩ sumBody w.frames.next)
      else w.withRoot.frames.own? w.frames.next name := by
    rw [← Frames.own?_bind_eq hroot, ← Frames.own?_bind_eq (by rwa [Frames.next_bind])]
    rfl
  constructor
  · exact World.lookup_of_own? ((hown _).trans (w.own?_withRoot rfl))
  · intro op
    refine World.lookup_of_own? ((hown _).trans ?_)
    cases op <;> exact w.own?_withRoot rfl
  · exact ⟨_, World.lookup_of_own? (hown _)⟩
  · exact ⟨_, World.lookup_of_own? (hown _)⟩

/-- A new root frame in which the two functions are defined. -/
def newRoot (fuel : Nat) : Run FrameId := do
  let root ← Run.newRoot fuel
  SpecialForm.evalEach (eval fuel) root definitions
  return root

theorem newRoot_eq_defined {m : Machine} (hm : m.depth + 2 ≤ m.limit) :
    ∃ k, ∀ fuel, k ≤ fuel →
      newRoot fuel m = .value m.world.frames.next { m with world := defined m.world } := by
  obtain ⟨k₁, h₁⟩ := newRoot_eq hm
  obtain ⟨k₂, h₂⟩ := evalEach_defineUnary m.world.frames.next
    [("sum", "n", sumBody), ("count-down", "n", countDownBody)]
    { m with world := m.world.withRoot } (by decide) hm
  refine ⟨max k₁ k₂, fun fuel hf => ?_⟩
  have hroot := h₁ fuel (Nat.le_trans (Nat.le_max_left ..) hf)
  have hdefined : SpecialForm.evalEach (eval fuel) m.world.frames.next definitions
      { m with world := m.world.withRoot } = .of (.ok ()) { m with world := defined m.world } :=
    h₂ fuel (Nat.le_trans (Nat.le_max_right ..) hf)
  rw [newRoot, Run.bind_of_ok hroot, Run.bind_of_ok hdefined]
  rfl

end Recursion

/-- **Recursion meets the limit exactly.** In a new root frame in which the two functions have been
defined, and from depth 0, the sum of the numbers up to `n` is given if it fits in 64 bits and the
limit is not lower than `n + 3`; under all lower limits it is too deep. Counting down ends under all
limits but 0, 1 and 2, whatever the number. -/
theorem recursion_depth_exact {m : Machine} (hm : m.depth + 2 ≤ m.limit) :
    ∃ root w, (∃ k, ∀ fuel, k ≤ fuel →
      Recursion.newRoot fuel m = .value root { m with world := w }) ∧
    ∀ (n : Int64) (L : Nat), 0 ≤ n.toInt →
      (Word.Fits (n.toInt * (n.toInt + 1) / 2) →
        (n.toInt + 3 ≤ L → ∃ w', Settles (call "sum" [.int n]) root ⟨w, 0, L⟩
          (.ok (.int (Int64.ofInt (n.toInt * (n.toInt + 1) / 2)))) w') ∧
        (L < n.toInt + 3 → ∃ w', Settles (call "sum" [.int n]) root ⟨w, 0, L⟩
          (.error (.tooDeep L)) w')) ∧
      (3 ≤ L → ∃ w', Settles (call "count-down" [.int n]) root ⟨w, 0, L⟩
        (.ok (.keyword "done")) w') ∧
      (L < 3 → ∃ w', Settles (call "count-down" [.int n]) root ⟨w, 0, L⟩
        (.error (.tooDeep L)) w') := by
  have hknown := Recursion.known_defined m.world
  refine ⟨_, _, Recursion.newRoot_eq_defined hm, fun n L hn => ?_⟩
  obtain ⟨k, hk⟩ := Int.eq_ofNat_of_zero_le hn
  obtain ⟨w₂, hcount⟩ := hknown.descends_countDown hk
  rw [hk]
  refine ⟨fun hfits => ?_, fun hL => ⟨w₂, hcount.settles hL⟩, fun hL => hcount.tooDeep hL⟩
  obtain ⟨w₁, hsum⟩ := hknown.descends_sum hk hfits
  exact ⟨fun hL => ⟨w₁, hsum.settles (by omega)⟩, fun hL => hsum.tooDeep (by omega)⟩

/-- On a new machine the numbers up to 500 can be added up, and those up to 998 cannot. -/
theorem recursion_depth_exact_start :
    ∃ root w, (∃ k, ∀ fuel, k ≤ fuel →
      Recursion.newRoot fuel (.start default) =
        .value root { Machine.start default with world := w }) ∧
    (∃ w', Settles (call "sum" [.int 500]) root ⟨w, 0, 1000⟩ (.ok (.int 125250)) w') ∧
    ∃ w', Settles (call "sum" [.int 998]) root ⟨w, 0, 1000⟩ (.error (.tooDeep 1000)) w' := by
  obtain ⟨root, w, hroot, h⟩ := recursion_depth_exact (m := .start default) (by decide)
  refine ⟨root, w, hroot, ?_, ?_⟩
  · exact ((h 500 1000 (by decide)).1 (by decide)).1 (by decide)
  · exact ((h 998 1000 (by decide)).1 (by decide)).2 (by decide)

end Lisplet
