import Lisplet.Proofs.BigStep.Agreement

/-! The limit on nesting is exact. The levels that an evaluation takes are those of its
derivation, in which only heads and arguments of calls, conditions, values to be bound,
elements and forms that do not stand last go one level down, and tail positions do not. If
the limit leaves room for all levels it changes nothing; if it does not the evaluation ends
where the first level beyond it would begin. -/

namespace Lisplet

/-- **The limit is met exactly.** A form is evaluated at depth `d`, and `L` is the limit. The
evaluation ends under all high limits if and only if there is a derivation, and in what is
derived. If all levels of the derivation fit under `L`, the evaluation ends in the same under
`L`. If not, it ends in the complaint about the limit, in the world of the first attempt to
begin an evaluation at depth `L + 1`, and all attempts before that one are within the limit.
A higher limit changes no outcome but this complaint. -/
theorem depth_limit_exact (form : Value) (frame : FrameId) (w : World) (d L : Nat) (hd : d ≤ L) :
    (∀ r w', (∃ L₀, ∀ L', L₀ ≤ L' → Settles form frame ⟨w, d, L'⟩ r w') ↔
      ∃ t, Enters .free form frame w t r w') ∧
    (∀ t r w', Enters .free form frame w t r w' →
      (d + nesting t ≤ L → Settles form frame ⟨w, d, L⟩ r w') ∧
      (L < d + nesting t → ∃ b w₁ u, t = b ++ .attempt (L + 1 - d) w₁ :: u ∧
        (∀ e ∈ b, d + e.level ≤ L) ∧
        Settles form frame ⟨w, d, L⟩ (.error (.tooDeep L)) w₁)) ∧
    (∀ L' r w', L ≤ L' → Settles form frame ⟨w, d, L⟩ r w' → r ≠ .error (.tooDeep L) →
      Settles form frame ⟨w, d, L'⟩ r w') := by
  refine ⟨?_, ?_, ?_⟩
  · intro r w'
    exact (derives_iff_eventually_settled d).symm
  · intro t r w' h
    exact ⟨h.settled_of_nesting, h.cut_of_nesting hd⟩
  · intro L' r w' hL h hr
    exact h.raise hr hL

/-- Evaluating `(do (def! x 7) (if x [[[8]]]))` takes four levels: the turns of the branch and of
the outermost vector take none. Under the limit 3 it ends where the `8` would be evaluated, and `x`
is bound by then. -/
theorem depth_limit_exact_nested_vectors :
    let w := (default : World).withFrame ⟨none, ∅⟩
    let one (v : Value) : Rope Value := .node .nil v .nil
    let three (u v x : Value) : Rope Value := .node (one u) v (one x)
    let nested := Value.seq .vector (one (.seq .vector (one (.seq .vector (one (.int 8))))))
    let form := Value.seq .list (three (.symbol "do")
      (.seq .list (three (.symbol "def!") (.symbol "x") (.int 7)))
      (.seq .list (three (.symbol "if") (.symbol "x") nested)))
    let v := Value.vector [.vector [.vector [.int 8]]]
    let w' := w.bindName 0 "x" (.int 7)
    Settles form 0 ⟨w, 0, 4⟩ (.ok v) w' ∧ Settles form 0 ⟨w, 0, 5⟩ (.ok v) w' ∧
      Settles form 0 ⟨w, 0, 3⟩ (.error (.tooDeep 3)) w' := by
  intro w one three nested form v w'
  have h7 : Enters .free (.int 7) 0 w _ (.ok (.int 7)) w := .free (.constant rfl)
  have heffects : EvaluatesAll .free [.seq .list (three (.symbol "def!") (.symbol "x") (.int 7))] 0
      w _ (.ok [.int 7]) w' := .cons (.free (.special rfl (.define h7))) .nil
  have hlookup : w'.lookup 0 "x" = .ok (.int 7) := World.lookup_of_own? rfl
  have hx : Evaluates .free (.symbol "x") 0 w' [] (.ok (.int 7)) w' := hlookup ▸ .symbol
  have hvector {x y : Value} {t : List Event} (h : Evaluates .free x 0 w' t (.ok y) w') :
      Evaluates .free (.seq .vector (one x)) 0 w' (.attempt 1 w' :: t.map .deeper ++ [])
        ((Except.ok [y]).map .vector) w' := .vector (.cons (.free h) .nil)
  have hnested : Evaluates .free nested 0 w' _ (.ok v) w' :=
    hvector (hvector (hvector (.constant rfl)))
  have hbranch : Evaluates .free (.seq .list (three (.symbol "if") (.symbol "x") nested)) 0 w' _
      (.ok v) w' := .special rfl (.branch (.free hx) hnested)
  have h : Enters .free form 0 w _ (.ok v) w' :=
    .free (.special rfl (.sequence heffects hbranch))
  obtain ⟨-, hfits, hraise⟩ := depth_limit_exact form 0 w 0 4 (by decide)
  obtain ⟨-, hcut, -⟩ := depth_limit_exact form 0 w 0 3 (by decide)
  have h4 := (hfits _ _ _ h).1 (by decide)
  obtain ⟨b, w₁, u, ht, -, h3⟩ := (hcut _ _ _ h).2 (by decide)
  -- Only one evaluation is ever to begin on the fourth level.
  have hattempt : Event.attempt 4 w₁ ∈ b ++ .attempt (3 + 1 - 0) w₁ :: u :=
    List.mem_append_right b (List.mem_cons_self ..)
  rw [← ht] at hattempt
  have hw : w₁ = w' := by simpa [Event.deeper] using hattempt
  exact ⟨h4, hraise 5 _ _ (by decide) h4 (by simp), hw ▸ h3⟩

end Lisplet
