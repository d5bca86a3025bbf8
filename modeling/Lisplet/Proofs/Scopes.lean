import Lisplet.Proofs.NewRoot

/-! Scopes. Frames are shared and change while others look through them, so what a name means in a
frame is told from the history of all frames: how each was made, and what was bound in it, one
thing after another. From a frame the way leads outwards, to a frame that was made earlier at each
step, and so to a frame without a parent. The first frame on the way in which a name has ever been
bound is the one that counts, with what was bound there last. -/

namespace Lisplet

/-! ## Histories -/

/-- What can be done to frames. -/
inductive FrameOp where
  | new
  | child (outer : FrameId)
  | bind (frame : FrameId) (name : String) (v : Value)
  | bindParams (frame : FrameId) (p : Params) (args : List Value)

namespace FrameOp

/-- Does what is to be done. Arguments that are too few leave the frame as it is. -/
def run : FrameOp → Run Unit
  | new => (fun _ => ()) <$> Run.newFrame ⟨none, ∅⟩
  | child outer => (fun _ => ()) <$> Run.child outer
  | bind frame name v => Run.bindName frame name v
  | bindParams frame p args => (fun _ => ()) <$> (Run.bindParams p args frame).attempt

/-- The frame that it is done to or in. -/
def frame? : FrameOp → Option FrameId
  | new => none
  | child outer => some outer
  | bind frame _ _ => some frame
  | bindParams frame _ _ => some frame

/-- The parent of the frame that is made, if one is. -/
def made? : FrameOp → Option (Option FrameId)
  | new => some none
  | child outer => some (some outer)
  | bind _ _ _ => none
  | bindParams _ _ _ => none

/-- The bindings of parameters that are given arguments: each fixed parameter has its argument, and
behind them the rest parameter has the list of the others. Too few arguments bind nothing. -/
def given (p : Params) (args : List Value) : List (String × Value) :=
  if args.length < p.fixed.length then []
  else
    match p.rest with
    | none => p.fixed.zip args
    | some r => p.fixed.zip args ++ [(r, .list (args.drop p.fixed.length))]

theorem given_eq (p : Params) (args : List Value) :
    given p args = (p.assign args).toOption.getD [] := by
  rw [given, Params.assign, Params.arity]
  split
  · rfl
  · rw [Params.restBinding]
    cases p.rest with
    | none => exact (List.append_nil _).symm
    | some r => rfl

/-- The bindings that are made in a frame, one after the other. -/
def news (frame : FrameId) : FrameOp → List (String × Value)
  | bind i name v => if i = frame then [(name, v)] else []
  | bindParams i p args => if i = frame then given p args else []
  | _ => []

/-- Nothing is bound but in the frame that something is done to. -/
theorem news_eq_nil {frame : FrameId} (op : FrameOp) (h : op.frame? ≠ some frame) :
    op.news frame = [] := by
  cases op with
  | new => rfl
  | child outer => rfl
  | bind i name v => exact if_neg fun he => h (congrArg some he)
  | bindParams i p args => exact if_neg fun he => h (congrArg some he)

end FrameOp

/-- The parents of the frames that have been made, in the order of their numbers. -/
def parents (ops : List FrameOp) : List (Option FrameId) := ops.filterMap FrameOp.made?

/-- The name has been bound in the frame, at whatever time. -/
def EverBound (ops : List FrameOp) (frame : FrameId) (name : String) : Prop :=
  ∃ op ∈ ops, ∃ v, (name, v) ∈ op.news frame

/-- The value that was bound to the name in the frame last. -/
def lastBound (ops : List FrameOp) (frame : FrameId) (name : String) : Option Value :=
  (ops.flatMap (FrameOp.news frame)).reverse.lookup name

/-- What has been done to frames since there were none, each time to frames that were there. -/
inductive History : List FrameOp → Machine → Prop where
  | start (h : m.world.frames = .empty) : History [] m
  | step (h : History ops m) (hf : ∀ i ∈ op.frame?, i < m.world.frames.next)
    (hr : op.run m = .value () m') : History (ops ++ [op]) m'

/-- The frames from one outwards, up to one without a parent. -/
inductive Chain (parents : List (Option FrameId)) : FrameId → List FrameId → Prop where
  | root (h : parents[i]? = some none) : Chain parents i [i]
  | inner (h : parents[i]? = some (some outer)) (hc : Chain parents outer is) :
    Chain parents i (i :: is)

theorem lastBound_eq_none_iff {ops : List FrameOp} {frame : FrameId} {name : String} :
    lastBound ops frame name = none ↔ ¬ EverBound ops frame name := by
  rw [lastBound, List.lookup_eq_none_iff]
  constructor
  · rintro h ⟨op, hop, v, hv⟩
    have hmem := List.mem_reverse.mpr (List.mem_flatMap.mpr ⟨op, hop, hv⟩)
    exact bne_iff_ne.mp (h _ hmem) rfl
  · intro h q hq
    obtain ⟨op, hop, hm⟩ := List.mem_flatMap.mp (List.mem_reverse.mp hq)
    exact bne_iff_ne.mpr fun he => h ⟨op, hop, q.2, he ▸ hm⟩

theorem lastBound_append_singleton (ops : List FrameOp) (op : FrameOp) (frame : FrameId)
    (name : String) :
    lastBound (ops ++ [op]) frame name =
      ((op.news frame).reverse.lookup name).or (lastBound ops frame name) := by
  rw [lastBound, List.flatMap_append, List.flatMap_singleton, List.reverse_append,
    List.lookup_append, lastBound]

/-! ## What frames are after a history -/

namespace Frames

variable {fs : Frames} {i : FrameId} {name : String}

/-- The bindings of a frame in which several more have been made. -/
theorem own?_bindAll_eq (hi : i < fs.next) (news : List (String × Value)) (j : FrameId) :
    (fs.bindAll i news).own? j name =
      (if i = j then news.reverse.lookup name else none).or (fs.own? j name) := by
  rw [own?, own?, bindAll, Array.getElem?_modify]
  by_cases hij : i = j
  · subst hij
    have hf : fs.all[i]? = some fs.all[i] := Array.getElem?_eq_getElem hi
    rw [if_pos rfl, if_pos rfl, hf, Option.map_some, Option.bind_some, Option.bind_some,
      Bindings.getElem?_insertAll_eq, Option.or_eq_orElse]
    rfl
  · rw [if_neg hij, if_neg hij, Option.none_or]

/-- A new frame binds nothing. -/
theorem own?_push_empty (parent : Option FrameId) (j : FrameId) :
    (fs.push ⟨parent, ∅⟩).own? j name = fs.own? j name := by
  rw [own?, own?, push, Array.getElem?_push]
  split
  · next hj =>
    rw [hj, Array.getElem?_size]
    simp
  · rfl

theorem resolve_eq {f : Frame} (hf : fs.all[i]? = some f) :
    fs.resolve i name =
      if (fs.own? i name).isSome then some i
      else f.parent.bind fun outer => if outer < i then fs.resolve outer name else none := by
  have hm : name ∈ f.bindings ↔ (fs.own? i name).isSome := by
    rw [own?, hf]
    exact Std.ExtTreeMap.isSome_getElem?_iff_mem.symm
  rw [resolve, hf]
  simp only [hm]
  cases f.parent <;> rfl

end Frames

namespace FrameOp

/-- The frames after something has been done. -/
def after (op : FrameOp) (fs : Frames) : Frames :=
  match op with
  | new => fs.push ⟨none, ∅⟩
  | child outer => fs.push ⟨some outer, ∅⟩
  | bind frame name v => fs.bindAll frame [(name, v)]
  | bindParams frame p args => fs.bindAll frame ((p.assign args).toOption.getD [])

theorem run_eq (op : FrameOp) (m : Machine) :
    op.run m =
      .value () { m with world := { m.world with frames := op.after m.world.frames } } := by
  cases op with
  | bindParams frame p args =>
    rw [run, ← bind_pure_comp, Run.bind_apply, Run.attempt, Run.bindParams, after]
    cases p.assign args with
    | ok news => rfl
    | error e =>
      have hnone : m.world.frames.bindAll frame [] = m.world.frames := by
        refine congrArg Frames.mk (Array.ext_getElem? fun i => ?_)
        rw [Array.getElem?_modify]
        split
        · cases m.world.frames.all[i]? <;> rfl
        · rfl
      rw [Except.toOption, Option.getD_none, hnone]
      rfl
  | _ => rfl

end FrameOp

/-- Frames that are as a history tells. -/
structure Records (ops : List FrameOp) (fs : Frames) : Prop where
  made : parents ops = fs.all.toList.map Frame.parent
  older : ∀ ⦃i outer : FrameId⦄, (parents ops)[i]? = some (some outer) → outer < i
  bound : ∀ i name, lastBound ops i name = fs.own? i name

namespace Records

variable {ops : List FrameOp} {op : FrameOp} {fs : Frames} {i e : FrameId} {chain : List FrameId}
  {name : String}

theorem length_parents (h : Records ops fs) : (parents ops).length = fs.next := by
  rw [h.made, List.length_map, Array.length_toList]
  rfl

theorem parents_append (h : Records ops fs) :
    parents (ops ++ [op]) = fs.all.toList.map Frame.parent ++ op.made?.toList := by
  rw [parents, List.filterMap_append, ← h.made]
  cases hm : op.made? with
  | none => rw [List.filterMap_cons_none hm]; rfl
  | some parent => rw [List.filterMap_cons_some hm]; rfl

/-- A frame is made, inside one that is there or inside none. -/
theorem push (h : Records ops fs) {parent : Option FrameId} (hm : op.made? = some parent)
    (hn : ∀ i, op.news i = []) (hp : ∀ outer ∈ parent, outer < fs.next) :
    Records (ops ++ [op]) (fs.push ⟨parent, ∅⟩) where
  made := by
    rw [h.parents_append, hm, Frames.push, Array.toList_push, List.map_append]
    rfl
  older := by
    intro i outer hi
    rw [h.parents_append, ← h.made, hm, List.getElem?_append] at hi
    split at hi
    · exact h.older hi
    · next hlt =>
      obtain ⟨hz, hi⟩ := List.getElem?_eq_some_iff.mp hi
      rw [h.length_parents] at hlt
      have hlast : parent = some outer := by simpa using hi
      exact Nat.lt_of_lt_of_le (hp outer hlast) (Nat.le_of_not_lt hlt)
  bound i name := by
    rw [lastBound_append_singleton, hn, h.bound, Frames.own?_push_empty]
    rfl

/-- Names are bound in a frame that is there. -/
theorem bindAll (h : Records ops fs) {news : List (String × Value)} (hm : op.made? = none)
    (hi : i < fs.next) (hn : ∀ j, op.news j = if i = j then news else []) :
    Records (ops ++ [op]) (fs.bindAll i news) where
  made := by
    rw [h.parents_append, hm, Option.toList_none, List.append_nil, Frames.bindAll]
    refine List.ext_getElem? fun j => ?_
    simp only [List.getElem?_map, Array.getElem?_toList, Array.getElem?_modify]
    split
    · cases fs.all[j]? <;> rfl
    · rfl
  older := by
    intro j outer hj
    rw [h.parents_append, hm, Option.toList_none, List.append_nil, ← h.made] at hj
    exact h.older hj
  bound j name := by
    rw [lastBound_append_singleton, hn, h.bound, Frames.own?_bindAll_eq hi]
    split <;> rfl

theorem step (h : Records ops fs) (hf : ∀ i ∈ op.frame?, i < fs.next) :
    Records (ops ++ [op]) (op.after fs) := by
  cases op with
  | new => exact h.push rfl (fun _ => rfl) nofun
  | child outer => exact h.push rfl (fun _ => rfl) fun i hi => hf i hi
  | bind frame name v => exact h.bindAll rfl (hf frame rfl) fun _ => rfl
  | bindParams frame p args =>
    refine h.bindAll rfl (hf frame rfl) fun j => ?_
    rw [FrameOp.news, FrameOp.given_eq]

end Records

theorem History.records {ops : List FrameOp} {m : Machine} (h : History ops m) :
    Records ops m.world.frames := by
  induction h with
  | start h =>
    rw [h]
    exact ⟨rfl, nofun, fun _ _ => rfl⟩
  | @step ops m op m' h hf hr ih =>
    rw [FrameOp.run_eq] at hr
    cases hr
    exact ih.step hf

/-- One thing more is done. -/
theorem History.followed {ops : List FrameOp} {m : Machine} (h : History ops m) (op : FrameOp)
    (hf : ∀ i ∈ op.frame?, i < m.world.frames.next) :
    History (ops ++ [op])
      { m with world := { m.world with frames := op.after m.world.frames } } :=
  .step h hf (op.run_eq m)

/-! ## The way outwards -/

/-- Where each frame is younger than its parent, frames on the way outwards get older. -/
theorem Chain.pairwise {ps : List (Option FrameId)} {i : FrameId} {is : List FrameId}
    (hp : ∀ ⦃i outer : FrameId⦄, ps[i]? = some (some outer) → outer < i) (hc : Chain ps i is) :
    is.Pairwise (· > ·) ∧ ∀ j ∈ is, j ≤ i := by
  induction hc with
  | root h => simp
  | @inner i outer is h hc ih =>
    obtain ⟨hsorted, hle⟩ := ih
    have hlt := hp h
    refine ⟨List.pairwise_cons.mpr ⟨fun j hj => ?_, hsorted⟩, fun j hj => ?_⟩
    · exact Nat.lt_of_le_of_lt (hle j hj) hlt
    · rcases List.mem_cons.mp hj with rfl | hj
      · exact Nat.le_refl _
      · exact Nat.le_of_lt (Nat.lt_of_le_of_lt (hle j hj) hlt)

namespace Records

variable {ops : List FrameOp} {op : FrameOp} {fs fs' : Frames} {i e frame owner : FrameId}
  {chain : List FrameId} {name : String}

theorem getElem?_parents (h : Records ops fs) (i : FrameId) :
    (parents ops)[i]? = fs.all[i]?.map Frame.parent := by
  rw [h.made, List.getElem?_map, Array.getElem?_toList]

/-- The way outwards ends. -/
theorem exists_chain (h : Records ops fs) (hi : i < fs.next) :
    ∃ chain, Chain (parents ops) i chain := by
  induction i using Nat.strongRecOn with
  | ind i ih =>
    have hp := h.getElem?_parents i
    have hf : fs.all[i]? = some fs.all[i] := Array.getElem?_eq_getElem hi
    rw [hf, Option.map_some] at hp
    cases ho : fs.all[i].parent with
    | none => exact ⟨[i], .root (hp.trans (congrArg some ho))⟩
    | some outer =>
      have hinner := hp.trans (congrArg some ho)
      have hlt := h.older hinner
      obtain ⟨chain, hc⟩ := ih outer hlt (Nat.lt_trans hlt hi)
      exact ⟨i :: chain, .inner hinner hc⟩

/-- A name is found in the first frame on the way outwards in which it has been bound. -/
theorem resolve_eq (h : Records ops fs) (hc : Chain (parents ops) e chain) (name : String) :
    fs.resolve e name = chain.find? fun i => (lastBound ops i name).isSome := by
  induction hc with
  | @root i hroot =>
    rw [h.getElem?_parents, Option.map_eq_some_iff] at hroot
    obtain ⟨f, hf, hp⟩ := hroot
    rw [Frames.resolve_eq hf, hp, List.find?_singleton, h.bound]
    rfl
  | @inner i outer is hinner hc ih =>
    have hlt := h.older hinner
    rw [h.getElem?_parents, Option.map_eq_some_iff] at hinner
    obtain ⟨f, hf, hp⟩ := hinner
    rw [Frames.resolve_eq hf, hp, Option.bind_some, if_pos hlt, ih, List.find?_cons, h.bound]
    cases (fs.own? i name).isSome <;> rfl

theorem get?_eq (h : Records ops fs) (e : FrameId) (name : String) :
    fs.get? e name = (fs.resolve e name).bind (lastBound ops · name) := by
  rw [Frames.get?]
  congr 1
  funext i
  exact (h.bound i name).symm

/-- Where only one frame can have become the owner of a name, and another is found, it was found
before. -/
theorem find?_eq_of_ne {owns owned : FrameId → Bool} (hf : owns frame)
    (hother : ∀ j, j ≠ frame → owns j = owned j) (hne : chain.find? owns ≠ some frame) :
    chain.find? owned = chain.find? owns := by
  induction chain with
  | nil => rfl
  | cons j js ih =>
    by_cases hj : j = frame
    · rw [hj, List.find?_cons_of_pos hf] at hne
      exact absurd rfl hne
    · rw [List.find?_cons, hother j hj] at hne
      rw [List.find?_cons, List.find?_cons, hother j hj]
      cases howned : owned j with
      | true => rfl
      | false => exact ih (by simpa only [howned] using hne)

/-- Binding names in a frame does nothing to what is seen from elsewhere, unless the name is found
in that frame afterwards. -/
theorem resolve_or_same (h : Records ops fs) (h' : Records (ops ++ [op]) fs')
    (hm : op.made? = none) (hn : ∀ j, j ≠ frame → op.news j = [])
    (hc : Chain (parents ops) e chain) (name : String) :
    (fs'.resolve e name = some frame ∧ frame ∈ chain ∧ ∃ v, (name, v) ∈ op.news frame) ∨
      (fs'.resolve e name = fs.resolve e name ∧ fs'.get? e name = fs.get? e name) := by
  have hc' : Chain (parents (ops ++ [op])) e chain := by
    rwa [h.parents_append, hm, Option.toList_none, List.append_nil, ← h.made]
  have hlast (j : FrameId) (hj : j = frame → (op.news frame).reverse.lookup name = none) :
      lastBound (ops ++ [op]) j name = lastBound ops j name := by
    rw [lastBound_append_singleton]
    by_cases hjf : j = frame
    · rw [hjf, hj hjf, Option.none_or]
    · rw [hn j hjf, List.reverse_nil, List.lookup_nil, Option.none_or]
  rw [h.get?_eq, h'.get?_eq, h.resolve_eq hc, h'.resolve_eq hc']
  cases hnew : (op.news frame).reverse.lookup name with
  | none =>
    -- The name is not among those that are bound, so it was bound last where it had been before.
    have hsame (j : FrameId) := hlast j fun _ => hnew
    simp only [hsame, and_self, or_true]
  | some v =>
    have hmem : (name, v) ∈ op.news frame := by
      obtain ⟨before, after, hsplit, -⟩ := List.lookup_eq_some_iff.mp hnew
      rw [← List.mem_reverse, hsplit]
      exact List.mem_append_right before List.mem_cons_self
    have hnow : (lastBound (ops ++ [op]) frame name).isSome := by
      rw [lastBound_append_singleton, hnew]
      rfl
    have hother (j : FrameId) (hj : j ≠ frame) := hlast j fun he => absurd he hj
    by_cases hfind : (chain.find? fun i => (lastBound (ops ++ [op]) i name).isSome) = some frame
    · exact .inl ⟨hfind, List.mem_of_find?_eq_some hfind, v, hmem⟩
    · have hsame := find?_eq_of_ne hnow (fun j hj => congrArg Option.isSome (hother j hj)) hfind
      refine .inr ⟨hsame.symm, ?_⟩
      rw [hsame]
      cases howner : chain.find? fun i => (lastBound (ops ++ [op]) i name).isSome with
      | none => rfl
      | some owner => exact hother owner fun he => hfind (he ▸ howner)

/-- What looking for a name comes to, and how it is told from the history. -/
theorem found_or_unknown {m : Machine} (h : Records ops m.world.frames)
    (hc : Chain (parents ops) e chain) (name : String) :
    (∃ inner owner outer v, chain = inner ++ owner :: outer ∧
      (∀ i ∈ inner, ¬ EverBound ops i name) ∧ EverBound ops owner name ∧
      lastBound ops owner name = some v ∧
      Run.resolve e name m = .value owner m ∧ Run.lookup e name m = .value v m ∧
      m.world.frames.isBound e name = true) ∨
    ((∀ i ∈ chain, ¬ EverBound ops i name) ∧
      Run.resolve e name m = .error (.unbound name) m ∧
      Run.lookup e name m = .error (.unbound name) m ∧
      m.world.frames.isBound e name = false) := by
  have hresolve := h.resolve_eq hc name
  have hget := h.get?_eq e name
  cases hfind : chain.find? fun i => (lastBound ops i name).isSome with
  | some owner =>
    obtain ⟨hown, inner, outer, hsplit, hinner⟩ := List.find?_eq_some_iff_append.mp hfind
    obtain ⟨v, hv⟩ := Option.isSome_iff_exists.mp hown
    have hbound : EverBound ops owner name :=
      Classical.byContradiction fun hn => by simp [lastBound_eq_none_iff.mpr hn] at hv
    have hnone (i : FrameId) (hi : i ∈ inner) : ¬ EverBound ops i name :=
      lastBound_eq_none_iff.mp (by simpa using hinner i hi)
    rw [hfind] at hresolve
    rw [hresolve, Option.bind_some, hv] at hget
    exact .inl ⟨inner, owner, outer, v, hsplit, hnone, hbound, hv, by rw [Run.resolve, hresolve],
      by rw [Run.lookup, hget], by rw [Frames.isBound, hresolve]; rfl⟩
  | none =>
    have hnone (i : FrameId) (hi : i ∈ chain) : ¬ EverBound ops i name :=
      lastBound_eq_none_iff.mp (by simpa using List.find?_eq_none.mp hfind i hi)
    rw [hfind] at hresolve
    rw [hresolve, Option.bind_none] at hget
    exact .inr ⟨hnone, by rw [Run.resolve, hresolve], by rw [Run.lookup, hget],
      by rw [Frames.isBound, hresolve]; rfl⟩

end Records

/-- **A name means what its nearest binder says.** After any history of frames, from each of them
the way outwards ends. A name is found in the first frame on it in which the name has ever been
bound, and means what was bound to it there last; where it has been bound in none, it is unknown.
Looking for a name changes nothing. When a name is bound in a frame, what it means changes only as
seen from where that frame is the one in which the name is found from then on, which is never a
frame further out, nor one from which the way does not lead through it. -/
theorem nearest_binder {ops : List FrameOp} {m : Machine} (h : History ops m) :
    (∀ e < m.world.frames.next, ∃ chain, Chain (parents ops) e chain ∧ chain.Nodup ∧ ∀ name,
      (∃ inner owner outer v, chain = inner ++ owner :: outer ∧
        (∀ i ∈ inner, ¬ EverBound ops i name) ∧ EverBound ops owner name ∧
        lastBound ops owner name = some v ∧
        Run.resolve e name m = .value owner m ∧ Run.lookup e name m = .value v m ∧
        m.world.frames.isBound e name = true) ∨
      ((∀ i ∈ chain, ¬ EverBound ops i name) ∧
        Run.resolve e name m = .error (.unbound name) m ∧
        Run.lookup e name m = .error (.unbound name) m ∧
        m.world.frames.isBound e name = false)) ∧
    (∀ (op : FrameOp) frame m', op.made? = none → op.frame? = some frame →
      frame < m.world.frames.next →
      op.run m = .value () m' → ∀ e chain, Chain (parents ops) e chain → ∀ name,
        (m'.world.frames.resolve e name = some frame ∧ frame ∈ chain ∧
          ∃ v, (name, v) ∈ op.news frame) ∨
        (m'.world.frames.resolve e name = m.world.frames.resolve e name ∧
          m'.world.frames.get? e name = m.world.frames.get? e name)) ∧
    (∀ frame outer, Chain (parents ops) frame (frame :: outer) →
      ∀ a ∈ outer, ∀ chain, Chain (parents ops) a chain → frame ∉ chain) := by
  have hrec := h.records
  refine ⟨fun e he => ?_, fun op frame m' hmade hframe hlt hrun e chain hc name => ?_,
    fun frame outer hc a ha chain hca hmem => ?_⟩
  · obtain ⟨chain, hc⟩ := hrec.exists_chain he
    have hnodup := (hc.pairwise hrec.older).1.imp Nat.ne_of_gt
    exact ⟨chain, hc, hnodup, hrec.found_or_unknown hc⟩
  · have hthere : ∀ i ∈ op.frame?, i < m.world.frames.next := by
      rw [hframe]
      rintro i ⟨⟩
      exact hlt
    have hrec' := (h.step hthere hrun).records
    refine hrec.resolve_or_same hrec' hmade (fun j hj => op.news_eq_nil fun he => hj ?_) hc name
    exact Option.some.inj (he.symm.trans hframe)
  · have hsorted := List.pairwise_cons.mp (hc.pairwise hrec.older).1
    have hle := (hca.pairwise hrec.older).2 frame hmem
    exact Nat.not_lt_of_le hle (hsorted.1 a ha)

/-- Three frames, each inside the one before. The first binds `x`, before and after the second binds
it as a parameter, with the rest parameter `y` behind it, and the third is given too few arguments
to bind it at all. From the third `x` and `y` mean what the second says, and giving the parameters
of the second other arguments does nothing to the first. -/
theorem nearest_binder_shadowed :
    let p : Params := ⟨["x"], some "y"⟩
    let ops : List FrameOp := [.new, .child 0, .child 1, .bind 0 "x" (.int 1),
      .bindParams 1 p [.int 2, .int 5], .bindParams 2 p [], .bind 0 "x" (.int 3)]
    ∃ m, History ops m ∧ Run.lookup 2 "x" m = .value (.int 2) m ∧
      Run.lookup 2 "y" m = .value (.list [.int 5]) m ∧
      ∀ m', (FrameOp.bindParams 1 p [.int 4]).run m = .value () m' →
        m'.world.frames.get? 0 "x" = m.world.frames.get? 0 "x" := by
  intro p ops
  obtain ⟨m, h⟩ : ∃ m, History ops m := by
    have h0 : History [] { (default : Machine) with world := { (default : World) with
      frames := .empty } } := .start rfl
    have h3 := ((h0.followed .new nofun).followed (.child 0) (by decide)).followed (.child 1)
      (by decide)
    have h5 := (h3.followed (.bind 0 "x" (.int 1)) (by decide)).followed
      (.bindParams 1 p [.int 2, .int 5]) (by decide)
    exact ⟨_, (h5.followed (.bindParams 2 p []) (by decide)).followed
      (.bind 0 "x" (.int 3)) (by decide)⟩
  have hrec := h.records
  have hnext : m.world.frames.next = 3 := hrec.length_parents.symm
  obtain ⟨hfound, hkept, -⟩ := nearest_binder h
  have hc0 : Chain (parents ops) 0 [0] := .root rfl
  have hc2 : Chain (parents ops) 2 [2, 1, 0] := .inner rfl (.inner rfl hc0)
  obtain ⟨chain, -, -, hname⟩ := hfound 2 (by rw [hnext]; decide)
  have hlookup {name : String} {v : Value}
      (hfirst : [2, 1, 0].find? (fun i => (lastBound ops i name).isSome) = some 1)
      (hv : lastBound ops 1 name = some v) : Run.lookup 2 name m = .value v m := by
    have hresolve : Run.resolve 2 name m = .value 1 m := by
      rw [Run.resolve, hrec.resolve_eq hc2, hfirst]
    rcases hname name with ⟨_, _, _, _, -, -, -, hlast, howner, hfound, -⟩ | ⟨-, hnone, -⟩
    · cases hresolve.symm.trans howner
      cases hv.symm.trans hlast
      exact hfound
    · cases hresolve.symm.trans hnone
  refine ⟨m, h, hlookup rfl rfl, hlookup rfl rfl, fun m' hrun => ?_⟩
  have hsees := hkept _ 1 m' rfl rfl (by rw [hnext]; decide) hrun 0 [0] hc0 "x"
  rcases hsees with ⟨-, hmem, -⟩ | ⟨-, hget⟩
  · exact absurd hmem (by decide)
  · exact hget

end Lisplet
