import Lisplet.Eval

/-! Evaluation by rules. A rule says what a form means through the meanings of its parts,
and a part in tail position is a part like any other: there are no turns here and no
machine that counts. What the rules relate is a form, a frame and a world to a result and
to the world it leaves. They also keep a list of events, so that a derivation tells how
deeply evaluations were nested, what the world was at each beginning, and in which root
frames the function `eval` was called. The guard says whether nesting is bounded: under
`free` no rule refuses anything, and what can be derived then is the meaning of a form. -/

namespace Lisplet

/-! ## The world, as the rules read and write it -/

namespace World

/-- The value of a name seen from a frame, or the complaint that it has none. -/
def lookup (w : World) (frame : FrameId) (name : String) : Except Error Value :=
  match w.frames.get? frame name with
  | some v => .ok v
  | none => .error (.unbound name)

theorem lookup_eq_ok_iff {w : World} {frame : FrameId} {name : String} {v : Value} :
    w.lookup frame name = .ok v ↔ w.frames.get? frame name = some v := by
  unfold lookup
  split <;> simp [*]

/-- The nearest binding is the frame's own. -/
theorem lookup_of_own? {w : World} {frame : FrameId} {name : String} {v : Value}
    (h : w.frames.own? frame name = some v) : w.lookup frame name = .ok v :=
  lookup_eq_ok_iff.mpr (Frames.get?_of_own? h)

def bindName (w : World) (frame : FrameId) (name : String) (v : Value) : World :=
  { w with frames := w.frames.bind frame name v }

/-- The world with one more frame, whose number is the next one. -/
def withFrame (w : World) (f : Frame) : World := { w with frames := w.frames.push f }

/-- The world with a new empty frame inside another. -/
def withChild (w : World) (frame : FrameId) : World := w.withFrame ⟨some frame, ∅⟩

/-- The world with a new frame inside `frame` in which parameters have their arguments. -/
def entered (w : World) (p : Params) (args : List Value) (frame : FrameId) :
    Except Error World :=
  match p.assign args with
  | .ok news => .ok (w.withFrame ⟨some frame, Bindings.insertAll news ∅⟩)
  | .error e => .error e

/-- The world in which one more closure has been made. -/
def withClosure (w : World) : World := { w with closures := w.closures + 1 }

/-- What an atom holds. -/
def cell (w : World) (id : AtomId) : Value := w.atoms[id]?.getD .nil

def setCell (w : World) (id : AtomId) (v : Value) : World :=
  { w with atoms := w.atoms.modify id fun _ => v }

end World

/-! ## Special forms, taken apart -/

/-- A special form with its parts named, or what is wrong with its shape. -/
inductive Clause where
  | define (name : String) (form : Value)
  | bind (bindings : List (Value × Value)) (body : Value)
  | sequence (effects : List Value) (last : Value)
  | branch (condition consequent : Value) (alternative : Option Value)
  | lambda (params : Params) (body : Value)
  | quote (form : Value)
  | quasiquote (template : Value)
  | expand (template : Value)
  | malformed (form : SpecialForm) (flaw : Flaw)

namespace SpecialForm

/-- The parts of a special form with the arguments `args`. -/
def clause (f : SpecialForm) (args : List Value) : Clause :=
  match f, args with
  | define, [.symbol name, form] => .define name form
  | define, [other, _] => .malformed define (.nameNotSymbol other.typeName)
  | define, args => .malformed define (.notNameAndValue args.length)
  | bind, [bindings, body] =>
    match bindings.items? with
    | none => .malformed bind (.bindingsNotSequence bindings.typeName)
    | some items =>
      match Form.pairs? items.toList with
      | none => .malformed bind .oddBindings
      | some bindings => .bind bindings body
  | bind, args => .malformed bind (.notBindingsAndBody args.length)
  | sequence, args =>
    match args.getLast? with
    | none => .malformed sequence .noForms
    | some last => .sequence args.dropLast last
  | branch, [condition, consequent] => .branch condition consequent none
  | branch, [condition, consequent, alternative] =>
    .branch condition consequent (some alternative)
  | branch, args => .malformed branch (.notTwoOrThree args.length)
  | lambda, [params, body] =>
    match Params.ofForm params with
    | .ok p => .lambda p body
    | .error flaw => .malformed lambda flaw
  | lambda, args => .malformed lambda (.notParamsAndBody args.length)
  | quote, [form] => .quote form
  | quasiquote, [form] => .quasiquote form
  | expand, [form] => .expand form
  | f, args => .malformed f (.notOneArgument args.length)

end SpecialForm

namespace Value

/-- The parts of a special form; none if the value is no special form. -/
def clause? : Value → Option Clause
  | seq .list xs =>
    (xs.toList.head?.bind specialForm?).map fun f => f.clause xs.toList.tail
  | _ => none

/-- Whether a value can be called. -/
def isFunction : Value → Bool
  | native _ => true
  | closure .. => true
  | _ => false

/-- Whether a form stands for itself. -/
def isConstant : Value → Bool
  | symbol _ => false
  | seq .list xs => xs.toList.isEmpty
  | seq .vector _ => false
  | map _ => false
  | _ => true

end Value

/-! ## Events and guards -/

/-- What there is to be noted of an evaluation while it goes on. -/
inductive Event where
  /-- An evaluation was to begin, so many levels below where the notes were taken. -/
  | attempt (level : Nat) (world : World)
  /-- The function `eval` of the frame `root` was called. -/
  | asked (root : FrameId)

namespace Event

/-- The event as it is noted one level further up. -/
def deeper : Event → Event
  | attempt level world => attempt (level + 1) world
  | asked root => asked root

/-- How many levels down the event took place, if it was an attempt. -/
def level : Event → Nat
  | attempt level _ => level
  | asked _ => 0

end Event

/-- How much further evaluations may be nested: without end, or by `room` more levels, which
are then as many as `limit` allows. -/
inductive Guard where
  | free
  | upTo (room limit : Nat)

/-! ## The rules -/

/-- What a function that belongs to no program does if nothing can be evaluated or applied. -/
def Native.alone (f : Native) (args : List Value) : Run Value :=
  f.run (fun _ _ => Run.halt .outOfFuel) (fun _ _ => Run.halt .outOfFuel) args

/-- The outcome of a run that has come to its end. -/
def Outcome.of : Except Error α → Machine → Outcome α
  | .ok a, m => .value a m
  | .error e, m => .error e m

mutual

/-- A form, whose evaluation has begun, has a result in a frame. -/
inductive Evaluates : Guard → Value → FrameId → World → List Event → Except Error Value →
    World → Prop where
  | symbol : Evaluates g (.symbol name) frame w [] (w.lookup frame name) w
  | constant (hc : form.isConstant = true) : Evaluates g form frame w [] (.ok form) w
  | vector (hs : EvaluatesAll g xs.toList frame w t rs w') :
    Evaluates g (.seq .vector xs) frame w t (rs.map .vector) w'
  /-- A map keeps its keys as they are written. -/
  | map (hs : EvaluatesAll g (es.toList.map Prod.snd) frame w t rs w') :
    Evaluates g (.map es) frame w t
      (rs.map fun vs => .mapOf ((es.toList.map Prod.fst).zip vs)) w'
  | special (hc : form.clause? = some c) (hp : Performs g c frame w t r w') :
    Evaluates g form frame w t r w'
  | call (hn : (Value.seq .list xs).clause? = none)
    (hs : EvaluatesAll g xs.toList frame w t₁ (.ok (f :: args)) w₁)
    (hf : Calls g f args w₁ t₂ r w₂) :
    Evaluates g (.seq .list xs) frame w (t₁ ++ t₂) r w₂
  | callError (hn : (Value.seq .list xs).clause? = none)
    (hs : EvaluatesAll g xs.toList frame w t (.error e) w') :
    Evaluates g (.seq .list xs) frame w t (.error e) w'

/-- A form is evaluated one level further down. -/
inductive Enters : Guard → Value → FrameId → World → List Event → Except Error Value →
    World → Prop where
  | free (h : Evaluates .free form frame w t r w') :
    Enters .free form frame w (.attempt 1 w :: t.map .deeper) r w'
  | admitted (h : Evaluates (.upTo room limit) form frame w t r w') :
    Enters (.upTo (room + 1) limit) form frame w (.attempt 1 w :: t.map .deeper) r w'
  | refused : Enters (.upTo 0 limit) form frame w [.attempt 1 w] (.error (.tooDeep limit)) w

/-- Forms are evaluated from the left, each one level further down, up to the first error. -/
inductive EvaluatesAll : Guard → List Value → FrameId → World → List Event →
    Except Error (List Value) → World → Prop where
  | nil : EvaluatesAll g [] frame w [] (.ok []) w
  | cons (h : Enters g form frame w t₁ (.ok v) w₁)
    (hs : EvaluatesAll g forms frame w₁ t₂ rs w₂) :
    EvaluatesAll g (form :: forms) frame w (t₁ ++ t₂) (rs.map (v :: ·)) w₂
  | error (h : Enters g form frame w t (.error e) w') :
    EvaluatesAll g (form :: forms) frame w t (.error e) w'

/-- A special form has a result. -/
inductive Performs : Guard → Clause → FrameId → World → List Event → Except Error Value →
    World → Prop where
  | define (h : Enters g form frame w t (.ok v) w') :
    Performs g (.define name form) frame w t (.ok v) (w'.bindName frame name v)
  | defineError (h : Enters g form frame w t (.error e) w') :
    Performs g (.define name form) frame w t (.error e) w'
  | bind (hb : Binds g bindings w.frames.next (w.withChild frame) t₁ (.ok ()) w₁)
    (h : Evaluates g body w.frames.next w₁ t₂ r w₂) :
    Performs g (.bind bindings body) frame w (t₁ ++ t₂) r w₂
  | bindError (hb : Binds g bindings w.frames.next (w.withChild frame) t (.error e) w') :
    Performs g (.bind bindings body) frame w t (.error e) w'
  | sequence (hs : EvaluatesAll g effects frame w t₁ (.ok vs) w₁)
    (h : Evaluates g last frame w₁ t₂ r w₂) :
    Performs g (.sequence effects last) frame w (t₁ ++ t₂) r w₂
  | sequenceError (hs : EvaluatesAll g effects frame w t (.error e) w') :
    Performs g (.sequence effects last) frame w t (.error e) w'
  /-- A missing alternative is nil. -/
  | branch (hc : Enters g condition frame w t₁ (.ok v) w₁)
    (h : Evaluates g (if v.isTruthy then consequent else alternative.getD .nil) frame w₁ t₂ r
      w₂) :
    Performs g (.branch condition consequent alternative) frame w (t₁ ++ t₂) r w₂
  | branchError (hc : Enters g condition frame w t (.error e) w') :
    Performs g (.branch condition consequent alternative) frame w t (.error e) w'
  | lambda :
    Performs g (.lambda params body) frame w [] (.ok (.closure w.closures params body frame))
      w.withClosure
  | quote : Performs g (.quote form) frame w [] (.ok form) w
  | quasiquote (h : Evaluates g (Template.expand template) frame w t r w') :
    Performs g (.quasiquote template) frame w t r w'
  | expand : Performs g (.expand template) frame w [] (.ok (Template.expand template)) w
  | malformed : Performs g (.malformed f flaw) frame w [] (.error (.malformed f flaw)) w

/-- Names are bound in turn, each to a value that is evaluated in the frame as it then is. -/
inductive Binds : Guard → List (Value × Value) → FrameId → World → List Event →
    Except Error Unit → World → Prop where
  | nil : Binds g [] frame w [] (.ok ()) w
  | cons (h : Enters g form frame w t₁ (.ok v) w₁)
    (hs : Binds g rest frame (w₁.bindName frame name v) t₂ r w₂) :
    Binds g ((.symbol name, form) :: rest) frame w (t₁ ++ t₂) r w₂
  | error (h : Enters g form frame w t (.error e) w') :
    Binds g ((.symbol name, form) :: rest) frame w t (.error e) w'
  | notSymbol (hn : ∀ name, other ≠ .symbol name) :
    Binds g ((other, form) :: rest) frame w []
      (.error (.malformed .bind (.bindingNotSymbol other.typeName))) w

/-- A function is called in tail position: the body of a closure is a part of the call. -/
inductive Calls : Guard → Value → List Value → World → List Event → Except Error Value →
    World → Prop where
  | closure (he : w.entered params args frame = .ok w₁)
    (h : Evaluates g body w.frames.next w₁ t r w₂) :
    Calls g (.closure i params body frame) args w t r w₂
  | arity (he : w.entered params args frame = .error e) :
    Calls g (.closure i params body frame) args w [] (.error e) w
  | native (h : Invokes g f args w t r w') : Calls g (.native f) args w t r w'
  | notCallable (hf : f.isFunction = false) :
    Calls g f args w [] (.error (.notCallable f)) w

/-- A function is applied by another function, which waits for the value: the body of a
closure is evaluated one level further down. -/
inductive Applies : Guard → Value → List Value → World → List Event → Except Error Value →
    World → Prop where
  | closure (he : w.entered params args frame = .ok w₁)
    (h : Enters g body w.frames.next w₁ t r w₂) :
    Applies g (.closure i params body frame) args w t r w₂
  | arity (he : w.entered params args frame = .error e) :
    Applies g (.closure i params body frame) args w [] (.error e) w
  | native (h : Invokes g f args w t r w') : Applies g (.native f) args w t r w'
  | notCallable (hf : f.isFunction = false) :
    Applies g f args w [] (.error (.notCallable f)) w

/-- A function that belongs to no program has a result. -/
inductive Invokes : Guard → Native → List Value → World → List Event → Except Error Value →
    World → Prop where
  | alone (h : ∀ depth limit, f.alone args ⟨w, depth, limit⟩ = .of r ⟨w', depth, limit⟩) :
    Invokes g f args w [] r w'
  | evalIn (h : Enters g form root w t r w') :
    Invokes g (.evalIn root) [form] w (.asked root :: t) r w'
  | swap (h : Applies g f (w.cell i :: args) w t (.ok v) w') :
    Invokes g (.builtin (.atom .swap)) (.atom i :: f :: args) w t (.ok v) (w'.setCell i v)
  | swapError (h : Applies g f (w.cell i :: args) w t (.error e) w') :
    Invokes g (.builtin (.atom .swap)) (.atom i :: f :: args) w t (.error e) w'
  | host (hh : w.hosts[index]? = some f) (h : Plays g (f.run args) w t r w') :
    Invokes g (.host name index) args w t r w'

/-- The script of a function of the host has a result. -/
inductive Plays : Guard → Reply → World → List Event → Except Error Value → World → Prop where
  | give : Plays g (.give v) w [] (.ok v) w
  | fail : Plays g (.fail e) w [] (.error e) w
  | call (h : Applies g f args w t₁ (.ok v) w₁) (hr : Plays g (resume v) w₁ t₂ r w₂) :
    Plays g (.call f args resume) w (t₁ ++ t₂) r w₂
  | callError (h : Applies g f args w t (.error e) w') :
    Plays g (.call f args resume) w t (.error e) w'

end

/-- What a form means in a frame: the result, and the world that is left, of evaluating it
with nothing to bound the nesting. -/
def Derives (form : Value) (frame : FrameId) (w : World) (r : Except Error Value)
    (w' : World) : Prop :=
  ∃ t, Enters .free form frame w t r w'

end Lisplet
