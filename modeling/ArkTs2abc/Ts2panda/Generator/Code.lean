import Mathlib.Data.List.Basic

/-!
# The code of generator functions

The structure of the code is kept: a try range with its handler, a loop, a label behind the code
that branches to it, a finalizer compiled in place. What the code does besides, and how the
generator is resumed, is an input. All suspension points of a function put the value they are
resumed with into one register, `retVal`.

## Main definitions

* `Code` — code, by its structure.
* `Machine`, `run` — running code on the inputs of a run.
-/

namespace ArkTs2abc.Ts2panda.Generator

inductive ResumeMode where
  | return | throw | next
  deriving DecidableEq, Repr

/-- The labels behind a statement and at its next iteration. -/
inductive Label where
  | breakTarget (name : ℕ)
  | continueTarget (name : ℕ)
  deriving DecidableEq, Repr

/-- `operation` is the code of anything that does not suspend the generator. -/
inductive Code where
  | skip
  | operation (e : ℕ)
  | seq (first second : Code)
  | condition (e : ℕ) (ifTrue ifFalse : Code)
  | loop (body : Code)
  | label (code : Code) (l : Label)
  | branch (l : Label)
  | throw
  | tryRange (block handler : Code)
  /-- A finalizer in place of a jump, which the handlers of the try statements left do not cover. -/
  | inlineFinally (left : ℕ) (code : Code)
  | iteratorClose (loop : ℕ)
  /-- `e` is put aside, and returned behind the finalizers. -/
  | returnValue (e : ℕ) (finalizers : Code)
  | returnRetVal
  /-- `yield`: `onReturn` is what stands behind the test of the mode. -/
  | suspend (e : ℕ) (onReturn : Code)
  /-- `yieldStar` -/
  | delegate (e : ℕ) (finalizers : Code)
  deriving DecidableEq, Repr

/-- What the world decides in a run. -/
inductive Input (V : Type) where
  | completes
  | throws
  | holds (b : Bool)
  | value (v : V)
  | resume (mode : ResumeMode) (v : V)
  /-- The inner iterator has no such method. -/
  | noMethod
  /-- A method of the inner iterator has not returned an object. -/
  | notObject (object : V)
  | innerResult (object value : V) (done : Bool)
  deriving DecidableEq, Repr

/-- What can be seen of a run. -/
inductive Event (V : Type) where
  | operation (e : ℕ)
  | closed (loop : ℕ)
  /-- A yield was resumed. -/
  | yielded (e : ℕ) (mode : ResumeMode) (v : V)
  /-- The inner iterator of a `yield*` has given this result. -/
  | delegated (e : ℕ) (object : V)
  deriving DecidableEq, Repr

structure Machine (V : Type) where
  retVal : V
  inputs : List (Input V)
  trace : List (Event V)
  deriving DecidableEq, Repr

/-- How code ends. `thrown` counts the handlers around that do not cover what has thrown. -/
inductive Result (V : Type) where
  | normal
  | thrown (left : ℕ)
  | jumped (l : Label)
  | returned (v : V)
  deriving DecidableEq, Repr

variable {V : Type}

/-- There is no outcome when the inputs are used up. -/
abbrev Outcome (V : Type) := Option (Result V × Machine V)

/-- What follows after code that ends normally. -/
def andThen (outcome : Outcome V) (rest : Machine V → Outcome V) : Outcome V :=
  match outcome with
  | some (.normal, m) => rest m
  | outcome => outcome

namespace Machine

def log (m : Machine V) (event : Event V) : Machine V := { m with trace := m.trace ++ [event] }

/-- Something is done that completes or throws. -/
def perform (m : Machine V) (event : Event V) : Outcome V :=
  match m.inputs with
  | .completes :: inputs => some (.normal, { m.log event with inputs })
  | .throws :: inputs => some (.thrown 0, { m.log event with inputs })
  | _ => none

end Machine

def iterate (body : Machine V → Outcome V) : ℕ → Machine V → Outcome V
  | 0, _ => none
  | fuel + 1, m => andThen (body m) (iterate body fuel)

/-- The loop of `yieldStar`. The value it is resumed with has a register of its own, but the results
of the inner iterator are put into `retVal`. -/
def delegating (e : ℕ) (finalizers : Machine V → Outcome V) :
    ℕ → ResumeMode → Option V → Machine V → Outcome V
  | 0, _, _, _ => none
  | fuel + 1, mode, received, m =>
    match mode, received, m.inputs with
    | .return, some v, .noMethod :: inputs =>
      andThen (finalizers { m with inputs }) fun m => some (.returned v, m)
    | .throw, _, .noMethod :: inputs => some (.thrown 0, { m with inputs })
    | _, _, .throws :: inputs => some (.thrown 0, { m with inputs })
    | _, _, .notObject object :: inputs =>
      some (.thrown 0, { m.log (.delegated e object) with inputs, retVal := object })
    | mode, _, .innerResult object value true :: inputs =>
      let m := { m.log (.delegated e object) with inputs, retVal := object }
      if mode = .return then andThen (finalizers m) fun m => some (.returned value, m)
      else some (.normal, m)
    | _, _, .innerResult object _ false :: .resume mode v :: inputs =>
      delegating e finalizers fuel mode (some v)
        { m.log (.delegated e object) with inputs, retVal := object }
    | _, _, _ => none

/-- The code behind the label takes up a branch to it. -/
def landing (l : Label) : Outcome V → Outcome V
  | some (.jumped l', m) => if l' = l then some (.normal, m) else some (.jumped l', m)
  | outcome => outcome

def caught (handler : Machine V → Outcome V) : Outcome V → Outcome V
  | some (.thrown 0, m) => handler m
  | some (.thrown (left + 1), m) => some (.thrown left, m)
  | outcome => outcome

def uncovered (left : ℕ) : Outcome V → Outcome V
  | some (.thrown left', m) => some (.thrown (left' + left), m)
  | outcome => outcome

def run (fuel : ℕ) : Code → Machine V → Outcome V
  | .skip, m => some (.normal, m)
  | .operation e, m => m.perform (.operation e)
  | .seq first second, m => andThen (run fuel first m) (run fuel second)
  | .condition _ ifTrue ifFalse, m =>
    match m.inputs with
    | .holds true :: inputs => run fuel ifTrue { m with inputs }
    | .holds false :: inputs => run fuel ifFalse { m with inputs }
    | .throws :: inputs => some (.thrown 0, { m with inputs })
    | _ => none
  | .loop body, m => iterate (run fuel body) fuel m
  | .label code l, m => landing l (run fuel code m)
  | .branch l, m => some (.jumped l, m)
  | .throw, m => some (.thrown 0, m)
  | .tryRange block handler, m => caught (run fuel handler) (run fuel block m)
  | .inlineFinally left code, m => uncovered left (run fuel code m)
  | .iteratorClose loop, m => m.perform (.closed loop)
  | .returnValue _ finalizers, m =>
    match m.inputs with
    | .value v :: inputs =>
      andThen (run fuel finalizers { m with inputs }) fun m => some (.returned v, m)
    | .throws :: inputs => some (.thrown 0, { m with inputs })
    | _ => none
  | .returnRetVal, m => some (.returned m.retVal, m)
  | .suspend e onReturn, m =>
    match m.inputs with
    | .resume mode v :: inputs =>
      let m := { m.log (.yielded e mode v) with inputs, retVal := v }
      match mode with
      | .return => run fuel onReturn m
      | .throw => some (.thrown 0, m)
      | .next => some (.normal, m)
    | _ => none
  | .delegate e finalizers, m =>
    andThen (m.perform (.operation e)) (delegating e (run fuel finalizers) fuel .next none)

/-- The suspension points of code that stand for a `yield`, with the code for a return. -/
def Code.suspensions : Code → List (ℕ × Code)
  | .skip | .operation _ | .branch _ | .throw | .iteratorClose _ | .returnRetVal => []
  | .seq first second => first.suspensions ++ second.suspensions
  | .condition _ ifTrue ifFalse => ifTrue.suspensions ++ ifFalse.suspensions
  | .loop body => body.suspensions
  | .label code _ => code.suspensions
  | .tryRange block handler => block.suspensions ++ handler.suspensions
  | .inlineFinally _ code => code.suspensions
  | .returnValue _ finalizers => finalizers.suspensions
  | .suspend e onReturn => (e, onReturn) :: onReturn.suspensions
  | .delegate _ finalizers => finalizers.suspensions

/-- The last value that was put into `retVal`. -/
def received (v : V) : List (Event V) → V
  | [] => v
  | .yielded _ _ v' :: trace => received v' trace
  | .delegated _ object :: trace => received object trace
  | .operation _ :: trace | .closed _ :: trace => received v trace

end ArkTs2abc.Ts2panda.Generator
