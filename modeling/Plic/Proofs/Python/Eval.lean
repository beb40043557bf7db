import Mathlib
import Plic.Python.Expr

/-!
# How Python evaluates an expression

A value carries its type, and what is done with it depends on that type: `+` adds
numbers and joins strings or lists, and fails for any other pair. Integers,
strings and lists are computed here. Fractions are of some type `φ` whose
arithmetic is left open, as is the text of fractions and lists: a `Library` is
any choice of these, and what is proved of evaluation holds for all of them.

The functions that act on input, files and a database stand in statements of
their own and have no value here.

Main definitions:

* `Library.shown` — the string that `_pli_str` gives for a value.
* `Expr.eval` — the value of an expression, or why it has none.
-/

namespace Plic.Python

/-! ## Values -/

/-- The values that variables of generated code can hold. -/
inductive Value (φ : Type) where
  | int (n : Int)
  | float (x : φ)
  | str (s : String)
  | none
  | list (items : List (Value φ))

/-- Why there is no value. -/
inductive Failure where
  /-- A name that nothing is bound to. -/
  | name
  /-- A value of a type that does not belong there. -/
  | type
  /-- A search in something that is not a string. -/
  | attribute
  | index
  | value
  /-- A division by zero, or a number too large for a fraction. -/
  | arithmetic
  /-- A function that acts, where only a value is asked for. -/
  | action
deriving DecidableEq

/-- What is left to Python's own library. -/
structure Library (φ : Type) where
  /-- The fraction of an integer, unless it is too large. -/
  ofInt : Int → Option φ
  neg : φ → φ
  add : φ → φ → φ
  sub : φ → φ → φ
  mul : φ → φ → φ
  div : φ → φ → Option φ
  mod : φ → φ → Option φ
  /-- The quotient of two integers, the second of them not 0. -/
  quotient : Int → Int → Option φ
  /-- The integer part of a fraction. -/
  truncate : φ → Option Int
  floatText : φ → String
  listText : List (Value φ) → String
  /-- The integer that a text spells. -/
  parse : String → Option Int
  /-- A text with the value put in at its marks, which is what `%` means for texts. -/
  format : String → Value φ → Option String

variable {φ : Type}

/-- A value, or a failure where there is none. -/
def orFail (failure : Failure) (v : Option (Value φ)) : Except Failure (Value φ) :=
  match v with
  | some v => .ok v
  | none => .error failure

/-! ## Operators -/

namespace Library

variable (lib : Library φ)

/-- An operator on two integers. A remainder has the sign of the divisor. -/
def integers (op : Operator) (a b : Int) : Except Failure (Value φ) :=
  match op with
  | .add => .ok (.int (a + b))
  | .sub => .ok (.int (a - b))
  | .mul => .ok (.int (a * b))
  | .div => if b = 0 then .error .arithmetic else orFail .arithmetic ((lib.quotient a b).map .float)
  | .mod => if b = 0 then .error .arithmetic else .ok (.int (a.fmod b))

/-- An operator on two fractions. -/
def fractions (op : Operator) (x y : φ) : Except Failure (Value φ) :=
  match op with
  | .add => .ok (.float (lib.add x y))
  | .sub => .ok (.float (lib.sub x y))
  | .mul => .ok (.float (lib.mul x y))
  | .div => orFail .arithmetic ((lib.div x y).map .float)
  | .mod => orFail .arithmetic ((lib.mod x y).map .float)

/-- An operator on two values. A number beside a fraction is taken for one. -/
def operate (op : Operator) (u v : Value φ) : Except Failure (Value φ) :=
  match op, u, v with
  | .add, .str a, .str b => .ok (.str (a ++ b))
  | .add, .list as, .list bs => .ok (.list (as ++ bs))
  | .mul, .str a, .int n => .ok (.str (String.join (List.replicate n.toNat a)))
  | .mul, .int n, .str a => .ok (.str (String.join (List.replicate n.toNat a)))
  | .mul, .list as, .int n => .ok (.list (List.replicate n.toNat as).flatten)
  | .mul, .int n, .list as => .ok (.list (List.replicate n.toNat as).flatten)
  | .mod, .str a, v => orFail .type ((lib.format a v).map .str)
  | op, .int a, .int b => lib.integers op a b
  | op, .float x, .float y => lib.fractions op x y
  | op, .int a, .float y =>
    match lib.ofInt a with
    | some x => lib.fractions op x y
    | none => .error .arithmetic
  | op, .float x, .int b =>
    match lib.ofInt b with
    | some y => lib.fractions op x y
    | none => .error .arithmetic
  | _, _, _ => .error .type

/-- A value with its sign changed. -/
def negate : Value φ → Except Failure (Value φ)
  | .int n => .ok (.int (-n))
  | .float x => .ok (.float (lib.neg x))
  | _ => .error .type

end Library

/-! ## Sequences -/

/-- The place in a sequence that a bound of a slice means: a negative one counts
from the end, and none lies outside of the sequence. -/
def sliceBound (length : Nat) (i : Int) : Nat :=
  if i < 0 then (i + length).toNat else min i.toNat length

/-- The items from one bound to before another. -/
def sliceList {α : Type} (items : List α) (low high : Option Int) : List α :=
  let start := low.elim 0 (sliceBound items.length)
  let stop := high.elim items.length (sliceBound items.length)
  (items.drop start).take (stop - start)

/-- The item at an index; a negative one counts from the end. -/
def itemAt {α : Type} (items : List α) (i : Int) : Option α :=
  if 0 ≤ i then items[i.toNat]?
  else if 0 ≤ i + items.length then items[(i + items.length).toNat]?
  else none

/-- Where a part begins in a text, counted from 0, or -1. -/
def findIn (part : List Char) : List Char → Int
  | [] => if part = [] then 0 else -1
  | c :: cs =>
    if part.isPrefixOf (c :: cs) then 0
    else if findIn part cs < 0 then -1
    else findIn part cs + 1

namespace Value

/-- A bound of a slice, which may be absent. -/
def bound : Value φ → Except Failure (Option Int)
  | .int n => .ok (some n)
  | .none => .ok Option.none
  | _ => .error .type

/-- The part of a string or list between two bounds. -/
def slice (low high : Option Int) : Value φ → Except Failure (Value φ)
  | .str s => .ok (.str (String.ofList (sliceList s.toList low high)))
  | .list items => .ok (.list (sliceList items low high))
  | _ => .error .type

/-- The item of a string or list at an index. -/
def item : Value φ → Value φ → Except Failure (Value φ)
  | .str s, .int i => orFail .index ((itemAt s.toList i).map fun c => .str (String.singleton c))
  | .list items, .int i => orFail .index (itemAt items i)
  | _, _ => .error .type

/-- Where the value begins in a text. -/
def foundIn (s : String) : Value φ → Except Failure (Value φ)
  | .str part => .ok (.int (findIn part.toList s.toList))
  | _ => .error .type

end Value

/-! ## Functions -/

namespace Library

variable (lib : Library φ)

/-- What `str` makes of a value. -/
def text : Value φ → String
  | .int n => toString n
  | .float x => lib.floatText x
  | .str s => s
  | .none => "None"
  | .list items => lib.listText items

/-- The string that stands for a value: its text, and nothing for `None`. -/
def shown : Value φ → String
  | .none => ""
  | v => lib.text v

@[simp] theorem shown_str (s : String) : lib.shown (.str s) = s := rfl

/-- What `int` makes of a value: fractions are cut off, texts are read, and anything else fails. -/
def toInt : Value φ → Except Failure (Value φ)
  | .int n => .ok (.int n)
  | .float x => orFail .value ((lib.truncate x).map .int)
  | .str s => orFail .value ((lib.parse s).map .int)
  | _ => .error .type

end Library

/-- What evaluation depends on: the values of the names, and the files of which
a `READ` has met the end. -/
structure Env (φ : Type) where
  value : String → Option (Value φ)
  atEnd : String → Bool

/-- What a function gives. Those that act outside have no value here. -/
def Library.call (lib : Library φ) (env : Env φ) :
    Function → List (Value φ) → Except Failure (Value φ)
  | .str, [v] => .ok (.str (lib.text v))
  | .text, [v] => .ok (.str (lib.shown v))
  | .int, [v] => lib.toInt v
  | .endfile, [.str file] => .ok (.int (if env.atEnd file then 1 else 0))
  | .endfile, [_] => .error .type
  | .str, _ | .text, _ | .int, _ | .endfile, _ => .error .type
  | _, _ => .error .action

/-! ## Evaluation -/

mutual

/-- The value of an expression. Its parts are evaluated from left to right. -/
@[simp] def Expr.eval (lib : Library φ) (env : Env φ) : Expr → Except Failure (Value φ)
  | .int n => .ok (.int n)
  | .str s => .ok (.str s)
  | .name id => orFail .name (env.value id)
  | .neg e => do lib.negate (← e.eval lib env)
  | .binary op l r => do
    let u ← l.eval lib env
    let v ← r.eval lib env
    lib.operate op u v
  | .index b i => do
    let u ← b.eval lib env
    let v ← i.eval lib env
    u.item v
  | .sliceFrom b lo => do
    let u ← b.eval lib env
    let low ← (← lo.eval lib env).bound
    u.slice low none
  | .slice b lo hi => do
    let u ← b.eval lib env
    let v ← lo.eval lib env
    let w ← hi.eval lib env
    let low ← v.bound
    let high ← w.bound
    u.slice low high
  | .call f args => do lib.call env f (← evalAll lib env args)
  | .find t p => do
    -- only a string can be searched, which is noticed before the part is evaluated
    match ← t.eval lib env with
    | .str s => (← p.eval lib env).foundIn s
    | _ => .error .attribute
  | .single e => do return .list [← e.eval lib env]
  | .replicate e n => do
    match ← n.eval lib env with
    | .int k =>
      -- the item is computed once for each place, so not at all if there is none
      if k ≤ 0 then return .list []
      else return .list (List.replicate k.toNat (← e.eval lib env))
    | _ => .error .type

/-- The values of expressions, from left to right. -/
@[simp] def evalAll (lib : Library φ) (env : Env φ) : List Expr → Except Failure (List (Value φ))
  | [] => .ok []
  | e :: es => do
    let v ← e.eval lib env
    let vs ← evalAll lib env es
    return v :: vs

end

end Plic.Python
