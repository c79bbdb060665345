import Pepper.Cmtgkr.Layer

/-!
# Worksheets and circuit primitives

The words of a worksheet file as `tokenizer.h` yields them, the texts of its constants,
and the types of `pws_primitives.h`: gates described by their operation and the positions
below, and variables and constants with the gates they are bound to, one for each layer
from `minLayer` to `maxLayer`.

`Maybe` is `maybe.h`, whose `invalidate` clears only what is already invalid
(`Maybe.isValid_invalidate`).
-/

set_option autoImplicit false

open Pepper.Cmtgkr.Layer

namespace Pepper.Cmtgkr.Pws

/-! ## Texts of constants -/

/-- The text of a constant, the key of `constMap` and `outConstants`. -/
abbrev Text := List Char

/-- `gmp_asprintf("%Zd")` and `ss << val`. -/
def Text.ofInt : ℤ → Text
  | .ofNat n => Nat.toDigits 10 n
  | .negSucc n => '-' :: Nat.toDigits 10 (n + 1)

/-- The digits of a number in base ten, if there are any and they all are. -/
def Text.digits : Text → Option ℕ
  | [] => none
  | c :: cs =>
      if (c :: cs).all Char.isDigit then
        some ((c :: cs).foldl (fun n d => 10 * n + (d.toNat - '0'.toNat)) 0)
      else none

/-- `mpz_set_str`, base ten; `none` when it returns `-1`. -/
def mpzSetStr : Text → Option ℤ
  | '-' :: cs => (Text.digits cs).map fun n => -(n : ℤ)
  | cs => (Text.digits cs).map fun n => (n : ℤ)

/-- `mpq_set_str`: an integer, or one over a denominator. -/
def mpqSetStr (text : Text) : Bool :=
  let den := text.dropWhile (· ≠ '/')
  (mpzSetStr (text.takeWhile (· ≠ '/'))).isSome &&
    (den.isEmpty || (Text.digits den.tail).isSome)

/-! ## Tokens -/

/-- `CVar::VarType`. -/
inductive VarType where
  | input
  | output
  | magic
  | temp
deriving DecidableEq, Repr

/-- The fixed words of a worksheet. `unknown` is any other, as on the lines the parser
skips. -/
inductive Word where
  | poly | lessThanInt | lessThanFloat | notEqual
  | slash | assign | plus | times | minus | leftParen | rightParen | polyEnd
  | bit0 | numBits | numNa | den0 | numNb | den | numDen
  | mlt | meq | mgt | m | x1 | x2 | y
  | unknown
deriving DecidableEq, Repr

/-- A token. `comment` is a `//` with the rest of its line. -/
inductive Token where
  | word (w : Word)
  | var (type : VarType) (name : ℕ)
  | const (text : Text)
  | comment
deriving DecidableEq, Repr

/-! ## Options -/

/-- `Maybe`. -/
structure Maybe (α : Type) where
  option : Option α
deriving DecidableEq, Repr

namespace Maybe

variable {α : Type}

/-- The constructor without a value. -/
def empty : Maybe α := ⟨none⟩

/-- `isValid`. -/
def isValid (m : Maybe α) : Bool := m.option.isSome

/-- `validate` with a value. -/
def validate (_ : Maybe α) (val : α) : Maybe α := ⟨some val⟩

/-- `invalidate`: guarded by `!isValid()`. -/
def invalidate (m : Maybe α) : Maybe α := if !m.isValid then ⟨none⟩ else m

/-- What was valid stays valid, with its value. -/
theorem isValid_invalidate (m : Maybe α) : m.invalidate = m := by
  obtain ⟨o⟩ := m
  cases o with
  | none => rfl
  | some a => rfl

end Maybe

/-! ## Gates -/

/-- `Primitive::PrimitiveType`. -/
inductive PrimitiveType where
  | constant
  | intermediate
  | inputOutput
deriving DecidableEq, Repr

/-- `Primitive`. -/
structure Primitive where
  pType : PrimitiveType
  idx : ℕ
deriving DecidableEq, Repr

/-- `isConstant`. -/
def Primitive.isConstant (p : Primitive) : Bool := p.pType == .constant

/-- `isInputOutput`. -/
def Primitive.isInputOutput (p : Primitive) : Bool := p.pType == .inputOutput

/-- `isVariable`. -/
def Primitive.isVariable (p : Primitive) : Bool := p.isInputOutput || p.pType == .intermediate

/-- `GatePosition`. -/
structure GatePosition where
  layer : ℕ
  name : ℕ
deriving DecidableEq, Repr

/-- `GateDescription::OpType`. -/
inductive OpType where
  | add
  | mul
  | divInt
  | constant
deriving DecidableEq, Repr

/-- `GateDescription`. -/
structure GateDescription where
  op : OpType
  pos : GatePosition
  in1 : ℕ
  in2 : ℕ
  boundPrimitive : Maybe Primitive
deriving DecidableEq, Repr

/-- `GateDescription::makeGate`: constants become additions. -/
def GateDescription.makeGate (g : GateDescription) : GateWiring :=
  match g.op with
  | .add => ⟨.add, g.in1, g.in2⟩
  | .mul => ⟨.mul, g.in1, g.in2⟩
  | .divInt => ⟨.divInt, g.in1, g.in2⟩
  | .constant => ⟨.add, g.in1, g.in2⟩

/-- `bind`. -/
def GateDescription.bind (g : GateDescription) (p : Primitive) : GateDescription :=
  { g with boundPrimitive := g.boundPrimitive.validate p }

/-- `unbind`. -/
def GateDescription.unbind (g : GateDescription) : GateDescription :=
  { g with boundPrimitive := g.boundPrimitive.invalidate }

/-- `LayerDescription`. -/
abbrev LayerDescription := List GateDescription

/-- `CircuitDescription`, the input layer first. -/
abbrev CircuitDescription := List LayerDescription

/-! ## Variables and constants -/

/-- `CPrimitive`. The layers are read only once the primitive is bound. -/
structure CPrimitive where
  minLayer : ℕ
  maxLayer : ℕ
  gateIndex : List ℕ
deriving DecidableEq, Repr

namespace CPrimitive

/-- The constructor. -/
def new : CPrimitive := ⟨0, 0, []⟩

/-- `isBound`. -/
def isBound (p : CPrimitive) : Bool := !p.gateIndex.isEmpty

/-- `bind`. -/
def bind (_ : CPrimitive) (gate : GatePosition) : CPrimitive :=
  { minLayer := gate.layer, maxLayer := gate.layer, gateIndex := [gate.name] }

/-- The last lines of the loop in `promotePrimitive`. -/
def push (p : CPrimitive) (name : ℕ) : CPrimitive :=
  { p with gateIndex := p.gateIndex ++ [name], maxLayer := p.maxLayer + 1 }

end CPrimitive

/-- `CConst`. -/
structure CConst extends CPrimitive where
  value : Text
  name : ℕ
deriving DecidableEq, Repr

/-- `CConst::toPrimitive`. -/
def CConst.toPrimitive (c : CConst) : Primitive := ⟨.constant, c.name⟩

/-- `CVar`. -/
structure CVar extends CPrimitive where
  varType : VarType
  name : ℕ
deriving DecidableEq, Repr

namespace CVar

/-- `isInput`. -/
def isInput (v : CVar) : Bool := v.varType == .input

/-- `isOutput`. -/
def isOutput (v : CVar) : Bool := v.varType == .output

/-- `isMagic`. -/
def isMagic (v : CVar) : Bool := v.varType == .magic

/-- `isIO`. -/
def isIO (v : CVar) : Bool := v.isInput || v.isOutput

/-- `makeMagic`. -/
def makeMagic (v : CVar) : CVar := { v with varType := .magic }

/-- `CVar::toPrimitive`. -/
def toPrimitive (v : CVar) : Primitive :=
  if v.isIO then ⟨.inputOutput, v.name⟩ else ⟨.intermediate, v.name⟩

end CVar

/-! ## Ordered maps -/

section Maps

variable {α : Type}

/-- `std::map`, as the list of its entries in the order of the keys. -/
def mapSet (key : ℕ) (a : α) : List (ℕ × α) → List (ℕ × α)
  | [] => [(key, a)]
  | (k, b) :: m =>
      if key < k then (key, a) :: (k, b) :: m
      else if key = k then (k, a) :: m
      else (k, b) :: mapSet key a m

/-- The order of `std::string`. -/
def textLt : Text → Text → Bool
  | [], [] => false
  | [], _ :: _ => true
  | _ :: _, [] => false
  | a :: as, b :: bs => if a = b then textLt as bs else decide (a.toNat < b.toNat)

/-- `outConstants[text].push_back(name)`. -/
def mapPush (text : Text) (name : ℕ) : List (Text × List ℕ) → List (Text × List ℕ)
  | [] => [(text, [name])]
  | (t, names) :: m =>
      if text = t then (t, names ++ [name]) :: m
      else if textLt text t then (text, [name]) :: (t, names) :: m
      else (t, names) :: mapPush text name m

end Maps

/-! ## Operations on magic variables -/

/-- The operations of `magic_var_operation.h`. -/
inductive MagicVarOperation where
  | notEqual (m x1 x2 : GatePosition)
  | lessThanInt (ms ns : List GatePosition) (x1 x2 : GatePosition)
  | lessThanFloat (ms ns ds : List GatePosition) (x1 x2 : GatePosition)
deriving DecidableEq, Repr

end Pepper.Cmtgkr.Pws
