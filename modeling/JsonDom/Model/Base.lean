import JsonDom.Lib.Store

/-!
# The data the library works on, and the world it runs in

The records of `jsondom.h`, `CharBag.h` and `JReadString.h`, and the world a call runs in: the open
file, the caller's error record, the memory (`malloc` and `free` over one address space) and what
has been printed. A function of the source is a computation in `M`: it reads and changes the world
and may stop in a `Halt`: a failed `assert`, an access C leaves undefined, or fuel that ran out.

Out-parameters are passed in and handed back with the result. Addresses are numbers, `NULL` is
`none`. Whether the `k`-th allocation of a run succeeds is the oracle's `k`-th answer.
-/

namespace JsonDom

open Lib

/-! ## Characters -/

abbrev Bytes := List UInt8

/-- The byte of an ASCII character, as the source writes it. -/
def ch (c : Char) : UInt8 := c.toUInt8

/-- The bytes of an ASCII string literal. -/
def cs (s : String) : Bytes := s.toList.map ch

/-- `isspace` of the C locale. -/
def isspace (chr : UInt8) : Bool := chr == 32 || (9 ≤ chr && chr ≤ 13)

/-- `isdigit` of the C locale. -/
def isdigit (chr : UInt8) : Bool := 48 ≤ chr && chr ≤ 57

/-- `strchr(set, chr) != NULL`: the terminating NUL of `set` is one of its characters. -/
def strchr (set : Bytes) (chr : UInt8) : Bool := set.contains chr || chr == 0

/-! ## Records -/

abbrev Addr := Nat

abbrev Ptr := Option Addr

inductive JdType
  | jdNull | jdTrue | jdFalse | jdString | jdInteger | jdFloat | jdArray | jdProperty | jdObject
deriving DecidableEq, Repr

/-- The position of a type in the enumeration. -/
def JdType.toNat : JdType → Nat
  | .jdNull => 0
  | .jdTrue => 1
  | .jdFalse => 2
  | .jdString => 3
  | .jdInteger => 4
  | .jdFloat => 5
  | .jdArray => 6
  | .jdProperty => 7
  | .jdObject => 8

structure JdNode where
  parent : Ptr
  nextSibling : Ptr
  firstChild : Ptr
  prevSibling : Ptr
  lastChild : Ptr
  type : JdType
  payload : Ptr
deriving DecidableEq, Repr

structure JdParseError where
  charLoc : Int
  message : Option String
deriving DecidableEq, Repr

/-- `CB_LEAF_SIZE`. -/
def cbLeafSize : Nat := 50

structure CharBagLeaf where
  buff : Bytes
  indexNextChar : Nat
  next : Ptr
deriving DecidableEq, Repr

/-- A memory block: a node, a string's bytes with its NUL, a leaf of a character bag, or a pointer
variable of a caller. -/
inductive Cell
  | node (n : JdNode)
  | text (block : Bytes)
  | leaf (l : CharBagLeaf)
  | var (p : Ptr)
deriving DecidableEq, Repr

/-! ## The world -/

/-- What `read` answers behind the last byte, for ever: 0, or -1 with the buffer unchanged. -/
inductive Ending
  | eof | error
deriving DecidableEq, Repr

/-- The open file and the caller's error record. -/
structure Src where
  input : Bytes
  ending : Ending
  offset : Nat
  pe : JdParseError
deriving DecidableEq, Repr

structure World extends Src where
  heap : Store Cell
  oracle : Nat → Bool
  mallocs : Nat
  stdout : Bytes

inductive Halt
  | assertion | nullDeref | badAccess | overflow | timeout
deriving DecidableEq, Repr

abbrev M := StateT World (Except Halt)

def halt {α : Type} (h : Halt) : M α := throw h

theorem M.bind_ok {α β : Type} {x : M α} {f : α → M β} {w w' : World} {a : α}
    (h : x w = .ok (a, w')) : (x >>= f) w = f a w' := by
  show (x w >>= fun p => f p.1 p.2) = _
  rw [h]
  rfl

theorem M.bind_error {α β : Type} {x : M α} {f : α → M β} {w : World} {e : Halt}
    (h : x w = .error e) : (x >>= f) w = .error e := by
  show (x w >>= fun p => f p.1 p.2) = _
  rw [h]
  rfl

theorem M.pure_run {α : Type} (a : α) (w : World) : (pure a : M α) w = .ok (a, w) := rfl

/-- A computation that finishes does so through its first part. -/
theorem M.bind_eq_ok {α β : Type} {x : M α} {f : α → M β} {w w' : World} {b : β}
    (h : (x >>= f) w = .ok (b, w')) : ∃ a w1, x w = .ok (a, w1) ∧ f a w1 = .ok (b, w') := by
  cases hx : x w with
  | error e => rw [M.bind_error hx] at h; cases h
  | ok p => exact ⟨p.1, p.2, rfl, by rwa [M.bind_ok hx] at h⟩

/-! ## The file -/

/-- The result of `read(fh, &chr, 1)`: 1 with the byte read, 0, or -1. -/
inductive ReadRes
  | one (chr : UInt8)
  | zero
  | minusOne
deriving DecidableEq, Repr

def Src.read (s : Src) : ReadRes × Src :=
  match s.input with
  | chr :: rest => (.one chr, { s with input := rest, offset := s.offset + 1 })
  | [] => (if s.ending = .eof then .zero else .minusOne, s)

/-- `report_parse_error`: the offset is `lseek(fh, 0, SEEK_CUR)`, stored in an `int`. -/
def Src.report (s : Src) (message : String) : Src :=
  { s with pe := { charLoc := (BitVec.ofNat 32 s.offset).toInt, message := some message } }

def read : M ReadRes := fun w =>
  .ok (w.toSrc.read.1, { w with toSrc := w.toSrc.read.2 })

def reportParseError (message : String) : M Unit := fun w =>
  .ok ((), { w with toSrc := w.toSrc.report message })

/-! ## Memory -/

/-- `assert`. -/
def cAssert (b : Bool) : M Unit := if b then pure () else halt .assertion

/-- A block of memory, or `NULL` when the oracle says so. -/
def malloc (c : Cell) : M Ptr := fun w =>
  if w.oracle w.mallocs then
    .ok (some w.heap.size, { w with heap := w.heap.alloc c, mallocs := w.mallocs + 1 })
  else .ok (none, { w with mallocs := w.mallocs + 1 })

/-- Access through a pointer to a live cell. -/
def load (p : Ptr) : M Cell := fun w =>
  match p with
  | none => .error .nullDeref
  | some a =>
    match w.heap.get? a with
    | some c => .ok (c, w)
    | none => .error .badAccess

def store (a : Addr) (c : Cell) : M Unit := fun w =>
  if (w.heap.get? a).isSome then .ok ((), { w with heap := w.heap.put a c })
  else .error .badAccess

/-- `free` of a non-`NULL` pointer: the block must be live. -/
def free (p : Ptr) : M Unit := fun w =>
  match p with
  | none => .ok ((), w)
  | some a =>
    if (w.heap.get? a).isSome then .ok ((), { w with heap := w.heap.release a })
    else .error .badAccess

def getNode (p : Ptr) : M JdNode := do
  match ← load p with
  | .node n => pure n
  | _ => halt .badAccess

/-- Assignments to fields of `*p`. -/
def modifyNode (p : Ptr) (f : JdNode → JdNode) : M Unit := do
  let n ← getNode p
  store (p.getD 0) (.node (f n))

/-- The characters of the C string at `p`, up to its NUL. -/
def getString (p : Ptr) : M Bytes := do
  match ← load p with
  | .text block => if block.contains 0 then pure (block.takeWhile (· ≠ 0)) else halt .badAccess
  | _ => halt .badAccess

/-! ## `int` arithmetic -/

def intMax : Int := 2147483647

/-- `a + b` on `int`; overflow is undefined. -/
def addInt (a b : Int) : M Int :=
  if -intMax - 1 ≤ a + b ∧ a + b ≤ intMax then pure (a + b) else halt .overflow

end JsonDom
