import JsonDom.Model.Base

/-!
# `CharBag.c`

A character bag: a root leaf inside the bag and a chain of leaves from `malloc`. A leaf pointer of
the source is `none` for `&charBag->rootLeaf` and `some a` for the leaf at `a`; the `next` fields
never point to the root leaf, so there `none` is `NULL`.

The loops over the chain run with the number of cells as fuel: on a chain that does not end they
stop in `Halt.timeout`.
-/

namespace JsonDom

structure CharBag where
  rootLeaf : CharBagLeaf
  curLeaf : Ptr
deriving DecidableEq, Repr

/-- A leaf after `memset(leaf, 0, sizeof(CharBagLeaf))`. -/
def zeroLeaf : CharBagLeaf := { buff := List.replicate cbLeafSize 0, indexNextChar := 0, next := none }

/-- `initialize_CharBag`. -/
def initializeCharBag : CharBag := { rootLeaf := zeroLeaf, curLeaf := none }

def getLeaf (charBag : CharBag) (p : Ptr) : M CharBagLeaf :=
  match p with
  | none => pure charBag.rootLeaf
  | some _ => do
    match ← load p with
    | .leaf l => pure l
    | _ => halt .badAccess

def putLeaf (charBag : CharBag) (p : Ptr) (l : CharBagLeaf) : M CharBag :=
  match p with
  | none => pure { charBag with rootLeaf := l }
  | some a => do
    store a (.leaf l)
    pure charBag

/-- `leaf->buff[leaf->index_next_char] = c; ++leaf->index_next_char;` -/
def saveChar (charBag : CharBag) (p : Ptr) (charToSave : UInt8) : M CharBag := do
  let l ← getLeaf charBag p
  if l.indexNextChar < cbLeafSize then
    putLeaf charBag p
      { l with buff := l.buff.set l.indexNextChar charToSave, indexNextChar := l.indexNextChar + 1 }
  else halt .badAccess

/-- `add_char_to_bag`. -/
def addCharToBag (charBag : CharBag) (charToSave : UInt8) : M (Bool × CharBag) := do
  let leafForSaving ← getLeaf charBag charBag.curLeaf
  if cbLeafSize ≤ leafForSaving.indexNextChar then do
    let new ← malloc (.leaf zeroLeaf)
    let charBag ← putLeaf charBag charBag.curLeaf { leafForSaving with next := new }
    if new.isSome then do
      let charBag ← saveChar { charBag with curLeaf := new } new charToSave
      pure (true, charBag)
    else pure (false, charBag)
  else do
    let charBag ← saveChar charBag charBag.curLeaf charToSave
    pure (true, charBag)

/-- Pass 1 of `char_bag_to_string`, from the leaf `l` on. -/
def countChars (charBag : CharBag) : Nat → CharBagLeaf → M Nat
  | 0, _ => halt .timeout
  | fuel + 1, l =>
    match l.next with
    | none => pure l.indexNextChar
    | some a => do
      let next ← getLeaf charBag (some a)
      let n ← countChars charBag fuel next
      pure (l.indexNextChar + n)

/-- Pass 2 of `char_bag_to_string`: what the `memcpy`s write, from the leaf `l` on. -/
def copyChars (charBag : CharBag) : Nat → CharBagLeaf → M Bytes
  | 0, _ => halt .timeout
  | fuel + 1, l =>
    match l.next with
    | none => pure (l.buff.take l.indexNextChar)
    | some a => do
      let next ← getLeaf charBag (some a)
      let s ← copyChars charBag fuel next
      pure (l.buff.take l.indexNextChar ++ s)

/-- `char_bag_to_string` of a bag with fewer characters than an `int` can count; the result is
`*string_out`, `none` where it returns false. Of any bag it is `Exact.charBagToString`. -/
def charBagToString (charBag : CharBag) : M Ptr := do
  let charCount ← fun w => countChars charBag (w.heap.size + 1) charBag.rootLeaf w
  let buff ← malloc (.text (List.replicate (charCount + 1) 0))
  match buff with
  | none => pure none
  | some a => do
    let s ← fun w => copyChars charBag (w.heap.size + 1) charBag.rootLeaf w
    cAssert (s.length == charCount)
    store a (.text (s ++ [0]))
    pure (some a)

/-- The loop of `char_bag_cleanup`: `next` is `charBag->rootLeaf.next`. -/
def charBagCleanup.run : Nat → Ptr → M Unit
  | _, none => pure ()
  | 0, some _ => halt .timeout
  | fuel + 1, some a => do
    match ← load (some a) with
    | .leaf leafToDelete => do
      free (some a)
      charBagCleanup.run fuel leafToDelete.next
    | _ => halt .badAccess

/-- `char_bag_cleanup`. -/
def charBagCleanup (charBag : CharBag) : M CharBag := do
  fun w => charBagCleanup.run w.heap.size charBag.rootLeaf.next w
  pure { charBag with rootLeaf := { charBag.rootLeaf with next := none } }

end JsonDom
