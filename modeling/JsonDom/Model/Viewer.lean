import JsonDom.Model.Access
import JsonDom.Model.Parser
import JsonDom.Model.Print
import JsonDom.Model.Value

/-!
# `test_getrel.c`: a walk through a document

The keystrokes are an argument: behind the last one the program waits. `junk n` is what a block of `n` bytes
holds that `malloc` returns. The result of the walk, which the source has no use for, is the node it ends at.
-/

namespace JsonDom

/-- `KEYUP`. -/
def keyUp : Bytes := cs "\x1bOA"

/-- `KEYDOWN`. -/
def keyDown : Bytes := cs "\x1bOB"

/-- `KEYRIGHT`. -/
def keyRight : Bytes := cs "\x1bOC"

/-- `KEYLEFT`. -/
def keyLeft : Bytes := cs "\x1bOD"

/-- A detail of a node, in color, and the end of its line. -/
def detail (label value : Bytes) : Bytes := label ++ cs "\x1b[35;1m" ++ value ++ cs "\x1b[39;22m\n"

/-- `print_node_details`. -/
def printNodeDetails (junk : Nat → Bytes) (node : Ptr) : M Unit := do
  if node.isSome then do
    let type ← jdIdName node
    printf (detail (cs "Type:  ") type)
    let len ← jdNodeValueLength node
    if len ≠ 0 then do
      let buffer ← malloc (.text (junk (len % 18446744073709551616).toNat))
      if buffer.isSome then do
        let _ ← jdNodeValue node buffer len
        let value ← getString buffer
        printf (detail (cs "Value: ") value)
        free buffer

/-- The kin of a node. -/
structure Kin where
  parent : Ptr
  nextSib : Ptr
  firstChild : Ptr
  prevSib : Ptr

/-- The map of the directions there is a node in. -/
def contextMap (up right down left : Bool) : Bytes :=
  let angle (b : Bool) (c : Char) : Bytes := [if b then ch c else ch ' ']
  let bgcol := cs "\x1b[48;5;236m"
  let bgoff := cs "\x1b[49m"
  cs "Context map: angles point to available nodes.\n" ++
    (cs "   " ++ bgcol ++ cs "   " ++ angle up '^' ++ cs "   " ++ bgoff ++ cs "\n") ++
    (cs "   " ++ bgcol ++ angle left '<' ++ cs "  *  " ++ angle right '>' ++ bgoff ++ cs "\n") ++
    (cs "   " ++ bgcol ++ cs "   " ++ angle down 'v' ++ cs "   " ++ bgoff ++ cs "\n")

def clearScreen : Bytes := cs "\x1b[2J\x1b[H"

def usage : Bytes := cs "\nUse the arrow keys to move; type \x27q\x27 to quit.\n"

/-- The body of the outer loop of `test_getrel` up to the wait for a key. -/
def drawScreen (junk : Nat → Bytes) (node : Ptr) : M Kin := do
  let parent ← jdGetRelation node 0
  let nextSib ← jdGetRelation node 1
  let firstChild ← jdGetRelation node 2
  let prevSib ← jdGetRelation node 3
  printf (clearScreen ++ contextMap parent.isSome nextSib.isSome firstChild.isSome prevSib.isSome)
  printNodeDetails junk node
  printf usage
  pure ⟨parent, nextSib, firstChild, prevSib⟩

/-- The node a key leads to. -/
def Kin.rel (kin : Kin) (key : Bytes) : Ptr :=
  if key = keyUp ∧ kin.parent.isSome then kin.parent
  else if key = keyRight then kin.nextSib
  else if key = keyDown then kin.firstChild
  else if key = keyLeft then kin.prevSib
  else none

/-- The two loops of `test_getrel` over the keys: a new screen where a key leads to a node. -/
def testGetrel.loop (junk : Nat → Bytes) : List Bytes → Ptr → Kin → M Ptr
  | [], node, _ => pure node
  | key :: keys, node, kin =>
    if key = cs "q" then pure node
    else if (kin.rel key).isSome then do
      let kin' ← drawScreen junk (kin.rel key)
      testGetrel.loop junk keys (kin.rel key) kin'
    else testGetrel.loop junk keys node kin

/-- `test_getrel`. -/
def testGetrel (junk : Nat → Bytes) (node : Ptr) (keys : List Bytes) : M Ptr := do
  let kin ← drawScreen junk node
  testGetrel.loop junk keys node kin

/-- `open_json_file` with `test_getrel`; `opened` is the file, if it can be opened, and `answer` what
`getchar` returns. -/
def openJsonFile (fuel : Nat) (junk : Nat → Bytes) (filename : Bytes) (opened : Bool) (answer : Int)
    (keys : List Bytes) : M Unit := do
  if opened then do
    -- `jd_ParseError pe = {0}`
    modify fun w => { w with pe := { charLoc := 0, message := none } }
    let (ok, node) ← jdParseFile fuel
    if ok then do
      jdSerialize fuel 1 node
      printf (cs "\nPress any key to start examining nodes.\n")
      if answer ≠ (ch 'q').toNat then do
        let _ ← testGetrel junk node keys
      jdDestroy node
    else do
      match (← get).pe.message with
      | some message =>
        printf (cs "Failed to parse \x27" ++ filename ++ cs "\x27: \x27" ++ cs message ++ cs "\x27\n")
      | none => halt .nullDeref
  else printf (cs "Failed to open file \x27" ++ filename ++ cs "\x27\n")

end JsonDom
