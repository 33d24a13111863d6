import JsonDom.Model.Access
import JsonDom.Model.Parser
import JsonDom.Model.Print

/-!
# `test_basic.c`: the test of one file

`showPtr` is how `printf` shows a pointer. The error record of `test_individual_file` is not initialized: it
is whatever is in the world.
-/

namespace JsonDom

/-- `%d` of a number that is not negative, or of -1. -/
def decimal (n : Int) : Bytes := cs (toString n)

/-- `display_node`. -/
def displayNode (node : Ptr) (indent : Nat) : M Unit := do
  let sType ← jdIdName node
  let tType ← jdIdType node
  printf (List.replicate indent (ch ' ') ++ cs "Type \x27" ++ sType ++ cs "\x27 (" ++ decimal tType ++ cs ")\n")

/-- `test_node_tree`. -/
def testNodeTree (tree : Ptr) : M Unit := do
  printf (cs "Got to the test_node_tree, baby.\n")
  displayNode tree 4

/-- `names` and `rfunc` of `display_relation`. -/
def relationFunctions : List (Bytes × (Ptr → M Ptr)) :=
  [(cs "parent", Getter.parent), (cs "nextSibling", Getter.nextSibling), (cs "prevSibling", Getter.prevSibling),
    (cs "firstChild", Getter.firstChild), (cs "lastChild", Getter.lastChild)]

/-- `display_relation`. -/
def displayRelation (showPtr : Ptr → Bytes) (node : Ptr) (rel : Nat) : M Unit := do
  match relationFunctions[rel]? with
  | some (name, rfunc) => do
    printf (cs "For \x27" ++ name ++ cs "\x27, compare jd_get_relation and matched relation function:\n")
    let fromGetrel ← jdGetRelation node rel
    let fromFunc ← rfunc node
    if fromGetrel = fromFunc then printf (cs "Results matched (" ++ showPtr fromGetrel ++ cs ")!\n")
    else printf (cs "Results NOT MATCHED (" ++ showPtr fromGetrel ++ cs " vs " ++ showPtr fromFunc ++ cs ").\n")
  | none => halt .badAccess

/-- `test_get_relations`. -/
def testGetRelations (showPtr : Ptr → Bytes) (tree : Ptr) : M Unit :=
  [0, 1, 2, 3, 4].forM (displayRelation showPtr tree)

/-- `test_individual_file`; `opened` says whether the file can be opened. -/
def testIndividualFile (fuel : Nat) (showPtr : Ptr → Bytes) (filename : Bytes) (opened : Bool) : M Bool := do
  printf (cs "\n\nAbout to open file \x1b[32;1m" ++ filename ++ cs "\x1b[39;22m.\n")
  if opened then do
    let (ok, node) ← jdParseFile fuel
    if ok then do
      testNodeTree node
      testGetRelations showPtr node
      jdDestroy node
      pure true
    else pure false
  else do
    printf (cs "Failed to open file \x1b[33;31;1m" ++ filename ++ cs "\x1b[39;22m.\n")
    pure false

end JsonDom
