import JsonDom.Model.Access
import JsonDom.Proof.Memory

/-!
# The accessors on a node in memory
-/

namespace JsonDom

open Lib

variable {w : World} {x : Addr} {n : JdNode}

theorem getRelation_run (hn : w.heap.get? x = some (.node n)) {r : Nat} (hr : r ≤ 4) {q : Ptr}
    (hq : n.link r = q) : jdGetRelation (some x) r w = .ok (q, w) := by
  unfold jdGetRelation
  rw [if_pos (by simpa using hr), M.bind_ok (getNode_run w hn), hq]
  rfl

/-- A getter is `jd_get_relation` with the relation of its field. -/
theorem getRelative_eq {field : JdNode → Ptr} {r : Nat} (hr : r ≤ 4) (hfield : ∀ n : JdNode, n.link r = field n) :
    getRelative field = (jdGetRelation · r) := by
  funext node
  unfold getRelative jdGetRelation
  cases node with
  | none => rfl
  | some x =>
    rw [if_pos Option.isSome_some, if_pos (show (some x).isSome && decide (r ≤ 4) by simpa using hr)]
    congr 1
    funext n
    rw [hfield]
    cases field n <;> rfl

theorem parent_eq : Getter.parent = (jdGetRelation · 0) := getRelative_eq (by decide) fun _ => rfl

theorem nextSibling_eq : Getter.nextSibling = (jdGetRelation · 1) := getRelative_eq (by decide) fun _ => rfl

theorem firstChild_eq : Getter.firstChild = (jdGetRelation · 2) := getRelative_eq (by decide) fun _ => rfl

theorem prevSibling_eq : Getter.prevSibling = (jdGetRelation · 3) := getRelative_eq (by decide) fun _ => rfl

theorem lastChild_eq : Getter.lastChild = (jdGetRelation · 4) := getRelative_eq (by decide) fun _ => rfl

theorem idType_run (hn : w.heap.get? x = some (.node n)) :
    jdIdType (some x) w = .ok ((n.type.toNat : Int), w) := by
  unfold jdIdType
  rw [if_pos Option.isSome_some, M.bind_ok (getNode_run w hn)]
  rfl

theorem idName_run (hn : w.heap.get? x = some (.node n)) :
    jdIdName (some x) w = .ok (typeNames n.type, w) := by
  unfold jdIdName
  rw [if_pos Option.isSome_some, M.bind_ok (getNode_run w hn)]
  rfl

theorem genericValue_run (hn : w.heap.get? x = some (.node n)) :
    jdGenericValue (some x) w = .ok (n.payload, w) := by
  unfold jdGenericValue
  rw [if_pos Option.isSome_some, M.bind_ok (getNode_run w hn)]
  rfl

end JsonDom
