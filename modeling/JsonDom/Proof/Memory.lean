import Mathlib.Logic.Function.Basic
import JsonDom.Model.Node
import JsonDom.Spec.Tree

/-!
# Running the memory operations

What each operation of the model does on a world where it is defined (`getNode_run`,
`modifyNode_run`, …). `Relinked h h' ℓ`: the heap `h'` is `h` with other links.
-/

namespace JsonDom

open Lib

variable {a : Addr}

theorem M.run_bind {α β : Type} (x : M α) (f : α → M β) (w : World) :
    (x >>= f) w = match x w with
      | .ok (a, w') => f a w'
      | .error e => .error e := by
  cases h : x w with
  | error e => rw [M.bind_error h]
  | ok p => rw [M.bind_ok h]

/-! ## Single operations -/

theorem cAssert_run {b : Bool} (h : b = true) (w : World) : cAssert b w = .ok ((), w) := by
  rw [h]
  rfl

theorem load_run (w : World) {c : Cell} (h : w.heap.get? a = some c) : load (some a) w = .ok (c, w) := by
  simp only [load, h]

theorem store_run (w : World) {c : Cell} (h : w.heap.get? a = some c) (c' : Cell) :
    store a c' w = .ok ((), { w with heap := w.heap.put a c' }) := by
  simp only [store, h, Option.isSome_some, if_true]

theorem free_run (w : World) {c : Cell} (h : w.heap.get? a = some c) :
    free (some a) w = .ok ((), { w with heap := w.heap.release a }) := by
  simp only [free, h, Option.isSome_some, if_true]

theorem free_none (w : World) : free none w = .ok ((), w) := rfl

theorem malloc_run (w : World) (h : w.oracle w.mallocs = true) (c : Cell) :
    malloc c w = .ok (some w.heap.size,
      { w with heap := w.heap.alloc c, mallocs := w.mallocs + 1 }) := by
  simp only [malloc, h, if_true]

theorem malloc_fail (w : World) (h : w.oracle w.mallocs = false) (c : Cell) :
    malloc c w = .ok (none, { w with mallocs := w.mallocs + 1 }) := by
  simp only [malloc, h, Bool.false_eq_true, if_false]

theorem getNode_run (w : World) {n : JdNode} (h : w.heap.get? a = some (.node n)) :
    getNode (some a) w = .ok (n, w) := by
  rw [getNode, M.bind_ok (load_run w h)]
  rfl

theorem modifyNode_run (w : World) {n : JdNode} (h : w.heap.get? a = some (.node n)) (f : JdNode → JdNode) :
    modifyNode (some a) f w = .ok ((), { w with heap := w.heap.put a (.node (f n)) }) := by
  rw [modifyNode, M.bind_ok (getNode_run w h)]
  exact store_run w h _

theorem getString_run (w : World) {block : Bytes} (h : w.heap.get? a = some (.text block))
    (h0 : 0 ∈ block) : getString (some a) w = .ok (block.takeWhile (· ≠ 0), w) := by
  rw [getString, M.bind_ok (load_run w h)]
  dsimp only
  rw [if_pos (List.contains_iff_mem.2 h0)]
  rfl

theorem addInt_run {a b : Int} (hlow : -intMax - 1 ≤ a + b) (hhigh : a + b ≤ intMax) (w : World) :
    addInt a b w = .ok (a + b, w) := by
  unfold addInt
  rw [if_pos ⟨hlow, hhigh⟩]
  rfl

/-! ## Links -/

def JdNode.withLinks (n : JdNode) (k : Links) : JdNode :=
  { n with
    parent := k.parent, nextSibling := k.next, firstChild := k.first, prevSibling := k.prev,
    lastChild := k.last }

/-- A cell with other links, if it is a node. -/
def Cell.relink (k : Option Links) : Cell → Cell
  | .node n => .node (k.elim n n.withLinks)
  | c => c

theorem links_of {h : Store Cell} {n : JdNode} (ha : h.get? a = some (.node n)) :
    links h a = some n.links := by
  rw [links, ha]

theorem payloadOf_node {h : Store Cell} {n : JdNode} (ha : h.get? a = some (.node n)) :
    payloadOf h a = n.payload := by
  rw [payloadOf, ha]

theorem links_some {h : Store Cell} {k : Links} (ha : links h a = some k) :
    ∃ n, h.get? a = some (.node n) ∧ n.links = k := by
  unfold links at ha
  split at ha
  · next n hn => exact ⟨n, hn, Option.some.inj ha⟩
  · cases ha

theorem links_congr {h h' : Store Cell} {x : Addr} (hx : h'.get? x = h.get? x) :
    links h' x = links h x := by
  rw [links, links, hx]

/-- The heap `h'` is `h` with the links `ℓ`. -/
structure Relinked (h h' : Store Cell) (ℓ : Addr → Option Links) : Prop where
  size : h'.size = h.size
  get : ∀ x, h'.get? x = (h.get? x).map (Cell.relink (ℓ x))

namespace Relinked

variable {h h' : Store Cell} {ℓ ℓ' : Addr → Option Links}

theorem refl (h : Store Cell) : Relinked h h (links h) := by
  refine ⟨rfl, fun x => ?_⟩
  unfold links
  rcases h.get? x with _ | c
  · rfl
  · cases c <;> rfl

theorem congr (hr : Relinked h h' ℓ) (hl : ∀ x, ℓ' x = ℓ x) : Relinked h h' ℓ' :=
  ⟨hr.size, fun x => by rw [hl x, hr.get x]⟩

theorem node (hr : Relinked h h' ℓ) {n : JdNode} {k : Links} (ha : h.get? a = some (.node n))
    (hk : ℓ a = some k) : h'.get? a = some (.node (n.withLinks k)) := by
  rw [hr.get, ha, hk]
  rfl

/-- Where the links are the old ones nothing changed. -/
theorem frame (hr : Relinked h h' ℓ) {x : Addr} (hx : ℓ x = links h x) : h'.get? x = h.get? x := by
  rw [hr.get, hx, ← (refl h).get]

/-- The links of the new heap. -/
theorem links_eq (hr : Relinked h h' ℓ) {x : Addr} (hx : (ℓ x).isSome = (links h x).isSome) :
    links h' x = ℓ x := by
  unfold links at hx ⊢
  rw [hr.get]
  have hnone : (ℓ x).isSome = false → none = ℓ x := fun h => (Option.isNone_iff_eq_none.1 (by simpa using h)).symm
  rcases hc : h.get? x with _ | c <;> rw [hc] at hx
  · exact hnone hx
  · cases c with
    | node n =>
      obtain ⟨k, hk⟩ := Option.isSome_iff_exists.1 hx
      rw [hk]
      rfl
    | text | leaf | var => exact hnone hx

/-- Assigning to the links of a node. -/
theorem modify (hr : Relinked h h' ℓ) (w : World) {n : JdNode} {k : Links} (f : JdNode → JdNode)
    (g : Links → Links) (hn : h.get? a = some (.node n)) (hk : ℓ a = some k)
    (hf : f (n.withLinks k) = n.withLinks (g k)) :
    ∃ h'', modifyNode (some a) f { w with heap := h' } = .ok ((), { w with heap := h'' }) ∧
      Relinked h h'' (Function.update ℓ a (some (g k))) := by
  refine ⟨_, modifyNode_run { w with heap := h' } (hr.node hn hk) f, by simp [hr.size], fun x => ?_⟩
  rw [Store.get?_put (hr.node hn hk)]
  by_cases hx : x = a
  · rw [if_pos hx, hx, hn, Function.update_self, hf]
    rfl
  · rw [if_neg hx, Function.update_of_ne hx, hr.get]

/-- Nothing is allocated or released. -/
theorem live_eq (hr : Relinked h h' ℓ) : h'.live = h.live :=
  Store.live_congr fun x => by rw [hr.get, Option.isSome_map]

theorem stays (hr : Relinked h h' ℓ) : Stays h h' where
  node {x n} hx := by
    refine ⟨(ℓ x).elim n n.withLinks, by rw [hr.get, hx]; rfl, ?_⟩
    cases ℓ x <;> exact ⟨rfl, rfl⟩
  text {x block} hx := by
    rw [hr.get, hx]
    rfl

end Relinked

end JsonDom
