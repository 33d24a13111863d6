import JsonDom.Doc.Session
import JsonDom.Proof.Access

/-!
# Reading a document in memory

What the functions of `jsondom.c` that only look tell of a memory that holds a document: the relations lead
through the child lists in both directions, and the type and the value of a node are those of the document
(`access_exact`).
-/

namespace JsonDom

open Lib

variable {base : Addr → Option Cell} {h : Store Cell} {w : World} {D : Dom} {p x : Addr} {n : JdNode}

/-- `i` steps with `step` from where `start` leads. -/
def follow (start step : Ptr → M Ptr) (node : Ptr) : Nat → M Ptr
  | 0 => start node
  | i + 1 => do
    let p ← follow start step node i
    step p

/-- The reading functions tell what the document is, and change nothing. -/
structure Readable (w : World) (D : Dom) : Prop where
  forward : ∀ p ∈ D.forest.nodes, ∀ i,
    follow Getter.firstChild Getter.nextSibling (some p) i w = .ok ((D.forest.kids p)[i]?, w)
  backward : ∀ p ∈ D.forest.nodes, ∀ i,
    follow Getter.lastChild Getter.prevSibling (some p) i w = .ok ((D.forest.kids p).reverse[i]?, w)
  upward : ∀ x ∈ D.forest.nodes, Getter.parent (some x) w = .ok (D.forest.up x, w)
  type : ∀ x ∈ D.forest.nodes, jdIdType (some x) w = .ok (((D.type x).toNat : Int), w) ∧
    jdIdName (some x) w = .ok (typeNames (D.type x), w)
  value : ∀ x ∈ D.forest.nodes, ∃ q, jdGenericValue (some x) w = .ok (q, w) ∧
    match D.text x with
    | none => q = none
    | some s => ∃ b, q = some b ∧ w.heap.get? b = some (.text (s ++ [0]))

theorem Held.node (hh : Held base w.heap D) (hx : x ∈ D.forest.nodes) :
    ∃ n, w.heap.get? x = some (.node n) ∧ D.forest.links x = some n.links ∧ n.type = D.type x ∧
      Content w.heap x (D.type x) (D.text x) := by
  obtain ⟨h, hs, hh⟩ := hh
  obtain ⟨n, hn, ht⟩ := hh.node hx
  have hstays : Stays h w.heap := ⟨fun hn => ⟨_, hs.mine hn, rfl, rfl⟩, fun ht => hs.mine ht⟩
  exact ⟨n, hs.mine hn, by rw [← hh.represents x, links_of hn], ht, hstays.content (hh.content x hx)⟩

/-- Following one relation from where another one leads, through the list `xs`. -/
theorem follow_run {start step : Nat} {xs : List Addr} (hp : jdGetRelation (some p) start w = .ok (xs[0]?, w))
    (hx : ∀ i x, xs[i]? = some x → jdGetRelation (some x) step w = .ok (xs[i + 1]?, w)) (i : Nat) :
    follow (jdGetRelation · start) (jdGetRelation · step) (some p) i w = .ok (xs[i]?, w) := by
  induction i with
  | zero => exact hp
  | succ i ih =>
    unfold follow
    rw [M.bind_ok ih]
    cases hi : xs[i]? with
    | none =>
      rw [List.getElem?_eq_none (Nat.le_succ_of_le (List.getElem?_eq_none_iff.1 hi))]
      rfl
    | some x => exact hx i x hi

theorem Held.children (hh : Held base w.heap D) (hp : p ∈ D.forest.nodes) (i : Nat) :
    follow (jdGetRelation · 2) (jdGetRelation · 1) (some p) i w = .ok ((D.forest.kids p)[i]?, w) ∧
      follow (jdGetRelation · 4) (jdGetRelation · 3) (some p) i w = .ok ((D.forest.kids p).reverse[i]?, w) := by
  obtain ⟨n, hn, hl, -⟩ := hh.node hp
  rw [Forest.links_mem hp, Option.some.injEq] at hl
  have hchild : ∀ x ∈ D.forest.kids p, ∃ m, w.heap.get? x = some (.node m) ∧
      m.nextSibling = nextIn (D.forest.kids p) x ∧ m.prevSibling = nextIn (D.forest.kids p).reverse x := by
    intro x hx
    have hup := (D.forest.mem_kids x p).1 hx
    have hnode := (D.forest.live x p hup).1
    obtain ⟨m, hm, hlm, -⟩ := hh.node hnode
    rw [Forest.links_mem hnode, Option.some.injEq, hup] at hlm
    exact ⟨m, hm, (congrArg Links.next hlm).symm, (congrArg Links.prev hlm).symm⟩
  constructor
  · apply follow_run
    · rw [← List.head?_eq_getElem?]
      exact getRelation_run hn (by decide) (congrArg Links.first hl).symm
    · intro i x hi
      obtain ⟨m, hm, hnext, -⟩ := hchild x (List.mem_of_getElem? hi)
      rw [← nextIn_getElem? (D.forest.nodup p) hi]
      exact getRelation_run hm (by decide) hnext
  · apply follow_run
    · rw [← List.head?_eq_getElem?, List.head?_reverse]
      exact getRelation_run hn (by decide) (congrArg Links.last hl).symm
    · intro i x hi
      obtain ⟨m, hm, -, hprev⟩ := hchild x (List.mem_reverse.1 (List.mem_of_getElem? hi))
      rw [← nextIn_getElem? (List.nodup_reverse.2 (D.forest.nodup p)) hi]
      exact getRelation_run hm (by decide) hprev

theorem access_exact (hh : Held base w.heap D) : Readable w D where
  forward p hp i := by
    rw [firstChild_eq, nextSibling_eq]
    exact (hh.children hp i).1
  backward p hp i := by
    rw [lastChild_eq, prevSibling_eq]
    exact (hh.children hp i).2
  upward x hx := by
    obtain ⟨n, hn, hl, -⟩ := hh.node hx
    rw [Forest.links_mem hx, Option.some.injEq] at hl
    rw [parent_eq]
    exact getRelation_run hn (by decide) (congrArg Links.parent hl).symm
  type x hx := by
    obtain ⟨n, hn, -, ht, -⟩ := hh.node hx
    rw [idType_run hn, idName_run hn, ht]
    exact ⟨rfl, rfl⟩
  value x hx := by
    obtain ⟨-, -, -, -, n, hn, -, hp⟩ := hh.node hx
    exact ⟨n.payload, genericValue_run hn, hp⟩

theorem access_exact_room : Readable roomWorld roomDom := access_exact room_held

end JsonDom
