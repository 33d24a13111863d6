import JsonDom.Lib.Split
import JsonDom.Proof.Memory

/-!
# The frame rule

`Framed x`: what `x` does in a memory it also does where there is more in memory, and what is more stays as
it is. This holds of everything that is put together from the memory operations, in particular of the
functions of `jd_Node.c`.
-/

namespace JsonDom

open Lib

variable {α β : Type}

/-- What `x` does does not depend on what else is in memory, and does nothing to it. -/
def Framed (x : M α) : Prop :=
  ∀ (w w' : World) (a : α) (base : Addr → Option Cell) (g : Store Cell), x w = .ok (a, w') →
    w.heap.Splits base g →
      ∃ g', x { w with heap := g } = .ok (a, { w' with heap := g' }) ∧ w'.heap.Splits base g'

namespace Framed

theorem pure (a : α) : Framed (Pure.pure a : M α) := by
  intro w w' b base g h hs
  cases h
  exact ⟨g, rfl, hs⟩

theorem halt (e : Halt) : Framed (JsonDom.halt e : M α) := by
  intro w w' b base g h hs
  cases h

theorem bind {x : M α} {f : α → M β} (hx : Framed x) (hf : ∀ a, Framed (f a)) : Framed (x >>= f) := by
  intro w w' b base g h hs
  obtain ⟨a, w1, h1, h2⟩ := M.bind_eq_ok h
  obtain ⟨g1, hrun1, hs1⟩ := hx w w1 a base g h1 hs
  obtain ⟨g2, hrun2, hs2⟩ := hf a w1 w' b base g1 h2 hs1
  exact ⟨g2, by rw [M.bind_ok hrun1, hrun2], hs2⟩

theorem ite {c : Prop} [Decidable c] {x y : M α} (hx : Framed x) (hy : Framed y) : Framed (if c then x else y) := by
  split
  · exact hx
  · exact hy

/-- A statement under a condition. -/
theorem when {c : Prop} [Decidable c] {x : M Unit} {rest : Unit → M β} (hx : Framed x)
    (hrest : ∀ u, Framed (rest u)) : Framed (if c then x >>= rest else rest ()) :=
  ite (bind hx hrest) (hrest ())

theorem cAssert (b : Bool) : Framed (JsonDom.cAssert b) := by
  unfold JsonDom.cAssert
  apply ite
  · apply pure
  · apply halt

theorem load (p : Ptr) : Framed (JsonDom.load p) := by
  intro w w' c base g h hs
  cases p with
  | none => cases h
  | some a =>
    simp only [JsonDom.load] at h
    split at h
    · next c hc =>
      cases h
      exact ⟨g, load_run { w with heap := g } (hs.mine hc), hs⟩
    · cases h

theorem store (a : Addr) (c : Cell) : Framed (JsonDom.store a c) := by
  intro w w' u base g h hs
  simp only [JsonDom.store] at h
  split at h
  · next ha =>
    cases h
    obtain ⟨y, hy⟩ := Option.isSome_iff_exists.1 ha
    exact ⟨_, store_run { w with heap := g } (hs.mine hy) c, hs.put hy c⟩
  · cases h

theorem malloc (c : Cell) : Framed (JsonDom.malloc c) := by
  intro w w' p base g h hs
  simp only [JsonDom.malloc] at h
  split at h
  · next ho =>
    cases h
    refine ⟨g.alloc c, ?_, hs.alloc c⟩
    rw [malloc_run { w with heap := g } ho, ← hs.size]
  · next ho =>
    cases h
    refine ⟨g, ?_, hs⟩
    rw [malloc_fail { w with heap := g } (by simpa using ho)]

theorem free (p : Ptr) : Framed (JsonDom.free p) := by
  intro w w' u base g h hs
  cases p with
  | none =>
    cases h
    exact ⟨g, rfl, hs⟩
  | some a =>
    simp only [JsonDom.free] at h
    split at h
    · next ha =>
      cases h
      obtain ⟨y, hy⟩ := Option.isSome_iff_exists.1 ha
      exact ⟨_, free_run { w with heap := g } (hs.mine hy), hs.release hy⟩
    · cases h

theorem getNode (p : Ptr) : Framed (JsonDom.getNode p) := by
  unfold JsonDom.getNode
  apply bind (load p)
  intro c
  cases c with
  | node n => apply pure
  | text | leaf | var => apply halt

theorem modifyNode (p : Ptr) (f : JdNode → JdNode) : Framed (JsonDom.modifyNode p f) := by
  unfold JsonDom.modifyNode
  exact bind (getNode p) fun n => store _ _

/-! ## `jd_Node.c` -/

theorem emancipate (node : Ptr) : Framed (jdNodeEmancipate node) := by
  unfold jdNodeEmancipate
  refine bind (getNode node) fun n => ite ?_ (pure ())
  refine bind (getNode _) fun p => when (modifyNode _ _) fun _ => ?_
  refine bind (getNode _) fun p => when (modifyNode _ _) fun _ => ?_
  refine bind (modifyNode _ _) fun _ => when (modifyNode _ _) fun _ => when (modifyNode _ _) fun _ => ?_
  exact modifyNode _ _

theorem adopt (adoptee parent before : Ptr) : Framed (jdNodeAdopt adoptee parent before) := by
  unfold jdNodeAdopt
  refine bind (cAssert _) fun _ => bind (getNode _) fun n => bind (cAssert _) fun _ => bind (cAssert _) fun _ => ?_
  refine bind (cAssert _) fun _ => bind (modifyNode _ _) fun _ => ite ?_ ?_
  · refine bind (getNode _) fun b => bind (cAssert _) fun _ => ?_
    have hend : ∀ u : Unit, Framed (do
        JsonDom.modifyNode adoptee fun n => { n with nextSibling := before }
        JsonDom.modifyNode before fun n => { n with prevSibling := adoptee }) := fun _ =>
      bind (modifyNode _ _) fun _ => modifyNode _ _
    refine ite ?_ ?_
    · exact bind (modifyNode _ _) fun _ => bind (modifyNode _ _) hend
    · exact bind (modifyNode _ _) hend
  · refine bind (getNode _) fun p => ite ?_ (modifyNode _ _)
    exact bind (modifyNode _ _) fun _ => bind (modifyNode _ _) fun _ => modifyNode _ _

theorem create (parent before : Ptr) : Framed (jdNodeCreate parent before) := by
  unfold jdNodeCreate
  refine bind (malloc _) fun node => ite ?_ (pure none)
  exact when (adopt _ _ _) fun _ => pure node

theorem insertElement (array newElement before : Ptr) :
    Framed (jdNodeArrayInsertElement array newElement before) := by
  unfold jdNodeArrayInsertElement
  exact bind (getNode _) fun n => bind (cAssert _) fun _ => bind (adopt _ _ _) fun _ => pure true

theorem destroyRun (fuel : Nat) (node : Ptr) : Framed (jdNodeDestroy.run fuel node) := by
  induction fuel generalizing node with
  | zero =>
    cases node with
    | none => exact pure none
    | some a => exact halt _
  | succ fuel ih =>
    cases node with
    | none => exact pure none
    | some a =>
      unfold jdNodeDestroy.run
      have hend : ∀ u : Unit, Framed (do
          let n ← JsonDom.getNode (some a)
          JsonDom.free n.payload
          JsonDom.free (some a)
          Pure.pure none : M Ptr) := fun _ =>
        bind (getNode _) fun n => bind (free _) fun _ => bind (free _) fun _ => pure none
      have hnext : ∀ u : Unit, Framed (do
          let n ← JsonDom.getNode (some a)
          if n.nextSibling.isSome then do
            let next ← jdNodeDestroy.run fuel n.nextSibling
            JsonDom.modifyNode (some a) fun n => { n with nextSibling := next }
          let n ← JsonDom.getNode (some a)
          JsonDom.free n.payload
          JsonDom.free (some a)
          Pure.pure none : M Ptr) := fun _ =>
        bind (getNode _) fun n => ite (bind (ih _) fun next => bind (modifyNode _ _) hend) (hend ())
      exact bind (getNode _) fun n => ite (bind (ih _) fun child => bind (modifyNode _ _) hnext) (hnext ())

theorem destroy (node : Ptr) : Framed (jdNodeDestroy node) := by
  intro w w' a base g h hs
  obtain ⟨g', hrun, hs'⟩ := destroyRun w.heap.size node w w' a base g h hs
  refine ⟨g', ?_, hs'⟩
  unfold jdNodeDestroy
  rw [← hs.size] at hrun
  exact hrun

theorem destroyChildren (node : Ptr) : Framed (jdNodeDestroyChildren node) := by
  unfold jdNodeDestroyChildren
  exact bind (getNode _) fun n => bind (destroy _) fun child => modifyNode _ _

theorem discardPayload (node : Ptr) : Framed (jdNodeDiscardPayload node) := by
  unfold jdNodeDiscardPayload
  refine bind (getNode _) fun n => ite ?_ (pure true)
  exact bind (free _) fun _ => bind (modifyNode _ _) fun _ => pure true

theorem setPlain (node : Ptr) (type : JdType) : Framed (jdNodeSetPlain node type) := by
  unfold jdNodeSetPlain setType
  exact bind (discardPayload _) fun _ => bind (modifyNode _ _) fun _ => pure true

theorem takeString (node str : Ptr) : Framed (jdNodeTakeString node str) := by
  unfold jdNodeTakeString setType
  exact bind (discardPayload _) fun _ => bind (modifyNode _ _) fun _ => bind (modifyNode _ _) fun _ => pure true

theorem copyString (node : Ptr) (str : Bytes) : Framed (jdNodeCopyString node str) := by
  unfold jdNodeCopyString setType
  refine bind (discardPayload _) fun _ => bind (malloc _) fun p => ite ?_ (pure false)
  exact bind (modifyNode _ _) fun _ => bind (modifyNode _ _) fun _ => pure true

theorem setNumber (node : Ptr) (value : Bytes) (type : JdType) : Framed (jdNodeSetNumber node value type) := by
  unfold jdNodeSetNumber setType
  refine bind (copyString _ _) fun ok => ite ?_ (pure false)
  exact bind (modifyNode _ _) fun _ => pure true

theorem makeNullProperty (node : Ptr) (label : Bytes) : Framed (jdNodeMakeNullProperty node label) := by
  unfold jdNodeMakeNullProperty setType
  have hend : ∀ u : Unit, Framed (do
      JsonDom.modifyNode node fun n => { n with type := .jdProperty }
      let labelNode ← jdNodeCreate node none
      if labelNode.isSome then do
        let valueNode ← jdNodeCreate node none
        if valueNode.isSome then do
          let _ ← jdNodeCopyString labelNode label
          let _ ← jdNodeSetNull valueNode
          Pure.pure true
        else do
          jdNodeDestroyChildren node
          Pure.pure false
      else Pure.pure false : M Bool) := by
    intro _
    refine bind (modifyNode _ _) fun _ => bind (create _ _) fun labelNode => ite ?_ (pure false)
    refine bind (create _ _) fun valueNode => ite ?_ ?_
    · exact bind (copyString _ _) fun _ => bind (setPlain _ _) fun _ => pure true
    · exact bind (destroyChildren _) fun _ => pure false
  exact bind (discardPayload _) fun _ => bind (getNode _) fun n => when (destroyChildren _) hend

end Framed

end JsonDom
