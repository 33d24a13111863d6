import JsonDom.Proof.Forest
import JsonDom.Proof.Outcome

/-!
# Runs of `jd_Node_create`, `jd_Node_adopt` and `jd_Node_emancipate`

Every sequence of these operations, each allowed where it is performed, does to the nodes in memory
what the list operations do to a forest (`forest_refined`).
-/

namespace JsonDom

open Lib

variable {w : World} {F : Forest}

inductive Op
  | create (parent before : Ptr)
  | adopt (adoptee parent : Addr) (before : Ptr)
  | emancipate (node : Addr)

/-- Performing an operation; the result is the new node. -/
def Op.run : Op → M Ptr
  | create parent before => jdNodeCreate parent before
  | adopt adoptee parent before => do
    jdNodeAdopt (some adoptee) (some parent) before
    pure none
  | emancipate node => do
    jdNodeEmancipate (some node)
    pure none

/-- Where an operation is allowed: a parent is a node, `before` one of its children, and an adoptee a
root that the parent is not in the tree of. -/
def Allowed (F : Forest) : Op → Prop
  | .create parent before => ∀ p, parent = some p → p ∈ F.nodes ∧ ∀ b, before = some b → b ∈ F.kids p
  | .adopt adoptee parent before => F.CanHang adoptee parent before
  | .emancipate node => node ∈ F.nodes

/-- The list operation that an operation with this result stands for. -/
inductive Acts (F : Forest) : Op → Ptr → Forest → Prop
  | failed {parent before : Ptr} : Acts F (.create parent before) none F
  | root {r : Addr} {before : Ptr} : r ∉ F.nodes → Acts F (.create none before) (some r) (F.add r)
  | child {r p : Addr} {before : Ptr} (h : (F.add r).CanHang r p before) : r ∉ F.nodes →
      Acts F (.create (some p) before) (some r) ((F.add r).hang r p before h)
  | adopted {r p : Addr} {before : Ptr} (h : F.CanHang r p before) :
      Acts F (.adopt r p before) none (F.hang r p before h)
  | emancipated {x : Addr} : Acts F (.emancipate x) none (F.unhang x)

/-- Every operation is allowed in the forest the ones before it have made. -/
inductive Legal : World → Forest → List Op → Prop
  | nil {w : World} {F : Forest} : Legal w F []
  | cons {w : World} {F : Forest} {op : Op} {ops : List Op} : Allowed F op →
      (∀ res w' F', op.run w = .ok (res, w') → Acts F op res F' → Legal w' F' ops) →
      Legal w F (op :: ops)

/-- A run of operations in memory together with the run of list operations: the memory represents the
forest all the time, and a node that is not created changes nothing. -/
inductive Refined : World → Forest → List Op → World → Forest → Prop
  | nil {w : World} {F : Forest} : Represents w.heap F → Refined w F [] w F
  | cons {w w' w'' : World} {F F' F'' : Forest} {op : Op} {ops : List Op} {res : Ptr} :
      Represents w.heap F → op.run w = .ok (res, w') → Acts F op res F' →
      (∀ parent before, op = .create parent before → res = none → w'.heap = w.heap) →
      Refined w' F' ops w'' F'' → Refined w F (op :: ops) w'' F''

theorem op_represents {op : Op} (hr : Represents w.heap F) (ha : Allowed F op) :
    ∃ res w' F', op.run w = .ok (res, w') ∧ Acts F op res F' ∧ Represents w'.heap F' ∧
      ∀ parent before, op = .create parent before → res = none → w'.heap = w.heap := by
  cases op with
  | create parent before =>
    change ∃ res w' F', jdNodeCreate parent before w = .ok (res, w') ∧ _
    unfold jdNodeCreate
    cases ho : w.oracle w.mallocs with
    | false =>
      refine ⟨none, { w with mallocs := w.mallocs + 1 }, F, ?_, .failed, hr, fun _ _ _ _ => rfl⟩
      rw [M.bind_ok (malloc_fail w ho _)]
      rfl
    | true =>
      obtain ⟨w1, hw1⟩ : ∃ w1, w1 =
        { w with heap := w.heap.alloc (.node newNode), mallocs := w.mallocs + 1 } := ⟨_, rfl⟩
      have hadd : Represents w1.heap (F.add w.heap.size) := by
        rw [hw1]
        exact represents_add hr
      rw [M.bind_ok (malloc_run w ho _), ← hw1, if_pos (by rfl)]
      cases parent with
      | none => exact ⟨some w.heap.size, w1, _, rfl, .root hr.fresh, hadd, nofun⟩
      | some p =>
        obtain ⟨hp, hb⟩ := ha p rfl
        have hcan := Forest.canHang_add hr.fresh hp hb
        obtain ⟨h', hrun, hrep⟩ := adopt_represents hadd hcan
        refine ⟨some w.heap.size, { w1 with heap := h' }, _, ?_, .child hcan hr.fresh, hrep, nofun⟩
        exact M.bind_ok hrun
  | adopt adoptee parent before =>
    obtain ⟨h', hrun, hrep⟩ := adopt_represents hr ha
    exact ⟨none, { w with heap := h' }, _, M.bind_ok hrun, .adopted ha, hrep, nofun⟩
  | emancipate node =>
    obtain ⟨h', hrun, hrep, -⟩ := emancipate_represents hr ha
    exact ⟨none, { w with heap := h' }, _, M.bind_ok hrun, .emancipated, hrep, nofun⟩

theorem run_refined {ops : List Op} (hr : Represents w.heap F) (hl : Legal w F ops) :
    ∃ w' F', Refined w F ops w' F' := by
  induction ops generalizing w F with
  | nil => exact ⟨w, F, .nil hr⟩
  | cons op ops ih =>
    cases hl with
    | cons ha hrest =>
      obtain ⟨res, w', F', hrun, hacts, hrep, hsame⟩ := op_represents hr ha
      obtain ⟨w'', F'', hrefined⟩ := ih hrep (hrest res w' F' hrun hacts)
      exact ⟨w'', F'', .cons hr hrun hacts hsame hrefined⟩

/-- **The linked nodes are an ordered forest in every run** from the empty memory. -/
theorem forest_refined {ops : List Op} (hempty : w.heap = .empty) (hl : Legal w .empty ops) :
    ∃ w' F, Refined w .empty ops w' F := by
  refine run_refined (fun x => ?_) hl
  rw [hempty]
  rfl

/-- A root, a child of it, and the child again a root. -/
theorem forest_refined_child : ∃ w' F, Refined (World.start [] .eof) .empty
    [.create none none, .create (some 0) none, .emancipate 1] w' F := by
  refine forest_refined rfl (.cons (fun p hp => ?_) fun res w1 F1 hrun1 hacts1 => ?_)
  · cases hp
  have hfirst : Op.run (.create none none) (World.start [] .eof) = .ok (some 0,
      { World.start [] .eof with heap := Store.empty.alloc (.node newNode), mallocs := 1 }) := rfl
  obtain rfl := congrArg Prod.fst (Except.ok.inj (hfirst.symm.trans hrun1))
  obtain rfl := congrArg Prod.snd (Except.ok.inj (hfirst.symm.trans hrun1))
  cases hacts1 with
  | root =>
    refine .cons (fun p hp => ?_) fun res w2 F2 hrun2 hacts2 => ?_
    · cases hp
      exact ⟨List.mem_cons_self, nofun⟩
    obtain ⟨w2', hsecond⟩ : ∃ w2', Op.run (.create (some 0) none)
        { World.start [] .eof with heap := Store.empty.alloc (.node newNode), mallocs := 1 } =
          .ok (some 1, w2') := ⟨_, rfl⟩
    obtain rfl := congrArg Prod.fst (Except.ok.inj (hsecond.symm.trans hrun2))
    cases hacts2 with
    | child => exact .cons List.mem_cons_self fun _ _ _ _ _ => .nil

end JsonDom
