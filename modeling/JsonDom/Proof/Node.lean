import JsonDom.Proof.Memory

/-!
# Nodes

What the functions of `jd_Node.c` do to the memory. `adopt_run` gives the links after
`jd_Node_adopt` as `OTree.hang`, so the tree it leaves is that of `Linked.hang` (`adopt_linked`);
`destroy_chain` says which blocks `jd_Node_destroy` releases.
-/

namespace JsonDom

open Lib OTree

variable {w : World}

/-! ## Adopting -/

/-- The part of `jd_Node_adopt` behind the assertions and the link to the parent. -/
def adoptInto (adoptee parent before : Ptr) : M Unit := do
  if before.isSome then do
    let b ← getNode before
    cAssert (b.parent == parent)
    if b.prevSibling.isSome then do
      modifyNode adoptee fun n => { n with prevSibling := b.prevSibling }
      modifyNode b.prevSibling fun n => { n with nextSibling := adoptee }
    else modifyNode parent fun n => { n with firstChild := adoptee }
    modifyNode adoptee fun n => { n with nextSibling := before }
    modifyNode before fun n => { n with prevSibling := adoptee }
  else do
    let p ← getNode parent
    if p.lastChild.isSome then do
      modifyNode adoptee fun n => { n with prevSibling := p.lastChild }
      modifyNode p.lastChild fun n => { n with nextSibling := adoptee }
      modifyNode parent fun n => { n with lastChild := adoptee }
    else modifyNode parent fun n => { n with firstChild := adoptee, lastChild := adoptee }

/-- In the memory `h1` the detached node `r` has its parent `p`, but is in no child list yet. -/
structure Entered (w : World) (h1 : Store Cell) (ℓ : Addr → Option Links) (r p : Addr) (rn pn : JdNode) :
    Prop where
  node : w.heap.get? r = some (.node rn)
  alone : rn.prevSibling = none ∧ rn.nextSibling = none
  parent : w.heap.get? p = some (.node pn)
  ne : r ≠ p
  table : ℓ = Function.update (links w.heap) r (some { rn.links with parent := some p })
  relinked : Relinked w.heap h1 ℓ

namespace Entered

variable {h1 : Store Cell} {ℓ : Addr → Option Links} {r p x : Addr} {rn pn n : JdNode}

theorem self (he : Entered w h1 ℓ r p rn pn) : ℓ r = some { rn.links with parent := some p } := by
  rw [he.table, Function.update_self]

theorem other (he : Entered w h1 ℓ r p rn pn) (hx : x ≠ r) (hn : w.heap.get? x = some (.node n)) :
    ℓ x = some n.links := by
  rw [he.table, Function.update_of_ne hx, links_of hn]

theorem get (he : Entered w h1 ℓ r p rn pn) (hx : x ≠ r) (hn : w.heap.get? x = some (.node n)) :
    h1.get? x = some (.node n) := he.relinked.node hn (he.other hx hn)

/-- Behind the last child. -/
theorem last (he : Entered w h1 ℓ r p rn pn)
    (hprev : ∀ l, pn.lastChild = some l → l ≠ r ∧ l ≠ p ∧ ∃ ln, w.heap.get? l = some (.node ln)) :
    ∃ h', adoptInto (some r) (some p) none { w with heap := h1 } = .ok ((), { w with heap := h' }) ∧
      Relinked w.heap h' (hang (links w.heap) p r pn.lastChild none) := by
  obtain ⟨hr, ⟨hd2, hd3⟩, hp, hrp, hℓ, R1⟩ := id he
  unfold adoptInto
  rw [if_neg (by simp), M.bind_ok (getNode_run { w with heap := h1 } (he.get hrp.symm hp))]
  cases hl : pn.lastChild with
  | none =>
    obtain ⟨h2, hm2, R2⟩ := R1.modify w (fun n => { n with firstChild := some r, lastChild := some r })
      (fun k => { k with first := some r, last := some r }) hp (he.other hrp.symm hp) rfl
    rw [if_neg (by simp), hm2]
    refine ⟨h2, rfl, R2.congr fun x => ?_⟩
    simp only [Function.update_apply, hℓ, hang]
    by_cases hxr : x = r
    · simp [hxr, hrp, links_of hr, JdNode.links, hd2, hd3]
    · by_cases hxp : x = p
      · simp [hxp, hrp.symm, links_of hp, JdNode.links]
      · simp [hxr, hxp]
  | some l =>
    obtain ⟨hlr, hlp, ln, hln⟩ := hprev l hl
    obtain ⟨h2, hm2, R2⟩ := R1.modify w (fun n => { n with prevSibling := some l })
      (fun k => { k with prev := some l }) hr he.self rfl
    obtain ⟨h3, hm3, R3⟩ := R2.modify w (fun n => { n with nextSibling := some r })
      (fun k => { k with next := some r }) hln ((Function.update_of_ne hlr _ _).trans (he.other hlr hln)) rfl
    obtain ⟨h4, hm4, R4⟩ := R3.modify w (fun n => { n with lastChild := some r })
      (fun k => { k with last := some r }) hp (((Function.update_of_ne hlp.symm _ _).trans
        (Function.update_of_ne hrp.symm _ _)).trans (he.other hrp.symm hp)) rfl
    rw [if_pos (by simp), M.bind_ok hm2, M.bind_ok hm3, hm4]
    refine ⟨h4, rfl, R4.congr fun x => ?_⟩
    simp only [Function.update_apply, hℓ, hang]
    by_cases hxr : x = r
    · simp [hxr, hrp, hlr.symm, links_of hr, JdNode.links, hd3]
    · by_cases hxp : x = p
      · simp [hxp, hrp.symm, links_of hp, JdNode.links]
      · by_cases hxl : x = l
        · simp [hxl, hlr, hlp, links_of hln, JdNode.links]
        · simp [hxr, hxp, hxl]

/-- In front of the child `b`. -/
theorem before {b : Addr} {bn : JdNode} (he : Entered w h1 ℓ r p rn pn) (hbn : w.heap.get? b = some (.node bn))
    (hbr : b ≠ r) (hbp : b ≠ p) (hpar : bn.parent = some p)
    (hprev : ∀ l, bn.prevSibling = some l → l ≠ r ∧ l ≠ p ∧ l ≠ b ∧ ∃ ln, w.heap.get? l = some (.node ln)) :
    ∃ h', adoptInto (some r) (some p) (some b) { w with heap := h1 } = .ok ((), { w with heap := h' }) ∧
      Relinked w.heap h' (hang (links w.heap) p r bn.prevSibling (some b)) := by
  obtain ⟨hr, ⟨hd2, hd3⟩, hp, hrp, hℓ, R1⟩ := id he
  have hbpar : (bn.parent == some p) = true := by rw [hpar, beq_self_eq_true]
  unfold adoptInto
  rw [if_pos (by simp), M.bind_ok (getNode_run { w with heap := h1 } (he.get hbr hbn)),
    M.bind_ok (cAssert_run hbpar _)]
  cases hl : bn.prevSibling with
  | none =>
    obtain ⟨h2, hm2, R2⟩ := R1.modify w (fun n => { n with firstChild := some r })
      (fun k => { k with first := some r }) hp (he.other hrp.symm hp) rfl
    obtain ⟨h3, hm3, R3⟩ := R2.modify w (fun n => { n with nextSibling := some b })
      (fun k => { k with next := some b }) hr ((Function.update_of_ne hrp _ _).trans he.self) rfl
    obtain ⟨h4, hm4, R4⟩ := R3.modify w (fun n => { n with prevSibling := some r })
      (fun k => { k with prev := some r }) hbn (((Function.update_of_ne hbr _ _).trans
        (Function.update_of_ne hbp _ _)).trans (he.other hbr hbn)) rfl
    dsimp only
    rw [if_neg (by simp), M.bind_ok hm2, M.bind_ok hm3, hm4]
    refine ⟨h4, rfl, R4.congr fun x => ?_⟩
    simp only [Function.update_apply, hℓ, hang]
    by_cases hxr : x = r
    · simp [hxr, hbr.symm, links_of hr, JdNode.links, hd2]
    · by_cases hxp : x = p
      · simp [hxp, hrp.symm, hbp.symm, links_of hp, JdNode.links]
      · by_cases hxb : x = b
        · simp [hxb, hbr, hbp, links_of hbn, JdNode.links]
        · simp [hxr, hxp, hxb]
  | some l =>
    obtain ⟨hlr, hlp, hlb, ln, hln⟩ := hprev l hl
    obtain ⟨h2, hm2, R2⟩ := R1.modify w (fun n => { n with prevSibling := some l })
      (fun k => { k with prev := some l }) hr he.self rfl
    obtain ⟨h3, hm3, R3⟩ := R2.modify w (fun n => { n with nextSibling := some r })
      (fun k => { k with next := some r }) hln
      ((Function.update_of_ne hlr _ _).trans (he.other hlr hln)) rfl
    obtain ⟨h4, hm4, R4⟩ := R3.modify w (fun n => { n with nextSibling := some b })
      (fun k => { k with next := some b }) hr ((Function.update_of_ne hlr.symm _ _).trans
        (Function.update_self _ _ _)) rfl
    obtain ⟨h5, hm5, R5⟩ := R4.modify w (fun n => { n with prevSibling := some r })
      (fun k => { k with prev := some r }) hbn (((Function.update_of_ne hbr _ _).trans
        ((Function.update_of_ne hlb.symm _ _).trans (Function.update_of_ne hbr _ _))).trans
        (he.other hbr hbn)) rfl
    dsimp only
    rw [if_pos (by simp), M.bind_ok hm2, M.bind_ok hm3, M.bind_ok hm4, hm5]
    refine ⟨h5, rfl, R5.congr fun x => ?_⟩
    simp only [Function.update_apply, hℓ, hang]
    by_cases hxr : x = r
    · simp [hxr, hbr.symm, links_of hr, JdNode.links]
    · by_cases hxp : x = p
      · simp [hxp, hrp.symm, hlp.symm, hbp.symm, links_of hp, JdNode.links]
      · by_cases hxl : x = l
        · simp [hxl, hlr, hlp, hlb, links_of hln, JdNode.links]
        · by_cases hxb : x = b
          · simp [hxb, hbr, hbp, hlb.symm, links_of hbn, JdNode.links]
          · simp [hxr, hxp, hxl, hxb]

end Entered

/-- The assertions hold of a detached node. -/
theorem adopt_enter {r p : Addr} {rn pn : JdNode} (hr : w.heap.get? r = some (.node rn))
    (hd : rn.parent = none ∧ rn.prevSibling = none ∧ rn.nextSibling = none)
    (hp : w.heap.get? p = some (.node pn)) (hrp : r ≠ p) :
    ∃ h1 ℓ, Entered w h1 ℓ r p rn pn ∧ ∀ next,
      jdNodeAdopt (some r) (some p) next w = adoptInto (some r) (some p) next { w with heap := h1 } := by
  have ha : ∀ {q : Ptr}, q = none → (q == none) = true := fun h => by rw [h]; rfl
  have hboth : ((some p : Ptr).isSome && (some r : Ptr).isSome) = true := rfl
  obtain ⟨h1, hm1, R1⟩ := (Relinked.refl w.heap).modify w (fun n => { n with parent := some p })
    (fun k => { k with parent := some p }) hr (links_of hr) rfl
  refine ⟨h1, _, ⟨hr, hd.2, hp, hrp, rfl, R1⟩, fun next => ?_⟩
  unfold jdNodeAdopt
  rw [M.bind_ok (cAssert_run hboth w), M.bind_ok (getNode_run w hr), M.bind_ok (cAssert_run (ha hd.1) w),
    M.bind_ok (cAssert_run (ha hd.2.1) w), M.bind_ok (cAssert_run (ha hd.2.2) w), M.bind_ok hm1]
  rfl

/-- The links of the detached node `r` after its adoption by `p`. -/
theorem adopt_run {r p : Addr} {rn pn : JdNode} {prev next : Ptr}
    (hr : w.heap.get? r = some (.node rn))
    (hd : rn.parent = none ∧ rn.prevSibling = none ∧ rn.nextSibling = none)
    (hp : w.heap.get? p = some (.node pn)) (hrp : r ≠ p)
    (hnone : next = none → prev = pn.lastChild)
    (hsome : ∀ b, next = some b → b ≠ r ∧ b ≠ p ∧
      ∃ bn, w.heap.get? b = some (.node bn) ∧ bn.parent = some p ∧ prev = bn.prevSibling)
    (hprev : ∀ l, prev = some l → l ≠ r ∧ l ≠ p ∧ next ≠ some l ∧ ∃ ln, w.heap.get? l = some (.node ln)) :
    ∃ h', jdNodeAdopt (some r) (some p) next w = .ok ((), { w with heap := h' }) ∧
      Relinked w.heap h' (hang (links w.heap) p r prev next) := by
  obtain ⟨h1, ℓ, he, henter⟩ := adopt_enter hr hd hp hrp
  rw [henter]
  cases next with
  | none =>
    obtain rfl := hnone rfl
    refine he.last fun l hl => ?_
    obtain ⟨hlr, hlp, -, hln⟩ := hprev l hl
    exact ⟨hlr, hlp, hln⟩
  | some b =>
    obtain ⟨hbr, hbp, bn, hbn, hpar, rfl⟩ := hsome b rfl
    refine he.before hbn hbr hbp hpar fun l hl => ?_
    obtain ⟨hlr, hlp, hlb, hln⟩ := hprev l hl
    exact ⟨hlr, hlp, fun he => hlb (congrArg some he.symm), hln⟩

/-- What `Linked` says of the root's node. -/
theorem linked_root {h : Store Cell} {parent prev next : Ptr} {t : OTree}
    (ht : Linked (links h) parent prev next t) :
    ∃ n, h.get? t.addr = some (.node n) ∧ n.parent = parent ∧ n.prevSibling = prev ∧
      n.nextSibling = next ∧ n.firstChild = firstOf t.kids none ∧
      n.lastChild = lastOf t.kids none := by
  cases t with
  | node a ts =>
    obtain ⟨n, hn, hk⟩ := links_some (linked_node.1 ht).1
    rw [JdNode.links, Links.mk.injEq] at hk
    exact ⟨n, hn, hk.1, hk.2.2.2.1, hk.2.1, hk.2.2.1, hk.2.2.2.2⟩

/-- **`jd_Node_adopt` hangs a detached tree into the child list**, in front of `before` or at the
end. -/
theorem adopt_linked {p : Addr} {parent prev next : Ptr} {ts us : List OTree} {t : OTree}
    (hp : Linked (links w.heap) parent prev next (.node p (ts ++ us)))
    (ht : Linked (links w.heap) none none none t)
    (hn : ((OTree.node p (ts ++ us)).addrs ++ t.addrs).Nodup) :
    ∃ h', jdNodeAdopt (some t.addr) (some p) (firstOf us none) w =
        .ok ((), { w with heap := h' }) ∧
      Relinked w.heap h' (hang (links w.heap) p t.addr (lastOf ts none) (firstOf us none)) ∧
      Linked (links h') parent prev next (.node p (ts ++ t :: us)) := by
  obtain ⟨rn, hrn, hr1, hr2, hr3, -⟩ := linked_root ht
  obtain ⟨pn, hpn, -, -, -, -, hlast⟩ := linked_root hp
  have hchain := chain_append.1 (linked_node.1 hp).2
  -- the five nodes are different
  have hn' := hn
  rw [addrs_node, addrsList_append] at hn'
  obtain ⟨hn1, -, hdisj⟩ := List.nodup_append.1 hn'
  obtain ⟨hpout, hn1⟩ := List.nodup_cons.1 hn1
  obtain ⟨-, -, hmid⟩ := List.nodup_append.1 hn1
  have hr : t.addr ∈ t.addrs := t.addr_mem
  have hne : ∀ x ∈ addrsList ts ++ addrsList us, x ≠ t.addr ∧ x ≠ p := fun x hx =>
    ⟨hdisj x (List.mem_cons_of_mem _ hx) _ hr, fun he => hpout (he ▸ hx)⟩
  have hbefore : ∀ b, firstOf us none = some b → b ≠ t.addr ∧ b ≠ p ∧ ∃ bn,
      w.heap.get? b = some (.node bn) ∧ bn.parent = some p ∧ lastOf ts none = bn.prevSibling := by
    intro b hb
    obtain ⟨h1, h2⟩ := hne b (List.mem_append_right _ (firstOf_mem hb))
    cases us with
    | nil => cases hb
    | cons u us =>
      obtain ⟨bn, hbn, hpar, hprev, -⟩ := linked_root (chain_cons.1 hchain.2).1
      exact ⟨h1, h2, bn, Option.some.inj hb ▸ hbn, hpar, hprev.symm⟩
  have hprev : ∀ l, lastOf ts none = some l → l ≠ t.addr ∧ l ≠ p ∧ firstOf us none ≠ some l ∧
      ∃ ln, w.heap.get? l = some (.node ln) := by
    intro l hl
    obtain ⟨h1, h2⟩ := hne l (List.mem_append_left _ (lastOf_mem hl))
    obtain ⟨k, hk⟩ := hchain.1.live l (lastOf_mem hl)
    obtain ⟨ln, hln, -⟩ := links_some hk
    exact ⟨h1, h2, fun hf => hmid l (lastOf_mem hl) l (firstOf_mem hf) rfl, ln, hln⟩
  have hend : firstOf us none = none → lastOf ts none = pn.lastChild := by
    intro hus
    rw [firstOf_eq_none.1 hus, List.append_nil] at hlast
    exact hlast.symm
  obtain ⟨h', hrun, hrel⟩ := adopt_run hrn ⟨hr1, hr2, hr3⟩ hpn (hdisj p List.mem_cons_self _ hr).symm
    hend hbefore hprev
  refine ⟨h', hrun, hrel, linked_congr (fun x _ => hrel.links_eq ?_) (hp.hang ht hn)⟩
  unfold hang
  split_ifs <;> simp

/-! ## Creating and converting -/

theorem create_run (h : w.oracle w.mallocs = true) :
    jdNodeCreate none none w = .ok (some w.heap.size,
      { w with heap := w.heap.alloc (.node newNode), mallocs := w.mallocs + 1 }) := by
  unfold jdNodeCreate
  rw [M.bind_ok (malloc_run w h _)]
  rfl

theorem create_fail (h : w.oracle w.mallocs = false) (parent before : Ptr) :
    jdNodeCreate parent before w = .ok (none, { w with mallocs := w.mallocs + 1 }) := by
  unfold jdNodeCreate
  rw [M.bind_ok (malloc_fail w h _)]
  rfl

variable {a : Addr} {n : JdNode}

theorem discardPayload_run (hn : w.heap.get? a = some (.node n)) (hp : n.payload = none) :
    jdNodeDiscardPayload (some a) w = .ok (true, w) := by
  unfold jdNodeDiscardPayload
  rw [M.bind_ok (getNode_run w hn), hp]
  rfl

/-- Discarding a payload releases its block. -/
theorem discardPayload_release (hn : w.heap.get? a = some (.node n))
    (hp : ∀ q, n.payload = some q → ∃ block, w.heap.get? q = some (.text block)) :
    ∃ h', jdNodeDiscardPayload (some a) w = .ok (true, { w with heap := h' }) ∧
      h'.size = w.heap.size ∧ h'.get? a = some (.node { n with payload := none }) ∧
      ∀ x, x ≠ a → h'.get? x = if n.payload = some x then none else w.heap.get? x := by
  cases hpay : n.payload with
  | none =>
    refine ⟨w.heap, discardPayload_run hn hpay, rfl, ?_, fun x _ => by simp⟩
    rw [hn, ← hpay]
  | some q =>
    obtain ⟨block, hq⟩ := hp q hpay
    have hqa : q ≠ a := by
      rintro rfl
      cases hn.symm.trans hq
    have hn1 : (w.heap.release q).get? a = some (.node n) := by
      rw [Store.get?_release_ne hqa.symm, hn]
    refine ⟨(w.heap.release q).put a (.node { n with payload := none }), ?_, by simp,
      Store.get?_put_self (Store.lt_size hn1), fun x hx => ?_⟩
    · unfold jdNodeDiscardPayload
      rw [M.bind_ok (getNode_run w hn), hpay, if_pos (by rfl), M.bind_ok (free_run w hq),
        M.bind_ok (modifyNode_run { w with heap := w.heap.release q } hn1 _)]
      rfl
    · rw [Store.get?_put_ne hx, Store.get?_release]
      simp only [Option.some.injEq, eq_comm]

/-- What begins with discarding the payload may as well begin behind it. -/
theorem discard_again {β : Type} {h1 : Store Cell}
    (hrun : jdNodeDiscardPayload (some a) w = .ok (true, { w with heap := h1 }))
    (hn1 : h1.get? a = some (.node { n with payload := none })) (k : Bool → M β) :
    (jdNodeDiscardPayload (some a) >>= k) w = (jdNodeDiscardPayload (some a) >>= k) { w with heap := h1 } := by
  rw [M.bind_ok hrun, M.bind_ok (@discardPayload_run { w with heap := h1 } a _ hn1 rfl)]

theorem setPlain_run (hn : w.heap.get? a = some (.node n)) (hp : n.payload = none) (type : JdType) :
    jdNodeSetPlain (some a) type w =
      .ok (true, { w with heap := w.heap.put a (.node { n with type }) }) := by
  unfold jdNodeSetPlain
  rw [M.bind_ok (discardPayload_run hn hp)]
  unfold setType
  rw [M.bind_ok (modifyNode_run w hn _)]
  rfl

theorem takeString_run (hn : w.heap.get? a = some (.node n)) (hp : n.payload = none) (str : Ptr) :
    jdNodeTakeString (some a) str w =
      .ok (true, { w with heap := w.heap.put a (.node { n with payload := str, type := .jdString }) }) := by
  obtain ⟨w1, hw1⟩ : ∃ w1, w1 = { w with heap := w.heap.put a (.node { n with payload := str }) } :=
    ⟨_, rfl⟩
  have hn1 : w1.heap.get? a = some (.node { n with payload := str }) := by
    rw [hw1]
    exact Store.get?_put_self (Store.lt_size hn)
  unfold jdNodeTakeString
  rw [M.bind_ok (discardPayload_run hn hp), M.bind_ok (modifyNode_run w hn _), ← hw1]
  unfold setType
  rw [M.bind_ok (modifyNode_run w1 hn1 _), hw1, Store.put_put]
  rfl

theorem copyString_run (hn : w.heap.get? a = some (.node n)) (hp : n.payload = none)
    (ho : w.oracle w.mallocs = true) (value : Bytes) :
    jdNodeCopyString (some a) value w = .ok (true,
      { w with
        heap := (w.heap.alloc (.text (value ++ [0]))).put a
          (.node { n with payload := some w.heap.size, type := .jdString })
        mallocs := w.mallocs + 1 }) := by
  have hne : a ≠ w.heap.size := Nat.ne_of_lt (Store.lt_size hn)
  obtain ⟨w1, hw1⟩ : ∃ w1, w1 =
    { w with heap := w.heap.alloc (.text (value ++ [0])), mallocs := w.mallocs + 1 } := ⟨_, rfl⟩
  have hn1 : w1.heap.get? a = some (.node n) := by
    rw [hw1]
    exact (Store.get?_alloc_ne hne).trans hn
  obtain ⟨w2, hw2⟩ : ∃ w2, w2 =
    { w1 with heap := w1.heap.put a (.node { n with payload := some w.heap.size }) } := ⟨_, rfl⟩
  have hn2 : w2.heap.get? a = some (.node { n with payload := some w.heap.size }) := by
    rw [hw2]
    exact Store.get?_put_self (Store.lt_size hn1)
  unfold jdNodeCopyString
  rw [M.bind_ok (discardPayload_run hn hp), M.bind_ok (malloc_run w ho _), ← hw1, if_pos (by rfl),
    M.bind_ok (modifyNode_run w1 hn1 _), ← hw2]
  unfold setType
  rw [M.bind_ok (modifyNode_run w2 hn2 _), hw2, hw1, Store.put_put]
  rfl

theorem setNumber_run (hn : w.heap.get? a = some (.node n)) (hp : n.payload = none)
    (ho : w.oracle w.mallocs = true) (value : Bytes) (type : JdType) :
    jdNodeSetNumber (some a) value type w = .ok (true,
      { w with
        heap := (w.heap.alloc (.text (value ++ [0]))).put a
          (.node { n with payload := some w.heap.size, type })
        mallocs := w.mallocs + 1 }) := by
  have hcopy := copyString_run hn hp ho value
  obtain ⟨w1, hw1⟩ : ∃ w1, w1 =
    { w with
      heap := (w.heap.alloc (.text (value ++ [0]))).put a
        (.node { n with payload := some w.heap.size, type := .jdString })
      mallocs := w.mallocs + 1 } := ⟨_, rfl⟩
  rw [← hw1] at hcopy
  have hn1 : w1.heap.get? a = some (.node { n with payload := some w.heap.size, type := .jdString }) := by
    rw [hw1]
    refine Store.get?_put_self (Nat.lt_trans (Store.lt_size hn) ?_)
    rw [Store.size_alloc]
    exact Nat.lt_succ_self _
  unfold jdNodeSetNumber
  rw [M.bind_ok hcopy, if_pos (by rfl)]
  unfold setType
  rw [M.bind_ok (modifyNode_run w1 hn1 _), hw1]
  simp only [Store.put_put]
  rfl

theorem copyString_fail (hn : w.heap.get? a = some (.node n)) (hp : n.payload = none)
    (ho : w.oracle w.mallocs = false) (value : Bytes) :
    jdNodeCopyString (some a) value w = .ok (false, { w with mallocs := w.mallocs + 1 }) := by
  unfold jdNodeCopyString
  rw [M.bind_ok (discardPayload_run hn hp), M.bind_ok (malloc_fail w ho _)]
  rfl

theorem setNumber_fail (hn : w.heap.get? a = some (.node n)) (hp : n.payload = none)
    (ho : w.oracle w.mallocs = false) (value : Bytes) (type : JdType) :
    jdNodeSetNumber (some a) value type w = .ok (false, { w with mallocs := w.mallocs + 1 }) := by
  unfold jdNodeSetNumber
  rw [M.bind_ok (copyString_fail hn hp ho value)]
  rfl

/-! ## Destroying -/

/-- No block belongs to two of the nodes `as`, and every payload is there. -/
structure Owned (h : Store Cell) (as : List Addr) : Prop where
  nodup : as.Nodup
  text : ∀ y ∈ as, ∀ q, payloadOf h y = some q → ∃ block, h.get? q = some (.text block)
  inj : ∀ y ∈ as, ∀ z ∈ as, ∀ q, payloadOf h y = some q → payloadOf h z = some q → y = z

theorem Owned.payload {h : Store Cell} {as : List Addr} (ho : Owned h as) (ha : a ∈ as)
    (hn : h.get? a = some (.node n)) {q : Addr} (hq : n.payload = some q) :
    ∃ block, h.get? q = some (.text block) := ho.text a ha q ((payloadOf_node hn).trans hq)

/-- The blocks of the nodes `as` were released and nothing else. -/
structure Released (h h' : Store Cell) (as : List Addr) : Prop where
  size : h'.size = h.size
  get : ∀ x, h'.get? x = if x ∈ blocks h as then none else h.get? x

theorem mem_blocks {h : Store Cell} {as : List Addr} {x : Addr} :
    x ∈ blocks h as ↔ x ∈ as ∨ ∃ y ∈ as, payloadOf h y = some x := by
  simp [blocks, List.mem_filterMap]

theorem mem_blocks_cons {h : Store Cell} {a : Addr} {as : List Addr} {x : Addr} :
    x ∈ blocks h (a :: as) ↔ x = a ∨ payloadOf h a = some x ∨ x ∈ blocks h as := by
  simp only [mem_blocks, List.mem_cons, exists_eq_or_imp, or_assoc]
  exact or_congr_right or_left_comm

theorem mem_blocks_append {h : Store Cell} {as bs : List Addr} {x : Addr} :
    x ∈ blocks h (as ++ bs) ↔ x ∈ blocks h as ∨ x ∈ blocks h bs := by
  simp only [mem_blocks, List.mem_append, or_and_right, exists_or]
  exact or_or_or_comm

theorem Released.nil (h : Store Cell) : Released h h [] := ⟨rfl, fun x => by simp [blocks]⟩

/-- One of the two recursive calls of `jd_Node_destroy`, for what the pointer `p` of the node `a`
leads to. -/
theorem descend {fuel : Nat} {p : Ptr} {as : List Addr} (set : Ptr → JdNode → JdNode)
    (hn : w.heap.get? a = some (.node n)) (ha : a ∉ blocks w.heap as) (hp : p = none → as = [])
    (hrun : ∃ h1, jdNodeDestroy.run fuel p w = .ok (none, { w with heap := h1 }) ∧
      Released w.heap h1 as) :
    ∃ h1, (∀ k : Unit → M Ptr, (if p.isSome = true then do
          let child ← jdNodeDestroy.run fuel p
          let r ← modifyNode (some a) (set child)
          k r
        else k ()) w = k () { w with heap := h1 }) ∧
      h1.size = w.heap.size ∧ h1.get? a = some (.node (if p.isSome then set none n else n)) ∧
      ∀ x, x ≠ a → h1.get? x = if x ∈ blocks w.heap as then none else w.heap.get? x := by
  cases p with
  | none =>
    rw [hp rfl]
    exact ⟨w.heap, fun k => rfl, rfl, hn, fun x _ => (Released.nil w.heap).get x⟩
  | some q =>
    obtain ⟨h1, hr, hrel⟩ := hrun
    have hn1 : h1.get? a = some (.node n) := by rw [hrel.get, if_neg ha, hn]
    refine ⟨h1.put a (.node (set none n)), fun k => ?_, by rw [Store.size_put, hrel.size],
      Store.get?_put_self (Store.lt_size hn1), fun x hx => by rw [Store.get?_put_ne hx, hrel.get]⟩
    rw [if_pos (by rfl), M.bind_ok hr, M.bind_ok (modifyNode_run { w with heap := h1 } hn1 _)]

theorem links_not_text {h : Store Cell} {x : Addr} {k : Links} {block : Bytes}
    (hx : links h x = some k) : h.get? x ≠ some (.text block) := by
  obtain ⟨n, hn, -⟩ := links_some hx
  rw [hn]
  exact nofun

theorem Owned.subset {h : Store Cell} {as bs : List Addr} (ho : Owned h as) (hb : bs.Nodup)
    (hs : ∀ x ∈ bs, x ∈ as) : Owned h bs :=
  ⟨hb, fun y hy => ho.text y (hs y hy), fun y hy z hz => ho.inj y (hs y hy) z (hs z hz)⟩

/-- Different nodes own different blocks. -/
theorem Owned.disjoint {h : Store Cell} {as bs cs : List Addr} (ho : Owned h as)
    (hl : ∀ x ∈ as, ∃ k, links h x = some k) (hb : ∀ x ∈ bs, x ∈ as) (hc : ∀ x ∈ cs, x ∈ as)
    (hd : ∀ x ∈ bs, x ∉ cs) {x : Addr} (hx : x ∈ blocks h bs) : x ∉ blocks h cs := by
  intro hx'
  rw [mem_blocks] at hx hx'
  -- a node's address is not that of a payload
  have hnode : ∀ {y}, x ∈ as → y ∈ as → payloadOf h y ≠ some x := by
    intro y hxa hy hp
    obtain ⟨k, hk⟩ := hl x hxa
    obtain ⟨block, ht⟩ := ho.text y hy x hp
    exact links_not_text hk ht
  rcases hx with hx | ⟨y, hy, hp⟩ <;> rcases hx' with hx' | ⟨z, hz, hq⟩
  · exact hd x hx hx'
  · exact hnode (hb x hx) (hc z hz) hq
  · exact hnode (hc x hx') (hb y hy) hp
  · exact hd y hy (ho.inj y (hb y hy) z (hc z hz) x hp hq ▸ hz)

/-- What other nodes own outlives the release of a node's blocks. -/
theorem Owned.frame {h h' : Store Cell} {as : List Addr} (ho : Owned h as)
    (hsame : ∀ x ∈ blocks h as, h'.get? x = h.get? x) :
    Owned h' as ∧ blocks h' as = blocks h as := by
  have hp : ∀ y ∈ as, payloadOf h' y = payloadOf h y := fun y hy => by
    rw [payloadOf, payloadOf, hsame y (mem_blocks.2 (.inl hy))]
  refine ⟨⟨ho.nodup, fun y hy q hq => ?_, fun y hy z hz q hq hq' => ?_⟩, ?_⟩
  · rw [hp y hy] at hq
    rw [hsame q (mem_blocks.2 (.inr ⟨y, hy, hq⟩))]
    exact ho.text y hy q hq
  · rw [hp y hy] at hq
    rw [hp z hz] at hq'
    exact ho.inj y hy z hz q hq hq'
  · rw [blocks, blocks, List.filterMap_congr hp]

/-- What a node owns, what is below it (`K`) and what is behind it (`U`) have no block in common. -/
theorem Owned.apart {h : Store Cell} {K U : List Addr} (ho : Owned h (a :: (K ++ U)))
    (hl : ∀ x ∈ a :: (K ++ U), ∃ k, links h x = some k) :
    Owned h K ∧ Owned h U ∧ ∀ x, (x ∈ blocks h [a] → x ∉ blocks h K ∧ x ∉ blocks h U) ∧
      (x ∈ blocks h U → x ∉ blocks h K) := by
  obtain ⟨haout, hKU⟩ := List.nodup_cons.1 ho.nodup
  obtain ⟨hK, hU, hdisj⟩ := List.nodup_append.1 hKU
  rw [List.mem_append, not_or] at haout
  have has : ∀ x ∈ [a], x ∈ a :: (K ++ U) := fun x hx => List.mem_singleton.1 hx ▸ List.mem_cons_self
  have hKs : ∀ x ∈ K, x ∈ a :: (K ++ U) := fun x hx =>
    List.mem_cons_of_mem _ (List.mem_append_left _ hx)
  have hUs : ∀ x ∈ U, x ∈ a :: (K ++ U) := fun x hx =>
    List.mem_cons_of_mem _ (List.mem_append_right _ hx)
  refine ⟨ho.subset hK hKs, ho.subset hU hUs, fun x => ⟨fun hx => ⟨?_, ?_⟩, ?_⟩⟩
  · exact ho.disjoint hl has hKs (fun y hy hy' => haout.1 (List.mem_singleton.1 hy ▸ hy')) hx
  · exact ho.disjoint hl has hUs (fun y hy hy' => haout.2 (List.mem_singleton.1 hy ▸ hy')) hx
  · exact ho.disjoint hl hUs hKs fun y hy hy' => hdisj y hy' y hy rfl

/-- The last half of `jd_Node_destroy`: the node and its payload are freed. -/
theorem free_node (hn : w.heap.get? a = some (.node n))
    (hp : ∀ q, n.payload = some q → ∃ block, w.heap.get? q = some (.text block)) :
    ∃ h', (do
        free n.payload
        free (some a)
        pure none : M Ptr) w = .ok (none, { w with heap := h' }) ∧ h'.size = w.heap.size ∧
      ∀ x, h'.get? x = if x = a ∨ n.payload = some x then none else w.heap.get? x := by
  cases hpay : n.payload with
  | none =>
    refine ⟨w.heap.release a, ?_, Store.size_release _ _, fun x => ?_⟩
    · rw [M.bind_ok (free_none _), M.bind_ok (free_run w hn)]
      rfl
    · rw [Store.get?_release]
      simp only [reduceCtorEq, or_false]
  | some q =>
    obtain ⟨block, htext⟩ := hp q hpay
    have hqa : q ≠ a := by
      rintro rfl
      rw [hn] at htext
      cases htext
    have hn1 : (w.heap.release q).get? a = some (.node n) := by
      rw [Store.get?_release_ne hqa.symm, hn]
    refine ⟨(w.heap.release q).release a, ?_, by simp only [Store.size_release], fun x => ?_⟩
    · rw [M.bind_ok (free_run w htext), M.bind_ok (free_run { w with heap := w.heap.release q } hn1)]
      rfl
    · rw [Store.get?_release, Store.get?_release]
      by_cases hx : x = a
      · rw [if_pos hx, if_pos (.inl hx)]
      · rw [if_neg hx]
        simp only [hx, false_or, Option.some.injEq, eq_comm]

/-- **The first half of `jd_Node_destroy`** on the node `a`: what is below it, the nodes `K`, is released;
what the nodes `U` own is not touched. -/
theorem destroy_below {fuel : Nat} {K U : List Addr} (hn : w.heap.get? a = some (.node n))
    (ho : Owned w.heap (a :: (K ++ U))) (hl : ∀ x ∈ a :: (K ++ U), ∃ k, links w.heap x = some k)
    (hK : n.firstChild = none → K = [])
    (hdown : ∃ h1, jdNodeDestroy.run fuel n.firstChild w = .ok (none, { w with heap := h1 }) ∧
      Released w.heap h1 K) :
    ∃ h1 n1, (∀ k : Unit → M Ptr, (if n.firstChild.isSome = true then do
          let child ← jdNodeDestroy.run fuel n.firstChild
          let r ← modifyNode (some a) fun n => { n with firstChild := child }
          k r
        else k ()) w = k () { w with heap := h1 }) ∧
      h1.size = w.heap.size ∧ h1.get? a = some (.node n1) ∧ n1.nextSibling = n.nextSibling ∧
      n1.payload = n.payload ∧
      (∀ x, x ≠ a → h1.get? x = if x ∈ blocks w.heap K then none else w.heap.get? x) ∧
      ∀ x ∈ blocks w.heap U, h1.get? x = w.heap.get? x := by
  obtain ⟨-, -, hap⟩ := ho.apart hl
  obtain ⟨haK, haU⟩ := (hap a).1 (mem_blocks.2 (.inl List.mem_cons_self))
  obtain ⟨h1, hrun1, hsize1, hn1, hget1⟩ :=
    descend (fun child n => { n with firstChild := child }) hn haK hK hdown
  refine ⟨h1, _, hrun1, hsize1, hn1, by split <;> rfl, by split <;> rfl, hget1, fun x hx => ?_⟩
  rw [hget1 x fun he => haU (he ▸ hx), if_neg ((hap x).2 hx)]

/-- **The end of `jd_Node_destroy`** on the node `a`, when what is below it (`K`) and behind it (`U`) is
released. -/
theorem destroy_self {h2 : Store Cell} {n2 : JdNode} {K U : List Addr} (hn : w.heap.get? a = some (.node n))
    (ho : Owned w.heap (a :: (K ++ U))) (hl : ∀ x ∈ a :: (K ++ U), ∃ k, links w.heap x = some k)
    (hn2 : h2.get? a = some (.node n2)) (hpay : n2.payload = n.payload)
    (hget : ∀ x, x ≠ a →
      h2.get? x = if x ∈ blocks w.heap K ∨ x ∈ blocks w.heap U then none else w.heap.get? x) :
    ∃ h3, (do
        free n2.payload
        free (some a)
        pure none : M Ptr) { w with heap := h2 } = .ok (none, { w with heap := h3 }) ∧
      h3.size = h2.size ∧
      ∀ x, h3.get? x = if x ∈ blocks w.heap (a :: (K ++ U)) then none else w.heap.get? x := by
  obtain ⟨-, -, hap⟩ := ho.apart hl
  have hblocks : ∀ x, x ∈ blocks w.heap (a :: (K ++ U)) ↔
      x = a ∨ n.payload = some x ∨ x ∈ blocks w.heap K ∨ x ∈ blocks w.heap U := by
    intro x
    rw [mem_blocks_cons, mem_blocks_append, payloadOf_node hn]
  have htexts : ∀ q, n2.payload = some q → ∃ block, h2.get? q = some (.text block) := by
    intro q hq
    obtain ⟨block, htext⟩ := ho.payload List.mem_cons_self hn (hpay.symm.trans hq)
    have hqa : q ≠ a := by
      rintro rfl
      cases hn.symm.trans htext
    have hmem : q ∈ blocks w.heap [a] :=
      mem_blocks.2 (.inr ⟨a, List.mem_cons_self, (payloadOf_node hn).trans (hpay.symm.trans hq)⟩)
    exact ⟨block, by rw [hget q hqa, if_neg (not_or.2 ((hap q).1 hmem)), htext]⟩
  obtain ⟨h3, hrun3, hsize3, hget3⟩ := @free_node { w with heap := h2 } a n2 hn2 htexts
  refine ⟨h3, hrun3, hsize3, fun x => ?_⟩
  rw [hget3, hpay]
  dsimp only
  by_cases hx : x = a
  · rw [if_pos (.inl hx), if_pos ((hblocks x).2 (.inl hx))]
  · simp only [hblocks, hx, false_or]
    by_cases hxp : n.payload = some x
    · rw [if_pos hxp, if_pos (.inl hxp)]
    · rw [if_neg hxp, hget x hx]
      simp only [hxp, false_or]

/-- **`jd_Node_destroy` releases a node, the siblings behind it and what is below them**, each block
once. -/
theorem destroy_chain {fuel : Nat} {w : World} {ts : List OTree} {parent prev : Ptr}
    (hts : Chain (links w.heap) parent prev none ts) (ho : Owned w.heap (addrsList ts))
    (hfuel : (addrsList ts).length ≤ fuel) :
    ∃ h', jdNodeDestroy.run fuel (firstOf ts none) w = .ok (none, { w with heap := h' }) ∧
      Released w.heap h' (addrsList ts) := by
  induction fuel generalizing w ts parent prev with
  | zero =>
    cases ts with
    | nil => exact ⟨w.heap, rfl, .nil _⟩
    | cons t ts => rw [addrsList_cons, addrs_eq] at hfuel; simp at hfuel
  | succ fuel ih =>
    rcases ts with _ | ⟨⟨a, ks⟩, us⟩
    · refine ⟨w.heap, rfl, ?_⟩
      rw [addrsList_nil]
      exact .nil _
    rw [addrsList_cons, addrs_node] at ho hfuel ⊢
    rw [chain_cons, linked_node] at hts
    obtain ⟨⟨hlink, hks⟩, hus⟩ := hts
    obtain ⟨n, hn, hlinks⟩ := links_some hlink
    have hfirst : n.firstChild = firstOf ks none := congrArg Links.first hlinks
    have hnext : n.nextSibling = firstOf us none := congrArg Links.next hlinks
    generalize hK : addrsList ks = K at *
    generalize hU : addrsList us = U at *
    simp only [List.cons_append, List.length_cons, List.length_append] at ho hfuel ⊢
    have hl : ∀ x ∈ a :: (K ++ U), ∃ k, links w.heap x = some k := by
      intro x hx
      rcases List.mem_cons.1 hx with rfl | hx
      · exact ⟨_, hlink⟩
      rcases List.mem_append.1 hx with hx | hx
      · exact hks.live x (hK ▸ hx)
      · exact hus.live x (hU ▸ hx)
    obtain ⟨hoK, hoU, hap⟩ := ho.apart hl
    have ha : a ∈ blocks w.heap [a] := mem_blocks.2 (.inl List.mem_cons_self)
    -- what is below the node
    have hdown := ih hks (hK ▸ hoK) (by rw [hK]; omega)
    rw [hK, ← hfirst] at hdown
    obtain ⟨h1, n1, hrun1, hsize1, hn1, hnext1, hpay1, hget1, hsame1⟩ := destroy_below hn ho hl
      (fun h => by rw [← hK, firstOf_eq_none.1 (hfirst.symm.trans h), addrsList_nil]) hdown
    rw [hnext] at hnext1
    -- the siblings behind it
    obtain ⟨hoU1, hbU⟩ := hoU.frame hsame1
    have hus1 : Chain (links h1) parent (some a) none us :=
      chain_congr (fun x hx => links_congr (hsame1 x (mem_blocks.2 (.inl (hU ▸ hx))))) hus
    have hright := @ih { w with heap := h1 } us _ _ hus1 (hU ▸ hoU1) (by rw [hU]; omega)
    rw [hU, ← hnext1] at hright
    obtain ⟨h2, hrun2, hsize2, hn2, hget2⟩ := @descend { w with heap := h1 } a n1 fuel _ U
      (fun next n => { n with nextSibling := next }) hn1 (by rw [hbU]; exact ((hap a).1 ha).2)
      (fun h => by rw [← hU, firstOf_eq_none.1 (hnext1.symm.trans h), addrsList_nil]) hright
    obtain ⟨n2, hn2, hpay2⟩ : ∃ n2, h2.get? a = some (.node n2) ∧ n2.payload = n.payload :=
      ⟨_, hn2, by split <;> exact hpay1⟩
    have hget : ∀ x, x ≠ a → h2.get? x =
        if x ∈ blocks w.heap K ∨ x ∈ blocks w.heap U then none else w.heap.get? x := by
      intro x hx
      rw [hget2 x hx, hbU]
      dsimp only
      rw [hget1 x hx]
      by_cases hxK : x ∈ blocks w.heap K <;> by_cases hxU : x ∈ blocks w.heap U <;> simp [hxK, hxU]
    have hrun : jdNodeDestroy.run (fuel + 1) (firstOf (.node a ks :: us) none) w =
        (do
          free n2.payload
          free (some a)
          pure none : M Ptr) { w with heap := h2 } := by
      rw [firstOf_cons, addr_node]
      unfold jdNodeDestroy.run
      rw [M.bind_ok (getNode_run w hn)]
      refine (hrun1 _).trans ?_
      rw [M.bind_ok (getNode_run { w with heap := h1 } hn1)]
      refine (hrun2 _).trans ?_
      exact M.bind_ok (getNode_run { w with heap := h2 } hn2)
    obtain ⟨h3, hrun3, hsize3, hget3⟩ := destroy_self hn ho hl hn2 hpay2 hget
    exact ⟨h3, hrun.trans hrun3, hsize3.trans (hsize2.trans hsize1), hget3⟩

/-- `jd_Node_destroy` of a node, with enough fuel for the cells there are. -/
theorem destroy_list {ts : List OTree} {parent prev : Ptr}
    (hts : Chain (links w.heap) parent prev none ts) (ho : Owned w.heap (addrsList ts)) :
    ∃ h', jdNodeDestroy (firstOf ts none) w = .ok (none, { w with heap := h' }) ∧
      Released w.heap h' (addrsList ts) := by
  apply destroy_chain hts ho
  have hsub : addrsList ts ⊆ List.range w.heap.size := by
    intro x hx
    obtain ⟨k, hk⟩ := hts.live x hx
    obtain ⟨n, hn, -⟩ := links_some hk
    exact List.mem_range.2 (Store.lt_size hn)
  simpa using ho.nodup.length_le_of_subset hsub

/-- `jd_Node_destroy_children` leaves the node with the link to its last child, which is freed. -/
theorem destroyChildren_run {ks : List OTree} (hn : w.heap.get? a = some (.node n))
    (hfirst : n.firstChild = firstOf ks none) (hks : Chain (links w.heap) (some a) none none ks)
    (ho : Owned w.heap (addrsList ks)) (ha : a ∉ blocks w.heap (addrsList ks)) :
    ∃ h', jdNodeDestroyChildren (some a) w = .ok ((), { w with heap := h' }) ∧ h'.size = w.heap.size ∧
      h'.get? a = some (.node { n with firstChild := none }) ∧
      ∀ x, x ≠ a → h'.get? x = if x ∈ blocks w.heap (addrsList ks) then none else w.heap.get? x := by
  obtain ⟨h1, hrun1, hrel⟩ := destroy_list hks ho
  have ha1 : h1.get? a = some (.node n) := by rw [hrel.get, if_neg ha, hn]
  refine ⟨h1.put a (.node { n with firstChild := none }), ?_, by rw [Store.size_put, hrel.size],
    Store.get?_put_self (Store.lt_size ha1), fun x hx => by rw [Store.get?_put_ne hx, hrel.get]⟩
  unfold jdNodeDestroyChildren
  rw [M.bind_ok (getNode_run w hn), hfirst, M.bind_ok hrun1]
  exact modifyNode_run { w with heap := h1 } ha1 _

/-- `jd_Node_destroy` of a detached tree. -/
theorem destroy_tree {t : OTree} (ht : Linked (links w.heap) none none none t)
    (ho : Owned w.heap t.addrs) :
    ∃ h', jdNodeDestroy (some t.addr) w = .ok (none, { w with heap := h' }) ∧
      Released w.heap h' t.addrs := by
  have hchain : Chain (links w.heap) none none none [t] := chain_cons.2 ⟨ht, chain_nil⟩
  obtain ⟨h', hrun, hrel⟩ := destroy_list hchain (by simpa using ho)
  exact ⟨h', hrun, by simpa using hrel⟩

end JsonDom
